import NetboxRpc.Json

/-!
# The compact JSON text of a value

`dumps` writes a value as `json.dumps` does with `ensure_ascii` and without blanks. The text of a
float is a parameter. What is needed of it is its length: how an object or an array grows by one
member, and how long a string of a given number of characters can get.
-/

namespace Json

def hexChar (n : ℕ) : Char := "0123456789abcdef".toList.getD n '0'

def unicodeEscape (n : ℕ) : List Char :=
  ['\\', 'u', hexChar (n / 4096 % 16), hexChar (n / 256 % 16), hexChar (n / 16 % 16),
    hexChar (n % 16)]

def encodeChar (c : Char) : List Char :=
  match c with
  | '"' => ['\\', '"']
  | '\\' => ['\\', '\\']
  | '\n' => ['\\', 'n']
  | '\r' => ['\\', 'r']
  | '\t' => ['\\', 't']
  | '\x08' => ['\\', 'b']
  | '\x0c' => ['\\', 'f']
  | c =>
    if ' ' ≤ c ∧ c ≤ '~' then [c]
    else if c.toNat < 0x10000 then unicodeEscape c.toNat
    -- A surrogate pair.
    else unicodeEscape (0xd800 + (c.toNat - 0x10000) / 0x400) ++
      unicodeEscape (0xdc00 + (c.toNat - 0x10000) % 0x400)

def encodeString (s : String) : List Char := '"' :: s.toList.flatMap encodeChar ++ ['"']

mutual

def dumps (floatText : ℚ → String) : Json → List Char
  | .null => "null".toList
  | .bool true => "true".toList
  | .bool false => "false".toList
  | .int n => (toString n).toList
  | .float q => (floatText q).toList
  | .str s => encodeString s
  | .arr items => '[' :: dumpsItems floatText items ++ [']']
  | .obj entries => '\x7b' :: dumpsEntries floatText entries ++ ['\x7d']

def dumpsItems (floatText : ℚ → String) : List Json → List Char
  | [] => []
  | v :: vs => v.dumps floatText ++ (if vs.isEmpty then [] else ',' :: dumpsItems floatText vs)

def dumpsEntries (floatText : ℚ → String) : List (String × Json) → List Char
  | [] => []
  | (k, v) :: es => encodeString k ++ ':' :: v.dumps floatText ++
      (if es.isEmpty then [] else ',' :: dumpsEntries floatText es)

end

mutual

def nodeCount : Json → ℕ
  | .arr items => 1 + nodeCountItems items
  | .obj entries => 1 + nodeCountEntries entries
  | _ => 1

def nodeCountItems : List Json → ℕ
  | [] => 0
  | v :: vs => v.nodeCount + nodeCountItems vs

def nodeCountEntries : List (String × Json) → ℕ
  | [] => 0
  | (_, v) :: es => v.nodeCount + nodeCountEntries es

end

/-! ## Lengths -/

theorem length_encodeChar_le (c : Char) : (encodeChar c).length ≤ 12 := by
  unfold encodeChar
  split
  all_goals first
    | split_ifs <;> simp [unicodeEscape]
    | simp

theorem length_encodeString_le (s : String) : (encodeString s).length ≤ 12 * s.length + 2 := by
  have hflat : ∀ l : List Char, (l.flatMap encodeChar).length ≤ 12 * l.length := by
    intro l
    induction l with
    | nil => simp
    | cons c cs ih =>
      have hc := length_encodeChar_le c
      simp only [List.flatMap_cons, List.length_append, List.length_cons]
      omega
  have hs := hflat s.toList
  simp only [encodeString, List.length_append, List.length_cons, List.length_nil,
    String.length_toList] at hs ⊢
  omega

def comma {α : Type*} (before : List α) : ℕ := if before.isEmpty then 0 else 1

@[simp] theorem comma_nil {α : Type*} : comma ([] : List α) = 0 := rfl

@[simp] theorem comma_cons {α : Type*} (a : α) (l : List α) : comma (a :: l) = 1 := rfl

theorem comma_append_singleton {α : Type*} (l : List α) (a : α) : comma (l ++ [a]) = 1 := by
  cases l <;> rfl

theorem comma_map {α β : Type*} (f : α → β) (l : List α) : comma (l.map f) = comma l := by
  cases l <;> rfl

variable (floatText : ℚ → String)

theorem length_dumpsItems_cons (v : Json) (vs : List Json) :
    (dumpsItems floatText (v :: vs)).length =
      (v.dumps floatText).length + comma vs + (dumpsItems floatText vs).length := by
  cases vs with
  | nil => simp [dumpsItems]
  | cons w ws => simp [dumpsItems]; omega

theorem length_dumpsItems_append (vs : List Json) (v : Json) :
    (dumpsItems floatText (vs ++ [v])).length =
      (dumpsItems floatText vs).length + comma vs + (v.dumps floatText).length := by
  induction vs with
  | nil => simp [dumpsItems]
  | cons w ws ih =>
    rw [List.cons_append, length_dumpsItems_cons, length_dumpsItems_cons, ih,
      comma_append_singleton, comma_cons]
    omega

theorem length_dumpsEntries_cons (e : String × Json) (es : List (String × Json)) :
    (dumpsEntries floatText (e :: es)).length =
      (encodeString e.1).length + 1 + (e.2.dumps floatText).length + comma es +
        (dumpsEntries floatText es).length := by
  obtain ⟨k, v⟩ := e
  cases es with
  | nil => simp [dumpsEntries]; omega
  | cons d ds => simp [dumpsEntries]; omega

theorem length_dumpsEntries_append (es : List (String × Json)) (e : String × Json) :
    (dumpsEntries floatText (es ++ [e])).length =
      (dumpsEntries floatText es).length + comma es + (encodeString e.1).length + 1 +
        (e.2.dumps floatText).length := by
  induction es with
  | nil =>
    rw [List.nil_append, length_dumpsEntries_cons]
    simp [dumpsEntries]
  | cons d ds ih =>
    rw [List.cons_append, length_dumpsEntries_cons, length_dumpsEntries_cons, ih,
      comma_append_singleton, comma_cons]
    omega

theorem length_dumps_arr (items : List Json) :
    ((Json.arr items).dumps floatText).length = 2 + (dumpsItems floatText items).length := by
  simp [dumps]; omega

theorem length_dumps_obj (entries : List (String × Json)) :
    ((Json.obj entries).dumps floatText).length = 2 + (dumpsEntries floatText entries).length := by
  simp [dumps]; omega

theorem nodeCountItems_append (vs : List Json) (v : Json) :
    nodeCountItems (vs ++ [v]) = nodeCountItems vs + v.nodeCount := by
  induction vs with
  | nil => simp [nodeCountItems]
  | cons w ws ih => simp only [List.cons_append, nodeCountItems, ih]; omega

theorem nodeCountEntries_append (es : List (String × Json)) (e : String × Json) :
    nodeCountEntries (es ++ [e]) = nodeCountEntries es + e.2.nodeCount := by
  induction es with
  | nil => simp [nodeCountEntries]
  | cons d ds ih => simp only [List.cons_append, nodeCountEntries, ih]; omega

end Json
