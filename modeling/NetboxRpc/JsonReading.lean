import NetboxRpc.JsonText

/-!
# A JSON text is the text of one value

The compact text of a value can be read in one way only: two values whose texts start the same
stream of characters are the same value, provided that a number is followed by something that is
not part of a number. Characters of strings are read back by `readChar`; the rest is told apart by
the first character of a text.
-/

namespace Json

/-! ## Characters of a string -/

def hexValue (c : Char) : ℕ := "0123456789abcdef".toList.idxOf c

def readUnit : List Char → Option (ℕ × List Char)
  | a :: b :: c :: d :: rest =>
    some (hexValue a * 4096 + hexValue b * 256 + hexValue c * 16 + hexValue d, rest)
  | _ => none

def readLow (high : ℕ) : List Char → Option (Char × List Char)
  | _ :: _ :: rest => (readUnit rest).map fun low =>
      (Char.ofNat (0x10000 + (high - 0xd800) * 0x400 + (low.1 - 0xdc00)), low.2)
  | _ => none

def unescape : Char → Char
  | 'n' => '\n'
  | 'r' => '\r'
  | 't' => '\t'
  | 'b' => '\x08'
  | 'f' => '\x0c'
  | c => c

def readEscape : List Char → Option (Char × List Char)
  | [] => none
  | c :: rest =>
    if c = 'u' then
      (readUnit rest).bind fun unit =>
        if 0xd800 ≤ unit.1 ∧ unit.1 < 0xdc00 then readLow unit.1 unit.2
        else some (Char.ofNat unit.1, unit.2)
    else some (unescape c, rest)

def readChar : List Char → Option (Char × List Char)
  | [] => none
  | c :: rest =>
    if c = '"' then none else if c = '\\' then readEscape rest else some (c, rest)

theorem hexValue_hexChar {n : ℕ} (h : n < 16) : hexValue (hexChar n) = n := by
  revert n
  decide

theorem readUnit_unicodeEscape {n : ℕ} (h : n < 0x10000) (rest : List Char) :
    readUnit ((unicodeEscape n).drop 2 ++ rest) = some (n, rest) := by
  have hdigits : ∀ m, hexValue (hexChar (m % 16)) = m % 16 :=
    fun m => hexValue_hexChar (Nat.mod_lt m (by decide))
  simp only [unicodeEscape, List.drop_succ_cons, List.drop_zero, List.cons_append, List.nil_append,
    readUnit, hdigits, Option.some.injEq, Prod.mk.injEq, and_true]
  omega

theorem readChar_unicodeEscape {n : ℕ} (h : n < 0x10000) (rest : List Char) :
    readChar (unicodeEscape n ++ rest) =
      if 0xd800 ≤ n ∧ n < 0xdc00 then readLow n rest else some (Char.ofNat n, rest) := by
  have hunit := readUnit_unicodeEscape h rest
  simp only [unicodeEscape, List.drop_succ_cons, List.drop_zero, List.cons_append,
    List.nil_append] at hunit
  simp only [unicodeEscape, List.cons_append, List.nil_append, readChar, readEscape, if_true]
  rw [if_neg (by decide), hunit, Option.bind_some]

theorem not_surrogate (c : Char) : ¬ (0xd800 ≤ c.toNat ∧ c.toNat < 0xdc00) := by
  rintro ⟨hlow, hhigh⟩
  rcases c.valid with h | ⟨h, -⟩
  · have : c.toNat < 0xd800 := h
    omega
  · have : 0xdfff < c.toNat := h
    omega

theorem readChar_wide {c : Char} (h : ¬ c.toNat < 0x10000) (rest : List Char) :
    readChar (unicodeEscape (0xd800 + (c.toNat - 0x10000) / 0x400) ++
      (unicodeEscape (0xdc00 + (c.toNat - 0x10000) % 0x400) ++ rest)) = some (c, rest) := by
  have hmax : c.toNat < 0x110000 := by
    rcases c.valid with h | ⟨-, h⟩
    · have : c.toNat < 0xd800 := h
      omega
    · exact h
  have hlow : 0xdc00 + (c.toNat - 0x10000) % 0x400 < 0x10000 := by omega
  have hunit := readUnit_unicodeEscape hlow rest
  rw [readChar_unicodeEscape (by omega), if_pos (by omega)]
  simp only [unicodeEscape, List.drop_succ_cons, List.drop_zero, List.cons_append,
    List.nil_append] at hunit
  simp only [unicodeEscape, List.cons_append, List.nil_append, readLow, hunit, Option.map_some]
  have hvalue : 0x10000 + (0xd800 + (c.toNat - 0x10000) / 0x400 - 0xd800) * 0x400 +
      (0xdc00 + (c.toNat - 0x10000) % 0x400 - 0xdc00) = c.toNat := by omega
  rw [hvalue, Char.ofNat_toNat]

theorem readChar_encodeChar (c : Char) (rest : List Char) :
    readChar (encodeChar c ++ rest) = some (c, rest) := by
  unfold encodeChar
  split
  case h_8 hquote hslash _ _ _ _ _ =>
    split_ifs with hplain hnarrow
    · rw [List.singleton_append, readChar, if_neg hquote, if_neg hslash]
    · rw [readChar_unicodeEscape hnarrow, if_neg (not_surrogate c), Char.ofNat_toNat]
    · rw [List.append_assoc]
      exact readChar_wide hnarrow rest
  all_goals rfl

/-- A string ends at the first quote that is not escaped. -/
theorem flatMap_encodeChar_unique {cs ds rest rest' : List Char}
    (h : cs.flatMap encodeChar ++ '"' :: rest = ds.flatMap encodeChar ++ '"' :: rest') :
    cs = ds ∧ rest = rest' := by
  have hquote : ∀ r, readChar ('"' :: r) = none := fun r => rfl
  induction cs generalizing ds with
  | nil =>
    cases ds with
    | nil => exact ⟨rfl, (List.cons.inj h).2⟩
    | cons d ds =>
      rw [List.flatMap_nil, List.nil_append, List.flatMap_cons, List.append_assoc] at h
      have hread := congrArg readChar h
      rw [hquote, readChar_encodeChar] at hread
      cases hread
  | cons c cs ih =>
    rw [List.flatMap_cons, List.append_assoc] at h
    have hread := congrArg readChar h
    rw [readChar_encodeChar] at hread
    cases ds with
    | nil =>
      rw [List.flatMap_nil, List.nil_append, hquote] at hread
      cases hread
    | cons d ds =>
      rw [List.flatMap_cons, List.append_assoc, readChar_encodeChar, Option.some.injEq,
        Prod.mk.injEq] at hread
      obtain ⟨rfl, hrest⟩ := hread
      obtain ⟨rfl, htail⟩ := ih hrest
      exact ⟨rfl, htail⟩

theorem encodeString_unique {s t : String} {rest rest' : List Char}
    (h : encodeString s ++ rest = encodeString t ++ rest') : s = t ∧ rest = rest' := by
  simp only [encodeString, List.cons_append, List.append_assoc, List.nil_append,
    List.cons.injEq, true_and] at h
  obtain ⟨hchars, hrest⟩ := flatMap_encodeChar_unique h
  exact ⟨String.toList_inj.mp hchars, hrest⟩

/-! ## Numbers -/

def isNumberChar (c : Char) : Bool :=
  c.isDigit || c == '-' || c == '+' || c == '.' || c == 'e'

/-- What a text of floats must be for numbers to be told apart: one text for each float, made of
the characters of numbers, and not the text of an integer. -/
structure ReadableFloats (floatText : ℚ → String) : Prop where
  injective : Function.Injective floatText
  number : ∀ q, ∀ c ∈ (floatText q).toList, isNumberChar c = true
  marked : ∀ q, '.' ∈ (floatText q).toList ∨ 'e' ∈ (floatText q).toList

def Ends (rest : List Char) : Prop := ∀ c t, rest = c :: t → isNumberChar c = false

theorem number_unique {x y rest rest' : List Char} (hx : ∀ c ∈ x, isNumberChar c = true)
    (hy : ∀ c ∈ y, isNumberChar c = true) (hrest : Ends rest) (hrest' : Ends rest')
    (h : x ++ rest = y ++ rest') : x = y ∧ rest = rest' := by
  have hstop : ∀ r, Ends r → r.takeWhile isNumberChar = [] := by
    intro r hr
    cases r with
    | nil => rfl
    | cons c t => rw [List.takeWhile_cons, hr c t rfl, if_neg Bool.false_ne_true]
  have htake := congrArg (List.takeWhile isNumberChar) h
  rw [List.takeWhile_append_of_pos hx, List.takeWhile_append_of_pos hy, hstop rest hrest,
    hstop rest' hrest', List.append_nil, List.append_nil] at htake
  subst htake
  exact ⟨rfl, List.append_cancel_left h⟩

theorem toList_toString_int (n : ℤ) : (toString n).toList =
    if 0 ≤ n then Nat.toDigits 10 n.toNat else '-' :: Nat.toDigits 10 (-n).toNat := by
  rw [Int.toString_eq_repr, Int.repr_eq_if]
  split_ifs
  · rw [Nat.repr_eq_ofList_toDigits, String.toList_ofList]
  · rw [Nat.repr_eq_ofList_toDigits, String.toList_append, String.toList_ofList,
      String.toList_ofList]
    rfl

theorem toDigits_injective {a b : ℕ} (h : Nat.toDigits 10 a = Nat.toDigits 10 b) : a = b := by
  have hvalue : Nat.ofDigitChars 10 (Nat.toDigits 10 a) 0 =
      Nat.ofDigitChars 10 (Nat.toDigits 10 b) 0 := by rw [h]
  rwa [Nat.ofDigitChars_toDigits (by decide) (by decide),
    Nat.ofDigitChars_toDigits (by decide) (by decide)] at hvalue

theorem toDigits_ne_sign (a : ℕ) (t : List Char) : Nat.toDigits 10 a ≠ '-' :: t := by
  intro h
  have hdigit : ('-' : Char).isDigit = true :=
    Nat.isDigit_of_mem_toDigits (by decide) (by decide) (h ▸ List.mem_cons_self)
  cases hdigit

theorem toString_int_injective {n m : ℤ} (h : (toString n).toList = (toString m).toList) :
    n = m := by
  rw [toList_toString_int, toList_toString_int] at h
  split_ifs at h with hn hm hm
  · have := toDigits_injective h
    omega
  · exact absurd h (toDigits_ne_sign _ _)
  · exact absurd h.symm (toDigits_ne_sign _ _)
  · have := toDigits_injective (List.cons.inj h).2
    omega

theorem isDigit_of_mem_toString_int {n : ℤ} {c : Char} (hc : c ∈ (toString n).toList) :
    c.isDigit = true ∨ c = '-' := by
  rw [toList_toString_int] at hc
  split_ifs at hc
  · exact .inl (Nat.isDigit_of_mem_toDigits (by decide) (by decide) hc)
  · rcases List.mem_cons.mp hc with rfl | hc
    · exact .inr rfl
    · exact .inl (Nat.isDigit_of_mem_toDigits (by decide) (by decide) hc)

theorem isNumberChar_of_mem_toString_int {n : ℤ} {c : Char} (hc : c ∈ (toString n).toList) :
    isNumberChar c = true := by
  rcases isDigit_of_mem_toString_int hc with h | rfl
  · simp [isNumberChar, h]
  · rfl

theorem toString_int_ne_floatText {floatText : ℚ → String} (hf : ReadableFloats floatText) (n : ℤ)
    (q : ℚ) : (toString n).toList ≠ (floatText q).toList := by
  intro h
  rcases hf.marked q with hmark | hmark
  all_goals
    rw [← h] at hmark
    rcases isDigit_of_mem_toString_int hmark with hc | hc <;> revert hc <;> decide

/-! ## Lists -/

section Lists

variable {α : Type*}

def ReadsOnce (text : α → List Char) (a : α) : Prop :=
  ∀ (b : α) (rest rest' : List Char), Ends rest → Ends rest' →
    text a ++ rest = text b ++ rest' → a = b ∧ rest = rest'

def commaJoined (text : α → List Char) : List α → List Char
  | [] => []
  | a :: as => text a ++ (if as.isEmpty then [] else ',' :: commaJoined text as)

theorem ends_cons {c : Char} (h : isNumberChar c = false) (t : List Char) : Ends (c :: t) := by
  intro d u heq
  rw [← (List.cons.inj heq).1, h]

theorem ends_commaJoined {text : α → List Char} {close : Char} (h : isNumberChar close = false)
    (as : List α) (rest : List Char) :
    Ends ((if as.isEmpty then [] else ',' :: commaJoined text as) ++ close :: rest) := by
  cases as with
  | nil => exact ends_cons h rest
  | cons a as => exact ends_cons rfl _

/-- A list in brackets reads in one way when its elements do and no element starts with the closing
bracket. -/
theorem commaJoined_unique {text : α → List Char} {close : Char} (hcomma : close ≠ ',')
    (hclose : isNumberChar close = false) (hopen : ∀ a t u, close :: t ≠ text a ++ u)
    {as bs : List α} (has : ∀ a ∈ as, ReadsOnce text a) {rest rest' : List Char}
    (h : commaJoined text as ++ close :: rest = commaJoined text bs ++ close :: rest') :
    as = bs ∧ rest = rest' := by
  induction as generalizing bs with
  | nil =>
    cases bs with
    | nil => exact ⟨rfl, (List.cons.inj h).2⟩
    | cons b bs =>
      rw [commaJoined, commaJoined, List.nil_append, List.append_assoc] at h
      exact absurd h (hopen b rest _)
  | cons a as ih =>
    obtain ⟨ha, has⟩ := List.forall_mem_cons.mp has
    rw [commaJoined, List.append_assoc] at h
    cases bs with
    | nil =>
      rw [commaJoined, List.nil_append] at h
      exact absurd h.symm (hopen a rest' _)
    | cons b bs =>
      rw [commaJoined, List.append_assoc] at h
      obtain ⟨rfl, hmore⟩ := ha b _ _ (ends_commaJoined hclose as rest)
        (ends_commaJoined hclose bs rest') h
      -- what follows the first element tells whether there are more
      cases as with
      | nil =>
        cases bs with
        | nil => exact ⟨rfl, (List.cons.inj hmore).2⟩
        | cons b bs => exact absurd (List.cons.inj hmore).1 hcomma
      | cons a' as =>
        cases bs with
        | nil => exact absurd (List.cons.inj hmore).1.symm hcomma
        | cons b' bs =>
          obtain ⟨hrest, hends⟩ := ih has (List.cons.inj hmore).2
          exact ⟨by rw [hrest], hends⟩

end Lists

/-! ## Values -/

inductive Kind
  | null
  | bool (b : Bool)
  | number
  | str
  | arr
  | obj

def kind : Json → Kind
  | .null => .null
  | .bool b => .bool b
  | .int _ => .number
  | .float _ => .number
  | .str _ => .str
  | .arr _ => .arr
  | .obj _ => .obj

def kindOfChar (c : Char) : Option Kind :=
  if isNumberChar c then some .number
  else if c = 'n' then some .null
  else if c = 't' then some (.bool true)
  else if c = 'f' then some (.bool false)
  else if c = '"' then some .str
  else if c = '[' then some .arr
  else if c = '\x7b' then some .obj
  else none

theorem exists_cons_of_number {text : List Char} (hne : text ≠ [])
    (h : ∀ c ∈ text, isNumberChar c = true) :
    ∃ c t, text = c :: t ∧ kindOfChar c = some .number := by
  obtain ⟨c, t, rfl⟩ := List.exists_cons_of_ne_nil hne
  exact ⟨c, t, rfl, if_pos (h c List.mem_cons_self)⟩

def entryText (floatText : ℚ → String) (e : String × Json) : List Char :=
  encodeString e.1 ++ ':' :: e.2.dumps floatText

theorem dumpsItems_eq_commaJoined (floatText : ℚ → String) (items : List Json) :
    dumpsItems floatText items = commaJoined (dumps floatText) items := by
  induction items with
  | nil => rfl
  | cons v vs ih => rw [dumpsItems, commaJoined, ih]

theorem dumpsEntries_eq_commaJoined (floatText : ℚ → String) (entries : List (String × Json)) :
    dumpsEntries floatText entries = commaJoined (entryText floatText) entries := by
  induction entries with
  | nil => rfl
  | cons e es ih =>
    rw [dumpsEntries, commaJoined, ih, entryText, List.append_assoc]

theorem readsOnce_entry {floatText : ℚ → String} {e : String × Json} (he : ReadsOnce (dumps floatText) e.2) :
    ReadsOnce (entryText floatText) e := by
  intro d rest rest' hrest hrest' h
  simp only [entryText, List.append_assoc, List.cons_append] at h
  obtain ⟨hname, hvalue⟩ := encodeString_unique h
  obtain ⟨hsame, hends⟩ := he d.2 rest rest' hrest hrest' (List.cons.inj hvalue).2
  exact ⟨Prod.ext hname hsame, hends⟩

section Values

variable {floatText : ℚ → String} (hf : ReadableFloats floatText)
include hf

theorem exists_dumps_eq_cons (v : Json) :
    ∃ c t, v.dumps floatText = c :: t ∧ kindOfChar c = some v.kind := by
  cases v with
  | null => exact ⟨_, _, rfl, rfl⟩
  | bool b => cases b <;> exact ⟨_, _, rfl, rfl⟩
  | int n =>
    refine exists_cons_of_number ?_ fun c => isNumberChar_of_mem_toString_int
    rw [dumps, toList_toString_int]
    split_ifs
    · exact Nat.toDigits_ne_nil
    · exact List.cons_ne_nil _ _
  | float q =>
    refine exists_cons_of_number ?_ (hf.number q)
    rcases hf.marked q with h | h
    · exact List.ne_nil_of_mem h
    · exact List.ne_nil_of_mem h
  | str s => exact ⟨_, _, rfl, rfl⟩
  | arr items => exact ⟨_, _, rfl, rfl⟩
  | obj entries => exact ⟨_, _, rfl, rfl⟩

theorem kind_eq_of_dumps {v w : Json} {rest rest' : List Char}
    (h : v.dumps floatText ++ rest = w.dumps floatText ++ rest') : w.kind = v.kind := by
  obtain ⟨c, t, hv, hc⟩ := exists_dumps_eq_cons hf v
  obtain ⟨d, u, hw, hd⟩ := exists_dumps_eq_cons hf w
  rw [hv, hw, List.cons_append, List.cons_append, List.cons.injEq] at h
  rw [h.1, hd] at hc
  exact Option.some.inj hc

theorem close_ne_dumps {c : Char} (hc : kindOfChar c = none) (v : Json) (t u : List Char) :
    c :: t ≠ v.dumps floatText ++ u := by
  intro heq
  obtain ⟨d, tail, hv, hd⟩ := exists_dumps_eq_cons hf v
  rw [hv, List.cons_append, List.cons.injEq] at heq
  rw [← heq.1, hc] at hd
  cases hd

theorem readsOnce_number {v : Json} (hv : v.kind = .number)
    (htext : ∀ c ∈ v.dumps floatText, isNumberChar c = true)
    (hvalue : ∀ w : Json, w.kind = .number → v.dumps floatText = w.dumps floatText → v = w) :
    ReadsOnce (dumps floatText) v := by
  intro w rest rest' hrest hrest' h
  have hkind : w.kind = .number := (kind_eq_of_dumps hf h).trans hv
  have hw : ∀ c ∈ w.dumps floatText, isNumberChar c = true := by
    cases w with
    | int n => exact fun c => isNumberChar_of_mem_toString_int
    | float q => exact hf.number q
    | _ => cases hkind
  obtain ⟨hsame, hrests⟩ := number_unique htext hw hrest hrest' h
  exact ⟨hvalue w hkind hsame, hrests⟩

theorem readsOnce_int (n : ℤ) : ReadsOnce (dumps floatText) (.int n) := by
  refine readsOnce_number hf rfl (fun c => isNumberChar_of_mem_toString_int) ?_
  intro w hkind h
  cases w with
  | int m => rw [toString_int_injective h]
  | float q => exact absurd h (toString_int_ne_floatText hf n q)
  | _ => cases hkind

theorem readsOnce_float (q : ℚ) : ReadsOnce (dumps floatText) (.float q) := by
  refine readsOnce_number hf rfl (hf.number q) ?_
  intro w hkind h
  cases w with
  | int m => exact absurd h.symm (toString_int_ne_floatText hf m q)
  | float p => rw [hf.injective (String.toList_inj.mp h)]
  | _ => cases hkind

theorem readsOnce_arr {items : List Json} (hitems : ∀ v ∈ items, ReadsOnce (dumps floatText) v) :
    ReadsOnce (dumps floatText) (.arr items) := by
  intro w rest rest' _ _ h
  have hkind := kind_eq_of_dumps hf h
  cases w with
  | arr others =>
    simp only [dumps, dumpsItems_eq_commaJoined, List.cons_append, List.append_assoc,
      List.nil_append, List.cons.injEq, true_and] at h
    obtain ⟨rfl, hrest⟩ := commaJoined_unique (by decide) rfl
      (close_ne_dumps hf (show kindOfChar ']' = none from rfl)) hitems h
    exact ⟨rfl, hrest⟩
  | _ => cases hkind

theorem readsOnce_obj {entries : List (String × Json)}
    (hentries : ∀ e ∈ entries, ReadsOnce (dumps floatText) e.2) :
    ReadsOnce (dumps floatText) (.obj entries) := by
  intro w rest rest' _ _ h
  have hkind := kind_eq_of_dumps hf h
  cases w with
  | obj others =>
    simp only [dumps, dumpsEntries_eq_commaJoined, List.cons_append, List.append_assoc,
      List.nil_append, List.cons.injEq, true_and] at h
    have hopen : ∀ (e : String × Json) (t u : List Char),
        '\x7d' :: t ≠ entryText floatText e ++ u := by
      intro e t u heq
      rw [entryText, encodeString] at heq
      exact absurd (List.cons.inj heq).1 (by decide)
    obtain ⟨rfl, hrest⟩ := commaJoined_unique (by decide) rfl hopen
      (fun e he => readsOnce_entry (hentries e he)) h
    exact ⟨rfl, hrest⟩
  | _ => cases hkind

theorem readsOnce_dumps (v : Json) : ReadsOnce (dumps floatText) v := by
  induction v using Json.induct with
  | null =>
    intro w rest rest' _ _ h
    have hkind := kind_eq_of_dumps hf h
    cases w <;> cases hkind
    exact ⟨rfl, List.append_cancel_left h⟩
  | bool b =>
    intro w rest rest' _ _ h
    have hkind := kind_eq_of_dumps hf h
    cases w <;> cases hkind
    exact ⟨rfl, List.append_cancel_left h⟩
  | int n => exact readsOnce_int hf n
  | float q => exact readsOnce_float hf q
  | str s =>
    intro w rest rest' _ _ h
    have hkind := kind_eq_of_dumps hf h
    cases w with
    | str t =>
      obtain ⟨rfl, hrest⟩ := encodeString_unique h
      exact ⟨rfl, hrest⟩
    | _ => cases hkind
  | arr items hitems => exact readsOnce_arr hf hitems
  | obj entries hentries => exact readsOnce_obj hf hentries

theorem dumps_injective : Function.Injective (dumps floatText) := by
  intro v w h
  have hends : Ends [] := fun c t h => by cases h
  exact (readsOnce_dumps hf v w [] [] hends hends (by rw [h])).1

end Values

/-! ## A readable text -/

def fractionText (q : ℚ) : String := toString q.num ++ "." ++ toString (q.den : ℤ)

theorem toList_fractionText (q : ℚ) : (fractionText q).toList =
    (toString q.num).toList ++ '.' :: (toString (q.den : ℤ)).toList := by
  rw [fractionText, String.toList_append, String.toList_append, List.append_assoc]
  rfl

theorem point_not_mem_toString_int (n : ℤ) : '.' ∉ (toString n).toList := by
  intro h
  rcases isDigit_of_mem_toString_int h with hc | hc <;> revert hc <;> decide

theorem readableFloats_fractionText : ReadableFloats fractionText where
  injective := by
    intro p q h
    have htext := congrArg String.toList h
    rw [toList_fractionText, toList_fractionText, List.append_cons_inj_of_notMem
      (point_not_mem_toString_int _) (point_not_mem_toString_int _)] at htext
    obtain ⟨hnum, -, hden⟩ := htext
    exact Rat.ext (toString_int_injective hnum) (Int.ofNat.inj (toString_int_injective hden))
  number := by
    intro q c hc
    rw [toList_fractionText, List.mem_append, List.mem_cons] at hc
    rcases hc with hc | rfl | hc
    · exact isNumberChar_of_mem_toString_int hc
    · rfl
    · exact isNumberChar_of_mem_toString_int hc
  marked := by
    intro q
    rw [toList_fractionText]
    exact .inl (List.mem_append_right _ List.mem_cons_self)

end Json
