import NetboxRpc.Json

/-!
# JSON Schema validation

The Draft 2020-12 keywords that the procedure contracts use. `search` decides a `pattern` by its
text, as `re.search` does. A keyword that does not apply to the type of the instance holds.
-/

namespace JsonSchema

/-- Equality of instances: `1` equals `1.0`, and a boolean equals no number. -/
def equal (v w : Json) : Bool :=
  let integral : Json → Json := fun
    | .float q => if q.den = 1 then .int q.num else .float q
    | u => u
  decide (v.normalize integral = w.normalize integral)

def hasType : Json → String → Bool
  | .obj _, "object" | .arr _, "array" | .str _, "string" | .bool _, "boolean" | .null, "null" => true
  | .int _, t => t == "integer" || t == "number"
  | .float q, t => t == "number" || t == "integer" && q.den == 1
  | _, _ => false

def numberOf : Json → Option ℚ
  | .int n => some n
  | .float q => some q
  | _ => none

def strings : Json → List String
  | .arr items => items.filterMap (fun | .str s => some s | _ => none)
  | _ => []

def members : Json → List Json
  | .arr items => items
  | _ => []

def lengthWithin (cmp : ℕ → ℤ → Bool) : Json → Option ℕ → Bool
  | .int bound, some n => cmp n bound
  | _, _ => true

def stringLength : Json → Option ℕ
  | .str s => some s.length
  | _ => none

def itemCount : Json → Option ℕ
  | .arr items => some items.length
  | _ => none

def pairwiseDistinct : List Json → Bool
  | [] => true
  | v :: vs => vs.all (fun w => !equal v w) && pairwiseDistinct vs

section

variable (search : String → String → Bool)

def keyword (valid : Json → Json → Bool) (schema : List (String × Json)) (key : String)
    (arg inst : Json) : Bool :=
  match key with
  | "type" => match arg with
    | .str t => hasType inst t
    | _ => (strings arg).any (hasType inst)
  | "const" => equal arg inst
  | "enum" => (members arg).any (fun v => equal v inst)
  | "pattern" => match arg, inst with
    | .str p, .str s => search p s
    | _, _ => true
  | "minimum" => match numberOf arg, numberOf inst with
    | some bound, some n => decide (bound ≤ n)
    | _, _ => true
  | "maximum" => match numberOf arg, numberOf inst with
    | some bound, some n => decide (n ≤ bound)
    | _, _ => true
  | "minLength" => lengthWithin (fun n b => b ≤ n) arg (stringLength inst)
  | "maxLength" => lengthWithin (fun n b => n ≤ b) arg (stringLength inst)
  | "minItems" => lengthWithin (fun n b => b ≤ n) arg (itemCount inst)
  | "maxItems" => lengthWithin (fun n b => n ≤ b) arg (itemCount inst)
  | "uniqueItems" => match arg, inst with
    | .bool true, .arr items => pairwiseDistinct items
    | _, _ => true
  | "items" => match inst with
    | .arr items => items.all (valid arg)
    | _ => true
  | "required" => match inst with
    | .obj entries => (strings arg).all (fun name => (Json.find entries name).isSome)
    | _ => true
  | "properties" => match arg, inst with
    | .obj props, .obj entries => props.all (fun p => (Json.find entries p.1).all (valid p.2))
    | _, _ => true
  | "additionalProperties" => match inst with
    | .obj entries =>
      let declared := match Json.find schema "properties" with
        | some (.obj props) => props.map Prod.fst
        | _ => []
      entries.all (fun e => declared.contains e.1 || valid arg e.2)
    | _ => true
  | "allOf" => (members arg).all (fun s => valid s inst)
  | "anyOf" => (members arg).any (fun s => valid s inst)
  | "oneOf" => (members arg).countP (fun s => valid s inst) == 1
  | "if" => match Json.find schema (if valid arg inst then "then" else "else") with
    | some s => valid s inst
    | none => true
  | _ => true

def valid : ℕ → Json → Json → Bool
  | fuel + 1, .obj schema, inst => schema.all (fun e => keyword search (valid fuel) schema e.1 e.2 inst)
  | _ + 1, .bool b, _ => b
  | _, _, _ => false

end

mutual

def depth : Json → ℕ
  | .arr items => depthItems items + 1
  | .obj entries => depthEntries entries + 1
  | _ => 1

def depthItems : List Json → ℕ
  | [] => 0
  | v :: vs => max (depth v) (depthItems vs)

def depthEntries : List (String × Json) → ℕ
  | [] => 0
  | (_, v) :: es => max (depth v) (depthEntries es)

end

/-- `jsonschema.validate(instance=inst, schema=schema)` accepts. -/
def validates (search : String → String → Bool) (schema inst : Json) : Bool :=
  valid search (depth schema) schema inst

theorem keyword_of_valid {search : String → String → Bool} {fuel : ℕ}
    {schema : List (String × Json)} {inst : Json} (h : valid search (fuel + 1) (.obj schema) inst = true)
    {key : String} {arg : Json} (hmem : (key, arg) ∈ schema) :
    keyword search (valid search fuel) schema key arg inst = true :=
  List.all_eq_true.mp h (key, arg) hmem

/-- A valid object satisfies the subschema that its schema gives for a property. -/
theorem valid_property {search : String → String → Bool} {fuel : ℕ}
    {schema props entries : List (String × Json)}
    (h : valid search (fuel + 1) (.obj schema) (.obj entries) = true)
    (hprops : ("properties", .obj props) ∈ schema) {name : String} {sub v : Json}
    (hsub : (name, sub) ∈ props) (hv : Json.find entries name = some v) :
    valid search fuel sub v = true := by
  have hkey : props.all (fun p => (Json.find entries p.1).all (valid search fuel p.2)) = true :=
    keyword_of_valid h hprops
  have hname := List.all_eq_true.mp hkey (name, sub) hsub
  rw [hv] at hname
  exact hname

theorem find_of_required {search : String → String → Bool} {fuel : ℕ}
    {schema entries : List (String × Json)} {names : Json}
    (h : valid search (fuel + 1) (.obj schema) (.obj entries) = true)
    (hreq : ("required", names) ∈ schema) {name : String} (hname : name ∈ strings names) :
    ∃ v, Json.find entries name = some v := by
  have hkey : (strings names).all (fun name => (Json.find entries name).isSome) = true :=
    keyword_of_valid h hreq
  exact Option.isSome_iff_exists.mp (List.all_eq_true.mp hkey name hname)

theorem hasType_of_valid {search : String → String → Bool} {fuel : ℕ}
    {schema : List (String × Json)} {inst types : Json}
    (h : valid search (fuel + 1) (.obj schema) inst = true) (htype : ("type", types) ∈ schema)
    (hlist : types = .arr (members types)) : ∃ t ∈ strings types, hasType inst t = true := by
  have hkey := keyword_of_valid h htype
  rw [hlist] at hkey ⊢
  exact List.any_eq_true.mp hkey

theorem eq_of_equal_str {s : String} {v : Json} (h : equal (.str s) v = true) : v = .str s := by
  unfold equal at h
  have heq := of_decide_eq_true h
  cases v with
  | float q =>
    simp only [Json.normalize] at heq
    split_ifs at heq
  | null | bool b | int n | str t | arr items | obj entries => simp_all [Json.normalize]

theorem eq_of_equal_bool {b : Bool} {v : Json} (h : equal (.bool b) v = true) : v = .bool b := by
  unfold equal at h
  have heq := of_decide_eq_true h
  cases v with
  | float q =>
    simp only [Json.normalize] at heq
    split_ifs at heq
  | null | bool b | int n | str t | arr items | obj entries => simp_all [Json.normalize]

/-! ## Closed objects -/

def closedKeywords (required : List String) (props more : List (String × Json)) :
    List (String × Json) :=
  [("type", .str "object"), ("additionalProperties", .bool false),
    ("required", .arr (required.map .str)), ("properties", .obj props)] ++ more

theorem strings_map_str (names : List String) : strings (.arr (names.map .str)) = names := by
  simp [strings, List.filterMap_map]

theorem find_closedKeywords (required : List String) (props more : List (String × Json)) :
    Json.find (closedKeywords required props more) "properties" = some (.obj props) := by
  simp [closedKeywords, Json.find]

structure ClosedValid (search : String → String → Bool) (fuel : ℕ) (required : List String)
    (props more entries : List (String × Json)) : Prop where
  declared : ∀ name v, Json.find entries name = some v → name ∈ props.map Prod.fst
  present : ∀ name ∈ required, (Json.find entries name).isSome = true
  property : ∀ p ∈ props, ∀ v, Json.find entries p.1 = some v → valid search fuel p.2 v = true
  others : ∀ k ∈ more, keyword search (valid search fuel) (closedKeywords required props more) k.1
    k.2 (.obj entries) = true

theorem valid_closed_iff {search : String → String → Bool} {fuel : ℕ} {required : List String}
    {props more entries : List (String × Json)} (hnodup : (entries.map Prod.fst).Nodup) :
    valid search (fuel + 1) (.obj (closedKeywords required props more)) (.obj entries) = true ↔
      ClosedValid search fuel required props more entries := by
  have hfalse : ∀ v, valid search fuel (.bool false) v = false := fun v => by cases fuel <;> rfl
  have hadditional : keyword search (valid search fuel) (closedKeywords required props more)
      "additionalProperties" (.bool false) (.obj entries) = true ↔
        ∀ name v, Json.find entries name = some v → name ∈ props.map Prod.fst := by
    simp only [keyword, find_closedKeywords, hfalse, Bool.or_false, List.all_eq_true,
      List.contains_iff_mem]
    constructor
    · intro h name v hv
      exact h (name, v) (Json.mem_of_find hv)
    · intro h e he
      exact h e.1 e.2 ((Json.find_eq_some_iff hnodup).mpr he)
  have hrequired : keyword search (valid search fuel) (closedKeywords required props more)
      "required" (.arr (required.map .str)) (.obj entries) = true ↔
        ∀ name ∈ required, (Json.find entries name).isSome = true := by
    simp only [keyword, strings_map_str, List.all_eq_true]
  have hproperties : keyword search (valid search fuel) (closedKeywords required props more)
      "properties" (.obj props) (.obj entries) = true ↔
        ∀ p ∈ props, ∀ v, Json.find entries p.1 = some v → valid search fuel p.2 v = true := by
    simp only [keyword, List.all_eq_true]
    refine forall₂_congr (fun p _ => ?_)
    cases Json.find entries p.1 <;> simp
  have hall : valid search (fuel + 1) (.obj (closedKeywords required props more)) (.obj entries) =
      (closedKeywords required props more).all (fun e => keyword search (valid search fuel)
        (closedKeywords required props more) e.1 e.2 (.obj entries)) := rfl
  rw [hall, List.all_eq_true]
  constructor
  · intro h
    exact ⟨hadditional.mp (h ("additionalProperties", _) (by simp [closedKeywords])),
      hrequired.mp (h ("required", _) (by simp [closedKeywords])),
      hproperties.mp (h ("properties", _) (by simp [closedKeywords])),
      fun k hk => h k (List.mem_append_right _ hk)⟩
  · intro h k hk
    simp only [closedKeywords, List.cons_append, List.nil_append, List.mem_cons] at hk
    rcases hk with rfl | rfl | rfl | rfl | hk
    · rfl
    · exact hadditional.mpr h.declared
    · exact hrequired.mpr h.present
    · exact hproperties.mpr h.property
    · exact h.others k hk

/-- A closed object is judged by its lookups alone. -/
theorem valid_closed_congr {search : String → String → Bool} {fuel : ℕ} {required : List String}
    {props entries others : List (String × Json)} (hnodup : (entries.map Prod.fst).Nodup)
    (hnodup' : (others.map Prod.fst).Nodup) (h : Json.find others = Json.find entries) :
    valid search (fuel + 1) (.obj (closedKeywords required props [])) (.obj others) =
      valid search (fuel + 1) (.obj (closedKeywords required props [])) (.obj entries) := by
  rw [Bool.eq_iff_iff, valid_closed_iff hnodup, valid_closed_iff hnodup']
  constructor
  · intro hv
    exact ⟨h ▸ hv.declared, h ▸ hv.present, h ▸ hv.property, by simp⟩
  · intro hv
    exact ⟨h ▸ hv.declared, h ▸ hv.present, h ▸ hv.property, by simp⟩

theorem entries_of_valid_closed {search : String → String → Bool} {fuel : ℕ} {required : List String}
    {props more : List (String × Json)} {v : Json}
    (h : valid search (fuel + 1) (.obj (closedKeywords required props more)) v = true) :
    ∃ entries, v = .obj entries := by
  have htype : hasType v "object" = true :=
    @keyword_of_valid _ _ _ _ h "type" (.str "object") (by simp [closedKeywords])
  cases v with
  | obj entries => exact ⟨entries, rfl⟩
  | null | bool b | int n | float q | str s | arr items => simp [hasType] at htype

end JsonSchema
