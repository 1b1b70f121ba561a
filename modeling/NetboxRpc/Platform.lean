import NetboxRpc.JsonSchema

/-!
# What the plugin takes from its platform

Python, Django and jsonschema behaviour that lies outside the plugin, with the laws the plugin
relies on.
-/

namespace NetboxRpc

/-- An aware instant, in microseconds. -/
abbrev DateTime := ℤ

def isHexDigit (c : Char) : Bool := c.isDigit || (decide ('a' ≤ c) && decide (c ≤ 'f'))

theorem mem_of_isHexDigit {c : Char} (h : isHexDigit c = true) : c ∈ "0123456789abcdef".toList := by
  have hbounds : 48 ≤ c.toNat ∧ c.toNat ≤ 57 ∨ 97 ≤ c.toNat ∧ c.toNat ≤ 102 := by
    simp only [isHexDigit, Char.isDigit, Bool.or_eq_true, Bool.and_eq_true, decide_eq_true_eq] at h
    rcases h with ⟨hlo, hhi⟩ | ⟨hlo, hhi⟩
    · exact .inl ⟨hlo, hhi⟩
    · exact .inr ⟨hlo, hhi⟩
  have hcodes : ∀ n < 103, 48 ≤ n ∧ n ≤ 57 ∨ 97 ≤ n ∧ n ≤ 102 →
      Char.ofNat n ∈ "0123456789abcdef".toList := by decide
  rw [← Char.ofNat_toNat c]
  exact hcodes _ (by omega) hbounds

structure Platform where
  /-- The word characters behind `\b`. -/
  word : Char → Bool
  /-- `str` of a JSON value that is not text. -/
  str : Json → String
  /-- The hexadecimal `salted_hmac` of a mapping name under the deployment secret. -/
  keyedDigest : String → String
  keyedDigest_hex : ∀ name, (keyedDigest name).toList.all isHexDigit = true
  /-- The hexadecimal SHA-256 of the JSON text with sorted keys. -/
  sha256 : Json → String
  isoformat : DateTime → String
  fromisoformat : String → Option DateTime
  fromisoformat_isoformat : ∀ t, fromisoformat (isoformat t) = some t
  /-- `re.search` of a pattern given by its text. -/
  search : String → String → Bool
  /-- `jsonschema.validate(inst, schema)`: `none`, or the error's absolute path and validator. -/
  schemaError : Json → Json → Option (List String × String)

def Platform.stableHash (P : Platform) (v : Json) : String := P.sha256 v.sorted

theorem Platform.stableHash_congr (P : Platform) {v w : Json} (h : Json.KeyEq v w) :
    P.stableHash v = P.stableHash w := congrArg P.sha256 h

def Platform.Implements (P : Platform) (schema : Json) : Prop :=
  ∀ inst, P.schemaError schema inst = none ↔ JsonSchema.validates P.search schema inst = true

/-- A platform whose digests are constant, whose instants are written in unary, and whose patterns
match every text. -/
instance : Inhabited Platform where
  default :=
    { word := fun c => c.isAlphanum || c == '_'
      str := fun
        | .int n => toString n
        | _ => ""
      keyedDigest := fun _ => ""
      keyedDigest_hex := fun _ => rfl
      sha256 := fun _ => "0"
      isoformat := fun t =>
        String.ofList ('T' :: List.replicate t.toNat '+' ++ List.replicate (-t).toNat '-')
      fromisoformat := fun s => some (s.toList.count '+' - s.toList.count '-')
      fromisoformat_isoformat := fun t => by
        have hplus : (List.replicate t.toNat '+' ++ List.replicate (-t).toNat '-').count '+' =
            t.toNat := by
          simp [List.count_replicate]
        have hminus : (List.replicate t.toNat '+' ++ List.replicate (-t).toNat '-').count '-' =
            (-t).toNat := by
          simp [List.count_replicate]
        rw [String.toList_ofList, List.cons_append, List.count_cons_of_ne (by decide),
          List.count_cons_of_ne (by decide), hplus, hminus, Int.toNat_sub_toNat_neg]
      search := fun _ _ => true
      schemaError := fun schema inst =>
        if JsonSchema.validates (fun _ _ => true) schema inst then none else some ([], "schema") }

theorem implements_default (schema : Json) : (default : Platform).Implements schema := by
  intro inst
  change (if JsonSchema.validates (fun _ _ => true) schema inst = true then none else some _) =
    none ↔ JsonSchema.validates (fun _ _ => true) schema inst = true
  split_ifs with h <;> simp [h]

end NetboxRpc
