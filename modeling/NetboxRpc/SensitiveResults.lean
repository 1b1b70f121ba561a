import NetboxRpc.BackendResponse
import NetboxRpc.RedactedData

/-!
# Results under sensitive names

Redaction writes a text, a mapping or a boolean under a sensitive name, never a number or null. A
result schema that requires a number or null there is met by no result in its ledger form, whatever
the backend sent.
-/

namespace NetboxRpc

open JsonSchema

/-! ## Names that redaction keeps -/

theorem unusedPlaceholderFrom_cases (placeholder : String) (taken : List String) (fuel suffix : ℕ)
    (candidate : String) :
    unusedPlaceholderFrom placeholder taken fuel suffix candidate = candidate ∨
      ∃ n : ℕ, unusedPlaceholderFrom placeholder taken fuel suffix candidate =
        placeholder ++ "#" ++ toString n := by
  induction fuel generalizing suffix candidate with
  | zero => exact .inl rfl
  | succ fuel ih =>
    unfold unusedPlaceholderFrom
    split_ifs
    · rcases ih (suffix + 1) (placeholder ++ "#" ++ toString (suffix + 1)) with h | h
      · exact .inr ⟨suffix + 1, h⟩
      · exact .inr h
    · exact .inl rfl

/-- A placeholder starts with the bracket that no field name starts with. -/
theorem head_unusedPlaceholder (P : Platform) (name : String) (taken : List String) :
    (unusedPlaceholder P name taken).toList.head? = some '[' := by
  have hkeyed : ∀ suffix : String,
      (keyedMappingName P name ++ suffix).toList.head? = some '[' := fun suffix => by
    simp [keyedMappingName]
  rcases unusedPlaceholderFrom_cases (keyedMappingName P name) taken (taken.length + 1) 1
    (keyedMappingName P name) with h | ⟨n, h⟩
  · rw [unusedPlaceholder, h]
    simpa using hkeyed ""
  · rw [unusedPlaceholder, h, String.append_assoc]
    exact hkeyed _

theorem persistedNames_name {P : Platform} {secretNames taken : List String} {entries : Entries}
    {d : String × String × Json} (h : d ∈ persistedNames P secretNames taken entries) :
    d.1 = d.2.1 ∨ d.1.toList.head? = some '[' := by
  induction entries generalizing taken with
  | nil => cases h
  | cons e es ih =>
    unfold persistedNames at h
    split_ifs at h
    · rcases List.mem_cons.mp h with rfl | h
      · exact .inr (head_unusedPlaceholder P e.1 taken)
      · exact ih h
    · rcases List.mem_cons.mp h with rfl | h
      · exact .inl rfl
      · exact ih h

/-- Whatever a redacted mapping holds under a field name is a redacted value of that field. -/
theorem redacted_of_find {P : Platform} {child : String → List String → Json → Json}
    {path : List String} {entries : Entries} {key : String} {v : Json}
    (hhead : key.toList.head? ≠ some '[') (hkey : key ≠ "_truncated")
    (h : Json.find (redactEventMapping P child path entries) key = some v) :
    ∃ raw, v = child key (path ++ [key]) raw := by
  have hmem := Json.mem_of_find h
  unfold redactEventMapping at hmem
  have hfold : (key, v) ∈ (persistedMappingEntries P (keptEntries entries).1).foldl
      (fun d e => Json.set d e.1 (child e.2.1 (path ++ [e.2.1]) e.2.2)) [] := by
    dsimp only at hmem
    split_ifs at hmem
    · rcases Json.mem_of_mem_set hmem with hmem | heq
      · exact hmem
      · exact absurd (congrArg Prod.fst heq) hkey
    · exact hmem
  obtain ⟨e, he, heq⟩ := Json.mem_of_mem_foldl_set _ _ _ hfold
  obtain ⟨hname, hvalue⟩ := Prod.mk.inj heq
  rcases persistedNames_name he with hsame | hbracket
  · rw [← hsame, ← hname] at hvalue
    exact ⟨e.2.2, hvalue⟩
  · exact absurd (hname ▸ hbracket) hhead

/-! ## Values under a sensitive name -/

def isNumberOrNull : Json → Bool
  | .int _ | .float _ | .null => true
  | _ => false

theorem publicCredentialMetadata_not_number {P : Platform} {value metadata : Json} {key : String}
    (h : publicCredentialMetadata P value key = some metadata) : isNumberOrNull metadata = false := by
  have htext : ∀ {r : Regex.Rx}, matchesText r value = true → isNumberOrNull value = false := by
    intro r hr
    cases value <;> first | rfl | cases hr
  unfold publicCredentialMetadata at h
  split_ifs at h with hrefs hauthority hmatch hpolicy hmatch
  · unfold validateNamedReferences at h
    split at h
    · split_ifs at h
      obtain ⟨entries, -, rfl⟩ := Option.map_eq_some_iff.mp h
      rfl
    · cases h
  · cases h
    exact htext hmatch
  · cases h
    exact htext hmatch

theorem redactSensitiveValue_not_number (P : Platform) (key : String) (value : Json) :
    isNumberOrNull (redactSensitiveValue P key value) = false := by
  unfold redactSensitiveValue
  split
  · rfl
  · split
    · rename_i metadata hmetadata
      exact publicCredentialMetadata_not_number hmetadata
    · split_ifs with href
      · cases value <;> first | rfl | cases href
      · rfl

structure SensitiveName (key : String) : Prop where
  head : key.toList.head? ≠ some '['
  untruncated : key ≠ "_truncated"
  nonempty : key ≠ ""
  sensitive : isSensitiveKey key = true
  unruled : isBooleanPolicyKey key = false

instance (key : String) : Decidable (SensitiveName key) :=
  decidable_of_iff (key.toList.head? ≠ some '[' ∧ key ≠ "_truncated" ∧ key ≠ "" ∧
      isSensitiveKey key = true ∧ isBooleanPolicyKey key = false)
    ⟨fun h => ⟨h.1, h.2.1, h.2.2.1, h.2.2.2.1, h.2.2.2.2⟩,
      fun h => ⟨h.head, h.untruncated, h.nonempty, h.sensitive, h.unruled⟩⟩

theorem redactLevels_of_sensitive {P : Platform} {limits : StringLimits} {key : String}
    (h : SensitiveName key) (levels : ℕ) (path : List String) (value : Json) :
    redactLevels P limits levels key path value = redactSensitiveValue P key value := by
  have hlevel : ∀ child, redactLevel P limits child key path value =
      redactSensitiveValue P key value := fun child => by
    simp [redactLevel, h.nonempty, h.sensitive, h.unruled]
  cases levels with
  | zero => exact hlevel _
  | succ levels => exact hlevel _

/-! ## The ledger form of a result -/

theorem ledgerResult_eq (P : Platform) (limits : StringLimits) (result : Entries) :
    ledgerResult P limits result = .obj (redactEventMapping P
      (redactLevels P (underResult limits) (maxRedactionDepth - 1)) ["result"] result) := by
  rw [ledgerResult, valueOf, find_redactEventData_mapping P _ (by simp [eventFieldNames])]
  rfl

structure RequiresNumber (schema : Entries) (name : String) : Prop where
  required : ∃ names, ("required", names) ∈ schema ∧ name ∈ strings names
  typed : ∃ props sub types, ("properties", Json.obj props) ∈ schema ∧ (name, Json.obj sub) ∈ props ∧
    ("type", Json.arr types) ∈ sub ∧ strings (.arr types) ⊆ ["integer", "number", "null"]

theorem hasType_of_not_number {v : Json} (h : isNumberOrNull v = false) {t : String}
    (ht : t ∈ ["integer", "number", "null"]) : hasType v t = false := by
  simp only [List.mem_cons, List.not_mem_nil, or_false] at ht
  rcases ht with rfl | rfl | rfl <;> cases v <;> first | rfl | cases h

theorem ledgerResult_not_valid {search : String → String → Bool} {schema : Entries} {name : String}
    (hschema : RequiresNumber schema name) (hname : SensitiveName name) (P : Platform)
    (limits : StringLimits) (result : Entries) (fuel : ℕ) :
    valid search fuel (.obj schema) (ledgerResult P limits result) = false := by
  rw [Bool.eq_false_iff]
  intro hvalid
  obtain ⟨names, hnames, hmem⟩ := hschema.required
  obtain ⟨props, sub, types, hprops, hsub, htype, hnumber⟩ := hschema.typed
  rw [ledgerResult_eq] at hvalid
  cases fuel with
  | zero => cases hvalid
  | succ fuel =>
    obtain ⟨v, hv⟩ := find_of_required hvalid hnames hmem
    have hproperty := valid_property hvalid hprops hsub hv
    obtain ⟨raw, hraw⟩ := redacted_of_find hname.head hname.untruncated hv
    rw [redactLevels_of_sensitive hname] at hraw
    have hv' : isNumberOrNull v = false := hraw ▸ redactSensitiveValue_not_number P name raw
    cases fuel with
    | zero => cases hproperty
    | succ fuel =>
      obtain ⟨t, ht, hholds⟩ := hasType_of_valid hproperty htype rfl
      rw [hasType_of_not_number hv' (hnumber ht)] at hholds
      cases hholds

end NetboxRpc
