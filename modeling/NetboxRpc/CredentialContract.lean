import NetboxRpc.Platform
import NetboxRpc.SecretPatterns

/-!
# Public credential references

`credential_contract.py`: the closed reference contract whose values pass event redaction.
-/

namespace NetboxRpc

open Regex JsonSchema

def positiveId : Json :=
  .obj [("type", .str "integer"), ("minimum", .int 1), ("maximum", .int 9007199254740991)]

def namePattern : String := "^[a-z][a-z0-9_]\x7b0,63\x7d$"

def targetSchema : Json :=
  .obj [("type", .str "object"), ("additionalProperties", .bool false),
    ("required", .arr [.str "object_type", .str "object_id"]),
    ("properties", .obj [
      ("object_type", .obj [("type", .str "string"), ("maxLength", .int 129),
        ("pattern", .str "^[a-z][a-z0-9_]\x7b0,63\x7d\\.[a-z][a-z0-9_]\x7b0,63\x7d$")]),
      ("object_id", positiveId)])]

def versionSchema : Json :=
  .obj [("oneOf", .arr [
    .obj [("type", .str "object"), ("additionalProperties", .bool false),
      ("required", .arr [.str "policy"]),
      ("properties", .obj [("policy", .obj [("const", .str "live")])])],
    .obj [("type", .str "object"), ("additionalProperties", .bool false),
      ("required", .arr [.str "policy", .str "number"]),
      ("properties", .obj [("policy", .obj [("const", .str "pinned")]),
        ("number", positiveId)])]])]

def fieldsSchema : Json :=
  .obj [("type", .str "array"), ("minItems", .int 1), ("maxItems", .int 16),
    ("uniqueItems", .bool true),
    ("items", .obj [("type", .str "string"), ("maxLength", .int 64), ("pattern", .str namePattern)])]

def referenceProperties : List (String × Json) :=
  [("schema_version", .obj [("type", .str "integer"), ("const", .int 1)]),
    ("provider", .obj [("const", .str "netbox-openbao")]),
    ("assignment_id", positiveId),
    ("credential_uuid", .obj [("type", .str "string"), ("minLength", .int 36),
      ("maxLength", .int 36)]),
    ("target", targetSchema),
    ("purpose", .obj [("enum", .arr [.str "login", .str "enable", .str "console", .str "oob",
      .str "api", .str "agent", .str "backup"])]),
    ("fields", fieldsSchema),
    ("version", versionSchema)]

def identityAlternatives : Json :=
  .arr [.obj [("required", .arr [.str "assignment_id"])],
    .obj [("required", .arr [.str "credential_uuid"])]]

def referenceSchema : Json :=
  .obj [("type", .str "object"), ("additionalProperties", .bool false),
    ("required", .arr [.str "schema_version", .str "provider", .str "target", .str "purpose",
      .str "fields", .str "version"]),
    ("properties", .obj referenceProperties),
    ("oneOf", identityAlternatives)]

def nameRe : Rx :=
  .seq (.set ⟨false, [('a', 'z')]⟩)
    (.rep .greedy 0 (some 63) (.set ⟨false, [('a', 'z'), ('0', '9'), ('_', '_')]⟩))

def labelRe : Rx := seqs [nameRe, chr '.', nameRe]

def hexRun (n : ℕ) : Rx := .rep .greedy n (some n) (.set ⟨false, [('0', '9'), ('a', 'f')]⟩)

/-- The texts that `str(UUID(text))` returns unchanged. -/
def canonicalUuidRe : Rx :=
  seqs [hexRun 8, chr '-', hexRun 4, chr '-', hexRun 4, chr '-', hexRun 4, chr '-', hexRun 12]

def isExactInt : Json → Bool
  | .int _ => true
  | _ => false

structure CredentialReferenceV1 where
  assignmentId : Option Json
  credentialUuid : Option Json
  objectType : Json
  objectId : Json
  purpose : Json
  fields : List Json
  policy : Json
  number : Option Json

def strictReferenceIntegers (value : Json) : Bool :=
  let under := fun (key name : String) => (value.get? key).bind (Json.get? · name)
  (value.get? "schema_version").any isExactInt && (under "target" "object_id").any isExactInt &&
    (value.get? "assignment_id").all isExactInt && (under "version" "number").all isExactInt

def matchesText (r : Rx) : Json → Bool
  | .str s => r.fullmatch s.toList
  | _ => false

/-- `CredentialReferenceV1.from_mapping`; `none` is the contract error. The keys it reads are those
the schema requires. -/
def referenceFromMapping (P : Platform) (value : Json) : Option CredentialReferenceV1 := do
  guard (P.schemaError referenceSchema value).isNone
  guard (strictReferenceIntegers value)
  let identifier := value.get? "credential_uuid"
  guard (identifier.all (matchesText canonicalUuidRe))
  let fields ← value.get? "fields"
  guard ((members fields).all (matchesText nameRe))
  let target ← value.get? "target"
  let label ← target.get? "object_type"
  guard (matchesText labelRe label)
  let objectId ← target.get? "object_id"
  let purpose ← value.get? "purpose"
  let version ← value.get? "version"
  let policy ← version.get? "policy"
  return ⟨value.get? "assignment_id", identifier, label, objectId, purpose, members fields, policy,
    version.get? "number"⟩

def CredentialReferenceV1.toMapping (r : CredentialReferenceV1) : Json :=
  .obj ([("schema_version", .int 1), ("provider", .str "netbox-openbao"),
    ("target", .obj [("object_type", r.objectType), ("object_id", r.objectId)]),
    ("purpose", r.purpose), ("fields", .arr r.fields),
    ("version", .obj ([("policy", r.policy)] ++ match r.number with
      | some n => [("number", n)]
      | none => []))] ++
    match r.assignmentId with
    | some n => [("assignment_id", n)]
    | none => [("credential_uuid", r.credentialUuid.getD .null)])

def referenceEntries (P : Platform) : List (String × Json) → Option (List (String × Json))
  | [] => some []
  | (name, reference) :: entries =>
    if nameRe.fullmatch name.toList then do
      let r ← referenceFromMapping P reference
      let rest ← referenceEntries P entries
      return (name, r.toMapping) :: rest
    else none

def validateNamedReferences (P : Platform) : Json → Option Json
  | .obj entries => if 16 < entries.length then none else (referenceEntries P entries).map .obj
  | _ => none

/-- The value that passes redaction under a sensitive key as public metadata. -/
def publicCredentialMetadata (P : Platform) (value : Json) (key : String) : Option Json :=
  if key = "credential_references" then validateNamedReferences P value
  else if key = "credential_authority_sha256" then
    if matchesText (hexRun 64) value then some value else none
  else if key = "credential_policy_ref" then
    if matchesText (.seq (lit "credential-authority:") (hexRun 64)) value then some value else none
  else none

/-! ## Reading a reference back -/

structure ReadsAs (P : Platform) (v : Json) (r : CredentialReferenceV1) : Prop where
  valid : P.schemaError referenceSchema v = none
  strict : strictReferenceIntegers v = true
  uuid : r.credentialUuid.all (matchesText canonicalUuidRe) = true
  fields : ∃ fields, v.get? "fields" = some fields ∧ members fields = r.fields
  named : r.fields.all (matchesText nameRe) = true
  target : ∃ target, v.get? "target" = some target ∧ target.get? "object_type" = some r.objectType ∧
    target.get? "object_id" = some r.objectId
  label : matchesText labelRe r.objectType = true
  purpose : v.get? "purpose" = some r.purpose
  version : ∃ version, v.get? "version" = some version ∧ version.get? "policy" = some r.policy ∧
    version.get? "number" = r.number
  assignment : v.get? "assignment_id" = r.assignmentId
  identifier : v.get? "credential_uuid" = r.credentialUuid

theorem referenceFromMapping_iff {P : Platform} {v : Json} {r : CredentialReferenceV1} :
    referenceFromMapping P v = some r ↔ ReadsAs P v r := by
  have hguard : ∀ (c : Bool) (a : Unit),
      ((if c = true then some () else failure : Option Unit) = some a) ↔ c = true := by
    intro c a
    cases c <;> simp [failure]
  simp only [referenceFromMapping, guard, Option.bind_eq_bind, Option.bind_eq_some_iff, hguard,
    Option.pure_def, Option.some.injEq]
  constructor
  · rintro ⟨_, hvalid, _, hstrict, _, huuid, fields, hfields, _, hnamed, target, htarget, label,
      hlabel, _, hmatch, objectId, hobject, purpose, hpurpose, version, hversion, policy, hpolicy,
      rfl⟩
    exact ⟨Option.isNone_iff_eq_none.mp hvalid, hstrict, huuid, ⟨fields, hfields, rfl⟩, hnamed, ⟨target, htarget, hlabel, hobject⟩,
      hmatch, hpurpose, ⟨version, hversion, hpolicy, rfl⟩, rfl, rfl⟩
  · intro h
    obtain ⟨fields, hfields, hmembers⟩ := h.fields
    obtain ⟨target, htarget, hlabel, hobject⟩ := h.target
    obtain ⟨version, hversion, hpolicy, hnumber⟩ := h.version
    refine ⟨(), Option.isNone_iff_eq_none.mpr h.valid, (), h.strict, (), h.identifier ▸ h.uuid, fields, hfields, (),
      hmembers ▸ h.named, target, htarget, _, hlabel, (), h.label, _, hobject, _, h.purpose, version,
      hversion, _, hpolicy, ?_⟩
    rw [h.assignment, h.identifier, hmembers, hnumber]

def targetProperties : List (String × Json) :=
  [("object_type", .obj [("type", .str "string"), ("maxLength", .int 129),
      ("pattern", .str "^[a-z][a-z0-9_]\x7b0,63\x7d\\.[a-z][a-z0-9_]\x7b0,63\x7d$")]),
    ("object_id", positiveId)]

theorem targetSchema_eq :
    targetSchema = .obj (closedKeywords ["object_type", "object_id"] targetProperties []) := rfl

def liveProperties : List (String × Json) := [("policy", .obj [("const", .str "live")])]

def pinnedProperties : List (String × Json) :=
  [("policy", .obj [("const", .str "pinned")]), ("number", positiveId)]

theorem versionSchema_eq : versionSchema = .obj [("oneOf", .arr [
    .obj (closedKeywords ["policy"] liveProperties []),
    .obj (closedKeywords ["policy", "number"] pinnedProperties [])])] := rfl

theorem referenceSchema_eq : referenceSchema = .obj (closedKeywords
    ["schema_version", "provider", "target", "purpose", "fields", "version"] referenceProperties
    [("oneOf", identityAlternatives)]) := rfl

theorem validates_referenceSchema : ∃ fuel, ∀ search v,
    validates search referenceSchema v = valid search (fuel + 4) referenceSchema v :=
  ⟨_, fun _ _ => rfl⟩

/-- The rebuilt target answers every lookup as the target that was read. -/
theorem valid_target {search : String → String → Bool} {fuel : ℕ} {target label objectId : Json}
    (hwf : target.wellFormed = true) (hvalid : valid search (fuel + 1) targetSchema target = true)
    (hlabel : target.get? "object_type" = some label)
    (hobject : target.get? "object_id" = some objectId) :
    valid search (fuel + 1) targetSchema
      (.obj [("object_type", label), ("object_id", objectId)]) = true := by
  rw [targetSchema_eq] at hvalid ⊢
  obtain ⟨entries, rfl⟩ := entries_of_valid_closed hvalid
  have hnodup := (Json.wellFormed_obj_iff.mp hwf).1
  have hdeclared := ((valid_closed_iff hnodup).mp hvalid).declared
  rw [valid_closed_congr hnodup (by simp), hvalid]
  funext name
  simp only [Json.get?] at hlabel hobject
  by_cases htype : name = "object_type"
  · rw [htype, hlabel]
    rfl
  · by_cases hid : name = "object_id"
    · rw [hid, hobject]
      rfl
    · cases hfind : Json.find entries name with
      | none => simp [Json.find_cons, Ne.symm htype, Ne.symm hid]
      | some v =>
        have := hdeclared name v hfind
        simp [targetProperties, htype, hid] at this

def versionEntries (policy : Json) (number : Option Json) : List (String × Json) :=
  ("policy", policy) :: (number.map (fun n => ("number", n))).toList

theorem valid_version {search : String → String → Bool} {fuel : ℕ} {version policy : Json}
    {number : Option Json} (hwf : version.wellFormed = true)
    (hvalid : valid search (fuel + 2) versionSchema version = true)
    (hpolicy : version.get? "policy" = some policy) (hnumber : version.get? "number" = number) :
    valid search (fuel + 2) versionSchema (.obj (versionEntries policy number)) = true := by
  have hcount : ∀ v, valid search (fuel + 2) versionSchema v =
      ([Json.obj (closedKeywords ["policy"] liveProperties []),
        Json.obj (closedKeywords ["policy", "number"] pinnedProperties [])].countP
          (fun s => valid search (fuel + 1) s v) == 1) := fun v => by
    rw [versionSchema_eq]
    simp [valid, keyword, members]
  have hobj : ∃ entries, version = .obj entries := by
    cases version with
    | obj entries => exact ⟨entries, rfl⟩
    | null | bool b | int n | float q | str s | arr items => cases hpolicy
  obtain ⟨entries, rfl⟩ := hobj
  have hnodup := (Json.wellFormed_obj_iff.mp hwf).1
  simp only [Json.get?] at hpolicy hnumber
  -- One alternative accepts the version, and both declare no other name.
  have hnames : ∀ name v, Json.find entries name = some v → name = "policy" ∨ name = "number" := by
    intro name v hv
    rw [hcount, beq_iff_eq] at hvalid
    obtain ⟨s, hs, haccepts⟩ := List.countP_pos_iff.mp (hvalid ▸ Nat.one_pos)
    simp only [List.mem_cons, List.not_mem_nil, or_false] at hs
    rcases hs with rfl | rfl
    · have := ((valid_closed_iff hnodup).mp haccepts).declared name v hv
      simp [liveProperties] at this
      exact .inl this
    · have := ((valid_closed_iff hnodup).mp haccepts).declared name v hv
      simpa [pinnedProperties] using this
  have hfind : Json.find (versionEntries policy number) = Json.find entries := by
    funext name
    by_cases hp : name = "policy"
    · rw [hp, hpolicy]
      rfl
    · by_cases hn : name = "number"
      · rw [hn, hnumber]
        cases number <;> simp [versionEntries, Json.find_cons]
      · cases hentry : Json.find entries name with
        | none => cases number <;> simp [versionEntries, Json.find_cons, Ne.symm hp, Ne.symm hn]
        | some v => exact absurd (hnames name v hentry) (by simp [hp, hn])
  have hnodup' : ((versionEntries policy number).map Prod.fst).Nodup := by
    cases number <;> simp [versionEntries]
  rw [hcount] at hvalid ⊢
  rw [List.countP_cons, List.countP_cons, List.countP_nil, valid_closed_congr hnodup hnodup' hfind,
    valid_closed_congr hnodup hnodup' hfind]
  simpa only [List.countP_cons, List.countP_nil] using hvalid

def rebuiltEntries (r : CredentialReferenceV1) (identity : String × Json) : List (String × Json) :=
  [("schema_version", .int 1), ("provider", .str "netbox-openbao"),
    ("target", .obj [("object_type", r.objectType), ("object_id", r.objectId)]),
    ("purpose", r.purpose), ("fields", .arr r.fields),
    ("version", .obj (versionEntries r.policy r.number)), identity]

theorem toMapping_eq (r : CredentialReferenceV1) : r.toMapping = .obj (rebuiltEntries r
    (match r.assignmentId with
      | some n => ("assignment_id", n)
      | none => ("credential_uuid", r.credentialUuid.getD .null))) := by
  cases hid : r.assignmentId <;> cases hnumber : r.number <;>
    simp [CredentialReferenceV1.toMapping, rebuiltEntries, versionEntries, hid, hnumber]

/-- Exactly one of the two identities is given. -/
theorem oneOf_identity_iff {search : String → String → Bool} {fuel : ℕ}
    {schema entries : List (String × Json)} :
    keyword search (valid search (fuel + 1)) schema "oneOf" identityAlternatives (.obj entries) =
      true ↔ (Json.find entries "assignment_id").isSome ≠
        (Json.find entries "credential_uuid").isSome := by
  have hrequired : ∀ name, valid search (fuel + 1) (.obj [("required", .arr [.str name])])
      (.obj entries) = (Json.find entries name).isSome := fun name => by
    simp [valid, keyword, strings]
  simp only [keyword, identityAlternatives, members, List.countP_cons, List.countP_nil, hrequired]
  cases (Json.find entries "assignment_id").isSome <;>
    cases (Json.find entries "credential_uuid").isSome <;> simp

def IsIdentity (v : Json) (identity : String × Json) : Prop :=
  v.get? identity.1 = some identity.2 ∧
    (identity.1 = "assignment_id" ∧ v.get? "credential_uuid" = none ∨
      identity.1 = "credential_uuid" ∧ v.get? "assignment_id" = none)

theorem ReadsAs.identity_of {P : Platform} (hP : P.Implements referenceSchema) {v : Json}
    {r : CredentialReferenceV1} (h : ReadsAs P v r) : IsIdentity v (match r.assignmentId with
      | some n => ("assignment_id", n)
      | none => ("credential_uuid", r.credentialUuid.getD .null)) := by
  obtain ⟨fuel, hfuel⟩ := validates_referenceSchema
  have hvalid := (hP v).mp h.valid
  rw [hfuel, referenceSchema_eq] at hvalid
  obtain ⟨entries, rfl⟩ := entries_of_valid_closed hvalid
  have hone := oneOf_identity_iff.mp (@keyword_of_valid _ _ _ _ hvalid "oneOf" identityAlternatives
    (by simp [closedKeywords]))
  have hassignment : Json.find entries "assignment_id" = _ := h.assignment
  have hidentifier : Json.find entries "credential_uuid" = _ := h.identifier
  rw [hassignment, hidentifier] at hone
  cases hid : r.assignmentId with
  | some n =>
    cases huuid : r.credentialUuid with
    | some u => simp [hid, huuid] at hone
    | none => exact ⟨hassignment.trans hid, .inl ⟨rfl, hidentifier.trans huuid⟩⟩
  | none =>
    cases huuid : r.credentialUuid with
    | some u => exact ⟨hidentifier.trans huuid, .inr ⟨rfl, hassignment.trans hid⟩⟩
    | none => simp [hid, huuid] at hone

/-- `to_mapping` of a reference that was read is valid. -/
theorem validates_rebuiltEntries {P : Platform} (hP : P.Implements referenceSchema) {v : Json}
    {r : CredentialReferenceV1} (hwf : v.wellFormed = true) (h : ReadsAs P v r) {identity : String × Json}
    (hid : IsIdentity v identity) :
    validates P.search referenceSchema (.obj (rebuiltEntries r identity)) = true := by
  obtain ⟨fuel, hfuel⟩ := validates_referenceSchema
  have hvalid := (hP v).mp h.valid
  rw [hfuel, referenceSchema_eq] at hvalid ⊢
  obtain ⟨entries, rfl⟩ := entries_of_valid_closed hvalid
  obtain ⟨hnodup, hmembers⟩ := Json.wellFormed_obj_iff.mp hwf
  have hread := (valid_closed_iff hnodup).mp hvalid
  have hvalue : ∀ {name : String} {w : Json}, Json.find entries name = some w →
      w.wellFormed = true := fun hw => hmembers _ (Json.mem_of_find hw)
  have hproperty : ∀ {name : String} {schema w : Json}, (name, schema) ∈ referenceProperties →
      Json.find entries name = some w → valid P.search (fuel + 3) schema w = true :=
    fun hmem hw => hread.property _ hmem _ hw
  have htarget : valid P.search (fuel + 3) targetSchema
      (.obj [("object_type", r.objectType), ("object_id", r.objectId)]) = true := by
    obtain ⟨target, hfind, hlabel, hobject⟩ := h.target
    exact valid_target (hvalue hfind)
      (hproperty (List.mem_of_getElem? (i := 4) rfl) hfind) hlabel hobject
  have hversion : valid P.search (fuel + 3) versionSchema
      (.obj (versionEntries r.policy r.number)) = true := by
    obtain ⟨version, hfind, hpolicy, hnumber⟩ := h.version
    exact valid_version (hvalue hfind)
      (hproperty (List.mem_of_getElem? (i := 7) rfl) hfind) hpolicy hnumber
  have hfields : valid P.search (fuel + 3) fieldsSchema (.arr r.fields) = true := by
    obtain ⟨fields, hfind, hmem⟩ := h.fields
    have hvalidFields := hproperty (List.mem_of_getElem? (i := 6) rfl) hfind
    have htype : hasType fields "array" = true :=
      @keyword_of_valid P.search (fuel + 2) _ _ hvalidFields "type" (.str "array") (by simp)
    cases fields with
    | arr items => exact hmem ▸ hvalidFields
    | null | bool b | int n | float q | str s | obj entries => simp [hasType] at htype
  have hpurpose := hproperty (List.mem_of_getElem? (i := 5) rfl) h.purpose
  obtain ⟨name, value⟩ := identity
  obtain ⟨hfind, hname⟩ := hid
  simp only [Json.get?] at hfind hname
  have hnames : ((rebuiltEntries r (name, value)).map Prod.fst).Nodup := by
    rcases hname with ⟨rfl, _⟩ | ⟨rfl, _⟩ <;> simp [rebuiltEntries]
  rw [valid_closed_iff hnames]
  refine ⟨fun key w hw => ?_, ?_, fun p hp w hw => ?_, ?_⟩
  · have hmem := List.mem_map_of_mem (f := Prod.fst) (Json.mem_of_find hw)
    rcases hname with ⟨rfl, _⟩ | ⟨rfl, _⟩
    · simp [rebuiltEntries, referenceProperties] at hmem ⊢
      grind
    · simp [rebuiltEntries, referenceProperties] at hmem ⊢
      grind
  · simp [rebuiltEntries, Json.find_cons]
  · simp only [referenceProperties, List.mem_cons, List.not_mem_nil, or_false] at hp
    rcases hp with rfl | rfl | rfl | rfl | rfl | rfl | rfl | rfl
    · simp only [rebuiltEntries, Json.find_cons, if_true, Option.some.injEq] at hw
      rw [← hw]
      simp [valid, keyword, hasType, equal]
    · simp [rebuiltEntries, Json.find_cons] at hw
      rw [← hw]
      simp [valid, keyword, equal]
    · rcases hname with ⟨rfl, _⟩ | ⟨rfl, _⟩
      · simp [rebuiltEntries, Json.find_cons] at hw
        exact hw ▸ hproperty (List.mem_of_getElem? (i := 2) rfl) hfind
      · simp [rebuiltEntries, Json.find_cons] at hw
    · rcases hname with ⟨rfl, _⟩ | ⟨rfl, _⟩
      · simp [rebuiltEntries, Json.find_cons] at hw
      · simp [rebuiltEntries, Json.find_cons] at hw
        exact hw ▸ hproperty (List.mem_of_getElem? (i := 3) rfl) hfind
    · simp [rebuiltEntries, Json.find_cons] at hw
      exact hw ▸ htarget
    · simp [rebuiltEntries, Json.find_cons] at hw
      exact hw ▸ hpurpose
    · simp [rebuiltEntries, Json.find_cons] at hw
      exact hw ▸ hfields
    · simp [rebuiltEntries, Json.find_cons] at hw
      exact hw ▸ hversion
  · intro k hk
    rw [List.mem_singleton.mp hk]
    refine oneOf_identity_iff.mpr ?_
    rcases hname with ⟨rfl, _⟩ | ⟨rfl, _⟩ <;> simp [rebuiltEntries, Json.find_cons]

/-- A reference that was read is read back from the mapping it writes. -/
theorem ReadsAs.toMapping {P : Platform} (hP : P.Implements referenceSchema) {v : Json}
    {r : CredentialReferenceV1} (hwf : v.wellFormed = true) (h : ReadsAs P v r) :
    ReadsAs P r.toMapping r := by
  have hid := h.identity_of hP
  have hvalid := validates_rebuiltEntries hP hwf h hid
  rw [← toMapping_eq, ← hP] at hvalid
  obtain ⟨target, htarget, hlabel, hobject⟩ := h.target
  obtain ⟨version, hversion, hpolicy, hnumber⟩ := h.version
  have hstrict := h.strict
  simp only [strictReferenceIntegers, htarget, hversion, Option.bind_some, hobject, hnumber,
    h.assignment, Option.any_some, Bool.and_eq_true] at hstrict
  have hfind : ∀ key, r.toMapping.get? key = Json.find (rebuiltEntries r _) key := fun key => by
    rw [toMapping_eq]
    rfl
  have hpair : r.toMapping.get? "assignment_id" = r.assignmentId ∧
      r.toMapping.get? "credential_uuid" = r.credentialUuid := by
    rw [hfind, hfind]
    rw [IsIdentity] at hid
    cases hassigned : r.assignmentId with
    | some n =>
      simp only [hassigned, h.identifier] at hid
      have habsent : r.credentialUuid = none := by simpa using hid.2
      simp [rebuiltEntries, Json.find_cons, habsent]
    | none =>
      simp only [hassigned, h.identifier] at hid
      have hpresent : r.credentialUuid = some (r.credentialUuid.getD .null) := hid.1
      refine ⟨by simp [rebuiltEntries, Json.find_cons], ?_⟩
      rw [hpresent]
      simp [rebuiltEntries, Json.find_cons]
  have hnumber' : (Json.obj (versionEntries r.policy r.number)).get? "number" = r.number := by
    cases hn : r.number <;> simp [versionEntries, Json.get?, Json.find_cons]
  refine ⟨hvalid, ?_, h.uuid, ⟨.arr r.fields, hfind _, rfl⟩, h.named,
    ⟨.obj [("object_type", r.objectType), ("object_id", r.objectId)], hfind _, rfl, rfl⟩, h.label,
    hfind _, ⟨.obj (versionEntries r.policy r.number), hfind _, rfl, hnumber'⟩, hpair.1, hpair.2⟩
  have htarget' : (r.toMapping.get? "target").bind (Json.get? · "object_id") = some r.objectId := by
    rw [hfind]
    rfl
  have hversion' : (r.toMapping.get? "version").bind (Json.get? · "number") = r.number := by
    rw [hfind]
    exact hnumber'
  have hschema : r.toMapping.get? "schema_version" = some (.int 1) := hfind _
  simp only [strictReferenceIntegers, hschema, htarget', hversion', hpair.1, Option.any_some,
    Bool.and_eq_true]
  exact ⟨⟨⟨rfl, hstrict.1.1.2⟩, hstrict.1.2⟩, hstrict.2⟩

theorem referenceEntries_toMapping {P : Platform} (hP : P.Implements referenceSchema)
    {entries read : List (String × Json)} (hwf : ∀ e ∈ entries, e.2.wellFormed = true) (h : referenceEntries P entries = some read) :
    referenceEntries P read = some read ∧ read.length = entries.length := by
  induction entries generalizing read with
  | nil =>
    cases h
    exact ⟨rfl, rfl⟩
  | cons e es ih =>
    obtain ⟨name, reference⟩ := e
    rw [referenceEntries] at h
    split_ifs at h with hname
    simp only [Option.bind_eq_bind, Option.bind_eq_some_iff, Option.pure_def,
      Option.some.injEq] at h
    obtain ⟨r, hr, rest, hrest, rfl⟩ := h
    have hback := (referenceFromMapping_iff.mp hr).toMapping hP (hwf _ List.mem_cons_self)
    have hes := ih (fun e he => hwf e (List.mem_cons_of_mem _ he)) hrest
    rw [referenceEntries, if_pos hname, referenceFromMapping_iff.mpr hback]
    simp [hes.1, hes.2]

/-- Public metadata is public metadata of its key. -/
theorem publicCredentialMetadata_idem {P : Platform} (hP : P.Implements referenceSchema)
    {v m : Json} {key : String} (hwf : v.wellFormed = true) (h : publicCredentialMetadata P v key = some m) :
    publicCredentialMetadata P m key = some m := by
  unfold publicCredentialMetadata at h ⊢
  split_ifs at h ⊢ with hreferences hauthority hhash hpolicy hmatch
  · cases v with
    | obj entries =>
      rw [validateNamedReferences] at h
      split_ifs at h with hsize
      obtain ⟨read, hread, rfl⟩ := Option.map_eq_some_iff.mp h
      obtain ⟨hback, hlength⟩ := referenceEntries_toMapping hP
        (Json.wellFormed_obj_iff.mp hwf).2 hread
      rw [validateNamedReferences, if_neg (by omega), hback]
      rfl
    | null | bool b | int n | float q | str s | arr items => cases h
  all_goals simp_all

end NetboxRpc
