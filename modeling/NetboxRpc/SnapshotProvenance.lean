import NetboxRpc.MappingEntries
import NetboxRpc.PersistedSnapshot

/-!
# Where the texts of the persisted snapshot come from

The persisted copy is made in four steps: a bounded traversal, the replacement of matched text,
redaction and a second bounded traversal. Each keeps one relation between the field it started from
and the value it made. A stored text is what cutting and redacting leave of a text in the same
place that the secret pattern does not match, and a stored name is made from the cut key.
-/

namespace NetboxRpc

open Budget SafeValue

/-! ## Public metadata is built from the value it replaces -/

inductive Built : Json → Json → Prop
  | same (v : Json) : Built v v
  | obj {entries out : List (String × Json)} (source : (e : String × Json) → e ∈ out → Json)
      (hlength : out.length ≤ targetSnapshotMaxKeys) (hnodup : (out.map Prod.fst).Nodup)
      (hmem : ∀ e (he : e ∈ out), (e.1, source e he) ∈ entries)
      (hbuilt : ∀ e (he : e ∈ out), Built (source e he) e.2) : Built (.obj entries) (.obj out)

theorem Built.of_mem {entries out : List (String × Json)}
    (hlength : out.length ≤ targetSnapshotMaxKeys) (hnodup : (out.map Prod.fst).Nodup)
    (h : ∀ e ∈ out, ∃ v, (e.1, v) ∈ entries ∧ Built v e.2) : Built (.obj entries) (.obj out) := by
  choose source hmem hbuilt using h
  exact .obj source hlength hnodup hmem hbuilt

section

variable {P : Platform} {v : Json} {r : CredentialReferenceV1}

theorem exists_obj_of_get? {v w : Json} {name : String} (h : v.get? name = some w) :
    ∃ entries, v = .obj entries ∧ (name, w) ∈ entries := by
  cases v with
  | obj entries => exact ⟨entries, rfl, Json.mem_of_find h⟩
  | null | bool b | int n | float q | str s | arr items => cases h

theorem ReadsAs.built_target (h : ReadsAs P v r) : ∃ target, v.get? "target" = some target ∧
    Built target (.obj [("object_type", r.objectType), ("object_id", r.objectId)]) := by
  obtain ⟨target, hfind, hlabel, hobject⟩ := h.target
  obtain ⟨entries, rfl, hmem⟩ := exists_obj_of_get? hlabel
  refine ⟨_, hfind, .of_mem (by simp [targetSnapshotMaxKeys]) (by simp) (fun e he => ?_)⟩
  simp only [List.mem_cons, List.not_mem_nil, or_false] at he
  rcases he with rfl | rfl
  · exact ⟨_, hmem, .same _⟩
  · exact ⟨_, Json.mem_of_find hobject, .same _⟩

theorem ReadsAs.built_version (h : ReadsAs P v r) : ∃ version, v.get? "version" = some version ∧
    Built version (.obj (versionEntries r.policy r.number)) := by
  obtain ⟨version, hfind, hpolicy, hnumber⟩ := h.version
  obtain ⟨entries, rfl, hmem⟩ := exists_obj_of_get? hpolicy
  refine ⟨_, hfind, .of_mem ?_ ?_ (fun e he => ?_)⟩
  · cases r.number <;> simp [versionEntries, targetSnapshotMaxKeys]
  · cases r.number <;> simp [versionEntries]
  · rcases List.mem_cons.mp he with rfl | he
    · exact ⟨_, hmem, .same _⟩
    · obtain ⟨n, hn, rfl⟩ := Option.map_eq_some_iff.mp (Option.mem_toList.mp he)
      exact ⟨n, Json.mem_of_find (hnumber.trans hn), .same _⟩

/-- The two entries that `to_mapping` writes as constants, and the list of fields. -/
theorem ReadsAs.constants (hP : P.Implements referenceSchema) (h : ReadsAs P v r)
    (hwf : v.wellFormed = true) :
    v.get? "schema_version" = some (.int 1) ∧ v.get? "provider" = some (.str "netbox-openbao") ∧
      v.get? "fields" = some (.arr r.fields) := by
  obtain ⟨fuel, hfuel⟩ := validates_referenceSchema
  have hvalid := (hP v).mp h.valid
  rw [hfuel, referenceSchema_eq] at hvalid
  obtain ⟨entries, rfl⟩ := JsonSchema.entries_of_valid_closed hvalid
  have hread := (JsonSchema.valid_closed_iff (Json.wellFormed_obj_iff.mp hwf).1).mp hvalid
  have hproperty : ∀ {name : String} {schema w : Json}, (name, schema) ∈ referenceProperties →
      Json.find entries name = some w → JsonSchema.valid P.search (fuel + 3) schema w = true :=
    fun hmem hw => hread.property _ hmem _ hw
  refine ⟨?_, ?_, ?_⟩
  · obtain ⟨w, hw⟩ := Option.isSome_iff_exists.mp (hread.present "schema_version" (by simp))
    have hconst := @JsonSchema.keyword_of_valid P.search (fuel + 2) _ _
      (hproperty (List.mem_of_getElem? (i := 0) rfl) hw) "const" (.int 1) (by simp)
    have hstrict := h.strict
    simp only [strictReferenceIntegers, Json.get?, hw, Option.any_some, Bool.and_eq_true] at hstrict
    cases w with
    | int n =>
      have hn : 1 = n := by simpa [JsonSchema.keyword, JsonSchema.equal, Json.normalize] using hconst
      rw [Json.get?, hw, ← hn]
    | null | bool b | float q | str s | arr items | obj es => cases hstrict.1.1.1
  · obtain ⟨w, hw⟩ := Option.isSome_iff_exists.mp (hread.present "provider" (by simp))
    have hconst := @JsonSchema.keyword_of_valid P.search (fuel + 2) _ _
      (hproperty (List.mem_of_getElem? (i := 1) rfl) hw) "const" (.str "netbox-openbao") (by simp)
    cases w with
    | str s =>
      have hs : "netbox-openbao" = s := by
        simpa [JsonSchema.keyword, JsonSchema.equal, Json.normalize] using hconst
      rw [Json.get?, hw, ← hs]
    | float q =>
      simp only [JsonSchema.keyword, JsonSchema.equal, Json.normalize] at hconst
      split_ifs at hconst <;> simp at hconst
    | null | bool b | int n | arr items | obj es =>
      simp [JsonSchema.keyword, JsonSchema.equal, Json.normalize] at hconst
  · obtain ⟨fields, hfind, hmem⟩ := h.fields
    have htype : JsonSchema.hasType fields "array" = true :=
      @JsonSchema.keyword_of_valid P.search (fuel + 2) _ _
        (hproperty (List.mem_of_getElem? (i := 6) rfl) hfind) "type" (.str "array") (by simp)
    cases fields with
    | arr items => exact hmem ▸ hfind
    | null | bool b | int n | float q | str s | obj entries =>
      simp [JsonSchema.hasType] at htype

theorem ReadsAs.built (hP : P.Implements referenceSchema) (h : ReadsAs P v r)
    (hwf : v.wellFormed = true) : Built v r.toMapping := by
  obtain ⟨hversion, hprovider, hfields⟩ := h.constants hP hwf
  obtain ⟨target, htarget, hbuilt⟩ := h.built_target
  obtain ⟨version, hfind, hbuilt'⟩ := h.built_version
  obtain ⟨identity, hid, hmapping⟩ : ∃ identity, IsIdentity v identity ∧
      r.toMapping = .obj (rebuiltEntries r identity) := ⟨_, h.identity_of hP, toMapping_eq r⟩
  obtain ⟨entries, rfl, _⟩ := exists_obj_of_get? hversion
  rw [hmapping]
  refine .of_mem (by simp [rebuiltEntries, targetSnapshotMaxKeys]) ?_ (fun e he => ?_)
  · obtain ⟨name, value⟩ := identity
    rcases hid.2 with ⟨hname, _⟩ | ⟨hname, _⟩
    · obtain rfl : name = "assignment_id" := hname
      simp [rebuiltEntries]
    · obtain rfl : name = "credential_uuid" := hname
      simp [rebuiltEntries]
  · simp only [rebuiltEntries, List.mem_cons, List.not_mem_nil, or_false] at he
    rcases he with rfl | rfl | rfl | rfl | rfl | rfl | rfl
    · exact ⟨_, Json.mem_of_find hversion, .same _⟩
    · exact ⟨_, Json.mem_of_find hprovider, .same _⟩
    · exact ⟨_, Json.mem_of_find htarget, hbuilt⟩
    · exact ⟨_, Json.mem_of_find h.purpose, .same _⟩
    · exact ⟨_, Json.mem_of_find hfields, .same _⟩
    · exact ⟨_, Json.mem_of_find hfind, hbuilt'⟩
    · exact ⟨_, Json.mem_of_find hid.1, .same _⟩

theorem referenceEntries_built (hP : P.Implements referenceSchema)
    {entries out : List (String × Json)} (h : referenceEntries P entries = some out) (hwf : ∀ e ∈ entries, e.2.wellFormed = true) :
    out.map Prod.fst = entries.map Prod.fst ∧
      ∀ e ∈ out, ∃ v, (e.1, v) ∈ entries ∧ Built v e.2 := by
  induction entries generalizing out with
  | nil =>
    obtain rfl : [] = out := by simpa [referenceEntries] using h
    simp
  | cons e es ih =>
    rw [referenceEntries] at h
    split_ifs at h
    obtain ⟨r, hr, rest, hrest, rfl⟩ : ∃ r, referenceFromMapping P e.2 = some r ∧
        ∃ rest, referenceEntries P es = some rest ∧ (e.1, r.toMapping) :: rest = out := by
      simpa [Option.bind_eq_some_iff] using h
    obtain ⟨hnames, hbuilt⟩ := ih hrest (fun d hd => hwf d (List.mem_cons_of_mem _ hd))
    refine ⟨by rw [List.map_cons, List.map_cons, hnames], fun d hd => ?_⟩
    rcases List.mem_cons.mp hd with rfl | hd
    · exact ⟨e.2, List.mem_cons_self,
        (referenceFromMapping_iff.mp hr).built hP (hwf e List.mem_cons_self)⟩
    · obtain ⟨v, hv, hd⟩ := hbuilt d hd
      exact ⟨v, List.mem_cons_of_mem _ hv, hd⟩

theorem publicCredentialMetadata_built (hP : P.Implements referenceSchema) {key : String}
    {m : Json} (hwf : v.wellFormed = true) (h : publicCredentialMetadata P v key = some m) : Built v m := by
  unfold publicCredentialMetadata at h
  split_ifs at h with hreferences
  · cases v with
    | obj entries =>
      rw [validateNamedReferences] at h
      split_ifs at h with hlength
      obtain ⟨out, hout, rfl⟩ := Option.map_eq_some_iff.mp h
      obtain ⟨hnodup, hmembers⟩ := Json.wellFormed_obj_iff.mp hwf
      obtain ⟨hnames, hbuilt⟩ := referenceEntries_built hP hout hmembers
      have hsize : out.length = entries.length := by
        simpa using congrArg List.length hnames
      refine .of_mem ?_ (hnames ▸ hnodup) hbuilt
      rw [hsize, targetSnapshotMaxKeys]
      omega
    | null | bool b | int n | float q | str s | arr items => cases h
  · exact Option.some.inj h ▸ .same v
  · exact Option.some.inj h ▸ .same v

end

/-! ## Where a stored text comes from -/

section

variable (S : SnapshotPlatform)

inductive LeftOf (s : String) : String → Prop
  | self : LeftOf s s
  | cut {u : String} (h : LeftOf s u) : LeftOf s (cutText u)
  | redact {u : String} (path : List String) (h : LeftOf s u) :
      LeftOf s (redactEventText S.platform [] path u)

/-- A stored value shows a source value: a stored text is the redaction marker or what is left of
an open text in the same place, and a stored name is `named` for the key of an entry in the same
place. Numbers, booleans and null show no text. -/
inductive Shows (named : String → String → Prop) : FieldValue → Json → Prop
  | null {v : FieldValue} : Shows named v .null
  | bool {v : FieldValue} (b : Bool) : Shows named v (.bool b)
  | int {v : FieldValue} (n : ℤ) : Shows named v (.int n)
  | float {v : FieldValue} (q : ℚ) : Shows named v (.float q)
  | hidden {v : FieldValue} : Shows named v redacted
  | cut {v : FieldValue} {u : String} (h : LeftOf S "[truncated]" u) : Shows named v (.str u)
  | text {s u : String} (hopen : matchesSecretPattern S s = false) (h : LeftOf S s u) :
      Shows named (.scalar (.text s)) (.str u)
  | other {s u : String} (h : LeftOf S s u) : Shows named (.other s) (.str u)
  | mapping {entries : List (FieldKey × FieldValue)} {out : List (String × Json)}
      (source : (e : String × Json) → e ∈ out → FieldKey × FieldValue)
      (hlength : out.length ≤ targetSnapshotMaxKeys) (hnodup : (out.map Prod.fst).Nodup)
      (hmem : ∀ e (he : e ∈ out), source e he ∈ entries)
      (hnamed : ∀ e (he : e ∈ out), named (source e he).1.text e.1)
      (hshows : ∀ e (he : e ∈ out), Shows named (source e he).2 e.2) :
      Shows named (.mapping entries) (.obj out)
  | sequence {items : List FieldValue} {out : List Json} (source : (w : Json) → w ∈ out → FieldValue)
      (hlength : out.length ≤ targetSnapshotMaxItems) (hmem : ∀ w (hw : w ∈ out), source w hw ∈ items)
      (hshows : ∀ w (hw : w ∈ out), Shows named (source w hw) w) :
      Shows named (.sequence items) (.arr out)

def StoredName (key name : String) : Prop := name = freeTextPolicyKey S (cutText key)

end

/-- A traversal of the value kept the cut text of a key, in the place of the key. -/
inductive Captures (key : String) : FieldValue → SafeValue → Prop
  | here {entries : List (FieldKey × FieldValue)} {output : List (String × SafeValue)}
      {k : FieldKey} {value : FieldValue} {v : SafeValue} (hentry : (k, value) ∈ entries)
      (hkept : (cutText k.text, v) ∈ output) (hkey : k.text = key) :
      Captures key (.mapping entries) (.mapping output)
  | entry {entries : List (FieldKey × FieldValue)} {output : List (String × SafeValue)}
      {k : FieldKey} {value : FieldValue} {v : SafeValue} (hentry : (k, value) ∈ entries)
      (hkept : (cutText k.text, v) ∈ output) (hvalue : Captures key value v) :
      Captures key (.mapping entries) (.mapping output)
  | item {items : List FieldValue} {output : List SafeValue} {value : FieldValue} {v : SafeValue}
      (hitem : value ∈ items) (hkept : v ∈ output) (hvalue : Captures key value v) :
      Captures key (.sequence items) (.sequence output)

section

variable {S : SnapshotPlatform} {named : String → String → Prop}

structure EntriesShow (S : SnapshotPlatform) (named : String → String → Prop)
    (entries : List (FieldKey × FieldValue)) (out : List (String × Json)) : Prop where
  length_le : out.length ≤ targetSnapshotMaxKeys
  nodup : (out.map Prod.fst).Nodup
  source : ∀ e ∈ out, ∃ d ∈ entries, named d.1.text e.1 ∧ Shows S named d.2 e.2

theorem EntriesShow.shows {entries : List (FieldKey × FieldValue)} {out : List (String × Json)}
    (h : EntriesShow S named entries out) : Shows S named (.mapping entries) (.obj out) := by
  obtain ⟨hlength, hnodup, hsource⟩ := h
  choose source hmem hnamed hshows using hsource
  exact .mapping source hlength hnodup hmem hnamed hshows

theorem Shows.entries {v : FieldValue} {out : List (String × Json)} (h : Shows S named v (.obj out)) :
    ∃ entries, v = .mapping entries ∧ EntriesShow S named entries out := by
  cases h with
  | mapping source hlength hnodup hmem hnamed hshows =>
    exact ⟨_, rfl, hlength, hnodup, fun e he =>
      ⟨source e he, hmem e he, hnamed e he, hshows e he⟩⟩

theorem shows_sequence {items : List FieldValue} {out : List Json}
    (hlength : out.length ≤ targetSnapshotMaxItems)
    (hsource : ∀ w ∈ out, ∃ item ∈ items, Shows S named item w) :
    Shows S named (.sequence items) (.arr out) := by
  choose source hmem hshows using hsource
  exact .sequence source hlength hmem hshows

theorem Shows.items {v : FieldValue} {out : List Json} (h : Shows S named v (.arr out)) :
    ∃ items, v = .sequence items ∧ out.length ≤ targetSnapshotMaxItems ∧
      ∀ w ∈ out, ∃ item ∈ items, Shows S named item w := by
  cases h with
  | sequence source hlength hmem hshows =>
    exact ⟨_, rfl, hlength, fun w hw => ⟨source w hw, hmem w hw, hshows w hw⟩⟩

theorem Shows.mono {named' : String → String → Prop} {v : FieldValue} {w : Json}
    (h : Shows S named v w) (hnamed' : ∀ key name, named key name → named' key name) :
    Shows S named' v w := by
  induction h with
  | null => exact .null
  | bool b => exact .bool b
  | int n => exact .int n
  | float q => exact .float q
  | hidden => exact .hidden
  | cut h => exact .cut h
  | text hopen h => exact .text hopen h
  | other h => exact .other h
  | mapping source hlength hnodup hmem hnamed hshows ih =>
    exact .mapping source hlength hnodup hmem (fun e he => hnamed' _ _ (hnamed e he)) ih
  | sequence source hlength hmem hshows ih => exact .sequence source hlength hmem ih

theorem Shows.wellFormed {v : FieldValue} {w : Json} (h : Shows S named v w) :
    w.wellFormed = true := by
  induction h with
  | mapping source hlength hnodup hmem hnamed hshows ih =>
    exact Json.wellFormed_obj_iff.mpr ⟨hnodup, fun e he => ih e he⟩
  | sequence source hlength hmem hshows ih => exact Json.wellFormed_arr_iff.mpr (fun w hw => ih w hw)
  | _ => rfl

theorem Shows.map_str {v : FieldValue} {u u' : String} (h : Shows S named v (.str u))
    (hmarker : u = "[REDACTED]" → u' = u) (hleft : ∀ s, LeftOf S s u → LeftOf S s u') :
    Shows S named v (.str u') := by
  cases h with
  | hidden =>
    rw [hmarker rfl]
    exact .hidden
  | cut h => exact .cut (hleft _ h)
  | text hopen h => exact .text hopen (hleft _ h)
  | other h => exact .other (hleft _ h)

theorem Shows.built {v : FieldValue} {w m : Json} (h : Shows S named v w) (hbuilt : Built w m) :
    Shows S named v m := by
  induction hbuilt generalizing v with
  | same w => exact h
  | obj source hlength hnodup hmem hbuilt ih =>
    obtain ⟨entries, rfl, hentries⟩ := h.entries
    refine EntriesShow.shows ⟨hlength, hnodup, fun e he => ?_⟩
    obtain ⟨d, hd, hnamed, hshows⟩ := hentries.source _ (hmem e he)
    exact ⟨d, hd, hnamed, ih e he hshows⟩

end

/-! ## Stored names -/

def outsideFieldMarker : Char → Bool :=
  Regex.CharSet.mem ⟨false, [('g', 'z'), ('G', 'H'), ('J', 'K'), ('M', 'S'), ('U', 'Z'), (' ', ' '),
    ('/', '/'), ('?', '@'), ('=', '='), ('"', '"'), ('\'', '\''), ('\\', '\\'),
    (Char.ofNat 0x130, Char.ofNat 0x131), (Char.ofNat 0x17F, Char.ofNat 0x17F),
    (Char.ofNat 0x212A, Char.ofNat 0x212A)]⟩

def outsideField (c : Char) : Bool := outsideFieldMarker c && c != 'R' && c != 'r'

theorem secretContentRe_needs_field (word : Char → Bool) :
    (secretContentRe word).needs outsideFieldMarker = 2 := (rfl)

theorem yamlBlockScalarHeaderRe_needs_field : yamlBlockScalarHeaderRe.needs outsideField = 1 := by
  decide +kernel

theorem yamlSensitiveValueRe_needs_field : yamlSensitiveValueRe.needs outsideField = 1 := by
  decide +kernel

theorem flowSensitiveTokenRe_needs_field : flowSensitiveTokenRe.needs outsideField = 1 := by
  decide +kernel

section

variable (S : SnapshotPlatform)

def fieldPlaceholder (key : String) : String :=
  "[REDACTED-FIELD:" ++ String.ofList ((S.keyDigest key).toList.take 32) ++ "]"

theorem freeTextPolicyKey_of_match {key : String} (h : matchesSecretPattern S key = true) :
    freeTextPolicyKey S key = fieldPlaceholder S key := by
  unfold freeTextPolicyKey fieldPlaceholder
  exact if_pos h

theorem freeTextPolicyKey_of_open {key : String} (h : matchesSecretPattern S key = false) :
    freeTextPolicyKey S key = key := by
  rw [freeTextPolicyKey, h, if_neg Bool.false_ne_true]

theorem countP_fieldPlaceholder (key : String) {p : Char → Bool}
    (hp : "0123456789abcdef".toList.countP p = 0) :
    (fieldPlaceholder S key).toList.countP p =
      "[REDACTED-FIELD:".toList.countP p + "]".toList.countP p := by
  have hdigest : (String.ofList ((S.keyDigest key).toList.take 32)).toList.countP p = 0 := by
    rw [String.toList_ofList]
    rw [List.countP_eq_zero] at hp ⊢
    intro c hc
    have hhex := List.all_eq_true.mp (S.keyDigest_hex key) c (List.mem_of_mem_take hc)
    exact hp c (mem_of_isHexDigit hhex)
  unfold fieldPlaceholder
  rw [String.toList_append, String.toList_append, List.countP_append, List.countP_append, hdigest,
    Nat.add_zero]

theorem matchesSecretPattern_fieldPlaceholder (key : String) :
    matchesSecretPattern S (fieldPlaceholder S key) = false := by
  have hmarks : (fieldPlaceholder S key).toList.countP outsideFieldMarker = 1 :=
    (countP_fieldPlaceholder S key (by decide)).trans (by decide)
  have hletters : (fieldPlaceholder S key).toList.countP outsideField = 0 :=
    (countP_fieldPlaceholder S key (by decide)).trans (by decide)
  have hescape : (fieldPlaceholder S key).toList.countP (· == '\\') = 0 :=
    (countP_fieldPlaceholder S key (by decide)).trans (by decide)
  have hsame : redactSecretText S.platform.word (fieldPlaceholder S key).toList =
      (fieldPlaceholder S key).toList := by
    refine @redactSecretText_of_needs _ _ outsideFieldMarker outsideField ?_ ?_ ?_ ?_
      (fun hmem => by simpa using List.countP_eq_zero.mp hescape _ hmem)
    · rw [secretContentRe_needs_field, hmarks]
      decide
    · rw [yamlBlockScalarHeaderRe_needs_field, hletters]
      decide
    · rw [yamlSensitiveValueRe_needs_field, hletters]
      decide
    · rw [flowSensitiveTokenRe_needs_field, hletters]
      decide
  rw [matchesSecretPattern, containsSecretText, hsame, bne_self_eq_false]

theorem length_fieldPlaceholder_le (key : String) : (fieldPlaceholder S key).length ≤ 49 := by
  have hdigest : (String.ofList ((S.keyDigest key).toList.take 32)).length ≤ 32 := by
    rw [String.length_ofList]
    exact List.length_take_le 32 _
  have hmarker : "[REDACTED-FIELD:".length = 16 := rfl
  have hclose : "]".length = 1 := rfl
  unfold fieldPlaceholder
  rw [String.length_append, String.length_append, hmarker, hclose]
  omega

theorem matchesSecretPattern_freeTextPolicyKey (key : String) :
    matchesSecretPattern S (freeTextPolicyKey S key) = false := by
  cases hkey : matchesSecretPattern S key with
  | true => rw [freeTextPolicyKey_of_match S hkey, matchesSecretPattern_fieldPlaceholder]
  | false => rw [freeTextPolicyKey_of_open S hkey, hkey]

theorem cutText_freeTextPolicyKey {key : String} (h : key.length ≤ targetSnapshotMaxValueLen) :
    cutText (freeTextPolicyKey S key) = freeTextPolicyKey S key := by
  apply cutText_of_le
  cases hkey : matchesSecretPattern S key with
  | true =>
    rw [freeTextPolicyKey_of_match S hkey]
    exact (length_fieldPlaceholder_le S key).trans (by decide)
  | false => rwa [freeTextPolicyKey_of_open S hkey]

variable {S} {key name : String}

theorem StoredName.matches_eq_false (h : StoredName S key name) :
    matchesSecretPattern S name = false := h ▸ matchesSecretPattern_freeTextPolicyKey S _

theorem StoredName.cutText_eq (h : StoredName S key name) : cutText name = name := by
  rw [h]
  exact cutText_freeTextPolicyKey S (length_cutText_le key)

end

/-! ## The four steps -/

section

variable {S : SnapshotPlatform}

theorem freeTextPolicyItems_eq_map (items : List SafeValue) :
    freeTextPolicyItems S items = items.map (freeTextPolicyCopy S) := by
  induction items with
  | nil => rfl
  | cons v vs ih => rw [freeTextPolicyItems, List.map_cons, ih]

theorem freeTextPolicyEntries_eq_foldl (es : List (String × SafeValue))
    (copied : List (String × Json)) :
    freeTextPolicyEntries S es copied = es.foldl (fun d e =>
      Json.set d (freeTextPolicyKey S e.1) (freeTextPolicyCopy S e.2)) copied := by
  induction es generalizing copied with
  | nil => rfl
  | cons e es ih => rw [freeTextPolicyEntries, List.foldl_cons, ih]

theorem mem_freeTextPolicyEntries {es : List (String × SafeValue)} {e : String × Json}
    (h : e ∈ freeTextPolicyEntries S es []) :
    ∃ d ∈ es, e = (freeTextPolicyKey S d.1, freeTextPolicyCopy S d.2) := by
  rw [freeTextPolicyEntries_eq_foldl] at h
  exact Json.mem_of_mem_foldl_set _ _ es h

theorem freeTextPolicyEntries_size {es : List (String × SafeValue)} {copied : List (String × Json)}
    (h : (copied.map Prod.fst).Nodup) :
    ((freeTextPolicyEntries S es copied).map Prod.fst).Nodup ∧
      (freeTextPolicyEntries S es copied).length ≤ copied.length + es.length := by
  induction es generalizing copied with
  | nil => exact ⟨h, le_rfl⟩
  | cons e es ih =>
    obtain ⟨hnodup, hlength⟩ :=
      ih (Json.nodup_set h (freeTextPolicyKey S e.1) (freeTextPolicyCopy S e.2))
    have hset := Json.length_set_le copied (freeTextPolicyKey S e.1) (freeTextPolicyCopy S e.2)
    rw [freeTextPolicyEntries]
    refine ⟨hnodup, ?_⟩
    rw [List.length_cons]
    omega

structure KeptName (S : SnapshotPlatform) (value : FieldValue) (v : SafeValue)
    (key name : String) : Prop where
  stored : StoredName S key name
  captured : Captures key value v

theorem MappingFrom.shows {safe : SafePass} {entries : List (FieldKey × FieldValue)} {v : SafeValue}
    (h : MappingFrom safe entries v)
    (hsafe : ∀ value v, safe.Returns value v →
      Shows S (KeptName S value v) value (freeTextPolicyCopy S v)) :
    Shows S (KeptName S (.mapping entries) v) (.mapping entries) (freeTextPolicyCopy S v) := by
  obtain ⟨output, rfl, _, hlength, hsource⟩ := h
  obtain ⟨hnodup, hle⟩ := @freeTextPolicyEntries_size S output [] List.nodup_nil
  rw [freeTextPolicyCopy]
  refine EntriesShow.shows ⟨?_, hnodup, fun e he => ?_⟩
  · rw [List.length_nil] at hle
    omega
  · obtain ⟨d, hd, rfl⟩ := mem_freeTextPolicyEntries he
    obtain ⟨key, value, hmem, hkey, hreturns⟩ := hsource d hd
    have hkept : (cutText key.text, d.2) ∈ output := hkey ▸ hd
    refine ⟨(key, value), hmem, ⟨congrArg (freeTextPolicyKey S) hkey, .here hmem hkept rfl⟩,
      (hsafe value d.2 hreturns).mono ?_⟩
    rintro key' name' ⟨hstored, hcaptures⟩
    exact ⟨hstored, .entry hmem hkept hcaptures⟩

/-- The first traversal with the text it matched replaced. -/
theorem shows_of_returns {n : ℕ} {value : FieldValue} {v : SafeValue}
    (h : (jsonSafeValue S n).Returns value v) :
    Shows S (KeptName S value v) value (freeTextPolicyCopy S v) := by
  have hscalar : ∀ {named : String → String → Prop} {s : Scalar} {b b' : Budget} {v : SafeValue},
      jsonSafeLeaf S s true b = (some v, b') →
        Shows S named (.scalar s) (freeTextPolicyCopy S v) := by
    intro named s b b' v h
    rcases leaf_returns h with ⟨rfl, hopen⟩ | ⟨t, rfl, _, rfl⟩
    · cases s with
      | text t => exact .text (hopen rfl t rfl) (.cut .self)
      | null => exact .null
      | bool x => exact .bool x
      | int x => exact .int x
      | float q => exact .float q
    · exact .hidden
  have hother : ∀ {named : String → String → Prop} {str : String} {b b' : Budget} {v : SafeValue},
      jsonSafeLeaf S (.text str) false b = (some v, b') →
        Shows S named (.other str) (freeTextPolicyCopy S v) := by
    intro named str b b' v h
    rcases leaf_returns h with ⟨rfl, _⟩ | ⟨t, _, _, rfl⟩
    · exact .other (.cut .self)
    · exact .hidden
  have hdeep : ∀ {named : String → String → Prop} {value : FieldValue} {b b' : Budget}
      {v : SafeValue}, jsonSafeLeaf S (.text "[truncated]") true b = (some v, b') →
        Shows S named value (freeTextPolicyCopy S v) := by
    intro named value b b' v h
    rcases leaf_returns h with ⟨rfl, _⟩ | ⟨t, _, _, rfl⟩
    · exact .cut (.cut .self)
    · exact .hidden
  obtain ⟨b, b', h⟩ := h
  induction n generalizing value v b b' with
  | zero =>
    cases value with
    | scalar s => exact hscalar h
    | other str => exact hother h
    | mapping entries => exact hdeep h
    | sequence items => exact hdeep h
  | succ n ih =>
    cases value with
    | scalar s => exact hscalar h
    | other str => exact hother h
    | mapping entries =>
      exact (mapping_returns h).shows (fun value v ⟨c, c', hreturns⟩ => ih c c' hreturns)
    | sequence items =>
      obtain ⟨output, rfl, hlength, hsource⟩ := sequence_returns h
      rw [freeTextPolicyCopy, freeTextPolicyItems_eq_map]
      refine shows_sequence (by rwa [List.length_map]) (fun w hw => ?_)
      obtain ⟨v, hv, rfl⟩ := List.mem_map.mp hw
      obtain ⟨item, hitem, c, c', hreturns⟩ := hsource v hv
      refine ⟨item, hitem, (ih c c' hreturns).mono ?_⟩
      rintro key name ⟨hstored, hcaptures⟩
      exact ⟨hstored, .item hitem hv hcaptures⟩

/-- Redaction of a mapping within its bound whose names are open. -/
theorem redactMapping_of_open {R : TextRules} {P : Platform} {entries : List (String × Json)}
    (hlength : entries.length ≤ maxEventDictItems) (hnodup : (entries.map Prod.fst).Nodup)
    (hopen : ∀ e ∈ entries, R.secretName e.1 = false)
    (child : String → List String → Json → Json) (path : List String) :
    R.redactMapping P child path entries =
      (entries.insertionSort Json.keyLe).map (fun e => (e.1, child e.1 (path ++ [e.1]) e.2)) := by
  rw [TextRules.redactMapping_eq child path hnodup, keptEntries_of_length_le hlength,
    TextRules.persistedEntries_of_open hopen, List.map_map]
  simp only [Bool.false_and, truncationEntry, Bool.false_eq_true, if_false, List.append_nil]
  exact List.map_congr_left (fun e _ => by simp [TextRules.persistedValue])

variable {named : String → String → Prop} (hnamed : ∀ key name, named key name → StoredName S key name)

include hnamed in
theorem EntriesShow.redact {entries : List (FieldKey × FieldValue)} {out : List (String × Json)}
    (h : EntriesShow S named entries out) {child : String → List String → Json → Json}
    (hchild : ∀ key path v w, Shows S named v w →
      Shows S named v (child key path w)) (path : List String) :
    EntriesShow S named entries
      ((eventRules S.platform []).redactMapping S.platform child path out) := by
  have hopen : ∀ e ∈ out, (eventRules S.platform []).secretName e.1 = false := by
    intro e he
    obtain ⟨d, _, hname, _⟩ := h.source e he
    exact (hnamed _ _ hname).matches_eq_false
  have hperm := List.perm_insertionSort Json.keyLe out
  rw [redactMapping_of_open (h.length_le.trans (by decide)) h.nodup hopen]
  refine ⟨?_, ?_, fun e he => ?_⟩
  · rw [List.length_map, hperm.length_eq]
    exact h.length_le
  · rw [List.map_map]
    exact (hperm.map Prod.fst).nodup_iff.mpr h.nodup
  · obtain ⟨d, hd, rfl⟩ := List.mem_map.mp he
    obtain ⟨source, hmem, hname, hshows⟩ := h.source d (hperm.mem_iff.mp hd)
    exact ⟨source, hmem, hname, hchild _ _ _ _ hshows⟩

theorem keptItems_of_length_le {items : List Json} (h : items.length ≤ maxEventListItems) :
    keptItems items = (items, []) := by
  have hne : ¬ (items.length = maxEventListItems + 1 ∧ (items.getLast?).any isTruncationMarker) :=
    fun hc => by omega
  rw [keptItems, if_neg hne, List.take_of_length_le h, if_neg (by omega)]

theorem redactEventText_redacted (P : Platform) (path : List String) :
    redactEventText P [] path "[REDACTED]" = "[REDACTED]" := by
  refine redactEventText_marker P (by decide : _ ≤ maxEventStringLength) (by decide) (by decide)
    (by decide) (by decide) ?_
  exact flowTail_of_no_token (S := outsidePlaceholder)
    (by rw [flowSensitiveTokenRe_needs_word]; decide)

theorem Shows.redactSensitive (hP : S.platform.Implements referenceSchema) {v : FieldValue}
    {w : Json} (h : Shows S named v w) (key : String) :
    Shows S named v (redactSensitiveValue S.platform key w) := by
  unfold redactSensitiveValue
  split
  · exact .bool _
  · split
    · next hmetadata => exact h.built (publicCredentialMetadata_built hP h.wellFormed hmetadata)
    · split_ifs
      · exact h
      · exact .hidden

include hnamed in
/-- One level of redaction. -/
theorem Shows.redactLevel (hP : S.platform.Implements referenceSchema) {v : FieldValue} {w : Json}
    (h : Shows S named v w)
    {child : Option (String → List String → Json → Json)}
    (hchild : ∀ c, child = some c → ∀ key path v w, Shows S named v w →
      Shows S named v (c key path w)) (key : String) (path : List String) :
    Shows S named v ((eventRules S.platform []).level S.platform child key path w) := by
  unfold TextRules.level
  split_ifs with hboolean hsensitive
  · split
    · exact .bool _
    · exact .hidden
  · exact h.redactSensitive hP key
  · split
    · exact .cut .self
    · exact .cut .self
    · next out c =>
      obtain ⟨entries, rfl, hentries⟩ := h.entries
      exact (hentries.redact hnamed (hchild c rfl) path).shows
    · next out c =>
      obtain ⟨items, rfl, hlength, hsource⟩ := h.items
      rw [redactEventSequence, keptItems_of_length_le (hlength.trans (by decide)), List.append_nil]
      refine shows_sequence (by rwa [List.length_map]) (fun w hw => ?_)
      obtain ⟨u, hu, rfl⟩ := List.mem_map.mp hw
      obtain ⟨item, hitem, hshows⟩ := hsource u hu
      exact ⟨item, hitem, hchild c rfl _ _ _ _ hshows⟩
    · refine h.map_str (fun hmarker => ?_) (fun s hs => hs.redact path)
      rw [hmarker]
      exact redactEventText_redacted S.platform path
    · exact h

include hnamed in
theorem Shows.redactLevels (hP : S.platform.Implements referenceSchema) {v : FieldValue} {w : Json}
    (h : Shows S named v w) (n : ℕ) (key : String) (path : List String) :
    Shows S named v (redactLevels S.platform [] n key path w) := by
  rw [← levels_eventRules]
  induction n generalizing v w key path with
  | zero => exact h.redactLevel hnamed hP (by simp) key path
  | succ n ih =>
    refine h.redactLevel hnamed hP (fun c hc key path v w hshows => ?_) key path
    obtain rfl := Option.some.inj hc
    exact ih hshows key path

include hnamed in
/-- The second traversal, over a value that shows `v`. -/
theorem Shows.returns {n : ℕ} {v : FieldValue} {w : Json} {u : SafeValue}
    (h : Shows S named v w) (hreturns : (jsonSafeValue S n).Returns (fieldValueOfJson S w) u) :
    Shows S named v u.raw := by
  have hdeep : ∀ {value : FieldValue} {b b' : Budget} {u : SafeValue},
      jsonSafeLeaf S (.text "[truncated]") true b = (some u, b') →
        Shows S named value u.raw := by
    intro value b b' u h
    rcases leaf_returns h with ⟨rfl, _⟩ | ⟨t, ht, _, rfl⟩
    · exact .cut (.cut .self)
    · exact Scalar.text.inj ht ▸ .cut (.cut .self)
  have hscalar : ∀ {s : Scalar} {v : FieldValue} {b b' : Budget} {u : SafeValue},
      jsonSafeLeaf S s true b = (some u, b') → Shows S named v s.toJson →
        Shows S named v u.raw := by
    intro s v b b' u h hshows
    have hcut : ∀ {t : String}, Shows S named v (.str t) →
        Shows S named v (.str (cutText t)) := fun ht =>
      ht.map_str (fun hmarker => hmarker ▸ rfl) (fun s hs => hs.cut)
    rcases leaf_returns h with ⟨rfl, _⟩ | ⟨t, rfl, _, rfl⟩
    · cases s with
      | text t => exact hcut hshows
      | null | bool x | int x | float q => exact hshows
    · exact hcut hshows
  obtain ⟨b, b', hreturns⟩ := hreturns
  induction n generalizing v w u b b' with
  | zero =>
    cases w with
    | null | bool x | int x | float q | str s => exact hscalar hreturns h
    | arr items => exact hdeep hreturns
    | obj entries => exact hdeep hreturns
  | succ n ih =>
    cases w with
    | null | bool x | int x | float q | str s => exact hscalar hreturns h
    | arr out =>
      obtain ⟨items, rfl, _, hitems⟩ := h.items
      obtain ⟨output, rfl, hlength, hsource⟩ := sequence_returns hreturns
      rw [raw, rawItems_eq_map]
      refine shows_sequence (by rwa [List.length_map]) (fun w hw => ?_)
      obtain ⟨u, hu, rfl⟩ := List.mem_map.mp hw
      obtain ⟨value, hvalue, c, c', hreturns⟩ := hsource u hu
      rw [fieldValuesOfJson_eq_map] at hvalue
      obtain ⟨w, hw, rfl⟩ := List.mem_map.mp hvalue
      obtain ⟨item, hitem, hshows⟩ := hitems w hw
      exact ⟨item, hitem, ih hshows c c' hreturns⟩
    | obj out =>
      obtain ⟨entries, rfl, hentries⟩ := h.entries
      obtain ⟨output, rfl, hnodup, hlength, hsource⟩ := mapping_returns hreturns
      rw [raw, rawEntries_eq_map]
      refine EntriesShow.shows ⟨by rwa [List.length_map], by rwa [List.map_map], fun e he => ?_⟩
      obtain ⟨d, hd, rfl⟩ := List.mem_map.mp he
      obtain ⟨key, value, hmem, hkey, c, c', hreturns⟩ := hsource d hd
      rw [fieldEntriesOfJson_eq_map] at hmem
      obtain ⟨f, hf, heq⟩ := List.mem_map.mp hmem
      obtain ⟨rfl, rfl⟩ := Prod.mk.inj heq
      obtain ⟨source, hsourceMem, hname, hshows⟩ := hentries.source f hf
      refine ⟨source, hsourceMem, ?_, ih hshows c c' hreturns⟩
      rw [hkey, (hnamed _ _ hname).cutText_eq]
      exact hname

end

end NetboxRpc
