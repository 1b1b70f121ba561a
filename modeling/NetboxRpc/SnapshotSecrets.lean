import NetboxRpc.SecretSurvival
import NetboxRpc.SnapshotProvenance

/-!
# Secrets in the persisted snapshot

A text value is classified before it is cut, so nothing of a text that the secret pattern matches
is stored. A mapping key is cut before it is classified. Its name in the persisted snapshot shows
a secret exactly when cutting the key takes away what the pattern matches.
-/

namespace NetboxRpc

open Budget SafeValue

/-! ## The whole snapshot -/

section

variable (S : SnapshotPlatform)

/-- The raw snapshot keeps the cut text of a mapping key of the object, in the place of the key. -/
def TargetObject.Captures (t : TargetObject) (key : String) : Prop :=
  ∃ name value v, (name, value) ∈ t.sources ∧ (name, v) ∈ (buildTargetObjectSnapshot S t).1 ∧
    NetboxRpc.Captures key value v

structure CapturedName (t : TargetObject) (key name : String) : Prop where
  stored : StoredName S key name
  captured : cutText key = key ∨ t.Captures S key

def TargetObject.sourceEntries (t : TargetObject) : List (FieldKey × FieldValue) :=
  (targetSnapshotMarker, .scalar (.bool true)) :: t.sources |>.map
    (fun e => (⟨e.1, "str", S.repr e.1⟩, e.2))

theorem cutText_source {t : TargetObject} {e : String × FieldValue} (h : e ∈ t.sources) :
    cutText e.1 = e.1 := by
  simp only [TargetObject.sources, List.mem_append, List.mem_cons, List.not_mem_nil, or_false,
    List.mem_map] at h
  rcases h with (((rfl | rfl) | ⟨v, _, rfl⟩) | ⟨v, _, rfl⟩) | ⟨d, _, rfl⟩
  · exact @cutText_of_le "id" (by decide)
  · exact @cutText_of_le "display" (by decide)
  · exact @cutText_of_le "name" (by decide)
  · exact @cutText_of_le "custom_fields" (by decide)
  · exact cutText_of_le (length_cutText_le d.1)

theorem eq_marker_of_mem {flag : Bool} {d : String × SafeValue} (h : d ∈ markerEntry flag) :
    d = (targetSnapshotMarker, .scalar (.bool true)) := by
  cases flag with
  | true => exact List.mem_singleton.mp h
  | false => cases h

/-- The copy with matched text replaced shows the object. -/
theorem entriesShow_copy (t : TargetObject) : EntriesShow S (CapturedName S t) (t.sourceEntries S)
    (freeTextPolicyEntries S (buildTargetObjectSnapshot S t).1 []) := by
  obtain ⟨hnodup, hlength⟩ :=
    @freeTextPolicyEntries_size S (buildTargetObjectSnapshot S t).1 [] List.nodup_nil
  have hsize := (snapshotFields_soFar S t).1.size
  have hbuilt := buildTargetObjectSnapshot_fst S t
  refine ⟨?_, hnodup, fun e he => ?_⟩
  · have hmarker : (markerEntry (snapshotFields S t).2.truncated).length ≤ 1 := by
      cases (snapshotFields S t).2.truncated <;> decide
    have hmax : targetSnapshotMaxKeys = 95 := rfl
    rw [hbuilt, List.length_append, List.length_nil] at hlength
    rw [hbuilt]
    omega
  · obtain ⟨d, hd, rfl⟩ := mem_freeTextPolicyEntries he
    have hsourced : ∀ {value : FieldValue}, (d.1, value) ∈ t.sources →
        Shows S (KeptName S value d.2) value (freeTextPolicyCopy S d.2) →
        ∃ f ∈ t.sourceEntries S, CapturedName S t f.1.text (freeTextPolicyKey S d.1) ∧
          Shows S (CapturedName S t) f.2 (freeTextPolicyCopy S d.2) := by
      intro value hmem hshows
      have hcut := cutText_source hmem
      refine ⟨_, List.mem_map_of_mem (List.mem_cons_of_mem _ hmem),
        ⟨congrArg (freeTextPolicyKey S) hcut.symm, .inl hcut⟩, hshows.mono ?_⟩
      rintro key name ⟨hstored, hcaptures⟩
      exact ⟨hstored, .inr ⟨d.1, value, d.2, hmem, hd, hcaptures⟩⟩
    have hsplit := hd
    rw [hbuilt] at hsplit
    rcases List.mem_append.mp hsplit with hd | hd
    · obtain ⟨_, ⟨value, hmem, hreturns⟩ | ⟨hname, entries, hdata, hmapping⟩⟩ :=
        sourced_snapshotFields S t d hd
      · exact hsourced (t.plainSources_subset hmem) (shows_of_returns hreturns)
      · refine @hsourced (.mapping entries) ?_ ((hmapping.mono List.filter_sublist.subset).shows
          (fun value v => shows_of_returns))
        simp [TargetObject.sources, hname, hdata]
    · have hmarker := eq_marker_of_mem hd
      refine ⟨_, List.mem_map_of_mem List.mem_cons_self, ?_, ?_⟩
      · have hcut : cutText targetSnapshotMarker = targetSnapshotMarker := cutText_of_le (by decide)
        rw [hmarker]
        exact ⟨congrArg (freeTextPolicyKey S) hcut.symm, .inl hcut⟩
      · rw [hmarker]
        exact .bool true

theorem redactEventValue_obj (P : Platform) (limits : StringLimits) (entries : List (String × Json)) :
    redactEventValue P limits (.obj entries) =
      .obj (redactEventMapping P (redactLevels P limits maxRedactionDepth) [] entries) := by
  rw [redactEventValue, redactLevels, redactLevel, if_neg (by simp), if_neg (by simp)]

theorem storedName_of_plain {name stored : String} (hplain : isPlainName name = true)
    (hlength : name.length ≤ targetSnapshotMaxValueLen) (h : StoredName S name stored) :
    stored = name := by
  rw [h, cutText_of_le hlength]
  exact freeTextPolicyKey_of_open S (mappingNameIsSecretBearing_of_plain S.platform hplain)

/-- The persisted snapshot is the second traversal of a mapping that shows the object. -/
theorem persistedSnapshot_eq (hP : S.platform.Implements referenceSchema) (t : TargetObject) :
    ∃ entries flag,
    EntriesShow S (CapturedName S t) (t.sourceEntries S) entries ∧
      persistedSnapshot S t = rawEntries ((persistedLoop S entries).1 ++ markerEntry flag) := by
  have hshows := (entriesShow_copy S t).shows.redactLevels (fun _ _ h => h.stored) hP
    (maxRedactionDepth + 1) "" []
  obtain ⟨entries, hredacted⟩ : ∃ entries, redactEventValue S.platform []
      (freeTextPolicyCopy S (.mapping (buildTargetObjectSnapshot S t).1)) = .obj entries :=
    ⟨_, redactEventValue_obj S.platform [] _⟩
  have hentries : EntriesShow S (CapturedName S t) (t.sourceEntries S) entries := by
    rw [redactEventValue, freeTextPolicyCopy] at hredacted
    rw [hredacted] at hshows
    obtain ⟨_, hsource, hentries⟩ := hshows.entries
    exact FieldValue.mapping.inj hsource ▸ hentries
  exact ⟨entries, _, hentries,
    congrArg rawEntries (boundedPersistedSnapshot_eq hredacted hentries.nodup)⟩

/-- Every entry of the persisted snapshot is the marker or shows a source under its own name. -/
theorem persistedSnapshot_shows (hP : S.platform.Implements referenceSchema) (t : TargetObject) :
    ∀ e ∈ persistedSnapshot S t,
    e = (targetSnapshotMarker, .bool true) ∨ ∃ source ∈ t.sources,
      e.1 = freeTextPolicyKey S source.1 ∧ Shows S (CapturedName S t) source.2 e.2 := by
  obtain ⟨entries, flag, hentries, heq⟩ := persistedSnapshot_eq S hP t
  intro e he
  rw [heq, rawEntries_eq_map] at he
  obtain ⟨d, hd, rfl⟩ := List.mem_map.mp he
  rcases List.mem_append.mp hd with hd | hd
  · right
    obtain ⟨hne, v, hv, hreturns⟩ := mem_persistedLoop hentries.nodup hd
    obtain ⟨f, hf, hname, hvalue⟩ := hentries.source _ hv
    obtain ⟨source, hsource, rfl⟩ := List.mem_map.mp hf
    rcases List.mem_cons.mp hsource with rfl | hsource
    · -- The marker has no source and is not traversed again.
      exact absurd (@storedName_of_plain S targetSnapshotMarker d.1 (by decide) (by decide)
        hname.stored) hne
    · refine ⟨source, hsource, ?_, hvalue.returns (fun _ _ h => h.stored) hreturns⟩
      rw [← cutText_source hsource]
      exact hname.stored
  · left
    rw [eq_marker_of_mem hd]
    rfl

end

/-! ## An object with one key -/

section

variable {S : SnapshotPlatform} {safe : SafePass} {value : FieldValue} {taken : SafeValue}
  {nodes bytes : ℕ}

def Takes (safe : SafePass) (value : FieldValue) (taken : SafeValue) (nodes bytes : ℕ) : Prop :=
  ∀ b : Budget, b.nodes + nodes ≤ nodesLimit → b.bytes + bytes ≤ bytesLimit →
    safe value b = (some taken, charge b nodes bytes)

theorem Takes.append (h : Takes safe value taken nodes bytes) {output : List (String × SafeValue)}
    {key : String} {b : Budget} (hkey : key ∉ output.map Prod.fst)
    (hnodes : b.nodes + nodes ≤ nodesLimit)
    (hbytes : b.bytes + (mappingEntryBytes key output + bytes) ≤ bytesLimit) :
    appendSnapshotValue safe output key value b =
      (output ++ [(key, taken)], charge b nodes (mappingEntryBytes key output + bytes)) := by
  have hspend := @spend_eq_charge b 0 (mappingEntryBytes key output) (by omega) (by omega)
  have hpass := h (charge b 0 (mappingEntryBytes key output)) (by simp only [charge]; omega)
    (by simp only [charge]; omega)
  rw [appendSnapshotValue_kept hspend hpass, set_of_fresh hkey]
  simp only [charge, Nat.add_zero, Nat.add_assoc]

theorem takes_scalar {s : Scalar} (hsafe : jsonSafeScalar s = s)
    (hopen : ∀ t, s = .text t → matchesSecretPattern S t = false) (n : ℕ) :
    Takes (jsonSafeValue S n) (.scalar s) (.scalar s) 1 (s.toJson.dumps S.floatText).length := by
  intro b hnodes hbytes
  have hpass : jsonSafeValue S n (.scalar s) b = jsonSafeLeaf S s true b := by cases n <;> rfl
  rw [hpass, jsonSafeLeaf, hsafe, spend_eq_charge hnodes hbytes]
  cases s with
  | text t =>
    have hcut : cutText t = t := Scalar.text.inj hsafe
    simp only [hopen t rfl, hcut, Bool.and_false, Bool.false_eq_true, if_false]
  | null | bool x | int x | float q => rfl

theorem canonicalMappingItems_single (key : FieldKey) (value : FieldValue) (b : Budget) :
    canonicalMappingItems [(key, value)] b = ([(cutText key.text, value)], b) := by
  simp [canonicalMappingItems, orderedItems, dropRepeated, targetSnapshotMaxKeys, mark_false]

theorem Takes.single {n : ℕ} (h : Takes (jsonSafeValue S n) value taken nodes bytes) (key : String) :
    Takes (jsonSafeValue S (n + 1)) (single key value) (.mapping [(cutText key, taken)]) (1 + nodes)
      (2 + (mappingEntryBytes (cutText key) ([] : List (String × SafeValue)) + bytes)) := by
  intro b hnodes hbytes
  have hspend := @spend_eq_charge b 1 2 (by omega) (by omega)
  have happend := @Takes.append _ _ _ _ _ h [] (cutText key) (charge b 1 2) (by simp)
    (by simp only [charge]; omega) (by simp only [charge]; omega)
  rw [NetboxRpc.single, jsonSafeValue, jsonSafeMapping, hspend]
  simp only [canonicalMappingItems_single, appendSnapshotValues, happend, List.nil_append]
  simp only [charge, Nat.add_assoc]

/-- Custom fields with one entry. -/
theorem Takes.customFields (h : Takes (fieldPass S) value taken nodes bytes) {name : FieldKey}
    {snapshot : List (String × SafeValue)} {b : Budget}
    (hkey : "custom_fields" ∉ snapshot.map Prod.fst)
    (hopen : isSensitiveField (cutText name.text) = false)
    (hnodes : b.nodes + (1 + nodes) ≤ nodesLimit)
    (hbytes : b.bytes + (mappingEntryBytes "custom_fields" snapshot + (2 +
      (mappingEntryBytes (cutText name.text) ([] : List (String × SafeValue)) + bytes))) ≤
        bytesLimit) :
    appendCustomFields S snapshot [(name, value)] b =
      (snapshot ++ [("custom_fields", .mapping [(cutText name.text, taken)])],
        charge b (1 + nodes) (mappingEntryBytes "custom_fields" snapshot + (2 +
          (mappingEntryBytes (cutText name.text) ([] : List (String × SafeValue)) + bytes)))) := by
  have hspend := @spend_eq_charge b 0 (mappingEntryBytes "custom_fields" snapshot) (by omega)
    (by omega)
  have hstart := @spend_eq_charge (charge b 0 (mappingEntryBytes "custom_fields" snapshot)) 1 2
    (by simp only [charge]; omega) (by simp only [charge]; omega)
  have happend := @Takes.append _ _ _ _ _ h [] (cutText name.text)
    (charge (charge b 0 (mappingEntryBytes "custom_fields" snapshot)) 1 2) (by simp)
    (by simp only [charge]; omega) (by simp only [charge]; omega)
  rw [appendCustomFields, hspend]
  simp only [hstart, canonicalMappingItems_single, List.filter_cons, hopen, Bool.not_false, if_true,
    List.filter_nil, appendSnapshotValues, happend, List.nil_append, List.isEmpty_cons,
    Bool.false_eq_true, if_false, set_of_fresh hkey]
  simp only [charge, Nat.add_zero, Nat.add_assoc]

end

def keyTarget (key : String) : TargetObject :=
  customTarget (single "settings" (single key (.scalar (.bool true))))

def keyFields (key : String) : List (String × SafeValue) :=
  [("id", .scalar (.int 1)), ("display", .scalar (.text "d")),
    ("custom_fields", .mapping [("settings", .mapping [(cutText key, .scalar (.bool true))])])]

section

variable (S : SnapshotPlatform) (key : String)

def identityBudget : Budget := ⟨3, 22, false⟩

theorem appendIdentity_keyTarget : appendIdentity S (keyTarget key) =
    ([("id", .scalar (.int 1)), ("display", .scalar (.text "d"))], identityBudget) := by
  have hplain : matchesSecretPattern S "d" = false :=
    mappingNameIsSecretBearing_of_plain S.platform (by decide)
  have hnumber : Takes (fieldPass S) (.scalar (.int 1)) (.scalar (.int 1)) 1 1 :=
    takes_scalar rfl (by simp) _
  have htext : Takes (fieldPass S) (.scalar (.text "d")) (.scalar (.text "d")) 1 3 :=
    takes_scalar rfl (fun t ht => Scalar.text.inj ht ▸ hplain) _
  have hid := @Takes.append _ _ _ _ _ hnumber [] "id" openedBudget (by decide) (by decide) (by decide)
  have hdisplay := @Takes.append _ _ _ _ _ htext [("id", .scalar (.int 1))] "display"
    ⟨2, 8, false⟩ (by simp) (by decide) (by decide)
  rw [appendIdentity, spend_empty]
  show appendSnapshotValue (fieldPass S)
    (appendSnapshotValue (fieldPass S) [] "id" (.scalar (.int 1)) openedBudget).1 "display"
    (.scalar (.text "d"))
    (appendSnapshotValue (fieldPass S) [] "id" (.scalar (.int 1)) openedBudget).2 = _
  rw [hid]
  exact hdisplay

/-- The snapshot of the object is whole. -/
theorem snapshotFields_keyTarget : ∃ b : Budget, b.truncated = false ∧
    snapshotFields S (keyTarget key) = (keyFields key, b) := by
  have hlength : mappingEntryBytes (cutText key) ([] : List (String × SafeValue)) ≤ 12291 := by
    have hencoded := Json.length_encodeString_le (cutText key)
    have hcut : (cutText key).length ≤ 1024 := length_cutText_le key
    rw [mappingEntryBytes, keyLength, Json.comma_nil]
    omega
  have hlimit : bytesLimit = 65518 := by decide
  have hflag : Takes (jsonSafeValue S 3) (.scalar (.bool true)) (.scalar (.bool true)) 1 4 :=
    takes_scalar rfl (by simp) _
  have hfields : mappingEntryBytes "custom_fields" [("id", SafeValue.scalar (.int 1)),
      ("display", SafeValue.scalar (.text "d"))] = 17 := by decide
  have hsettings : mappingEntryBytes (cutText "settings") ([] : List (String × SafeValue)) = 11 := by
    decide
  have hbase : identityBudget.bytes = 22 := rfl
  have hcustom := @Takes.customFields S _ _ _ _ (hflag.single key) ⟨"settings", "str", "settings"⟩
    [("id", .scalar (.int 1)), ("display", .scalar (.text "d"))] identityBudget (by simp)
    (by decide +kernel) (by decide) (by
      rw [hfields, hsettings, hlimit, hbase]
      omega)
  have hname : ∀ r, appendName S (keyTarget key) r = r := fun _ => rfl
  have hdata : ∀ r, appendCustomFieldData S (keyTarget key) r = appendCustomFields S r.1
      [(⟨"settings", "str", "settings"⟩, single key (.scalar (.bool true)))] r.2 := fun _ => rfl
  have hitems : ∀ b, (keyTarget key).fieldItems b = ([], b) := fun b => by
    simp [TargetObject.fieldItems, keyTarget, customTarget, mark_false]
  rw [snapshotFields, appendIdentity_keyTarget, hname, hdata, hcustom, hitems, appendFields]
  exact ⟨_, rfl, congrArg (fun name => (_ ++ [("custom_fields", SafeValue.mapping [(name, _)])], _))
    (@cutText_of_le "settings" (by decide))⟩

/-- Replacing matched text keeps the snapshot when the key is open once it is cut. -/
theorem copy_keyTarget (hkey : matchesSecretPattern S (cutText key) = false) :
    freeTextPolicyCopy S (.mapping (keyFields key)) = .obj (rawEntries (keyFields key)) := by
  have hplain : ∀ {name : String}, isPlainName name = true → freeTextPolicyKey S name = name :=
    fun h => freeTextPolicyKey_of_open S (mappingNameIsSecretBearing_of_plain S.platform h)
  have hid := @hplain "id" (by decide)
  have hdisplay := @hplain "display" (by decide)
  have hcustom := @hplain "custom_fields" (by decide)
  have hsettings := @hplain "settings" (by decide)
  have hname := freeTextPolicyKey_of_open S hkey
  simp [keyFields, freeTextPolicyCopy, freeTextPolicyEntries, hid, hdisplay, hcustom, hsettings,
    hname, Json.set, raw, rawEntries, Scalar.toJson]

/-- A mapping within its bound, with open names, under a key that no key rule knows. -/
theorem storedLevels_obj {R : TextRules} {P : Platform} {n : ℕ} {key : String} {path : List String}
    {entries : List (String × Json)} (hkey : TextRules.OpenKey key)
    (hlength : entries.length ≤ maxEventDictItems) (hnodup : (entries.map Prod.fst).Nodup)
    (hopen : ∀ e ∈ entries, R.secretName e.1 = false)
    (hentries : ∀ e ∈ entries, R.storedLevels P n e.1 (path ++ [e.1]) e.2) :
    R.storedLevels P (n + 1) key path (.obj entries) := by
  have hkept := keptEntries_of_length_le hlength
  rw [TextRules.storedLevels, TextRules.storedLevel, if_neg hkey.boolean, if_neg hkey.sensitive]
  refine ⟨⟨hnodup, ?_, .inl hlength⟩, ?_⟩
  · rwa [hkept]
  · rwa [hkept]

/-- Redaction keeps booleans under every key. -/
theorem storedLevels_bool (R : TextRules) (P : Platform) (n : ℕ) (key : String) (path : List String)
    (b : Bool) : R.storedLevels P n key path (.bool b) := by
  have hlevel : ∀ stored, R.storedLevel P stored key path (.bool b) := by
    intro stored
    by_cases hboolean : key ≠ "" ∧ isBooleanPolicyKey key = true
    · unfold TextRules.storedLevel
      rw [if_pos hboolean]
      exact .inl ⟨b, rfl⟩
    · by_cases hsensitive : key ≠ "" ∧ isSensitiveKey key = true
      · unfold TextRules.storedLevel
        rw [if_neg hboolean, if_pos hsensitive]
        rfl
      · exact TextRules.storedLevel_bool ⟨hboolean, hsensitive⟩ b
  cases n with
  | zero => exact hlevel none
  | succ n => exact hlevel _

theorem storedLevels_int (R : TextRules) (P : Platform) (n : ℕ) {key : String}
    (h : TextRules.OpenKey key) (path : List String) (x : ℤ) :
    R.storedLevels P n key path (.int x) := by
  cases n <;> simp only [TextRules.storedLevels, TextRules.storedLevel, if_neg h.boolean,
    if_neg h.sensitive]

theorem storedLevels_str {R : TextRules} (P : Platform) (n : ℕ) {key : String}
    (h : TextRules.OpenKey key) {path : List String} {s : String} (hs : R.text path s = s) :
    R.storedLevels P n key path (.str s) := by
  cases n with
  | zero => exact TextRules.storedLevel_str h hs
  | succ n => exact TextRules.storedLevel_str h hs

theorem secretName_of_matches {S : SnapshotPlatform} {name : String}
    (h : matchesSecretPattern S name = false) :
    (eventRules S.platform []).secretName name = false := h

theorem secretName_of_plain (P : Platform) {name : String} (h : isPlainName name = true) :
    (eventRules P []).secretName name = false := mappingNameIsSecretBearing_of_plain P h

theorem storedLevels_single {R : TextRules} {P : Platform} {n : ℕ} {key name : String}
    {path : List String} {v : Json} (hkey : TextRules.OpenKey key) (hname : R.secretName name = false)
    (h : R.storedLevels P n name (path ++ [name]) v) :
    R.storedLevels P (n + 1) key path (.obj [(name, v)]) := by
  refine storedLevels_obj hkey (by simp [maxEventDictItems]) (by simp) (fun e he => ?_)
    (fun e he => ?_)
  · rw [List.mem_singleton.mp he]
    exact hname
  · rw [List.mem_singleton.mp he]
    exact h

theorem stored_keyCustomFields (hkey : matchesSecretPattern S (cutText key) = false) (n : ℕ)
    (path : List String) :
    (eventRules S.platform []).storedLevels S.platform (n + 2) "custom_fields" path
      (.obj [("settings", .obj [(cutText key, .bool true)])]) := by
  have hsettings := @secretName_of_plain S.platform "settings" (by decide)
  have hname := secretName_of_matches hkey
  have hcustom : TextRules.OpenKey "custom_fields" := ⟨by decide +kernel, by decide +kernel⟩
  have hopen : TextRules.OpenKey "settings" := ⟨by decide +kernel, by decide +kernel⟩
  have hflag := storedLevels_bool (eventRules S.platform []) S.platform n (cutText key)
    (path ++ ["settings"] ++ [cutText key]) true
  have hinner := @storedLevels_single (eventRules S.platform []) S.platform n "settings" (cutText key)
    (path ++ ["settings"]) (.bool true) hopen hname hflag
  exact @storedLevels_single (eventRules S.platform []) S.platform (n + 1) "custom_fields" "settings"
    path (.obj [(cutText key, .bool true)]) hcustom hsettings hinner

/-- Redaction keeps the snapshot, whatever its key. -/
theorem stored_keyFields (hkey : matchesSecretPattern S (cutText key) = false) :
    (eventRules S.platform []).storedLevels S.platform (maxRedactionDepth + 1) "" []
      (.obj (rawEntries (keyFields key))) := by
  have hplain : ∀ name ∈ ["id", "display", "custom_fields"], isPlainName name = true := by decide
  have hid : TextRules.OpenKey "id" := ⟨by decide +kernel, by decide +kernel⟩
  have hdisplay : TextRules.OpenKey "display" := ⟨by decide +kernel, by decide +kernel⟩
  have htext : redactEventText S.platform [] ["display"] "d" = "d" :=
    redactEventText_of_plain S.platform (by decide) (by decide)
  have hcustom := stored_keyCustomFields S key hkey 30 ["custom_fields"]
  refine storedLevels_obj (R := eventRules S.platform []) ⟨by simp, by simp⟩
    (by simp [keyFields, rawEntries, maxEventDictItems]) (by simp [keyFields, rawEntries])
    (fun e he => ?_) (fun e he => ?_)
  · have hmem : e.1 ∈ ["id", "display", "custom_fields"] := by
      simpa [keyFields, rawEntries] using List.mem_map_of_mem (f := Prod.fst) he
    exact secretName_of_plain S.platform (hplain e.1 hmem)
  · simp only [keyFields, rawEntries, raw, Scalar.toJson, List.mem_cons, List.not_mem_nil,
      or_false] at he
    rcases he with rfl | rfl | rfl
    · exact storedLevels_int _ _ _ hid _ 1
    · exact storedLevels_str _ _ hdisplay htext
    · exact hcustom

/-- The persisted snapshot stores the cut key. -/
theorem persistedSnapshot_keyTarget (hkey : matchesSecretPattern S (cutText key) = false) :
    Json.KeyEq (.obj (persistedSnapshot S (keyTarget key))) (.obj (rawEntries (keyFields key))) := by
  obtain ⟨b, hwhole, hfields⟩ := snapshotFields_keyTarget S key
  have hbuilt : (buildTargetObjectSnapshot S (keyTarget key)).1 = keyFields key := by
    rw [buildTargetObjectSnapshot_fst, hfields, hwhole]
    exact List.append_nil _
  rw [← hbuilt]
  refine keyEq_persistedSnapshot ?_ (fun customFields hfind => ?_)
  · have hkept := TextRules.keyEq_levels (stored_keyFields S key hkey)
    rw [levels_eventRules] at hkept
    rw [hbuilt, copy_keyTarget S key hkey]
    exact hkept
  · rw [hbuilt] at hfind
    have hvalue : .obj [("settings", .obj [(cutText key, .bool true)])] = customFields := by
      simpa [keyFields, rawEntries, raw, Scalar.toJson, Json.find_cons] using hfind
    rw [← hvalue]
    simp [Json.nestsWithin, targetSnapshotMaxDepth]

/-! ## Hidden secrets -/

def HiddenName (key name : String) : Prop :=
  StoredName S key name ∧
    (matchesSecretPattern S key = true → ∃ text, name = fieldPlaceholder S text)

/-- Every entry of the persisted snapshot is the marker or shows a source in which no text and no
key that the secret pattern matches is visible. -/
def SecretsHidden (t : TargetObject) : Prop :=
  ∀ e ∈ persistedSnapshot S t, e = (targetSnapshotMarker, .bool true) ∨
    ∃ source ∈ t.sources, e.1 = freeTextPolicyKey S source.1 ∧
      Shows S (HiddenName S) source.2 e.2

theorem hiddenName_of_storedName {name : String} (h : StoredName S key name)
    (hkey : matchesSecretPattern S key = true → matchesSecretPattern S (cutText key) = true) :
    HiddenName S key name :=
  ⟨h, fun hsecret => ⟨cutText key, h.trans (freeTextPolicyKey_of_match S (hkey hsecret))⟩⟩

/-- A key that is open once it is cut has no hidden name of its own text. -/
theorem not_hiddenName (hsecret : matchesSecretPattern S key = true)
    (hopen : matchesSecretPattern S (cutText key) = false) : ¬ HiddenName S key (cutText key) := by
  rintro ⟨_, hhidden⟩
  obtain ⟨text, hname⟩ := hhidden hsecret
  have hshort := length_fieldPlaceholder_le S text
  rw [← hname] at hshort
  have hwhole : cutText key = key := by
    apply cutText_of_le
    by_contra hlong
    have hcut : (cutText key).length = targetSnapshotMaxValueLen := by
      rw [cutText, String.length_ofList, List.length_take, String.length_toList]
      omega
    rw [hcut, targetSnapshotMaxValueLen] at hshort
    omega
  rw [hwhole, hsecret] at hopen
  cases hopen

/-- The one entry of a mapping, in what shows it. -/
theorem Shows.single_entry {S : SnapshotPlatform} {named : String → String → Prop}
    {key name : String} {value : FieldValue} {v w : Json} (h : Shows S named (single key value) w)
    (hsame : Json.KeyEq (.obj [(name, v)]) w) :
    named key name ∧ ∃ u, Json.KeyEq v u ∧ Shows S named value u := by
  obtain ⟨out, rfl⟩ := Json.exists_obj_of_keyEq hsame.symm
  obtain ⟨e, he, hname, hvalue⟩ := Json.exists_mem_of_keyEq_obj hsame (List.mem_singleton_self _)
  obtain ⟨entries, hentries, hshows⟩ := h.entries
  obtain ⟨d, hd, hnamed, hshows⟩ := hshows.source e he
  rw [← FieldValue.mapping.inj hentries, List.mem_singleton] at hd
  rw [hd] at hnamed hshows
  have hname' : name = e.1 := hname
  exact ⟨hname' ▸ hnamed, e.2, hvalue, hshows⟩

/-- The object with such a key stores it. -/
theorem not_secretsHidden_keyTarget (hsecret : matchesSecretPattern S key = true)
    (hopen : matchesSecretPattern S (cutText key) = false) : ¬ SecretsHidden S (keyTarget key) := by
  intro hhidden
  have hstored := persistedSnapshot_keyTarget S key hopen
  have hmem : ("custom_fields", Json.obj [("settings", .obj [(cutText key, .bool true)])]) ∈
      rawEntries (keyFields key) := by
    simp [keyFields, rawEntries, raw, Scalar.toJson]
  obtain ⟨e, he, hname, hvalue⟩ := Json.exists_mem_of_keyEq_obj hstored.symm hmem
  simp only at hname
  have hshown : Shows S (HiddenName S) (single "settings" (single key (.scalar (.bool true)))) e.2 := by
    rcases hhidden e he with hmarker | ⟨source, hsource, hsourceName, hshows⟩
    · rw [hmarker] at hname
      exact absurd hname (by decide)
    · have hplain : ∀ {name : String}, isPlainName name = true → freeTextPolicyKey S name = name :=
        fun h => freeTextPolicyKey_of_open S (mappingNameIsSecretBearing_of_plain S.platform h)
      have hcases : source ∈ [("id", FieldValue.scalar (.int 1)), ("display", .scalar (.text "d")),
          ("custom_fields", single "settings" (single key (.scalar (.bool true))))] := by
        simpa [TargetObject.sources, keyTarget, customTarget, TargetObject.fieldItems] using hsource
      rw [← hname] at hsourceName
      simp only [List.mem_cons, List.not_mem_nil, or_false] at hcases
      rcases hcases with rfl | rfl | rfl
      · rw [hplain (by decide)] at hsourceName
        exact absurd hsourceName (by decide)
      · rw [hplain (by decide)] at hsourceName
        exact absurd hsourceName (by decide)
      · exact hshows
  obtain ⟨_, u, hu, hinner⟩ := hshown.single_entry hvalue
  obtain ⟨hname, _⟩ := hinner.single_entry hu
  exact not_hiddenName S key hsecret hopen hname

/-- The secret keys that the raw snapshot of the object keeps match the secret pattern once they are
cut. -/
def CutKeysMatch (t : TargetObject) : Prop :=
  ∀ key, t.Captures S key → matchesSecretPattern S key = true →
    matchesSecretPattern S (cutText key) = true

theorem secretsHidden_of_cutKeysMatch (hP : S.platform.Implements referenceSchema)
    {t : TargetObject} (h : CutKeysMatch S t) : SecretsHidden S t := by
  intro e he
  rcases persistedSnapshot_shows S hP t e he with hmarker | ⟨source, hsource, hname, hshows⟩
  · exact .inl hmarker
  · refine .inr ⟨source, hsource, hname, hshows.mono fun key name hcaptured => ?_⟩
    refine hiddenName_of_storedName S key hcaptured.stored fun hsecret => ?_
    rcases hcaptured.captured with hwhole | hcaptures
    · rwa [hwhole]
    · exact h key hcaptures hsecret

/-- The object with one key captures no other mapping keys. -/
theorem captures_keyTarget {key other : String} (h : (keyTarget key).Captures S other) :
    other = "settings" ∨ other = key := by
  obtain ⟨name, value, v, hsource, -, hcaptures⟩ := h
  have hcases : value ∈ [FieldValue.scalar (.int 1), .scalar (.text "d"),
      single "settings" (single key (.scalar (.bool true)))] := by
    have hmem := List.mem_map_of_mem (f := Prod.snd) hsource
    simpa [TargetObject.sources, keyTarget, customTarget, TargetObject.fieldItems] using hmem
  simp only [List.mem_cons, List.not_mem_nil, or_false] at hcases
  rcases hcases with rfl | rfl | rfl
  · cases hcaptures
  · cases hcaptures
  · cases hcaptures with
    | here hentry hkept hkey =>
      rw [List.mem_singleton.mp hentry |> Prod.mk.inj |>.1] at hkey
      exact .inl hkey.symm
    | entry hentry hkept hinner =>
      rw [(Prod.mk.inj (List.mem_singleton.mp hentry)).2] at hinner
      cases hinner with
      | here hentry hkept hkey =>
        rw [(Prod.mk.inj (List.mem_singleton.mp hentry)).1] at hkey
        exact .inr hkey.symm
      | entry hentry hkept hinner =>
        rw [(Prod.mk.inj (List.mem_singleton.mp hentry)).2] at hinner
        cases hinner

end

/-! ## A long key -/

def lateAssignment (n : ℕ) : String :=
  String.ofList (List.replicate n 'a' ++ ' ' :: "token=x".toList)

theorem toList_lateAssignment (n : ℕ) :
    (lateAssignment n).toList = List.replicate n 'a' ++ ' ' :: "token=x".toList :=
  String.toList_ofList

theorem ofPos_lateAssignment (n : ℕ) : Regex.State.ofPos (lateAssignment n).toList (n + 1) =
    ⟨some ' ', "token=x".toList, n + 1, []⟩ := by
  have hsplit : (lateAssignment n).toList = (List.replicate n 'a' ++ [' ']) ++ "token=x".toList := by
    rw [toList_lateAssignment, List.append_assoc, List.singleton_append]
  have hlength : (List.replicate n 'a' ++ [' ']).length = n + 1 := by
    rw [List.length_append, List.length_replicate, List.length_singleton]
  rw [Regex.State.ofPos, hsplit, List.take_left' hlength, List.drop_left' hlength,
    List.getLast?_concat]

theorem matchesSecretPattern_lateAssignment :
    matchesSecretPattern plainPlatform (lateAssignment targetSnapshotMaxValueLen) = true := by
  have hassigned : (' ' :: "token=x".toList).countP isStructuralMark = 0 := by decide
  refine containsSecretText_of_run (k := targetSnapshotMaxValueLen + 1) ?_ ?_ ?_
  · rw [toList_lateAssignment, List.countP_append, List.countP_replicate, hassigned]
    rfl
  · rw [toList_lateAssignment, List.length_append, List.length_replicate]
    exact Nat.add_le_add_left (by decide) _
  · rw [ofPos_lateAssignment]
    decide +kernel

theorem matchesSecretPattern_cut_lateAssignment (S : SnapshotPlatform) :
    matchesSecretPattern S (cutText (lateAssignment targetSnapshotMaxValueLen)) = false := by
  have hcut : cutText (lateAssignment targetSnapshotMaxValueLen) =
      String.ofList (List.replicate targetSnapshotMaxValueLen 'a') := by
    rw [cutText, toList_lateAssignment, List.take_left' List.length_replicate]
  refine mappingNameIsSecretBearing_of_plain S.platform ?_
  rw [hcut, isPlainName_ofList, List.countP_replicate, List.countP_replicate, List.countP_replicate]
  decide

/-! ## The persisted snapshot hides its secrets -/

/-- Every secret is hidden in every object whose captured secret keys still match once they are cut,
and every key that no longer matches is stored by some object. -/
theorem snapshot_secrets_hidden (S : SnapshotPlatform)
    (hP : S.platform.Implements referenceSchema) :
    (∀ t : TargetObject, CutKeysMatch S t → SecretsHidden S t) ∧
      ∀ key, SecretsHidden S (keyTarget key) ↔ CutKeysMatch S (keyTarget key) := by
  refine ⟨fun t => secretsHidden_of_cutKeysMatch S hP, fun key =>
    ⟨fun hhidden other hcaptures hsecret => ?_, secretsHidden_of_cutKeysMatch S hP⟩⟩
  rcases captures_keyTarget S hcaptures with rfl | rfl
  · have hplain : matchesSecretPattern S "settings" = false :=
      mappingNameIsSecretBearing_of_plain S.platform (by decide)
    rw [hplain] at hsecret
    cases hsecret
  · by_contra hopen
    exact not_secretsHidden_keyTarget S _ hsecret (Bool.eq_false_iff.mpr hopen) hhidden

def passwordTarget : TargetObject :=
  customTarget (single "password"
    (single (lateAssignment targetSnapshotMaxValueLen) (.scalar (.bool true))))

theorem snapshot_secrets_hidden_password : SecretsHidden plainPlatform passwordTarget := by
  refine (snapshot_secrets_hidden plainPlatform (implements_default _)).1 passwordTarget ?_
  rintro key ⟨name, value, v, hsource, hkept, hcaptures⟩ -
  have hnames : (buildTargetObjectSnapshot plainPlatform passwordTarget).1.map Prod.fst =
      ["id", "display"] := by
    decide +kernel
  have hname : name ∈ ["id", "display"] := hnames ▸ List.mem_map_of_mem (f := Prod.fst) hkept
  have hcases : (name, value) ∈ [("id", FieldValue.scalar (.int 1)), ("display", .scalar (.text "d")),
      ("custom_fields", single "password"
        (single (lateAssignment targetSnapshotMaxValueLen) (.scalar (.bool true))))] := by
    simpa [TargetObject.sources, passwordTarget, customTarget, TargetObject.fieldItems] using hsource
  simp only [List.mem_cons, List.not_mem_nil, or_false, Prod.mk.injEq] at hname hcases
  rcases hcases with ⟨-, rfl⟩ | ⟨-, rfl⟩ | ⟨rfl, -⟩
  · cases hcaptures
  · cases hcaptures
  · rcases hname with h | h <;> exact absurd h (by decide)

/-- The key is stored up to its cut, under no placeholder. -/
theorem long_key_stored : ¬ SecretsHidden plainPlatform
    (keyTarget (lateAssignment targetSnapshotMaxValueLen)) :=
  not_secretsHidden_keyTarget plainPlatform _ matchesSecretPattern_lateAssignment
    (matchesSecretPattern_cut_lateAssignment plainPlatform)

end NetboxRpc
