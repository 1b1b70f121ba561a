import NetboxRpc.Lifecycle
import NetboxRpc.SnapshotSecrets
import NetboxRpc.WideFields

/-!
# The hash of the stored target object

`_apply_target_object_context` puts the persisted snapshot into the normalized parameters and its
digest into their command fingerprint. The ledger redacts both once more. The digest speaks of what
is stored exactly when the ledger finds nothing to change in the snapshot: no text that text
redaction changes, and under a key rule only values that the rule keeps.
-/

namespace NetboxRpc

open Budget SafeValue

def renderJinja : String := "jinja"

structure TargetedExecution where
  /-- `render_mode` of each command of the procedure. -/
  renderModes : List String
  assignedObject : Option TargetObject

def TargetedExecution.hasJinjaCommand (x : TargetedExecution) : Bool :=
  x.renderModes.any (· == renderJinja)

def applyTargetObjectContext (S : SnapshotPlatform) (x : TargetedExecution) (normalized : Entries) :
    Entries :=
  if !x.hasJinjaCommand then normalized else
    match x.assignedObject with
    | none => normalized
    | some t =>
      let snapshot := (buildTargetObjectSnapshot S t).1
      if snapshot.isEmpty then normalized else
        let persisted := Json.obj (persistedSnapshot S t)
        let normalized := Json.set normalized "_target_object" persisted
        match Json.find normalized "command_fingerprint" with
        | some (.obj fingerprint) =>
          let fingerprint := Json.set fingerprint "target_object_sha256"
            (.str (hashJson S.platform persisted))
          Json.set normalized "command_fingerprint" (.obj (Json.set fingerprint
            "target_object_raw_hmac_sha256" (.str (S.rawDigest (.obj (rawEntries snapshot))))))
        | _ => normalized

/-! ## What the ledger keeps -/

section

variable (S : SnapshotPlatform)

mutual

/-- Redaction finds nothing to change in a value under a key: text redaction leaves every text as it
is, and a key rule finds a value that it keeps. -/
def ledgerKeeps (key : String) (value : Json) : Bool :=
  if key ≠ "" ∧ isBooleanPolicyKey key = true then
    match value with
    | .bool _ => true
    | v => decide (v = redacted)
  else if key ≠ "" ∧ isSensitiveKey key = true then
    decide (Json.KeyEq (redactSensitiveValue S.platform key value) value)
  else match value with
    | .obj entries => ledgerKeepsEntries entries
    | .arr items => ledgerKeepsItems key items
    | .str s => redactEventText S.platform [] [] s == s
    | _ => true

def ledgerKeepsItems (key : String) : List Json → Bool
  | [] => true
  | v :: vs => ledgerKeeps key v && ledgerKeepsItems key vs

def ledgerKeepsEntries : List (String × Json) → Bool
  | [] => true
  | (k, v) :: es => ledgerKeeps k v && ledgerKeepsEntries es

end

theorem ledgerKeepsItems_iff {key : String} {items : List Json} :
    ledgerKeepsItems S key items = true ↔ ∀ v ∈ items, ledgerKeeps S key v = true := by
  induction items with
  | nil => simp [ledgerKeepsItems]
  | cons v vs ih => simp [ledgerKeepsItems, ih]

theorem ledgerKeepsEntries_iff {entries : List (String × Json)} :
    ledgerKeepsEntries S entries = true ↔ ∀ e ∈ entries, ledgerKeeps S e.1 e.2 = true := by
  induction entries with
  | nil => simp [ledgerKeepsEntries]
  | cons e es ih => simp [ledgerKeepsEntries, ih]

end

/-- A mapping with its values replaced is the same mapping exactly when every value is the same. -/
theorem keyEq_obj_map_iff {entries : List (String × Json)} (hnodup : (entries.map Prod.fst).Nodup)
    (f : String → Json → Json) :
    Json.KeyEq (.obj ((entries.insertionSort Json.keyLe).map (fun e => (e.1, f e.1 e.2))))
        (.obj entries) ↔ ∀ e ∈ entries, Json.KeyEq (f e.1 e.2) e.2 := by
  have hperm := List.perm_insertionSort Json.keyLe entries
  constructor
  · intro h e he
    have hmem : (e.1, f e.1 e.2) ∈
        (entries.insertionSort Json.keyLe).map (fun e => (e.1, f e.1 e.2)) :=
      List.mem_map_of_mem (hperm.mem_iff.mpr he)
    obtain ⟨d, hd, hname, hvalue⟩ := Json.exists_mem_of_keyEq_obj h hmem
    have hsame : d = e := List.inj_on_of_nodup_map hnodup hd he hname.symm
    rwa [hsame] at hvalue
  · intro h
    have hpaired : List.Forall₂ Json.EntryEq
        ((entries.insertionSort Json.keyLe).map (fun e => (e.1, f e.1 e.2)))
        (entries.insertionSort Json.keyLe) := by
      rw [List.forall₂_map_left_iff, List.forall₂_same]
      exact fun e he => ⟨rfl, h e (hperm.mem_iff.mp he)⟩
    exact Json.keyEq_obj_of_forall₂ hpaired hperm hnodup

section

variable {S : SnapshotPlatform}

def InTarget (path : List String) : Prop :=
  ∃ rest, path = "normalized_params" :: "_target_object" :: rest

theorem InTarget.append {path : List String} (h : InTarget path) (name : String) :
    InTarget (path ++ [name]) := by
  obtain ⟨rest, rfl⟩ := h
  exact ⟨rest ++ [name], rfl⟩

theorem InTarget.redactEventText {path : List String} (h : InTarget path) (P : Platform)
    (s : String) :
    redactEventText P normalizedParamsStringLimits path s = redactEventText P [] [] s := by
  obtain ⟨rest, rfl⟩ := h
  have hlimit : limitAt normalizedParamsStringLimits
      ("normalized_params" :: "_target_object" :: rest) = limitAt [] [] := by
    simp [limitAt, normalizedParamsStringLimits]
  rw [NetboxRpc.redactEventText, NetboxRpc.redactEventText, hlimit]

/-- One level of the ledger's redaction of the target object. -/
theorem keyEq_level_iff {child : Option (String → List String → Json → Json)} {source : FieldValue}
    {v : Json} {key : String} {path : List String} (hshows : Shows S (StoredName S) source v)
    (hpath : InTarget path)
    (hobj : ∀ entries, v = .obj entries → ∃ c, child = some c ∧ ∀ e ∈ entries,
      (Json.KeyEq (c e.1 (path ++ [e.1]) e.2) e.2 ↔ ledgerKeeps S e.1 e.2 = true))
    (harr : ∀ items, v = .arr items → ∃ c, child = some c ∧ ∀ w ∈ items,
      (Json.KeyEq (c key (path ++ ["*"]) w) w ↔ ledgerKeeps S key w = true)) :
    Json.KeyEq
        ((eventRules S.platform normalizedParamsStringLimits).level S.platform child key path v) v ↔
      ledgerKeeps S key v = true := by
  by_cases hboolean : key ≠ "" ∧ isBooleanPolicyKey key = true
  · unfold ledgerKeeps TextRules.level
    rw [if_pos hboolean, if_pos hboolean]
    cases v with
    | bool b => exact ⟨fun _ => rfl, fun _ => rfl⟩
    | null | int n | float q | str s | arr items | obj entries =>
      rw [decide_eq_true_eq]
      exact ⟨fun h => Json.eq_of_keyEq_scalar h.symm rfl, fun h => h ▸ rfl⟩
  · by_cases hsensitive : key ≠ "" ∧ isSensitiveKey key = true
    · unfold ledgerKeeps
      rw [TextRules.level_sensitive hboolean hsensitive, if_neg hboolean, if_pos hsensitive,
        decide_eq_true_eq]
    · have hopen : TextRules.OpenKey key := ⟨hboolean, hsensitive⟩
      unfold ledgerKeeps
      rw [if_neg hboolean, if_neg hsensitive]
      cases v with
      | obj out =>
        obtain ⟨c, rfl, hc⟩ := hobj out rfl
        obtain ⟨entries, rfl, hentries⟩ := hshows.entries
        have hnames : ∀ e ∈ out,
            (eventRules S.platform normalizedParamsStringLimits).secretName e.1 = false := by
          intro e he
          obtain ⟨d, _, hname, _⟩ := hentries.source e he
          exact hname.matches_eq_false
        rw [TextRules.level_obj hopen, ledgerKeepsEntries_iff,
          redactMapping_of_open (hentries.length_le.trans (by decide)) hentries.nodup hnames,
          keyEq_obj_map_iff hentries.nodup (fun name w => c name (path ++ [name]) w)]
        exact forall₂_congr hc
      | arr out =>
        obtain ⟨c, rfl, hc⟩ := harr out rfl
        obtain ⟨items, rfl, hlength, _⟩ := hshows.items
        rw [TextRules.level_arr hopen, ledgerKeepsItems_iff, redactEventSequence,
          keptItems_of_length_le (hlength.trans (by decide)), List.append_nil, Json.keyEq_arr_iff,
          List.forall₂_map_left_iff, List.forall₂_same]
        exact forall₂_congr hc
      | str s =>
        rw [TextRules.level_str hopen, beq_iff_eq, ← hpath.redactEventText]
        exact ⟨fun h => Json.str.inj (Json.eq_of_keyEq_scalar h rfl), fun h =>
          congrArg (fun t => (Json.str t).sorted) h⟩
      | null | bool b | int n | float q =>
        simp [TextRules.level, hboolean, hsensitive, Json.KeyEq]

/-- The ledger's redaction of a part of the target object, at any depth it has levels for. -/
theorem keyEq_levels_iff {n : ℕ} {source : FieldValue} {v : Json} {key : String} {path : List String}
    (hshows : Shows S (StoredName S) source v) (hnests : v.nestsWithin n = true)
    (hpath : InTarget path) :
    Json.KeyEq
        ((eventRules S.platform normalizedParamsStringLimits).levels S.platform n key path v) v ↔
      ledgerKeeps S key v = true := by
  induction n generalizing source v key path with
  | zero =>
    refine keyEq_level_iff hshows hpath (fun entries hv => ?_) (fun items hv => ?_)
    · rw [hv] at hnests
      cases hnests
    · rw [hv] at hnests
      cases hnests
  | succ n ih =>
    refine keyEq_level_iff hshows hpath (fun out hv => ⟨_, rfl, fun e he => ?_⟩)
      (fun out hv => ⟨_, rfl, fun w hw => ?_⟩)
    · subst hv
      obtain ⟨entries, rfl, hentries⟩ := hshows.entries
      obtain ⟨d, _, _, hd⟩ := hentries.source e he
      exact ih hd (List.all_eq_true.mp hnests e he) (hpath.append _)
    · subst hv
      obtain ⟨items, rfl, _, hitems⟩ := hshows.items
      obtain ⟨d, _, hd⟩ := hitems w hw
      exact ih hd (List.all_eq_true.mp hnests w hw) (hpath.append _)

theorem nestsWithin_mono {v : Json} {n m : ℕ} (hle : n ≤ m) (h : v.nestsWithin n = true) :
    v.nestsWithin m = true := by
  induction n generalizing v m with
  | zero =>
    cases m with
    | zero => exact h
    | succ m => cases v <;> first | rfl | cases h
  | succ n ih =>
    obtain ⟨m, rfl⟩ : ∃ k, m = k + 1 := ⟨m - 1, by omega⟩
    cases v with
    | arr items =>
      rw [Json.nestsWithin, List.all_eq_true] at h ⊢
      exact fun w hw => ih (by omega) (h w hw)
    | obj entries =>
      rw [Json.nestsWithin, List.all_eq_true] at h ⊢
      exact fun e he => ih (by omega) (h e he)
    | _ => rfl

structure ReadAsTarget (S : SnapshotPlatform) (entries : List (String × Json)) : Prop where
  nodup : (entries.map Prod.fst).Nodup
  length_le : entries.length ≤ maxEventDictItems
  openName : ∀ e ∈ entries, matchesSecretPattern S e.1 = false
  value : ∀ e ∈ entries, e.2.nestsWithin targetSnapshotMaxDepth = true ∧
    ∃ source, Shows S (StoredName S) source e.2

theorem readAsTarget_persistedSnapshot (S : SnapshotPlatform)
    (hP : S.platform.Implements referenceSchema) (t : TargetObject) :
    ReadAsTarget S (persistedSnapshot S t) := by
  obtain ⟨entries, flag, hentries, heq⟩ := persistedSnapshot_eq S hP t
  obtain ⟨hsublist, _⟩ := @appendSnapshotValues_returns (fieldPass S) (persistedItems S entries) []
    openedBudget (nodup_persistedItems hentries.nodup)
  have hloop : ((persistedLoop S entries).1.map Prod.fst).Nodup :=
    (nodup_persistedItems hentries.nodup).sublist hsublist
  have hmarker : ∀ d ∈ (persistedLoop S entries).1, d.1 ≠ targetSnapshotMarker := fun d hd =>
    (mem_persistedLoop hentries.nodup hd).1
  have hplain : matchesSecretPattern S targetSnapshotMarker = false :=
    mappingNameIsSecretBearing_of_plain S.platform (by decide)
  rw [heq]
  refine ⟨?_, ?_, fun e he => ?_, fun e he => ?_⟩
  · rw [map_fst_rawEntries, List.map_append, List.nodup_append]
    refine ⟨hloop, ?_, fun name hname other hother heq => ?_⟩
    · cases flag <;> simp [markerEntry]
    · obtain ⟨d, hd, rfl⟩ := List.mem_map.mp hname
      obtain ⟨f, hf, rfl⟩ := List.mem_map.mp hother
      rw [eq_marker_of_mem hf] at heq
      exact hmarker d hd heq
  · have hitems : (persistedItems S entries).length ≤ entries.length := by
      rw [persistedItems_eq, List.length_map, (persistedOrder_perm entries).length_eq]
      exact List.length_filter_le _ _
    have hle : (persistedLoop S entries).1.length ≤ (persistedItems S entries).length := by
      simpa [persistedLoop] using hsublist.length_le
    have hflag : (markerEntry flag).length ≤ 1 := by cases flag <;> decide
    have hsize := hentries.length_le
    have hkeys : targetSnapshotMaxKeys = 95 := rfl
    have hmax : maxEventDictItems = 100 := rfl
    rw [rawEntries_eq_map, List.length_map, List.length_append]
    omega
  · rw [rawEntries_eq_map] at he
    obtain ⟨d, hd, rfl⟩ := List.mem_map.mp he
    rcases List.mem_append.mp hd with hd | hd
    · obtain ⟨_, v, hv, _⟩ := mem_persistedLoop hentries.nodup hd
      obtain ⟨f, _, hname, _⟩ := hentries.source _ hv
      exact hname.stored.matches_eq_false
    · rw [eq_marker_of_mem hd]
      exact hplain
  · rw [rawEntries_eq_map] at he
    obtain ⟨d, hd, rfl⟩ := List.mem_map.mp he
    rcases List.mem_append.mp hd with hd | hd
    · obtain ⟨_, v, hv, hreturns⟩ := mem_persistedLoop hentries.nodup hd
      obtain ⟨f, _, _, hvalue⟩ := hentries.source _ hv
      have hshows := hvalue.returns (fun _ _ h => h.stored) hreturns
      exact ⟨(bounded_of_returns hreturns).nestsWithin, f.2, hshows.mono fun _ _ h => h.stored⟩
    · rw [eq_marker_of_mem hd]
      exact ⟨rfl, .scalar .null, .bool true⟩

/-- The ledger's redaction of the whole target object. -/
theorem keyEq_target_iff {entries : List (String × Json)} (h : ReadAsTarget S entries) :
    Json.KeyEq (redactLevels S.platform normalizedParamsStringLimits (maxRedactionDepth - 1)
        "_target_object" ["normalized_params", "_target_object"] (.obj entries)) (.obj entries) ↔
      ledgerKeeps S "_target_object" (.obj entries) = true := by
  have hkey : TextRules.OpenKey "_target_object" := ⟨by decide +kernel, by decide +kernel⟩
  have hpath : InTarget ["normalized_params", "_target_object"] := ⟨[], rfl⟩
  have hkeeps : ledgerKeeps S "_target_object" (.obj entries) = ledgerKeepsEntries S entries := by
    unfold ledgerKeeps
    rw [if_neg hkey.boolean, if_neg hkey.sensitive]
  have hlevels : redactLevels S.platform normalizedParamsStringLimits (maxRedactionDepth - 1)
      "_target_object" ["normalized_params", "_target_object"] (.obj entries) =
        .obj ((eventRules S.platform normalizedParamsStringLimits).redactMapping S.platform
          ((eventRules S.platform normalizedParamsStringLimits).levels S.platform 30)
          ["normalized_params", "_target_object"] entries) := by
    rw [← levels_eventRules]
    exact TextRules.level_obj hkey _ _ entries
  rw [hlevels, hkeeps, ledgerKeepsEntries_iff, redactMapping_of_open h.length_le h.nodup h.openName,
    keyEq_obj_map_iff h.nodup (fun name w => (eventRules S.platform
      normalizedParamsStringLimits).levels S.platform 30
        (name) (["normalized_params", "_target_object"] ++ [name]) w)]
  refine forall₂_congr (fun e he => ?_)
  obtain ⟨hnests, source, hshows⟩ := h.value e he
  exact keyEq_levels_iff hshows (nestsWithin_mono (by decide) hnests) (hpath.append e.1)

end

/-! ## The ledger form -/

section

variable {P : Platform}

/-- An open name is found in the ledger form of a mapping that fits, with its value redacted. -/
theorem find_redactEventMapping_of_fits {entries : Entries}
    (hnodup : (entries.map Prod.fst).Nodup) (hlength : entries.length ≤ maxEventDictItems)
    {name : String} {v : Json} (hfind : Json.find entries name = some v)
    (hplain : isPlainName name = true) (child : String → List String → Json → Json)
    (path : List String) :
    Json.find (redactEventMapping P child path entries) name =
      some (child name (path ++ [name]) v) := by
  have hkept := keptEntries_of_length_le hlength
  refine find_redactEventMapping_of_mem hnodup ?_ (mappingNameIsSecretBearing_of_plain P hplain)
    (fun hmark => ?_) child path
  · rw [hkept]
    exact Json.mem_of_find hfind
  · rw [hkept] at hmark
    cases hmark

theorem find_ledger_of_fits {normalized : Entries} (hnodup : (normalized.map Prod.fst).Nodup)
    (hlength : normalized.length ≤ maxEventDictItems) {name : String} {v : Json}
    (hfind : Json.find normalized name = some v) (hplain : isPlainName name = true) :
    Json.find (ledgerNormalizedParams P normalized) name =
      some (redactLevels P normalizedParamsStringLimits (maxRedactionDepth - 1) name
        ["normalized_params", name] v) := by
  rw [ledgerNormalizedParams, entriesOr,
    find_redactEventData_mapping P _ (by simp [eventFieldNames])]
  exact find_redactEventMapping_of_fits hnodup hlength hfind hplain _ _

def IsDigest (s : String) : Prop := s.toList.all isHexDigit = true ∧ s.length = 64

theorem redactEventText_of_isDigest {s : String} (h : IsDigest s) (path : List String) :
    redactEventText P normalizedParamsStringLimits path s = s := by
  apply redactEventText_of_unmarked P
  · exact countP_eq_zero_of_all (fun _ => outsideMarker_of_isHexDigit) h.1
  · rw [h.2]
    exact Nat.le_trans (by decide) (maxEventStringLength_le_limit path)

/-- The stored fingerprint keeps the digest of the target object. -/
theorem find_stored_digest {fingerprint : Entries} (hnodup : (fingerprint.map Prod.fst).Nodup)
    (hlength : fingerprint.length ≤ maxEventDictItems) {digest : String} (hdigest : IsDigest digest)
    (hfind : Json.find fingerprint "target_object_sha256" = some (.str digest)) (path : List String) :
    (redactLevels P normalizedParamsStringLimits (maxRedactionDepth - 1) "command_fingerprint" path
      (.obj fingerprint)).get? "target_object_sha256" = some (.str digest) := by
  have hfingerprint : OpenName "command_fingerprint" := by decide +kernel
  have hkey : OpenName "target_object_sha256" := by decide +kernel
  have hlevels : redactLevels P normalizedParamsStringLimits (maxRedactionDepth - 1)
      "command_fingerprint" path (.obj fingerprint) = .obj (redactEventMapping P
        (redactLevels P normalizedParamsStringLimits 30) path fingerprint) := by
    simp [redactLevels, redactLevel, hfingerprint.sensitive, hfingerprint.unruled,
      maxRedactionDepth]
  rw [hlevels]
  refine (find_redactEventMapping_of_fits hnodup hlength hfind (by decide) _ _).trans ?_
  rw [redactLevels_str hkey, redactEventText_of_isDigest hdigest]

end

/-- The stored parameters hold a target object, and the digest in their fingerprint is its. -/
def TargetHashMatches (P : Platform) (stored : Entries) : Prop :=
  ∃ target, Json.find stored "_target_object" = some target ∧
    (valueOf stored "command_fingerprint").get? "target_object_sha256" =
      some (.str (hashJson P target))

section

variable {S : SnapshotPlatform} {t : TargetObject}

theorem hashJson_obj (P : Platform) (entries : Entries) :
    hashJson P (.obj entries) = P.stableHash (.obj entries) := if_neg (by simp)

theorem buildTargetObjectSnapshot_ne_nil (S : SnapshotPlatform) (t : TargetObject) :
    (buildTargetObjectSnapshot S t).1.isEmpty = false := by
  have hne := (snapshotFields_soFar S t).2
  rw [buildTargetObjectSnapshot_fst, List.isEmpty_eq_false_iff]
  exact List.append_ne_nil_of_left_ne_nil hne _

def digestedFingerprint (S : SnapshotPlatform) (t : TargetObject) (fingerprint : Entries) : Entries :=
  Json.set (Json.set fingerprint "target_object_sha256"
    (.str (hashJson S.platform (.obj (persistedSnapshot S t))))) "target_object_raw_hmac_sha256"
      (.str (S.rawDigest (.obj (rawEntries (buildTargetObjectSnapshot S t).1))))

/-- What the context adds to parameters with a fingerprint. -/
theorem applyTargetObjectContext_eq {x : TargetedExecution} (hjinja : x.hasJinjaCommand = true)
    (ht : x.assignedObject = some t) {normalized fingerprint : Entries}
    (hnodup : (normalized.map Prod.fst).Nodup)
    (hfind : Json.find normalized "command_fingerprint" = some (.obj fingerprint)) :
    applyTargetObjectContext S x normalized =
      Json.set (Json.set normalized "_target_object" (.obj (persistedSnapshot S t)))
        "command_fingerprint" (.obj (digestedFingerprint S t fingerprint)) := by
  have hkept : Json.find (Json.set normalized "_target_object" (.obj (persistedSnapshot S t)))
      "command_fingerprint" = some (.obj fingerprint) := by
    rw [Json.find_set_of_ne hnodup _ _ (by decide), hfind]
  simp only [applyTargetObjectContext, hjinja, ht, buildTargetObjectSnapshot_ne_nil, hkept,
    digestedFingerprint, Bool.not_true, Bool.false_eq_true, if_false]

theorem digestedFingerprint_facts {fingerprint : Entries} (hnodup : (fingerprint.map Prod.fst).Nodup)
    (hlength : fingerprint.length ≤ 98) :
    ((digestedFingerprint S t fingerprint).map Prod.fst).Nodup ∧
      (digestedFingerprint S t fingerprint).length ≤ maxEventDictItems ∧
      Json.find (digestedFingerprint S t fingerprint) "target_object_sha256" =
        some (.str (hashJson S.platform (.obj (persistedSnapshot S t)))) := by
  have hfirst := Json.nodup_set hnodup "target_object_sha256"
    (.str (hashJson S.platform (.obj (persistedSnapshot S t))))
  refine ⟨Json.nodup_set hfirst _ _, ?_, ?_⟩
  · have hmax : maxEventDictItems = 100 := rfl
    have hone := Json.length_set_le fingerprint "target_object_sha256"
      (.str (hashJson S.platform (.obj (persistedSnapshot S t))))
    have htwo := Json.length_set_le (Json.set fingerprint "target_object_sha256"
      (.str (hashJson S.platform (.obj (persistedSnapshot S t))))) "target_object_raw_hmac_sha256"
      (.str (S.rawDigest (.obj (rawEntries (buildTargetObjectSnapshot S t).1))))
    rw [digestedFingerprint]
    omega
  · rw [digestedFingerprint, Json.find_set_of_ne hfirst _ _ (by decide),
      Json.find_set]

/-- The target object and the digest that are stored, read off the parameters. -/
theorem targetHashMatches_iff (S : SnapshotPlatform)
    (hdigest : ∀ v, IsDigest (S.platform.sha256 v)) (x : TargetedExecution) (t : TargetObject)
    (hjinja : x.hasJinjaCommand = true) (ht : x.assignedObject = some t) (N : Parameters)
    (hothers : (N.entries.filter (fun e => e.1 != "_target_object")).length ≤ 99)
    (fingerprint : Entries)
    (hfingerprint : Json.find N.entries "command_fingerprint" = some (.obj fingerprint))
    (hsize : fingerprint.length ≤ 98) :
    TargetHashMatches S.platform
        (ledgerNormalizedParams S.platform (applyTargetObjectContext S x N.entries)) ↔
      hashJson S.platform (.obj (persistedSnapshot S t)) =
        hashJson S.platform (redactLevels S.platform normalizedParamsStringLimits
          (maxRedactionDepth - 1) "_target_object" ["normalized_params", "_target_object"]
            (.obj (persistedSnapshot S t))) := by
  obtain ⟨hnodup, hmembers⟩ := Json.wellFormed_obj_iff.mp N.wellFormed
  have hinner : (fingerprint.map Prod.fst).Nodup :=
    (Json.wellFormed_obj_iff.mp (hmembers _ (Json.mem_of_find hfingerprint))).1
  obtain ⟨hdistinct, hbound, hstored⟩ := @digestedFingerprint_facts S t _ hinner hsize
  rw [applyTargetObjectContext_eq hjinja ht hnodup hfingerprint]
  have htarget := Json.find_set N.entries "_target_object" (.obj (persistedSnapshot S t))
  have hadded := Json.nodup_set hnodup "_target_object" (.obj (persistedSnapshot S t))
  have hcount := Json.length_set hnodup "_target_object" (.obj (persistedSnapshot S t))
  have hcommand : Json.find (Json.set N.entries "_target_object" (.obj (persistedSnapshot S t)))
      "command_fingerprint" = some (.obj fingerprint) := by
    rw [Json.find_set_of_ne hnodup _ _ (by decide), hfingerprint]
  have hwhole := (Json.perm_filter_append hadded hcommand).length_eq
  generalize Json.set N.entries "_target_object" (.obj (persistedSnapshot S t)) = added at *
  have hfits : (Json.set added "command_fingerprint"
      (.obj (digestedFingerprint S t fingerprint))).length ≤ maxEventDictItems := by
    have hmax : maxEventDictItems = 100 := rfl
    rw [Json.length_set hadded]
    rw [List.length_append, List.length_singleton] at hwhole
    omega
  have hnames := Json.nodup_set hadded "command_fingerprint"
    (.obj (digestedFingerprint S t fingerprint))
  have hfindTarget := find_ledger_of_fits (P := S.platform) hnames hfits
    ((Json.find_set_of_ne hadded _ _ (by decide)).trans htarget) (by decide)
  have hfindCommand := find_ledger_of_fits (P := S.platform) hnames hfits
    (Json.find_set _ _ _) (by decide)
  have hhash := hashJson_obj S.platform (persistedSnapshot S t)
  have hdigest' : IsDigest (hashJson S.platform (.obj (persistedSnapshot S t))) :=
    hhash ▸ hdigest _
  have hread := find_stored_digest (P := S.platform) hdistinct hbound hdigest' hstored
    ["normalized_params", "command_fingerprint"]
  rw [TargetHashMatches, valueOf, hfindTarget, hfindCommand, Option.getD_some, hread]
  constructor
  · rintro ⟨target, htarget', hsame⟩
    obtain rfl := Option.some.inj htarget'
    exact Json.str.inj (Option.some.inj hsame)
  · intro hsame
    exact ⟨_, rfl, congrArg (fun digest => some (Json.str digest)) hsame⟩

/-- With a digest that no other tree has, the trees are the same up to key order. -/
theorem keyEq_of_hashJson (hdigest : ∀ v, IsDigest (S.platform.sha256 v)) {stored : Json}
    (hunique : ∀ v, S.platform.stableHash v = S.platform.stableHash (.obj (persistedSnapshot S t)) →
      Json.KeyEq v (.obj (persistedSnapshot S t)))
    (h : hashJson S.platform (.obj (persistedSnapshot S t)) = hashJson S.platform stored) :
    Json.KeyEq stored (.obj (persistedSnapshot S t)) := by
  rw [hashJson_obj] at h
  by_cases hnull : stored = .null
  · have hlength := (hdigest (Json.obj (persistedSnapshot S t)).sorted).2
    rw [show S.platform.sha256 _ = _ from h, hnull] at hlength
    cases hlength
  · rw [hashJson, if_neg hnull] at h
    exact hunique stored h.symm

end

end NetboxRpc
