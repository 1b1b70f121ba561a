import NetboxRpc.EventStore

/-!
# Redacted event data, field by field

The fields that the event classes store have plain names, so redaction keeps each name and
redacts its value alone.
-/

namespace NetboxRpc

/-- No character of the name starts an assignment or a structural rule, and its dashes start no
key block. -/
def isPlainName (name : String) : Bool :=
  name.toList.countP isAssignment == 0 && name.toList.countP isStructuralMark == 0 &&
    decide (name.toList.countP (· == '-') < 10)

theorem isPlainName_ofList (cs : List Char) : isPlainName (String.ofList cs) =
    (cs.countP isAssignment == 0 && cs.countP isStructuralMark == 0 &&
      decide (cs.countP (· == '-') < 10)) := by
  simp [isPlainName]

theorem all_plain_cons {cs : List Char} {names : List String}
    (h : isPlainName (String.ofList cs) = true) (hrest : names.all isPlainName = true) :
    (String.ofList cs :: names).all isPlainName = true := by
  rw [List.all_cons, h, hrest]
  rfl

theorem isPlainName_append {start name : String} (hstart : isPlainName start = true)
    (hdashes : start.toList.countP (· == '-') = 0) (hname : isPlainName name = true) :
    isPlainName (start ++ name) = true := by
  simp only [isPlainName, Bool.and_eq_true, beq_iff_eq, decide_eq_true_eq, String.toList_append,
    List.countP_append] at *
  omega

theorem redactBounded_of_plain {word : Char → Bool} {bound : Text → Text} {name : String}
    (h : isPlainName name = true) (hbound : bound name.toList = name.toList) :
    redactBounded word bound name.toList = name.toList := by
  simp only [isPlainName, Bool.and_eq_true, beq_iff_eq, decide_eq_true_eq] at h
  exact redactBounded_of_clean (secretSpans_of_no_assignment h.1.1 h.2)
    (sensitiveValueSpans_of_no_mark h.1.2) hbound

theorem mappingNameIsSecretBearing_of_plain (P : Platform) {name : String}
    (h : isPlainName name = true) : mappingNameIsSecretBearing P name = false := by
  have hsame : redactSecretText P.word name.toList = name.toList := redactBounded_of_plain h rfl
  simp [mappingNameIsSecretBearing, containsSecretText, hsame]

theorem redactEventText_of_plain (P : Platform) {limits : StringLimits} {path : List String}
    {s : String} (h : isPlainName s = true) (hlength : s.length ≤ limitAt limits path) :
    redactEventText P limits path s = s := by
  have hbound : boundText (limitAt limits path) s.toList = s.toList := by
    rw [boundText, if_neg (by rw [String.length_toList]; omega)]
  rw [redactEventText, redactBounded_of_plain h hbound, String.ofList_toList]

theorem outsideMarker_of_isHexDigit {c : Char} (h : isHexDigit c = true) :
    outsideMarker c = false := by
  have hall : "0123456789abcdef".toList.all (fun c => !outsideMarker c) = true := by decide
  simpa using List.all_eq_true.mp hall c (mem_of_isHexDigit h)

theorem countP_eq_zero_of_all {q r : Char → Bool} (hqr : ∀ c, q c = true → r c = false)
    {cs : List Char} (h : cs.all q = true) : cs.countP r = 0 := by
  rw [List.countP_eq_zero]
  intro c hc
  rw [hqr c (List.all_eq_true.mp h c hc)]
  exact Bool.false_ne_true

/-- Redaction keeps a text that fits its bound and holds no character of a secret word. -/
theorem redactEventText_of_unmarked (P : Platform) {limits : StringLimits} {path : List String}
    {s : String} (h : s.toList.countP outsideMarker = 0) (hlength : s.length ≤ limitAt limits path) :
    redactEventText P limits path s = s := by
  have hword : s.toList.countP outsidePlaceholder = 0 := by
    refine Nat.le_zero.mp (h ▸ List.countP_mono_left (fun c _ hc => ?_))
    simp only [outsidePlaceholder, Bool.and_eq_true] at hc
    exact hc.1.1
  have hbound : boundText (limitAt limits path) s.toList = s.toList := by
    rw [boundText, if_neg (by rw [String.length_toList]; omega)]
  have hspans : secretSpans P.word s.toList = [] := by
    apply secretSpans_eq_nil
    · exact Regex.Rx.finditer_eq_nil _ _ (by rw [secretContentRe_needs_two, h]; decide)
    · exact Regex.Rx.finditer_eq_nil _ _ (by rw [yamlBlockScalarHeaderRe_needs_word, hword]; decide)
  have hvalues : sensitiveValueSpans s.toList = [] := by
    apply sensitiveValueSpans_eq_nil
    · exact Regex.Rx.finditer_eq_nil _ _ (by rw [yamlSensitiveValueRe_needs_word, hword]; decide)
    · exact flowTail_of_no_token (by rw [flowSensitiveTokenRe_needs_word, hword]; decide)
    · intro hmem
      exact List.countP_eq_zero.mp h _ hmem (by decide)
  rw [redactEventText, redactBounded_of_clean hspans hvalues hbound, String.ofList_toList]

theorem persistedNames_nil (P : Platform) (taken : List String) (entries : Entries) :
    persistedNames P [] taken entries = entries.map (fun e => (e.1, e.1, e.2)) := by
  induction entries with
  | nil => rfl
  | cons e es ih => simp [persistedNames, ih]

structure PlainMapping (entries : Entries) : Prop where
  nodup : (entries.map Prod.fst).Nodup
  length_le : entries.length ≤ maxEventDictItems
  plain : ∀ e ∈ entries, isPlainName e.1 = true

section

variable {P : Platform} {entries : Entries}

theorem persistedMappingEntries_of_plain (h : PlainMapping entries) :
    persistedMappingEntries P entries =
      (entries.insertionSort Json.keyLe).map (fun e => (e.1, e.1, e.2)) := by
  have hnone : (entries.map Prod.fst).filter (mappingNameIsSecretBearing P) = [] := by
    rw [List.filter_eq_nil_iff]
    intro name hname
    obtain ⟨e, he, rfl⟩ := List.mem_map.mp hname
    simp [mappingNameIsSecretBearing_of_plain P (h.plain e he)]
  rw [persistedMappingEntries, hnone, persistedNames_nil]

theorem redactEventMapping_of_plain (h : PlainMapping entries)
    (child : String → List String → Json → Json) (path : List String) :
    redactEventMapping P child path entries =
      (entries.insertionSort Json.keyLe).map (fun e => (e.1, child e.1 (path ++ [e.1]) e.2)) := by
  have hperm := List.perm_insertionSort Json.keyLe entries
  have hnodup : ((entries.insertionSort Json.keyLe).map Prod.fst).Nodup :=
    (hperm.map Prod.fst).nodup_iff.mpr h.nodup
  simp only [redactEventMapping, keptEntries_of_length_le h.length_le, Bool.false_eq_true,
    if_false, persistedMappingEntries_of_plain h, List.foldl_map]
  exact Json.foldl_set Prod.fst _ _ hnodup

theorem find_redactEventMapping (h : PlainMapping entries)
    (child : String → List String → Json → Json) (path : List String) (key : String) :
    Json.find (redactEventMapping P child path entries) key =
      (Json.find entries key).map (child key (path ++ [key])) := by
  have hperm := List.perm_insertionSort Json.keyLe entries
  have hnodup : ((entries.insertionSort Json.keyLe).map Prod.fst).Nodup :=
    (hperm.map Prod.fst).nodup_iff.mpr h.nodup
  rw [redactEventMapping_of_plain h,
    Json.find_map (fun name v => child name (path ++ [name]) v), Json.find_perm hperm hnodup]

theorem redactEventData_perm (h : PlainMapping entries) (limits : StringLimits) :
    (redactEventData P limits entries).Perm (entries.map fun e =>
      (e.1, redactLevels P limits maxRedactionDepth e.1 [e.1] e.2)) := by
  have hdata : redactEventData P limits entries =
      redactEventMapping P (redactLevels P limits maxRedactionDepth) [] entries := rfl
  rw [hdata, redactEventMapping_of_plain h]
  exact (List.perm_insertionSort Json.keyLe entries).map _

theorem find_redactEventData (h : PlainMapping entries) (limits : StringLimits) (key : String) :
    Json.find (redactEventData P limits entries) key =
      (Json.find entries key).map (redactLevels P limits maxRedactionDepth key [key]) := by
  have hdata : redactEventData P limits entries =
      redactEventMapping P (redactLevels P limits maxRedactionDepth) [] entries := rfl
  rw [hdata, find_redactEventMapping h]
  rfl

end

def eventFieldNames : List String :=
  ["status", "requested_by_id", "snapshot_hash", "expires_at", "approved_by_id", "decided_at",
    "reason", "rejected_by_id", "expired_at", "started_at", "command_hash", "normalized_params",
    "job_id", "nonce", "key_id", "key_version", "stream_version", "audience", "envelope_version",
    "result", "finished_at", "code", "error_message", "cancelled_by_id"]

theorem isPlainName_of_mem {name : String} (h : name ∈ eventFieldNames) :
    isPlainName name = true := by
  have hall : eventFieldNames.all isPlainName = true := by
    unfold eventFieldNames
    repeat refine all_plain_cons (by rw [isPlainName_ofList]; decide) ?_
    rfl
  exact List.all_eq_true.mp hall name h

/-- The data of an event class is a plain mapping. -/
theorem plainMapping_data (P : Platform) {e : DomainEvent} (h : e.type ≠ .backendEventRecorded) :
    PlainMapping (e.data P) := by
  have hsub : ((e.data P).map Prod.fst).Nodup ∧ (e.data P).length ≤ maxEventDictItems ∧
      ∀ d ∈ e.data P, d.1 ∈ eventFieldNames := by
    cases e <;> first | exact absurd rfl h | skip
    all_goals
      simp only [DomainEvent.data, DomainEvent.unlessNull, DomainEvent.unlessEmpty,
        DomainEvent.statusEntry]
      try split_ifs
      all_goals simp [maxEventDictItems, eventFieldNames]
  exact ⟨hsub.1, hsub.2.1, fun d hd => isPlainName_of_mem (hsub.2.2 d hd)⟩

/-! ## Values -/

structure OpenName (key : String) : Prop where
  sensitive : isSensitiveKey key = false
  unruled : isBooleanPolicyKey key = false

instance (key : String) : Decidable (OpenName key) :=
  decidable_of_iff (isSensitiveKey key = false ∧ isBooleanPolicyKey key = false)
    ⟨fun h => ⟨h.1, h.2⟩, fun h => ⟨h.sensitive, h.unruled⟩⟩

theorem openName_of_mem {name : String} (h : name ∈ eventFieldNames) : OpenName name := by
  have hall : eventFieldNames.all (fun n => decide (OpenName n)) = true := by decide +kernel
  simpa using List.all_eq_true.mp hall name h

section

variable {P : Platform} {limits : StringLimits} {key : String} (hkey : OpenName key)

include hkey

theorem redactLevels_scalar (levels : ℕ) (path : List String) {v : Json} (hobj : ∀ d, v ≠ .obj d)
    (harr : ∀ xs, v ≠ .arr xs) (hstr : ∀ s, v ≠ .str s) :
    redactLevels P limits levels key path v = v := by
  have hlevel : ∀ child, redactLevel P limits child key path v = v := fun child => by
    cases v with
    | obj d => exact absurd rfl (hobj d)
    | arr xs => exact absurd rfl (harr xs)
    | str s => exact absurd rfl (hstr s)
    | null | bool b | int n | float f => simp [redactLevel, hkey.sensitive, hkey.unruled]
  cases levels with
  | zero => exact hlevel _
  | succ levels => exact hlevel _

theorem redactLevels_int (levels : ℕ) (path : List String) (n : ℤ) :
    redactLevels P limits levels key path (.int n) = .int n :=
  redactLevels_scalar hkey levels path (by simp) (by simp) (by simp)

theorem redactLevels_str (levels : ℕ) (path : List String) (s : String) :
    redactLevels P limits levels key path (.str s) = .str (redactEventText P limits path s) := by
  cases levels <;> simp [redactLevels, redactLevel, hkey.sensitive, hkey.unruled]

theorem valueOf_redactEventData_int {data : Entries} (h : PlainMapping data) {n : ℤ}
    (hfind : Json.find data key = some (.int n)) :
    valueOf (redactEventData P limits data) key = .int n := by
  rw [valueOf, find_redactEventData h, hfind, Option.map_some, redactLevels_int hkey]
  rfl

theorem valueOf_redactEventData_str {data : Entries} (h : PlainMapping data) {s : String}
    (hfind : Json.find data key = some (.str s)) :
    valueOf (redactEventData P limits data) key = .str (redactEventText P limits [key] s) := by
  rw [valueOf, find_redactEventData h, hfind, Option.map_some, redactLevels_str hkey]
  rfl

end

/-- The ledger form of one mapping field: the mapping, redacted one level down. -/
theorem find_redactEventData_mapping (P : Platform) (limits : StringLimits) {name : String}
    (hname : name ∈ eventFieldNames) (entries : Entries) :
    Json.find (redactEventData P limits [(name, .obj entries)]) name = some (.obj (redactEventMapping P
      (redactLevels P limits (maxRedactionDepth - 1)) [name] entries)) := by
  have hplain : PlainMapping [(name, Json.obj entries)] := by
    refine ⟨List.nodup_singleton _, by simp [maxEventDictItems], fun e he => ?_⟩
    rw [List.mem_singleton.mp he]
    exact isPlainName_of_mem hname
  have hopen := openName_of_mem hname
  rw [find_redactEventData hplain]
  simp [Json.find, redactLevels, redactLevel, hopen.sensitive, hopen.unruled, maxRedactionDepth]

theorem find_ledgerNormalizedParams (P : Platform) {normalized : Entries}
    (h : PlainMapping normalized) (key : String) :
    Json.find (ledgerNormalizedParams P normalized) key = (Json.find normalized key).map
      (redactLevels P normalizedParamsStringLimits (maxRedactionDepth - 1) key
        ["normalized_params", key]) := by
  rw [ledgerNormalizedParams, entriesOr,
    find_redactEventData_mapping P _ (by simp [eventFieldNames])]
  exact find_redactEventMapping h _ _ key

theorem entriesOr_redactEventData_of_absent {P : Platform} {limits : StringLimits} {key : String}
    {data : Entries} (h : PlainMapping data) (hfind : Json.find data key = none) :
    entriesOr (redactEventData P limits data) key = [] := by
  rw [entriesOr, find_redactEventData h, hfind]
  rfl

end NetboxRpc
