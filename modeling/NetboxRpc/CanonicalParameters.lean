import NetboxRpc.Lifecycle
import NetboxRpc.RedactedData
import NetboxRpc.QuietTexts
import NetboxRpc.StoredForm
import NetboxRpc.KeyOrder

/-!
# One canonical form of the normalized parameters

The ledger redacts the parameters it is given, and the approval payload and the dispatch lease are
computed over the redacted form. Redacting that form again returns it when every text of the
parameters is quiet.
-/

namespace NetboxRpc

open Regex

/-! ## The text stage of the ledger -/

def eventRules (P : Platform) (limits : StringLimits) : TextRules where
  text := redactEventText P limits
  secretName := mappingNameIsSecretBearing P

theorem levels_eventRules (P : Platform) (limits : StringLimits) (n : ℕ) :
    (eventRules P limits).levels P n = redactLevels P limits n := by
  have hlevel : ∀ child, (eventRules P limits).level P child = redactLevel P limits child :=
    fun child => rfl
  induction n with
  | zero => exact hlevel none
  | succ n ih => rw [TextRules.levels, redactLevels, hlevel, ih]

theorem flowSensitiveTokenRe_needs_truncated :
    flowSensitiveTokenRe.needs (fun c => !"[truncated]".toList.contains c) = 1 := by
  decide +kernel

theorem redactEventText_marker (P : Platform) {limits : StringLimits} {path : List String}
    {s : String} (hlength : s.length ≤ limitAt limits path)
    (hassign : s.toList.countP isAssignment = 0) (hdashes : s.toList.countP (· == '-') < 10)
    (hmarks : s.toList.countP (fun c => c == ':' || c == '?') = 0) (hescape : '\\' ∉ s.toList)
    (hflow : flowTail s.toList = []) : redactEventText P limits path s = s := by
  have hvalues : yamlSensitiveValueRe.finditer s.toList = [] :=
    Rx.finditer_eq_nil _ _ (by rw [yamlSensitiveValueRe_needs, hmarks]; exact Nat.one_pos)
  have hbound : boundText (limitAt limits path) s.toList = s.toList := by
    rw [boundText, if_neg (by rw [String.length_toList]; omega)]
  rw [redactEventText, redactBounded_of_clean (secretSpans_of_no_assignment hassign hdashes)
    (sensitiveValueSpans_eq_nil hvalues hflow hescape) hbound, String.ofList_toList]

/-- The names on the paths of the large text fields. -/
theorem path_eq_iff {P : Platform} {limits : StringLimits} {path path' : List String}
    (h : List.Forall₂ ((eventRules P limits).Renamed P) path path') {target : List String}
    (htarget : ∀ name ∈ target, isPlainName name = true ∧ name.toList.head? ≠ some '[') :
    path' = target ↔ path = target := by
  induction h generalizing target with
  | nil => rfl
  | @cons name persisted names others hname _ ih =>
    cases target with
    | nil => simp
    | cons t ts =>
      have hfirst := htarget t List.mem_cons_self
      have hiff : persisted = t ↔ name = t := by
        rcases hname with rfl | hpersists
        · rfl
        · exact TextRules.persists_eq_iff (mappingNameIsSecretBearing_of_plain P hfirst.1) hfirst.2
            hpersists
      rw [List.cons.injEq, List.cons.injEq, hiff,
        ih (fun name hmem => htarget name (List.mem_cons_of_mem t hmem))]

theorem limitAt_renamed {P : Platform} {path path' : List String}
    (h : List.Forall₂ ((eventRules P normalizedParamsStringLimits).Renamed P) path path') :
    limitAt normalizedParamsStringLimits path' = limitAt normalizedParamsStringLimits path := by
  have hsame : ∀ target : List String,
      (∀ name ∈ target, isPlainName name = true ∧ name.toList.head? ≠ some '[') →
        (target == path') = (target == path) := by
    intro target htarget
    rw [Bool.eq_iff_iff, beq_iff_eq, beq_iff_eq, eq_comm, path_eq_iff h htarget, eq_comm]
  have hconfig := hsame ["normalized_params", "config_content"] (by decide)
  have hcontent := hsame ["normalized_params", "content"] (by decide)
  simp only [limitAt, normalizedParamsStringLimits, List.find?_cons, List.find?_nil, hconfig,
    hcontent]

theorem lawful_eventRules (P : Platform) :
    (eventRules P normalizedParamsStringLimits).Lawful P where
  placeholder name n := by
    have hsame := redactSecretText_numbered P P.word name n
    show containsSecretText P.word _ = false
    rw [containsSecretText, hsame]
    simp
  references := mappingNameIsSecretBearing_of_plain P (by decide)
  authority := mappingNameIsSecretBearing_of_plain P (by decide)
  policy := mappingNameIsSecretBearing_of_plain P (by decide)
  text_redacted path := by
    refine redactEventText_marker P ?_ (by decide) (by decide) (by decide) (by decide) ?_
    · exact Nat.le_trans (by decide) (maxEventStringLength_le_limit path)
    · exact flowTail_of_no_token (S := outsidePlaceholder)
        (by rw [flowSensitiveTokenRe_needs_word]; decide)
  text_truncated path := by
    refine redactEventText_marker P ?_ (by decide) (by decide) (by decide) (by decide) ?_
    · exact Nat.le_trans (by decide) (maxEventStringLength_le_limit path)
    · exact flowTail_of_no_token (by rw [flowSensitiveTokenRe_needs_truncated]; decide)
  text_reference path s h := by
    have hmatch : nmsSecretReferenceRe.fullmatch s.toList = true := h
    show redactEventText P _ path s = s
    rw [redactEventText, redactBounded, if_pos hmatch, String.ofList_toList]
  text_path path path' h := by
    funext s
    show redactEventText P _ path' s = redactEventText P _ path s
    rw [redactEventText, limitAt_renamed h, redactEventText]

/-! ## The ledger form -/

def textSettled (P : Platform) (path : List String) (s : String) : Bool :=
  let bound := boundText (limitAt normalizedParamsStringLimits path)
  structurallySettled P.word bound (redactBounded P.word bound s.toList)

theorem textSettled_iff (P : Platform) (path : List String) (s : String) :
    textSettled P path s = true ↔
      (eventRules P normalizedParamsStringLimits).text path
        ((eventRules P normalizedParamsStringLimits).text path s) =
          (eventRules P normalizedParamsStringLimits).text path s := by
  simp only [eventRules]
  have hbound : boundText (limitAt normalizedParamsStringLimits path) redactionMarker =
      redactionMarker := by
    have hle := Nat.le_trans (by decide : redactionMarker.length ≤ maxEventStringLength)
      (maxEventStringLength_le_limit path)
    rw [boundText, if_neg (by omega)]
  rw [textSettled, ← redactBounded_redactBounded_iff hbound, redactEventText, redactEventText,
    String.toList_ofList]
  exact ⟨fun h => congrArg String.ofList h, fun h => by simpa using congrArg String.toList h⟩

structure Parameters where
  entries : Entries
  wellFormed : (Json.obj entries).wellFormed = true

def Parameters.settled (P : Platform) (N : Parameters) : Bool :=
  TextRules.settledLevels (textSettled P) maxRedactionDepth "normalized_params"
    ["normalized_params"] (.obj N.entries)

/-- Every text that redaction reaches is quiet. -/
def Parameters.quiet (P : Platform) (N : Parameters) : Bool :=
  TextRules.settledLevels (fun path s =>
      isQuiet P.word (limitAt normalizedParamsStringLimits path) s.toList)
    maxRedactionDepth "normalized_params" ["normalized_params"] (.obj N.entries)

theorem Parameters.settled_of_quiet {P : Platform} {N : Parameters} (h : N.quiet P = true) :
    N.settled P = true :=
  TextRules.settledLevels_mono (fun _ _ => structurallySettled_of_isQuiet) h

/-- A mapping of one text is settled when the text is. -/
theorem settledLevels_text (leaf : List String → String → Bool) (n : ℕ) {key name : String}
    (hkey : TextRules.OpenKey key) (hname : TextRules.OpenKey name) (path : List String)
    (s : String) : TextRules.settledLevels leaf (n + 1) key path (.obj [(name, .str s)]) =
      leaf (path ++ [name]) s := by
  have hguard : ∀ {k : String}, TextRules.OpenKey k →
      ¬ (k ≠ "" ∧ (isBooleanPolicyKey k = true ∨ isSensitiveKey k = true)) := by
    rintro k hk ⟨hne, h | h⟩
    · exact hk.boolean ⟨hne, h⟩
    · exact hk.sensitive ⟨hne, h⟩
  have hkept : keptEntries [(name, Json.str s)] = ([(name, .str s)], false) :=
    keptEntries_of_length_le (by simp [maxEventDictItems])
  have htext : TextRules.settledLevels leaf n name (path ++ [name]) (.str s) =
      leaf (path ++ [name]) s := by
    cases n <;> simp only [TextRules.settledLevels, TextRules.settledLevel, if_neg (hguard hname)]
  rw [TextRules.settledLevels, TextRules.settledLevel, if_neg (hguard hkey)]
  simp [hkept, htext]

theorem obj_ledgerNormalizedParams (P : Platform) (normalized : Entries) :
    Json.obj (ledgerNormalizedParams P normalized) =
      (eventRules P normalizedParamsStringLimits).levels P maxRedactionDepth "normalized_params"
        ["normalized_params"] (.obj normalized) := by
  have hopen : OpenName "normalized_params" := openName_of_mem (by simp [eventFieldNames])
  rw [levels_eventRules, ledgerNormalizedParams, entriesOr,
    find_redactEventData_mapping P _ (by simp [eventFieldNames])]
  simp [redactLevels, redactLevel, hopen.sensitive, hopen.unruled, maxRedactionDepth]

section

variable {P : Platform} {N : Parameters}

theorem stored_ledger (hP : P.Implements referenceSchema) (h : N.settled P = true) :
    (eventRules P normalizedParamsStringLimits).storedLevels P maxRedactionDepth
      "normalized_params" ["normalized_params"] (.obj (ledgerNormalizedParams P N.entries)) := by
  have hsettled : TextRules.settledLevels (textSettled P) maxRedactionDepth "normalized_params"
    ["normalized_params"] (.obj N.entries) = true := h
  have hfirst := obj_ledgerNormalizedParams P N.entries
  generalize ledgerNormalizedParams P N.entries = stored at hfirst ⊢
  generalize maxRedactionDepth = n at hsettled hfirst ⊢
  rw [hfirst]
  exact TextRules.storedLevels_levels hP (lawful_eventRules P)
    (fun path s => (textSettled_iff P path s).mp)
    (.inl (mappingNameIsSecretBearing_of_plain P (by decide))) (.refl _) (.cons (.refl _) .nil)
    N.wellFormed hsettled

theorem keyEq_ledger_iff (hP : P.Implements referenceSchema) : Json.KeyEq
    (.obj (ledgerNormalizedParams P (ledgerNormalizedParams P N.entries)))
    (.obj (ledgerNormalizedParams P N.entries)) ↔ N.settled P = true := by
  have hfirst := obj_ledgerNormalizedParams P N.entries
  have hsecond := obj_ledgerNormalizedParams P (ledgerNormalizedParams P N.entries)
  have hstored := @stored_ledger P N hP
  rw [Parameters.settled] at hstored ⊢
  generalize ledgerNormalizedParams P N.entries = stored at hfirst hsecond hstored ⊢
  generalize ledgerNormalizedParams P stored = again at hsecond ⊢
  generalize maxRedactionDepth = n at hfirst hsecond hstored ⊢
  constructor
  · intro h
    rw [hsecond, hfirst] at h
    exact TextRules.settledLevels_of_keyEq (lawful_eventRules P)
      (fun path s => (textSettled_iff P path s).mpr) (.refl _) (.cons (.refl _) .nil) N.wellFormed h
  · intro h
    rw [hsecond]
    exact TextRules.keyEq_levels (hstored h)

/-- The second ledger form has its keys in order, and no further pass moves them. -/
theorem ledger_ledger_ledger (hP : P.Implements referenceSchema) (h : N.settled P = true) :
    ledgerNormalizedParams P (ledgerNormalizedParams P (ledgerNormalizedParams P N.entries)) =
      ledgerNormalizedParams P (ledgerNormalizedParams P N.entries) := by
  have htwice := TextRules.levels_twice (lawful_eventRules P) (stored_ledger hP h)
  generalize ledgerNormalizedParams P N.entries = stored at htwice ⊢
  have hsecond := obj_ledgerNormalizedParams P stored
  have hthird := obj_ledgerNormalizedParams P (ledgerNormalizedParams P stored)
  generalize ledgerNormalizedParams P stored = again at hsecond hthird ⊢
  generalize maxRedactionDepth = n at htwice hsecond hthird
  rw [← hsecond, ← hthird] at htwice
  exact Json.obj.inj htwice

end

theorem nodup_ledgerNormalizedParams (P : Platform) {normalized : Entries}
    (h : (normalized.map Prod.fst).Nodup) :
    ((ledgerNormalizedParams P normalized).map Prod.fst).Nodup := by
  rw [ledgerNormalizedParams, entriesOr,
    find_redactEventData_mapping P _ (by simp [eventFieldNames])]
  exact (TextRules.boundedMapping_redactMapping (lawful_eventRules P) h).nodup

/-! ## What is computed over the ledger form -/

theorem entriesOr_of_obj {data d : Entries} {key : String} (h : valueOf data key = .obj d) :
    entriesOr data key = d := by
  unfold valueOf at h
  cases hfind : Json.find data key with
  | none =>
    rw [hfind] at h
    cases h
  | some v =>
    rw [hfind, Option.getD_some] at h
    rw [entriesOr, hfind, h]

theorem entriesOr_of_not_obj {data : Entries} {key : String}
    (h : ¬ ∃ d, valueOf data key = .obj d) : entriesOr data key = [] := by
  unfold valueOf at h
  unfold entriesOr
  cases hfind : Json.find data key with
  | none => rfl
  | some v =>
    rw [hfind, Option.getD_some] at h
    cases v with
    | obj d => exact absurd ⟨d, rfl⟩ h
    | null | bool b | int n | float q | str s | arr items => rfl

section

variable {entries others : Entries} (h : Json.KeyEq (.obj others) (.obj entries))
  (hnodup : (entries.map Prod.fst).Nodup) (hnodup' : (others.map Prod.fst).Nodup)

include h hnodup hnodup'

theorem keyEq_valueOf (key : String) : Json.KeyEq (valueOf others key) (valueOf entries key) := by
  have hfind := Json.find_of_keyEq_obj h hnodup hnodup' key
  unfold valueOf
  cases hothers : Json.find others key with
  | none =>
    rw [hothers, Option.map_none, eq_comm, Option.map_eq_none_iff] at hfind
    rw [hfind]
    rfl
  | some v =>
    rw [hothers, Option.map_some, eq_comm, Option.map_eq_some_iff] at hfind
    obtain ⟨w, hw, hsorted⟩ := hfind
    rw [hw]
    exact hsorted.symm

theorem keyEq_commandFingerprint :
    Json.KeyEq (commandFingerprint others) (commandFingerprint entries) := by
  have hvalue := keyEq_valueOf h hnodup hnodup' "command_fingerprint"
  by_cases hobj : ∃ d, valueOf entries "command_fingerprint" = .obj d
  · obtain ⟨d, hd⟩ := hobj
    rw [hd] at hvalue
    obtain ⟨d', hd'⟩ := Json.exists_obj_of_keyEq hvalue
    rw [hd'] at hvalue
    rw [commandFingerprint, commandFingerprint, entriesOr_of_obj hd, entriesOr_of_obj hd']
    exact hvalue
  · have hother : ¬ ∃ d, valueOf others "command_fingerprint" = .obj d := by
      rintro ⟨d, hd⟩
      rw [hd] at hvalue
      exact hobj (Json.exists_obj_of_keyEq hvalue.symm)
    rw [commandFingerprint, commandFingerprint, entriesOr_of_not_obj hobj,
      entriesOr_of_not_obj hother]
    rfl

end

theorem hashJson_congr (P : Platform) {v w : Json} (h : Json.KeyEq v w) :
    hashJson P v = hashJson P w := by
  have hnull : ∀ u : Json, u = .null ↔ u.sorted = .null := fun u => by
    cases u <;> simp [Json.sorted, Json.normalize]
  have hiff : v = .null ↔ w = .null := by
    rw [hnull v, hnull w, h]
  simp only [hashJson, hiff, P.stableHash_congr h]

section

variable {S : Site} {N : Parameters} (hP : S.platform.Implements referenceSchema)
  (h : N.settled S.platform = true)

include hP h

theorem credentialPolicyReference_ledger (req : ExecutionRequest) (effect : String) :
    credentialPolicyReference S req effect
        (ledgerNormalizedParams S.platform (ledgerNormalizedParams S.platform N.entries)) =
      credentialPolicyReference S req effect (ledgerNormalizedParams S.platform N.entries) := by
  have hthird := ledger_ledger_ledger hP h
  generalize ledgerNormalizedParams S.platform N.entries = stored at hthird ⊢
  simp only [credentialPolicyReference, hthird]

theorem payload_ledger (p : Procedure) (req : ExecutionRequest) (target : BackendTarget) :
    (approvalProtectedPayload S p req (ledgerNormalizedParams S.platform N.entries) target).map
        Json.sorted =
      (approvalProtectedPayload S p req N.entries target).map Json.sorted := by
  have hsame := (keyEq_ledger_iff hP).mpr h
  have hpolicy := credentialPolicyReference_ledger hP h req p.effect
  have hnodup := nodup_ledgerNormalizedParams S.platform
    (Json.wellFormed_obj_iff.mp N.wellFormed).1
  have hnodup' := nodup_ledgerNormalizedParams S.platform hnodup
  simp only [approvalProtectedPayload]
  generalize ledgerNormalizedParams S.platform N.entries = stored at hsame hpolicy hnodup hnodup' ⊢
  generalize ledgerNormalizedParams S.platform stored = again at hsame hpolicy hnodup' ⊢
  have hfingerprint := keyEq_commandFingerprint hsame hnodup hnodup'
  rw [hpolicy]
  simp only [Option.bind_eq_bind, Option.map_bind, Option.pure_def, Function.comp_def,
    Option.map_some]
  refine Option.bind_congr (fun contract _ => Option.bind_congr (fun sha _ =>
    Option.bind_congr (fun policy _ => ?_)))
  refine congrArg some (Json.keyEq_obj_of_map_eq ?_)
  simp only [List.map_cons, List.map_nil]
  rw [show (Json.obj again).sorted = (Json.obj stored).sorted from hsame,
    show (commandFingerprint again).sorted = (commandFingerprint stored).sorted from hfingerprint]

end

/-- What the projection holds after the event that stores the parameters. -/
theorem normalizedParams_apply (P : Platform) (ctx : ExecutionContext) (state : ProjectionState)
    (normalized : Entries) (hash : String) :
    (state.apply P (redactedEvent P ctx (.parametersNormalized normalized hash))).normalizedParams =
      ledgerNormalizedParams P normalized := by
  have hplain := plainMapping_data P (e := .parametersNormalized normalized hash) (by simp [DomainEvent.type])
  have hsingle : PlainMapping [("normalized_params", Json.obj normalized)] := by
    refine ⟨by simp, by simp [maxEventDictItems], fun e he => ?_⟩
    rw [List.mem_singleton.mp he]
    exact isPlainName_of_mem (by simp [eventFieldNames])
  have hfind : Json.find (redactEventData P normalizedParamsStringLimits
      ((DomainEvent.parametersNormalized normalized hash).data P)) "normalized_params" =
        Json.find (redactEventData P normalizedParamsStringLimits
          [("normalized_params", .obj normalized)]) "normalized_params" := by
    rw [find_redactEventData hplain, find_redactEventData hsingle]
    rfl
  have hread : (state.apply P (redactedEvent P ctx (.parametersNormalized normalized
      hash))).normalizedParams = entriesOr (redactEventData P normalizedParamsStringLimits
        ((DomainEvent.parametersNormalized normalized hash).data P)) "normalized_params" := rfl
  rw [hread, ledgerNormalizedParams, entriesOr, hfind]
  rfl

def redactedParameters : Parameters where
  entries := [("note", .str "rotate the secret\npassword=hunter2")]
  wellFormed := by simp [Json.wellFormed, Json.wellFormedEntries]

/-- A long text that starts with a sensitive word. Bounding it appends `...[truncated]`, whose
bracket the structural rules then read as the start of a flow collection. -/
def tokenText (limit : ℕ) : Text := "token".toList ++ List.replicate limit 'x'

def boundedTokenText (limit : ℕ) : Text :=
  "token".toList ++ List.replicate (limit - 5) 'x' ++ truncationMarker

theorem boundText_tokenText {limit : ℕ} (h : 5 ≤ limit) :
    boundText limit (tokenText limit) = boundedTokenText limit ∧
      boundText limit (boundedTokenText limit) = boundedTokenText limit := by
  have hkept : ("token".toList ++ List.replicate (limit - 5) 'x').length = limit := by
    rw [List.length_append, List.length_replicate]
    exact Nat.add_sub_cancel' h
  have hsplit : tokenText limit =
      ("token".toList ++ List.replicate (limit - 5) 'x') ++ List.replicate 5 'x' := by
    rw [tokenText, List.append_assoc, List.replicate_append_replicate, Nat.sub_add_cancel h]
  constructor
  · rw [hsplit]
    exact boundText_append hkept (by simp)
  · exact boundText_append hkept (by decide)

theorem countP_tokenText {S : Char → Bool} (hx : S 'x' = false) (limit : ℕ) :
    (tokenText limit).countP S = "token".toList.countP S := by
  rw [tokenText, List.countP_append, List.countP_replicate, hx]
  simp

theorem countP_boundedTokenText {S : Char → Bool} (hx : S 'x' = false) (limit : ℕ) :
    (boundedTokenText limit).countP S = "token".toList.countP S + truncationMarker.countP S := by
  rw [boundedTokenText, List.countP_append, List.countP_append, List.countP_replicate, hx]
  simp

theorem sensitiveValueSpans_boundedTokenText (limit : ℕ) :
    sensitiveValueSpans (boundedTokenText limit) = [(0, (boundedTokenText limit).length)] := by
  have hnone : ∀ c, c ≠ 'x' → c ∉ "token".toList → c ∉ truncationMarker →
      c ∉ boundedTokenText limit := by
    intro c hx htoken hmarker hmem
    rw [boundedTokenText, List.mem_append, List.mem_append] at hmem
    rcases hmem with (hmem | hmem) | hmem
    · exact htoken hmem
    · exact hx (List.eq_of_mem_replicate hmem)
    · exact hmarker hmem
  have hflow : flowTail (boundedTokenText limit) = [(0, (boundedTokenText limit).length)] := by
    refine @flowTail_of_token _ "[truncated]".toList ("token".toList ++
      List.replicate (limit - 5) 'x' ++ "...".toList) ?_ (fun prev pos => ?_) (fun c hc => ⟨?_, ?_⟩) ?_
    · rw [boundedTokenText, List.append_assoc _ "...".toList]
      rfl
    · exact List.cons_ne_nil _ _
    · rintro rfl
      exact hnone '\n' (by decide) (by decide) (by decide) hc
    · rintro rfl
      exact hnone '\r' (by decide) (by decide) (by decide) hc
    · exact List.cons_ne_nil _ _
  have hvalues : yamlSensitiveValueRe.finditer (boundedTokenText limit) = [] := by
    refine Rx.finditer_eq_nil (S := fun c => c == ':' || c == '?') _ _ ?_
    rw [yamlSensitiveValueRe_needs, countP_boundedTokenText (by decide)]
    decide
  have hescape : (boundedTokenText limit).findIdx? (· == '\\') = none := by
    rw [List.findIdx?_eq_none_iff]
    intro c hc
    rw [beq_eq_false_iff_ne]
    rintro rfl
    exact hnone '\\' (by decide) (by decide) (by decide) hc
  have hpos : 0 < (boundedTokenText limit).length := by
    rw [boundedTokenText, List.length_append]
    exact Nat.lt_of_lt_of_le (by decide) (Nat.le_add_left truncationMarker.length _)
  simp [sensitiveValueSpans, hvalues, failClosedTails, hflow, escapedKeyLineStart,
    escapedKeyLineStartFrom, hescape, hpos]

theorem textSettled_tokenText (P : Platform) (path : List String) :
    textSettled P path (String.ofList
      (tokenText (limitAt normalizedParamsStringLimits path))) = false := by
  have hlimit := maxEventStringLength_le_limit path
  unfold textSettled
  generalize limitAt normalizedParamsStringLimits path = limit at hlimit ⊢
  have hle : 10 ≤ limit := Nat.le_trans (by decide) hlimit
  obtain ⟨hbound, hagain⟩ := @boundText_tokenText limit (by omega)
  have hmarker : boundText limit redactionMarker = redactionMarker := by
    exact if_neg (Nat.not_lt.mpr hle)
  have hspans : secretSpans P.word (tokenText limit) = [] := by
    refine secretSpans_of_no_assignment ?_ ?_
    · rw [countP_tokenText (by decide)]
      decide
    · rw [countP_tokenText (by decide)]
      decide
  have hspans' : secretSpans P.word (boundedTokenText limit) = [] := by
    refine secretSpans_of_no_assignment ?_ ?_
    · rw [countP_boundedTokenText (by decide)]
      decide
    · rw [countP_boundedTokenText (by decide)]
      decide
  have href : ∀ text : Text, text.countP (· == ':') = 0 →
      nmsSecretReferenceRe.fullmatch text = false := fun text hcolon =>
    Rx.fullmatch_eq_false (S := (· == ':')) _ _ (by rw [hcolon]; decide +kernel)
  have hfirst : redactBounded P.word (boundText limit) (tokenText limit) = boundedTokenText limit := by
    refine redactBounded_of_pass (by rw [redactSecretSpans_of_nil hspans, hbound]) hspans' hagain ?_ ?_
    · refine sensitiveValueSpans_of_no_mark ?_
      rw [countP_tokenText (by decide)]
      decide
    · refine href _ ?_
      rw [countP_tokenText (by decide)]
      decide
  have hne : boundedTokenText limit ≠ redactionMarker := fun h => by
    have hhead : (boundedTokenText limit).head? = redactionMarker.head? := congrArg List.head? h
    have htoken : (boundedTokenText limit).head? = some 't' := rfl
    exact absurd (htoken.symm.trans hhead) (by decide)
  have hcolon : (boundedTokenText limit).countP (· == ':') = 0 := by
    rw [countP_boundedTokenText (by decide)]
    decide
  have hmerge : mergeSpans (sensitiveValueSpans (boundedTokenText limit)) =
      [(0, (boundedTokenText limit).length)] := by
    rw [sensitiveValueSpans_boundedTokenText]
    rfl
  simp only
  rw [String.toList_ofList, hfirst, structurallySettled, href _ hcolon, hmerge,
    structuralStage_whole (by simp [boundedTokenText]) hmarker]
  simpa using hne.symm

def unsettledParameters : Parameters where
  entries := [("note", .str (String.ofList (tokenText 4096)))]
  wellFormed := by simp [Json.wellFormed, Json.wellFormedEntries]

end NetboxRpc
