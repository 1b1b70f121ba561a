import NetboxRpc.RedactedData
import NetboxRpc.StoredForm

/-!
# Values under sensitive keys

Two trees that differ only in values which redaction replaces are stored alike. Redaction is
shown to factor through the tree with those values taken out, so the two-run property is an
equation between two runs of one function.
-/

namespace NetboxRpc

/-- A value that redaction replaces under a sensitive key: not a boolean, not an exact reference,
and not public metadata of that key. -/
def isReplaced (P : Platform) (key : String) : Json → Bool
  | .bool _ => false
  | v => (publicCredentialMetadata P v key).isNone && !isVaultedSecretReference v

mutual

/-- The tree without the values that redaction replaces under sensitive keys. A value that is kept
under such a key stays as it is, with all it holds. -/
def hideSensitive (P : Platform) : Json → Json
  | .arr items => .arr (hideItems P items)
  | .obj entries => .obj (hideEntries P entries)
  | v => v

def hideItems (P : Platform) : List Json → List Json
  | [] => []
  | v :: vs => hideSensitive P v :: hideItems P vs

def hideEntries (P : Platform) : List (String × Json) → List (String × Json)
  | [] => []
  | (key, v) :: es =>
    (key, if isSensitiveKey key then (if isReplaced P key v then redacted else v)
      else hideSensitive P v) :: hideEntries P es

end

def hideUnder (P : Platform) (key : String) (v : Json) : Json :=
  if isSensitiveKey key then (if isReplaced P key v then redacted else v) else hideSensitive P v

section

variable (P : Platform)

theorem hideItems_eq_map (items : List Json) : hideItems P items = items.map (hideSensitive P) := by
  induction items with
  | nil => rfl
  | cons v vs ih => rw [hideItems, ih, List.map_cons]

theorem hideEntries_eq_map (entries : Entries) :
    hideEntries P entries = entries.map (fun e => (e.1, hideUnder P e.1 e.2)) := by
  induction entries with
  | nil => rfl
  | cons e es ih => rw [hideEntries, ih, List.map_cons, hideUnder]

variable {P} {key : String}

theorem hideUnder_open (h : isSensitiveKey key = false) (v : Json) :
    hideUnder P key v = hideSensitive P v := by
  rw [hideUnder, h, if_neg Bool.false_ne_true]

theorem hideUnder_bool (b : Bool) : hideUnder P key (.bool b) = .bool b := by
  unfold hideUnder
  split_ifs with _ hreplaced
  · cases hreplaced
  · rfl
  · rw [hideSensitive]
    all_goals simp

theorem hideUnder_eq_bool_iff {v : Json} {b : Bool} : hideUnder P key v = .bool b ↔ v = .bool b := by
  constructor
  · intro h
    unfold hideUnder at h
    split_ifs at h
    · cases h
    · exact h
    · cases v <;> simp_all [hideSensitive]
  · rintro rfl
    exact hideUnder_bool b

/-! ## The bounds do not look at hidden values -/

theorem keptEntries_hide (entries : Entries) :
    keptEntries (entries.map (fun e => (e.1, hideUnder P e.1 e.2))) =
      ((keptEntries entries).1.map (fun e => (e.1, hideUnder P e.1 e.2)),
        (keptEntries entries).2) := by
  have hmark : Json.find (entries.map (fun e => (e.1, hideUnder P e.1 e.2))) "_truncated" =
      some (.bool true) ↔ Json.find entries "_truncated" = some (.bool true) := by
    rw [Json.find_map (hideUnder P), Option.map_eq_some_iff]
    simp only [hideUnder_eq_bool_iff, exists_eq_right]
  unfold keptEntries
  rw [List.length_map]
  by_cases hbounded : entries.length = maxEventDictItems + 1 ∧
      Json.find entries "_truncated" = some (.bool true)
  · rw [if_pos hbounded, if_pos ⟨hbounded.1, hmark.mpr hbounded.2⟩, List.filter_map]
    rfl
  · rw [if_neg hbounded, if_neg (fun h => hbounded ⟨h.1, hmark.mp h.2⟩), List.map_take]

theorem isTruncationMarker_hide (v : Json) :
    isTruncationMarker (hideSensitive P v) = isTruncationMarker v := by
  cases v with
  | obj entries =>
    have hopen : isSensitiveKey "remaining" = false := by decide
    have hint : ∀ v, isExactInt (hideUnder P "remaining" v) = isExactInt v := by
      intro v
      rw [hideUnder_open hopen]
      cases v <;> rfl
    have hmark : (Json.find (entries.map (fun e => (e.1, hideUnder P e.1 e.2))) "_truncated" ==
        some (.bool true)) = (Json.find entries "_truncated" == some (.bool true)) := by
      rw [Bool.eq_iff_iff, beq_iff_eq, beq_iff_eq, Json.find_map (hideUnder P),
        Option.map_eq_some_iff]
      simp only [hideUnder_eq_bool_iff, exists_eq_right]
    rw [hideSensitive, hideEntries_eq_map, isTruncationMarker, isTruncationMarker, hmark,
      List.length_map, Json.find_map (hideUnder P), Option.any_map]
    simp only [hint]
  | arr items => rfl
  | null | bool b | int n | float q | str s => rfl

/-- The marker of a bounded list holds no hidden value. -/
theorem hideSensitive_of_isTruncationMarker {v : Json} (h : isTruncationMarker v = true) :
    hideSensitive P v = v := by
  cases v with
  | obj entries =>
    simp only [isTruncationMarker, Bool.and_eq_true, beq_iff_eq] at h
    obtain ⟨⟨hlength, hmark⟩, hremaining⟩ := h
    obtain ⟨r, hr, hexact⟩ : ∃ r, Json.find entries "remaining" = some r ∧ isExactInt r = true := by
      cases hfind : Json.find entries "remaining" with
      | none => simp [hfind] at hremaining
      | some r => exact ⟨r, rfl, by simpa [hfind] using hremaining⟩
    have hflag : hideUnder P "_truncated" (.bool true) = .bool true := hideUnder_bool true
    have hcount : hideUnder P "remaining" r = r := by
      rw [hideUnder_open (by decide)]
      cases r <;> first | rfl | cases hexact
    have hmem := Json.mem_of_find hmark
    have hmem' := Json.mem_of_find hr
    obtain ⟨d, e, rfl⟩ := List.length_eq_two.mp hlength
    simp only [List.mem_cons, List.not_mem_nil, or_false] at hmem hmem'
    rw [hideSensitive, hideEntries_eq_map]
    rcases hmem with rfl | rfl
    · have he := hmem'.resolve_left (fun h => absurd (congrArg Prod.fst h) (by simp))
      subst he
      simp [hflag, hcount]
    · have hd := hmem'.resolve_right (fun h => absurd (congrArg Prod.fst h) (by simp))
      subst hd
      simp [hflag, hcount]
  | null | bool b | int n | float q | str s | arr items => cases h

theorem keptItems_hide (items : List Json) :
    keptItems (items.map (hideSensitive P)) =
      ((keptItems items).1.map (hideSensitive P), (keptItems items).2) := by
  have hlast : (items.map (hideSensitive P)).getLast?.any isTruncationMarker =
      items.getLast?.any isTruncationMarker := by
    rw [List.getLast?_map, Option.any_map]
    simp only [isTruncationMarker_hide]
  unfold keptItems
  rw [hlast, List.length_map]
  split_ifs with hbounded
  · have hsame : (items.map (hideSensitive P)).getLast? = items.getLast? := by
      rw [List.getLast?_map]
      cases hfind : items.getLast? with
      | none => rfl
      | some m =>
        have hm : isTruncationMarker m = true := by simpa [hfind] using hbounded.2
        rw [Option.map_some, hideSensitive_of_isTruncationMarker hm]
    rw [hsame, List.map_dropLast]
  · rw [List.map_take]
  · rw [List.map_take]

/-! ## Mappings -/

theorem persistedNames_map (secretNames : List String) (f : String × Json → Json)
    (taken : List String) (entries : Entries) :
    persistedNames P secretNames taken (entries.map (fun e => (e.1, f e))) =
      (persistedNames P secretNames taken entries).map (fun d => (d.1, d.2.1, f d.2)) := by
  induction entries generalizing taken with
  | nil => rfl
  | cons e es ih =>
    rw [List.map_cons, persistedNames, persistedNames]
    split_ifs
    · simp only [ih, List.map_cons]
    · rw [ih, List.map_cons]

theorem persistedMappingEntries_map (f : String × Json → Json) (entries : Entries) :
    persistedMappingEntries P (entries.map (fun e => (e.1, f e))) =
      (persistedMappingEntries P entries).map (fun d => (d.1, d.2.1, f d.2)) := by
  have hnames : (entries.map (fun e => (e.1, f e))).map Prod.fst = entries.map Prod.fst := by
    rw [List.map_map]
    rfl
  have hsort : (entries.map (fun e => (e.1, f e))).insertionSort Json.keyLe =
      (entries.insertionSort Json.keyLe).map (fun e => (e.1, f e)) :=
    (List.map_insertionSort Json.keyLe Json.keyLe (fun e => (e.1, f e)) entries
      (fun _ _ _ _ => Iff.rfl)).symm
  rw [persistedMappingEntries, hnames, hsort, persistedNames_map]
  rfl

theorem redactEventMapping_hide {child : String → List String → Json → Json} {path : List String}
    (hchild : ∀ key path v, child key path (hideUnder P key v) = child key path v)
    (entries : Entries) :
    redactEventMapping P child path (hideEntries P entries) =
      redactEventMapping P child path entries := by
  rw [hideEntries_eq_map]
  simp only [redactEventMapping, keptEntries_hide]
  rw [persistedMappingEntries_map (fun e => hideUnder P e.1 e.2), List.foldl_map]
  simp only [hchild]

/-! ## Redaction -/

theorem redactSensitiveValue_of_isReplaced {v : Json} (h : isReplaced P key v = true) :
    redactSensitiveValue P key v = redacted := by
  have hnone : publicCredentialMetadata P v key = none ∧ isVaultedSecretReference v = false := by
    cases v <;> simp_all [isReplaced]
  cases v <;> simp_all [isReplaced, redactSensitiveValue]

theorem redactLevel_hide {limits : StringLimits}
    {child : Option (String → List String → Json → Json)}
    (hchild : ∀ c, child = some c →
      ∀ key path v, c key path (hideUnder P key v) = c key path v)
    (key : String) (path : List String) (v : Json) :
    redactLevel P limits child key path (hideUnder P key v) =
      redactLevel P limits child key path v := by
  unfold redactLevel
  split_ifs with hboolean hsensitive
  · by_cases hv : ∃ b, v = .bool b
    · obtain ⟨b, rfl⟩ := hv
      rw [hideUnder_bool]
    · have hv' : ¬ ∃ b, hideUnder P key v = .bool b := fun ⟨b, hb⟩ =>
        hv ⟨b, hideUnder_eq_bool_iff.mp hb⟩
      generalize hideUnder P key v = w at hv'
      cases v <;> cases w <;> simp_all
  · rw [hideUnder, if_pos hsensitive.2]
    split_ifs with hreplaced
    · rw [redactSensitiveValue_of_isReplaced hreplaced]
      exact TextRules.redactSensitiveValue_str P key (.inr rfl)
    · rfl
  · have hopen : isSensitiveKey key = false := by
      by_cases hempty : key = ""
      · rw [hempty]
        decide
      · exact Bool.eq_false_iff.mpr (fun h => hsensitive ⟨hempty, h⟩)
    rw [hideUnder_open hopen]
    cases v with
    | obj entries =>
      cases child with
      | none => rfl
      | some c => simp only [hideSensitive, redactEventMapping_hide (hchild c rfl)]
    | arr items =>
      cases child with
      | none => rfl
      | some c =>
        have hitem : ∀ w, c key (path ++ ["*"]) (hideSensitive P w) = c key (path ++ ["*"]) w := by
          intro w
          rw [← hideUnder_open hopen, hchild c rfl]
        simp only [hideSensitive, hideItems_eq_map, redactEventSequence, keptItems_hide,
          List.map_map, Function.comp_def, hitem]
    | null | bool b | int n | float q | str s => rfl

theorem redactLevels_hide (limits : StringLimits) (n : ℕ) (key : String) (path : List String)
    (v : Json) :
    redactLevels P limits n key path (hideUnder P key v) = redactLevels P limits n key path v := by
  induction n generalizing key path v with
  | zero => exact redactLevel_hide (by simp) key path v
  | succ n ih =>
    refine redactLevel_hide (fun c hc => ?_) key path v
    obtain rfl := Option.some.inj hc
    exact ih

theorem redactEventValue_hideSensitive (P : Platform) (limits : StringLimits) (v : Json) :
    redactEventValue P limits (hideSensitive P v) = redactEventValue P limits v := by
  have hroot : hideUnder P "" v = hideSensitive P v := hideUnder_open (by decide) v
  rw [redactEventValue, ← hroot]
  exact redactLevels_hide limits _ "" [] v

end

/-- Values that redaction replaces leave no mark on the stored tree, nor on the record and the
hash of an event that carries it. -/
theorem hidden_values_not_stored (P : Platform) :
    (∀ limits v w, hideSensitive P v = hideSensitive P w →
      redactEventValue P limits v = redactEventValue P limits w) ∧
    ∀ events level event message limits data others,
      hideSensitive P (.obj data) = hideSensitive P (.obj others) →
        executionEventRecord P events level event message data limits =
          executionEventRecord P events level event message others limits := by
  have hvalue : ∀ limits v w, hideSensitive P v = hideSensitive P w →
      redactEventValue P limits v = redactEventValue P limits w := by
    intro limits v w h
    rw [← redactEventValue_hideSensitive, h, redactEventValue_hideSensitive]
  refine ⟨hvalue, fun events level event message limits data others h => ?_⟩
  have hdata : redactEventData P limits data = redactEventData P limits others := by
    rw [redactEventData, hvalue limits _ _ h, redactEventData]
  rw [executionEventRecord, executionEventRecord, hdata]

theorem hidden_values_not_stored_password :
    hideSensitive default (.obj [("password", .str "a")]) =
        hideSensitive default (.obj [("password", .arr [])]) ∧
      redactEventValue default [] (.obj [("password", .str "a")]) =
        redactEventValue default [] (.obj [("password", .arr [])]) ∧
      executionEventRecord default [] "info" "e" "" [("password", .str "a")] [] =
        executionEventRecord default [] "info" "e" "" [("password", .arr [])] [] := by
  have hsame : hideSensitive default (.obj [("password", .str "a")]) =
      hideSensitive default (.obj [("password", .arr [])]) := by decide +kernel
  exact ⟨hsame, (hidden_values_not_stored default).1 _ _ _ hsame,
    (hidden_values_not_stored default).2 _ _ _ _ _ _ _ hsame⟩

/-! ## Public metadata -/

def referenceTree (assignment : ℤ) : Json :=
  .obj [("credential_references", .obj [("password", .obj [("schema_version", .int 1),
    ("provider", .str "netbox-openbao"), ("assignment_id", .int assignment),
    ("target", .obj [("object_type", .str "a.b"), ("object_id", .int 1)]),
    ("purpose", .str "login"), ("fields", .arr [.str "a"]),
    ("version", .obj [("policy", .str "live")])])])]

/-- The reference under the sensitive name is no metadata of that name, and is stored with the
accepted mapping around it. -/
theorem metadata_shows_sensitive_value :
    isSensitiveKey "password" = true ∧
      (∀ n ∈ [(1 : ℤ), 2], ∃ v, (referenceTree n).get? "credential_references" =
        some (.obj [("password", v)]) ∧ isReplaced default "password" v = true) ∧
      redactEventValue default [] (referenceTree 1) ≠ redactEventValue default [] (referenceTree 2) := by
  refine ⟨by decide, fun n hn => ?_, by decide +kernel⟩
  refine ⟨_, rfl, ?_⟩
  rfl

end NetboxRpc
