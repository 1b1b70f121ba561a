import NetboxRpc.QuietTexts
import NetboxRpc.TargetHash

/-!
# Target objects that are stored as they were hashed

The snapshot is hashed after two traversals and one redaction, and the ledger redacts it once more.
On a calm target object that last pass finds nothing to change: no text of it is matched only after
it was cut, and it holds no public credential metadata that the second traversal takes apart.
-/

namespace NetboxRpc

open Budget SafeValue

/-! ## Calm target objects -/

section

variable (S : SnapshotPlatform)

/-- A text that redaction leaves alone, or one of which it keeps no mark. -/
def calmText (s : String) : Bool :=
  !matchesSecretPattern S s || keepsNoMark S.platform.word targetSnapshotMaxValueLen s.toList

/-- One level of a field under the name it is stored with. `child` is absent where the second
traversal writes `[truncated]` for a container. -/
def calmLevel (child : Option (String → FieldValue → Bool)) (key : String) (value : FieldValue) :
    Bool :=
  if key ≠ "" ∧ isBooleanPolicyKey key = true then true
  else if key ≠ "" ∧ isSensitiveKey key = true then
    match value with
    | .mapping entries => key != "credential_references" || entries.isEmpty && child.isSome
    | _ => true
  else match value, child with
    | .scalar (.text s), _ => matchesSecretPattern S s || calmText S (cutText s)
    | .other str, _ => calmText S (cutText str)
    | .mapping entries, some child =>
      entries.all (fun e => child (freeTextPolicyKey S (cutText e.1.text)) e.2)
    | .sequence items, some child => items.all (child key)
    | _, _ => true

def calmLevels : ℕ → String → FieldValue → Bool
  | 0 => calmLevel S none
  | n + 1 => calmLevel S (some (calmLevels n))

/-- Every field that the snapshot captures is calm. -/
def TargetObject.calm (t : TargetObject) : Bool :=
  t.plainSources.all (fun e => isSensitiveField e.1 ||
      calmLevels S targetSnapshotMaxDepth (freeTextPolicyKey S e.1) e.2) &&
    match t.customFieldData with
    | some (.mapping entries) =>
      calmLevels S targetSnapshotMaxDepth "custom_fields" (.mapping (openFields entries))
    | _ => true

end

section

variable {S : SnapshotPlatform}

/-! ## Texts -/

/-- A text whose redacted form is short enough for the second traversal and stays as it is. -/
def SettlesText (S : SnapshotPlatform) (s : String) : Prop :=
  ∃ t, (∀ path, redactEventText S.platform [] path s = t) ∧ cutText t = t ∧
    redactEventText S.platform [] [] t = t

theorem SettlesText.of_fixed {s : String} (hcut : cutText s = s)
    (h : ∀ path, redactEventText S.platform [] path s = s) : SettlesText S s :=
  ⟨s, h, hcut, h []⟩

theorem settlesText_redacted : SettlesText S "[REDACTED]" :=
  .of_fixed (cutText_of_le (by decide)) (redactEventText_redacted S.platform)

theorem redactEventText_truncated (P : Platform) (path : List String) :
    redactEventText P [] path "[truncated]" = "[truncated]" := by
  refine redactEventText_marker P (by decide : _ ≤ maxEventStringLength) (by decide) (by decide)
    (by decide) (by decide) ?_
  exact flowTail_of_no_token (by rw [flowSensitiveTokenRe_needs_truncated]; decide)

theorem settlesText_truncated : SettlesText S "[truncated]" :=
  .of_fixed (cutText_of_le (by decide)) (redactEventText_truncated S.platform)

theorem redactEventText_eq (P : Platform) (path : List String) (s : String) :
    redactEventText P [] path s =
      String.ofList (redactBounded P.word (boundText maxEventStringLength) s.toList) := rfl

theorem settlesText_of_calm {s : String} (hcut : cutText s = s) (h : calmText S s = true) :
    SettlesText S s := by
  have hlength : s.toList.length ≤ targetSnapshotMaxValueLen := by
    rw [String.length_toList, ← hcut]
    exact length_cutText_le s
  have hlimit : targetSnapshotMaxValueLen ≤ maxEventStringLength := by decide
  rcases Bool.or_eq_true_iff.mp h with hopen | hprose
  · have hkept : redactSecretText S.platform.word s.toList = s.toList := by
      simpa [matchesSecretPattern, containsSecretText] using hopen
    refine .of_fixed hcut (fun path => ?_)
    rw [redactEventText_eq, redactBounded_of_kept hkept (boundText_of_le (hlength.trans hlimit)),
      String.ofList_toList]
  · cases href : nmsSecretReferenceRe.fullmatch s.toList with
    | true =>
      refine .of_fixed hcut (fun path => ?_)
      rw [redactEventText_eq, redactBounded, if_pos href, String.ofList_toList]
    | false =>
      have hredacted := redactBounded_keepsNoMark hprose href hlength hlimit
      have hshort := length_redactSecretSpans_le hprose hlength
      obtain ⟨hspans, hvalues⟩ := sensitiveValueSpans_prose (prose_of_keepsNoMark hprose)
      refine ⟨_, fun path => congrArg String.ofList hredacted, cutText_of_le ?_, ?_⟩
      · rwa [String.length_ofList]
      · rw [redactEventText_eq, String.toList_ofList,
          redactBounded_of_clean hspans hvalues (boundText_of_le (hshort.trans hlimit))]

/-! ## Scalars -/

theorem raw_of_returns_scalar {n : ℕ} {c : Scalar} {u : SafeValue}
    (h : (jsonSafeValue S n).Returns (.scalar c) u) : u.raw = (jsonSafeScalar c).toJson := by
  obtain ⟨b, b', h⟩ := h
  have hleaf : jsonSafeLeaf S c true b = (some u, b') := by
    cases n <;> exact h
  rcases leaf_returns hleaf with ⟨rfl, _⟩ | ⟨t, rfl, _, rfl⟩ <;> rfl

theorem raw_of_returns_container {w : Json} {u : SafeValue} (hw : w.isContainer = true)
    (h : (jsonSafeValue S 0).Returns (fieldValueOfJson S w) u) : u.raw = .str "[truncated]" := by
  obtain ⟨b, b', h⟩ := h
  have hleaf : jsonSafeLeaf S (.text "[truncated]") true b = (some u, b') := by
    cases w with
    | obj entries => exact h
    | arr items => exact h
    | null | bool x | int x | float q | str s => cases hw
  rcases leaf_returns hleaf with ⟨rfl, _⟩ | ⟨t, ht, _, rfl⟩
  · rfl
  · exact Scalar.text.inj ht ▸ rfl

section

variable {key : String} (hopen : TextRules.OpenKey key)

include hopen

theorem ledgerKeeps_str {s : String} (h : redactEventText S.platform [] [] s = s) :
    ledgerKeeps S key (.str s) = true := by
  unfold ledgerKeeps
  rw [if_neg hopen.boolean, if_neg hopen.sensitive]
  exact beq_iff_eq.mpr h

theorem ledgerKeeps_text {n : ℕ} {s : String} {path : List String} {u : SafeValue}
    {child : Option (String → List String → Json → Json)} (h : SettlesText S s)
    (hsecond : (jsonSafeValue S n).Returns (fieldValueOfJson S
      ((eventRules S.platform []).level S.platform child key path (.str s))) u) :
    ledgerKeeps S key u.raw = true := by
  obtain ⟨t, hredacted, hcut, hfixed⟩ := h
  rw [TextRules.level_str hopen] at hsecond
  have hraw := raw_of_returns_scalar hsecond
  rw [show (eventRules S.platform []).text path s = t from hredacted path] at hraw
  rw [hraw]
  show ledgerKeeps S key (.str (cutText t)) = true
  rw [hcut]
  exact ledgerKeeps_str hopen hfixed

end

/-! ## Values under a key rule -/

theorem ledgerKeeps_boolean {n : ℕ} {key : String} {path : List String} {w : Json} {u : SafeValue}
    {child : Option (String → List String → Json → Json)}
    (hboolean : key ≠ "" ∧ isBooleanPolicyKey key = true)
    (hsecond : (jsonSafeValue S n).Returns (fieldValueOfJson S
      ((eventRules S.platform []).level S.platform child key path w)) u) :
    ledgerKeeps S key u.raw = true := by
  unfold TextRules.level at hsecond
  rw [if_pos hboolean] at hsecond
  unfold ledgerKeeps
  rw [if_pos hboolean]
  cases w with
  | null | bool x | int x | float q | str s | arr items | obj entries =>
    rw [raw_of_returns_scalar hsecond]
    rfl

/-- What stays under a sensitive key: a short scalar, or an empty mapping above the last level. -/
def StaysRuled (n : ℕ) (r : Json) : Prop :=
  (r.isContainer = false ∧ ∀ s, r = .str s → cutText s = s) ∨ r = .obj [] ∧ 0 < n

theorem raw_of_staysRuled {n : ℕ} {r : Json} {u : SafeValue} (h : StaysRuled n r)
    (hsecond : (jsonSafeValue S n).Returns (fieldValueOfJson S r) u) : u.raw = r := by
  rcases h with ⟨hscalar, hcut⟩ | ⟨rfl, hn⟩
  · cases r with
    | str s =>
      rw [raw_of_returns_scalar hsecond]
      exact congrArg Json.str (hcut s rfl)
    | null | bool x | int x | float q => exact raw_of_returns_scalar hsecond
    | arr items | obj entries => cases hscalar
  · obtain ⟨k, rfl⟩ := Nat.exists_eq_succ_of_ne_zero (Nat.pos_iff_ne_zero.mp hn)
    obtain ⟨b, b', hsecond⟩ := hsecond
    obtain ⟨output, rfl, _, _, hsource⟩ := mapping_returns hsecond
    cases output with
    | nil => rfl
    | cons e es =>
      obtain ⟨_, _, hmem, _⟩ := hsource e List.mem_cons_self
      cases hmem

theorem ledgerKeeps_sensitive (hP : S.platform.Implements referenceSchema) {n : ℕ} {key : String}
    {path : List String} {w : Json} {u : SafeValue}
    {child : Option (String → List String → Json → Json)}
    (hboolean : ¬ (key ≠ "" ∧ isBooleanPolicyKey key = true))
    (hsensitive : key ≠ "" ∧ isSensitiveKey key = true) (hwf : w.wellFormed = true)
    (hstays : StaysRuled n (redactSensitiveValue S.platform key w))
    (hsecond : (jsonSafeValue S n).Returns (fieldValueOfJson S
      ((eventRules S.platform []).level S.platform child key path w)) u) :
    ledgerKeeps S key u.raw = true := by
  rw [TextRules.level_sensitive hboolean hsensitive] at hsecond
  rw [raw_of_staysRuled hstays hsecond]
  unfold ledgerKeeps
  rw [if_neg hboolean, if_pos hsensitive, decide_eq_true_eq,
    TextRules.redactSensitiveValue_idem hP hwf]
  rfl

theorem str_or_references_of_metadata {P : Platform} {key : String} {w m : Json}
    (h : publicCredentialMetadata P w key = some m) :
    (∃ s, w = .str s) ∨ key = "credential_references" ∧ ∃ out, w = .obj out := by
  have hstr : ∀ {r : Regex.Rx}, matchesText r w = true → ∃ s, w = .str s := by
    intro r hmatch
    cases w with
    | str s => exact ⟨s, rfl⟩
    | null | bool x | int x | float q | arr items | obj out => cases hmatch
  unfold publicCredentialMetadata at h
  split_ifs at h with hreferences _ hmatch _ hmatch
  · cases w with
    | obj out => exact .inr ⟨hreferences, out, rfl⟩
    | null | bool x | int x | float q | str s | arr items => cases h
  · exact .inl (hstr hmatch)
  · exact .inl (hstr hmatch)

theorem staysRuled_of_value {n : ℕ} (hP : S.platform.Implements referenceSchema) {key : String}
    {w : Json} (hwf : w.wellFormed = true) (hcut : ∀ s, w = .str s → cutText s = s)
    (hobj : ∀ out, w = .obj out → key ≠ "credential_references" ∨ out = [] ∧ 0 < n) :
    StaysRuled n (redactSensitiveValue S.platform key w) := by
  have hredacted : StaysRuled n redacted :=
    .inl ⟨rfl, fun s hs => Json.str.inj hs ▸ cutText_of_le (by decide)⟩
  have hvalue : ∀ s, w = .str s → StaysRuled n w := fun s hs => .inl ⟨hs ▸ rfl, hcut⟩
  unfold redactSensitiveValue
  split
  · exact .inl ⟨rfl, fun s hs => by cases hs⟩
  · split
    · next m hmetadata =>
      have hbuilt := publicCredentialMetadata_built hP hwf hmetadata
      rcases str_or_references_of_metadata hmetadata with ⟨s, rfl⟩ | ⟨hkey, out, rfl⟩
      · cases hbuilt
        exact hvalue s rfl
      · obtain ⟨rfl, hn⟩ := (hobj out rfl).resolve_left (fun hne => hne hkey)
        refine .inr ⟨?_, hn⟩
        cases hbuilt with
        | same => rfl
        | @obj _ built source _ _ hmem _ =>
          cases built with
          | nil => rfl
          | cons e es => cases hmem e List.mem_cons_self
    · split_ifs with hvaulted
      · cases w with
        | str s => exact hvalue s rfl
        | null | bool x | int x | float q | arr items | obj entries => cases hvaulted
      · exact hredacted

/-! ## The first traversal -/

/-- What the first traversal and the replacement of matched text make of a value that is no
container in the copy. -/
theorem copy_of_returns {m : ℕ} {value : FieldValue} {v : SafeValue}
    (h : (jsonSafeValue S m).Returns value v) :
    (freeTextPolicyCopy S v).isContainer = true ∨
      (∀ s, freeTextPolicyCopy S v ≠ .str s) ∨
      freeTextPolicyCopy S v = redacted ∨ freeTextPolicyCopy S v = .str "[truncated]" ∨
      ∃ t, freeTextPolicyCopy S v = .str (cutText t) ∧
        (value = .scalar (.text t) ∧ matchesSecretPattern S t = false ∨ value = .other t) := by
  obtain ⟨b, b', h⟩ := h
  have hscalar : ∀ {c : Scalar}, jsonSafeLeaf S c true b = (some v, b') →
      (∀ s, freeTextPolicyCopy S v ≠ .str s) ∨ freeTextPolicyCopy S v = redacted ∨
        ∃ t, c = .text t ∧ freeTextPolicyCopy S v = .str (cutText t) ∧
          matchesSecretPattern S t = false := by
    intro c hleaf
    rcases leaf_returns hleaf with ⟨rfl, hopen⟩ | ⟨t, rfl, _, rfl⟩
    · cases c with
      | text t => exact .inr (.inr ⟨t, rfl, rfl, hopen rfl t rfl⟩)
      | null | bool x | int x | float q => exact .inl (fun s hs => by cases hs)
    · exact .inr (.inl rfl)
  have hdeep : jsonSafeLeaf S (.text "[truncated]") true b = (some v, b') →
      freeTextPolicyCopy S v = redacted ∨ freeTextPolicyCopy S v = .str "[truncated]" := by
    intro hleaf
    rcases leaf_returns hleaf with ⟨rfl, _⟩ | ⟨t, _, _, rfl⟩
    · exact .inr rfl
    · exact .inl rfl
  cases value with
  | scalar c =>
    rcases hscalar (show jsonSafeLeaf S c true b = _ by cases m <;> exact h) with
      hother | hredacted | ⟨t, rfl, hcopy, hopen⟩
    · exact .inr (.inl hother)
    · exact .inr (.inr (.inl hredacted))
    · exact .inr (.inr (.inr (.inr ⟨t, hcopy, .inl ⟨rfl, hopen⟩⟩)))
  | other t =>
    have hleaf : jsonSafeLeaf S (.text t) false b = (some v, b') := by cases m <;> exact h
    rcases leaf_returns hleaf with ⟨rfl, _⟩ | ⟨_, _, _, rfl⟩
    · exact .inr (.inr (.inr (.inr ⟨t, rfl, .inr rfl⟩)))
    · exact .inr (.inr (.inl rfl))
  | mapping entries =>
    cases m with
    | zero => exact .inr (.inr ((hdeep h).imp_right .inl))
    | succ m =>
      obtain ⟨output, rfl, _⟩ := mapping_returns h
      exact .inl rfl
  | sequence items =>
    cases m with
    | zero => exact .inr (.inr ((hdeep h).imp_right .inl))
    | succ m =>
      obtain ⟨output, rfl, _⟩ := sequence_returns h
      exact .inl rfl

theorem cutText_of_copy {m : ℕ} {value : FieldValue} {v : SafeValue}
    (h : (jsonSafeValue S m).Returns value v) {s : String} (hs : freeTextPolicyCopy S v = .str s) :
    cutText s = s := by
  have hmarker : ∀ marker : String, marker.length ≤ targetSnapshotMaxValueLen →
      freeTextPolicyCopy S v = .str marker → cutText s = s := by
    intro marker hle hcopy
    rw [← Json.str.inj (hcopy.symm.trans hs)]
    exact cutText_of_le hle
  rcases copy_of_returns h with hcontainer | hnone | hcopy | hcopy | ⟨t, hcopy, _⟩
  · rw [hs] at hcontainer
    cases hcontainer
  · exact absurd hs (hnone s)
  · exact hmarker _ (by decide) hcopy
  · exact hmarker _ (by decide) hcopy
  · exact hmarker _ (length_cutText_le t) hcopy

theorem entries_of_copy {m : ℕ} {value : FieldValue} {v : SafeValue} {out : List (String × Json)}
    (h : (jsonSafeValue S m).Returns value v) (hout : freeTextPolicyCopy S v = .obj out) :
    ∃ entries, value = .mapping entries ∧ (entries = [] → out = []) := by
  have hshows := shows_of_returns h
  rw [hout] at hshows
  obtain ⟨entries, rfl, hentries⟩ := hshows.entries
  refine ⟨entries, rfl, ?_⟩
  rintro rfl
  cases out with
  | nil => rfl
  | cons e es =>
    obtain ⟨d, hd, _⟩ := hentries.source e List.mem_cons_self
    cases hd

/-! ## One level -/

/-- Key rules and scalars at one level; containers under open names are left to the caller. -/
theorem ledgerKeeps_level (hP : S.platform.Implements referenceSchema) {n m : ℕ}
    {calm : Option (String → FieldValue → Bool)}
    {child : Option (String → List String → Json → Json)} {key : String} {path : List String}
    {value : FieldValue} {v u : SafeValue} (hcalm : calmLevel S calm key value = true)
    (hn : calm.isSome = true → 0 < n) (hfirst : (jsonSafeValue S m).Returns value v)
    (hsecond : (jsonSafeValue S n).Returns (fieldValueOfJson S
      ((eventRules S.platform []).level S.platform child key path (freeTextPolicyCopy S v))) u)
    (hcontainer : TextRules.OpenKey key → (freeTextPolicyCopy S v).isContainer = true →
      ledgerKeeps S key u.raw = true) : ledgerKeeps S key u.raw = true := by
  unfold calmLevel at hcalm
  by_cases hboolean : key ≠ "" ∧ isBooleanPolicyKey key = true
  · exact ledgerKeeps_boolean hboolean hsecond
  rw [if_neg hboolean] at hcalm
  by_cases hsensitive : key ≠ "" ∧ isSensitiveKey key = true
  · rw [if_pos hsensitive] at hcalm
    have hwf := (shows_of_returns hfirst).wellFormed
    refine ledgerKeeps_sensitive hP hboolean hsensitive hwf (staysRuled_of_value hP hwf
      (fun s hs => cutText_of_copy hfirst hs) (fun out hout => ?_)) hsecond
    obtain ⟨entries, rfl, hempty⟩ := entries_of_copy hfirst hout
    simp only [Bool.or_eq_true, bne_iff_ne, Bool.and_eq_true, List.isEmpty_iff] at hcalm
    exact hcalm.imp_right fun ⟨hnil, hsome⟩ => ⟨hempty hnil, hn hsome⟩
  rw [if_neg hsensitive] at hcalm
  have hopen : TextRules.OpenKey key := ⟨hboolean, hsensitive⟩
  rcases copy_of_returns hfirst with hcopy | hnone | hcopy | hcopy | ⟨t, hcopy, hvalue⟩
  · exact hcontainer hopen hcopy
  · generalize freeTextPolicyCopy S v = w at hsecond hcontainer hnone
    cases w with
    | str s => exact absurd rfl (hnone s)
    | arr items => exact hcontainer hopen rfl
    | obj entries => exact hcontainer hopen rfl
    | null | bool x | int x | float q =>
      unfold TextRules.level at hsecond
      rw [if_neg hboolean, if_neg hsensitive] at hsecond
      rw [raw_of_returns_scalar hsecond]
      unfold ledgerKeeps
      rw [if_neg hboolean, if_neg hsensitive]
      rfl
  · rw [hcopy] at hsecond
    exact ledgerKeeps_text hopen settlesText_redacted hsecond
  · rw [hcopy] at hsecond
    exact ledgerKeeps_text hopen settlesText_truncated hsecond
  · rw [hcopy] at hsecond
    refine ledgerKeeps_text hopen (settlesText_of_calm (cutText_of_le (length_cutText_le t)) ?_) hsecond
    rcases hvalue with ⟨rfl, hclean⟩ | rfl
    · simpa [hclean] using hcalm
    · exact hcalm

/-! ## Containers -/

section

variable {n : ℕ} {key : String} {path : List String} {v u : SafeValue}
  {c : String → List String → Json → Json} (hopen : TextRules.OpenKey key)

include hopen

/-- A container that redaction or the second traversal cuts. -/
theorem ledgerKeeps_cut {w : Json} {child : Option (String → List String → Json → Json)}
    (hw : w.isContainer = true) (hlast : n = 0 ∨ child = none)
    (hsecond : (jsonSafeValue S n).Returns (fieldValueOfJson S
      ((eventRules S.platform []).level S.platform child key path w)) u) :
    ledgerKeeps S key u.raw = true := by
  have hcut : u.raw = .str "[truncated]" := by
    cases child with
    | none =>
      have hlevel : (eventRules S.platform []).level S.platform none key path w =
          .str "[truncated]" := by
        unfold TextRules.level
        rw [if_neg hopen.boolean, if_neg hopen.sensitive]
        cases w with
        | obj entries => rfl
        | arr items => rfl
        | null | bool x | int x | float q | str s => cases hw
      rw [hlevel] at hsecond
      rw [@raw_of_returns_scalar S n (.text "[truncated]") u hsecond]
      exact congrArg Json.str (@cutText_of_le "[truncated]" (by decide))
    | some c =>
      obtain rfl := hlast.resolve_right (by simp)
      refine raw_of_returns_container ?_ hsecond
      cases w with
      | obj entries => rw [TextRules.level_obj hopen]; rfl
      | arr items => rw [TextRules.level_arr hopen]; rfl
      | null | bool x | int x | float q | str s => cases hw
  rw [hcut]
  exact ledgerKeeps_str hopen (redactEventText_truncated S.platform [])

theorem ledgerKeeps_mapping {first : SafePass} {entries : List (FieldKey × FieldValue)}
    (hfirst : MappingFrom first entries v)
    (hkeeps : ∀ e ∈ entries, ∀ path w u, first.Returns e.2 w →
      (jsonSafeValue S n).Returns (fieldValueOfJson S
        (c (freeTextPolicyKey S (cutText e.1.text)) path (freeTextPolicyCopy S w))) u →
      ledgerKeeps S (freeTextPolicyKey S (cutText e.1.text)) u.raw = true)
    (hsecond : (jsonSafeValue S (n + 1)).Returns (fieldValueOfJson S
      ((eventRules S.platform []).level S.platform (some c) key path (freeTextPolicyCopy S v))) u) :
    ledgerKeeps S key u.raw = true := by
  obtain ⟨output, rfl, _, hlength, hsource⟩ := hfirst
  obtain ⟨hdistinct, hle⟩ := @freeTextPolicyEntries_size S output [] List.nodup_nil
  have hmem := fun e he => @mem_freeTextPolicyEntries S output e he
  rw [freeTextPolicyCopy, TextRules.level_obj hopen] at hsecond
  generalize freeTextPolicyEntries S output [] = copied at hsecond hdistinct hle hmem
  have hnames : ∀ e ∈ copied, (eventRules S.platform []).secretName e.1 = false := by
    intro e he
    obtain ⟨d, _, hd⟩ := hmem e he
    have hname : matchesSecretPattern S e.1 = false := by
      rw [hd]
      exact matchesSecretPattern_freeTextPolicyKey S d.1
    exact hname
  have hbound : copied.length ≤ maxEventDictItems := by
    have hkeys : targetSnapshotMaxKeys = 95 := rfl
    have hmax : maxEventDictItems = 100 := rfl
    rw [List.length_nil] at hle
    omega
  rw [redactMapping_of_open hbound hdistinct hnames] at hsecond
  obtain ⟨b, b', hsecond⟩ := hsecond
  obtain ⟨stored, rfl, _, _, hstored⟩ := mapping_returns hsecond
  unfold ledgerKeeps
  rw [if_neg hopen.boolean, if_neg hopen.sensitive]
  show ledgerKeepsEntries S (rawEntries stored) = true
  rw [ledgerKeepsEntries_iff, rawEntries_eq_map]
  intro e he
  obtain ⟨d, hd, rfl⟩ := List.mem_map.mp he
  -- The entry comes from a redacted one, that from a copied one, and that from one of the field.
  obtain ⟨name, value, hvalue, hname, hreturns⟩ := hstored d hd
  rw [fieldEntriesOfJson_eq_map] at hvalue
  obtain ⟨f, hf, heq⟩ := List.mem_map.mp hvalue
  obtain ⟨rfl, rfl⟩ := Prod.mk.inj heq
  obtain ⟨g, hg, rfl⟩ := List.mem_map.mp hf
  obtain ⟨o, ho, rfl⟩ := hmem g ((List.perm_insertionSort Json.keyLe copied).mem_iff.mp hg)
  obtain ⟨source, field, hfield, hkey, hreturned⟩ := hsource o ho
  have hfinal := hkeeps (source, field) hfield (path ++ [freeTextPolicyKey S o.1]) o.2 d.2 hreturned
  rw [← hkey] at hfinal
  have hd : d.1 = freeTextPolicyKey S o.1 := by
    rw [hname]
    exact cutText_freeTextPolicyKey S (hkey ▸ length_cutText_le source.text)
  rw [hd]
  exact hfinal hreturns

theorem ledgerKeeps_sequence {first : SafePass} {items : List FieldValue}
    {output : List SafeValue} (hlength : output.length ≤ targetSnapshotMaxItems)
    (hfirst : ∀ w ∈ output, ∃ item ∈ items, first.Returns item w)
    (hkeeps : ∀ item ∈ items, ∀ path w u, first.Returns item w →
      (jsonSafeValue S n).Returns (fieldValueOfJson S (c key path (freeTextPolicyCopy S w))) u →
      ledgerKeeps S key u.raw = true)
    (hsecond : (jsonSafeValue S (n + 1)).Returns (fieldValueOfJson S
      ((eventRules S.platform []).level S.platform (some c) key path
        (freeTextPolicyCopy S (.sequence output)))) u) : ledgerKeeps S key u.raw = true := by
  rw [freeTextPolicyCopy, TextRules.level_arr hopen, redactEventSequence,
    freeTextPolicyItems_eq_map, keptItems_of_length_le
      (by rw [List.length_map]; exact hlength.trans (by decide)), List.append_nil] at hsecond
  obtain ⟨b, b', hsecond⟩ := hsecond
  obtain ⟨stored, rfl, _, hstored⟩ := sequence_returns hsecond
  unfold ledgerKeeps
  rw [if_neg hopen.boolean, if_neg hopen.sensitive]
  show ledgerKeepsItems S key (rawItems stored) = true
  rw [ledgerKeepsItems_iff, rawItems_eq_map]
  intro x hx
  obtain ⟨d, hd, rfl⟩ := List.mem_map.mp hx
  obtain ⟨value, hvalue, hreturns⟩ := hstored d hd
  rw [fieldValuesOfJson_eq_map, List.map_map] at hvalue
  obtain ⟨copied, hcopied, rfl⟩ := List.mem_map.mp hvalue
  obtain ⟨o, ho, rfl⟩ := List.mem_map.mp hcopied
  obtain ⟨item, hitem, hreturned⟩ := hfirst o ho
  exact hkeeps item hitem _ o d hreturned hreturns

end

/-! ## Whole fields -/

/-- The ledger keeps what both traversals and the redaction between them make of a calm field. -/
theorem ledgerKeeps_of_calm (hP : S.platform.Implements referenceSchema) {n m l : ℕ} {key : String}
    {path : List String} {value : FieldValue} {v u : SafeValue}
    (hcalm : calmLevels S n key value = true) (hfirst : (jsonSafeValue S m).Returns value v)
    (hsecond : (jsonSafeValue S n).Returns (fieldValueOfJson S
      ((eventRules S.platform []).levels S.platform l key path (freeTextPolicyCopy S v))) u) :
    ledgerKeeps S key u.raw = true := by
  induction n generalizing m l key path value v u with
  | zero =>
    cases l with
    | zero | succ l =>
      exact ledgerKeeps_level hP hcalm (fun h => by cases h) hfirst hsecond
        (fun hopen hcontainer => ledgerKeeps_cut hopen hcontainer (.inl rfl) hsecond)
  | succ n ih =>
    cases l with
    | zero =>
      exact ledgerKeeps_level hP hcalm (fun _ => Nat.succ_pos n) hfirst hsecond
        (fun hopen hcontainer => ledgerKeeps_cut hopen hcontainer (.inr rfl) hsecond)
    | succ l =>
      refine ledgerKeeps_level hP hcalm (fun _ => Nat.succ_pos n) hfirst hsecond
        (fun hopen hcontainer => ?_)
      change calmLevel S (some (calmLevels S n)) key value = true at hcalm
      unfold calmLevel at hcalm
      rw [if_neg hopen.boolean, if_neg hopen.sensitive] at hcalm
      obtain ⟨b, b', hreturned⟩ := hfirst
      have hleaf : ∀ {c : Scalar} {isText : Bool}, jsonSafeLeaf S c isText b ≠ (some v, b') := by
        intro c isText h
        rcases leaf_returns h with ⟨rfl, _⟩ | ⟨t, _, _, rfl⟩
        · cases c <;> cases hcontainer
        · cases hcontainer
      cases m with
      | zero => cases value <;> exact absurd hreturned hleaf
      | succ m =>
        cases value with
        | scalar c => exact absurd hreturned hleaf
        | other t => exact absurd hreturned hleaf
        | mapping entries =>
          refine ledgerKeeps_mapping hopen (mapping_returns hreturned)
            (fun e he path w u hw hu => ih (List.all_eq_true.mp hcalm e he) hw hu) hsecond
        | sequence items =>
          obtain ⟨output, rfl, hlength, hsource⟩ := sequence_returns hreturned
          exact ledgerKeeps_sequence hopen hlength hsource
            (fun item hitem path w u hw hu => ih (List.all_eq_true.mp hcalm item hitem) hw hu) hsecond

/-! ## The whole snapshot -/

theorem ledgerKeeps_bool (key : String) (x : Bool) : ledgerKeeps S key (.bool x) = true := by
  unfold ledgerKeeps
  split_ifs
  · rfl
  · rw [decide_eq_true_eq]
    rfl
  · rfl

/-- An entry of the persisted snapshot is the marker, or what is left of a captured one. -/
theorem mem_persistedSnapshot {t : TargetObject} {e : String × Json}
    (he : e ∈ persistedSnapshot S t) :
    e = (targetSnapshotMarker, .bool true) ∨ ∃ d ∈ (snapshotFields S t).1, ∃ u,
      e = (freeTextPolicyKey S d.1, u.raw) ∧ (fieldPass S).Returns (fieldValueOfJson S
        ((eventRules S.platform []).levels S.platform maxRedactionDepth (freeTextPolicyKey S d.1)
          [freeTextPolicyKey S d.1] (freeTextPolicyCopy S d.2))) u := by
  have hcopied := entriesShow_copy S t
  have hmem := fun e he => @mem_freeTextPolicyEntries S (buildTargetObjectSnapshot S t).1 e he
  have hnames : ∀ e ∈ freeTextPolicyEntries S (buildTargetObjectSnapshot S t).1 [],
      (eventRules S.platform []).secretName e.1 = false := by
    intro e he
    obtain ⟨_, _, hname, _⟩ := hcopied.source e he
    exact hname.stored.matches_eq_false
  have hredacted : redactEventValue S.platform []
      (freeTextPolicyCopy S (.mapping (buildTargetObjectSnapshot S t).1)) =
        .obj (((freeTextPolicyEntries S (buildTargetObjectSnapshot S t).1 []).insertionSort
          Json.keyLe).map (fun e => (e.1, (eventRules S.platform []).levels S.platform
            maxRedactionDepth e.1 [e.1] e.2))) := by
    rw [freeTextPolicyCopy, redactEventValue_obj, ← levels_eventRules]
    exact congrArg Json.obj (redactMapping_of_open (hcopied.length_le.trans (by decide))
      hcopied.nodup hnames _ _)
  have hperm := List.perm_insertionSort Json.keyLe
    (freeTextPolicyEntries S (buildTargetObjectSnapshot S t).1 [])
  have hnodup := (hperm.map Prod.fst).nodup_iff.mpr hcopied.nodup
  rw [persistedSnapshot, boundedPersistedSnapshot_eq hredacted (by rwa [List.map_map]),
    rawEntries_eq_map] at he
  obtain ⟨stored, hstored, rfl⟩ := List.mem_map.mp he
  rcases List.mem_append.mp hstored with hstored | hstored
  · right
    obtain ⟨hmarker, v, hv, hreturns⟩ := mem_persistedLoop (by rwa [List.map_map]) hstored
    obtain ⟨f, hf, heq⟩ := List.mem_map.mp hv
    obtain ⟨hname, rfl⟩ := Prod.mk.inj heq
    obtain ⟨d, hd, rfl⟩ := hmem f (hperm.mem_iff.mp hf)
    rw [buildTargetObjectSnapshot_fst] at hd
    rcases List.mem_append.mp hd with hd | hd
    · exact ⟨d, hd, stored.2, congrArg (·, stored.2.raw) hname.symm, hreturns⟩
    · rw [eq_marker_of_mem hd] at hname
      refine absurd (hname.symm.trans ?_) hmarker
      exact freeTextPolicyKey_of_open S (mappingNameIsSecretBearing_of_plain S.platform (by decide))
  · left
    rw [eq_marker_of_mem hstored]
    rfl

theorem ledgerKeeps_persistedSnapshot (hP : S.platform.Implements referenceSchema)
    {t : TargetObject} (h : t.calm S = true) :
    ledgerKeeps S "_target_object" (.obj (persistedSnapshot S t)) = true := by
  have hkey : TextRules.OpenKey "_target_object" := ⟨by decide +kernel, by decide +kernel⟩
  have hcustom : TextRules.OpenKey "custom_fields" := ⟨by decide +kernel, by decide +kernel⟩
  obtain ⟨hplain, hfields⟩ := Bool.and_eq_true_iff.mp h
  unfold ledgerKeeps
  rw [if_neg hkey.boolean, if_neg hkey.sensitive]
  refine (ledgerKeepsEntries_iff S).mpr (fun e he => ?_)
  rcases mem_persistedSnapshot he with rfl | ⟨d, hd, u, rfl, hreturns⟩
  · exact ledgerKeeps_bool _ true
  · obtain ⟨hopen, ⟨value, hmem, hreturned⟩ | ⟨hname, entries, hdata, hmapping⟩⟩ :=
      sourced_snapshotFields S t d hd
    · have hcalm := List.all_eq_true.mp hplain _ hmem
      rw [hopen, Bool.false_or] at hcalm
      exact ledgerKeeps_of_calm hP hcalm hreturned hreturns
    · rw [hdata] at hfields
      have hplainName : freeTextPolicyKey S d.1 = "custom_fields" := by
        rw [hname]
        exact freeTextPolicyKey_of_open S (mappingNameIsSecretBearing_of_plain S.platform (by decide))
      rw [hplainName] at hreturns ⊢
      change calmLevel S (some (calmLevels S 3)) "custom_fields" (.mapping (openFields entries)) =
        true at hfields
      unfold calmLevel at hfields
      rw [if_neg hcustom.boolean, if_neg hcustom.sensitive] at hfields
      exact ledgerKeeps_mapping hcustom hmapping (fun e he path w u hw hu =>
        ledgerKeeps_of_calm hP (List.all_eq_true.mp hfields e he) hw hu) hreturns

end

def tellingPlatform (tree : Json) : SnapshotPlatform where
  platform := { (default : Platform) with
    sha256 := fun v => String.ofList (List.replicate 64 (if v = tree then '0' else '1')) }
  floatText := fun _ => "0.0"
  repr := id
  keyDigest := fun _ => ""
  keyDigest_hex := emptyDigest_hex
  rawDigest := fun _ => ""

def jinjaExecution (t : TargetObject) : TargetedExecution := ⟨["jinja"], some t⟩

def fingerprinted : Parameters := ⟨[("command_fingerprint", .obj [])], by decide⟩

theorem isDigest_tellingPlatform (tree v : Json) :
    IsDigest ((tellingPlatform tree).platform.sha256 v) := by
  have hdigits : ∀ c : Char, isHexDigit c = true →
      IsDigest (String.ofList (List.replicate 64 c)) := by
    intro c hc
    refine ⟨?_, ?_⟩
    · rw [String.toList_ofList, List.all_replicate, hc]
      rfl
    · rw [String.length_ofList, List.length_replicate]
  refine hdigits _ ?_
  split_ifs <;> decide

def notedTarget : TargetObject :=
  customTarget (single "access" (.mapping [(⟨"note", "str", "'note'"⟩, .scalar (.text "password=x")),
    (⟨"credential_references", "str", "'credential_references'"⟩, .mapping [])]))

theorem keyEq_of_tellingPlatform {tree v w : Json} (hw : w.sorted = tree)
    (h : (tellingPlatform tree).platform.stableHash v = (tellingPlatform tree).platform.stableHash w) :
    Json.KeyEq v w := by
  have hchars : List.replicate 64 (if v.sorted = tree then '0' else '1') =
      List.replicate 64 (if w.sorted = tree then '0' else '1') := by
    exact String.ofList_injective h
  rw [if_pos hw, List.replicate_inj] at hchars
  have hdigit := hchars.2.resolve_left (by decide)
  split_ifs at hdigit with hv
  · exact hv.trans hw.symm
  · cases hdigit

def deepReferences : TargetObject :=
  customTarget (single "a" (single "b" (single "c" (single "credential_references" (.mapping [])))))

def deepTree : List (String × Json) :=
  [("custom_fields", .obj [("a", .obj [("b", .obj [("c",
    .obj [("credential_references", .str "[truncated]")])])])]), ("display", .str "d"), ("id", .int 1)]

theorem persistedSnapshot_deepReferences :
    persistedSnapshot (tellingPlatform (.obj deepTree)) deepReferences = deepTree := by
  decide +kernel

end NetboxRpc
