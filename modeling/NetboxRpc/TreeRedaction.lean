import Mathlib.Data.List.Perm.Subperm
import NetboxRpc.Redaction

/-!
# Redaction of trees over any text stage

`redact_event_value` with the text stage and the test for secret-bearing names as parameters. The
stored form of a tree is described on its own, and the first pass is shown to reach it.
-/

namespace NetboxRpc

open Regex

structure TextRules where
  text : List String → String → String
  secretName : String → Bool

/-! ## Placeholders -/

def numbered (placeholder : String) (n : ℕ) : String :=
  if n = 1 then placeholder else placeholder ++ "#" ++ toString n

theorem numbered_injective (placeholder : String) {m n : ℕ}
    (h : numbered placeholder m = numbered placeholder n) : m = n := by
  have hlonger : ∀ k : ℕ, placeholder ++ "#" ++ toString k ≠ placeholder := fun k heq => by
    have hlength := congrArg (fun s => s.toList.length) heq
    simp at hlength
  unfold numbered at h
  split_ifs at h with hm hn hn
  · rw [hm, hn]
  · exact absurd h.symm (hlonger n)
  · exact absurd h (hlonger m)
  · have hdigits : Nat.toDigits 10 m = Nat.toDigits 10 n := by
      rw [Nat.toString_eq_ofList_toDigits, Nat.toString_eq_ofList_toDigits] at h
      simpa using congrArg String.toList h
    rw [← Nat.ofDigitChars_toDigits (b := 10) (n := m) (by decide) (by decide), hdigits,
      Nat.ofDigitChars_toDigits (by decide) (by decide)]

/-- The search ends on a name that is not taken: the candidates passed are distinct taken names,
and there are more candidates than names. -/
theorem unusedPlaceholderFrom_spec (placeholder : String) (taken passed : List String)
    (hnodup : passed.Nodup) (hsub : passed ⊆ taken) {fuel suffix : ℕ} (hsuffix : 0 < suffix)
    (hfuel : passed.length + fuel = taken.length + 1)
    (hpassed : ∀ name ∈ passed, ∃ k < suffix, name = numbered placeholder k) :
    ∃ n, unusedPlaceholderFrom placeholder taken fuel suffix (numbered placeholder suffix) =
      numbered placeholder n ∧ numbered placeholder n ∉ taken := by
  induction fuel generalizing passed suffix with
  | zero =>
    have hle := (List.subperm_of_subset hnodup hsub).length_le
    omega
  | succ fuel ih =>
    rw [unusedPlaceholderFrom]
    split_ifs with htaken
    · have hfresh : numbered placeholder suffix ∉ passed := fun hmem => by
        obtain ⟨k, hk, heq⟩ := hpassed _ hmem
        have := numbered_injective placeholder heq
        omega
      have hnext : placeholder ++ "#" ++ toString (suffix + 1) =
          numbered placeholder (suffix + 1) := by
        rw [numbered, if_neg (by omega)]
      rw [hnext]
      refine ih (numbered placeholder suffix :: passed) (List.nodup_cons.mpr ⟨hfresh, hnodup⟩)
        (List.cons_subset.mpr ⟨List.contains_iff_mem.mp htaken, hsub⟩) (by omega)
        (by simp only [List.length_cons]; omega) (fun name hname => ?_)
      rcases List.mem_cons.mp hname with rfl | hname
      · exact ⟨suffix, by omega, rfl⟩
      · obtain ⟨k, hk, heq⟩ := hpassed name hname
        exact ⟨k, by omega, heq⟩
    · exact ⟨suffix, rfl, fun hmem => htaken (List.contains_iff_mem.mpr hmem)⟩

theorem unusedPlaceholder_spec (P : Platform) (name : String) (taken : List String) :
    ∃ n, unusedPlaceholder P name taken = numbered (keyedMappingName P name) n ∧
      unusedPlaceholder P name taken ∉ taken := by
  obtain ⟨n, heq, hfree⟩ := unusedPlaceholderFrom_spec (keyedMappingName P name) taken []
    List.nodup_nil (List.nil_subset _) Nat.one_pos (Nat.zero_add _) (by simp)
  have hsearch : unusedPlaceholder P name taken = numbered (keyedMappingName P name) n := heq
  exact ⟨n, hsearch, hsearch ▸ hfree⟩

theorem countP_keyedMappingName (P : Platform) (name : String) {S : Char → Bool}
    (hS : "0123456789abcdef".toList.countP S = 0) :
    (keyedMappingName P name).toList.countP S =
      "[REDACTED-NAME:".toList.countP S + "]".toList.countP S := by
  have hdigest : (P.keyedDigest name).toList.countP S = 0 := by
    rw [List.countP_eq_zero] at hS ⊢
    intro c hc
    exact hS c (mem_of_isHexDigit (List.all_eq_true.mp (P.keyedDigest_hex name) c hc))
  simp only [keyedMappingName, String.toList_append, List.countP_append, hdigest, Nat.add_zero]

theorem countP_numbered (P : Platform) (name : String) (n : ℕ) {S : Char → Bool}
    (hS : "#0123456789abcdef".toList.countP S = 0) :
    (numbered (keyedMappingName P name) n).toList.countP S =
      "[REDACTED-NAME:".toList.countP S + "]".toList.countP S := by
  have hhex : "0123456789abcdef".toList.countP S = 0 :=
    Nat.le_zero.mp (hS ▸ List.Sublist.countP_le (by decide))
  have hsharp : "#".toList.countP S = 0 := Nat.le_zero.mp (hS ▸ List.Sublist.countP_le (by decide))
  unfold numbered
  split_ifs
  · exact countP_keyedMappingName P name hhex
  · have hdigits : (toString n).toList.countP S = 0 := by
      rw [List.countP_eq_zero] at hhex ⊢
      intro c hc
      rw [Nat.toString_eq_ofList_toDigits, String.toList_ofList] at hc
      have hdigit := Nat.isDigit_of_mem_toDigits (by decide) (by decide) hc
      exact hhex c (mem_of_isHexDigit (by rw [isHexDigit, hdigit]; rfl))
    rw [String.toList_append, String.toList_append, List.countP_append, List.countP_append,
      countP_keyedMappingName P name hhex, hsharp, hdigits, Nat.add_zero]

/-- Text redaction keeps a text with too few of the characters that every pattern needs. -/
theorem redactSecretText_of_needs {word : Char → Bool} {text : Text} {marks letters : Char → Bool}
    (hsecret : text.countP marks < (secretContentRe word).needs marks)
    (hblock : text.countP letters < yamlBlockScalarHeaderRe.needs letters)
    (hvalue : text.countP letters < yamlSensitiveValueRe.needs letters)
    (hflow : text.countP letters < flowSensitiveTokenRe.needs letters) (hescape : '\\' ∉ text) :
    redactSecretText word text = text := by
  have hspans : secretSpans word text = [] :=
    secretSpans_eq_nil (Rx.finditer_eq_nil _ _ hsecret) (Rx.finditer_eq_nil _ _ hblock)
  have hvalues : sensitiveValueSpans text = [] :=
    sensitiveValueSpans_eq_nil (Rx.finditer_eq_nil _ _ hvalue) (flowTail_of_no_token hflow) hescape
  exact redactBounded_of_clean hspans hvalues rfl

/-- Text redaction keeps the placeholders it writes. -/
theorem redactSecretText_numbered (P : Platform) (word : Char → Bool) (name : String) (n : ℕ) :
    redactSecretText word (numbered (keyedMappingName P name) n).toList =
      (numbered (keyedMappingName P name) n).toList := by
  have hmarker := countP_numbered P name n (S := outsideMarker) (by decide)
  have hplain : (numbered (keyedMappingName P name) n).toList.countP outsidePlaceholder < 1 := by
    rw [countP_numbered P name n (by decide)]
    decide
  have hescape : (numbered (keyedMappingName P name) n).toList.countP (· == '\\') = 0 := by
    rw [countP_numbered P name n (by decide)]
    decide
  refine @redactSecretText_of_needs word _ outsideMarker outsidePlaceholder
    ?_ ?_ ?_ ?_ (fun hmem => by simpa using List.countP_eq_zero.mp hescape _ hmem)
  · rw [secretContentRe_needs_two, hmarker]
    decide
  · rwa [yamlBlockScalarHeaderRe_needs_word]
  · rwa [yamlSensitiveValueRe_needs_word]
  · rwa [flowSensitiveTokenRe_needs_word]

theorem mem_of_containsText {needle : String} {text : Text} (h : containsText needle text = true)
    {c : Char} (hc : c ∈ needle.toList) : c ∈ text := by
  obtain ⟨t, ht, hstarts⟩ := List.any_eq_true.mp h
  have hsuffix : t <:+ text := (List.mem_tails _ _).mp ht
  exact hsuffix.subset ((List.isPrefixOf_iff_prefix.mp hstarts).subset hc)

def keyLetters : List Char := ['u', 'o', 'i', 'k', 'p', 's']

theorem not_mem_lower_numbered (P : Platform) (name : String) (n : ℕ) {c : Char}
    (hc : c ∈ keyLetters) : c ∉ lower (numbered (keyedMappingName P name) n) := by
  intro hmem
  obtain ⟨d, hd, hcd⟩ := List.mem_flatMap.mp hmem
  have hcount := countP_numbered P name n (S := fun d => (lowerChar d).any keyLetters.contains)
    (by decide)
  have hzero : (numbered (keyedMappingName P name) n).toList.countP
      (fun d => (lowerChar d).any keyLetters.contains) = 0 := by
    rw [hcount]
    decide
  refine List.countP_eq_zero.mp hzero d hd (List.any_eq_true.mpr ⟨c, hcd, ?_⟩)
  exact List.contains_iff_mem.mpr hc

theorem isSensitiveKey_numbered (P : Platform) (name : String) (n : ℕ) :
    isSensitiveKey (numbered (keyedMappingName P name) n) = false := by
  have hletter : sensitiveKeyFragments.all (fun fragment => fragment.toList.any keyLetters.contains) =
      true := by
    decide
  have hfragments : sensitiveKeyFragments.any
      (fun fragment => containsText fragment (lower (numbered (keyedMappingName P name) n))) =
        false := by
    rw [List.any_eq_false]
    intro fragment hfragment hcontains
    obtain ⟨c, hc, hkey⟩ := List.any_eq_true.mp (List.all_eq_true.mp hletter fragment hfragment)
    exact not_mem_lower_numbered P name n (List.contains_iff_mem.mp hkey)
      (mem_of_containsText hcontains hc)
  rw [isSensitiveKey, hfragments, ite_self]

theorem isBooleanPolicyKey_numbered (P : Platform) (name : String) (n : ℕ) :
    isBooleanPolicyKey (numbered (keyedMappingName P name) n) = false := by
  have hletter : ∀ k ∈ booleanPolicyKeys, 's' ∈ k.toList := by decide
  rw [isBooleanPolicyKey, List.any_eq_false]
  intro k hk heq
  refine not_mem_lower_numbered P name n (c := 's') (by decide) ?_
  rw [beq_iff_eq.mp heq]
  exact hletter k hk

/-! ## Persisted names -/

section

variable {P : Platform} {secretNames : List String}

theorem persistedNames_map_snd (taken : List String) (entries : List (String × Json)) :
    (persistedNames P secretNames taken entries).map Prod.snd = entries := by
  induction entries generalizing taken with
  | nil => rfl
  | cons e es ih =>
    rw [persistedNames]
    split_ifs <;> rw [List.map_cons, ih]

/-- A name is kept, or is replaced by a placeholder that is not taken. -/
theorem persistedNames_cases {taken : List String} {entries : List (String × Json)}
    {d : String × String × Json} (hd : d ∈ persistedNames P secretNames taken entries) :
    d.2.1 ∉ secretNames ∧ d.1 = d.2.1 ∨ d.2.1 ∈ secretNames ∧ d.1 ∉ taken ∧
      ∃ n, d.1 = numbered (keyedMappingName P d.2.1) n := by
  induction entries generalizing taken with
  | nil => cases hd
  | cons e es ih =>
    rw [persistedNames] at hd
    split_ifs at hd with hsecret
    · rcases List.mem_cons.mp hd with rfl | hd
      · obtain ⟨n, heq, hfree⟩ := unusedPlaceholder_spec P e.1 taken
        exact .inr ⟨List.contains_iff_mem.mp hsecret, hfree, n, heq⟩
      · refine (ih hd).imp_right (fun ⟨hmem, hfree, hname⟩ => ⟨hmem, fun htaken => ?_, hname⟩)
        exact hfree (List.mem_append_left _ htaken)
    · rcases List.mem_cons.mp hd with rfl | hd
      · exact .inl ⟨fun hmem => hsecret (List.contains_iff_mem.mpr hmem), rfl⟩
      · exact ih hd

theorem persistedNames_nodup {taken : List String} {entries : List (String × Json)}
    (hnodup : (entries.map Prod.fst).Nodup)
    (htaken : ∀ e ∈ entries, e.1 ∉ secretNames → e.1 ∈ taken) :
    ((persistedNames P secretNames taken entries).map Prod.fst).Nodup := by
  induction entries generalizing taken with
  | nil => exact List.nodup_nil
  | cons e es ih =>
    rw [List.map_cons, List.nodup_cons] at hnodup
    have hrest : ∀ f ∈ es, f.1 ∉ secretNames → f.1 ∈ taken := fun f hf =>
      htaken f (List.mem_cons_of_mem e hf)
    -- A later name is its own, and then taken and not the name of `e`, or is free.
    have hlater : ∀ {later : List String} {d : String × String × Json},
        d ∈ persistedNames P secretNames later es →
        d.1 ∈ taken ∧ d.1 ≠ e.1 ∨ d.1 ∉ later := by
      intro later d hd
      have hmem : d.2 ∈ es := by
        rw [← @persistedNames_map_snd P secretNames later es]
        exact List.mem_map_of_mem hd
      rcases persistedNames_cases hd with ⟨hopen, heq⟩ | ⟨_, hfree, _⟩
      · refine .inl ⟨heq ▸ hrest d.2 hmem hopen, fun hsame => hnodup.1 ?_⟩
        rw [← hsame, heq]
        exact List.mem_map_of_mem hmem
      · exact .inr hfree
    rw [persistedNames]
    split_ifs with hsecret
    · obtain ⟨_, _, hfree⟩ := unusedPlaceholder_spec P e.1 taken
      rw [List.map_cons, List.nodup_cons]
      refine ⟨fun hmem => ?_, ih hnodup.2 (fun f hf hopen => List.mem_append_left _ (hrest f hf hopen))⟩
      obtain ⟨d, hd, hsame⟩ := List.mem_map.mp hmem
      simp only at hsame
      rcases hlater hd with ⟨htaken', _⟩ | hnew
      · exact hfree (hsame ▸ htaken')
      · exact hnew (hsame ▸ List.mem_append_right _ (List.mem_singleton_self _))
    · rw [List.map_cons, List.nodup_cons]
      refine ⟨fun hmem => ?_, ih hnodup.2 hrest⟩
      obtain ⟨d, hd, hsame⟩ := List.mem_map.mp hmem
      rcases hlater hd with ⟨_, hne⟩ | hnew
      · exact hne hsame
      · exact hnew (hsame ▸ htaken e List.mem_cons_self
          (fun hmem => hsecret (List.contains_iff_mem.mpr hmem)))

end

namespace TextRules

variable (R : TextRules) (P : Platform)

def persistedEntries (entries : List (String × Json)) : List (String × String × Json) :=
  let secretNames := (entries.map Prod.fst).filter R.secretName
  let taken := (entries.map Prod.fst).filter (fun name => !secretNames.contains name)
  persistedNames P secretNames taken (entries.insertionSort Json.keyLe)

def redactMapping (child : String → List String → Json → Json) (path : List String)
    (entries : List (String × Json)) : List (String × Json) :=
  let kept := keptEntries entries
  let redactedEntries := (R.persistedEntries P kept.1).foldl
    (fun d e => Json.set d e.1 (child e.2.1 (path ++ [e.2.1]) e.2.2)) []
  if kept.2 then Json.set redactedEntries "_truncated" (.bool true) else redactedEntries

def level (child : Option (String → List String → Json → Json)) (parentKey : String)
    (path : List String) (value : Json) : Json :=
  if parentKey ≠ "" ∧ isBooleanPolicyKey parentKey = true then
    match value with
    | .bool b => .bool b
    | _ => redacted
  else if parentKey ≠ "" ∧ isSensitiveKey parentKey = true then
    redactSensitiveValue P parentKey value
  else match value, child with
    | .obj _, none | .arr _, none => .str "[truncated]"
    | .obj entries, some child => .obj (R.redactMapping P child path entries)
    | .arr items, some child => .arr (redactEventSequence child parentKey path items)
    | .str s, _ => .str (R.text path s)
    | v, _ => v

def levels : ℕ → String → List String → Json → Json
  | 0 => R.level P none
  | n + 1 => R.level P (some (levels n))

variable {R P} in
theorem level_sensitive {key : String} (hboolean : ¬ (key ≠ "" ∧ isBooleanPolicyKey key = true))
    (hsensitive : key ≠ "" ∧ isSensitiveKey key = true)
    (child : Option (String → List String → Json → Json)) (path : List String) (v : Json) :
    R.level P child key path v = redactSensitiveValue P key v := by
  simp only [level, if_neg hboolean, if_pos hsensitive]

structure OpenKey (key : String) : Prop where
  boolean : ¬ (key ≠ "" ∧ isBooleanPolicyKey key = true)
  sensitive : ¬ (key ≠ "" ∧ isSensitiveKey key = true)

section

variable {R P} {key : String} (h : OpenKey key) (path : List String)

include h

theorem level_obj (c : String → List String → Json → Json) (entries : List (String × Json)) :
    R.level P (some c) key path (.obj entries) = .obj (R.redactMapping P c path entries) := by
  simp only [level, if_neg h.boolean, if_neg h.sensitive]

theorem level_arr (c : String → List String → Json → Json) (items : List Json) :
    R.level P (some c) key path (.arr items) = .arr (redactEventSequence c key path items) := by
  simp only [level, if_neg h.boolean, if_neg h.sensitive]

theorem level_str (child : Option (String → List String → Json → Json)) (s : String) :
    R.level P child key path (.str s) = .str (R.text path s) := by
  cases child <;> simp only [level, if_neg h.boolean, if_neg h.sensitive]

end

/-- How the first pass renames: names that are not secret stay, the others become placeholders. -/
def Persists (name persisted : String) : Prop :=
  R.secretName name = false ∧ persisted = name ∨
    R.secretName name = true ∧ ∃ n, persisted = numbered (keyedMappingName P name) n

def Renamed (name persisted : String) : Prop := persisted = name ∨ R.Persists P name persisted

variable {R P} {entries : List (String × Json)}

theorem Renamed.refl (name : String) : R.Renamed P name name := .inl rfl

theorem Renamed.cases {name persisted : String} (h : R.Renamed P name persisted) :
    persisted = name ∨ R.secretName name = true ∧ OpenKey persisted := by
  rcases h with h | ⟨_, h⟩ | ⟨hsecret, n, rfl⟩
  · exact .inl h
  · exact .inl h
  · exact .inr ⟨hsecret, by simp [isBooleanPolicyKey_numbered], by simp [isSensitiveKey_numbered]⟩

theorem Renamed.openKey {key persisted : String} (h : R.Renamed P key persisted)
    (hopen : OpenKey key) : OpenKey persisted := by
  rcases h.cases with rfl | ⟨_, hnew⟩
  · exact hopen
  · exact hnew

theorem eq_of_persists {target name persisted : String} (hstart : target.toList.head? ≠ some '[')
    (h : R.Persists P name persisted) (heq : persisted = target) : name = target := by
  rcases h with ⟨_, hname⟩ | ⟨_, n, hname⟩
  · rw [← hname, heq]
  · refine absurd ?_ hstart
    rw [← heq, hname]
    unfold numbered keyedMappingName
    split_ifs <;> simp

theorem persists_eq_iff {target name persisted : String} (htarget : R.secretName target = false)
    (hstart : target.toList.head? ≠ some '[') (h : R.Persists P name persisted) :
    persisted = target ↔ name = target := by
  constructor
  · exact eq_of_persists hstart h
  · intro hname
    rcases h with ⟨_, heq⟩ | ⟨hsecret, _⟩
    · rw [heq, hname]
    · rw [hname, htarget] at hsecret
      cases hsecret

theorem map_snd_persistedEntries :
    (R.persistedEntries P entries).map Prod.snd = entries.insertionSort Json.keyLe :=
  persistedNames_map_snd _ _

theorem mem_of_mem_persistedEntries {d : String × String × Json}
    (hd : d ∈ R.persistedEntries P entries) : d.2 ∈ entries := by
  rw [← List.mem_insertionSort Json.keyLe, ← @map_snd_persistedEntries R P]
  exact List.mem_map_of_mem hd

theorem length_persistedEntries : (R.persistedEntries P entries).length = entries.length := by
  rw [← List.length_map (f := Prod.snd), map_snd_persistedEntries, List.length_insertionSort]

theorem persists_of_mem {d : String × String × Json} (hd : d ∈ R.persistedEntries P entries) :
    R.Persists P d.2.1 d.1 := by
  have hmem : d.2.1 ∈ entries.map Prod.fst := List.mem_map_of_mem (mem_of_mem_persistedEntries hd)
  rcases persistedNames_cases hd with ⟨hopen, heq⟩ | ⟨hsecret, _, hname⟩
  · rw [List.mem_filter, not_and, Bool.not_eq_true] at hopen
    exact .inl ⟨hopen hmem, heq⟩
  · exact .inr ⟨(List.mem_filter.mp hsecret).2, hname⟩

theorem nodup_persistedEntries (hnodup : (entries.map Prod.fst).Nodup) :
    ((R.persistedEntries P entries).map Prod.fst).Nodup := by
  have hperm := List.perm_insertionSort Json.keyLe entries
  refine persistedNames_nodup ((hperm.map Prod.fst).nodup_iff.mpr hnodup) (fun e he hopen => ?_)
  refine List.mem_filter.mpr ⟨List.mem_map_of_mem (hperm.mem_iff.mp he), ?_⟩
  simpa using hopen

/-- Names none of which is secret are persisted as they are. -/
theorem persistedEntries_of_open (hopen : ∀ e ∈ entries, R.secretName e.1 = false) :
    R.persistedEntries P entries =
      (entries.insertionSort Json.keyLe).map (fun e => (e.1, e.1, e.2)) := by
  have hself : ∀ d ∈ R.persistedEntries P entries, (d.2.1, d.2.1, d.2.2) = d := by
    intro d hd
    rcases persists_of_mem hd with ⟨_, heq⟩ | ⟨hsecret, _⟩
    · exact Prod.ext heq.symm rfl
    · rw [hopen _ (mem_of_mem_persistedEntries hd)] at hsecret
      cases hsecret
  rw [← @map_snd_persistedEntries R P entries, List.map_map]
  exact (List.map_id' _).symm.trans (List.map_congr_left (fun d hd => (hself d hd).symm))

end TextRules

end NetboxRpc
