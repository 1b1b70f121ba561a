import NetboxRpc.CanonicalParameters

/-!
# The entries that a stored mapping keeps

A mapping of any size keeps its first entries, each under a name of its own, and gains the marker
when it was cut. The marker shares the name space of the data.
-/

namespace NetboxRpc

/-! ## The placeholder search -/

/-- More rounds than taken names do not change the candidate that the search ends on. -/
theorem unusedPlaceholderFrom_stop {placeholder candidate : String} {taken : List String}
    {fuel more suffix : ℕ}
    (h : unusedPlaceholderFrom placeholder taken fuel suffix candidate ∉ taken) :
    unusedPlaceholderFrom placeholder taken (fuel + more) suffix candidate =
      unusedPlaceholderFrom placeholder taken fuel suffix candidate := by
  induction fuel generalizing suffix candidate with
  | zero =>
    rw [unusedPlaceholderFrom] at h ⊢
    cases more with
    | zero => rfl
    | succ more =>
      have hfree : ¬ taken.contains candidate = true := fun hmem =>
        h (List.contains_iff_mem.mp hmem)
      rw [Nat.zero_add, unusedPlaceholderFrom, if_neg hfree]
  | succ fuel ih =>
    rw [Nat.succ_add, unusedPlaceholderFrom, unusedPlaceholderFrom]
    rw [unusedPlaceholderFrom] at h
    split_ifs with htaken
    · rw [if_pos htaken] at h
      exact ih h
    · rfl

theorem unusedPlaceholder_terminates (P : Platform) (name : String) (taken : List String)
    (rounds : ℕ) (h : taken.length < rounds) :
    unusedPlaceholderFrom (keyedMappingName P name) taken rounds 1 (keyedMappingName P name) =
        unusedPlaceholder P name taken ∧
      unusedPlaceholder P name taken ∉ taken := by
  obtain ⟨_, _, hfree⟩ := unusedPlaceholder_spec P name taken
  refine ⟨?_, hfree⟩
  obtain ⟨more, rfl⟩ := Nat.exists_eq_add_of_le (Nat.succ_le_of_lt h)
  exact unusedPlaceholderFrom_stop hfree

/-! ## The stored entries -/

/-- `stored` holds the first entries of a mapping up to the limit, under the names in `named`, and
the marker exactly when there were more. -/
structure KeepsFirst (P : Platform) (child : String → List String → Json → Json)
    (path : List String) (entries : Entries) (named : List (String × String × Json))
    (stored : Entries) : Prop where
  first : (named.map Prod.snd).Perm (entries.take maxEventDictItems)
  name : ∀ d ∈ named, if mappingNameIsSecretBearing P d.2.1 = true
    then ∃ n, d.1 = numbered (keyedMappingName P d.2.1) n else d.1 = d.2.1
  distinct : (stored.map Prod.fst).Nodup
  values : stored.Perm (named.map (fun d => (d.1, child d.2.1 (path ++ [d.2.1]) d.2.2)) ++
    truncationEntry (decide (maxEventDictItems < entries.length)))

def isBoundedForm (entries : Entries) : Bool :=
  entries.length == maxEventDictItems + 1 && Json.find entries "_truncated" == some (.bool true)

section

variable {P : Platform} {child : String → List String → Json → Json} {path : List String}
  {entries : Entries}

theorem keptEntries_of_unbounded (h : isBoundedForm entries = false) :
    keptEntries entries =
      (entries.take maxEventDictItems, decide (maxEventDictItems < entries.length)) := by
  rw [keptEntries, if_neg]
  rintro ⟨hlength, hmark⟩
  simp [isBoundedForm, hlength, hmark] at h

theorem redactEventMapping_eq_rules (P : Platform) :
    redactEventMapping P child path entries =
      (eventRules P []).redactMapping P child path entries := rfl

theorem contains_truncated_iff :
    (((eventRules P []).persistedEntries P entries).map Prod.fst).contains "_truncated" = true ↔
      "_truncated" ∈ entries.map Prod.fst := by
  have hplain : (eventRules P []).secretName "_truncated" = false :=
    mappingNameIsSecretBearing_of_plain P (by decide)
  rw [List.contains_iff_mem, List.mem_map, List.mem_map]
  constructor
  · rintro ⟨d, hd, hname⟩
    refine ⟨d.2, TextRules.mem_of_mem_persistedEntries hd, ?_⟩
    exact (TextRules.persists_eq_iff hplain (by decide) (TextRules.persists_of_mem hd)).mp hname
  · rintro ⟨e, he, hname⟩
    have hmem : e ∈ ((eventRules P []).persistedEntries P entries).map Prod.snd := by
      rwa [TextRules.map_snd_persistedEntries, List.mem_insertionSort]
    obtain ⟨d, hd, rfl⟩ := List.mem_map.mp hmem
    refine ⟨d, hd, ?_⟩
    exact (TextRules.persists_eq_iff hplain (by decide) (TextRules.persists_of_mem hd)).mpr hname

/-- A marker that no entry is named after comes beside all the entries kept. -/
theorem keepsFirst_of_marker_free (hnodup : (entries.map Prod.fst).Nodup)
    (hform : isBoundedForm entries = false)
    (hfree : ¬ (maxEventDictItems < entries.length ∧
      "_truncated" ∈ (entries.take maxEventDictItems).map Prod.fst)) :
    KeepsFirst P child path entries
      ((eventRules P []).persistedEntries P (entries.take maxEventDictItems))
      (redactEventMapping P child path entries) := by
  have hkept := keptEntries_of_unbounded hform
  have hbounded : ((redactEventMapping P child path entries).map Prod.fst).Nodup :=
    (TextRules.boundedMapping_redactMapping (lawful_eventRules P) hnodup).nodup
  have heq := TextRules.redactMapping_eq (R := eventRules P []) (P := P) child path hnodup
  rw [hkept] at heq
  refine ⟨?_, fun d hd => ?_, hbounded, ?_⟩
  · rw [TextRules.map_snd_persistedEntries]
    exact List.perm_insertionSort _ _
  · rcases TextRules.persists_of_mem hd with ⟨hopen, hname⟩ | ⟨hsecret, hname⟩
    · have hopen' : mappingNameIsSecretBearing P d.2.1 = false := hopen
      rw [hopen', if_neg Bool.false_ne_true]
      exact hname
    · have hsecret' : mappingNameIsSecretBearing P d.2.1 = true := hsecret
      rw [hsecret', if_pos rfl]
      exact hname
  · rw [redactEventMapping_eq_rules, heq]
    refine .of_eq ?_
    by_cases hcut : maxEventDictItems < entries.length
    · have hnone : ¬ (((eventRules P []).persistedEntries P
          (entries.take maxEventDictItems)).map Prod.fst).contains "_truncated" = true :=
        fun hmem => hfree ⟨hcut, contains_truncated_iff.mp hmem⟩
      rw [Bool.eq_false_iff.mpr hnone, decide_eq_true hcut]
      refine congrArg (· ++ _) (List.map_congr_left (fun d hd => ?_))
      have hname : d.1 ≠ "_truncated" := fun heq =>
        hnone (List.contains_iff_mem.mpr (heq ▸ List.mem_map_of_mem hd))
      simp [TextRules.persistedValue, hname]
    · rw [decide_eq_false hcut]
      simp [TextRules.persistedValue]

/-- An entry of the marker's own name is overwritten, so one entry fewer is stored. -/
theorem length_redactEventMapping_of_marker (hnodup : (entries.map Prod.fst).Nodup)
    (hform : isBoundedForm entries = false) (hcut : maxEventDictItems < entries.length)
    (hname : "_truncated" ∈ (entries.take maxEventDictItems).map Prod.fst) :
    (redactEventMapping P child path entries).length = maxEventDictItems := by
  have heq := TextRules.redactMapping_eq (R := eventRules P []) (P := P) child path hnodup
  rw [keptEntries_of_unbounded hform] at heq
  rw [redactEventMapping_eq_rules, heq, contains_truncated_iff.mpr hname]
  simp only [Bool.not_true, Bool.and_false, truncationEntry, Bool.false_eq_true, if_false,
    List.append_nil, List.length_map, TextRules.length_persistedEntries, List.length_take]
  omega

theorem not_keepsFirst_of_marker (hnodup : (entries.map Prod.fst).Nodup)
    (hform : isBoundedForm entries = false) (hcut : maxEventDictItems < entries.length)
    (hname : "_truncated" ∈ (entries.take maxEventDictItems).map Prod.fst)
    (named : List (String × String × Json)) :
    ¬ KeepsFirst P child path entries named (redactEventMapping P child path entries) := by
  intro hkeeps
  have hlength := hkeeps.values.length_eq
  have hfirst := hkeeps.first.length_eq
  rw [length_redactEventMapping_of_marker hnodup hform hcut hname, List.length_append,
    List.length_map, decide_eq_true hcut] at hlength
  simp only [List.length_map, List.length_take, truncationEntry, if_true, List.length_cons,
    List.length_nil] at hfirst hlength
  omega

/-- Nothing is lost or overwritten exactly when the mapping is within the limit or none of the
entries it keeps is named like the marker; the placeholder search always ends. -/
theorem mapping_entries_kept_iff (P : Platform) (child : String → List String → Json → Json)
    (path : List String) (entries : Entries) (hnodup : (entries.map Prod.fst).Nodup)
    (hform : isBoundedForm entries = false) :
    ((∃ named, KeepsFirst P child path entries named (redactEventMapping P child path entries)) ∧
        ∀ name taken rounds, taken.length < rounds →
          unusedPlaceholderFrom (keyedMappingName P name) taken rounds 1 (keyedMappingName P name) =
              unusedPlaceholder P name taken ∧
            unusedPlaceholder P name taken ∉ taken) ↔
      (entries.length ≤ maxEventDictItems ∨
        "_truncated" ∉ (entries.take maxEventDictItems).map Prod.fst) := by
  constructor
  · rintro ⟨⟨named, hkeeps⟩, _⟩
    by_contra hcond
    rw [not_or, not_le, not_not] at hcond
    exact not_keepsFirst_of_marker hnodup hform hcond.1 hcond.2 named hkeeps
  · intro hcond
    refine ⟨⟨_, keepsFirst_of_marker_free hnodup hform ?_⟩, unusedPlaceholder_terminates P⟩
    rintro ⟨hcut, hmem⟩
    rcases hcond with hle | hfree
    · omega
    · exact hfree hmem

end

/-! ## A mapping that loses an entry -/

def markedEntries : Entries :=
  ("_truncated", .str "x") ::
    (List.range 100).map (fun n => (String.ofList (List.replicate n 'a'), Json.null))

theorem nodup_markedEntries : (markedEntries.map Prod.fst).Nodup := by
  have hlength : ∀ n, (String.ofList (List.replicate n 'a')).toList.length = n := fun n => by simp
  rw [markedEntries, List.map_cons, List.map_map, List.nodup_cons]
  constructor
  · rw [List.mem_map]
    rintro ⟨n, _, heq⟩
    have hmem : '_' ∈ (String.ofList (List.replicate n 'a')).toList := by
      have hname : String.ofList (List.replicate n 'a') = "_truncated" := heq
      rw [hname]
      decide
    rw [String.toList_ofList, List.mem_replicate] at hmem
    exact absurd hmem.2 (by decide)
  · refine List.Nodup.map (fun m n heq => ?_) List.nodup_range
    have hname : String.ofList (List.replicate m 'a') = String.ofList (List.replicate n 'a') := heq
    rw [← hlength m, hname, hlength n]

theorem length_markedEntries : markedEntries.length = 101 := by
  rw [markedEntries, List.length_cons, List.length_map, List.length_range]

theorem isBoundedForm_markedEntries : isBoundedForm markedEntries = false := by
  rw [isBoundedForm, markedEntries, Json.find_cons, if_pos rfl]
  simp

theorem mapping_entries_kept_iff_marked :
    (markedEntries.map Prod.fst).Nodup ∧ isBoundedForm markedEntries = false ∧
      (((∃ named, KeepsFirst default (fun _ _ v => v) [] markedEntries named
          (redactEventMapping default (fun _ _ v => v) [] markedEntries)) ∧
        ∀ name taken rounds, taken.length < rounds →
          unusedPlaceholderFrom (keyedMappingName default name) taken rounds 1
              (keyedMappingName default name) = unusedPlaceholder default name taken ∧
            unusedPlaceholder default name taken ∉ taken) ↔
      (markedEntries.length ≤ maxEventDictItems ∨
        "_truncated" ∉ (markedEntries.take maxEventDictItems).map Prod.fst)) :=
  ⟨nodup_markedEntries, isBoundedForm_markedEntries, mapping_entries_kept_iff default _ _ _
    nodup_markedEntries isBoundedForm_markedEntries⟩

/-- The mapping holds a hundred and one entries; its stored form holds a hundred, and the marker
stands in place of the entry of its name. -/
theorem marker_overwrites_entry :
    markedEntries.length = 101 ∧
      (redactEventMapping default (fun _ _ v => v) [] markedEntries).length = 100 ∧
      ∀ named, ¬ KeepsFirst default (fun _ _ v => v) [] markedEntries named
        (redactEventMapping default (fun _ _ v => v) [] markedEntries) := by
  have hcut : maxEventDictItems < markedEntries.length := by
    rw [length_markedEntries]
    decide
  have hname : "_truncated" ∈ (markedEntries.take maxEventDictItems).map Prod.fst := by
    simp [markedEntries, maxEventDictItems]
  exact ⟨length_markedEntries, length_redactEventMapping_of_marker nodup_markedEntries
    isBoundedForm_markedEntries hcut hname, not_keepsFirst_of_marker nodup_markedEntries
    isBoundedForm_markedEntries hcut hname⟩

end NetboxRpc
