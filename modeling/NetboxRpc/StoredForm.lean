import NetboxRpc.TreeRedaction

/-!
# The stored form of a tree

What one pass of redaction leaves: mappings and lists within their bounds, names that are not
secret, texts and sensitive values that redaction keeps. A second pass only puts the keys in
order.
-/

namespace NetboxRpc

/-! ## Bounded mappings and lists -/

def truncationEntry (truncated : Bool) : List (String × Json) :=
  if truncated then [("_truncated", .bool true)] else []

section

variable {entries : List (String × Json)}

theorem keptEntries_sublist (entries : List (String × Json)) :
    List.Sublist (keptEntries entries).1 entries := by
  unfold keptEntries
  split_ifs
  · exact List.filter_sublist
  · exact List.take_sublist _ _

theorem nodup_keptEntries (hnodup : (entries.map Prod.fst).Nodup) :
    ((keptEntries entries).1.map Prod.fst).Nodup :=
  hnodup.sublist ((keptEntries_sublist entries).map Prod.fst)

theorem length_keptEntries (hnodup : (entries.map Prod.fst).Nodup) :
    (keptEntries entries).1.length ≤ maxEventDictItems ∧
      ((keptEntries entries).2 = true → (keptEntries entries).1.length = maxEventDictItems) := by
  unfold keptEntries
  split_ifs with hbounded
  · have hlength := (Json.perm_filter_append hnodup hbounded.2).length_eq
    rw [List.length_append, hbounded.1] at hlength
    simp only [List.length_cons, List.length_nil] at hlength
    constructor
    · simp only
      omega
    · intro _
      simp only
      omega
  · simp only [List.length_take, decide_eq_true_eq]
    omega

def BoundedSize (entries : List (String × Json)) : Prop :=
  entries.length ≤ maxEventDictItems ∨
    entries.length = maxEventDictItems + 1 ∧ Json.find entries "_truncated" = some (.bool true)

theorem keptEntries_perm (hnodup : (entries.map Prod.fst).Nodup) (h : BoundedSize entries) :
    entries.Perm ((keptEntries entries).1 ++ truncationEntry (keptEntries entries).2) := by
  unfold keptEntries
  split_ifs with hbounded
  · exact Json.perm_filter_append hnodup hbounded.2
  · have hle : entries.length ≤ maxEventDictItems := h.resolve_right hbounded
    rw [List.take_of_length_le hle, decide_eq_false (by omega)]
    simp [truncationEntry]

theorem name_ne_of_keptEntries (h : BoundedSize entries) (hflag : (keptEntries entries).2 = true) :
    ∀ e ∈ (keptEntries entries).1, e.1 ≠ "_truncated" := by
  unfold keptEntries at hflag ⊢
  split_ifs at hflag ⊢ with hbounded
  · intro e he
    simpa using (List.mem_filter.mp he).2
  · have hle : entries.length ≤ maxEventDictItems := h.resolve_right hbounded
    simp only [decide_eq_true_eq] at hflag
    omega

theorem keptEntries_append {truncated : Bool} (hle : entries.length ≤ maxEventDictItems)
    (hfull : truncated = true → entries.length = maxEventDictItems)
    (hname : truncated = true → ∀ e ∈ entries, e.1 ≠ "_truncated") :
    keptEntries (entries ++ truncationEntry truncated) = (entries, truncated) := by
  cases truncated with
  | false => rw [truncationEntry, if_neg Bool.false_ne_true, List.append_nil,
      keptEntries_of_length_le hle]
  | true =>
    have hrest : entries.filter (fun e => e.1 != "_truncated") = entries := by
      rw [List.filter_eq_self]
      intro e he
      simpa using hname rfl e he
    have hnone : Json.find entries "_truncated" = none := by
      cases hfind : Json.find entries "_truncated" with
      | none => rfl
      | some v => exact absurd rfl (hname rfl _ (Json.mem_of_find hfind))
    have hfind : Json.find (entries ++ [("_truncated", Json.bool true)]) "_truncated" =
        some (.bool true) := by
      simp only [Json.find, Option.map_eq_none_iff] at hnone
      simp [Json.find, List.find?_append, hnone]
    rw [truncationEntry, if_pos rfl, keptEntries,
      if_pos ⟨by simp [hfull rfl], hfind⟩, List.filter_append, hrest]
    simp

def BoundedList (items marker : List Json) : Prop :=
  marker = [] ∧ items.length ≤ maxEventListItems ∨
    ∃ m, marker = [m] ∧ isTruncationMarker m = true ∧ items.length = maxEventListItems

theorem boundedList_keptItems (items : List Json) :
    BoundedList (keptItems items).1 (keptItems items).2 := by
  unfold keptItems
  split_ifs with hbounded hlong
  · obtain ⟨hlength, hmarker⟩ := hbounded
    cases hlast : items.getLast? with
    | none => simp [hlast] at hmarker
    | some m =>
      refine .inr ⟨m, rfl, by simpa [hlast] using hmarker, ?_⟩
      simp only [List.length_dropLast]
      omega
  · refine .inr ⟨_, rfl, ?_, by simp only [List.length_take]; omega⟩
    simp [isTruncationMarker, Json.find, isExactInt]
  · refine .inl ⟨rfl, ?_⟩
    simp only [List.length_take]
    omega

theorem keptItems_sublist (items : List Json) : List.Sublist (keptItems items).1 items := by
  unfold keptItems
  split_ifs
  · exact List.dropLast_sublist _
  · exact List.take_sublist _ _
  · exact List.take_sublist _ _

theorem BoundedList.map {items marker : List Json} (h : BoundedList items marker) (f : Json → Json) :
    BoundedList (items.map f) marker := by
  simpa only [BoundedList, List.length_map] using h

theorem keptItems_append {items marker : List Json} (h : BoundedList items marker) :
    keptItems (items ++ marker) = (items, marker) := by
  rcases h with ⟨rfl, hle⟩ | ⟨m, rfl, hm, hlength⟩
  · rw [List.append_nil, keptItems, if_neg (by omega), if_neg (by omega),
      List.take_of_length_le hle]
  · rw [keptItems, if_pos ⟨by simp [hlength], by simp [hm]⟩]
    simp

end

namespace TextRules

/-- What the rules must keep for a second pass to find nothing new. -/
structure Lawful (R : TextRules) (P : Platform) : Prop where
  placeholder : ∀ name n, R.secretName (numbered (keyedMappingName P name) n) = false
  references : R.secretName "credential_references" = false
  authority : R.secretName "credential_authority_sha256" = false
  policy : R.secretName "credential_policy_ref" = false
  text_redacted : ∀ path, R.text path "[REDACTED]" = "[REDACTED]"
  text_truncated : ∀ path, R.text path "[truncated]" = "[truncated]"
  text_reference : ∀ path s, isVaultedSecretReference (.str s) = true → R.text path s = s
  /-- A string bound does not depend on a name that is persisted as a placeholder. -/
  text_path : ∀ path path', List.Forall₂ (R.Renamed P) path path' → R.text path' = R.text path

structure BoundedMapping (R : TextRules) (entries : List (String × Json)) : Prop where
  nodup : (entries.map Prod.fst).Nodup
  openName : ∀ e ∈ (keptEntries entries).1, R.secretName e.1 = false
  size : BoundedSize entries

section

variable {R : TextRules} {P : Platform} {entries : List (String × Json)}
  (child : String → List String → Json → Json) (path : List String)

def persistedValue (truncated : Bool) (d : String × String × Json) : Json :=
  if truncated = true ∧ d.1 = "_truncated" then .bool true
  else child d.2.1 (path ++ [d.2.1]) d.2.2

/-- The entries of a redacted mapping, in their order. -/
theorem redactMapping_eq (hnodup : (entries.map Prod.fst).Nodup) :
    R.redactMapping P child path entries =
      (R.persistedEntries P (keptEntries entries).1).map
        (fun d => (d.1, persistedValue child path (keptEntries entries).2 d)) ++
      truncationEntry ((keptEntries entries).2 &&
        !((R.persistedEntries P (keptEntries entries).1).map Prod.fst).contains "_truncated") := by
  have hnames := nodup_persistedEntries (R := R) (P := P) (nodup_keptEntries hnodup)
  generalize hflag : (keptEntries entries).2 = truncated
  simp only [redactMapping, hflag]
  rw [Json.foldl_set Prod.fst (fun d : String × String × Json =>
    child d.2.1 (path ++ [d.2.1]) d.2.2) _ hnames]
  generalize R.persistedEntries P (keptEntries entries).1 = resolved
  cases truncated with
  | false => simp [persistedValue, truncationEntry]
  | true =>
    have hany : ((resolved.map (fun d : String × String × Json =>
        (d.1, child d.2.1 (path ++ [d.2.1]) d.2.2))).any (fun e => e.1 == "_truncated")) =
          (resolved.map Prod.fst).contains "_truncated" := by
      rw [List.any_map, List.contains_eq_any_beq, List.any_map]
      exact List.any_congr rfl (fun d => BEq.comm)
    rw [if_pos rfl, Json.set, hany]
    by_cases hmem : (resolved.map Prod.fst).contains "_truncated" = true
    · rw [if_pos hmem, hmem, List.map_map]
      simp only [Bool.not_true, Bool.and_false, truncationEntry, Bool.false_eq_true, if_false,
        List.append_nil]
      refine List.map_congr_left (fun d _ => ?_)
      by_cases hname : d.1 = "_truncated" <;> simp [persistedValue, hname]
    · rw [if_neg hmem, Bool.eq_false_iff.mpr hmem]
      simp only [Bool.not_false, Bool.and_true, truncationEntry, if_true]
      refine congrArg (· ++ _) (List.map_congr_left (fun d hd => ?_))
      have hname : d.1 ≠ "_truncated" := fun heq =>
        hmem (List.contains_iff_mem.mpr (heq ▸ List.mem_map_of_mem hd))
      simp [persistedValue, hname]

variable {child path}

theorem mem_redactMapping (hnodup : (entries.map Prod.fst).Nodup) {e : String × Json}
    (he : e ∈ R.redactMapping P child path entries) :
    e = ("_truncated", .bool true) ∨ ∃ d ∈ R.persistedEntries P (keptEntries entries).1,
      ¬ ((keptEntries entries).2 = true ∧ d.1 = "_truncated") ∧
        e = (d.1, child d.2.1 (path ++ [d.2.1]) d.2.2) := by
  rw [redactMapping_eq child path hnodup, List.mem_append] at he
  rcases he with he | he
  · obtain ⟨d, hd, rfl⟩ := List.mem_map.mp he
    by_cases hover : (keptEntries entries).2 = true ∧ d.1 = "_truncated"
    · left
      rw [persistedValue, if_pos hover, hover.2]
    · right
      refine ⟨d, hd, hover, ?_⟩
      rw [persistedValue, if_neg hover]
  · left
    unfold truncationEntry at he
    split_ifs at he
    · exact List.mem_singleton.mp he
    · cases he

theorem boundedMapping_redactMapping (hR : R.Lawful P) (hnodup : (entries.map Prod.fst).Nodup) :
    R.BoundedMapping (R.redactMapping P child path entries) := by
  have hlength := length_keptEntries hnodup
  have hnames := nodup_persistedEntries (R := R) (P := P) (nodup_keptEntries hnodup)
  have hlist : (R.redactMapping P child path entries).map Prod.fst =
      (R.persistedEntries P (keptEntries entries).1).map Prod.fst ++
        (truncationEntry ((keptEntries entries).2 && !((R.persistedEntries P
          (keptEntries entries).1).map Prod.fst).contains "_truncated")).map Prod.fst := by
    rw [redactMapping_eq child path hnodup, List.map_append, List.map_map]
    rfl
  have hresult : ((R.redactMapping P child path entries).map Prod.fst).Nodup := by
    rw [hlist]
    unfold truncationEntry
    split_ifs with hmark
    · simp only [Bool.and_eq_true, Bool.not_eq_true', List.contains_eq_mem, decide_eq_false_iff_not]
        at hmark
      exact List.nodup_append.mpr ⟨hnames, List.nodup_singleton _, fun a ha b hb => by
        rintro rfl
        have hname : a = "_truncated" := List.mem_singleton.mp hb
        exact hmark.2 (hname ▸ ha)⟩
    · simpa using hnames
  have hbounded : BoundedSize (R.redactMapping P child path entries) := by
    have hsize : (R.redactMapping P child path entries).length = (keptEntries entries).1.length +
        (truncationEntry ((keptEntries entries).2 && !((R.persistedEntries P
          (keptEntries entries).1).map Prod.fst).contains "_truncated")).length := by
      rw [redactMapping_eq child path hnodup, List.length_append, List.length_map,
        length_persistedEntries]
    cases hmark : ((keptEntries entries).2 && !((R.persistedEntries P
        (keptEntries entries).1).map Prod.fst).contains "_truncated") with
    | false =>
      left
      rw [hsize, hmark]
      exact hlength.1
    | true =>
      right
      refine ⟨?_, ?_⟩
      · rw [hsize, hmark, hlength.2 (Bool.and_eq_true_iff.mp hmark).1]
        rfl
      · rw [Json.find_eq_some_iff hresult, redactMapping_eq child path hnodup, hmark]
        exact List.mem_append_right _ (List.mem_singleton_self _)
  refine ⟨hresult, fun e he => ?_, hbounded⟩
  have hmem := (keptEntries_sublist _).subset he
  rw [redactMapping_eq child path hnodup, List.mem_append] at hmem
  rcases hmem with hmem | hmark
  · obtain ⟨d, hd, rfl⟩ := List.mem_map.mp hmem
    rcases persists_of_mem hd with ⟨hopen, heq⟩ | ⟨_, n, heq⟩
    · exact heq ▸ hopen
    · exact heq ▸ hR.placeholder d.2.1 n
  · -- The marker is kept apart from the entries of a mapping that it completes.
    unfold truncationEntry at hmark
    split_ifs at hmark with hflag
    · have hname : e.1 = "_truncated" := congrArg Prod.fst (List.mem_singleton.mp hmark)
      have hfull : (keptEntries (R.redactMapping P child path entries)).2 = true := by
        rcases hbounded with hle | hover
        · rw [redactMapping_eq child path hnodup, List.length_append, List.length_map,
            length_persistedEntries, hflag, hlength.2 (Bool.and_eq_true_iff.mp hflag).1] at hle
          exact absurd hle (by simp [truncationEntry])
        · rw [keptEntries, if_pos hover]
      exact absurd hname (name_ne_of_keptEntries hbounded hfull e he)
    · cases hmark

/-- A second pass over a bounded mapping redacts each entry under its own name, in name order, and
keeps the marker. -/
theorem BoundedMapping.redactMapping (h : R.BoundedMapping entries) :
    R.redactMapping P child path entries =
      ((keptEntries entries).1.insertionSort Json.keyLe).map
        (fun e => (e.1, child e.1 (path ++ [e.1]) e.2)) ++ truncationEntry (keptEntries entries).2 := by
  have hopen : ∀ e ∈ (keptEntries entries).1, R.secretName e.1 = false := fun e he =>
    h.openName e he
  have hname : (keptEntries entries).2 = true →
      ∀ e ∈ (keptEntries entries).1.insertionSort Json.keyLe, e.1 ≠ "_truncated" :=
    fun hflag e he => name_ne_of_keptEntries h.size hflag e ((List.mem_insertionSort _).mp he)
  have hmark : ((keptEntries entries).2 && !((((keptEntries entries).1.insertionSort Json.keyLe).map
      (fun e => (e.1, e.1, e.2))).map Prod.fst).contains "_truncated") = (keptEntries entries).2 := by
    cases hflag : (keptEntries entries).2 with
    | false => rfl
    | true =>
      rw [Bool.true_and, Bool.not_eq_true', List.contains_eq_mem, decide_eq_false_iff_not,
        List.map_map, List.mem_map]
      rintro ⟨e, he, heq⟩
      exact hname hflag e he heq
  rw [redactMapping_eq child path h.nodup, persistedEntries_of_open hopen, hmark, List.map_map]
  refine congrArg (· ++ _) (List.map_congr_left (fun e he => ?_))
  have hkept : ¬ ((keptEntries entries).2 = true ∧ e.1 = "_truncated") := fun ⟨hflag, heq⟩ =>
    hname hflag e he heq
  simp only [Function.comp_apply, persistedValue, if_neg hkept]

/-- A second pass over a bounded mapping that changes no value changes the key order only. -/
theorem BoundedMapping.keyEq (h : R.BoundedMapping entries)
    (hchild : ∀ e ∈ (keptEntries entries).1, Json.KeyEq (child e.1 (path ++ [e.1]) e.2) e.2) :
    Json.KeyEq (.obj (R.redactMapping P child path entries)) (.obj entries) := by
  have hperm := keptEntries_perm h.nodup h.size
  have hsame : Json.KeyEq (.obj ((keptEntries entries).1 ++ truncationEntry (keptEntries entries).2))
      (.obj entries) :=
    Json.keyEq_obj_of_perm (f := Prod.snd) (hperm.symm.trans (.of_eq (List.map_id _).symm)) h.nodup
      (fun _ _ => rfl)
  refine Eq.trans ?_ hsame
  have hnodup := (hperm.map Prod.fst).nodup_iff.mp h.nodup
  let f : String × Json → Json := fun e =>
    if e ∈ (keptEntries entries).1 then child e.1 (path ++ [e.1]) e.2 else e.2
  refine Json.keyEq_obj_of_perm (f := f) ?_ hnodup (fun e _ => ?_)
  · rw [h.redactMapping, List.map_append]
    refine List.Perm.append ?_ (.of_eq ?_)
    · refine ((List.perm_insertionSort Json.keyLe _).map _).trans (.of_eq ?_)
      exact List.map_congr_left (fun e he => by simp [f, he])
    · -- The marker is not among the entries kept beside it.
      refine (List.map_id _).symm.trans (List.map_congr_left (fun e he => ?_))
      have hout : e ∉ (keptEntries entries).1 := fun hmem => by
        rw [List.map_append, List.nodup_append] at hnodup
        exact hnodup.2.2 e.1 (List.mem_map_of_mem hmem) e.1 (List.mem_map_of_mem he) rfl
      simp [f, hout]
  · by_cases he : e ∈ (keptEntries entries).1
    · simpa [f, he] using hchild e he
    · simp [f, he, Json.KeyEq]

/-- After the second pass the order is by name, and a third pass changes nothing. -/
theorem BoundedMapping.redactMapping_twice (h : R.BoundedMapping entries) (hR : R.Lawful P)
    (hchild : ∀ e ∈ (keptEntries entries).1, child e.1 (path ++ [e.1])
      (child e.1 (path ++ [e.1]) e.2) = child e.1 (path ++ [e.1]) e.2) :
    R.redactMapping P child path (R.redactMapping P child path entries) =
      R.redactMapping P child path entries := by
  have hbounded := @boundedMapping_redactMapping _ _ _ child path hR h.nodup
  have hlength := length_keptEntries h.nodup
  have hkept : keptEntries (R.redactMapping P child path entries) =
      (((keptEntries entries).1.insertionSort Json.keyLe).map
        (fun e => (e.1, child e.1 (path ++ [e.1]) e.2)), (keptEntries entries).2) := by
    rw [h.redactMapping]
    refine keptEntries_append (by simpa using hlength.1) (by simpa using hlength.2)
      (fun hflag e he => ?_)
    obtain ⟨d, hd, rfl⟩ := List.mem_map.mp he
    exact name_ne_of_keptEntries h.size hflag d ((List.mem_insertionSort _).mp hd)
  have hsorted : (((keptEntries entries).1.insertionSort Json.keyLe).map
      (fun e => (e.1, child e.1 (path ++ [e.1]) e.2))).insertionSort Json.keyLe =
        ((keptEntries entries).1.insertionSort Json.keyLe).map
          (fun e => (e.1, child e.1 (path ++ [e.1]) e.2)) := by
    refine List.Pairwise.insertionSort_eq ?_
    rw [List.pairwise_map]
    exact List.pairwise_insertionSort Json.keyLe _
  rw [hbounded.redactMapping, hkept]
  simp only
  rw [hsorted, h.redactMapping, List.map_map]
  refine congrArg (· ++ _) (List.map_congr_left (fun e he => ?_))
  exact Prod.ext rfl (hchild e ((List.mem_insertionSort _).mp he))

/-- Every entry that the marker does not replace is an entry of the second pass. -/
theorem mem_keptEntries_redactMapping (hR : R.Lawful P) (hnodup : (entries.map Prod.fst).Nodup)
    {d : String × String × Json} (hd : d ∈ R.persistedEntries P (keptEntries entries).1)
    (hkept : ¬ ((keptEntries entries).2 = true ∧ d.1 = "_truncated")) :
    (d.1, child d.2.1 (path ++ [d.2.1]) d.2.2) ∈
      (keptEntries (R.redactMapping P child path entries)).1 := by
  have hbounded := @boundedMapping_redactMapping _ _ _ child path hR hnodup
  have hmem : (d.1, child d.2.1 (path ++ [d.2.1]) d.2.2) ∈ R.redactMapping P child path entries := by
    rw [redactMapping_eq child path hnodup]
    refine List.mem_append_left _ (List.mem_map.mpr ⟨d, hd, ?_⟩)
    rw [persistedValue, if_neg hkept]
  rw [(keptEntries_perm hbounded.nodup hbounded.size).mem_iff, List.mem_append] at hmem
  refine hmem.resolve_right (fun hmark => ?_)
  unfold truncationEntry at hmark
  split_ifs at hmark with hflag
  · -- The second pass finds the marker only where the first pass wrote it.
    have hname : d.1 = "_truncated" := congrArg Prod.fst (List.mem_singleton.mp hmark)
    have hfirst : (keptEntries entries).2 = false := by simpa [hname] using hkept
    have hlength := (length_keptEntries hnodup).1
    have hsize : (R.redactMapping P child path entries).length ≤ maxEventDictItems := by
      rw [redactMapping_eq child path hnodup, hfirst]
      simpa [truncationEntry, length_persistedEntries] using hlength
    rw [keptEntries, if_neg (by omega)] at hflag
    simp only [decide_eq_true_eq] at hflag
    omega
  · cases hmark

end

/-! ## Stored trees -/

section

variable (R : TextRules) (P : Platform)

def storedLevel (child : Option (String → List String → Json → Prop)) (key : String)
    (path : List String) (value : Json) : Prop :=
  if key ≠ "" ∧ isBooleanPolicyKey key = true then (∃ b, value = .bool b) ∨ value = redacted
  else if key ≠ "" ∧ isSensitiveKey key = true then redactSensitiveValue P key value = value
  else match value, child with
    | .obj _, none | .arr _, none => False
    | .obj entries, some child => R.BoundedMapping entries ∧
        ∀ e ∈ (keptEntries entries).1, child e.1 (path ++ [e.1]) e.2
    | .arr items, some child => items = (keptItems items).1 ++ (keptItems items).2 ∧
        ∀ v ∈ (keptItems items).1, child key (path ++ ["*"]) v
    | .str s, _ => R.text path s = s
    | _, _ => True

def storedLevels : ℕ → String → List String → Json → Prop
  | 0 => storedLevel R P none
  | n + 1 => storedLevel R P (some (storedLevels n))

/-- Every text that redaction reaches passes `leaf`, given its path. -/
def settledLevel (leaf : List String → String → Bool)
    (child : Option (String → List String → Json → Bool)) (key : String) (path : List String)
    (value : Json) : Bool :=
  if key ≠ "" ∧ (isBooleanPolicyKey key = true ∨ isSensitiveKey key = true) then true
  else match value, child with
    | .obj entries, some child => (keptEntries entries).1.all (fun e =>
        (keptEntries entries).2 && e.1 == "_truncated" || child e.1 (path ++ [e.1]) e.2)
    | .arr items, some child => (keptItems items).1.all (child key (path ++ ["*"]))
    | .str s, _ => leaf path s
    | _, _ => true

def settledLevels (leaf : List String → String → Bool) : ℕ → String → List String → Json → Bool
  | 0 => settledLevel leaf none
  | n + 1 => settledLevel leaf (some (settledLevels leaf n))

theorem settledLevel_mono {leaf leaf' : List String → String → Bool}
    {child child' : Option (String → List String → Json → Bool)}
    (hleaf : ∀ path s, leaf path s = true → leaf' path s = true)
    (hchild : ∀ c', child' = some c' → ∃ c, child = some c ∧ ∀ key path v, c key path v = true →
      c' key path v = true)
    {key : String} {path : List String} {v : Json} (h : settledLevel leaf child key path v = true) :
    settledLevel leaf' child' key path v = true := by
  unfold settledLevel at h ⊢
  split_ifs at h ⊢
  · rfl
  · cases v with
    | str s => exact hleaf _ _ h
    | obj entries =>
      cases child' with
      | none => rfl
      | some c' =>
        obtain ⟨c, rfl, hc⟩ := hchild c' rfl
        refine List.all_eq_true.mpr (fun e he => ?_)
        exact Bool.or_eq_true_iff.mpr ((Bool.or_eq_true_iff.mp (List.all_eq_true.mp h e he)).imp_right
          (hc _ _ _))
    | arr items =>
      cases child' with
      | none => rfl
      | some c' =>
        obtain ⟨c, rfl, hc⟩ := hchild c' rfl
        exact List.all_eq_true.mpr (fun v hv => hc _ _ _ (List.all_eq_true.mp h v hv))
    | null | bool b | int n | float q => rfl

theorem settledLevels_mono {leaf leaf' : List String → String → Bool}
    (hleaf : ∀ path s, leaf path s = true → leaf' path s = true) {n : ℕ} {key : String}
    {path : List String} {v : Json} (h : settledLevels leaf n key path v = true) :
    settledLevels leaf' n key path v = true := by
  induction n generalizing key path v with
  | zero => exact settledLevel_mono hleaf (fun _ hnone => by cases hnone) h
  | succ n ih =>
    refine settledLevel_mono hleaf (fun c' hc' => ⟨_, rfl, fun key path v hv => ?_⟩) h
    rw [← Option.some.inj hc']
    exact ih hv

variable {R P}

/-! ### A second pass -/

theorem keyEq_level {child : Option (String → List String → Json → Json)}
    {stored : Option (String → List String → Json → Prop)}
    (hchild : ∀ s, stored = some s → ∃ c, child = some c ∧ ∀ key path v, s key path v →
      Json.KeyEq (c key path v) v)
    {key : String} {path : List String} {v : Json} (h : R.storedLevel P stored key path v) :
    Json.KeyEq (R.level P child key path v) v := by
  unfold storedLevel at h
  unfold level
  split_ifs at h ⊢ with hboolean hsensitive
  · rcases h with ⟨b, rfl⟩ | rfl <;> rfl
  · rw [h]
    rfl
  · cases v with
    | obj entries =>
      cases stored with
      | none => exact h.elim
      | some s =>
        obtain ⟨c, rfl, hc⟩ := hchild s rfl
        exact h.1.keyEq (fun e he => hc _ _ _ (h.2 e he))
    | arr items =>
      cases stored with
      | none => exact h.elim
      | some s =>
        obtain ⟨c, rfl, hc⟩ := hchild s rfl
        obtain ⟨hitems, hall⟩ := h
        show Json.KeyEq (.arr (redactEventSequence c key path items)) (.arr items)
        rw [redactEventSequence, Json.keyEq_arr_iff]
        nth_rewrite 3 [hitems]
        refine List.rel_append (R := Json.KeyEq) ?_ ?_
        · rw [List.forall₂_map_left_iff, List.forall₂_same]
          exact fun v hv => hc _ _ _ (hall v hv)
        · exact List.forall₂_same.mpr (fun _ _ => rfl)
    | str s => exact congrArg (fun t => (Json.str t).sorted) h
    | null | bool b | int n | float q => rfl

theorem keyEq_levels {n : ℕ} {key : String} {path : List String} {v : Json}
    (h : R.storedLevels P n key path v) : Json.KeyEq (R.levels P n key path v) v := by
  induction n generalizing key path v with
  | zero => exact keyEq_level (by simp) h
  | succ n ih =>
    refine keyEq_level (fun s hs => ⟨R.levels P n, rfl, fun key path v hv => ?_⟩) h
    obtain rfl := Option.some.inj hs
    exact ih hv

theorem level_twice (hR : R.Lawful P) {child : Option (String → List String → Json → Json)}
    {stored : Option (String → List String → Json → Prop)}
    (hchild : ∀ s, stored = some s → ∃ c, child = some c ∧ ∀ key path v, s key path v →
      c key path (c key path v) = c key path v)
    {key : String} {path : List String} {v : Json} (h : R.storedLevel P stored key path v) :
    R.level P child key path (R.level P child key path v) = R.level P child key path v := by
  unfold storedLevel at h
  by_cases hboolean : key ≠ "" ∧ isBooleanPolicyKey key = true
  · rw [if_pos hboolean] at h
    rcases h with ⟨b, rfl⟩ | rfl <;> simp [level, hboolean, redacted]
  · by_cases hsensitive : key ≠ "" ∧ isSensitiveKey key = true
    · rw [if_neg hboolean, if_pos hsensitive] at h
      simp only [level_sensitive hboolean hsensitive, h]
    · rw [if_neg hboolean, if_neg hsensitive] at h
      have hopen : OpenKey key := ⟨hboolean, hsensitive⟩
      cases v with
      | obj entries =>
        cases stored with
        | none => exact h.elim
        | some s =>
          obtain ⟨c, rfl, hc⟩ := hchild s rfl
          rw [level_obj hopen, level_obj hopen,
            h.1.redactMapping_twice hR (fun e he => hc _ _ _ (h.2 e he))]
      | arr items =>
        cases stored with
        | none => exact h.elim
        | some s =>
          obtain ⟨c, rfl, hc⟩ := hchild s rfl
          rw [level_arr hopen, level_arr hopen, redactEventSequence, redactEventSequence,
            keptItems_append ((boundedList_keptItems items).map _), List.map_map]
          refine congrArg (fun l => Json.arr (l ++ _)) (List.map_congr_left (fun v hv => ?_))
          exact hc _ _ _ (h.2 v hv)
      | str s => simp only [level_str hopen, h]
      | null | bool b | int n | float q => simp only [level, if_neg hboolean, if_neg hsensitive]

theorem levels_twice (hR : R.Lawful P) {n : ℕ} {key : String} {path : List String} {v : Json}
    (h : R.storedLevels P n key path v) :
    R.levels P n key path (R.levels P n key path v) = R.levels P n key path v := by
  induction n generalizing key path v with
  | zero => exact level_twice hR (by simp) h
  | succ n ih =>
    refine level_twice hR (fun s hs => ⟨R.levels P n, rfl, fun key path v hv => ?_⟩) h
    obtain rfl := Option.some.inj hs
    exact ih hv

/-! ### The first pass -/

/-- A sensitive value is kept as a boolean, as public metadata or as a reference, or is replaced. -/
theorem redactSensitiveValue_cases (P : Platform) (key : String) (v : Json) :
    (∃ b, redactSensitiveValue P key v = .bool b) ∨
      publicCredentialMetadata P v key = some (redactSensitiveValue P key v) ∨
      isVaultedSecretReference (redactSensitiveValue P key v) = true ∨
      redactSensitiveValue P key v = redacted := by
  unfold redactSensitiveValue
  split
  · exact .inl ⟨_, rfl⟩
  · split
    · next hmetadata => exact .inr (.inl hmetadata)
    · split_ifs with hvaulted
      · exact .inr (.inr (.inl hvaulted))
      · exact .inr (.inr (.inr rfl))

/-- Under a sensitive key a reference and the marker stay; metadata that is text is that text. -/
theorem redactSensitiveValue_str (P : Platform) (key : String) {s : String}
    (h : isVaultedSecretReference (.str s) = true ∨ Json.str s = redacted) :
    redactSensitiveValue P key (.str s) = .str s := by
  have hsame : ∀ m, publicCredentialMetadata P (.str s) key = some m → m = .str s := by
    intro m hm
    unfold publicCredentialMetadata at hm
    split_ifs at hm <;> simp_all [validateNamedReferences]
  simp only [redactSensitiveValue]
  split
  · next m hm => exact hsame m hm
  · split_ifs with hvaulted
    · rfl
    · exact (h.resolve_left hvaulted).symm

theorem redactSensitiveValue_idem {P : Platform} (hP : P.Implements referenceSchema)
    {key : String} {v : Json} (hwf : v.wellFormed = true) :
    redactSensitiveValue P key (redactSensitiveValue P key v) = redactSensitiveValue P key v := by
  have hcases := redactSensitiveValue_cases P key v
  have hmetadata : publicCredentialMetadata P v key = some (redactSensitiveValue P key v) →
      publicCredentialMetadata P (redactSensitiveValue P key v) key =
        some (redactSensitiveValue P key v) := publicCredentialMetadata_idem hP hwf
  generalize redactSensitiveValue P key v = w at hcases hmetadata ⊢
  rcases hcases with ⟨b, rfl⟩ | hpublic | hvaulted | rfl
  · rfl
  · have hback := hmetadata hpublic
    cases w <;> simp_all [redactSensitiveValue]
  · cases w with
    | str s => exact redactSensitiveValue_str P key (.inl hvaulted)
    | null | bool b | int n | float q | arr items | obj entries => cases hvaulted
  · exact redactSensitiveValue_str P key (.inr rfl)

section

variable {stored : Option (String → List String → Json → Prop)} {key : String} {path : List String}

theorem storedLevel_str (h : OpenKey key) {s : String} (hs : R.text path s = s) :
    R.storedLevel P stored key path (.str s) := by
  cases stored <;> simpa only [storedLevel, if_neg h.boolean, if_neg h.sensitive] using hs

theorem storedLevel_bool (h : OpenKey key) (b : Bool) :
    R.storedLevel P stored key path (.bool b) := by
  cases stored <;> simp only [storedLevel, if_neg h.boolean, if_neg h.sensitive]

theorem storedLevel_redacted (hR : R.Lawful P) (h : OpenKey key) :
    R.storedLevel P stored key path redacted := storedLevel_str h (hR.text_redacted path)

end

theorem secretName_of_metadata (hR : R.Lawful P) {v m : Json} {key : String}
    (h : publicCredentialMetadata P v key = some m) : R.secretName key = false := by
  unfold publicCredentialMetadata at h
  split_ifs at h with hreferences hauthority _ hpolicy
  · exact hreferences ▸ hR.references
  · exact hauthority ▸ hR.authority
  · exact hpolicy ▸ hR.policy

/-- One pass leaves a stored level. -/
theorem storedLevel_level (hP : P.Implements referenceSchema) (hR : R.Lawful P)
    {leaf : List String → String → Bool}
    (hleaf : ∀ path s, leaf path s = true → R.text path (R.text path s) = R.text path s)
    {child : Option (String → List String → Json → Json)}
    {stored : Option (String → List String → Json → Prop)}
    {settled : Option (String → List String → Json → Bool)}
    (hchild : ∀ c, child = some c → ∃ st se, stored = some st ∧ settled = some se ∧
      (∀ path, st "_truncated" path (.bool true)) ∧
      (R.secretName "_truncated" = false ∨ ∀ key path v, se key path v = true) ∧
      ∀ {key key' path path' v}, R.Renamed P key key' → List.Forall₂ (R.Renamed P) path path' →
        v.wellFormed = true → se key path v = true → st key' path' (c key path v))
    {key key' : String} {path path' : List String} {v : Json} (hkey : R.Renamed P key key')
    (hpath : List.Forall₂ (R.Renamed P) path path') (hwf : v.wellFormed = true)
    (hsettled : settledLevel leaf settled key path v = true) :
    R.storedLevel P stored key' path' (R.level P child key path v) := by
  by_cases hboolean : key ≠ "" ∧ isBooleanPolicyKey key = true
  · have hcases : (∃ b, R.level P child key path v = .bool b) ∨
        R.level P child key path v = redacted := by
      simp only [level, if_pos hboolean]
      split
      · exact .inl ⟨_, rfl⟩
      · exact .inr rfl
    rcases hkey.cases with rfl | ⟨_, hopen⟩
    · simpa only [storedLevel, if_pos hboolean] using hcases
    · rcases hcases with ⟨b, hb⟩ | hmarker
      · exact hb ▸ storedLevel_bool hopen b
      · exact hmarker ▸ storedLevel_redacted hR hopen
  by_cases hsensitive : key ≠ "" ∧ isSensitiveKey key = true
  · rw [level_sensitive hboolean hsensitive]
    rcases hkey.cases with rfl | ⟨hsecret, hopen⟩
    · simp only [storedLevel, if_neg hboolean, if_pos hsensitive]
      exact redactSensitiveValue_idem hP hwf
    · -- The name was secret itself, so the second pass reads the value under a placeholder.
      rcases redactSensitiveValue_cases P key v with ⟨b, hb⟩ | hpublic | hvaulted | hmarker
      · exact hb ▸ storedLevel_bool hopen b
      · rw [secretName_of_metadata hR hpublic] at hsecret
        cases hsecret
      · generalize redactSensitiveValue P key v = w at hvaulted ⊢
        cases w with
        | str s => exact storedLevel_str hopen (hR.text_reference path' s hvaulted)
        | null | bool b | int n | float q | arr items | obj entries => cases hvaulted
      · exact hmarker ▸ storedLevel_redacted hR hopen
  have hopen : OpenKey key := ⟨hboolean, hsensitive⟩
  have hopen' := hkey.openKey hopen
  have hguard : ¬ (key ≠ "" ∧ (isBooleanPolicyKey key = true ∨ isSensitiveKey key = true)) := by
    rintro ⟨hne, h | h⟩
    · exact hboolean ⟨hne, h⟩
    · exact hsensitive ⟨hne, h⟩
  unfold settledLevel at hsettled
  rw [if_neg hguard] at hsettled
  cases v with
  | obj entries =>
    cases child with
    | none =>
      simp only [level, if_neg hboolean, if_neg hsensitive]
      exact storedLevel_str hopen' (hR.text_truncated path')
    | some c =>
      obtain ⟨st, se, rfl, rfl, hmarker, htruncated, hc⟩ := hchild c rfl
      obtain ⟨hnodup, hvalues⟩ := Json.wellFormed_obj_iff.mp hwf
      rw [level_obj hopen]
      simp only [storedLevel, if_neg hopen'.boolean, if_neg hopen'.sensitive]
      refine ⟨boundedMapping_redactMapping hR hnodup, fun e he => ?_⟩
      rcases mem_redactMapping hnodup ((keptEntries_sublist _).subset he) with
        rfl | ⟨d, hd, hover, rfl⟩
      · exact hmarker _
      · have hkept := mem_of_mem_persistedEntries hd
        refine hc (.inr (persists_of_mem hd))
          (List.rel_append hpath (List.Forall₂.cons (.inr (persists_of_mem hd)) .nil))
          (hvalues _ ((keptEntries_sublist _).subset hkept)) ?_
        rcases htruncated with hopenName | hall
        · have hentry := List.all_eq_true.mp hsettled d.2 hkept
          refine (Bool.or_eq_true_iff.mp hentry).resolve_left (fun hflag => hover ?_)
          rw [Bool.and_eq_true, beq_iff_eq] at hflag
          exact ⟨hflag.1, (persists_eq_iff hopenName (by decide) (persists_of_mem hd)).mpr hflag.2⟩
        · exact hall _ _ _
  | arr items =>
    cases child with
    | none =>
      simp only [level, if_neg hboolean, if_neg hsensitive]
      exact storedLevel_str hopen' (hR.text_truncated path')
    | some c =>
      obtain ⟨st, se, rfl, rfl, _, _, hc⟩ := hchild c rfl
      have hkept := keptItems_append ((boundedList_keptItems items).map (c key (path ++ ["*"])))
      rw [level_arr hopen]
      simp only [storedLevel, if_neg hopen'.boolean, if_neg hopen'.sensitive, redactEventSequence,
        hkept]
      refine ⟨trivial, fun w hw => ?_⟩
      obtain ⟨v, hv, rfl⟩ := List.mem_map.mp hw
      refine hc hkey (List.rel_append hpath (List.Forall₂.cons (.refl "*") .nil)) ?_
        (List.all_eq_true.mp hsettled v hv)
      exact Json.wellFormed_arr_iff.mp hwf v ((keptItems_sublist items).subset hv)
  | str s =>
    rw [level_str hopen]
    refine storedLevel_str hopen' ?_
    rw [hR.text_path path path' hpath]
    exact hleaf path s hsettled
  | null | bool b | int n | float q =>
    simp only [level, storedLevel, if_neg hboolean, if_neg hsensitive, if_neg hopen'.boolean,
      if_neg hopen'.sensitive]

theorem openKey_truncated : OpenKey "_truncated" := ⟨by decide, by decide⟩

/-- One pass leaves a stored tree, when the text stage is settled on every text it reaches. -/
theorem storedLevels_levels (hP : P.Implements referenceSchema) (hR : R.Lawful P)
    {leaf : List String → String → Bool}
    (hleaf : ∀ path s, leaf path s = true → R.text path (R.text path s) = R.text path s)
    (htruncated : R.secretName "_truncated" = false ∨
      ∀ n key path v, settledLevels leaf n key path v = true) {n : ℕ}
    {key key' : String} {path path' : List String} {v : Json} (hkey : R.Renamed P key key')
    (hpath : List.Forall₂ (R.Renamed P) path path') (hwf : v.wellFormed = true)
    (hsettled : settledLevels leaf n key path v = true) :
    R.storedLevels P n key' path' (R.levels P n key path v) := by
  induction n generalizing key key' path path' v with
  | zero => exact storedLevel_level hP hR hleaf (by simp) hkey hpath hwf hsettled
  | succ n ih =>
    refine storedLevel_level hP hR hleaf (fun c hc => ?_) hkey hpath hwf hsettled
    obtain rfl := Option.some.inj hc
    refine ⟨_, _, rfl, rfl, fun path => ?_, htruncated.imp_right (fun h => h n), ih⟩
    cases n <;> exact storedLevel_bool openKey_truncated true

/-- A second pass that changes nothing finds every text settled. -/
theorem settledLevel_of_keyEq (hR : R.Lawful P) {leaf : List String → String → Bool}
    (hleaf : ∀ path s, R.text path (R.text path s) = R.text path s → leaf path s = true)
    {child : Option (String → List String → Json → Json)}
    {settled : Option (String → List String → Json → Bool)} (hnone : child = none → settled = none)
    (hchild : ∀ c, child = some c → ∃ se, settled = some se ∧
      ∀ {key key' path path' v}, R.Renamed P key key' → List.Forall₂ (R.Renamed P) path path' →
        v.wellFormed = true → Json.KeyEq (c key' path' (c key path v)) (c key path v) →
          se key path v = true)
    {key key' : String} {path path' : List String} {v : Json} (hkey : R.Renamed P key key')
    (hpath : List.Forall₂ (R.Renamed P) path path') (hwf : v.wellFormed = true)
    (h : Json.KeyEq (R.level P child key' path' (R.level P child key path v))
      (R.level P child key path v)) :
    settledLevel leaf settled key path v = true := by
  unfold settledLevel
  split_ifs with hguard
  · rfl
  have hopen : OpenKey key :=
    ⟨fun hb => hguard ⟨hb.1, .inl hb.2⟩, fun hs => hguard ⟨hs.1, .inr hs.2⟩⟩
  have hopen' := hkey.openKey hopen
  cases v with
  | obj entries =>
    cases child with
    | none => rw [hnone rfl]
    | some c =>
      obtain ⟨se, rfl, hc⟩ := hchild c rfl
      obtain ⟨hnodup, hvalues⟩ := Json.wellFormed_obj_iff.mp hwf
      have hbounded := @boundedMapping_redactMapping _ _ _ c path hR hnodup
      rw [level_obj hopen, level_obj hopen'] at h
      rw [List.all_eq_true]
      intro e he
      have hresolved : e ∈ (R.persistedEntries P (keptEntries entries).1).map Prod.snd := by
        rwa [map_snd_persistedEntries, List.mem_insertionSort]
      obtain ⟨d, hd, rfl⟩ := List.mem_map.mp hresolved
      rw [Bool.or_eq_true, Bool.and_eq_true, beq_iff_eq, or_iff_not_imp_left]
      intro hover
      have hkept := @mem_keptEntries_redactMapping _ _ _ c path hR hnodup _ hd
        (fun hflag => hover ⟨hflag.1,
          eq_of_persists (by decide) (persists_of_mem hd) hflag.2⟩)
      refine hc (.inr (persists_of_mem hd))
        (List.rel_append hpath (List.Forall₂.cons (.inr (persists_of_mem hd)) .nil))
        (hvalues _ ((keptEntries_sublist _).subset he)) ?_
      refine @Json.keyEq_of_mem_of_keyEq_obj _ _ h hbounded.nodup d.1 _ _ ?_
        ((keptEntries_sublist _).subset hkept)
      rw [hbounded.redactMapping]
      refine List.mem_append_left _ (List.mem_map.mpr ⟨_, (List.mem_insertionSort _).mpr hkept, rfl⟩)
  | arr items =>
    cases child with
    | none => rw [hnone rfl]
    | some c =>
      obtain ⟨se, rfl, hc⟩ := hchild c rfl
      have hkept := keptItems_append ((boundedList_keptItems items).map (c key (path ++ ["*"])))
      rw [level_arr hopen, level_arr hopen', Json.keyEq_arr_iff] at h
      simp only [redactEventSequence, hkept] at h
      have hitems := List.forall₂_take (keptItems items).1.length h
      rw [List.take_left' (by simp), List.take_left' (by simp), List.forall₂_map_left_iff,
        List.forall₂_map_right_iff, List.forall₂_map_left_iff, List.forall₂_same] at hitems
      rw [List.all_eq_true]
      intro v hv
      refine hc hkey (List.rel_append hpath (List.Forall₂.cons (.refl "*") .nil)) ?_ (hitems v hv)
      exact Json.wellFormed_arr_iff.mp hwf v ((keptItems_sublist items).subset hv)
  | str s =>
    rw [level_str hopen, level_str hopen', hR.text_path path path' hpath] at h
    exact hleaf path s (Json.str.inj h)
  | null | bool b | int n | float q => rfl

theorem settledLevels_of_keyEq (hR : R.Lawful P) {leaf : List String → String → Bool}
    (hleaf : ∀ path s, R.text path (R.text path s) = R.text path s → leaf path s = true) {n : ℕ}
    {key key' : String} {path path' : List String} {v : Json} (hkey : R.Renamed P key key')
    (hpath : List.Forall₂ (R.Renamed P) path path') (hwf : v.wellFormed = true)
    (h : Json.KeyEq (R.levels P n key' path' (R.levels P n key path v)) (R.levels P n key path v)) :
    settledLevels leaf n key path v = true := by
  induction n generalizing key key' path path' v with
  | zero => exact settledLevel_of_keyEq hR hleaf (fun _ => rfl) (by simp) hkey hpath hwf h
  | succ n ih =>
    refine settledLevel_of_keyEq hR hleaf (by simp) (fun c hc => ?_) hkey hpath hwf h
    obtain rfl := Option.some.inj hc
    exact ⟨_, rfl, ih⟩

end

end TextRules

end NetboxRpc
