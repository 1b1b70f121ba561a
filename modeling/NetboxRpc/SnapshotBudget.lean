import NetboxRpc.TargetSnapshot

/-!
# The snapshot budget is exact

Every pass of the traversal either spends what its result takes up in the serialized snapshot or
leaves the counters as it found them. The counters at the end are therefore the size of the
snapshot, and the room that `spend` leaves is the room the truncation marker takes.
-/

namespace NetboxRpc

/-! ## Serialized entries -/

namespace SafeValue

theorem rawItems_eq_map (items : List SafeValue) : rawItems items = items.map raw := by
  induction items with
  | nil => rfl
  | cons v vs ih => simp only [rawItems, List.map_cons, ih]

theorem rawEntries_eq_map (entries : List (String × SafeValue)) :
    rawEntries entries = entries.map (fun e => (e.1, e.2.raw)) := by
  induction entries with
  | nil => rfl
  | cons e es ih => simp only [rawEntries, List.map_cons, ih]

theorem rawEntries_append (a b : List (String × SafeValue)) :
    rawEntries (a ++ b) = rawEntries a ++ rawEntries b := by
  simp only [rawEntries_eq_map, List.map_append]

@[simp] theorem map_fst_rawEntries (entries : List (String × SafeValue)) :
    (rawEntries entries).map Prod.fst = entries.map Prod.fst := by
  rw [rawEntries_eq_map, List.map_map]
  rfl

theorem set_of_fresh {output : List (String × SafeValue)} {key : String}
    (h : key ∉ output.map Prod.fst) (value : SafeValue) :
    set output key value = output ++ [(key, value)] := by
  have hany : output.any (fun e => e.1 == key) = false := by
    rw [List.any_eq_false]
    intro e he hkey
    exact h (List.mem_map.mpr ⟨e, he, eq_of_beq hkey⟩)
  rw [set, hany]
  rfl

def entryNodes (output : List (String × SafeValue)) : ℕ := Json.nodeCountEntries (rawEntries output)

def entryBytes (S : SnapshotPlatform) (output : List (String × SafeValue)) : ℕ :=
  (Json.dumpsEntries S.floatText (rawEntries output)).length

theorem entryNodes_append (output : List (String × SafeValue)) (key : String) (v : SafeValue) :
    entryNodes (output ++ [(key, v)]) = entryNodes output + v.raw.nodeCount := by
  simp only [entryNodes, rawEntries_eq_map, List.map_append, List.map_cons, List.map_nil]
  exact Json.nodeCountEntries_append _ _

theorem entryBytes_append (S : SnapshotPlatform) (output : List (String × SafeValue))
    (key : String) (v : SafeValue) :
    entryBytes S (output ++ [(key, v)]) =
      entryBytes S output + mappingEntryBytes key output + (v.raw.dumps S.floatText).length := by
  simp only [entryBytes, rawEntries_eq_map, List.map_append, List.map_cons, List.map_nil]
  rw [Json.length_dumpsEntries_append, Json.comma_map]
  simp only [mappingEntryBytes, keyLength]
  omega

end SafeValue

open SafeValue

/-! ## Spending -/

namespace Budget

def Within (b : Budget) : Prop := b.nodes ≤ nodesLimit ∧ b.bytes ≤ bytesLimit

/-- `b'` is `b` after spending `nodes` and `bytes`, within the limits; a mark stays. -/
structure Charged (b b' : Budget) (nodes bytes : ℕ) : Prop where
  nodes_eq : b'.nodes = b.nodes + nodes
  bytes_eq : b'.bytes = b.bytes + bytes
  within : b'.Within
  marked : b.truncated = true → b'.truncated = true

theorem spend_true {b b' : Budget} {nodes bytes : ℕ} (h : b.spend nodes bytes = (true, b')) :
    Charged b b' nodes bytes := by
  unfold spend at h
  split_ifs at h with hlimit
  · cases h
  · obtain ⟨_, rfl⟩ := Prod.mk.inj h
    simp only [not_or, not_lt] at hlimit
    exact ⟨rfl, rfl, hlimit, id⟩

theorem spend_false {b b' : Budget} {nodes bytes : ℕ} (h : b.spend nodes bytes = (false, b')) :
    b' = { b with truncated := true } := by
  unfold spend at h
  split_ifs at h
  · exact (Prod.mk.inj h).2.symm
  · cases h

theorem spend_of_fits {b : Budget} {nodes bytes : ℕ} (hnodes : b.nodes + nodes ≤ nodesLimit)
    (hbytes : b.bytes + bytes ≤ bytesLimit) :
    b.spend nodes bytes =
      (true, { b with nodes := b.nodes + nodes, bytes := b.bytes + bytes }) := by
  rw [spend, if_neg (by omega)]

theorem Charged.trans {a b c : Budget} {m n i j : ℕ} (hab : Charged a b m i)
    (hbc : Charged b c n j) : Charged a c (m + n) (i + j) where
  nodes_eq := by rw [hbc.nodes_eq, hab.nodes_eq]; omega
  bytes_eq := by rw [hbc.bytes_eq, hab.bytes_eq]; omega
  within := hbc.within
  marked := fun h => hbc.marked (hab.marked h)

theorem Charged.mark {b b' : Budget} {nodes bytes : ℕ} (h : Charged b b' nodes bytes)
    (flag : Bool) : Charged b (b'.mark flag) nodes bytes where
  nodes_eq := h.nodes_eq
  bytes_eq := h.bytes_eq
  within := h.within
  marked := fun hb => by simp [Budget.mark, h.marked hb]

end Budget

open Budget

/-! ## Passes -/

/-- A pass charges exactly what its result serializes to; a refused value only marks the budget. -/
structure SafePass.Exact (S : SnapshotPlatform) (safe : SafePass) : Prop where
  kept : ∀ v b s b', safe v b = (some s, b') →
    Charged b b' s.raw.nodeCount (s.raw.dumps S.floatText).length
  refused : ∀ v b b', safe v b = (none, b') → b.truncated = true → b'.truncated = true

def Accounts (S : SnapshotPlatform) (start : Budget) (output : List (String × SafeValue))
    (b : Budget) : Prop :=
  Charged start b (entryNodes output) (entryBytes S output)

variable {S : SnapshotPlatform}

def SafePass.Returns (safe : SafePass) (value : FieldValue) (v : SafeValue) : Prop :=
  ∃ b b', safe value b = (some v, b')

/-! ### One append -/

section

variable {safe : SafePass} {output : List (String × SafeValue)} {key : String}
  {value : FieldValue} {b spent after : Budget}

theorem appendSnapshotValue_refused
    (hspend : b.spend 0 (mappingEntryBytes key output) = (false, spent)) :
    appendSnapshotValue safe output key value b = (output, spent) := by
  rw [appendSnapshotValue, hspend]

theorem appendSnapshotValue_missing
    (hspend : b.spend 0 (mappingEntryBytes key output) = (true, spent))
    (hpass : safe value spent = (none, after)) :
    appendSnapshotValue safe output key value b = (output, (after.restore b).mark true) := by
  rw [appendSnapshotValue, hspend]
  simp only [hpass]

theorem appendSnapshotValue_kept
    (hspend : b.spend 0 (mappingEntryBytes key output) = (true, spent)) {v : SafeValue}
    (hpass : safe value spent = (some v, after)) :
    appendSnapshotValue safe output key value b = (SafeValue.set output key v, after) := by
  rw [appendSnapshotValue, hspend]
  simp only [hpass]

/-- One append adds nothing, or one entry under a fresh key. -/
theorem appendSnapshotValue_cases (hkey : key ∉ output.map Prod.fst) :
    (appendSnapshotValue safe output key value b).1 = output ∨
      ∃ v, safe.Returns value v ∧
        (appendSnapshotValue safe output key value b).1 = output ++ [(key, v)] := by
  cases hspend : b.spend 0 (mappingEntryBytes key output) with
  | mk ok spent =>
    cases ok with
    | false => exact .inl (congrArg Prod.fst (appendSnapshotValue_refused hspend))
    | true =>
      cases hpass : safe value spent with
      | mk result after =>
        cases result with
        | none => exact .inl (congrArg Prod.fst (appendSnapshotValue_missing hspend hpass))
        | some v =>
          refine .inr ⟨v, ⟨spent, after, hpass⟩, ?_⟩
          rw [appendSnapshotValue_kept hspend hpass, set_of_fresh hkey]

theorem accounts_appendSnapshotValue (hsafe : safe.Exact S) {start : Budget}
    (h : Accounts S start output b) (hkey : key ∉ output.map Prod.fst) :
    Accounts S start (appendSnapshotValue safe output key value b).1
      (appendSnapshotValue safe output key value b).2 := by
  cases hspend : b.spend 0 (mappingEntryBytes key output) with
  | mk ok spent =>
    cases ok with
    | false =>
      rw [appendSnapshotValue_refused hspend, spend_false hspend]
      exact ⟨h.nodes_eq, h.bytes_eq, h.within, fun _ => rfl⟩
    | true =>
      cases hpass : safe value spent with
      | mk result after =>
        cases result with
        | none =>
          rw [appendSnapshotValue_missing hspend hpass]
          exact ⟨h.nodes_eq, h.bytes_eq, h.within, fun _ => by simp [Budget.mark]⟩
        | some v =>
          have hcharged :=
            (Charged.trans h (spend_true hspend)).trans (hsafe.kept _ _ _ _ hpass)
          rw [appendSnapshotValue_kept hspend hpass, set_of_fresh hkey, Accounts,
            entryNodes_append, entryBytes_append]
          exact hcharged

end

theorem accounts_appendSnapshotValues {safe : SafePass} (hsafe : safe.Exact S) {start : Budget}
    {items : List (String × FieldValue)} {output : List (String × SafeValue)} {b : Budget}
    (h : Accounts S start output b) (hnodup : (output.map Prod.fst ++ items.map Prod.fst).Nodup) :
    Accounts S start (appendSnapshotValues safe items output b).1
      (appendSnapshotValues safe items output b).2 := by
  induction items generalizing output b with
  | nil => exact h
  | cons e es ih =>
    have hparts := List.nodup_append.mp hnodup
    have hkey : e.1 ∉ output.map Prod.fst := fun hmem =>
      hparts.2.2 e.1 hmem e.1 (by simp) rfl
    have hstep := @accounts_appendSnapshotValue S safe output e.1 e.2 b hsafe start h hkey
    rw [appendSnapshotValues]
    refine ih hstep ?_
    rcases @appendSnapshotValue_cases safe output e.1 e.2 b hkey with hsame | ⟨v, _, hadded⟩
    · rw [hsame]
      exact hnodup.sublist (List.Sublist.append_left (by simp) _)
    · rw [hadded]
      simpa [List.append_assoc] using hnodup

/-! ## Canonical items -/

theorem dropRepeated_spec (seen : List String) (items : List (String × FieldValue)) :
    ((dropRepeated seen items).1.map Prod.fst).Nodup ∧
      (∀ e ∈ (dropRepeated seen items).1, e.1 ∉ seen) ∧
      List.Sublist (dropRepeated seen items).1 items := by
  induction items generalizing seen with
  | nil => simp [dropRepeated]
  | cons e es ih =>
    rw [dropRepeated]
    by_cases hseen : e.1 ∈ seen
    · obtain ⟨hnodup, hfresh, hsub⟩ := ih seen
      simp only [hseen, ↓reduceIte]
      exact ⟨hnodup, hfresh, hsub.cons e⟩
    · obtain ⟨hnodup, hfresh, hsub⟩ := ih (e.1 :: seen)
      simp only [hseen, ↓reduceIte, List.map_cons, List.nodup_cons, List.mem_map]
      refine ⟨⟨?_, hnodup⟩, ?_, hsub.cons_cons e⟩
      · rintro ⟨d, hd, hde⟩
        exact hfresh d hd (by simp [hde])
      · intro d hd
        rcases List.mem_cons.mp hd with rfl | hd
        · exact hseen
        · exact fun hmem => hfresh d hd (List.mem_cons_of_mem _ hmem)

theorem nodup_canonicalMappingItems (entries : List (FieldKey × FieldValue)) (b : Budget) :
    ((canonicalMappingItems entries b).1.map Prod.fst).Nodup :=
  (dropRepeated_spec [] _).1

theorem charged_canonicalMappingItems (entries : List (FieldKey × FieldValue)) {b b' : Budget}
    {nodes bytes : ℕ} (h : Charged b b' nodes bytes) :
    Charged b (canonicalMappingItems entries b').2 nodes bytes :=
  (h.mark _).mark _

/-! ## Every pass is exact -/

theorem exact_leaf (s : Scalar) (isText : Bool) :
    SafePass.Exact S (fun _ b => jsonSafeLeaf S s isText b) where
  kept v b r b' h := by
    simp only [jsonSafeLeaf] at h
    cases hspend : b.spend 1 (((jsonSafeScalar s).toJson.dumps S.floatText).length) with
    | mk ok spent =>
      cases ok with
      | false => simp [hspend] at h
      | true =>
        have hcharged := spend_true hspend
        have hraw : r.raw = (jsonSafeScalar s).toJson ∧ b' = spent := by
          cases s with
          | text t =>
            simp only [hspend] at h
            split_ifs at h <;> simp only [Prod.mk.injEq, Option.some.injEq] at h <;>
              exact ⟨by rw [← h.1]; rfl, h.2.symm⟩
          | _ =>
            simp only [hspend, Prod.mk.injEq, Option.some.injEq] at h
            obtain ⟨rfl, rfl⟩ := h
            exact ⟨rfl, rfl⟩
        have hnodes : (jsonSafeScalar s).toJson.nodeCount = 1 := by
          cases s <;> rfl
        rw [hraw.1, hraw.2, hnodes]
        exact hcharged
  refused v b b' h := by
    simp only [jsonSafeLeaf] at h
    cases hspend : b.spend 1 (((jsonSafeScalar s).toJson.dumps S.floatText).length) with
    | mk ok spent =>
      cases ok with
      | false =>
        simp only [hspend, Prod.mk.injEq, true_and] at h
        rw [← h, spend_false hspend]
        exact fun _ => rfl
      | true =>
        cases s with
        | text t => simp only [hspend] at h; split_ifs at h <;> cases h
        | _ => simp [hspend] at h

theorem accounts_nil (b : Budget) (hwithin : b.Within) : Accounts S b [] b :=
  ⟨rfl, rfl, hwithin, id⟩

theorem charged_mapping {b spent after : Budget} {output : List (String × SafeValue)}
    (hopen : Charged b spent 1 2) (h : Accounts S spent output after) :
    Charged b after (SafeValue.mapping output).raw.nodeCount
      ((SafeValue.mapping output).raw.dumps S.floatText).length := by
  have htotal := Charged.trans hopen h
  rw [raw, Json.nodeCount, Json.length_dumps_obj]
  exact htotal

theorem exact_mapping {safe : SafePass} (hsafe : safe.Exact S)
    (entries : List (FieldKey × FieldValue)) :
    SafePass.Exact S (fun _ b => jsonSafeMapping safe entries b) where
  kept v b r b' h := by
    simp only [jsonSafeMapping] at h
    cases hspend : b.spend 1 2 with
    | mk ok spent =>
      cases ok with
      | false => simp [hspend] at h
      | true =>
        have hopen := spend_true hspend
        simp only [hspend, Prod.mk.injEq, Option.some.injEq] at h
        obtain ⟨rfl, rfl⟩ := h
        have hstart : Accounts S spent [] (canonicalMappingItems entries spent).2 :=
          charged_canonicalMappingItems entries (accounts_nil spent hopen.within)
        exact charged_mapping hopen (accounts_appendSnapshotValues hsafe hstart
          (by simpa using nodup_canonicalMappingItems entries spent))
  refused v b b' h := by
    simp only [jsonSafeMapping] at h
    cases hspend : b.spend 1 2 with
    | mk ok spent =>
      cases ok with
      | false =>
        simp only [hspend, Prod.mk.injEq, true_and] at h
        rw [← h, spend_false hspend]
        exact fun _ => rfl
      | true => simp [hspend] at h

def AccountsItems (S : SnapshotPlatform) (start : Budget) (output : List SafeValue)
    (b : Budget) : Prop :=
  Charged start b (Json.nodeCountItems (rawItems output))
    (Json.dumpsItems S.floatText (rawItems output)).length

theorem appendItems_missing {safe : SafePass} {item : FieldValue} {output : List SafeValue}
    {b spent after : Budget} (hspend : b.spend 0 (Json.comma output) = (true, spent))
    (hpass : safe item spent = (none, after)) (rest : List FieldValue) :
    appendItems safe (item :: rest) output b =
      appendItems safe rest output ((after.restore b).mark true) := by
  rw [appendItems, hspend]
  simp only [hpass]

theorem appendItems_kept {safe : SafePass} {item : FieldValue} {output : List SafeValue}
    {b spent after : Budget} (hspend : b.spend 0 (Json.comma output) = (true, spent))
    {v : SafeValue} (hpass : safe item spent = (some v, after)) (rest : List FieldValue) :
    appendItems safe (item :: rest) output b = appendItems safe rest (output ++ [v]) after := by
  rw [appendItems, hspend]
  simp only [hpass]

theorem accounts_appendItems {safe : SafePass} (hsafe : safe.Exact S) {start : Budget}
    {items : List FieldValue} {output : List SafeValue} {b : Budget}
    (h : AccountsItems S start output b) :
    AccountsItems S start (appendItems safe items output b).1
      (appendItems safe items output b).2 := by
  induction items generalizing output b with
  | nil => exact h
  | cons item rest ih =>
    cases hspend : b.spend 0 (Json.comma output) with
    | mk ok spent =>
      cases ok with
      | false =>
        rw [appendItems, hspend, spend_false hspend]
        exact ⟨h.nodes_eq, h.bytes_eq, h.within, fun _ => rfl⟩
      | true =>
        cases hpass : safe item spent with
        | mk result after =>
          cases result with
          | none =>
            rw [appendItems_missing hspend hpass]
            exact ih ⟨h.nodes_eq, h.bytes_eq, h.within, fun _ => by simp [Budget.mark]⟩
          | some v =>
            rw [appendItems_kept hspend hpass]
            apply ih
            have hcharged :=
              (Charged.trans h (spend_true hspend)).trans (hsafe.kept _ _ _ _ hpass)
            rw [AccountsItems, rawItems_eq_map, List.map_append, List.map_cons, List.map_nil,
              Json.nodeCountItems_append, Json.length_dumpsItems_append, Json.comma_map,
              ← rawItems_eq_map]
            exact hcharged

theorem exact_sequence {safe : SafePass} (hsafe : safe.Exact S) (items : List FieldValue) :
    SafePass.Exact S (fun _ b => jsonSafeSequence safe items b) where
  kept v b r b' h := by
    simp only [jsonSafeSequence] at h
    cases hspend : b.spend 1 2 with
    | mk ok spent =>
      cases ok with
      | false => simp [hspend] at h
      | true =>
        have hopen := spend_true hspend
        simp only [hspend, Prod.mk.injEq, Option.some.injEq] at h
        obtain ⟨rfl, rfl⟩ := h
        have hstart : AccountsItems S spent [] spent := ⟨rfl, rfl, hopen.within, id⟩
        have hitems := @accounts_appendItems S safe hsafe spent
          (items.take targetSnapshotMaxItems) [] spent hstart
        have htotal := Charged.trans hopen hitems
        rw [raw, Json.nodeCount, Json.length_dumps_arr]
        exact htotal.mark _
  refused v b b' h := by
    simp only [jsonSafeSequence] at h
    cases hspend : b.spend 1 2 with
    | mk ok spent =>
      cases ok with
      | false =>
        simp only [hspend, Prod.mk.injEq, true_and] at h
        rw [← h, spend_false hspend]
        exact fun _ => rfl
      | true => simp [hspend] at h

theorem SafePass.Exact.of_agrees {safe : SafePass}
    (h : ∀ v, ∃ other : SafePass, other.Exact S ∧ ∀ b, safe v b = other v b) : safe.Exact S where
  kept v b s b' hpass := by
    obtain ⟨other, hother, heq⟩ := h v
    exact hother.kept v b s b' (heq b ▸ hpass)
  refused v b b' hpass := by
    obtain ⟨other, hother, heq⟩ := h v
    exact hother.refused v b b' (heq b ▸ hpass)

/-- `_json_safe_value` charges exactly what it returns, at every depth. -/
theorem exact_jsonSafeValue (levels : ℕ) : SafePass.Exact S (jsonSafeValue S levels) := by
  induction levels with
  | zero =>
    apply SafePass.Exact.of_agrees
    intro v
    cases v with
    | scalar s => exact ⟨_, exact_leaf s true, fun b => rfl⟩
    | other str => exact ⟨_, exact_leaf (.text str) false, fun b => rfl⟩
    | mapping entries => exact ⟨_, exact_leaf (.text "[truncated]") true, fun b => rfl⟩
    | sequence items => exact ⟨_, exact_leaf (.text "[truncated]") true, fun b => rfl⟩
  | succ levels ih =>
    apply SafePass.Exact.of_agrees
    intro v
    cases v with
    | scalar s => exact ⟨_, exact_leaf s true, fun b => rfl⟩
    | other str => exact ⟨_, exact_leaf (.text str) false, fun b => rfl⟩
    | mapping entries => exact ⟨_, exact_mapping ih entries, fun b => rfl⟩
    | sequence items => exact ⟨_, exact_sequence ih items, fun b => rfl⟩

theorem exact_fieldPass : SafePass.Exact S (fieldPass S) := exact_jsonSafeValue _

/-! ## The top level -/

def openedBudget : Budget := ⟨1, 2, false⟩

theorem spend_empty : (Budget.empty.spend 1 2).2 = openedBudget := by decide

structure SnapshotSoFar (S : SnapshotPlatform) (snapshot : List (String × SafeValue))
    (b : Budget) : Prop where
  accounts : Accounts S openedBudget snapshot b
  nodup : (snapshot.map Prod.fst).Nodup
  unmarked : ∀ e ∈ snapshot, e.1.toList.head? ≠ some '_'
  size : snapshot.length ≤ targetSnapshotMaxKeys - 1

theorem SnapshotSoFar.mark {snapshot : List (String × SafeValue)} {b : Budget}
    (h : SnapshotSoFar S snapshot b) (flag : Bool) : SnapshotSoFar S snapshot (b.mark flag) :=
  ⟨Charged.mark h.accounts flag, h.nodup, h.unmarked, h.size⟩

/-- One more entry under a name that is not the marker. -/
theorem SnapshotSoFar.add {snapshot : List (String × SafeValue)} {b b' : Budget} {key : String}
    {v : SafeValue} (h : SnapshotSoFar S snapshot b)
    (haccounts : Accounts S openedBudget (snapshot ++ [(key, v)]) b')
    (hkey : key ∉ snapshot.map Prod.fst) (hmarker : key.toList.head? ≠ some '_')
    (hsize : snapshot.length < targetSnapshotMaxKeys - 1) :
    SnapshotSoFar S (snapshot ++ [(key, v)]) b' where
  accounts := haccounts
  nodup := by
    rw [List.map_append, List.nodup_append]
    refine ⟨h.nodup, by simp, fun a ha c hc => ?_⟩
    simp only [List.map_cons, List.map_nil, List.mem_singleton] at hc
    rw [hc]
    exact fun hak => hkey (hak ▸ ha)
  unmarked := by
    intro e he
    rcases List.mem_append.mp he with he | he
    · exact h.unmarked e he
    · rw [List.mem_singleton.mp he]
      exact hmarker
  size := by
    rw [List.length_append, List.length_singleton]
    omega

theorem SnapshotSoFar.appendSnapshotValue {snapshot : List (String × SafeValue)} {b : Budget}
    (h : SnapshotSoFar S snapshot b) {key : String} (hkey : key ∉ snapshot.map Prod.fst)
    (hmarker : key.toList.head? ≠ some '_') (hsize : snapshot.length < targetSnapshotMaxKeys - 1)
    (value : FieldValue) :
    SnapshotSoFar S (appendSnapshotValue (fieldPass S) snapshot key value b).1
      (appendSnapshotValue (fieldPass S) snapshot key value b).2 := by
  have haccounts := @accounts_appendSnapshotValue S (fieldPass S) snapshot key value b
    exact_fieldPass openedBudget h.accounts hkey
  rcases @appendSnapshotValue_cases (fieldPass S) snapshot key value b hkey with hsame | ⟨v, _, hadded⟩
  · rw [hsame] at haccounts ⊢
    exact ⟨haccounts, h.nodup, h.unmarked, h.size⟩
  · rw [hadded] at haccounts ⊢
    exact h.add haccounts hkey hmarker hsize

theorem accounts_customFields {snapshot : List (String × SafeValue)} {b spent opened : Budget}
    {output : List (String × SafeValue)} {after : Budget} {start : Budget}
    (h : Accounts S start snapshot b)
    (hkey : "custom_fields" ∉ snapshot.map Prod.fst)
    (hspend : b.spend 0 (mappingEntryBytes "custom_fields" snapshot) = (true, spent))
    (hopen : spent.spend 1 2 = (true, opened)) (houtput : Accounts S opened output after) :
    Accounts S start (SafeValue.set snapshot "custom_fields" (.mapping output)) after := by
  have hmapping := charged_mapping (spend_true hopen) houtput
  have htotal := (Charged.trans h (spend_true hspend)).trans hmapping
  rw [set_of_fresh hkey, Accounts, entryNodes_append, entryBytes_append]
  exact htotal

theorem SnapshotSoFar.appendCustomFields {snapshot : List (String × SafeValue)} {b : Budget}
    (h : SnapshotSoFar S snapshot b) (hkey : "custom_fields" ∉ snapshot.map Prod.fst)
    (hsize : snapshot.length < targetSnapshotMaxKeys - 1)
    (customFields : List (FieldKey × FieldValue)) :
    SnapshotSoFar S (appendCustomFields S snapshot customFields b).1
      (appendCustomFields S snapshot customFields b).2 := by
  have hrestored : ∀ after : Budget, after.truncated = true ∨
      (b.truncated = true → after.truncated = true) →
        SnapshotSoFar S snapshot (after.restore b) := by
    intro after hmarked
    refine ⟨⟨h.accounts.nodes_eq, h.accounts.bytes_eq, h.accounts.within, fun hstart => ?_⟩,
      h.nodup, h.unmarked, h.size⟩
    have hb := h.accounts.marked hstart
    exact hmarked.elim id (fun himp => himp hb)
  rw [NetboxRpc.appendCustomFields]
  cases hspend : b.spend 0 (mappingEntryBytes "custom_fields" snapshot) with
  | mk ok spent =>
    cases ok with
    | false =>
      simp only
      rw [spend_false hspend]
      exact hrestored { b with truncated := true } (.inl rfl)
    | true =>
      have hspent := spend_true hspend
      cases hopen : spent.spend 1 2 with
      | mk ok opened =>
        cases ok with
        | false =>
          simp only [hopen]
          rw [spend_false hopen]
          exact hrestored { spent with truncated := true } (.inl rfl)
        | true =>
          have hopened := spend_true hopen
          have hnodup : (((canonicalMappingItems customFields opened).1.filter
              (fun e => !isSensitiveField e.1)).map Prod.fst).Nodup :=
            (nodup_canonicalMappingItems customFields opened).sublist
              (List.filter_sublist.map Prod.fst)
          have hstart : Accounts S opened [] (canonicalMappingItems customFields opened).2 :=
            charged_canonicalMappingItems customFields (accounts_nil opened hopened.within)
          have houtput := accounts_appendSnapshotValues exact_fieldPass hstart
            (by simpa using hnodup)
          simp only [hopen]
          split_ifs with hempty
          · exact hrestored _ (.inr (fun hb =>
              houtput.marked (hopened.marked (hspent.marked hb))))
          · have haccounts := accounts_customFields h.accounts hkey hspend hopen houtput
            simp only at haccounts ⊢
            rw [set_of_fresh hkey] at haccounts ⊢
            exact h.add haccounts hkey (by decide) hsize

theorem SnapshotSoFar.appendFields (items : List (String × FieldValue))
    {snapshot : List (String × SafeValue)} {b : Budget} (h : SnapshotSoFar S snapshot b) :
    SnapshotSoFar S (appendFields S items snapshot b).1 (appendFields S items snapshot b).2 := by
  induction items generalizing snapshot b with
  | nil => exact h
  | cons e es ih =>
    rw [NetboxRpc.appendFields]
    simp only
    split_ifs with hskip hfull
    · exact ih h
    · exact h.mark true
    · simp only [Bool.or_eq_true, not_or, List.any_eq_true, not_exists, not_and] at hskip
      obtain ⟨⟨⟨hmarker, _⟩, _⟩, hfresh⟩ := hskip
      have hkey : cutText e.1 ∉ snapshot.map Prod.fst := by
        intro hmem
        obtain ⟨d, hd, hde⟩ := List.mem_map.mp hmem
        exact hfresh d hd (by simp [hde])
      have hhead : (cutText e.1).toList.head? ≠ some '_' := by
        intro heq
        rw [heq] at hmarker
        simp at hmarker
      exact ih (h.appendSnapshotValue hkey hhead (by omega) e.2)

theorem sublist_names_appendSnapshotValue {safe : SafePass} {output : List (String × SafeValue)}
    {key : String} {value : FieldValue} {b : Budget} {names : List String}
    (h : List.Sublist (output.map Prod.fst) names) (hkey : key ∉ names) :
    List.Sublist ((appendSnapshotValue safe output key value b).1.map Prod.fst)
      (names ++ [key]) := by
  have hfresh : key ∉ output.map Prod.fst := fun hmem => hkey (h.subset hmem)
  rcases @appendSnapshotValue_cases safe output key value b hfresh with hsame | ⟨v, _, hadded⟩
  · rw [hsame]
    exact h.trans (List.sublist_append_left names [key])
  · rw [hadded, List.map_append]
    exact h.append_right [key]

theorem length_cutText_le (s : String) : (cutText s).length ≤ targetSnapshotMaxValueLen := by
  rw [cutText, String.length_ofList, List.length_take]
  exact Nat.min_le_left _ _

/-- A text is kept when the budget has room for the longest text. -/
theorem text_kept (s : String) {b : Budget} (hnodes : b.nodes < nodesLimit)
    (hbytes : b.bytes + (12 * targetSnapshotMaxValueLen + 2) ≤ bytesLimit) :
    ∃ v after, fieldPass S (.scalar (.text s)) b = (some v, after) := by
  have htext := Json.length_encodeString_le (cutText s)
  have hcut := length_cutText_le s
  have hfit := @spend_of_fits b 1 (Json.encodeString (cutText s)).length (by omega) (by omega)
  have hleaf : fieldPass S (.scalar (.text s)) b = jsonSafeLeaf S (.text s) true b := rfl
  have hdumps : ((jsonSafeScalar (.text s)).toJson.dumps S.floatText) =
      Json.encodeString (cutText s) := rfl
  rw [hleaf, jsonSafeLeaf, hdumps, hfit]
  simp only
  split_ifs
  · exact ⟨_, _, rfl⟩
  · exact ⟨_, _, rfl⟩

/-- A snapshot that could not keep the identifier keeps the display text. -/
theorem display_kept (s : String) {b : Budget} (hnodes : b.nodes = 1) (hbytes : b.bytes = 2) :
    (appendSnapshotValue (fieldPass S) [] "display" (.scalar (.text s)) b).1 ≠ [] := by
  have hkey : mappingEntryBytes "display" ([] : List (String × SafeValue)) = 10 := by decide
  have hlimit : bytesLimit = 65518 ∧ nodesLimit = 999 ∧ targetSnapshotMaxValueLen = 1024 := by
    decide
  have hspend := @spend_of_fits b 0 (mappingEntryBytes "display" ([] : List (String × SafeValue)))
    (by omega) (by omega)
  have hspent := spend_true hspend
  obtain ⟨v, after, hpass⟩ := @text_kept S s _ (by rw [hspent.nodes_eq]; omega)
    (by rw [hspent.bytes_eq]; omega)
  rw [appendSnapshotValue_kept hspend hpass, set_of_fresh (by simp)]
  simp

/-! ## The whole snapshot -/

theorem set_ne_nil {output : List (String × SafeValue)} {key : String} {v : SafeValue} :
    SafeValue.set output key v ≠ [] := by
  rw [SafeValue.set]
  split_ifs with hany
  · intro hnil
    rw [List.map_eq_nil_iff] at hnil
    simp [hnil] at hany
  · simp

theorem appendSnapshotValue_ne_nil {safe : SafePass} {output : List (String × SafeValue)}
    {key : String} {value : FieldValue} {b : Budget} (h : output ≠ []) :
    (appendSnapshotValue safe output key value b).1 ≠ [] := by
  rw [appendSnapshotValue]
  split
  · exact h
  · split
    · exact h
    · exact set_ne_nil

theorem appendCustomFields_ne_nil {snapshot : List (String × SafeValue)} {b : Budget}
    {customFields : List (FieldKey × FieldValue)} (h : snapshot ≠ []) :
    (appendCustomFields S snapshot customFields b).1 ≠ [] := by
  rw [appendCustomFields]
  split
  · exact h
  · split
    · exact h
    · simp only
      split_ifs
      · exact h
      · exact set_ne_nil

theorem appendFields_ne_nil {items : List (String × FieldValue)}
    {snapshot : List (String × SafeValue)} {b : Budget} (h : snapshot ≠ []) :
    (appendFields S items snapshot b).1 ≠ [] := by
  induction items generalizing snapshot b with
  | nil => exact h
  | cons e es ih =>
    rw [appendFields]
    simp only
    split_ifs
    · exact ih h
    · exact h
    · exact ih (appendSnapshotValue_ne_nil h)

structure Started (S : SnapshotPlatform) (names : List String)
    (r : List (String × SafeValue) × Budget) : Prop where
  soFar : SnapshotSoFar S r.1 r.2
  named : List.Sublist (r.1.map Prod.fst) names

theorem Started.length_le {names : List String} {r : List (String × SafeValue) × Budget}
    (h : Started S names r) : r.1.length ≤ names.length := by
  have hlength := h.named.length_le
  rwa [List.length_map] at hlength

theorem Started.appendSnapshotValue {names : List String}
    {r : List (String × SafeValue) × Budget} (h : Started S names r) {key : String}
    (hkey : key ∉ names) (hmarker : key.toList.head? ≠ some '_') (hnames : names.length < 94)
    (value : FieldValue) :
    Started S (names ++ [key]) (appendSnapshotValue (fieldPass S) r.1 key value r.2) := by
  have hlength := h.length_le
  have hfresh : key ∉ r.1.map Prod.fst := fun hmem => hkey (h.named.subset hmem)
  exact ⟨h.soFar.appendSnapshotValue hfresh hmarker (by simp only [targetSnapshotMaxKeys]; omega)
    value, sublist_names_appendSnapshotValue h.named hkey⟩

theorem started_display {r : List (String × SafeValue) × Budget} (h : Started S ["id"] r)
    (s : String) :
    Started S ["id", "display"] (appendSnapshotValue (fieldPass S) r.1 "display"
        (.scalar (.text s)) r.2) ∧
      (appendSnapshotValue (fieldPass S) r.1 "display" (.scalar (.text s)) r.2).1 ≠ [] := by
  refine ⟨h.appendSnapshotValue (by simp) (by decide) (by decide) _, ?_⟩
  by_cases hnil : r.1 = []
  · -- An empty snapshot has spent nothing yet.
    have haccounts := h.soFar.accounts
    rw [hnil] at haccounts ⊢
    exact display_kept s haccounts.nodes_eq haccounts.bytes_eq
  · exact appendSnapshotValue_ne_nil hnil

theorem started_appendIdentity (t : TargetObject) :
    Started S ["id", "display"] (appendIdentity S t) ∧ (appendIdentity S t).1 ≠ [] := by
  have hopened : Started S [] (([] : List (String × SafeValue)), openedBudget) :=
    ⟨⟨⟨rfl, rfl, ⟨by decide, by decide⟩, id⟩, by simp, by simp, by decide⟩, by simp⟩
  have hid := @Started.appendSnapshotValue S [] _ hopened "id" (by simp) (by decide) (by decide)
    (t.pk.getD t.id)
  rw [appendIdentity, spend_empty]
  exact started_display hid t.str

theorem started_appendName {r : List (String × SafeValue) × Budget} (t : TargetObject)
    (h : Started S ["id", "display"] r) (hne : r.1 ≠ []) :
    Started S ["id", "display", "name"] (appendName S t r) ∧ (appendName S t r).1 ≠ [] := by
  rw [appendName]
  cases t.name with
  | none => exact ⟨⟨h.soFar, h.named.trans (by simp)⟩, hne⟩
  | some name =>
    exact ⟨h.appendSnapshotValue (by simp) (by decide) (by decide) name,
      appendSnapshotValue_ne_nil hne⟩

theorem soFar_appendCustomFieldData {r : List (String × SafeValue) × Budget} (t : TargetObject)
    (h : Started S ["id", "display", "name"] r) (hne : r.1 ≠ []) :
    SnapshotSoFar S (appendCustomFieldData S t r).1 (appendCustomFieldData S t r).2 ∧
      (appendCustomFieldData S t r).1 ≠ [] := by
  have hkey : "custom_fields" ∉ r.1.map Prod.fst := fun hmem => by
    simpa using h.named.subset hmem
  have hlength : r.1.length ≤ 3 := h.length_le
  rw [appendCustomFieldData]
  split
  · exact ⟨h.soFar.appendCustomFields hkey (by simp only [targetSnapshotMaxKeys]; omega) _,
      appendCustomFields_ne_nil hne⟩
  · exact ⟨h.soFar, hne⟩

theorem fieldItems_mark (t : TargetObject) (b : Budget) :
    ∃ flag, (t.fieldItems b).2 = b.mark flag := by
  rw [TargetObject.fieldItems]
  split_ifs
  · exact ⟨_, rfl⟩
  · exact ⟨_, rfl⟩

/-- The entries of a snapshot before the marker: at least one, and room for the marker. -/
theorem snapshotFields_soFar (S : SnapshotPlatform) (t : TargetObject) :
    SnapshotSoFar S (snapshotFields S t).1 (snapshotFields S t).2 ∧
      (snapshotFields S t).1 ≠ [] := by
  obtain ⟨hidentity, hne⟩ := @started_appendIdentity S t
  obtain ⟨hname, hne⟩ := started_appendName t hidentity hne
  obtain ⟨hcustom, hne⟩ := soFar_appendCustomFieldData t hname hne
  obtain ⟨flag, hflag⟩ := fieldItems_mark t
    (appendCustomFieldData S t (appendName S t (appendIdentity S t))).2
  rw [snapshotFields, hflag]
  exact ⟨(hcustom.mark flag).appendFields _, appendFields_ne_nil hne⟩

/-- The budget is exact: its counters are the size of the serialized snapshot, the snapshot is
within its limits, and it carries the marker exactly when the budget was marked. -/
theorem target_snapshot_budget_exact (S : SnapshotPlatform) (t : TargetObject) :
    (buildTargetObjectSnapshot S t).2.bytes =
        ((Json.obj (rawEntries (buildTargetObjectSnapshot S t).1)).dumps S.floatText).length ∧
      (buildTargetObjectSnapshot S t).2.nodes =
        (Json.obj (rawEntries (buildTargetObjectSnapshot S t).1)).nodeCount ∧
      ((Json.obj (rawEntries (buildTargetObjectSnapshot S t).1)).dumps S.floatText).length ≤
        targetSnapshotMaxBytes ∧
      (Json.obj (rawEntries (buildTargetObjectSnapshot S t).1)).nodeCount ≤
        targetSnapshotMaxNodes ∧
      (buildTargetObjectSnapshot S t).1.length ≤ targetSnapshotMaxKeys ∧
      (targetSnapshotMarker ∈ (buildTargetObjectSnapshot S t).1.map Prod.fst ↔
        (buildTargetObjectSnapshot S t).2.truncated = true) := by
  obtain ⟨h, hne⟩ := snapshotFields_soFar S t
  rw [buildTargetObjectSnapshot]
  generalize snapshotFields S t = fields at h hne ⊢
  have hmarker : targetSnapshotMarker ∉ fields.1.map Prod.fst := by
    intro hmem
    obtain ⟨e, he, hname⟩ := List.mem_map.mp hmem
    exact h.unmarked e he (by rw [hname]; decide)
  have hlimits : nodesLimit + 1 = targetSnapshotMaxNodes ∧
      bytesLimit + targetSnapshotMarkerBytes = targetSnapshotMaxBytes := by decide
  have hsize := h.size
  have hnodes : fields.2.nodes = 1 + entryNodes fields.1 := h.accounts.nodes_eq
  have hbytes : fields.2.bytes = 2 + entryBytes S fields.1 := h.accounts.bytes_eq
  have hwithin : fields.2.nodes ≤ nodesLimit ∧ fields.2.bytes ≤ bytesLimit := h.accounts.within
  have hkeys : targetSnapshotMaxKeys = 95 := rfl
  by_cases htruncated : fields.2.truncated = true
  · -- The marker takes one node and the room that every `spend` has left.
    have hmarked : entryBytes S (fields.1 ++ [(targetSnapshotMarker, .scalar (.bool true))]) =
        entryBytes S fields.1 + targetSnapshotMarkerBytes := by
      have hcomma : Json.comma fields.1 = 1 := by
        cases hcons : fields.1 with
        | nil => exact absurd hcons hne
        | cons e es => rfl
      have hkey : keyLength targetSnapshotMarker = 12 := by decide
      have hvalue : ((SafeValue.scalar (.bool true)).raw.dumps S.floatText).length = 4 := rfl
      have hbytes : targetSnapshotMarkerBytes = 18 := by decide
      rw [entryBytes_append, mappingEntryBytes, hcomma, hkey, hvalue, hbytes]
    simp only [htruncated, ↓reduceIte, addMarker]
    rw [set_of_fresh hmarker, Json.length_dumps_obj, Json.nodeCount, ← entryBytes, ← entryNodes,
      hmarked, entryNodes_append]
    have hone : (SafeValue.scalar (.bool true)).raw.nodeCount = 1 := rfl
    refine ⟨by omega, by omega, by omega, by omega, ?_, by simp⟩
    rw [List.length_append, List.length_singleton]
    omega
  · simp only [htruncated, Bool.false_eq_true, ↓reduceIte]
    rw [Json.length_dumps_obj, Json.nodeCount, ← entryBytes, ← entryNodes]
    refine ⟨by omega, by omega, by omega, by omega, by omega, ?_⟩
    simp [hmarker]

end NetboxRpc
