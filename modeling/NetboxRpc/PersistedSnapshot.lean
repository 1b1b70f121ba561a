import NetboxRpc.KeyOrder
import NetboxRpc.SnapshotBudget

/-!
# The persisted copy of a harmless snapshot

The persisted copy is rebuilt by a second bounded traversal. On a value that fits, that traversal
is the identity up to key order. It counts the depth of a custom field from the `custom_fields`
mapping, one level higher than the first traversal did, so a custom field that uses all the levels
it was given is cut again.
-/

namespace Json

def nestsWithin : ℕ → Json → Bool
  | 0, v => !v.isContainer
  | n + 1, .arr items => items.all (nestsWithin n)
  | n + 1, .obj entries => entries.all (fun e => nestsWithin n e.2)
  | _ + 1, _ => true

theorem nestsWithin_of_keyEq {v w : Json} {n : ℕ} (h : KeyEq v w) (hv : v.nestsWithin n = true) :
    w.nestsWithin n = true := by
  induction n generalizing v w with
  | zero =>
    rw [nestsWithin, Bool.not_eq_true'] at hv ⊢
    rw [eq_of_keyEq_scalar h.symm hv]
    exact hv
  | succ n ih =>
    cases w with
    | arr items =>
      obtain ⟨others, rfl⟩ := exists_arr_of_keyEq h
      rw [nestsWithin, List.all_eq_true] at hv ⊢
      intro w hw
      obtain ⟨v, hmem, hvw⟩ := exists_mem_of_forall₂_right (keyEq_arr_iff.mp h) hw
      exact ih hvw (hv v hmem)
    | obj entries =>
      obtain ⟨others, rfl⟩ := exists_obj_of_keyEq h
      rw [nestsWithin, List.all_eq_true] at hv ⊢
      intro e he
      obtain ⟨d, hd, hed⟩ := exists_mem_of_keyEq_obj h.symm he
      exact ih hed.2.symm (hv d hd)
    | _ => rfl

end Json

namespace NetboxRpc

open Budget SafeValue

/-! ## What the first traversal returns -/

def Bounded : ℕ → Json → Prop
  | _, .str s => s.length ≤ targetSnapshotMaxValueLen
  | n + 1, .arr items => items.length ≤ targetSnapshotMaxItems ∧ ∀ v ∈ items, Bounded n v
  | n + 1, .obj entries => entries.length ≤ targetSnapshotMaxKeys ∧ (entries.map Prod.fst).Nodup ∧
      ∀ e ∈ entries, e.1.length ≤ targetSnapshotMaxValueLen ∧ Bounded n e.2
  | 0, .arr _ | 0, .obj _ => False
  | _, _ => True

theorem bounded_scalar (n : ℕ) (s : Scalar) : Bounded n (jsonSafeScalar s).toJson := by
  cases s with
  | text t =>
    have hcut := length_cutText_le t
    cases n <;> exact hcut
  | _ => cases n <;> trivial

theorem Bounded.nestsWithin {n : ℕ} {v : Json} (h : Bounded n v) : v.nestsWithin n = true := by
  induction n generalizing v with
  | zero => cases v <;> first | rfl | exact h.elim
  | succ n ih =>
    cases v with
    | arr items =>
      rw [Json.nestsWithin, List.all_eq_true]
      exact fun v hv => ih (h.2 v hv)
    | obj entries =>
      rw [Json.nestsWithin, List.all_eq_true]
      exact fun e he => ih (h.2.2 e he).2
    | _ => rfl

theorem Bounded.of_nestsWithin {n m : ℕ} {v : Json} (h : Bounded m v)
    (hn : v.nestsWithin n = true) : Bounded n v := by
  induction n generalizing m v with
  | zero =>
    cases v with
    | arr items => cases hn
    | obj entries => cases hn
    | str s => cases m <;> exact h
    | _ => trivial
  | succ n ih =>
    cases v with
    | arr items =>
      rw [Json.nestsWithin, List.all_eq_true] at hn
      cases m with
      | zero => exact h.elim
      | succ m => exact ⟨h.1, fun v hv => ih (h.2 v hv) (hn v hv)⟩
    | obj entries =>
      rw [Json.nestsWithin, List.all_eq_true] at hn
      cases m with
      | zero => exact h.elim
      | succ m =>
        exact ⟨h.1, h.2.1, fun e he => ⟨(h.2.2 e he).1, ih (h.2.2 e he).2 (hn e he)⟩⟩
    | str s => cases m <;> exact h
    | _ => trivial

theorem Bounded.of_keyEq {n : ℕ} {v w : Json} (hv : Bounded n v) (h : Json.KeyEq v w) :
    Bounded n w := by
  induction n generalizing v w with
  | zero =>
    have hscalar : v.isContainer = false := by simpa [Json.nestsWithin] using hv.nestsWithin
    rw [Json.eq_of_keyEq_scalar h.symm hscalar]
    exact hv
  | succ n ih =>
    cases v with
    | arr items =>
      obtain ⟨others, rfl⟩ := Json.exists_arr_of_keyEq h.symm
      have hforall := Json.keyEq_arr_iff.mp h
      refine ⟨hforall.length_eq ▸ hv.1, fun w hw => ?_⟩
      obtain ⟨v, hmem, hvw⟩ := Json.exists_mem_of_forall₂_right hforall hw
      exact ih (hv.2 v hmem) hvw
    | obj entries =>
      obtain ⟨others, rfl⟩ := Json.exists_obj_of_keyEq h.symm
      have hnames := Json.perm_map_fst_of_keyEq_obj h
      have hlength := hnames.length_eq
      rw [List.length_map, List.length_map] at hlength
      refine ⟨hlength ▸ hv.1, hnames.nodup_iff.mp hv.2.1, fun e he => ?_⟩
      obtain ⟨d, hd, hed⟩ := Json.exists_mem_of_keyEq_obj h.symm he
      exact ⟨hed.1 ▸ (hv.2.2 d hd).1, ih (hv.2.2 d hd).2 hed.2.symm⟩
    | _ =>
      rw [Json.eq_of_keyEq_scalar h.symm rfl]
      exact hv

section

variable {S : SnapshotPlatform} {safe : SafePass}

/-- The loop over entries adds entries under the items' names, each with a value that the pass
returned for its item. -/
theorem appendSnapshotValues_returns {items : List (String × FieldValue)}
    {output : List (String × SafeValue)} {b : Budget}
    (hnodup : (output.map Prod.fst ++ items.map Prod.fst).Nodup) :
    List.Sublist ((appendSnapshotValues safe items output b).1.map Prod.fst)
        (output.map Prod.fst ++ items.map Prod.fst) ∧
      ∀ e ∈ (appendSnapshotValues safe items output b).1,
        e ∈ output ∨ ∃ value, (e.1, value) ∈ items ∧ safe.Returns value e.2 := by
  induction items generalizing output b with
  | nil => exact ⟨by simp [appendSnapshotValues], fun e he => .inl he⟩
  | cons d ds ih =>
    have hparts := List.nodup_append.mp hnodup
    have hkey : d.1 ∉ output.map Prod.fst := fun hmem =>
      hparts.2.2 d.1 hmem d.1 (by simp) rfl
    have hlater : ∀ e : String × SafeValue,
        (∃ value, (e.1, value) ∈ ds ∧ safe.Returns value e.2) →
          ∃ value, (e.1, value) ∈ d :: ds ∧ safe.Returns value e.2 := by
      rintro e ⟨value, hmem, hreturns⟩
      exact ⟨value, List.mem_cons_of_mem d hmem, hreturns⟩
    rw [appendSnapshotValues]
    rcases @appendSnapshotValue_cases safe output d.1 d.2 b hkey with hsame | ⟨v, hv, hadded⟩
    · have hrest : (output.map Prod.fst ++ ds.map Prod.fst).Nodup :=
        hnodup.sublist (List.Sublist.append_left (by simp) _)
      rw [hsame]
      obtain ⟨hnames, hvalues⟩ := @ih output (appendSnapshotValue safe output d.1 d.2 b).2 hrest
      exact ⟨hnames.trans (List.Sublist.append_left (by simp) _),
        fun e he => (hvalues e he).imp_right (hlater e)⟩
    · have hrest : ((output ++ [(d.1, v)]).map Prod.fst ++ ds.map Prod.fst).Nodup := by
        simpa [List.append_assoc] using hnodup
      rw [hadded]
      obtain ⟨hnames, hvalues⟩ :=
        @ih (output ++ [(d.1, v)]) (appendSnapshotValue safe output d.1 d.2 b).2 hrest
      refine ⟨by simpa [List.append_assoc] using hnames, fun e he => ?_⟩
      rcases hvalues e he with hmem | hfound
      · rcases List.mem_append.mp hmem with hmem | hmem
        · exact .inl hmem
        · rw [List.mem_singleton.mp hmem]
          exact .inr ⟨d.2, List.mem_cons_self, hv⟩
      · exact .inr (hlater e hfound)

/-- The loop over items adds values that the pass returned, in order and at most one per item. -/
theorem appendItems_returns {items : List FieldValue} {output : List SafeValue} {b : Budget} :
    (appendItems safe items output b).1.length ≤ output.length + items.length ∧
      ∀ v ∈ (appendItems safe items output b).1,
        v ∈ output ∨ ∃ item ∈ items, safe.Returns item v := by
  induction items generalizing output b with
  | nil => exact ⟨Nat.le_refl _, fun v hv => .inl hv⟩
  | cons item rest ih =>
    have hlater : ∀ v, (∃ i ∈ rest, safe.Returns i v) → ∃ i ∈ item :: rest, safe.Returns i v :=
      fun v ⟨i, hi, hreturns⟩ => ⟨i, List.mem_cons_of_mem item hi, hreturns⟩
    cases hspend : b.spend 0 (Json.comma output) with
    | mk ok spent =>
      cases ok with
      | false =>
        rw [appendItems, hspend]
        exact ⟨Nat.le_add_right _ _, fun v hv => .inl hv⟩
      | true =>
        cases hpass : safe item spent with
        | mk result after =>
          cases result with
          | none =>
            rw [appendItems_missing hspend hpass]
            obtain ⟨hlength, hvalues⟩ := @ih output ((after.restore b).mark true)
            exact ⟨hlength.trans (by simp), fun v hv => (hvalues v hv).imp_right (hlater v)⟩
          | some v =>
            rw [appendItems_kept hspend hpass]
            obtain ⟨hlength, hvalues⟩ := @ih (output ++ [v]) after
            refine ⟨hlength.trans (by simp; omega), fun w hw => ?_⟩
            rcases hvalues w hw with hmem | hfound
            · rcases List.mem_append.mp hmem with hmem | hmem
              · exact .inl hmem
              · rw [List.mem_singleton.mp hmem]
                exact .inr ⟨item, List.mem_cons_self, spent, after, hpass⟩
            · exact .inr (hlater w hfound)

/-! ### What each pass can return -/

theorem mem_canonicalMappingItems {entries : List (FieldKey × FieldValue)} {b : Budget}
    {e : String × FieldValue} (h : e ∈ (canonicalMappingItems entries b).1) :
    ∃ key, (key, e.2) ∈ entries ∧ e.1 = cutText key.text := by
  have hmem := (dropRepeated_spec [] _).2.2.subset h
  obtain ⟨d, hd, rfl⟩ := List.mem_map.mp hmem
  rw [orderedItems, List.mem_insertionSort, List.mem_map] at hd
  obtain ⟨c, hc, rfl⟩ := hd
  exact ⟨c.1, List.mem_of_mem_take hc, rfl⟩

theorem length_canonicalMappingItems_le (entries : List (FieldKey × FieldValue)) (b : Budget) :
    (canonicalMappingItems entries b).1.length ≤ targetSnapshotMaxKeys := by
  have hle := (dropRepeated_spec []
    ((orderedItems entries).map (fun e => (e.1.text, e.2)))).2.2.length_le
  rw [List.length_map, orderedItems, List.length_insertionSort, List.length_map,
    List.length_take] at hle
  exact hle.trans (Nat.min_le_left _ _)

theorem leaf_returns {s : Scalar} {isText : Bool} {b b' : Budget} {v : SafeValue}
    (h : jsonSafeLeaf S s isText b = (some v, b')) :
    v = .scalar (jsonSafeScalar s) ∧
        (isText = true → ∀ t, s = .text t → matchesSecretPattern S t = false) ∨
      ∃ t, s = .text t ∧ matchesSecretPattern S t = true ∧ v = .matched (cutText t) := by
  rw [jsonSafeLeaf] at h
  cases hspend : b.spend 1 (((jsonSafeScalar s).toJson.dumps S.floatText).length) with
  | mk ok spent =>
    cases ok with
    | false => simp [hspend] at h
    | true =>
      cases s with
      | text t =>
        simp only [hspend] at h
        split_ifs at h with hmatch
        · simp only [Prod.mk.injEq, Option.some.injEq] at h
          rw [Bool.and_eq_true] at hmatch
          exact .inr ⟨t, rfl, hmatch.2, h.1.symm⟩
        · simp only [Prod.mk.injEq, Option.some.injEq] at h
          refine .inl ⟨h.1.symm, fun htext u hu => ?_⟩
          rw [htext, Bool.true_and, Bool.not_eq_true] at hmatch
          exact Scalar.text.inj hu ▸ hmatch
      | _ =>
        simp only [hspend, Prod.mk.injEq, Option.some.injEq] at h
        exact .inl ⟨h.1.symm, fun _ t ht => by cases ht⟩

/-- `v` is a mapping of distinct names, each the cut text of a key of `entries` with a value that
the pass returned for that key. -/
def MappingFrom (safe : SafePass) (entries : List (FieldKey × FieldValue)) (v : SafeValue) : Prop :=
  ∃ output, v = .mapping output ∧ (output.map Prod.fst).Nodup ∧
    output.length ≤ targetSnapshotMaxKeys ∧
    ∀ e ∈ output, ∃ key value, (key, value) ∈ entries ∧ e.1 = cutText key.text ∧
      safe.Returns value e.2

theorem MappingFrom.mono {entries more : List (FieldKey × FieldValue)} {v : SafeValue}
    (h : MappingFrom safe entries v) (hmore : entries ⊆ more) : MappingFrom safe more v := by
  obtain ⟨output, hv, hnodup, hlength, hsource⟩ := h
  refine ⟨output, hv, hnodup, hlength, fun e he => ?_⟩
  obtain ⟨key, value, hmem, hname, hreturns⟩ := hsource e he
  exact ⟨key, value, hmore hmem, hname, hreturns⟩

/-- The loop over canonical items, or over some of them, makes a mapping from their entries. -/
theorem mappingFrom_appendSnapshotValues {entries kept : List (FieldKey × FieldValue)}
    {b b' : Budget} {items : List (String × FieldValue)}
    (hitems : List.Sublist items (canonicalMappingItems entries b).1)
    (hkept : ∀ e ∈ items, ∀ key, (key, e.2) ∈ entries → e.1 = cutText key.text →
      (key, e.2) ∈ kept) :
    MappingFrom safe kept (.mapping (appendSnapshotValues safe items [] b').1) := by
  have hnodup : (items.map Prod.fst).Nodup :=
    (nodup_canonicalMappingItems entries b).sublist (hitems.map Prod.fst)
  obtain ⟨hnames, hvalues⟩ := @appendSnapshotValues_returns safe items [] b' (by simpa using hnodup)
  rw [List.map_nil, List.nil_append] at hnames
  refine ⟨_, rfl, hnodup.sublist hnames, ?_, fun e he => ?_⟩
  · have hle := hnames.length_le
    rw [List.length_map, List.length_map] at hle
    exact (hle.trans hitems.length_le).trans (length_canonicalMappingItems_le entries b)
  · rcases hvalues e he with hmem | ⟨value, hmem, hreturns⟩
    · cases hmem
    · obtain ⟨key, hkey, hname⟩ := mem_canonicalMappingItems (hitems.subset hmem)
      exact ⟨key, value, hkept _ hmem key hkey hname, hname, hreturns⟩

theorem mapping_returns {entries : List (FieldKey × FieldValue)} {b b' : Budget} {v : SafeValue}
    (h : jsonSafeMapping safe entries b = (some v, b')) : MappingFrom safe entries v := by
  rw [jsonSafeMapping] at h
  cases hspend : b.spend 1 2 with
  | mk ok spent =>
    cases ok with
    | false => simp [hspend] at h
    | true =>
      simp only [hspend, Prod.mk.injEq, Option.some.injEq] at h
      rw [← h.1]
      exact mappingFrom_appendSnapshotValues (List.Sublist.refl _) (fun _ _ _ hentry _ => hentry)

theorem sequence_returns {items : List FieldValue} {b b' : Budget} {v : SafeValue}
    (h : jsonSafeSequence safe items b = (some v, b')) :
    ∃ output, v = .sequence output ∧ output.length ≤ targetSnapshotMaxItems ∧
      ∀ w ∈ output, ∃ item ∈ items, safe.Returns item w := by
  rw [jsonSafeSequence] at h
  cases hspend : b.spend 1 2 with
  | mk ok spent =>
    cases ok with
    | false => simp [hspend] at h
    | true =>
      simp only [hspend, Prod.mk.injEq, Option.some.injEq] at h
      obtain ⟨hlength, hvalues⟩ :=
        @appendItems_returns safe (items.take targetSnapshotMaxItems) [] spent
      refine ⟨_, h.1.symm, ?_, fun w hw => ?_⟩
      · rw [List.length_nil, List.length_take] at hlength
        omega
      · rcases hvalues w hw with hmem | ⟨item, hitem, hreturns⟩
        · cases hmem
        · exact ⟨item, List.mem_of_mem_take hitem, hreturns⟩

theorem MappingFrom.bounded {entries : List (FieldKey × FieldValue)} {v : SafeValue} {n : ℕ}
    (h : MappingFrom safe entries v)
    (hsafe : ∀ value v, safe.Returns value v → Bounded n v.raw) : Bounded (n + 1) v.raw := by
  obtain ⟨output, rfl, hnodup, hlength, hvalues⟩ := h
  refine ⟨by rwa [rawEntries_eq_map, List.length_map], by rwa [map_fst_rawEntries],
    fun e he => ?_⟩
  rw [rawEntries_eq_map] at he
  obtain ⟨d, hd, rfl⟩ := List.mem_map.mp he
  obtain ⟨key, value, _, hname, hreturns⟩ := hvalues d hd
  exact ⟨by rw [hname]; exact length_cutText_le _, hsafe value d.2 hreturns⟩

/-- Whatever `_json_safe_value` returns is within the limits of a traversal. -/
theorem bounded_of_returns {n : ℕ} {value : FieldValue} {v : SafeValue}
    (h : (jsonSafeValue S n).Returns value v) : Bounded n v.raw := by
  have hleaf : ∀ {n : ℕ} {s : Scalar} {isText : Bool} {b b' : Budget} {v : SafeValue},
      jsonSafeLeaf S s isText b = (some v, b') → Bounded n v.raw := by
    intro n s isText b b' v h
    rcases leaf_returns h with ⟨rfl, _⟩ | ⟨t, rfl, _, rfl⟩
    · exact bounded_scalar n s
    · exact bounded_scalar n (.text t)
  obtain ⟨b, b', h⟩ := h
  induction n generalizing value v b b' with
  | zero => cases value <;> exact hleaf h
  | succ n ih =>
    cases value with
    | scalar s => exact hleaf h
    | other str => exact hleaf h
    | mapping entries =>
      exact (mapping_returns h).bounded (fun value w ⟨c, c', hreturns⟩ => ih c c' hreturns)
    | sequence items =>
      obtain ⟨output, rfl, hlength, hvalues⟩ := sequence_returns h
      rw [raw, rawItems_eq_map]
      refine ⟨by rwa [List.length_map], fun w hw => ?_⟩
      obtain ⟨v, hv, rfl⟩ := List.mem_map.mp hw
      obtain ⟨item, _, c, c', hreturns⟩ := hvalues v hv
      exact ih c c' hreturns

end

/-! ## The second traversal of a value that fits -/

section

variable {S : SnapshotPlatform} {safe : SafePass}

theorem fieldValuesOfJson_eq_map (items : List Json) :
    fieldValuesOfJson S items = items.map (fieldValueOfJson S) := by
  induction items with
  | nil => rfl
  | cons v vs ih => simp only [fieldValuesOfJson, List.map_cons, ih]

theorem fieldEntriesOfJson_eq_map (entries : List (String × Json)) :
    fieldEntriesOfJson S entries =
      entries.map (fun e => (⟨e.1, "str", S.repr e.1⟩, fieldValueOfJson S e.2)) := by
  induction entries with
  | nil => rfl
  | cons e es ih => simp only [fieldEntriesOfJson, List.map_cons, ih]

theorem cutText_of_le {s : String} (h : s.length ≤ targetSnapshotMaxValueLen) : cutText s = s := by
  rw [cutText, List.take_of_length_le (by rwa [String.length_toList]), String.ofList_toList]

def charge (b : Budget) (nodes bytes : ℕ) : Budget :=
  { b with nodes := b.nodes + nodes, bytes := b.bytes + bytes }

theorem spend_eq_charge {b : Budget} {nodes bytes : ℕ} (hnodes : b.nodes + nodes ≤ nodesLimit)
    (hbytes : b.bytes + bytes ≤ bytesLimit) :
    b.spend nodes bytes = (true, charge b nodes bytes) := spend_of_fits hnodes hbytes

/-- The pass keeps `v`, up to key order, in every budget with room for it. -/
def Keeps (S : SnapshotPlatform) (safe : SafePass) (v : Json) : Prop :=
  ∀ b : Budget, b.nodes + v.nodeCount ≤ nodesLimit →
    b.bytes + (v.dumps S.floatText).length ≤ bytesLimit →
    ∃ s, safe (fieldValueOfJson S v) b =
        (some s, charge b v.nodeCount (v.dumps S.floatText).length) ∧ Json.KeyEq s.raw v

theorem keeps_scalar {v : Json} (hscalar : v.isContainer = false)
    (hlength : ∀ s, v = .str s → s.length ≤ targetSnapshotMaxValueLen) (n : ℕ) :
    Keeps S (jsonSafeValue S n) v := by
  have hleaf : ∃ s : Scalar, s.toJson = v ∧ jsonSafeScalar s = s ∧
      ∀ b, jsonSafeValue S n (fieldValueOfJson S v) b = jsonSafeLeaf S s true b := by
    cases v with
    | null => exact ⟨.null, rfl, rfl, fun b => by cases n <;> rfl⟩
    | bool x => exact ⟨.bool x, rfl, rfl, fun b => by cases n <;> rfl⟩
    | int x => exact ⟨.int x, rfl, rfl, fun b => by cases n <;> rfl⟩
    | float q => exact ⟨.float q, rfl, rfl, fun b => by cases n <;> rfl⟩
    | str s =>
      refine ⟨.text s, rfl, ?_, fun b => by cases n <;> rfl⟩
      rw [jsonSafeScalar, cutText_of_le (hlength s rfl)]
    | arr items => cases hscalar
    | obj entries => cases hscalar
  obtain ⟨s, hs, hsafe, hpass⟩ := hleaf
  intro b hnodes hbytes
  have hcount : v.nodeCount = 1 := by cases v <;> first | rfl | cases hscalar
  rw [hcount] at hnodes ⊢
  have hspend := spend_eq_charge hnodes hbytes
  rw [hpass, jsonSafeLeaf, hsafe, hs, hspend]
  cases s with
  | text t =>
    simp only [jsonSafeScalar, Scalar.text.injEq] at hsafe
    simp only [hsafe]
    split_ifs
    · exact ⟨_, rfl, congrArg Json.sorted hs⟩
    · exact ⟨_, rfl, congrArg Json.sorted hs⟩
  | _ => exact ⟨_, rfl, congrArg Json.sorted hs⟩

def entriesCost (S : SnapshotPlatform) (output : List (String × SafeValue))
    (es : List (String × Json)) : ℕ :=
  if es.isEmpty then 0 else Json.comma output + (Json.dumpsEntries S.floatText es).length

theorem entriesCost_cons (output : List (String × SafeValue)) (e : String × Json)
    (es : List (String × Json)) (v : SafeValue) :
    entriesCost S output (e :: es) =
      mappingEntryBytes e.1 output + (e.2.dumps S.floatText).length +
        entriesCost S (output ++ [(e.1, v)]) es := by
  rw [entriesCost, entriesCost, Json.length_dumpsEntries_cons, Json.comma_append_singleton,
    mappingEntryBytes, keyLength]
  cases es with
  | nil => simp [Json.dumpsEntries]; omega
  | cons d ds => simp only [List.isEmpty_cons, Bool.false_eq_true, ↓reduceIte, Json.comma_cons]; omega

theorem appendSnapshotValues_keeps {es : List (String × Json)}
    (hkeeps : ∀ e ∈ es, Keeps S safe e.2) {output : List (String × SafeValue)} {b : Budget}
    (hnodup : (output.map Prod.fst ++ es.map Prod.fst).Nodup)
    (hnodes : b.nodes + Json.nodeCountEntries es ≤ nodesLimit)
    (hbytes : b.bytes + entriesCost S output es ≤ bytesLimit) :
    ∃ added, appendSnapshotValues safe (es.map (fun e => (e.1, fieldValueOfJson S e.2))) output b =
        (output ++ added, charge b (Json.nodeCountEntries es) (entriesCost S output es)) ∧
      List.Forall₂ Json.EntryEq (rawEntries added) es := by
  induction es generalizing output b with
  | nil => exact ⟨[], by simp [appendSnapshotValues, charge, entriesCost, Json.nodeCountEntries],
      .nil⟩
  | cons e es ih =>
    have hkey : e.1 ∉ output.map Prod.fst := fun hmem =>
      (List.nodup_append.mp hnodup).2.2 e.1 hmem e.1 (by simp) rfl
    have hcost := fun v => entriesCost_cons (S := S) output e es v
    have hfirst := hcost (.scalar .null)
    rw [Json.nodeCountEntries] at hnodes
    have hspend := @spend_eq_charge b 0 (mappingEntryBytes e.1 output) (by omega) (by omega)
    obtain ⟨v, hpass, hv⟩ := hkeeps e List.mem_cons_self
      (charge b 0 (mappingEntryBytes e.1 output)) (by simp only [charge]; omega)
      (by simp only [charge]; omega)
    have hnodup' : ((output ++ [(e.1, v)]).map Prod.fst ++ es.map Prod.fst).Nodup := by
      simpa [List.append_assoc] using hnodup
    have hv' := hcost v
    obtain ⟨added, hrest, hadded⟩ := @ih (fun d hd => hkeeps d (List.mem_cons_of_mem _ hd))
      (output ++ [(e.1, v)])
      (charge (charge b 0 (mappingEntryBytes e.1 output)) e.2.nodeCount
        (e.2.dumps S.floatText).length) hnodup'
      (by simp only [charge]; omega) (by simp only [charge]; omega)
    refine ⟨(e.1, v) :: added, ?_, ?_⟩
    · rw [List.map_cons, appendSnapshotValues, appendSnapshotValue_kept hspend hpass,
        set_of_fresh hkey, hrest, List.append_assoc, List.singleton_append]
      simp only [charge, hv', Json.nodeCountEntries, Prod.mk.injEq, Budget.mk.injEq, true_and,
        and_true]
      omega
    · exact .cons ⟨rfl, hv⟩ hadded

def itemsCost (S : SnapshotPlatform) (output : List SafeValue) (vs : List Json) : ℕ :=
  if vs.isEmpty then 0 else Json.comma output + (Json.dumpsItems S.floatText vs).length

theorem itemsCost_cons (output : List SafeValue) (v : Json) (vs : List Json) (w : SafeValue) :
    itemsCost S output (v :: vs) =
      Json.comma output + (v.dumps S.floatText).length + itemsCost S (output ++ [w]) vs := by
  rw [itemsCost, itemsCost, Json.length_dumpsItems_cons, Json.comma_append_singleton]
  cases vs with
  | nil => simp [Json.dumpsItems]
  | cons u us => simp only [List.isEmpty_cons, Bool.false_eq_true, ↓reduceIte, Json.comma_cons]; omega

theorem appendItems_keeps {vs : List Json} (hkeeps : ∀ v ∈ vs, Keeps S safe v)
    {output : List SafeValue} {b : Budget}
    (hnodes : b.nodes + Json.nodeCountItems vs ≤ nodesLimit)
    (hbytes : b.bytes + itemsCost S output vs ≤ bytesLimit) :
    ∃ added, appendItems safe (vs.map (fieldValueOfJson S)) output b =
        (output ++ added, charge b (Json.nodeCountItems vs) (itemsCost S output vs)) ∧
      List.Forall₂ Json.KeyEq (rawItems added) vs := by
  induction vs generalizing output b with
  | nil => exact ⟨[], by simp [appendItems, charge, itemsCost, Json.nodeCountItems], .nil⟩
  | cons v vs ih =>
    have hcost := fun w => itemsCost_cons (S := S) output v vs w
    have hfirst := hcost (.scalar .null)
    rw [Json.nodeCountItems] at hnodes
    have hspend := @spend_eq_charge b 0 (Json.comma output) (by omega) (by omega)
    obtain ⟨w, hpass, hw⟩ := hkeeps v List.mem_cons_self (charge b 0 (Json.comma output))
      (by simp only [charge]; omega) (by simp only [charge]; omega)
    have hw' := hcost w
    obtain ⟨added, hrest, hadded⟩ := @ih (fun u hu => hkeeps u (List.mem_cons_of_mem _ hu))
      (output ++ [w])
      (charge (charge b 0 (Json.comma output)) v.nodeCount (v.dumps S.floatText).length)
      (by simp only [charge]; omega) (by simp only [charge]; omega)
    refine ⟨w :: added, ?_, .cons hw hadded⟩
    rw [List.map_cons, appendItems_kept hspend hpass, hrest, List.append_assoc,
      List.singleton_append]
    simp only [charge, hw', Json.nodeCountItems, Prod.mk.injEq, Budget.mk.injEq, true_and, and_true]
    omega

/-! ### Containers -/

theorem dropRepeated_of_nodup {seen : List String} {items : List (String × FieldValue)}
    (hnodup : (items.map Prod.fst).Nodup) (hfresh : ∀ e ∈ items, e.1 ∉ seen) :
    dropRepeated seen items = (items, false) := by
  induction items generalizing seen with
  | nil => rfl
  | cons e es ih =>
    rw [List.map_cons, List.nodup_cons] at hnodup
    have hrest : ∀ d ∈ es, d.1 ∉ e.1 :: seen := by
      intro d hd hmem
      rcases List.mem_cons.mp hmem with heq | hmem
      · exact hnodup.1 (heq ▸ List.mem_map_of_mem hd)
      · exact hfresh d (List.mem_cons_of_mem e hd) hmem
    rw [dropRepeated, if_neg (hfresh e List.mem_cons_self), ih hnodup.2 hrest]

theorem mark_false (b : Budget) : b.mark false = b := by
  rw [Budget.mark, Bool.or_false]

def fieldEntryOfJson (S : SnapshotPlatform) (e : String × Json) : FieldKey × FieldValue :=
  (⟨e.1, "str", S.repr e.1⟩, fieldValueOfJson S e.2)

def entryLe (S : SnapshotPlatform) (d e : String × Json) : Prop :=
  (fieldEntryOfJson S d).1.le (fieldEntryOfJson S e).1

instance : DecidableRel (entryLe S) := fun _ _ => inferInstanceAs (Decidable (FieldKey.le _ _))

theorem orderedItems_ofJson {entries : List (String × Json)}
    (hlength : entries.length ≤ targetSnapshotMaxKeys)
    (hnames : ∀ e ∈ entries, e.1.length ≤ targetSnapshotMaxValueLen) :
    orderedItems (fieldEntriesOfJson S entries) =
      (entries.insertionSort (entryLe S)).map (fieldEntryOfJson S) := by
  have hcut : ((fieldEntriesOfJson S entries).take targetSnapshotMaxKeys).map
      (fun e => (({ e.1 with text := cutText e.1.text } : FieldKey), e.2)) =
        entries.map (fieldEntryOfJson S) := by
    rw [fieldEntriesOfJson_eq_map, List.take_of_length_le (by rwa [List.length_map]),
      List.map_map]
    refine List.map_congr_left (fun e he => ?_)
    simp only [Function.comp_apply, cutText_of_le (hnames e he), fieldEntryOfJson]
  have hsort : (entries.insertionSort (entryLe S)).map (fieldEntryOfJson S) =
      (entries.map (fieldEntryOfJson S)).insertionSort (fun d e => d.1.le e.1) :=
    List.map_insertionSort (entryLe S) _ _ _ (fun _ _ _ _ => Iff.rfl)
  rw [orderedItems, hcut, hsort]

/-- The entries of an object within the limits are all canonical, in another order. -/
theorem canonicalMappingItems_ofJson {entries : List (String × Json)}
    (hlength : entries.length ≤ targetSnapshotMaxKeys) (hnodup : (entries.map Prod.fst).Nodup)
    (hnames : ∀ e ∈ entries, e.1.length ≤ targetSnapshotMaxValueLen) (b : Budget) :
    canonicalMappingItems (fieldEntriesOfJson S entries) b =
      ((entries.insertionSort (entryLe S)).map (fun e => (e.1, fieldValueOfJson S e.2)), b) := by
  have hlong : decide (targetSnapshotMaxKeys < (fieldEntriesOfJson S entries).length) = false := by
    rw [fieldEntriesOfJson_eq_map, List.length_map]
    exact decide_eq_false (by omega)
  have hmap : ((entries.insertionSort (entryLe S)).map (fieldEntryOfJson S)).map
      (fun e => (e.1.text, e.2)) =
        (entries.insertionSort (entryLe S)).map (fun e => (e.1, fieldValueOfJson S e.2)) := by
    rw [List.map_map]
    rfl
  have hnodup' : (((entries.insertionSort (entryLe S)).map
      (fun e => (e.1, fieldValueOfJson S e.2))).map Prod.fst).Nodup := by
    rw [List.map_map]
    exact ((List.perm_insertionSort _ entries).map Prod.fst).nodup_iff.mpr hnodup
  rw [canonicalMappingItems, orderedItems_ofJson hlength hnames, hmap,
    dropRepeated_of_nodup hnodup' (fun e _ => List.not_mem_nil), hlong]
  simp only [mark_false]

theorem keeps_obj {entries : List (String × Json)}
    (hlength : entries.length ≤ targetSnapshotMaxKeys) (hnodup : (entries.map Prod.fst).Nodup)
    (hnames : ∀ e ∈ entries, e.1.length ≤ targetSnapshotMaxValueLen) {n : ℕ}
    (hkeeps : ∀ e ∈ entries, Keeps S (jsonSafeValue S n) e.2) :
    Keeps S (jsonSafeValue S (n + 1)) (.obj entries) := by
  intro b hnodes hbytes
  rw [Json.nodeCount] at hnodes
  rw [Json.length_dumps_obj] at hbytes
  have hspend := @spend_eq_charge b 1 2 (by omega) (by omega)
  have hcanonical := @canonicalMappingItems_ofJson S entries hlength hnodup hnames (charge b 1 2)
  have hperm := List.perm_insertionSort (entryLe S) entries
  generalize entries.insertionSort (entryLe S) = ordered at hcanonical hperm
  have hnodes' := Json.nodeCountEntries_perm hperm
  have hcost : entriesCost S [] ordered = (Json.dumpsEntries S.floatText entries).length := by
    rw [entriesCost, ← Json.length_dumpsEntries_perm S.floatText hperm]
    cases ordered with
    | nil => rfl
    | cons e es => simp
  have hordered : (ordered.map Prod.fst).Nodup := (hperm.map Prod.fst).nodup_iff.mpr hnodup
  obtain ⟨added, hloop, hadded⟩ := @appendSnapshotValues_keeps S (jsonSafeValue S n) ordered
    (fun e he => hkeeps e (hperm.subset he)) [] (charge b 1 2) (by simpa using hordered)
    (by simp only [charge]; omega) (by simp only [charge]; omega)
  refine ⟨.mapping added, ?_, ?_⟩
  · rw [fieldValueOfJson, jsonSafeValue, jsonSafeMapping, hspend]
    simp only [hcanonical, hloop, List.nil_append]
    rw [Json.nodeCount, Json.length_dumps_obj, hcost, hnodes']
    simp only [charge, Prod.mk.injEq, Budget.mk.injEq, true_and, and_true]
    omega
  · exact Json.keyEq_obj_of_forall₂ hadded hperm hnodup

theorem keeps_arr {items : List Json} (hlength : items.length ≤ targetSnapshotMaxItems) {n : ℕ}
    (hkeeps : ∀ v ∈ items, Keeps S (jsonSafeValue S n) v) :
    Keeps S (jsonSafeValue S (n + 1)) (.arr items) := by
  intro b hnodes hbytes
  rw [Json.nodeCount] at hnodes
  rw [Json.length_dumps_arr] at hbytes
  have hspend := @spend_eq_charge b 1 2 (by omega) (by omega)
  have hcost : itemsCost S [] items = (Json.dumpsItems S.floatText items).length := by
    rw [itemsCost]
    cases items with
    | nil => rfl
    | cons v vs => simp
  obtain ⟨added, hloop, hadded⟩ := @appendItems_keeps S (jsonSafeValue S n) items hkeeps []
    (charge b 1 2) (by simp only [charge]; omega) (by simp only [charge]; omega)
  have hcount : added.length = items.length := by
    have hlen := hadded.length_eq
    rwa [rawItems_eq_map, List.length_map] at hlen
  refine ⟨.sequence added, ?_, Json.keyEq_arr_iff.mpr hadded⟩
  rw [fieldValueOfJson, jsonSafeValue, jsonSafeSequence, hspend, fieldValuesOfJson_eq_map,
    List.take_of_length_le (by rwa [List.length_map])]
  simp only [hloop, List.nil_append, hcount, List.length_map, lt_irrefl, decide_false, mark_false]
  rw [Json.nodeCount, Json.length_dumps_arr, hcost]
  simp only [charge, Prod.mk.injEq, Budget.mk.injEq, true_and, and_true]
  omega

/-- A value within the limits is kept at every depth it fits. -/
theorem keeps_of_bounded {n : ℕ} {v : Json} (h : Bounded n v) : Keeps S (jsonSafeValue S n) v := by
  induction n generalizing v with
  | zero =>
    have hscalar : v.isContainer = false := by simpa [Json.nestsWithin] using h.nestsWithin
    exact keeps_scalar hscalar (fun s hs => by subst hs; exact h) 0
  | succ n ih =>
    cases v with
    | arr items => exact keeps_arr h.1 (fun v hv => ih (h.2 v hv))
    | obj entries =>
      exact keeps_obj h.1 h.2.1 (fun e he => (h.2.2 e he).1) (fun e he => ih (h.2.2 e he).2)
    | str s => exact keeps_scalar rfl (fun t ht => by cases ht; exact h) (n + 1)
    | null | bool b | int i | float q => exact keeps_scalar rfl (fun s hs => by cases hs) (n + 1)

end

/-! ## Where the entries of a snapshot come from -/

def TargetObject.sources (t : TargetObject) : List (String × FieldValue) :=
  [("id", t.pk.getD t.id), ("display", .scalar (.text t.str))] ++
    t.name.toList.map (fun v => ("name", v)) ++
    t.customFieldData.toList.map (fun v => ("custom_fields", v)) ++
    (t.fieldItems .empty).1.map (fun e => (cutText e.1, e.2))

def TargetObject.plainSources (t : TargetObject) : List (String × FieldValue) :=
  [("id", t.pk.getD t.id), ("display", .scalar (.text t.str))] ++
    t.name.toList.map (fun v => ("name", v)) ++
    (t.fieldItems .empty).1.map (fun e => (cutText e.1, e.2))

theorem TargetObject.plainSources_subset (t : TargetObject) : t.plainSources ⊆ t.sources := by
  intro e he
  simp only [plainSources, sources, List.mem_append] at he ⊢
  tauto

def openFields (entries : List (FieldKey × FieldValue)) : List (FieldKey × FieldValue) :=
  entries.filter (fun e => !isSensitiveField (cutText e.1.text))

section

variable {S : SnapshotPlatform} {t : TargetObject}

/-- An entry of the snapshot: the pass over a source, or the mapping of custom fields, in both cases
under names that are not sensitive. -/
def Sourced (S : SnapshotPlatform) (t : TargetObject) (e : String × SafeValue) : Prop :=
  isSensitiveField e.1 = false ∧
    ((∃ value, (e.1, value) ∈ t.plainSources ∧ (fieldPass S).Returns value e.2) ∨
      e.1 = "custom_fields" ∧ ∃ entries, t.customFieldData = some (.mapping entries) ∧
        MappingFrom (fieldPass S) (openFields entries) e.2)

theorem sourced_appendSnapshotValue {r : List (String × SafeValue) × Budget} {key : String}
    {value : FieldValue} (h : ∀ e ∈ r.1, Sourced S t e) (hsource : (key, value) ∈ t.plainSources)
    (hopen : isSensitiveField key = false) (hkey : key ∉ r.1.map Prod.fst) :
    ∀ e ∈ (appendSnapshotValue (fieldPass S) r.1 key value r.2).1, Sourced S t e := by
  intro e he
  rcases @appendSnapshotValue_cases (fieldPass S) r.1 key value r.2 hkey with
    hsame | ⟨v, hv, hadded⟩
  · exact h e (hsame ▸ he)
  · rw [hadded] at he
    rcases List.mem_append.mp he with he | he
    · exact h e he
    · rw [List.mem_singleton.mp he]
      exact ⟨hopen, .inl ⟨value, hsource, hv⟩⟩

theorem appendCustomFields_cases {snapshot : List (String × SafeValue)}
    {customFields : List (FieldKey × FieldValue)} {b : Budget}
    (hkey : "custom_fields" ∉ snapshot.map Prod.fst) :
    (appendCustomFields S snapshot customFields b).1 = snapshot ∨
      ∃ v, MappingFrom (fieldPass S) (openFields customFields) v ∧
        (appendCustomFields S snapshot customFields b).1 = snapshot ++ [("custom_fields", v)] := by
  rw [appendCustomFields]
  split
  · exact .inl rfl
  · split
    · exact .inl rfl
    · simp only
      split_ifs
      · exact .inl rfl
      · refine .inr ⟨_, mappingFrom_appendSnapshotValues List.filter_sublist ?_, set_of_fresh hkey _⟩
        intro e he key hentry hname
        refine List.mem_filter.mpr ⟨hentry, ?_⟩
        rw [← hname]
        exact (List.mem_filter.mp he).2

theorem sourced_appendFields {items : List (String × FieldValue)}
    {snapshot : List (String × SafeValue)} {b : Budget} (h : ∀ e ∈ snapshot, Sourced S t e)
    (hsource : ∀ e ∈ items, (cutText e.1, e.2) ∈ t.plainSources) :
    ∀ e ∈ (appendFields S items snapshot b).1, Sourced S t e := by
  induction items generalizing snapshot b with
  | nil => exact h
  | cons d ds ih =>
    have hrest : ∀ e ∈ ds, (cutText e.1, e.2) ∈ t.plainSources :=
      fun e he => hsource e (List.mem_cons_of_mem d he)
    rw [appendFields]
    simp only
    split_ifs with hskip hfull
    · exact ih h hrest
    · exact h
    · simp only [Bool.or_eq_true, not_or, List.any_eq_true, not_exists, not_and] at hskip
      have hkey : cutText d.1 ∉ snapshot.map Prod.fst := by
        intro hmem
        obtain ⟨c, hc, hcd⟩ := List.mem_map.mp hmem
        exact hskip.2 c hc (by simp [hcd])
      exact ih (@sourced_appendSnapshotValue S t (snapshot, b) (cutText d.1) d.2 h
        (hsource d List.mem_cons_self) (Bool.eq_false_iff.mpr hskip.1.2) hkey) hrest

theorem fieldItems_fst (t : TargetObject) (b b' : Budget) :
    (t.fieldItems b).1 = (t.fieldItems b').1 := by
  rw [TargetObject.fieldItems, TargetObject.fieldItems]
  split_ifs <;> rfl

/-- Every entry of a snapshot before the marker has its source. -/
theorem sourced_snapshotFields (S : SnapshotPlatform) (t : TargetObject) :
    ∀ e ∈ (snapshotFields S t).1, Sourced S t e := by
  have hmem : ∀ name value, (name, value) ∈
      [("id", t.pk.getD t.id), ("display", FieldValue.scalar (.text t.str))] →
        (name, value) ∈ t.plainSources := fun name value h => by
    simp only [TargetObject.plainSources, List.append_assoc]
    exact List.mem_append_left _ h
  -- The identifier and the display text.
  have hopened : Started S [] (([] : List (String × SafeValue)), openedBudget) :=
    ⟨⟨⟨rfl, rfl, ⟨by decide, by decide⟩, id⟩, by simp, by simp, by decide⟩, by simp⟩
  have hidentity : ∀ e ∈ (appendIdentity S t).1, Sourced S t e := by
    have hid := @Started.appendSnapshotValue S [] _ hopened "id" (by simp) (by decide) (by decide)
      (t.pk.getD t.id)
    have hfirst := @sourced_appendSnapshotValue S t ([], openedBudget) "id" (t.pk.getD t.id)
      (by simp) (hmem _ _ (by simp)) (by decide +kernel) (by simp)
    rw [appendIdentity, spend_empty]
    refine sourced_appendSnapshotValue hfirst (hmem _ _ (by simp)) (by decide +kernel)
      (fun hdisplay => ?_)
    simpa using hid.named.subset hdisplay
  obtain ⟨hstarted, hne⟩ := @started_appendIdentity S t
  obtain ⟨hnamed, _⟩ := started_appendName t hstarted hne
  have hname : ∀ e ∈ (appendName S t (appendIdentity S t)).1, Sourced S t e := by
    rw [appendName]
    cases hcase : t.name with
    | none => exact hidentity
    | some name =>
      refine sourced_appendSnapshotValue hidentity ?_ (by decide +kernel) (fun hmem => ?_)
      · simp [TargetObject.plainSources, hcase]
      · simpa using hstarted.named.subset hmem
  have hcustom : ∀ e ∈ (appendCustomFieldData S t (appendName S t (appendIdentity S t))).1,
      Sourced S t e := by
    have hkey : "custom_fields" ∉ (appendName S t (appendIdentity S t)).1.map Prod.fst :=
      fun hmem => by simpa using hnamed.named.subset hmem
    rw [appendCustomFieldData]
    split
    · rename_i d ds hdata
      intro e he
      rcases @appendCustomFields_cases S _ (d :: ds) _ hkey with hsame | ⟨v, hv, hadded⟩
      · exact hname e (hsame ▸ he)
      · rw [hadded] at he
        rcases List.mem_append.mp he with he | he
        · exact hname e he
        · rw [List.mem_singleton.mp he]
          have hopen : isSensitiveField "custom_fields" = false := by decide +kernel
          exact ⟨hopen, .inr ⟨rfl, d :: ds, hdata, hv⟩⟩
    · exact hname
  rw [snapshotFields]
  refine sourced_appendFields hcustom (fun e he => ?_)
  rw [fieldItems_fst t _ .empty] at he
  simp only [TargetObject.plainSources]
  exact List.mem_append_right _ (List.mem_map_of_mem he)

end

/-! ## The persisted copy -/

section

variable {S : SnapshotPlatform} {t : TargetObject}

def markerEntry (truncated : Bool) : List (String × SafeValue) :=
  if truncated then [(targetSnapshotMarker, .scalar (.bool true))] else []

theorem marker_not_mem_snapshotFields (S : SnapshotPlatform) (t : TargetObject) :
    targetSnapshotMarker ∉ (snapshotFields S t).1.map Prod.fst := by
  intro hmem
  obtain ⟨e, he, hname⟩ := List.mem_map.mp hmem
  exact (snapshotFields_soFar S t).1.unmarked e he (by rw [hname]; decide)

theorem buildTargetObjectSnapshot_fst (S : SnapshotPlatform) (t : TargetObject) :
    (buildTargetObjectSnapshot S t).1 =
      (snapshotFields S t).1 ++ markerEntry (snapshotFields S t).2.truncated := by
  rw [buildTargetObjectSnapshot]
  by_cases htruncated : (snapshotFields S t).2.truncated = true
  · simp only [htruncated, ↓reduceIte, addMarker, markerEntry]
    exact set_of_fresh (marker_not_mem_snapshotFields S t) _
  · simp [htruncated, markerEntry]

theorem nodup_snapshot (S : SnapshotPlatform) (t : TargetObject) :
    ((buildTargetObjectSnapshot S t).1.map Prod.fst).Nodup := by
  rw [buildTargetObjectSnapshot_fst, List.map_append, List.nodup_append]
  refine ⟨(snapshotFields_soFar S t).1.nodup, ?_, fun a ha b hb hab => ?_⟩
  · rw [markerEntry]
    split_ifs <;> simp
  · rw [markerEntry] at hb
    split_ifs at hb
    · simp only [List.map_cons, List.map_nil, List.mem_singleton] at hb
      exact marker_not_mem_snapshotFields S t (hb ▸ hab ▸ ha)
    · cases hb

theorem filter_marker_snapshot (S : SnapshotPlatform) (t : TargetObject) :
    (rawEntries (buildTargetObjectSnapshot S t).1).filter (fun e => e.1 != targetSnapshotMarker) =
      rawEntries (snapshotFields S t).1 := by
  rw [buildTargetObjectSnapshot_fst, rawEntries_eq_map, rawEntries_eq_map, List.map_append,
    List.filter_append]
  have hkeep : ((snapshotFields S t).1.map (fun e => (e.1, e.2.raw))).filter
      (fun e => e.1 != targetSnapshotMarker) =
        (snapshotFields S t).1.map (fun e => (e.1, e.2.raw)) := by
    rw [List.filter_eq_self]
    intro e he
    obtain ⟨d, hd, rfl⟩ := List.mem_map.mp he
    rw [bne_iff_ne]
    exact fun hname => marker_not_mem_snapshotFields S t (hname ▸ List.mem_map_of_mem hd)
  have hdrop : ((markerEntry (snapshotFields S t).2.truncated).map
      (fun e => (e.1, e.2.raw))).filter (fun e => e.1 != targetSnapshotMarker) = [] := by
    rw [markerEntry]
    split_ifs <;> simp
  rw [hkeep, hdrop, List.append_nil]

theorem bounded_snapshotFields {e : String × SafeValue} (he : e ∈ (snapshotFields S t).1) :
    Bounded targetSnapshotMaxDepth e.2.raw ∨
      e.1 = "custom_fields" ∧ Bounded (targetSnapshotMaxDepth + 1) e.2.raw := by
  obtain ⟨_, ⟨value, _, hreturns⟩ | ⟨hname, entries, _, hmapping⟩⟩ := sourced_snapshotFields S t e he
  · exact .inl (bounded_of_returns hreturns)
  · exact .inr ⟨hname, hmapping.bounded (fun _ _ h => bounded_of_returns h)⟩

def persistedOrder (entries : List (String × Json)) : List (String × Json) :=
  (entries.insertionSort Json.keyLe).filter (fun e => e.1 != targetSnapshotMarker)

theorem persistedItems_eq (entries : List (String × Json)) :
    persistedItems S entries =
      (persistedOrder entries).map (fun e => (e.1, fieldValueOfJson S e.2)) := rfl

theorem persistedOrder_perm (entries : List (String × Json)) :
    (persistedOrder entries).Perm (entries.filter (fun e => e.1 != targetSnapshotMarker)) :=
  (List.perm_insertionSort Json.keyLe entries).filter _

def persistedLoop (S : SnapshotPlatform) (entries : List (String × Json)) :
    List (String × SafeValue) × Budget :=
  appendSnapshotValues (fieldPass S) (persistedItems S entries) [] openedBudget

theorem nodup_persistedItems {entries : List (String × Json)}
    (hnodup : (entries.map Prod.fst).Nodup) :
    (([] : List (String × SafeValue)).map Prod.fst ++
      (persistedItems S entries).map Prod.fst).Nodup := by
  rw [List.map_nil, List.nil_append, persistedItems_eq, List.map_map]
  exact ((persistedOrder_perm entries).map Prod.fst).nodup_iff.mpr
    (hnodup.sublist (List.filter_sublist.map Prod.fst))

/-- An entry of the second traversal has the name and a pass of a redacted entry. -/
theorem mem_persistedLoop {entries : List (String × Json)}
    (hnodup : (entries.map Prod.fst).Nodup) {e : String × SafeValue}
    (he : e ∈ (persistedLoop S entries).1) :
    e.1 ≠ targetSnapshotMarker ∧ ∃ v, (e.1, v) ∈ entries ∧
      (fieldPass S).Returns (fieldValueOfJson S v) e.2 := by
  rcases (appendSnapshotValues_returns (nodup_persistedItems hnodup)).2 e he with
    hmem | ⟨value, hmem, hreturns⟩
  · cases hmem
  · rw [persistedItems_eq] at hmem
    obtain ⟨d, hd, hde⟩ := List.mem_map.mp hmem
    obtain ⟨hname, rfl⟩ := Prod.mk.inj hde
    have hfiltered := List.mem_filter.mp ((persistedOrder_perm entries).subset hd)
    have hne := hfiltered.2
    rw [bne_iff_ne, hname] at hne
    exact ⟨hne, d.2, hname ▸ hfiltered.1, hreturns⟩

theorem boundedPersistedSnapshot_eq {snapshot : Json} {entries : List (String × Json)}
    (h : redactEventValue S.platform [] snapshot = .obj entries)
    (hnodup : (entries.map Prod.fst).Nodup) :
    boundedPersistedSnapshot S snapshot = (persistedLoop S entries).1 ++
      markerEntry ((persistedLoop S entries).2.truncated ||
        Json.find entries targetSnapshotMarker == some (.bool true)) := by
  have hmarker : targetSnapshotMarker ∉ (persistedLoop S entries).1.map Prod.fst := by
    intro hmem
    obtain ⟨e, he, hname⟩ := List.mem_map.mp hmem
    exact (mem_persistedLoop hnodup he).1 hname
  have hloop : appendSnapshotValues (fieldPass S) (persistedItems S entries) [] openedBudget =
      persistedLoop S entries := rfl
  rw [boundedPersistedSnapshot, h]
  simp only [spend_empty, hloop]
  split_ifs with hmark
  · rw [hmark, addMarker, set_of_fresh hmarker]
    rfl
  · rw [Bool.eq_false_iff.mpr hmark]
    simp [markerEntry]

/-- The second traversal is the identity, up to key order, on entries that fit. -/
theorem persistedLoop_keeps {entries others : List (String × Json)}
    (hsame : Json.KeyEq (.obj (others.filter (fun e => e.1 != targetSnapshotMarker)))
      (.obj entries))
    (hnodup : (entries.map Prod.fst).Nodup)
    (hbounded : ∀ e ∈ entries, Bounded targetSnapshotMaxDepth e.2)
    (hnodes : 1 + Json.nodeCountEntries entries ≤ nodesLimit)
    (hbytes : 2 + (Json.dumpsEntries S.floatText entries).length ≤ bytesLimit) :
    (persistedLoop S others).2.truncated = false ∧
      Json.KeyEq (.obj (rawEntries (persistedLoop S others).1)) (.obj entries) := by
  have hperm := persistedOrder_perm others
  have hnames := Json.perm_map_fst_of_keyEq_obj hsame
  have hfiltered := hnames.nodup_iff.mpr hnodup
  have horder : ((persistedOrder others).map Prod.fst).Nodup :=
    (hperm.map Prod.fst).nodup_iff.mpr hfiltered
  -- The order does not change the sizes.
  have hcount := Json.nodeCount_of_keyEq hsame
  rw [Json.nodeCount, Json.nodeCount, ← Json.nodeCountEntries_perm hperm] at hcount
  have hlength := Json.length_dumps_of_keyEq S.floatText hsame
  rw [Json.length_dumps_obj, Json.length_dumps_obj,
    ← Json.length_dumpsEntries_perm S.floatText hperm] at hlength
  have hcost : entriesCost S [] (persistedOrder others) ≤
      (Json.dumpsEntries S.floatText (persistedOrder others)).length := by
    rw [entriesCost]
    split_ifs <;> simp
  have hkeeps : ∀ e ∈ persistedOrder others, Keeps S (fieldPass S) e.2 := by
    intro e he
    obtain ⟨d, hd, hed⟩ := Json.exists_mem_of_keyEq_obj hsame (hperm.subset he)
    exact keeps_of_bounded ((hbounded d hd).of_keyEq hed.2.symm)
  obtain ⟨added, hloop, hadded⟩ := @appendSnapshotValues_keeps S (fieldPass S)
    (persistedOrder others) hkeeps [] openedBudget (by simpa using horder)
    (by simp only [openedBudget]; omega) (by simp only [openedBudget]; omega)
  have hresult : persistedLoop S others = (added, charge openedBudget
      (Json.nodeCountEntries (persistedOrder others))
      (entriesCost S [] (persistedOrder others))) := hloop
  rw [hresult]
  exact ⟨rfl, (Json.keyEq_obj_of_forall₂ hadded hperm hfiltered).trans hsame⟩

theorem find_marker {others : List (String × Json)}
    (hsame : Json.KeyEq (.obj others) (.obj (rawEntries (buildTargetObjectSnapshot S t).1)))
    (hnodup : (others.map Prod.fst).Nodup) :
    (Json.find others targetSnapshotMarker == some (.bool true)) =
      (snapshotFields S t).2.truncated := by
  have hnodup' : ((rawEntries (buildTargetObjectSnapshot S t).1).map Prod.fst).Nodup := by
    rw [map_fst_rawEntries]
    exact nodup_snapshot S t
  have hfind := Json.find_of_keyEq_obj hsame hnodup' hnodup targetSnapshotMarker
  have hbuilt : Json.find (rawEntries (buildTargetObjectSnapshot S t).1) targetSnapshotMarker =
      if (snapshotFields S t).2.truncated then some (.bool true) else none := by
    split_ifs with htruncated
    · rw [Json.find_eq_some_iff hnodup', buildTargetObjectSnapshot_fst, rawEntries_eq_map,
        List.map_append, htruncated]
      exact List.mem_append_right _ (by simp [markerEntry, raw, Scalar.toJson])
    · rw [← Option.not_isSome_iff_eq_none]
      intro hsome
      obtain ⟨v, hv⟩ := Option.isSome_iff_exists.mp hsome
      have hmem := List.mem_map_of_mem (f := Prod.fst) (Json.mem_of_find hv)
      rw [map_fst_rawEntries, buildTargetObjectSnapshot_fst, Bool.eq_false_iff.mpr htruncated] at hmem
      exact marker_not_mem_snapshotFields S t (by simpa [markerEntry] using hmem)
  rw [hbuilt] at hfind
  cases hcase : Json.find others targetSnapshotMarker with
  | none =>
    rw [hcase] at hfind
    split_ifs at hfind with htruncated
    · cases hfind
    · simpa using htruncated
  | some v =>
    rw [hcase] at hfind
    split_ifs at hfind with htruncated
    · have hv : v = .bool true := Json.eq_of_keyEq_scalar (Option.some.inj hfind) rfl
      rw [hv, htruncated]
      rfl
    · cases hfind

/-- The second traversal keeps a snapshot that redaction does not change and whose custom fields
nest no deeper than a traversal keeps. -/
theorem keyEq_persistedSnapshot {S : SnapshotPlatform} {t : TargetObject}
    (hharmless : Json.KeyEq
      (redactEventValue S.platform []
        (freeTextPolicyCopy S (.mapping (buildTargetObjectSnapshot S t).1)))
      (.obj (rawEntries (buildTargetObjectSnapshot S t).1)))
    (hnests : ∀ customFields,
      Json.find (rawEntries (buildTargetObjectSnapshot S t).1) "custom_fields" = some customFields →
        customFields.nestsWithin targetSnapshotMaxDepth = true) :
    Json.KeyEq (.obj (persistedSnapshot S t))
      (.obj (rawEntries (buildTargetObjectSnapshot S t).1)) := by
  obtain ⟨others, hothers⟩ := Json.exists_obj_of_keyEq hharmless
  have hsame := hharmless
  rw [hothers] at hsame
  have hnodup : ((rawEntries (buildTargetObjectSnapshot S t).1).map Prod.fst).Nodup := by
    rw [map_fst_rawEntries]
    exact nodup_snapshot S t
  have hnodup' : (others.map Prod.fst).Nodup :=
    (Json.perm_map_fst_of_keyEq_obj hsame).nodup_iff.mpr hnodup
  rw [persistedSnapshot, boundedPersistedSnapshot_eq hothers hnodup', find_marker hsame hnodup']
  have hbounded : ∀ e ∈ rawEntries (snapshotFields S t).1,
      Bounded targetSnapshotMaxDepth e.2 := by
    intro e he
    rw [rawEntries_eq_map] at he
    obtain ⟨d, hd, rfl⟩ := List.mem_map.mp he
    rcases bounded_snapshotFields hd with hd' | ⟨hname, hd'⟩
    · exact hd'
    · refine hd'.of_nestsWithin (hnests d.2.raw ?_)
      rw [Json.find_eq_some_iff hnodup, buildTargetObjectSnapshot_fst, rawEntries_eq_map,
        List.map_append, ← hname]
      exact List.mem_append_left _ (List.mem_map_of_mem hd)
  have hsoFar := (snapshotFields_soFar S t).1
  have hfilter := Json.keyEq_obj_filter hsame hnodup (fun name => name != targetSnapshotMarker)
  rw [filter_marker_snapshot] at hfilter
  have hfields : ((rawEntries (snapshotFields S t).1).map Prod.fst).Nodup := by
    rw [map_fst_rawEntries]
    exact hsoFar.nodup
  have hnodes : 1 + Json.nodeCountEntries (rawEntries (snapshotFields S t).1) ≤ nodesLimit :=
    hsoFar.accounts.nodes_eq ▸ hsoFar.accounts.within.1
  have hbytes : 2 + (Json.dumpsEntries S.floatText (rawEntries (snapshotFields S t).1)).length ≤
      bytesLimit := hsoFar.accounts.bytes_eq ▸ hsoFar.accounts.within.2
  obtain ⟨hmark, hloop⟩ := persistedLoop_keeps hfilter hfields hbounded hnodes hbytes
  rw [buildTargetObjectSnapshot_fst, rawEntries_append] at hnodup
  rw [hmark, Bool.false_or, buildTargetObjectSnapshot_fst, rawEntries_append, rawEntries_append]
  obtain ⟨paired, hpaired, hperm⟩ := Json.forall₂_of_keyEq_obj hloop
  have hmarker : List.Forall₂ Json.EntryEq
      (rawEntries (markerEntry (snapshotFields S t).2.truncated))
      (rawEntries (markerEntry (snapshotFields S t).2.truncated)) :=
    List.forall₂_same.mpr (fun e _ => ⟨rfl, rfl⟩)
  exact Json.keyEq_obj_of_forall₂ (List.rel_append hpaired hmarker) (hperm.append_right _) hnodup

/-- A snapshot that redaction does not change is stored unchanged exactly when its custom fields,
counted from the `custom_fields` mapping, nest no deeper than a traversal keeps. -/
theorem harmless_snapshot_stored_iff (S : SnapshotPlatform) (t : TargetObject)
    (hharmless : Json.KeyEq
      (redactEventValue S.platform []
        (freeTextPolicyCopy S (.mapping (buildTargetObjectSnapshot S t).1)))
      (.obj (rawEntries (buildTargetObjectSnapshot S t).1))) :
    Json.KeyEq (.obj (persistedSnapshot S t))
        (.obj (rawEntries (buildTargetObjectSnapshot S t).1)) ↔
      ∀ customFields, Json.find (rawEntries (buildTargetObjectSnapshot S t).1) "custom_fields" =
        some customFields → customFields.nestsWithin targetSnapshotMaxDepth = true := by
  refine ⟨fun hstored customFields hfind => ?_, keyEq_persistedSnapshot hharmless⟩
  obtain ⟨others, hothers⟩ := Json.exists_obj_of_keyEq hharmless
  have hsame := hharmless
  rw [hothers] at hsame
  have hnodup : ((rawEntries (buildTargetObjectSnapshot S t).1).map Prod.fst).Nodup := by
    rw [map_fst_rawEntries]
    exact nodup_snapshot S t
  have hnodup' : (others.map Prod.fst).Nodup :=
    (Json.perm_map_fst_of_keyEq_obj hsame).nodup_iff.mpr hnodup
  rw [persistedSnapshot, boundedPersistedSnapshot_eq hothers hnodup', find_marker hsame hnodup']
    at hstored
  obtain ⟨e, he, hname, hvalue⟩ := Json.exists_mem_of_keyEq_obj hstored.symm
    (Json.mem_of_find hfind)
  rw [rawEntries_eq_map] at he
  obtain ⟨d, hd, rfl⟩ := List.mem_map.mp he
  have hloop : d ∈ (persistedLoop S others).1 := by
    rcases List.mem_append.mp hd with hd | hd
    · exact hd
    · -- The marker has another name.
      rw [markerEntry] at hd
      split_ifs at hd
      · rw [List.mem_singleton.mp hd] at hname
        exact absurd (show "custom_fields" = targetSnapshotMarker from hname) (by decide)
      · cases hd
  obtain ⟨_, v, _, hreturns⟩ := mem_persistedLoop hnodup' hloop
  exact Json.nestsWithin_of_keyEq hvalue.symm (bounded_of_returns hreturns).nestsWithin

end

/-! ## A custom field of four levels -/

def plainPlatform : SnapshotPlatform where
  platform := default
  floatText := fun _ => "0.0"
  repr := id
  keyDigest := fun _ => ""
  keyDigest_hex := emptyDigest_hex
  rawDigest := fun _ => ""

def customTarget (customFields : FieldValue) : TargetObject where
  pk := some (.scalar (.int 1))
  id := .scalar .null
  str := "d"
  name := none
  customFieldData := some customFields
  metaFields := []
  dict := []

def single (name : String) (value : FieldValue) : FieldValue :=
  .mapping [(⟨name, "str", name⟩, value)]

theorem shallow_field_harmless : Json.KeyEq
    (redactEventValue plainPlatform.platform [] (freeTextPolicyCopy plainPlatform
      (.mapping (buildTargetObjectSnapshot plainPlatform (customTarget (single "a" (.mapping [])))).1)))
    (.obj (rawEntries (buildTargetObjectSnapshot plainPlatform
      (customTarget (single "a" (.mapping [])))).1)) := by
  decide +kernel

theorem harmless_snapshot_stored_iff_shallow :
    Json.KeyEq (.obj (persistedSnapshot plainPlatform (customTarget (single "a" (.mapping [])))))
        (.obj (rawEntries (buildTargetObjectSnapshot plainPlatform
          (customTarget (single "a" (.mapping [])))).1)) ↔
      ∀ customFields, Json.find (rawEntries (buildTargetObjectSnapshot plainPlatform
          (customTarget (single "a" (.mapping [])))).1) "custom_fields" = some customFields →
        customFields.nestsWithin targetSnapshotMaxDepth = true :=
  harmless_snapshot_stored_iff plainPlatform _ shallow_field_harmless

def deepField : FieldValue := single "a" (single "b" (single "c" (single "d" (.mapping []))))

/-- The innermost mapping is captured, redaction leaves it alone, and it is stored as
`[truncated]`. -/
theorem deep_field_cut :
    Json.KeyEq
        (redactEventValue plainPlatform.platform [] (freeTextPolicyCopy plainPlatform
          (.mapping (buildTargetObjectSnapshot plainPlatform (customTarget deepField)).1)))
        (.obj (rawEntries (buildTargetObjectSnapshot plainPlatform (customTarget deepField)).1)) ∧
      ¬ Json.KeyEq (.obj (persistedSnapshot plainPlatform (customTarget deepField)))
        (.obj (rawEntries (buildTargetObjectSnapshot plainPlatform (customTarget deepField)).1)) := by
  decide +kernel

end NetboxRpc
