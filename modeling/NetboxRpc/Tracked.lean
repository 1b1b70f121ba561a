import NetboxRpc.Ranges

/-!
# Lists that know where their elements come from

Each element carries the position it had in an original list, or none when it was inserted. What
is kept of the original is a part of it in order, and tracking composes.
-/

abbrev Tracked (α : Type) := List (α × Option ℕ)

namespace Tracked

variable {α : Type}

def whole (xs : List α) : Tracked α := xs.zipIdx.map (fun x => (x.1, some x.2))

def inserted (xs : List α) : Tracked α := xs.map (fun x => (x, none))

def kept (t : Tracked α) : List (α × ℕ) := t.filterMap (fun e => e.2.map (fun i => (e.1, i)))

def Keeps (xs : List α) (t : Tracked α) : Prop := (kept t).Sublist xs.zipIdx

def through (inner outer : Tracked α) : Tracked α :=
  outer.map (fun e => (e.1, e.2.bind (fun j => inner[j]?.bind Prod.snd)))

@[simp] theorem map_fst_whole (xs : List α) : (whole xs).map Prod.fst = xs := by
  rw [whole, List.map_map]
  exact List.zipIdx_map_fst 0 xs

theorem whole_take (xs : List α) (n : ℕ) : whole (xs.take n) = (whole xs).take n := by
  rw [whole, whole, ← List.map_take]
  congr 1
  refine List.ext_getElem? (fun i => ?_)
  rw [List.getElem?_zipIdx, List.getElem?_take, List.getElem?_take, List.getElem?_zipIdx]
  split_ifs <;> rfl

theorem source_of_whole {xs : List α} {i : ℕ} {e : α × Option ℕ} (h : (whole xs)[i]? = some e) :
    e.2 = some i := by
  rw [whole, List.getElem?_map, List.getElem?_zipIdx] at h
  obtain ⟨x, hx, rfl⟩ := Option.map_eq_some_iff.mp h
  obtain ⟨y, _, rfl⟩ := Option.map_eq_some_iff.mp hx
  exact congrArg some (Nat.zero_add i)

@[simp] theorem map_fst_inserted (xs : List α) : (inserted xs).map Prod.fst = xs := by
  simp [inserted, Function.comp_def]

@[simp] theorem map_fst_through (inner outer : Tracked α) :
    (through inner outer).map Prod.fst = outer.map Prod.fst := by
  simp [through]

@[simp] theorem kept_whole (xs : List α) : kept (whole xs) = xs.zipIdx := by
  simp [kept, whole, List.filterMap_map]

@[simp] theorem kept_inserted (xs : List α) : kept (inserted xs) = [] := by
  simp [kept, inserted, List.filterMap_map]

theorem kept_append (s t : Tracked α) : kept (s ++ t) = kept s ++ kept t := List.filterMap_append

theorem mem_kept_iff {t : Tracked α} {x : α} {i : ℕ} : (x, i) ∈ kept t ↔ (x, some i) ∈ t := by
  rw [kept, List.mem_filterMap]
  constructor
  · rintro ⟨⟨y, o⟩, he, heq⟩
    obtain ⟨j, rfl, hj⟩ := Option.map_eq_some_iff.mp heq
    obtain ⟨rfl, rfl⟩ := Prod.mk.inj hj
    exact he
  · intro h
    exact ⟨_, h, rfl⟩

theorem keeps_whole (xs : List α) : Keeps xs (whole xs) := by
  rw [Keeps, kept_whole]

theorem Keeps.getElem? {xs : List α} {t : Tracked α} (h : Keeps xs t) {x : α} {i : ℕ}
    (hmem : (x, some i) ∈ t) : xs[i]? = some x := by
  have hidx := h.subset (mem_kept_iff.mpr hmem)
  exact List.mk_mem_zipIdx_iff_getElem?.mp hidx

theorem kept_replace_sublist (marker : List α) (t : Tracked α) {rs : List (ℕ × ℕ)} {last : ℕ}
    (h : Ranges.Ordered last rs) :
    (kept (Ranges.replace (inserted marker) t rs last)).Sublist (kept t) :=
  (Ranges.filterMap_replace_sublist (kept_inserted marker) t h).trans
    ((List.drop_sublist last t).filterMap _)

/-- Through a tracked list, a part of its elements keeps a part of what that list keeps. -/
theorem kept_through_sublist {inner outer : Tracked α} (h : Keeps (inner.map Prod.fst) outer) :
    (kept (through inner outer)).Sublist (kept inner) := by
  let back : α × ℕ → Option (α × ℕ) := fun e =>
    (inner[e.2]?.bind Prod.snd).map (fun i => (e.1, i))
  have houter : kept (through inner outer) = (kept outer).filterMap back := by
    rw [kept, through, List.filterMap_map, kept, List.filterMap_filterMap]
    refine List.filterMap_congr (fun e _ => ?_)
    cases he : e.2 <;> simp [he, back]
  have hinner : kept inner = ((inner.map Prod.fst).zipIdx).filterMap back := by
    rw [List.zipIdx_map, List.filterMap_map]
    conv_lhs => rw [← List.zipIdx_map_fst 0 inner]
    rw [kept, List.filterMap_map]
    refine List.filterMap_congr (fun e he => ?_)
    have hget : inner[e.2]? = some e.1 := List.mk_mem_zipIdx_iff_getElem?.mp he
    simp [back, hget]
  rw [houter, hinner]
  exact h.filterMap back

end Tracked
