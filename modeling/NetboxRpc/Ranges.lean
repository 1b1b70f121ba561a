import Mathlib.Algebra.Order.BigOperators.Group.List
import Mathlib.Algebra.Ring.Nat
import Mathlib.Algebra.Order.Group.Nat
import Mathlib.Data.List.Basic
import Mathlib.Data.List.Induction
import Mathlib.Data.List.Sort
import Mathlib.Data.List.SplitBy

/-!
# Ranges of positions in a list

Half-open ranges, lists of them in order, and what is left of a list when each range of it is
replaced by one insertion.
-/

namespace Ranges

def Covers (ranges : List (ℕ × ℕ)) (i : ℕ) : Prop := ∃ r ∈ ranges, r.1 ≤ i ∧ i < r.2

@[simp] theorem covers_nil (i : ℕ) : ¬ Covers [] i := by simp [Covers]

theorem covers_cons (r : ℕ × ℕ) (rs : List (ℕ × ℕ)) (i : ℕ) :
    Covers (r :: rs) i ↔ (r.1 ≤ i ∧ i < r.2) ∨ Covers rs i := by
  simp [Covers]

theorem covers_append (rs ss : List (ℕ × ℕ)) (i : ℕ) :
    Covers (rs ++ ss) i ↔ Covers rs i ∨ Covers ss i := by
  simp only [Covers, List.mem_append]
  constructor
  · rintro ⟨r, hr | hr, hi⟩
    · exact .inl ⟨r, hr, hi⟩
    · exact .inr ⟨r, hr, hi⟩
  · rintro (⟨r, hr, hi⟩ | ⟨r, hr, hi⟩)
    · exact ⟨r, .inl hr, hi⟩
    · exact ⟨r, .inr hr, hi⟩

theorem covers_perm {rs ss : List (ℕ × ℕ)} (h : rs.Perm ss) (i : ℕ) : Covers rs i ↔ Covers ss i := by
  simp only [Covers, h.mem_iff]

inductive Ordered : ℕ → List (ℕ × ℕ) → Prop
  | nil (lo : ℕ) : Ordered lo []
  | cons {lo a b : ℕ} {rs : List (ℕ × ℕ)} (hlo : lo ≤ a) (hle : a ≤ b) (hrs : Ordered b rs) :
      Ordered lo ((a, b) :: rs)

theorem Ordered.mono {lo lo' : ℕ} {rs : List (ℕ × ℕ)} (h : Ordered lo rs) (hle : lo' ≤ lo) :
    Ordered lo' rs := by
  cases h with
  | nil => exact .nil lo'
  | cons hlo hab hrs => exact .cons (hle.trans hlo) hab hrs

theorem Ordered.le_of_mem {lo : ℕ} {rs : List (ℕ × ℕ)} (h : Ordered lo rs) {r : ℕ × ℕ} (hr : r ∈ rs) :
    lo ≤ r.1 ∧ r.1 ≤ r.2 := by
  induction h with
  | nil => cases hr
  | cons hlo hab _ ih =>
    rcases List.mem_cons.mp hr with rfl | hr
    · exact ⟨hlo, hab⟩
    · obtain ⟨hle, hne⟩ := ih hr
      exact ⟨by omega, hne⟩

theorem Ordered.le_of_covers {lo : ℕ} {rs : List (ℕ × ℕ)} (h : Ordered lo rs) {i : ℕ}
    (hi : Covers rs i) : lo ≤ i := by
  obtain ⟨r, hr, hle, _⟩ := hi
  exact (h.le_of_mem hr).1.trans hle

theorem ordered_of_pairwise {lo : ℕ} {rs : List (ℕ × ℕ)} (hne : ∀ r ∈ rs, lo ≤ r.1 ∧ r.1 ≤ r.2)
    (hp : rs.Pairwise (fun a b => a.2 ≤ b.1)) : Ordered lo rs := by
  induction rs generalizing lo with
  | nil => exact .nil lo
  | cons r rs ih =>
    rw [List.pairwise_cons] at hp
    obtain ⟨hlo, hle⟩ := hne r List.mem_cons_self
    refine .cons hlo hle (ih (fun s hs => ⟨hp.1 s hs, ?_⟩) hp.2)
    exact (hne s (List.mem_cons_of_mem r hs)).2

/-! ## Replacing ranges -/

section

variable {α β : Type}

def slice (xs : List α) (start stop : ℕ) : List α := (xs.take stop).drop start

@[simp] theorem map_slice (f : α → β) (xs : List α) (a b : ℕ) :
    (slice xs a b).map f = slice (xs.map f) a b := by
  simp [slice, List.map_drop, List.map_take]

theorem slice_append_drop (xs : List α) {a b : ℕ} (h : a ≤ b) :
    slice xs a b ++ xs.drop b = xs.drop a := by
  have hsplit : xs.drop a = (xs.take b ++ xs.drop b).drop a := by rw [List.take_append_drop]
  rw [hsplit, List.drop_append, slice]
  congr 1
  rw [List.length_take, List.drop_drop]
  by_cases hle : b ≤ xs.length
  · have hzero : a - min b xs.length = 0 := by omega
    rw [hzero, Nat.add_zero]
  · rw [List.drop_eq_nil_of_le (by omega), List.drop_eq_nil_of_le (by omega)]

theorem slice_append_slice (xs : List α) {a b c : ℕ} (hab : a ≤ b) (hbc : b ≤ c) :
    slice xs a b ++ slice xs b c = slice xs a c := by
  have htake : xs.take b = (xs.take c).take b := by rw [List.take_take, Nat.min_eq_left hbc]
  have := slice_append_drop (xs.take c) hab
  rw [slice, ← htake] at this
  rw [slice, slice, this, slice]

theorem mem_slice_iff {xs : List α} {a b : ℕ} {x : α} :
    x ∈ slice xs a b ↔ ∃ i, a ≤ i ∧ i < b ∧ xs[i]? = some x := by
  rw [slice, List.mem_iff_getElem?]
  simp only [List.getElem?_drop, List.getElem?_take]
  constructor
  · rintro ⟨n, hn⟩
    split_ifs at hn with hlt
    exact ⟨a + n, by omega, hlt, hn⟩
  · rintro ⟨i, ha, hb, hi⟩
    refine ⟨i - a, ?_⟩
    rw [if_pos (by omega), show a + (i - a) = i by omega, hi]

def replace (marker xs : List α) : List (ℕ × ℕ) → ℕ → List α
  | [], last => xs.drop last
  | r :: rs, last => slice xs last r.1 ++ marker ++ replace marker xs rs r.2

theorem map_replace (f : α → β) (marker xs : List α) (rs : List (ℕ × ℕ)) (last : ℕ) :
    (replace marker xs rs last).map f = replace (marker.map f) (xs.map f) rs last := by
  induction rs generalizing last with
  | nil => simp [replace]
  | cons r rs ih => simp [replace, ih]

/-- What is left of the list is a part of it, in order. -/
theorem filterMap_replace_sublist {f : α → Option β} {marker : List α}
    (hmarker : marker.filterMap f = []) (xs : List α) {rs : List (ℕ × ℕ)} {last : ℕ}
    (h : Ordered last rs) :
    ((replace marker xs rs last).filterMap f).Sublist ((xs.drop last).filterMap f) := by
  induction h with
  | nil lo => exact List.Sublist.refl _
  | @cons lo a b rs hlo hab _ ih =>
    rw [replace, ← slice_append_drop xs hlo, ← slice_append_drop xs hab]
    simp only [List.filterMap_append, hmarker, List.append_nil]
    exact List.Sublist.append (List.Sublist.refl _) (ih.trans (List.sublist_append_right _ _))

/-- Nothing is lost of what the ranges do not hold. -/
theorem filterMap_replace_eq {f : α → Option β} {marker : List α} (hmarker : marker.filterMap f = [])
    {xs : List α} {rs : List (ℕ × ℕ)} {last : ℕ} (h : Ordered last rs)
    (hnone : ∀ i x, Covers rs i → xs[i]? = some x → f x = none) :
    (replace marker xs rs last).filterMap f = (xs.drop last).filterMap f := by
  induction h with
  | nil lo => rfl
  | @cons lo a b rs hlo hab _ ih =>
    have hrange : (slice xs a b).filterMap f = [] := by
      rw [List.filterMap_eq_nil_iff]
      intro x hx
      obtain ⟨i, hi, hib, hget⟩ := mem_slice_iff.mp hx
      exact hnone i x ((covers_cons _ _ _).mpr (.inl ⟨hi, hib⟩)) hget
    have hrest := ih (fun i x hi hx => hnone i x ((covers_cons _ _ _).mpr (.inr hi)) hx)
    rw [replace, ← slice_append_drop xs hlo, ← slice_append_drop xs hab]
    simp only [List.filterMap_append, hmarker, hrange, hrest, List.append_nil, List.nil_append]

/-- An element that is left stands at a position that no range covers. -/
theorem mem_replace {marker xs : List α} {rs : List (ℕ × ℕ)} {last : ℕ} (h : Ordered last rs)
    {x : α} (hx : x ∈ replace marker xs rs last) :
    x ∈ marker ∨ ∃ i, last ≤ i ∧ ¬ Covers rs i ∧ xs[i]? = some x := by
  induction h with
  | nil lo =>
    right
    rw [replace, List.mem_iff_getElem?] at hx
    obtain ⟨n, hn⟩ := hx
    rw [List.getElem?_drop] at hn
    exact ⟨lo + n, by omega, by simp, hn⟩
  | @cons lo a b rs hlo hab hrs ih =>
    rw [replace, List.mem_append, List.mem_append] at hx
    rcases hx with (hx | hx) | hx
    · obtain ⟨i, hi, hia, hget⟩ := mem_slice_iff.mp hx
      refine .inr ⟨i, hi, fun hcov => ?_, hget⟩
      rw [covers_cons] at hcov
      rcases hcov with ⟨hle, _⟩ | hcov
      · simp only at hle
        omega
      · have := hrs.le_of_covers hcov
        omega
    · exact .inl hx
    · refine (ih hx).imp_right ?_
      rintro ⟨i, hi, hnot, hget⟩
      refine ⟨i, by omega, fun hcov => ?_, hget⟩
      rw [covers_cons] at hcov
      rcases hcov with ⟨_, hlt'⟩ | hcov
      · simp only at hlt'
        omega
      · exact hnot hcov

theorem append_cons_eq_append {xs ys before mid after : List α} {x : α}
    (h : xs ++ x :: ys = before ++ mid ++ after) (hx : x ∉ mid) :
    (∃ zs, xs = before ++ mid ++ zs ∧ after = zs ++ x :: ys) ∨
      ∃ zs, before = xs ++ x :: zs ∧ ys = zs ++ mid ++ after := by
  rcases List.append_eq_append_iff.mp h with ⟨zs, hleft, hright⟩ | ⟨zs, hleft, hright⟩
  · cases zs with
    | nil => exact .inl ⟨[], by simpa using hleft.symm, hright.symm⟩
    | cons z zs =>
      obtain ⟨rfl, rfl⟩ := List.cons.inj hright
      rcases List.append_eq_append_iff.mp hleft with ⟨ws, _, hmid⟩ | ⟨ws, hbefore, hmid⟩
      · exact absurd (hmid ▸ List.mem_append_right _ List.mem_cons_self) hx
      · cases ws with
        | nil =>
          rw [List.nil_append] at hmid
          exact absurd (hmid ▸ List.mem_cons_self) hx
        | cons w ws =>
          obtain ⟨rfl, rfl⟩ := List.cons.inj hmid
          exact .inr ⟨ws, hbefore, rfl⟩
  · exact .inl ⟨zs, hleft, hright⟩

/-- A stretch of what is left, with neither end of a bracketed marker in it, lies inside a marker
or stands in the list between the ranges. -/
theorem infix_replace {inner xs before mid after : List α} {o c : α} {rs : List (ℕ × ℕ)} {last : ℕ}
    (h : Ordered last rs) (hmid : mid ≠ []) (ho : o ∉ mid) (hc : c ∉ mid)
    (heq : replace (o :: inner ++ [c]) xs rs last = before ++ mid ++ after) :
    mid <:+: inner ∨ ∃ i, last ≤ i ∧ slice xs i (i + mid.length) = mid ∧
      ∀ j, i ≤ j → j < i + mid.length → ¬ Covers rs j := by
  induction h generalizing before with
  | nil lo =>
    right
    rw [replace] at heq
    have hdrop : xs.drop (lo + before.length) = mid ++ after := by
      rw [← List.drop_drop, heq, List.append_assoc, List.drop_left]
    refine ⟨lo + before.length, by omega, ?_, by simp⟩
    rw [slice, List.drop_take, hdrop, Nat.add_sub_cancel_left, List.take_left]
  | @cons lo a b rs hlo hab hrs ih =>
    rw [replace, List.cons_append, List.append_assoc, List.cons_append, List.append_assoc,
      List.singleton_append] at heq
    rcases append_cons_eq_append heq ho with ⟨zs, hleft, _⟩ | ⟨ys, _, hrest⟩
    · right
      have hdrop : xs.drop (lo + before.length) = mid ++ (zs ++ xs.drop a) := by
        rw [← List.drop_drop, ← slice_append_drop xs hlo, hleft, List.append_assoc, List.append_assoc,
          List.drop_left]
      have hlength := congrArg List.length hleft
      rw [slice, List.length_drop, List.length_take, List.length_append, List.length_append] at hlength
      have hpos := List.length_pos_iff.mpr hmid
      refine ⟨lo + before.length, by omega, ?_, fun j hj hlt hcov => ?_⟩
      · rw [slice, List.drop_take, hdrop, Nat.add_sub_cancel_left, List.take_left]
      · rw [covers_cons] at hcov
        rcases hcov with ⟨hle, _⟩ | hcov
        · simp only at hle
          omega
        · have := hrs.le_of_covers hcov
          omega
    · rcases append_cons_eq_append hrest hc with ⟨zs, hinner, _⟩ | ⟨zs, _, hmore⟩
      · exact .inl ⟨ys, zs, hinner.symm⟩
      · refine (ih hmore).imp_right ?_
        rintro ⟨i, hi, hslice, hnone⟩
        refine ⟨i, by omega, hslice, fun j hj hlt hcov => ?_⟩
        rw [covers_cons] at hcov
        rcases hcov with ⟨_, hb⟩ | hcov
        · simp only at hb
          omega
        · exact hnone j hj hlt hcov

theorem mem_or_mem_replace {marker xs : List α} {rs : List (ℕ × ℕ)} {last : ℕ} {x : α}
    (h : x ∈ replace marker xs rs last) : x ∈ marker ∨ x ∈ replace [] xs rs last := by
  induction rs generalizing last with
  | nil => exact .inr h
  | cons r rs ih =>
    rw [replace, List.mem_append, List.mem_append] at h
    rw [replace, List.append_nil, List.mem_append]
    rcases h with (h | h) | h
    · exact .inr (.inl h)
    · exact .inl h
    · exact (ih h).imp_right .inr

theorem length_replace_le (marker xs : List α) {rs : List (ℕ × ℕ)} {last : ℕ} (h : Ordered last rs) :
    (replace marker xs rs last).length ≤ (xs.drop last).length + marker.length * rs.length := by
  induction h with
  | nil lo => simp [replace]
  | @cons lo a b rs hlo hab _ ih =>
    rw [replace, ← slice_append_drop xs hlo, ← slice_append_drop xs hab]
    simp only [List.length_append, List.length_cons, Nat.mul_succ]
    omega

theorem countP_replace {p : α → Bool} {marker : List α} (hmarker : marker.countP p = 0)
    (xs : List α) {rs : List (ℕ × ℕ)} {last : ℕ} (h : Ordered last rs) :
    (replace marker xs rs last).countP p + (rs.map (fun r => (slice xs r.1 r.2).countP p)).sum =
      (xs.drop last).countP p := by
  induction h with
  | nil lo => simp [replace]
  | @cons lo a b rs hlo hab _ ih =>
    rw [replace, ← slice_append_drop xs hlo, ← slice_append_drop xs hab]
    simp only [List.countP_append, hmarker, List.map_cons, List.sum_cons]
    omega

theorem countP_replace_lt {p : α → Bool} {marker : List α} (hmarker : marker.countP p = 0)
    {xs : List α} {rs : List (ℕ × ℕ)} {last : ℕ} (h : Ordered last rs) {r : ℕ × ℕ} (hr : r ∈ rs)
    (hpos : 0 < (slice xs r.1 r.2).countP p) :
    (replace marker xs rs last).countP p < (xs.drop last).countP p := by
  have hcount := countP_replace hmarker xs h
  have hle := List.le_sum_of_mem
    (List.mem_map_of_mem (f := fun r : ℕ × ℕ => (slice xs r.1 r.2).countP p) hr)
  omega

end

/-! ## Joining ranges -/

def push (joins : ℕ → ℕ → Bool) (merged : List (ℕ × ℕ)) (r : ℕ × ℕ) : List (ℕ × ℕ) :=
  match merged.getLast? with
  | some last =>
    if joins r.1 last.2 then merged.dropLast ++ [(last.1, max last.2 r.2)] else merged ++ [r]
  | none => [r]

/-- A rule that joins ranges which meet, and every earlier start when it joins a later one. -/
structure Joining (joins : ℕ → ℕ → Bool) : Prop where
  meets : ∀ {start stop}, joins start stop = true → start ≤ stop
  earlier : ∀ {start start' stop}, start ≤ start' → joins start' stop = true → joins start stop = true

structure Merges (joins : ℕ → ℕ → Bool) (ranges merged : List (ℕ × ℕ)) : Prop where
  nonempty : ∀ m ∈ merged, m.1 < m.2
  apart : merged.Pairwise (fun a b => joins b.1 a.2 = false)
  origin : ∀ m ∈ merged, ∃ r ∈ ranges, r.1 = m.1 ∧ r.2 ≤ m.2
  within : ∀ r ∈ ranges, ∃ m ∈ merged, m.1 ≤ r.1 ∧ r.2 ≤ m.2
  covered : ∀ i, Covers merged i → Covers ranges i

theorem Merges.covers_iff {joins : ℕ → ℕ → Bool} {ranges merged : List (ℕ × ℕ)}
    (h : Merges joins ranges merged) (i : ℕ) : Covers merged i ↔ Covers ranges i := by
  refine ⟨h.covered i, ?_⟩
  rintro ⟨r, hr, hle, hlt⟩
  obtain ⟨m, hm, hstart, hstop⟩ := h.within r hr
  exact ⟨m, hm, by omega, by omega⟩

theorem merges_push {joins : ℕ → ℕ → Bool} (hj : Joining joins) {ranges merged : List (ℕ × ℕ)}
    (h : Merges joins ranges merged) {r : ℕ × ℕ} (hr : r.1 < r.2) (hle : ∀ s ∈ ranges, s.1 ≤ r.1) :
    Merges joins (ranges ++ [r]) (push joins merged r) := by
  have hstart : ∀ m ∈ merged, m.1 ≤ r.1 := fun m hm => by
    obtain ⟨s, hs, heq, _⟩ := h.origin m hm
    exact heq ▸ hle s hs
  have hin : ∀ {s : ℕ × ℕ}, s ∈ ranges → s ∈ ranges ++ [r] := List.mem_append_left _
  have hself : r ∈ ranges ++ [r] := List.mem_append_right _ (List.mem_singleton_self r)
  rcases List.eq_nil_or_concat' merged with rfl | ⟨before, last, rfl⟩
  · refine ⟨?_, List.pairwise_singleton _ _, ?_, ?_, ?_⟩
    · exact fun m hm => List.mem_singleton.mp hm ▸ hr
    · intro m hm
      have heq : m = r := List.mem_singleton.mp hm
      exact ⟨r, hself, by rw [heq], by rw [heq]⟩
    · intro s hs
      rcases List.mem_append.mp hs with hs | hs
      · obtain ⟨m, hm, _⟩ := h.within s hs
        cases hm
      · exact ⟨r, List.mem_singleton_self r, by rw [List.mem_singleton.mp hs], by
          rw [List.mem_singleton.mp hs]⟩
    · intro i hi
      rw [push, List.getLast?_nil] at hi
      exact (covers_append _ _ i).mpr (.inr hi)
  · have hlast : last ∈ before ++ [last] := List.mem_append_right _ (List.mem_singleton_self _)
    have hfirst : ∀ m ∈ before, m ∈ before ++ [last] := fun m hm => List.mem_append_left _ hm
    have hapart := List.pairwise_append.mp h.apart
    rw [push, List.getLast?_concat]
    by_cases hjoin : joins r.1 last.2 = true
    · have hmeet := hj.meets hjoin
      have hlt := h.nonempty last hlast
      have hlstart := hstart last hlast
      simp only [if_pos hjoin, List.dropLast_concat]
      refine ⟨?_, ?_, ?_, ?_, ?_⟩
      · intro m hm
        rcases List.mem_append.mp hm with hm | hm
        · exact h.nonempty m (hfirst m hm)
        · rw [List.mem_singleton.mp hm]
          simp only
          omega
      · refine List.pairwise_append.mpr ⟨hapart.1, List.pairwise_singleton _ _, fun a ha b hb => ?_⟩
        rw [List.mem_singleton.mp hb]
        exact hapart.2.2 a ha last (List.mem_singleton_self _)
      · intro m hm
        rcases List.mem_append.mp hm with hm | hm
        · obtain ⟨s, hs, hrest⟩ := h.origin m (hfirst m hm)
          exact ⟨s, hin hs, hrest⟩
        · obtain ⟨s, hs, heq, hstop⟩ := h.origin last hlast
          rw [List.mem_singleton.mp hm]
          exact ⟨s, hin hs, heq, hstop.trans (Nat.le_max_left _ _)⟩
      · intro s hs
        rcases List.mem_append.mp hs with hs | hs
        · obtain ⟨m, hm, hms, hstop⟩ := h.within s hs
          rcases List.mem_append.mp hm with hm | hm
          · exact ⟨m, List.mem_append_left _ hm, hms, hstop⟩
          · rw [List.mem_singleton.mp hm] at hms hstop
            exact ⟨_, List.mem_append_right _ (List.mem_singleton_self _), hms,
              hstop.trans (Nat.le_max_left _ _)⟩
        · rw [List.mem_singleton.mp hs]
          exact ⟨_, List.mem_append_right _ (List.mem_singleton_self _), hlstart,
            Nat.le_max_right _ _⟩
      · intro i hi
        rw [covers_append] at hi ⊢
        rcases hi with hi | ⟨m, hm, hlo, hhi⟩
        · exact .inl (h.covered i ((covers_append _ _ i).mpr (.inl hi)))
        · rw [List.mem_singleton.mp hm] at hlo hhi
          simp only at hlo hhi
          by_cases hbefore : i < last.2
          · exact .inl (h.covered i ⟨last, hlast, hlo, hbefore⟩)
          · exact .inr ⟨r, List.mem_singleton_self r, by omega, by omega⟩
    · simp only [if_neg hjoin]
      refine ⟨?_, ?_, ?_, ?_, ?_⟩
      · intro m hm
        rcases List.mem_append.mp hm with hm | hm
        · exact h.nonempty m hm
        · exact List.mem_singleton.mp hm ▸ hr
      · refine List.pairwise_append.mpr ⟨h.apart, List.pairwise_singleton _ _, fun a ha b hb => ?_⟩
        rw [List.mem_singleton.mp hb, ← Bool.not_eq_true]
        intro hjoins
        rcases List.mem_append.mp ha with ha | ha
        · have hearlier := hj.earlier (hstart last hlast) hjoins
          rw [hapart.2.2 a ha last (List.mem_singleton_self _)] at hearlier
          cases hearlier
        · rw [List.mem_singleton.mp ha] at hjoins
          exact hjoin hjoins
      · intro m hm
        rcases List.mem_append.mp hm with hm | hm
        · obtain ⟨s, hs, hrest⟩ := h.origin m hm
          exact ⟨s, hin hs, hrest⟩
        · exact ⟨r, hself, by rw [List.mem_singleton.mp hm], by rw [List.mem_singleton.mp hm]⟩
      · intro s hs
        rcases List.mem_append.mp hs with hs | hs
        · obtain ⟨m, hm, hrest⟩ := h.within s hs
          exact ⟨m, List.mem_append_left _ hm, hrest⟩
        · rw [List.mem_singleton.mp hs]
          exact ⟨r, List.mem_append_right _ (List.mem_singleton_self r), le_rfl, le_rfl⟩
      · intro i hi
        rw [covers_append] at hi ⊢
        exact hi.imp_left (h.covered i)

/-- Ranges in the order of their starts, pushed one by one. -/
theorem merges_foldl {joins : ℕ → ℕ → Bool} (hj : Joining joins) {ranges : List (ℕ × ℕ)}
    (hne : ∀ r ∈ ranges, r.1 < r.2) (hsorted : ranges.Pairwise (fun a b => a.1 ≤ b.1)) :
    Merges joins ranges (ranges.foldl (push joins) []) := by
  induction ranges using List.reverseRecOn with
  | nil =>
    exact ⟨by simp, List.Pairwise.nil, by simp, by simp, fun i hi => absurd hi (covers_nil i)⟩
  | append_singleton rs r ih =>
    have hparts := List.pairwise_append.mp hsorted
    rw [List.foldl_append, List.foldl_cons, List.foldl_nil]
    refine merges_push hj (ih (fun s hs => hne s (List.mem_append_left _ hs)) hparts.1)
      (hne r (List.mem_append_right _ (List.mem_singleton_self r))) (fun s hs => ?_)
    exact hparts.2.2 s hs r (List.mem_singleton_self r)

/-! ## Tagged ranges -/

def pushTagged (groups : List ((ℕ × ℕ) × Bool)) (t : (ℕ × ℕ) × Bool) : List ((ℕ × ℕ) × Bool) :=
  match groups.getLast? with
  | some last =>
    if t.1.1 ≤ last.1.2 then
      groups.dropLast ++ [((last.1.1, max last.1.2 t.1.2), last.2 || t.2)]
    else groups ++ [t]
  | none => [t]

def Within (r s : ℕ × ℕ) : Prop := s.1 ≤ r.1 ∧ r.2 ≤ s.2

theorem map_fst_pushTagged (groups : List ((ℕ × ℕ) × Bool)) (t : (ℕ × ℕ) × Bool) :
    (pushTagged groups t).map Prod.fst =
      push (fun start stop => decide (start ≤ stop)) (groups.map Prod.fst) t.1 := by
  rcases List.eq_nil_or_concat' groups with rfl | ⟨before, last, rfl⟩
  · rfl
  · rw [pushTagged, push, List.getLast?_concat, List.map_append, List.map_singleton,
      List.getLast?_concat]
    by_cases htouch : t.1.1 ≤ last.1.2
    · simp [htouch]
    · simp [htouch]

theorem map_fst_foldl_pushTagged (ts : List ((ℕ × ℕ) × Bool)) :
    (ts.foldl pushTagged []).map Prod.fst =
      (ts.map Prod.fst).foldl (push (fun start stop => decide (start ≤ stop))) [] := by
  induction ts using List.reverseRecOn with
  | nil => rfl
  | append_singleton ts t ih =>
    simp only [List.foldl_append, List.foldl_cons, List.foldl_nil, List.map_append,
      List.map_cons, List.map_nil]
    rw [map_fst_pushTagged, ih]

structure Tags (ts groups : List ((ℕ × ℕ) × Bool)) : Prop where
  holds : ∀ g ∈ groups, g.2 = true → ∃ t ∈ ts, t.2 = true ∧ Within t.1 g.1
  held : ∀ t ∈ ts, t.2 = true → ∃ g ∈ groups, g.2 = true ∧ Within t.1 g.1

theorem tags_pushTagged {ts groups : List ((ℕ × ℕ) × Bool)} (h : Tags ts groups)
    {t : (ℕ × ℕ) × Bool} (hstart : ∀ g ∈ groups, g.1.1 ≤ t.1.1) :
    Tags (ts ++ [t]) (pushTagged groups t) := by
  have hin : ∀ {s}, s ∈ ts → s ∈ ts ++ [t] := List.mem_append_left _
  have hself : t ∈ ts ++ [t] := List.mem_append_right _ (List.mem_singleton_self t)
  rcases List.eq_nil_or_concat' groups with rfl | ⟨before, last, rfl⟩
  · refine ⟨fun g hg htag => ?_, fun s hs htag => ?_⟩
    · have hg' : g = t := List.mem_singleton.mp hg
      exact ⟨t, hself, hg' ▸ htag, hg' ▸ ⟨le_rfl, le_rfl⟩⟩
    · rcases List.mem_append.mp hs with hs | hs
      · obtain ⟨g, hg, _⟩ := h.held s hs htag
        cases hg
      · have hs' : s = t := List.mem_singleton.mp hs
        exact ⟨t, List.mem_singleton_self t, hs' ▸ htag, hs' ▸ ⟨le_rfl, le_rfl⟩⟩
  · have hlast : last ∈ before ++ [last] := List.mem_append_right _ (List.mem_singleton_self _)
    have hlstart := hstart last hlast
    rw [pushTagged, List.getLast?_concat]
    by_cases htouch : t.1.1 ≤ last.1.2
    · simp only [if_pos htouch, List.dropLast_concat]
      generalize hnew : (((last.1.1, max last.1.2 t.1.2), last.2 || t.2) : (ℕ × ℕ) × Bool) = new
      have hwlast : ∀ {r}, Within r last.1 → Within r new.1 := fun hr => by
        rw [← hnew]
        exact ⟨hr.1, hr.2.trans (Nat.le_max_left _ _)⟩
      have hwself : Within t.1 new.1 := by
        rw [← hnew]
        exact ⟨hlstart, Nat.le_max_right _ _⟩
      have hnewMem : new ∈ before ++ [new] := List.mem_append_right _ (List.mem_singleton_self _)
      have htags : new.2 = true ↔ last.2 = true ∨ t.2 = true := by
        rw [← hnew]
        exact Bool.or_eq_true _ _ ▸ Iff.rfl
      refine ⟨fun g hg htag => ?_, fun s hs htag => ?_⟩
      · rcases List.mem_append.mp hg with hg | hg
        · obtain ⟨s, hs, hrest⟩ := h.holds g (List.mem_append_left _ hg) htag
          exact ⟨s, hin hs, hrest⟩
        · rw [List.mem_singleton.mp hg] at htag ⊢
          rcases htags.mp htag with htag | htag
          · obtain ⟨s, hs, hst, hw⟩ := h.holds last hlast htag
            exact ⟨s, hin hs, hst, hwlast hw⟩
          · exact ⟨t, hself, htag, hwself⟩
      · rcases List.mem_append.mp hs with hs | hs
        · obtain ⟨g, hg, hgt, hw⟩ := h.held s hs htag
          rcases List.mem_append.mp hg with hg | hg
          · exact ⟨g, List.mem_append_left _ hg, hgt, hw⟩
          · rw [List.mem_singleton.mp hg] at hgt hw
            exact ⟨new, hnewMem, htags.mpr (.inl hgt), hwlast hw⟩
        · rw [List.mem_singleton.mp hs] at htag ⊢
          exact ⟨new, hnewMem, htags.mpr (.inr htag), hwself⟩
    · simp only [if_neg htouch]
      refine ⟨fun g hg htag => ?_, fun s hs htag => ?_⟩
      · rcases List.mem_append.mp hg with hg | hg
        · obtain ⟨s, hs, hrest⟩ := h.holds g hg htag
          exact ⟨s, hin hs, hrest⟩
        · rw [List.mem_singleton.mp hg] at htag ⊢
          exact ⟨t, hself, htag, le_rfl, le_rfl⟩
      · rcases List.mem_append.mp hs with hs | hs
        · obtain ⟨g, hg, hrest⟩ := h.held s hs htag
          exact ⟨g, List.mem_append_left _ hg, hrest⟩
        · rw [List.mem_singleton.mp hs] at htag ⊢
          exact ⟨t, List.mem_append_right _ (List.mem_singleton_self t), htag, le_rfl, le_rfl⟩

theorem joining_le : Joining (fun start stop => decide (start ≤ stop)) where
  meets := fun h => of_decide_eq_true h
  earlier := fun hle h => decide_eq_true (hle.trans (of_decide_eq_true h))

theorem merges_foldl_pushTagged {ts : List ((ℕ × ℕ) × Bool)} (hne : ∀ t ∈ ts, t.1.1 < t.1.2)
    (hsorted : ts.Pairwise (fun a b => a.1.1 ≤ b.1.1)) :
    Merges (fun start stop => decide (start ≤ stop)) (ts.map Prod.fst)
      ((ts.foldl pushTagged []).map Prod.fst) := by
  rw [map_fst_foldl_pushTagged]
  refine merges_foldl joining_le (fun r hr => ?_) (List.pairwise_map.mpr hsorted)
  obtain ⟨t, ht, rfl⟩ := List.mem_map.mp hr
  exact hne t ht

theorem tags_foldl {ts : List ((ℕ × ℕ) × Bool)} (hne : ∀ t ∈ ts, t.1.1 < t.1.2)
    (hsorted : ts.Pairwise (fun a b => a.1.1 ≤ b.1.1)) : Tags ts (ts.foldl pushTagged []) := by
  induction ts using List.reverseRecOn with
  | nil => exact ⟨by simp, by simp⟩
  | append_singleton ts t ih =>
    have hparts := List.pairwise_append.mp hsorted
    have hne' : ∀ s ∈ ts, s.1.1 < s.1.2 := fun s hs => hne s (List.mem_append_left _ hs)
    rw [List.foldl_append, List.foldl_cons, List.foldl_nil]
    refine tags_pushTagged (ih hne' hparts.1) (fun g hg => ?_)
    obtain ⟨r, hr, heq, _⟩ := (merges_foldl_pushTagged hne' hparts.1).origin g.1
      (List.mem_map_of_mem hg)
    obtain ⟨s, hs, rfl⟩ := List.mem_map.mp hr
    rw [← heq]
    exact hparts.2.2 s hs t (List.mem_singleton_self t)

/-! ## Runs -/

section

variable {α β : Type}

theorem slice_append_replace (marker xs : List α) {rs : List (ℕ × ℕ)} {a b : ℕ} (h : Ordered b rs)
    (hab : a ≤ b) : slice xs a b ++ replace marker xs rs b = replace marker xs rs a := by
  cases h with
  | nil => exact slice_append_drop xs hab
  | cons hlo =>
    simp only [replace, ← slice_append_slice xs hab hlo, List.append_assoc]

theorem flatMap_splitBy_append {r : α → α → Bool} (f : List α → List β) {l m : List α}
    (h : ∀ x ∈ l, ∀ y ∈ m.head?, r x y = false) :
    ((l ++ m).splitBy r).flatMap f = (l.splitBy r).flatMap f ++ (m.splitBy r).flatMap f := by
  rw [List.splitBy_append, List.flatMap_append]
  intro x hx y hy
  exact h x (List.mem_of_getLast? hx) y hy

theorem flatMap_splitBy_run {q : α → Bool} (f : List α → List β) {l : List α} {b : Bool}
    (hl : ∀ x ∈ l, q x = b) (hf : f [] = []) :
    (l.splitBy (fun x y => q x == q y)).flatMap f = f l := by
  by_cases hempty : l = []
  · rw [hempty, hf]
    rfl
  · have hchain : l.IsChain (fun x y => (q x == q y) = true) := by
      refine List.Pairwise.isChain ?_
      refine List.Pairwise.imp_of_mem (R := fun _ _ => True) (fun {x y} hx hy _ => ?_) ?_
      · rw [hl x hx, hl y hy]
        exact beq_self_eq_true b
      · exact List.pairwise_of_forall (fun _ _ => trivial)
    rw [List.splitBy_of_isChain hempty hchain]
    exact List.append_nil _

/-- Runs of a list that are exactly some ranges apart from each other: what each run becomes is
what replacing the tagged ranges gives. -/
theorem flatMap_splitBy_eq_replace {xs : List α} {q : α → Bool} {g : α → β} {f : List α → List β}
    {marker : List β} {groups : List ((ℕ × ℕ) × Bool)} {last : ℕ}
    (hgroups : ∀ e ∈ groups, last ≤ e.1.1 ∧ e.1.1 < e.1.2 ∧ e.1.2 ≤ xs.length)
    (hapart : groups.Pairwise (fun a b => a.1.2 < b.1.1))
    (hq : ∀ i x, last ≤ i → xs[i]? = some x → (q x = true ↔ Covers (groups.map Prod.fst) i))
    (hopen : ∀ run, (∀ x ∈ run, q x = false) → f run = run.map g)
    (hclosed : ∀ e ∈ groups, f (slice xs e.1.1 e.1.2) =
      if e.2 then marker else (slice xs e.1.1 e.1.2).map g) :
    ((xs.drop last).splitBy (fun x y => q x == q y)).flatMap f =
      replace marker (xs.map g) ((groups.filter Prod.snd).map Prod.fst) last := by
  have hnil : f [] = [] := hopen [] (by simp)
  induction groups generalizing last with
  | nil =>
    have hall : ∀ x ∈ xs.drop last, q x = false := by
      intro x hx
      obtain ⟨n, hn⟩ := List.mem_iff_getElem?.mp hx
      rw [List.getElem?_drop] at hn
      rw [← Bool.not_eq_true, hq _ x (Nat.le_add_right _ _) hn]
      exact covers_nil _
    rw [flatMap_splitBy_run f hall hnil, hopen _ hall, List.map_drop]
    rfl
  | cons e groups ih =>
    obtain ⟨⟨a, b⟩, flag⟩ := e
    obtain ⟨hlo, hlt, hlen⟩ := hgroups _ List.mem_cons_self
    rw [List.pairwise_cons] at hapart
    simp only at hlo hlt hlen
    have hafter : ∀ i, i ≤ b → ¬ Covers (groups.map Prod.fst) i := by
      rintro i hi ⟨r, hr, hle, _⟩
      obtain ⟨e, he, rfl⟩ := List.mem_map.mp hr
      have := hapart.1 e he
      simp only at this
      omega
    have hbefore : ∀ i x, last ≤ i → i < a → xs[i]? = some x → q x = false := by
      intro i x hi hia hx
      rw [← Bool.not_eq_true, hq i x hi hx, List.map_cons, covers_cons]
      rintro (⟨hle, _⟩ | hcov)
      · simp only at hle
        omega
      · exact hafter i (by omega) hcov
    have hinside : ∀ i x, a ≤ i → i < b → xs[i]? = some x → q x = true := by
      intro i x hi hib hx
      rw [hq i x (by omega) hx, List.map_cons, covers_cons]
      exact .inl ⟨hi, hib⟩
    have hfirst : ∀ x ∈ slice xs last a, q x = false := by
      intro x hx
      obtain ⟨i, hi, hia, hget⟩ := mem_slice_iff.mp hx
      exact hbefore i x hi hia hget
    have hgroup : ∀ x ∈ slice xs a b, q x = true := by
      intro x hx
      obtain ⟨i, hi, hib, hget⟩ := mem_slice_iff.mp hx
      exact hinside i x hi hib hget
    have hrest := @ih b (fun e he => ⟨(hapart.1 e he).le,
        (hgroups e (List.mem_cons_of_mem _ he)).2⟩) hapart.2
      (fun i x hi hx => by
        rw [hq i x (by omega) hx, List.map_cons, covers_cons]
        exact or_iff_right (fun h => absurd h.2 (Nat.not_lt.mpr hi)))
      (fun e he => hclosed e (List.mem_cons_of_mem _ he))
    rw [← slice_append_drop xs hlo, ← slice_append_drop xs hlt.le,
      flatMap_splitBy_append f (l := slice xs last a), flatMap_splitBy_append f (l := slice xs a b),
      hrest, flatMap_splitBy_run f hfirst hnil, flatMap_splitBy_run f hgroup hnil, hopen _ hfirst,
      hclosed _ List.mem_cons_self]
    · cases flag with
      | true =>
        simp only [if_true, List.filter_cons, List.map_cons, replace, map_slice]
        rw [List.append_assoc]
      | false =>
        have hordered : Ordered b ((groups.filter Prod.snd).map Prod.fst) := by
          refine ordered_of_pairwise (fun r hr => ?_) ?_
          · obtain ⟨e, he, rfl⟩ := List.mem_map.mp hr
            have hmem := List.mem_of_mem_filter he
            exact ⟨(hapart.1 e hmem).le, (hgroups e (List.mem_cons_of_mem _ hmem)).2.1.le⟩
          · exact List.pairwise_map.mpr ((hapart.2.filter _).imp (fun h => h.le))
        simp only [Bool.false_eq_true, if_false, List.filter_cons, map_slice]
        rw [slice_append_replace _ _ hordered hlt.le,
          slice_append_replace _ _ (hordered.mono hlt.le) hlo]
    · intro x hx y hy
      rw [List.head?_drop] at hy
      rw [hgroup x hx]
      have hfalse : q y = false := by
        rw [← Bool.not_eq_true, hq b y (by omega) hy, List.map_cons, covers_cons]
        rintro (⟨_, hlt'⟩ | hcov)
        · exact lt_irrefl _ hlt'
        · exact hafter b le_rfl hcov
      rw [hfalse]
      rfl
    · intro x hx y hy
      rw [slice_append_drop xs hlt.le, List.head?_drop] at hy
      rw [hfirst x hx, hinside a y le_rfl hlt hy]
      rfl

end

end Ranges
