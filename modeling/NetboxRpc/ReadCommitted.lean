import Mathlib.Data.List.Basic

/-!
# A table under read-committed transactions

Committed rows, and rows that transactions have inserted but not committed. A transaction sees the
committed rows and its own. A unique key refuses an insert that meets a visible row; an insert that
meets an uncommitted row of another transaction waits until that transaction has ended.

`Contiguous` is what holds of a numbered table in which every inserted number is one more than the
rows its transaction sees: committed numbers have no gap, and only one transaction at a time holds
uncommitted rows.
-/

namespace ReadCommitted

universe u v

structure Store (τ : Type u) (ρ : Type v) where
  committed : List ρ
  /-- Uncommitted rows with their transactions, in the order of their inserts. -/
  pending : List (τ × ρ)

namespace Store

variable {τ : Type u} {ρ : Type v} [DecidableEq τ]

def own (s : Store τ ρ) (t : τ) : List ρ := (s.pending.filter fun p => p.1 = t).map Prod.snd

def visible (s : Store τ ρ) (t : τ) : List ρ := s.committed ++ s.own t

def insert (s : Store τ ρ) (t : τ) (r : ρ) : Store τ ρ :=
  { s with pending := s.pending ++ [(t, r)] }

def commit (s : Store τ ρ) (t : τ) : Store τ ρ where
  committed := s.committed ++ s.own t
  pending := s.pending.filter fun p => p.1 ≠ t

def rollback (s : Store τ ρ) (t : τ) : Store τ ρ :=
  { s with pending := s.pending.filter fun p => p.1 ≠ t }

def restrict (s : Store τ ρ) (q : ρ → Bool) : Store τ ρ where
  committed := s.committed.filter q
  pending := s.pending.filter fun p => q p.2

inductive InsertOutcome
  | inserted
  | conflict
  | waits
  deriving DecidableEq, Repr

def insertOutcome {κ : Type*} [DecidableEq κ] (key : ρ → κ) (s : Store τ ρ) (t : τ) (r : ρ) :
    InsertOutcome :=
  if key r ∈ (s.visible t).map key then .conflict
  else if key r ∈ s.pending.map fun p => key p.2 then .waits
  else .inserted

/-! ## Restricting -/

variable {s : Store τ ρ} {q : ρ → Bool} {t : τ}

theorem own_restrict : (s.restrict q).own t = (s.own t).filter q := by
  simp only [own, restrict, List.filter_filter, List.filter_map]
  congr 1
  apply List.filter_congr
  intro p _
  exact Bool.and_comm _ _

theorem visible_restrict : (s.restrict q).visible t = (s.visible t).filter q := by
  rw [visible, own_restrict, visible, List.filter_append]
  rfl

omit [DecidableEq τ] in
theorem restrict_insert (r : ρ) : (s.insert t r).restrict q =
    if q r then (s.restrict q).insert t r else s.restrict q := by
  by_cases hr : q r = true
  · rw [if_pos hr]
    simp [restrict, insert, List.filter_append, hr]
  · rw [if_neg hr]
    simp [restrict, insert, List.filter_append, hr]

theorem restrict_commit : (s.commit t).restrict q = (s.restrict q).commit t := by
  have hpending : (s.pending.filter fun p => p.1 ≠ t).filter (fun p => q p.2) =
      (s.pending.filter fun p => q p.2).filter fun p => p.1 ≠ t := by
    rw [List.filter_filter, List.filter_filter]
    apply List.filter_congr
    intro p _
    exact Bool.and_comm _ _
  simp only [restrict, commit, List.filter_append]
  rw [hpending, ← own_restrict]
  rfl

theorem restrict_rollback : (s.rollback t).restrict q = (s.restrict q).rollback t := by
  simp only [restrict, rollback, List.filter_filter]
  congr 1
  apply List.filter_congr
  intro p _
  exact Bool.and_comm _ _

/-! ## What another transaction sees -/

theorem visible_insert_of_ne {t' : τ} (h : t' ≠ t) (r : ρ) :
    (s.insert t r).visible t' = s.visible t' := by
  simp [visible, own, insert, h.symm]

theorem own_filter_of_ne {t' : τ} (h : t' ≠ t) :
    ((s.pending.filter fun p => p.1 ≠ t).filter fun p => p.1 = t') =
      s.pending.filter fun p => p.1 = t' := by
  rw [List.filter_filter]
  apply List.filter_congr
  intro p _
  by_cases hp : p.1 = t'
  · simp [hp, h]
  · simp [hp]

theorem visible_rollback_of_ne {t' : τ} (h : t' ≠ t) :
    (s.rollback t).visible t' = s.visible t' := by
  simp only [visible, own, rollback]
  rw [own_filter_of_ne h]

theorem visible_commit_of_ne {t' : τ} (h : t' ≠ t) :
    (s.commit t).visible t' = s.committed ++ s.own t ++ s.own t' := by
  simp only [visible, own, commit]
  rw [own_filter_of_ne h]

end Store

/-! ## Numbered tables -/

variable {τ : Type u} {ρ : Type v} [DecidableEq τ]

/-- Committed rows are numbered from 1 on, and the uncommitted rows, all of one transaction, go on
from there. -/
structure Contiguous (number : ρ → ℕ) (s : Store τ ρ) : Prop where
  committed : s.committed.map number = List.range' 1 s.committed.length
  pending : s.pending.map (fun p => number p.2) =
    List.range' (s.committed.length + 1) s.pending.length
  holder : ∀ p ∈ s.pending, ∀ p' ∈ s.pending, p.1 = p'.1

namespace Contiguous

variable {number : ρ → ℕ} {s : Store τ ρ} {t : τ}

omit [DecidableEq τ] in
theorem empty : Contiguous number (⟨[], []⟩ : Store τ ρ) :=
  ⟨rfl, rfl, fun _ h => by cases h⟩

/-- A transaction holds all uncommitted rows or none. -/
theorem own_cases (h : Contiguous number s) (t : τ) :
    (s.own t = s.pending.map Prod.snd ∧ ∀ p ∈ s.pending, p.1 = t) ∨
      (s.own t = [] ∧ ∀ p ∈ s.pending, p.1 ≠ t) := by
  by_cases hholds : ∃ p ∈ s.pending, p.1 = t
  · obtain ⟨p, hp, hpt⟩ := hholds
    have hall : ∀ p' ∈ s.pending, p'.1 = t := fun p' hp' => (h.holder p' hp' p hp).trans hpt
    refine .inl ⟨?_, hall⟩
    rw [Store.own, List.filter_eq_self.mpr fun p' hp' => decide_eq_true (hall p' hp')]
  · have hnone : ∀ p ∈ s.pending, p.1 ≠ t := fun p hp hpt => hholds ⟨p, hp, hpt⟩
    refine .inr ⟨?_, hnone⟩
    rw [Store.own, List.filter_eq_nil_iff.mpr fun p hp => by simp [hnone p hp]]
    rfl

omit [DecidableEq τ] in
theorem map_number_all (h : Contiguous number s) :
    (s.committed ++ s.pending.map Prod.snd).map number =
      List.range' 1 (s.committed.length + s.pending.length) := by
  rw [List.map_append, h.committed, List.map_map,
    show number ∘ Prod.snd = fun p : τ × ρ => number p.2 from rfl, h.pending, Nat.add_comm _ 1,
    List.range'_append_1]

theorem visible (h : Contiguous number s) (t : τ) :
    (s.visible t).map number = List.range' 1 (s.visible t).length := by
  rcases h.own_cases t with ⟨hown, -⟩ | ⟨hown, -⟩
  · rw [Store.visible, hown, h.map_number_all, List.length_append, List.length_map]
  · rw [Store.visible, hown, List.append_nil, h.committed]

/-- A row that goes on where its transaction stopped seeing, and that meets no uncommitted row. -/
theorem insert (h : Contiguous number s) {r : ρ} (hr : number r = (s.visible t).length + 1)
    (hfree : number r ∉ s.pending.map fun p => number p.2) : Contiguous number (s.insert t r) := by
  -- if another transaction held rows, the first of them would have this number
  have hheld : ∀ p ∈ s.pending, p.1 = t := by
    rcases h.own_cases t with ⟨-, hall⟩ | ⟨hown, -⟩
    · exact hall
    · intro p hp
      refine absurd ?_ hfree
      have hpos := List.length_pos_of_mem hp
      rw [hr, Store.visible, hown, List.append_nil, h.pending, List.mem_range'_1]
      omega
  have hlength : (s.visible t).length = s.committed.length + s.pending.length := by
    have hown : s.own t = s.pending.map Prod.snd := by
      rw [Store.own, List.filter_eq_self.mpr fun p hp => decide_eq_true (hheld p hp)]
    rw [Store.visible, hown, List.length_append, List.length_map]
  constructor
  · exact h.committed
  · simp only [Store.insert, List.map_append, List.map_singleton, List.length_append,
      List.length_singleton]
    rw [h.pending, hr, hlength, List.range'_concat]
    congr 2
    omega
  · have hall : ∀ p ∈ (s.insert t r).pending, p.1 = t := by
      intro p hp
      rcases List.mem_append.mp hp with hp | hp
      · exact hheld p hp
      · rw [List.mem_singleton.mp hp]
    exact fun p hp p' hp' => (hall p hp).trans (hall p' hp').symm

theorem rollback (h : Contiguous number s) (t : τ) : Contiguous number (s.rollback t) := by
  rcases h.own_cases t with ⟨-, hall⟩ | ⟨-, hnone⟩
  · have hempty : (s.rollback t).pending = [] :=
      List.filter_eq_nil_iff.mpr fun p hp => by simp [hall p hp]
    refine ⟨h.committed, ?_, ?_⟩
    · rw [hempty]
      rfl
    · rw [hempty]
      exact fun _ hp => by cases hp
  · have hsame : s.rollback t = s := by
      rw [Store.rollback, List.filter_eq_self.mpr fun p hp => by simp [hnone p hp]]
    rw [hsame]
    exact h

theorem commit (h : Contiguous number s) (t : τ) : Contiguous number (s.commit t) := by
  rcases h.own_cases t with ⟨hown, hall⟩ | ⟨hown, hnone⟩
  · have hempty : (s.commit t).pending = [] :=
      List.filter_eq_nil_iff.mpr fun p hp => by simp [hall p hp]
    refine ⟨?_, ?_, ?_⟩
    · simp only [Store.commit, hown]
      rw [h.map_number_all, List.length_append, List.length_map]
    · rw [hempty]
      rfl
    · rw [hempty]
      exact fun _ hp => by cases hp
  · have hsame : s.commit t = s := by
      rw [Store.commit, hown, List.append_nil,
        List.filter_eq_self.mpr fun p hp => by simp [hnone p hp]]
    rw [hsame]
    exact h

end Contiguous

end ReadCommitted
