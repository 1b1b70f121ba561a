import Mathlib.Data.List.Nodup
import Mathlib.Data.List.Perm.Basic

/-!
# Handles that are opened and closed

A log of openings and closings. `Holds` says which handles are open after it, when each has been
opened once and none has been closed without being open. With no handle open, every opened handle
has been closed exactly once.
-/

inductive HandleEvent (ρ : Type)
  | opened (r : ρ)
  | closed (r : ρ)

namespace HandleLog

variable {ρ : Type} [DecidableEq ρ]

def opened (log : List (HandleEvent ρ)) : List ρ :=
  log.filterMap fun
    | .opened r => some r
    | .closed _ => none

def closed (log : List (HandleEvent ρ)) : List ρ :=
  log.filterMap fun
    | .opened _ => none
    | .closed r => some r

def ClosedOnce (log : List (HandleEvent ρ)) : Prop := ∀ r ∈ opened log, (closed log).count r = 1

structure Holds (log : List (HandleEvent ρ)) (held : List ρ) : Prop where
  distinct : (opened log).Nodup
  balance : (closed log ++ held).Perm (opened log)

variable {log : List (HandleEvent ρ)} {held : List ρ} {r : ρ}

omit [DecidableEq ρ] in
theorem holds_nil : Holds ([] : List (HandleEvent ρ)) [] := ⟨List.nodup_nil, List.Perm.nil⟩

omit [DecidableEq ρ] in
theorem opened_append (log more : List (HandleEvent ρ)) :
    opened (log ++ more) = opened log ++ opened more := List.filterMap_append

omit [DecidableEq ρ] in
theorem closed_append (log more : List (HandleEvent ρ)) :
    closed (log ++ more) = closed log ++ closed more := List.filterMap_append

omit [DecidableEq ρ] in
theorem Holds.open (h : Holds log held) (hfresh : r ∉ opened log) :
    Holds (log ++ [.opened r]) (r :: held) := by
  have hopened : opened (log ++ [.opened r]) = opened log ++ [r] := opened_append log [.opened r]
  have hclosed : closed (log ++ [.opened r]) = closed log := by
    rw [closed_append]
    exact List.append_nil _
  constructor
  · rw [hopened, List.nodup_append]
    exact ⟨h.distinct, List.nodup_singleton r, fun a ha b hb hab =>
      hfresh (List.mem_singleton.mp hb ▸ hab ▸ ha)⟩
  · rw [hopened, hclosed]
    exact List.perm_middle.trans ((h.balance.cons r).trans (List.perm_append_singleton r _).symm)

omit [DecidableEq ρ] in
theorem Holds.close (h : Holds log (r :: held)) : Holds (log ++ [.closed r]) held := by
  have hopened : opened (log ++ [.closed r]) = opened log := by
    rw [opened_append]
    exact List.append_nil _
  have hclosed : closed (log ++ [.closed r]) = closed log ++ [r] := closed_append log [.closed r]
  constructor
  · rw [hopened]
    exact h.distinct
  · rw [hopened, hclosed, List.append_assoc]
    exact h.balance

omit [DecidableEq ρ] in
theorem Holds.perm {held' : List ρ} (h : Holds log held) (hperm : held.Perm held') :
    Holds log held' :=
  ⟨h.distinct, (hperm.append_left (closed log)).symm.trans h.balance⟩

theorem Holds.closedOnce (h : Holds log []) : ClosedOnce log := by
  intro r hr
  have hbalance := h.balance
  rw [List.append_nil] at hbalance
  rw [hbalance.count_eq, List.count_eq_one_of_mem h.distinct hr]

theorem not_closedOnce_of_closed (hopened : r ∈ opened log) (hclosed : r ∈ closed log) :
    ¬ ClosedOnce (log ++ [.closed r]) := by
  intro honce
  have hcount := honce r (by rw [opened_append]; exact List.mem_append_left _ hopened)
  rw [closed_append, List.count_append] at hcount
  have hfirst : 0 < (closed log).count r := List.count_pos_iff.mpr hclosed
  have hsecond : (closed [HandleEvent.closed r]).count r = 1 := by simp [closed]
  omega

omit [DecidableEq ρ] in
theorem Holds.mem_opened (h : Holds log held) (hclosed : r ∈ closed log) : r ∈ opened log :=
  h.balance.subset (List.mem_append_left _ hclosed)

end HandleLog
