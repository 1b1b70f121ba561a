import Mathlib.Data.List.Basic

/-!
# Runs of a transition system

A step either succeeds with the next state or is refused. `run` performs a list of actions and
skips the refused ones, so that every list is a run. An invariant of every step is an invariant
of every run.
-/

namespace Transition

variable {σ α : Type}

def next (step : σ → α → Option σ) (s : σ) (a : α) : σ := (step s a).getD s

theorem next_of_step {step : σ → α → Option σ} {s t : σ} {a : α} (h : step s a = some t) :
    next step s a = t := by
  rw [next, h]
  rfl

theorem next_of_refused {step : σ → α → Option σ} {s : σ} {a : α} (h : step s a = none) :
    next step s a = s := by
  rw [next, h]
  rfl

def run (step : σ → α → Option σ) (s : σ) (actions : List α) : σ := actions.foldl (next step) s

@[simp] theorem run_nil (step : σ → α → Option σ) (s : σ) : run step s [] = s := rfl

@[simp] theorem run_cons (step : σ → α → Option σ) (s : σ) (a : α) (as : List α) :
    run step s (a :: as) = run step (next step s a) as := rfl

theorem run_append (step : σ → α → Option σ) (s : σ) (as bs : List α) :
    run step s (as ++ bs) = run step (run step s as) bs :=
  List.foldl_append

def Meets (step : σ → α → Option σ) (ok : σ → α → Prop) : σ → List α → Prop
  | _, [] => True
  | s, a :: as => ((step s a).isSome → ok s a) ∧ Meets step ok (next step s a) as

instance decidableMeets (step : σ → α → Option σ) (ok : σ → α → Prop)
    [∀ s a, Decidable (ok s a)] : ∀ s actions, Decidable (Meets step ok s actions)
  | _, [] => .isTrue trivial
  | s, a :: as =>
    have := decidableMeets step ok (next step s a) as
    inferInstanceAs (Decidable (((step s a).isSome → ok s a) ∧ Meets step ok (next step s a) as))

theorem next_invariant {step : σ → α → Option σ} {Inv : σ → Prop} {s : σ} {a : α}
    (hstep : ∀ t, step s a = some t → Inv t) (hs : Inv s) : Inv (next step s a) := by
  unfold next
  cases h : step s a with
  | none => exact hs
  | some t => exact hstep t h

theorem Meets.and {step : σ → α → Option σ} {p q : σ → α → Prop} {s : σ} {actions : List α}
    (hp : Meets step p s actions) (hq : Meets step q s actions) :
    Meets step (fun s a => p s a ∧ q s a) s actions := by
  induction actions generalizing s with
  | nil => trivial
  | cons a as ih => exact ⟨fun h => ⟨hp.1 h, hq.1 h⟩, ih hp.2 hq.2⟩

theorem run_invariant_of_meets {step : σ → α → Option σ} {ok : σ → α → Prop} {Inv : σ → Prop}
    (hstep : ∀ s a t, ok s a → step s a = some t → Inv s → Inv t) {s : σ} {actions : List α}
    (hmeets : Meets step ok s actions) (hs : Inv s) : Inv (run step s actions) := by
  induction actions generalizing s with
  | nil => exact hs
  | cons a as ih =>
    obtain ⟨hok, hrest⟩ := hmeets
    refine ih hrest (next_invariant (fun t ht => ?_) hs)
    exact hstep s a t (hok (by rw [ht]; rfl)) ht hs

theorem meets_true (step : σ → α → Option σ) (s : σ) (actions : List α) :
    Meets step (fun _ _ => True) s actions := by
  induction actions generalizing s with
  | nil => trivial
  | cons a as ih => exact ⟨fun _ => trivial, ih _⟩

theorem run_invariant {step : σ → α → Option σ} {Inv : σ → Prop}
    (hstep : ∀ s a t, step s a = some t → Inv s → Inv t) {s : σ} (actions : List α)
    (hs : Inv s) : Inv (run step s actions) :=
  run_invariant_of_meets (fun s a t _ => hstep s a t) (meets_true step s actions) hs

end Transition
