import NetboxRpc.Transition

/-!
# What holds throughout a run

Where a step keeps an invariant exactly if it meets a condition, the invariant holds throughout a
run exactly if every performed step of the run meets the condition.
-/

namespace Transition

variable {σ α : Type} {step : σ → α → Option σ} {Inv Aux : σ → Prop} {ok : σ → α → Prop}

def Throughout (step : σ → α → Option σ) (Inv : σ → Prop) (s : σ) (actions : List α) : Prop :=
  ∀ done ahead, actions = done ++ ahead → Inv (run step s done)

theorem throughout_cons {s : σ} {a : α} {as : List α} :
    Throughout step Inv s (a :: as) ↔ Inv s ∧ Throughout step Inv (next step s a) as := by
  constructor
  · intro h
    refine ⟨h [] (a :: as) rfl, fun done ahead hsplit => ?_⟩
    exact h (a :: done) ahead (by rw [hsplit, List.cons_append])
  · rintro ⟨hs, h⟩ done ahead hsplit
    cases done with
    | nil => exact hs
    | cons b done =>
      obtain ⟨rfl, hrest⟩ := List.cons.inj hsplit
      exact h done ahead hrest

theorem meets_of_forall {s : σ} {actions : List α} (h : ∀ a ∈ actions, ∀ s, ok s a) :
    Meets step ok s actions := by
  induction actions generalizing s with
  | nil => trivial
  | cons a as ih =>
    exact ⟨fun _ => h a List.mem_cons_self s, ih (fun b hb => h b (List.mem_cons_of_mem a hb))⟩

/-- `Aux` is an invariant that every step keeps. -/
theorem throughout_iff_meets (haux : ∀ s a t, step s a = some t → Aux s → Aux t)
    (hiff : ∀ s a t, step s a = some t → Aux s → Inv s → (Inv t ↔ ok s a)) {s : σ}
    (hs : Aux s) (hinv : Inv s) (actions : List α) :
    Throughout step Inv s actions ↔ Meets step ok s actions := by
  induction actions generalizing s with
  | nil =>
    refine ⟨fun _ => trivial, fun _ done ahead hsplit => ?_⟩
    rw [(List.append_eq_nil_iff.mp hsplit.symm).1]
    exact hinv
  | cons a as ih =>
    rw [throughout_cons, Meets]
    cases hstep : step s a with
    | none =>
      rw [next_of_refused hstep]
      simp [hinv, ih hs hinv]
    | some t =>
      rw [next_of_step hstep]
      have ht := hiff s a t hstep hs hinv
      constructor
      · rintro ⟨-, h⟩
        have hinvt : Inv t := h [] as rfl
        exact ⟨fun _ => ht.mp hinvt, (ih (haux s a t hstep hs) hinvt).mp h⟩
      · rintro ⟨hok, h⟩
        have hinvt : Inv t := ht.mpr (hok rfl)
        exact ⟨hinv, (ih (haux s a t hstep hs) hinvt).mpr h⟩

end Transition
