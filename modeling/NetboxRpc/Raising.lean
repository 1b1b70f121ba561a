import Mathlib.Init

/-!
# Programs that raise

Rules of pre- and postconditions for programs on a state that may raise. The state in which an
exception is raised stays: `raises` speaks of that state.
-/

namespace Raising

variable {σ ε α β : Type}

def Ended (post : α → σ → Prop) (raises : ε → σ → Prop) : EStateM.Result ε σ α → Prop
  | .ok a s => post a s
  | .error e s => raises e s

def Triple (pre : σ → Prop) (x : EStateM ε σ α) (post : α → σ → Prop)
    (raises : ε → σ → Prop) : Prop :=
  ∀ s, pre s → Ended post raises (x s)

variable {pre : σ → Prop} {post : α → σ → Prop} {raises : ε → σ → Prop}

theorem triple_pure {a : α} (h : ∀ s, pre s → post a s) : Triple pre (pure a) post raises := h

theorem triple_throw {e : ε} (h : ∀ s, pre s → raises e s) : Triple pre (throw e) post raises := h

theorem triple_bind {x : EStateM ε σ α} {f : α → EStateM ε σ β} {mid : α → σ → Prop}
    {post : β → σ → Prop} (hx : Triple pre x mid raises)
    (hf : ∀ a, Triple (mid a) (f a) post raises) : Triple pre (x >>= f) post raises := by
  intro s hs
  have hmid := hx s hs
  change Ended post raises (EStateM.bind x f s)
  unfold EStateM.bind
  cases hrun : x s with
  | ok a s' =>
    rw [hrun] at hmid
    exact hf a s' hmid
  | error e s' =>
    rw [hrun] at hmid
    exact hmid

def lift (x : Except ε α) : EStateM ε σ α :=
  match x with
  | .ok a => pure a
  | .error e => throw e

end Raising
