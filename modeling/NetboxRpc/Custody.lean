import Mathlib.Data.List.Basic

/-!
# Custody under fencing generations

A resource that one party at a time may hold, for parties that can stop at any moment. Every
reservation takes the next generation, and only the holder that names the current generation may
settle. A party whose hold was taken over keeps an older generation and can do nothing.
-/

namespace Custody

variable {ι : Type}

/-- Who holds the resource. A held one waits for its owner, is blocked after the owner failed, or
is contested by a taker. -/
inductive Holding (ι : Type)
  | clear
  | pending (owner : ι)
  | blocked (owner : ι)
  | contested (owner taker : ι)

def Holding.holder : Holding ι → Option ι
  | .clear => none
  | .pending owner | .blocked owner => some owner
  | .contested _ taker => some taker

def Holding.owner : Holding ι → Option ι
  | .clear => none
  | .pending owner | .blocked owner | .contested owner _ => some owner

def Holding.retained : Holding ι → Holding ι
  | .clear => .clear
  | .pending owner | .blocked owner | .contested owner _ => .blocked owner

theorem Holding.owner_retained (h : Holding ι) : h.retained.owner = h.owner := by
  cases h <;> rfl

structure Fenced (ι : Type) where
  holding : Holding ι
  generation : ℕ
  log : List ι

inductive Op (ι : Type)
  | acquire (party : ι)
  | takeover (party : ι)
  | settle (party : ι) (generation : ℕ) (release : Bool)

section

variable [DecidableEq ι] (limit : ℕ)

def step (f : Fenced ι) : Op ι → Option (Fenced ι)
  | .acquire i => match f.holding with
    | .clear => if f.generation < limit then
        some ⟨.pending i, f.generation + 1, f.log ++ [i]⟩ else none
    | _ => none
  | .takeover i => match f.holding with
    | .pending owner | .blocked owner => if f.generation < limit then
        some ⟨.contested owner i, f.generation + 1, f.log ++ [i]⟩ else none
    | _ => none
  | .settle i g release => if f.holding.holder = some i ∧ f.generation = g then
      some { f with holding := if release then .clear else f.holding.retained } else none

def fresh : Fenced ι := ⟨.clear, 0, []⟩

/-- Every generation up to the current one was reserved once, and the owner is one of the parties
that reserved. -/
structure Sound (f : Fenced ι) : Prop where
  log_length : f.log.length = f.generation
  generation_le : f.generation ≤ limit
  owner_mem : ∀ i, f.holding.owner = some i → i ∈ f.log

omit [DecidableEq ι] in
theorem Sound.fresh : Sound limit (fresh : Fenced ι) where
  log_length := rfl
  generation_le := Nat.zero_le limit
  owner_mem := fun i h => by cases h

variable {limit} {f f' : Fenced ι}

omit [DecidableEq ι] in
theorem Sound.reserve (hf : Sound limit f) {i : ι} {h : Holding ι} (hlt : f.generation < limit)
    (howner : h.owner = some i ∨ h.owner = f.holding.owner) :
    Sound limit ⟨h, f.generation + 1, f.log ++ [i]⟩ := by
  refine ⟨?_, hlt, fun j hj => ?_⟩
  · rw [List.length_append, hf.log_length]
    rfl
  · have hj : h.owner = some j := hj
    rcases howner with howner | howner
    · rw [howner] at hj
      cases hj
      exact List.mem_append_right _ (List.mem_singleton_self i)
    · exact List.mem_append_left _ (hf.owner_mem j (howner ▸ hj))

theorem Sound.step {op : Op ι} (h : step limit f op = some f') (hf : Sound limit f) :
    Sound limit f' := by
  cases op with
  | acquire i =>
    simp only [Custody.step] at h
    split at h
    · split_ifs at h with hlt
      cases h
      exact hf.reserve hlt (.inl rfl)
    · cases h
  | takeover i =>
    simp only [Custody.step] at h
    split at h
    · rename_i owner howner
      split_ifs at h with hlt
      cases h
      exact hf.reserve hlt (.inr (by rw [howner]; rfl))
    · rename_i owner howner
      split_ifs at h with hlt
      cases h
      exact hf.reserve hlt (.inr (by rw [howner]; rfl))
    · cases h
  | settle i g release =>
    simp only [Custody.step] at h
    split_ifs at h with hown hrelease
    · cases h
      exact ⟨hf.log_length, hf.generation_le, fun j hj => by cases hj⟩
    · cases h
      refine ⟨hf.log_length, hf.generation_le, fun j hj => ?_⟩
      exact hf.owner_mem j (f.holding.owner_retained ▸ hj)

end

end Custody
