import Mathlib.Order.Basic

/-!
# Steps that use what earlier steps produce

A step has a position, may produce one name, and uses names. A collection of steps is resolved if
every used name is produced by a step at a smaller position. The lemmas say when this survives the
arrival and the departure of a step.
-/

namespace ProducerChains

variable {σ ν κ : Type*} [Preorder κ] (position : σ → κ) (produces : σ → Option ν)
  (uses : σ → List ν)

def Available (steps : List σ) (limit : κ) (x : ν) : Prop :=
  ∃ s ∈ steps, position s < limit ∧ produces s = some x

def Resolved (steps : List σ) : Prop :=
  ∀ s ∈ steps, ∀ x ∈ uses s, Available position produces steps (position s) x

def Unambiguous (steps : List σ) : Prop :=
  ∀ s ∈ steps, ∀ t ∈ steps, ∀ x, produces s = some x → produces t = some x → s = t

variable {position produces uses} {steps rest : List σ} {new old : σ}

theorem resolved_congr (h : ∀ s, s ∈ steps ↔ s ∈ rest) :
    Resolved position produces uses steps ↔ Resolved position produces uses rest := by
  unfold Resolved Available
  simp only [h]

/-- A step does not use its own product, so an arrival has to find its names among the others. -/
theorem resolved_arrive_iff (hsteps : ∀ s, s ∈ steps ↔ s = new ∨ s ∈ rest) :
    Resolved position produces uses steps ↔
      (∀ x ∈ uses new, Available position produces rest (position new) x) ∧
        ∀ s ∈ rest, ∀ x ∈ uses s, Available position produces (rest ++ [new]) (position s) x := by
  have hsame : ∀ limit x, Available position produces steps limit x ↔
      Available position produces (rest ++ [new]) limit x := by
    intro limit x
    unfold Available
    simp only [hsteps, List.mem_append, List.mem_singleton, or_comm]
  constructor
  · intro h
    constructor
    · intro x hx
      obtain ⟨s, hs, hlt, hproduces⟩ := h new ((hsteps new).mpr (.inl rfl)) x hx
      rcases (hsteps s).mp hs with rfl | hrest
      · exact absurd hlt (lt_irrefl _)
      · exact ⟨s, hrest, hlt, hproduces⟩
    · intro s hs x hx
      exact (hsame _ _).mp (h s ((hsteps s).mpr (.inr hs)) x hx)
  · rintro ⟨hnew, hrest⟩ s hs x hx
    rw [hsame]
    rcases (hsteps s).mp hs with rfl | hs
    · obtain ⟨t, ht, hlt, hproduces⟩ := hnew x hx
      exact ⟨t, List.mem_append_left _ ht, hlt, hproduces⟩
    · exact hrest s hs x hx

theorem Unambiguous.arrive (hsteps : ∀ s, s ∈ steps ↔ s = new ∨ s ∈ rest)
    (hrest : Unambiguous produces rest)
    (hnew : ∀ s ∈ rest, ∀ x, produces new = some x → produces s ≠ some x) :
    Unambiguous produces steps := by
  intro s hs t ht x hsx htx
  rcases (hsteps s).mp hs with rfl | hs <;> rcases (hsteps t).mp ht with rfl | ht
  · rfl
  · exact absurd htx (hnew t ht x hsx)
  · exact absurd hsx (hnew s hs x htx)
  · exact hrest s hs t ht x hsx htx

theorem Unambiguous.mono (h : Unambiguous produces steps) (hsub : ∀ s ∈ rest, s ∈ steps) :
    Unambiguous produces rest :=
  fun s hs t ht => h s (hsub s hs) t (hsub t ht)

/-- A departure leaves the others resolved exactly if none of them uses the product of the step
that leaves. -/
theorem resolved_leave_iff (hsteps : ∀ s, s ∈ rest ↔ s ∈ steps ∧ s ≠ old) (hold : old ∈ steps)
    (hresolved : Resolved position produces uses steps) (hunique : Unambiguous produces steps) :
    Resolved position produces uses rest ↔ ∀ s ∈ rest, ∀ x ∈ uses s, produces old ≠ some x := by
  constructor
  · intro h s hs x hx hproduces
    obtain ⟨t, ht, -, htx⟩ := h s hs x hx
    obtain ⟨htmem, hne⟩ := (hsteps t).mp ht
    exact hne (hunique t htmem old hold x htx hproduces)
  · intro h s hs x hx
    obtain ⟨t, ht, hlt, htx⟩ := hresolved s ((hsteps s).mp hs).1 x hx
    have hne : t ≠ old := by
      rintro rfl
      exact h s hs x hx htx
    exact ⟨t, (hsteps t).mpr ⟨ht, hne⟩, hlt, htx⟩

end ProducerChains
