import Mathlib.Data.Fintype.Card
import Mathlib.Logic.Relation

/-!
# Depth-first search with a visited list

A search over a finite graph whose nodes may point back at one another. `edges` gives the entries
of a node in order, each with a flag that ends the search, or `none` for a node the search does
not enter. Every entered node goes on the visited list before its entries are tried, which makes
the search end on cycles; a search without a flag has entered exactly what the root reaches.
-/

namespace GraphSearch

variable {α : Type*} [DecidableEq α]

def anyEntry (visit : List α → α → Option (Bool × List α)) :
    List (Bool × α) → List α → Option (Bool × List α)
  | [], seen => some (false, seen)
  | (flag, child) :: rest, seen =>
    if flag then some (true, seen)
    else match visit seen child with
      | none => none
      | some (true, seen) => some (true, seen)
      | some (false, seen) => anyEntry visit rest seen

/-- The verdict and the visited list afterwards; `none` when the fuel has run out. -/
def search (edges : α → Option (List (Bool × α))) : ℕ → List α → α → Option (Bool × List α)
  | 0, _, _ => none
  | fuel + 1, seen, node => match edges node with
    | none => some (false, seen)
    | some entries =>
      if node ∈ seen then some (false, seen)
      else anyEntry (search edges fuel) entries (node :: seen)

def Edge (edges : α → Option (List (Bool × α))) (u v : α) : Prop :=
  ∃ entries, edges u = some entries ∧ ∃ flag, (flag, v) ∈ entries

abbrev Reaches (edges : α → Option (List (Bool × α))) : α → α → Prop :=
  Relation.ReflTransGen (Edge edges)

def Flagged (edges : α → Option (List (Bool × α))) (u : α) : Prop :=
  ∃ entries, edges u = some entries ∧ ∃ child, (true, child) ∈ entries

variable {edges : α → Option (List (Bool × α))}

/-! ## A search without a flag -/

def Settled (edges : α → Option (List (Bool × α))) (seen : List α) (node : α) : Prop :=
  node ∈ seen ∨ edges node = none

/-- The visited list has only grown, by nodes without a flag whose entries are settled. -/
structure Closed (edges : α → Option (List (Bool × α))) (before after : List α) : Prop where
  grows : before ⊆ after
  entries : ∀ node ∈ after, node ∉ before → ∀ entries, edges node = some entries →
    ∀ e ∈ entries, e.1 = false ∧ Settled edges after e.2

omit [DecidableEq α] in
theorem Settled.mono {before after : List α} (h : before ⊆ after) {node : α}
    (hn : Settled edges before node) : Settled edges after node :=
  hn.imp_left (fun hmem => h hmem)

omit [DecidableEq α] in
theorem Closed.refl (seen : List α) : Closed edges seen seen :=
  ⟨List.Subset.refl seen, fun _ hmem hfresh => absurd hmem hfresh⟩

theorem Closed.trans {a b c : List α} (hab : Closed edges a b) (hbc : Closed edges b c) :
    Closed edges a c := by
  refine ⟨List.Subset.trans hab.grows hbc.grows, fun node hnode hfresh entries hentries e he => ?_⟩
  by_cases hb : node ∈ b
  · obtain ⟨hflag, hsettled⟩ := hab.entries node hb hfresh entries hentries e he
    exact ⟨hflag, hsettled.mono hbc.grows⟩
  · exact hbc.entries node hnode hb entries hentries e he

def Visits (edges : α → Option (List (Bool × α)))
    (visit : List α → α → Option (Bool × List α)) : Prop :=
  ∀ seen node after, visit seen node = some (false, after) →
    Closed edges seen after ∧ Settled edges after node

theorem anyEntry_closed {visit : List α → α → Option (Bool × List α)}
    (hvisit : Visits edges visit) {entries : List (Bool × α)} {seen after : List α}
    (h : anyEntry visit entries seen = some (false, after)) :
    Closed edges seen after ∧ ∀ e ∈ entries, e.1 = false ∧ Settled edges after e.2 := by
  induction entries generalizing seen with
  | nil =>
    simp only [anyEntry, Option.some.injEq, Prod.mk.injEq, true_and] at h
    subst h
    exact ⟨.refl seen, by simp⟩
  | cons e rest ih =>
    obtain ⟨flag, child⟩ := e
    rw [anyEntry] at h
    cases flag with
    | true => simp at h
    | false =>
      cases hv : visit seen child with
      | none => simp [hv] at h
      | some r =>
        obtain ⟨verdict, middle⟩ := r
        cases verdict with
        | true => simp [hv] at h
        | false =>
          simp only [Bool.false_eq_true, ↓reduceIte, hv] at h
          obtain ⟨hfirst, hchild⟩ := hvisit seen child middle hv
          obtain ⟨hrest, hall⟩ := ih h
          refine ⟨hfirst.trans hrest, fun e he => ?_⟩
          rcases List.mem_cons.mp he with rfl | he
          · exact ⟨rfl, hchild.mono hrest.grows⟩
          · exact hall e he

theorem search_visits (fuel : ℕ) : Visits edges (search edges fuel) := by
  induction fuel with
  | zero => intro seen node after h; simp [search] at h
  | succ fuel ih =>
    intro seen node after h
    rw [search] at h
    cases hedges : edges node with
    | none =>
      simp only [hedges, Option.some.injEq, Prod.mk.injEq, true_and] at h
      subst h
      exact ⟨.refl seen, .inr hedges⟩
    | some entries =>
      by_cases hseen : node ∈ seen
      · simp only [hedges, hseen, ↓reduceIte, Option.some.injEq, Prod.mk.injEq, true_and] at h
        subst h
        exact ⟨.refl seen, .inl hseen⟩
      · simp only [hedges, hseen, ↓reduceIte] at h
        obtain ⟨hclosed, hall⟩ := anyEntry_closed ih h
        have hnode : node ∈ after := hclosed.grows List.mem_cons_self
        have hgrows : seen ⊆ after := fun x hx => hclosed.grows (List.mem_cons_of_mem node hx)
        refine ⟨⟨hgrows, fun x hx hfresh found hfound => ?_⟩, .inl hnode⟩
        by_cases hxn : x = node
        · subst hxn
          have hsame : entries = found := Option.some.inj (hedges.symm.trans hfound)
          exact hsame ▸ hall
        · have hx' : x ∉ node :: seen := by simp [hxn, hfresh]
          exact hclosed.entries x hx hx' found hfound

/-- A search that reports no flag leaves none within reach. -/
theorem not_flagged_of_search {fuel : ℕ} {root : α} {after : List α}
    (h : search edges fuel [] root = some (false, after)) {u : α} (hu : Reaches edges root u) :
    ¬ Flagged edges u := by
  obtain ⟨hclosed, hroot⟩ := search_visits fuel [] root after h
  have hsettled : Settled edges after u := by
    induction hu with
    | refl => exact hroot
    | tail _ hstep ih =>
      obtain ⟨entries, hentries, flag, hmem⟩ := hstep
      rcases ih with hin | hout
      · exact (hclosed.entries _ hin List.not_mem_nil entries hentries _ hmem).2
      · rw [hout] at hentries
        cases hentries
  rintro ⟨entries, hentries, child, hmem⟩
  rcases hsettled with hin | hout
  · have hflag := (hclosed.entries u hin List.not_mem_nil entries hentries _ hmem).1
    cases hflag
  · rw [hout] at hentries
    cases hentries

/-! ## Termination -/

section Termination

variable [Fintype α]

def unseen (seen : List α) : ℕ := (Finset.univ.filter (fun u => u ∉ seen)).card

theorem unseen_le_of_subset {before after : List α} (h : before ⊆ after) :
    unseen after ≤ unseen before := by
  apply Finset.card_le_card
  intro u hu
  simp only [Finset.mem_filter, Finset.mem_univ, true_and] at hu ⊢
  exact fun hb => hu (h hb)

theorem unseen_cons_lt {seen : List α} {node : α} (h : node ∉ seen) :
    unseen (node :: seen) < unseen seen := by
  apply Finset.card_lt_card
  rw [Finset.ssubset_iff_of_subset]
  · exact ⟨node, by simp [h], by simp⟩
  · intro u hu
    simp only [Finset.mem_filter, Finset.mem_univ, true_and, List.mem_cons, not_or] at hu ⊢
    exact hu.2

omit [Fintype α] in
theorem anyEntry_isSome {fuel : ℕ} {entries : List (Bool × α)} {seen : List α}
    (hvisit : ∀ seen' node, seen ⊆ seen' → (search edges fuel seen' node).isSome) :
    (anyEntry (search edges fuel) entries seen).isSome := by
  induction entries generalizing seen with
  | nil => rfl
  | cons e rest ih =>
    obtain ⟨flag, child⟩ := e
    rw [anyEntry]
    cases flag with
    | true => rfl
    | false =>
      obtain ⟨⟨verdict, middle⟩, hv⟩ :=
        Option.isSome_iff_exists.mp (hvisit seen child (List.Subset.refl seen))
      cases verdict with
      | true => simp [hv]
      | false =>
        have hgrows := (search_visits fuel seen child middle hv).1.grows
        simp only [Bool.false_eq_true, ↓reduceIte, hv]
        exact ih (fun seen' node hsub => hvisit seen' node (List.Subset.trans hgrows hsub))

/-- Enough fuel for every node still to be entered ends the search. -/
theorem search_isSome {fuel : ℕ} {seen : List α} (h : unseen seen < fuel) (node : α) :
    (search edges fuel seen node).isSome := by
  induction fuel generalizing seen node with
  | zero => omega
  | succ fuel ih =>
    rw [search]
    cases hedges : edges node with
    | none => rfl
    | some entries =>
      by_cases hseen : node ∈ seen
      · simp [hseen]
      · simp only [hseen, ↓reduceIte]
        have hless := unseen_cons_lt hseen
        refine anyEntry_isSome (fun seen' node' hsub => ih ?_ node')
        have hle := unseen_le_of_subset hsub
        omega

end Termination

end GraphSearch
