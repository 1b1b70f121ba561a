import Mathlib.Data.List.Basic

/-!
# Searching a tree

A tree is a type with the children of each node in order. Two equal nodes may stand at different
places, so a node is identified by its address: the child indices on the way from the root.
`search` lists everything below a node with its address. The depth to which it looks is given by
`rank`, which falls from a node to its children.
-/

namespace TreeSearch

variable {α : Type*} (children : α → List α)

def nodeAt : List ℕ → α → Option α
  | [], a => some a
  | i :: path, a => (children a)[i]?.bind (nodeAt path)

def search : ℕ → List ℕ → α → List (List ℕ × α)
  | 0, _, _ => []
  | depth + 1, path, a => (children a).zipIdx.flatMap fun c =>
    (path ++ [c.2], c.1) :: search depth (path ++ [c.2]) c.1

variable {children}

theorem nodeAt_cons {i : ℕ} {path : List ℕ} {a b : α} :
    nodeAt children (i :: path) a = some b ↔
      ∃ c, (children a)[i]? = some c ∧ nodeAt children path c = some b := by
  rw [nodeAt, Option.bind_eq_some_iff]

theorem nodeAt_append (path rest : List ℕ) (a : α) :
    nodeAt children (path ++ rest) a = (nodeAt children path a).bind (nodeAt children rest) := by
  induction path generalizing a with
  | nil => rfl
  | cons i path ih =>
    rw [List.cons_append, nodeAt, nodeAt]
    cases (children a)[i]? with
    | none => rfl
    | some c => exact ih c

theorem nodeAt_child {path : List ℕ} {a b c : α} {i : ℕ} (hb : nodeAt children path a = some b)
    (hc : (children b)[i]? = some c) : nodeAt children (path ++ [i]) a = some c := by
  rw [nodeAt_append, hb, Option.bind_some, nodeAt, hc]
  rfl

theorem exists_parent {path : List ℕ} {a c : α} {i : ℕ}
    (h : nodeAt children (path ++ [i]) a = some c) :
    ∃ b, nodeAt children path a = some b ∧ (children b)[i]? = some c := by
  rw [nodeAt_append, Option.bind_eq_some_iff] at h
  obtain ⟨b, hb, hc⟩ := h
  obtain ⟨d, hd, hcd⟩ := nodeAt_cons.mp hc
  cases hcd
  exact ⟨b, hb, hd⟩

theorem mem_search {depth : ℕ} {path q : List ℕ} {a b : α} :
    (q, b) ∈ search children depth path a ↔
      ∃ i rest, q = path ++ i :: rest ∧ rest.length < depth ∧
        nodeAt children (i :: rest) a = some b := by
  induction depth generalizing path a with
  | zero => simp [search]
  | succ depth ih =>
    simp only [search, List.mem_flatMap, List.mem_cons, Prod.exists, List.mem_zipIdx_iff_getElem?]
    constructor
    · rintro ⟨c, i, hc, heq | hbelow⟩
      · obtain ⟨rfl, rfl⟩ := Prod.mk.inj heq
        exact ⟨i, [], rfl, Nat.succ_pos depth, nodeAt_cons.mpr ⟨b, hc, rfl⟩⟩
      · obtain ⟨j, rest, rfl, hlength, hnode⟩ := ih.mp hbelow
        refine ⟨i, j :: rest, by simp, ?_, nodeAt_cons.mpr ⟨c, hc, hnode⟩⟩
        exact Nat.succ_lt_succ hlength
    · rintro ⟨i, rest, rfl, hlength, hnode⟩
      obtain ⟨c, hc, hnode⟩ := nodeAt_cons.mp hnode
      refine ⟨c, i, hc, ?_⟩
      cases rest with
      | nil =>
        cases hnode
        exact .inl rfl
      | cons j rest =>
        refine .inr (ih.mpr ⟨j, rest, by simp, ?_, hnode⟩)
        exact Nat.lt_of_succ_lt_succ hlength

def Descends (children : α → List α) (rank : α → ℕ) : Prop :=
  ∀ a, ∀ c ∈ children a, rank c < rank a

variable {rank : α → ℕ}

theorem Descends.length_lt (h : Descends children rank) {path : List ℕ} {a b : α}
    (hnode : nodeAt children path a = some b) : path.length + rank b ≤ rank a := by
  induction path generalizing a with
  | nil =>
    cases hnode
    simp
  | cons i path ih =>
    obtain ⟨c, hc, hnode⟩ := nodeAt_cons.mp hnode
    have hchild : rank c < rank a := h a c (List.mem_of_getElem? hc)
    have hbelow := ih hnode
    rw [List.length_cons]
    omega

theorem Descends.mem_search_rank (h : Descends children rank) {path : List ℕ} {a b : α} :
    (path, b) ∈ search children (rank a) [] a ↔ path ≠ [] ∧ nodeAt children path a = some b := by
  rw [mem_search]
  constructor
  · rintro ⟨i, rest, rfl, -, hnode⟩
    exact ⟨List.cons_ne_nil i rest, hnode⟩
  · rintro ⟨hne, hnode⟩
    obtain ⟨i, rest, rfl⟩ := List.exists_cons_of_ne_nil hne
    have hlength := h.length_lt hnode
    rw [List.length_cons] at hlength
    exact ⟨i, rest, rfl, by omega, hnode⟩

end TreeSearch
