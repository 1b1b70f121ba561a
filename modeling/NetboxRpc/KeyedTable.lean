import Mathlib.Data.List.Nodup

/-!
# Tables with a primary key

A table is the list of its rows in storage order, and no two rows have the same key. Inserting
takes a row with a new key; updating changes the row of one key and keeps every key.
-/

namespace NetboxRpc

universe u v

structure KeyedTable (ρ : Type u) {κ : Type v} (key : ρ → κ) where
  rows : List ρ
  nodup_keys : (rows.map key).Nodup

namespace KeyedTable

variable {ρ : Type u} {κ : Type v} {key : ρ → κ}

theorem eq_of_key (t : KeyedTable ρ key) {r r' : ρ} (hr : r ∈ t.rows) (hr' : r' ∈ t.rows)
    (hkey : key r = key r') : r = r' :=
  List.inj_on_of_nodup_map t.nodup_keys hr hr' hkey

def insert (t : KeyedTable ρ key) (r : ρ) (h : key r ∉ t.rows.map key) : KeyedTable ρ key where
  rows := t.rows ++ [r]
  nodup_keys := by
    rw [List.map_append, List.map_singleton]
    exact t.nodup_keys.append (List.nodup_singleton _) (List.disjoint_singleton.mpr h)

@[simp] theorem insert_rows (t : KeyedTable ρ key) (r : ρ) (h : key r ∉ t.rows.map key) :
    (t.insert r h).rows = t.rows ++ [r] := rfl

variable [DecidableEq κ]

def update (t : KeyedTable ρ key) (k : κ) (f : ρ → ρ) (hf : ∀ r, key (f r) = key r) :
    KeyedTable ρ key where
  rows := t.rows.map fun r => if key r = k then f r else r
  nodup_keys := by
    have hkeys : (key ∘ fun r => if key r = k then f r else r) = key := by
      funext r
      simp only [Function.comp_apply]
      split_ifs
      · exact hf r
      · rfl
    rw [List.map_map, hkeys]
    exact t.nodup_keys

variable {t : KeyedTable ρ key} {k : κ} {f : ρ → ρ} {hf : ∀ r, key (f r) = key r}

theorem mem_update_iff {r : ρ} : r ∈ (t.update k f hf).rows ↔
    (∃ r₀ ∈ t.rows, key r₀ = k ∧ r = f r₀) ∨ (r ∈ t.rows ∧ key r ≠ k) := by
  rw [update, List.mem_map]
  constructor
  · rintro ⟨r₀, hr₀, rfl⟩
    by_cases hkey : key r₀ = k
    · rw [if_pos hkey]
      exact .inl ⟨r₀, hr₀, hkey, rfl⟩
    · rw [if_neg hkey]
      exact .inr ⟨hr₀, hkey⟩
  · rintro (⟨r₀, hr₀, hkey, rfl⟩ | ⟨hr, hkey⟩)
    · exact ⟨r₀, hr₀, if_pos hkey⟩
    · exact ⟨r, hr, if_neg hkey⟩

theorem forall₂_update {R : ρ → ρ → Prop} (hkept : ∀ r, R r r)
    (hchanged : ∀ r ∈ t.rows, key r = k → R r (f r)) :
    List.Forall₂ R t.rows (t.update k f hf).rows := by
  rw [update, List.forall₂_map_right_iff, List.forall₂_same]
  intro r hr
  by_cases hkey : key r = k
  · rw [if_pos hkey]
    exact hchanged r hr hkey
  · rw [if_neg hkey]
    exact hkept r

end KeyedTable

theorem forall₂_trans {ρ : Type u} {R S T : ρ → ρ → Prop} (hT : ∀ a b c, R a b → S b c → T a c)
    {l₁ l₂ l₃ : List ρ} (h : List.Forall₂ R l₁ l₂) (h' : List.Forall₂ S l₂ l₃) :
    List.Forall₂ T l₁ l₃ := by
  induction h generalizing l₃ with
  | nil =>
    cases h'
    exact .nil
  | cons hab _ ih =>
    cases h' with
    | cons hbc hrest => exact .cons (hT _ _ _ hab hbc) (ih hrest)

end NetboxRpc
