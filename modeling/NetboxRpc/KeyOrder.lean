import Mathlib.Algebra.BigOperators.Group.List.Basic
import Mathlib.Algebra.Ring.Nat
import Mathlib.Data.List.Perm.Basic
import NetboxRpc.JsonText

/-!
# What key order does not change

Two objects that are equal up to key order pair off their members: the same names with values that
are again equal up to key order. Sizes do not depend on the order, and scalars have none.
-/

namespace Json

def EntryEq (d e : String × Json) : Prop := d.1 = e.1 ∧ KeyEq d.2 e.2

theorem map_sorted_eq_iff {others entries : List (String × Json)} :
    others.map (fun e => (e.1, e.2.sorted)) = entries.map (fun e => (e.1, e.2.sorted)) ↔
      List.Forall₂ EntryEq others entries := by
  induction others generalizing entries with
  | nil => cases entries <;> simp
  | cons d ds ih => cases entries <;> simp [ih, EntryEq, KeyEq]

/-- Objects that are equal up to key order pair off their members. -/
theorem forall₂_of_keyEq_obj {others entries : List (String × Json)}
    (h : KeyEq (.obj others) (.obj entries)) :
    ∃ paired, List.Forall₂ EntryEq others paired ∧ paired.Perm entries := by
  rw [KeyEq, sorted_obj, sorted_obj, obj.injEq] at h
  have hperm : (others.map (fun e => (e.1, e.2.sorted))).Perm
      (entries.map (fun e => (e.1, e.2.sorted))) := by
    have hother := List.perm_insertionSort keyLe (others.map (fun e => (e.1, e.2.sorted)))
    rw [h] at hother
    exact hother.symm.trans (List.perm_insertionSort keyLe _)
  have hself : List.Forall₂ (fun d e => d = (e.1, e.2.sorted))
      (entries.map (fun e => (e.1, e.2.sorted))) entries := by
    rw [List.forall₂_map_left_iff]
    exact List.forall₂_same.mpr (fun e _ => rfl)
  obtain ⟨paired, hpaired, hfinal⟩ := List.perm_comp_forall₂ hperm hself
  refine ⟨paired, ?_, hfinal⟩
  rw [List.forall₂_map_left_iff] at hpaired
  exact hpaired.imp (fun d e hde => Prod.mk.inj hde)

theorem keyEq_obj_of_forall₂ {others paired entries : List (String × Json)}
    (h : List.Forall₂ EntryEq others paired) (hperm : paired.Perm entries)
    (hnodup : (entries.map Prod.fst).Nodup) : KeyEq (.obj others) (.obj entries) := by
  have hfirst : KeyEq (.obj others) (.obj paired) := keyEq_obj_of_map_eq (map_sorted_eq_iff.mpr h)
  have hsecond : KeyEq (.obj paired) (.obj entries) := by
    refine keyEq_obj_of_perm (f := Prod.snd) ?_ hnodup (fun _ _ => rfl)
    simpa using hperm
  exact hfirst.trans hsecond

theorem map_fst_of_forall₂ {others entries : List (String × Json)}
    (h : List.Forall₂ EntryEq others entries) : others.map Prod.fst = entries.map Prod.fst := by
  induction h with
  | nil => rfl
  | cons hde _ ih => rw [List.map_cons, List.map_cons, hde.1, ih]

theorem perm_map_fst_of_keyEq_obj {others entries : List (String × Json)}
    (h : KeyEq (.obj others) (.obj entries)) :
    (others.map Prod.fst).Perm (entries.map Prod.fst) := by
  obtain ⟨paired, hpaired, hperm⟩ := forall₂_of_keyEq_obj h
  rw [map_fst_of_forall₂ hpaired]
  exact hperm.map Prod.fst

theorem exists_mem_of_forall₂_right {α β : Type*} {r : α → β → Prop} {as : List α} {bs : List β}
    (h : List.Forall₂ r as bs) {b : β} (hb : b ∈ bs) : ∃ a ∈ as, r a b := by
  induction h with
  | nil => cases hb
  | @cons a c _ _ hac _ ih =>
    rcases List.mem_cons.mp hb with rfl | hb
    · exact ⟨a, List.mem_cons_self, hac⟩
    · obtain ⟨a, ha, hab⟩ := ih hb
      exact ⟨a, List.mem_cons_of_mem _ ha, hab⟩

theorem exists_mem_of_keyEq_obj {others entries : List (String × Json)}
    (h : KeyEq (.obj others) (.obj entries)) {d : String × Json} (hd : d ∈ others) :
    ∃ e ∈ entries, EntryEq d e := by
  obtain ⟨paired, hpaired, hperm⟩ := forall₂_of_keyEq_obj h
  obtain ⟨e, he, hde⟩ := exists_mem_of_forall₂_right hpaired.flip hd
  exact ⟨e, hperm.subset he, hde⟩

/-- Objects with the same names in the same order that are equal up to key order agree entry by
entry. -/
theorem forall₂_entryEq_of_names {others entries : List (String × Json)}
    (h : KeyEq (.obj others) (.obj entries))
    (hnames : others.map Prod.fst = entries.map Prod.fst) (hnodup : (entries.map Prod.fst).Nodup) :
    List.Forall₂ EntryEq others entries := by
  have hlength : others.length = entries.length := by
    simpa using congrArg List.length hnames
  refine List.forall₂_of_length_eq_of_get hlength fun i hi hi' => ?_
  have hname : (others.get ⟨i, hi⟩).1 = (entries.get ⟨i, hi'⟩).1 := by
    have hget := congrArg (fun names => names[i]?) hnames
    simpa [hi, hi'] using hget
  refine ⟨hname, keyEq_of_mem_of_keyEq_obj h hnodup (List.get_mem others ⟨i, hi⟩) ?_⟩
  rw [hname]
  exact List.get_mem entries ⟨i, hi'⟩

theorem exists_obj_of_keyEq {v : Json} {entries : List (String × Json)}
    (h : KeyEq v (.obj entries)) : ∃ others, v = .obj others := by
  cases v with
  | obj others => exact ⟨others, rfl⟩
  | arr items => rw [KeyEq, sorted_arr, sorted_obj] at h; cases h
  | _ => rw [KeyEq, sorted_obj] at h; cases h

theorem exists_arr_of_keyEq {v : Json} {items : List Json} (h : KeyEq v (.arr items)) :
    ∃ others, v = .arr others := by
  cases v with
  | arr others => exact ⟨others, rfl⟩
  | obj entries => rw [KeyEq, sorted_arr, sorted_obj] at h; cases h
  | _ => rw [KeyEq, sorted_arr] at h; cases h

theorem forall₂_filter_names {others entries : List (String × Json)}
    (h : List.Forall₂ EntryEq others entries) (p : String → Bool) :
    List.Forall₂ EntryEq (others.filter (fun e => p e.1)) (entries.filter (fun e => p e.1)) := by
  induction h with
  | nil => exact .nil
  | @cons d e _ _ hde _ ih =>
    by_cases hp : p d.1 = true
    · have hp' : p e.1 = true := hde.1 ▸ hp
      simp only [List.filter_cons, hp, hp', ↓reduceIte]
      exact .cons hde ih
    · have hp' : ¬ p e.1 = true := hde.1 ▸ hp
      simp only [List.filter_cons, hp, hp', Bool.false_eq_true, ↓reduceIte]
      exact ih

theorem keyEq_obj_filter {others entries : List (String × Json)}
    (h : KeyEq (.obj others) (.obj entries)) (hnodup : (entries.map Prod.fst).Nodup)
    (p : String → Bool) :
    KeyEq (.obj (others.filter (fun e => p e.1))) (.obj (entries.filter (fun e => p e.1))) := by
  obtain ⟨paired, hpaired, hperm⟩ := forall₂_of_keyEq_obj h
  exact keyEq_obj_of_forall₂ (forall₂_filter_names hpaired p) (hperm.filter _)
    (hnodup.sublist (List.filter_sublist.map Prod.fst))

def isContainer : Json → Bool
  | .arr _ | .obj _ => true
  | _ => false

theorem eq_of_keyEq_scalar {v w : Json} (h : KeyEq v w) (hw : w.isContainer = false) : v = w := by
  have hsorted : w.sorted = w := by cases w <;> first | rfl | cases hw
  rw [KeyEq, hsorted] at h
  cases v with
  | arr items => rw [sorted_arr] at h; rw [← h] at hw; cases hw
  | obj entries => rw [sorted_obj] at h; rw [← h] at hw; cases hw
  | _ => exact h

/-! ## Sizes -/

section Sizes

variable (floatText : ℚ → String)

theorem nodeCountEntries_eq_sum (es : List (String × Json)) :
    nodeCountEntries es = (es.map (fun e => e.2.nodeCount)).sum := by
  induction es with
  | nil => rfl
  | cons e es ih => simp only [nodeCountEntries, List.map_cons, List.sum_cons, ih]

theorem nodeCountItems_eq_sum (vs : List Json) :
    nodeCountItems vs = (vs.map nodeCount).sum := by
  induction vs with
  | nil => rfl
  | cons v vs ih => simp only [nodeCountItems, List.map_cons, List.sum_cons, ih]

theorem length_dumpsItems_eq_sum (vs : List Json) :
    (dumpsItems floatText vs).length =
      (vs.map (fun v => (v.dumps floatText).length)).sum + (vs.length - 1) := by
  induction vs with
  | nil => rfl
  | cons v vs ih =>
    rw [length_dumpsItems_cons, ih, List.map_cons, List.sum_cons, List.length_cons]
    cases vs with
    | nil => simp
    | cons w ws => simp only [comma_cons, List.length_cons]; omega

theorem length_dumpsEntries_eq_sum (es : List (String × Json)) :
    (dumpsEntries floatText es).length =
      (es.map (fun e => (encodeString e.1).length + 1 + (e.2.dumps floatText).length)).sum +
        (es.length - 1) := by
  induction es with
  | nil => rfl
  | cons e es ih =>
    rw [length_dumpsEntries_cons, ih, List.map_cons, List.sum_cons, List.length_cons]
    cases es with
    | nil => simp
    | cons d ds => simp only [comma_cons, List.length_cons]; omega

theorem nodeCountEntries_perm {others entries : List (String × Json)} (h : others.Perm entries) :
    nodeCountEntries others = nodeCountEntries entries := by
  rw [nodeCountEntries_eq_sum, nodeCountEntries_eq_sum]
  exact (h.map _).sum_eq

theorem length_dumpsEntries_perm {others entries : List (String × Json)} (h : others.Perm entries) :
    (dumpsEntries floatText others).length = (dumpsEntries floatText entries).length := by
  rw [length_dumpsEntries_eq_sum, length_dumpsEntries_eq_sum, (h.map _).sum_eq, h.length_eq]

theorem sum_map_eq_of_forall₂ {α β : Type*} {r : α → β → Prop} {f : α → ℕ} {g : β → ℕ}
    {as : List α} {bs : List β} (h : List.Forall₂ r as bs) (hr : ∀ a ∈ as, ∀ b, r a b → f a = g b) :
    (as.map f).sum = (bs.map g).sum := by
  induction h with
  | nil => rfl
  | cons hab _ ih =>
    rw [List.map_cons, List.map_cons, List.sum_cons, List.sum_cons,
      hr _ List.mem_cons_self _ hab, ih (fun a ha => hr a (List.mem_cons_of_mem _ ha))]

theorem nodeCount_of_keyEq {v w : Json} (h : KeyEq v w) : v.nodeCount = w.nodeCount := by
  induction v using Json.induct generalizing w with
  | null | bool b | int n | float q | str s =>
    have hw : w = _ := eq_of_keyEq_scalar h.symm rfl
    rw [hw]
  | arr items ih =>
    obtain ⟨others, rfl⟩ := exists_arr_of_keyEq h.symm
    rw [nodeCount, nodeCount, nodeCountItems_eq_sum, nodeCountItems_eq_sum,
      sum_map_eq_of_forall₂ (keyEq_arr_iff.mp h) (fun v hv w hvw => ih v hv hvw)]
  | obj entries ih =>
    obtain ⟨others, rfl⟩ := exists_obj_of_keyEq h.symm
    obtain ⟨paired, hpaired, hperm⟩ := forall₂_of_keyEq_obj h
    rw [nodeCount, nodeCount, ← nodeCountEntries_perm hperm, nodeCountEntries_eq_sum,
      nodeCountEntries_eq_sum,
      sum_map_eq_of_forall₂ hpaired (fun d hd e hde => ih d hd hde.2)]

theorem length_dumps_of_keyEq {v w : Json} (h : KeyEq v w) :
    (v.dumps floatText).length = (w.dumps floatText).length := by
  induction v using Json.induct generalizing w with
  | null | bool b | int n | float q | str s =>
    have hw : w = _ := eq_of_keyEq_scalar h.symm rfl
    rw [hw]
  | arr items ih =>
    obtain ⟨others, rfl⟩ := exists_arr_of_keyEq h.symm
    have hforall := keyEq_arr_iff.mp h
    rw [length_dumps_arr, length_dumps_arr, length_dumpsItems_eq_sum, length_dumpsItems_eq_sum,
      sum_map_eq_of_forall₂ hforall (fun v hv w hvw => ih v hv hvw), hforall.length_eq]
  | obj entries ih =>
    obtain ⟨others, rfl⟩ := exists_obj_of_keyEq h.symm
    obtain ⟨paired, hpaired, hperm⟩ := forall₂_of_keyEq_obj h
    rw [length_dumps_obj, length_dumps_obj, ← length_dumpsEntries_perm floatText hperm,
      length_dumpsEntries_eq_sum, length_dumpsEntries_eq_sum,
      sum_map_eq_of_forall₂ hpaired (fun d hd e hde => by rw [hde.1, ih d hd hde.2]),
      hpaired.length_eq]

end Sizes

end Json
