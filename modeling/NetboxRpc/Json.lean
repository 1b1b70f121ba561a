import Mathlib.Data.List.Induction
import Mathlib.Data.List.Sort
import Mathlib.Data.Rat.Defs
import Mathlib.Data.String.Basic

/-!
# JSON values

Objects keep their entries in insertion order. `sorted` forgets that order, as `sort_keys` does;
`canon` also forgets what Python's `==` does not distinguish between booleans, integers and
integral floats.
-/

inductive Json
  | null
  | bool (b : Bool)
  | int (n : ℤ)
  | float (q : ℚ)
  | str (s : String)
  | arr (items : List Json)
  | obj (entries : List (String × Json))

namespace Json

instance : Inhabited Json := ⟨.null⟩

/-- Induction with one hypothesis for the members of a list or an object. -/
theorem induct {motive : Json → Prop} (null : motive .null) (bool : ∀ b, motive (.bool b))
    (int : ∀ n, motive (.int n)) (float : ∀ q, motive (.float q)) (str : ∀ s, motive (.str s))
    (arr : ∀ items, (∀ v ∈ items, motive v) → motive (.arr items))
    (obj : ∀ entries, (∀ e ∈ entries, motive e.2) → motive (.obj entries)) (v : Json) :
    motive v := by
  refine @Json.rec motive (fun items => ∀ v ∈ items, motive v)
    (fun entries => ∀ e ∈ entries, motive e.2) (fun e => motive e.2)
    null bool int float str arr obj ?_ ?_ ?_ ?_ ?_ v
  · intro v hv
    cases hv
  · intro v items hhead htail w hw
    rcases List.mem_cons.mp hw with rfl | hw
    · exact hhead
    · exact htail w hw
  · intro e he
    cases he
  · intro e entries hhead htail d hd
    rcases List.mem_cons.mp hd with rfl | hd
    · exact hhead
    · exact htail d hd
  · intro key v hv
    exact hv

/-! ## Decidable equality -/

mutual

def beq : Json → Json → Bool
  | .null, .null => true
  | .bool a, .bool b => a == b
  | .int a, .int b => decide (a = b)
  | .float a, .float b => decide (a = b)
  | .str a, .str b => decide (a = b)
  | .arr a, .arr b => beqItems a b
  | .obj a, .obj b => beqEntries a b
  | _, _ => false

def beqItems : List Json → List Json → Bool
  | [], [] => true
  | v :: vs, w :: ws => v.beq w && beqItems vs ws
  | _, _ => false

def beqEntries : List (String × Json) → List (String × Json) → Bool
  | [], [] => true
  | (k, v) :: es, (l, w) :: fs => decide (k = l) && v.beq w && beqEntries es fs
  | _, _ => false

end

theorem beqItems_iff {items : List Json} (ih : ∀ v ∈ items, ∀ w, v.beq w = true ↔ v = w)
    (others : List Json) : beqItems items others = true ↔ items = others := by
  induction items generalizing others with
  | nil => cases others <;> simp [beqItems]
  | cons v vs ihvs =>
    cases others with
    | nil => simp [beqItems]
    | cons w ws =>
      simp only [beqItems, Bool.and_eq_true, List.cons.injEq]
      rw [ih v List.mem_cons_self, ihvs (fun u hu => ih u (List.mem_cons_of_mem v hu))]

theorem beqEntries_iff {entries : List (String × Json)}
    (ih : ∀ e ∈ entries, ∀ w, e.2.beq w = true ↔ e.2 = w) (others : List (String × Json)) :
    beqEntries entries others = true ↔ entries = others := by
  induction entries generalizing others with
  | nil => cases others <;> simp [beqEntries]
  | cons e es ihes =>
    cases others with
    | nil => simp [beqEntries]
    | cons f fs =>
      simp only [beqEntries, Bool.and_eq_true, decide_eq_true_eq, List.cons.injEq]
      rw [ih e List.mem_cons_self, ihes (fun d hd => ih d (List.mem_cons_of_mem e hd)),
        Prod.ext_iff]

theorem beq_iff (v w : Json) : v.beq w = true ↔ v = w := by
  induction v using Json.induct generalizing w with
  | arr items ih => cases w <;> simp [beq, beqItems_iff ih]
  | obj entries ih => cases w <;> simp [beq, beqEntries_iff ih]
  | null | bool b | int n | float q | str s => cases w <;> simp [beq]

instance : DecidableEq Json := fun v w => decidable_of_iff _ (beq_iff v w)

/-! ## Mappings -/

def find (entries : List (String × Json)) (key : String) : Option Json :=
  (entries.find? (fun e => e.1 == key)).map Prod.snd

def get? : Json → String → Option Json
  | .obj entries, key => find entries key
  | _, _ => none

/-- `d[key] = value`: an existing key keeps its place. -/
def set (entries : List (String × Json)) (key : String) (value : Json) : List (String × Json) :=
  if entries.any (fun e => e.1 == key) then
    entries.map (fun e => if e.1 == key then (key, value) else e)
  else entries ++ [(key, value)]

def truthy : Json → Bool
  | .null => false
  | .bool b => b
  | .int n => n != 0
  | .float q => q != 0
  | .str s => s != ""
  | .arr items => !items.isEmpty
  | .obj entries => !entries.isEmpty

/-! ## Lookups -/

@[simp] theorem find_nil (key : String) : find [] key = none := rfl

theorem find_cons (e : String × Json) (es : List (String × Json)) (key : String) :
    find (e :: es) key = if e.1 = key then some e.2 else find es key := by
  by_cases h : e.1 = key
  · simp [find, h]
  · simp [find, h]

theorem find_eq_some_iff {entries : List (String × Json)} (hnodup : (entries.map Prod.fst).Nodup)
    {key : String} {v : Json} : find entries key = some v ↔ (key, v) ∈ entries := by
  induction entries with
  | nil => simp
  | cons e es ih =>
    rw [List.map_cons, List.nodup_cons] at hnodup
    rw [find_cons, List.mem_cons]
    by_cases h : e.1 = key
    · have hnot : (key, v) ∉ es := fun hmem =>
        hnodup.1 (h ▸ List.mem_map_of_mem (f := Prod.fst) hmem)
      rw [if_pos h, or_iff_left hnot, Option.some.injEq, Prod.ext_iff]
      constructor
      · rintro rfl
        exact ⟨h.symm, rfl⟩
      · rintro ⟨_, hv⟩
        exact hv.symm
    · have hne : (key, v) ≠ e := fun heq => h (congrArg Prod.fst heq).symm
      simp only [if_neg h, hne, false_or, ih hnodup.2]

theorem find_perm {entries others : List (String × Json)} (h : entries.Perm others)
    (hnodup : (entries.map Prod.fst).Nodup) (key : String) : find entries key = find others key := by
  have hnodup' : (others.map Prod.fst).Nodup := (h.map Prod.fst).nodup_iff.mp hnodup
  ext v
  rw [find_eq_some_iff hnodup, find_eq_some_iff hnodup', h.mem_iff]

theorem find_map (f : String → Json → Json) (entries : List (String × Json)) (key : String) :
    find (entries.map (fun e => (e.1, f e.1 e.2))) key = (find entries key).map (f key) := by
  induction entries with
  | nil => rfl
  | cons e es ih =>
    rw [List.map_cons, find_cons, find_cons, ih]
    split_ifs with h
    · rw [h]; rfl
    · rfl

theorem mem_of_find {entries : List (String × Json)} {key : String} {v : Json}
    (h : find entries key = some v) : (key, v) ∈ entries := by
  induction entries with
  | nil => cases h
  | cons e es ih =>
    rw [find_cons] at h
    split_ifs at h with hkey
    · cases h
      exact List.mem_cons.mpr (.inl (Prod.ext hkey.symm rfl))
    · exact List.mem_cons_of_mem e (ih h)

/-- Taking one name out of a mapping and putting its entry last. -/
theorem perm_filter_append {entries : List (String × Json)} (hnodup : (entries.map Prod.fst).Nodup)
    {key : String} {v : Json} (h : find entries key = some v) :
    entries.Perm (entries.filter (fun e => e.1 != key) ++ [(key, v)]) := by
  induction entries with
  | nil => cases h
  | cons e es ih =>
    rw [List.map_cons, List.nodup_cons] at hnodup
    rw [find_cons] at h
    split_ifs at h with hkey
    · have hrest : es.filter (fun e => e.1 != key) = es := by
        rw [List.filter_eq_self]
        intro d hd
        rw [bne_iff_ne, ← hkey]
        exact fun heq => hnodup.1 (heq ▸ List.mem_map_of_mem hd)
      have he : e = (key, v) := Prod.ext hkey (Option.some.inj h)
      rw [List.filter_cons_of_neg (by simp [hkey]), hrest, he]
      exact (List.perm_append_singleton _ _).symm
    · rw [List.filter_cons_of_pos (by simp [hkey])]
      exact (ih hnodup.2 h).cons e

theorem mem_of_mem_set {entries : List (String × Json)} {key : String} {value : Json}
    {d : String × Json} (h : d ∈ set entries key value) : d ∈ entries ∨ d = (key, value) := by
  unfold set at h
  split_ifs at h
  · obtain ⟨e, he, rfl⟩ := List.mem_map.mp h
    split_ifs
    · exact .inr rfl
    · exact .inl he
  · simpa using h

theorem map_fst_set (entries : List (String × Json)) (key : String) (value : Json) :
    (set entries key value).map Prod.fst = entries.map Prod.fst ∨
      key ∉ entries.map Prod.fst ∧
        (set entries key value).map Prod.fst = entries.map Prod.fst ++ [key] := by
  unfold set
  split_ifs with hany
  · left
    rw [List.map_map]
    refine List.map_congr_left (fun e _ => ?_)
    by_cases hkey : e.1 = key
    · simp [hkey]
    · simp [hkey]
  · right
    refine ⟨fun hmem => hany ?_, by simp⟩
    obtain ⟨e, he, rfl⟩ := List.mem_map.mp hmem
    exact List.any_eq_true.mpr ⟨e, he, beq_self_eq_true _⟩

theorem nodup_set {entries : List (String × Json)} (h : (entries.map Prod.fst).Nodup) (key : String)
    (value : Json) : ((set entries key value).map Prod.fst).Nodup := by
  rcases map_fst_set entries key value with hsame | ⟨hfresh, hadded⟩
  · rwa [hsame]
  · rw [hadded, List.nodup_append]
    refine ⟨h, List.nodup_singleton _, fun name hname other hother heq => hfresh ?_⟩
    rwa [← List.mem_singleton.mp hother, ← heq]

theorem length_set_le (entries : List (String × Json)) (key : String) (value : Json) :
    (set entries key value).length ≤ entries.length + 1 := by
  unfold set
  split_ifs <;> simp

/-- Assigning a key leaves the entries of other names alone. -/
theorem filter_set (entries : List (String × Json)) (key : String) (value : Json) :
    (set entries key value).filter (fun e => e.1 != key) =
      entries.filter (fun e => e.1 != key) := by
  have hmap : ∀ es : List (String × Json),
      (es.map (fun e => if e.1 == key then (key, value) else e)).filter (fun e => e.1 != key) =
        es.filter (fun e => e.1 != key) := by
    intro es
    induction es with
    | nil => rfl
    | cons e es ih =>
      rw [List.map_cons]
      by_cases hkey : e.1 = key
      · simpa [hkey] using ih
      · simpa [List.filter_cons, hkey] using ih
  unfold set
  split_ifs
  · exact hmap entries
  · simp [List.filter_append]

/-- The value just stored is the one read back. -/
theorem find_set (entries : List (String × Json)) (key : String) (value : Json) :
    find (set entries key value) key = some value := by
  have hmap : ∀ es : List (String × Json), es.any (fun e => e.1 == key) = true →
      find (es.map (fun e => if e.1 == key then (key, value) else e)) key = some value := by
    intro es
    induction es with
    | nil => simp
    | cons e es ih =>
      intro hany
      by_cases hkey : e.1 = key
      · simp [find, hkey]
      · have htail : es.any (fun e => e.1 == key) = true := by simpa [hkey] using hany
        simpa [find, hkey] using ih htail
  unfold set
  split_ifs with hany
  · exact hmap entries hany
  · have hfresh : entries.find? (fun e => e.1 == key) = none := by
      rw [List.find?_eq_none]
      intro e he hkey
      exact hany (List.any_eq_true.mpr ⟨e, he, hkey⟩)
    simp [find, List.find?_append, hfresh]

section

variable {entries : List (String × Json)} (h : (entries.map Prod.fst).Nodup) (key : String)
  (value : Json)

include h

theorem find_set_of_ne {other : String} (hne : other ≠ key) :
    find (set entries key value) other = find entries other := by
  ext v
  have hfilter : ∀ es : List (String × Json),
      (other, v) ∈ es ↔ (other, v) ∈ es.filter (fun e => e.1 != key) := by
    intro es
    simp [List.mem_filter, hne]
  rw [find_eq_some_iff (nodup_set h key value), find_eq_some_iff h, hfilter, filter_set, ← hfilter]

theorem length_set : (set entries key value).length =
    (entries.filter (fun e => e.1 != key)).length + 1 := by
  have hperm := perm_filter_append (nodup_set h key value) (find_set entries key value)
  rw [hperm.length_eq, List.length_append, filter_set, List.length_singleton]

end

theorem mem_of_mem_foldl_set {β : Type} (key : β → String) (value : β → Json) (l : List β)
    {d : String × Json} (h : d ∈ l.foldl (fun d e => set d (key e) (value e)) []) :
    ∃ e ∈ l, d = (key e, value e) := by
  induction l using List.reverseRecOn with
  | nil => cases h
  | append_singleton l e ih =>
    rw [List.foldl_append] at h
    rcases mem_of_mem_set h with h | rfl
    · obtain ⟨b, hb, hd⟩ := ih h
      exact ⟨b, List.mem_append_left _ hb, hd⟩
    · exact ⟨e, by simp, rfl⟩

/-- Assigning distinct keys one after another lists them in that order. -/
theorem foldl_set {β : Type} (key : β → String) (value : β → Json) (l : List β)
    (hnodup : (l.map key).Nodup) :
    l.foldl (fun d e => set d (key e) (value e)) [] = l.map (fun e => (key e, value e)) := by
  induction l using List.reverseRecOn with
  | nil => rfl
  | append_singleton l e ih =>
    rw [List.map_append, List.nodup_append] at hnodup
    have hfresh : ((l.map (fun e => (key e, value e))).any (fun d => d.1 == key e)) = false := by
      rw [List.any_eq_false]
      intro d hd
      obtain ⟨b, hb, rfl⟩ := List.mem_map.mp hd
      have := hnodup.2.2 (key b) (List.mem_map_of_mem hb) (key e) (by simp)
      simpa using this
    rw [List.foldl_append, ih hnodup.1, List.map_append]
    simp only [List.foldl_cons, List.foldl_nil, set, hfresh]
    simp

/-! ## Equality up to key order -/

def keyLe (d e : String × Json) : Prop := d.1 ≤ e.1

instance : DecidableRel keyLe := fun d e => inferInstanceAs (Decidable (d.1 ≤ e.1))

instance : Std.Total keyLe := ⟨fun d e => le_total d.1 e.1⟩

instance : IsTrans (String × Json) keyLe := ⟨fun _ _ _ h k => String.le_trans h k⟩

mutual

def normalize (leaf : Json → Json) : Json → Json
  | .arr items => .arr (normalizeItems leaf items)
  | .obj entries => .obj ((normalizeEntries leaf entries).insertionSort keyLe)
  | .null => leaf .null
  | .bool b => leaf (.bool b)
  | .int n => leaf (.int n)
  | .float q => leaf (.float q)
  | .str s => leaf (.str s)

def normalizeItems (leaf : Json → Json) : List Json → List Json
  | [] => []
  | v :: vs => v.normalize leaf :: normalizeItems leaf vs

def normalizeEntries (leaf : Json → Json) : List (String × Json) → List (String × Json)
  | [] => []
  | (k, v) :: es => (k, v.normalize leaf) :: normalizeEntries leaf es

end

def sorted (v : Json) : Json := v.normalize id

def numeric : Json → Json
  | .bool b => .int (if b then 1 else 0)
  | .float q => if q.den = 1 then .int q.num else .float q
  | v => v

def canon (v : Json) : Json := v.normalize numeric

/-- The same value with the keys of its objects in any order. -/
def KeyEq (v w : Json) : Prop := v.sorted = w.sorted

def PyEq (v w : Json) : Prop := v.canon = w.canon

instance (v w : Json) : Decidable (KeyEq v w) := inferInstanceAs (Decidable (_ = _))

instance (v w : Json) : Decidable (PyEq v w) := inferInstanceAs (Decidable (_ = _))

theorem normalizeItems_eq_map (leaf : Json → Json) (items : List Json) :
    normalizeItems leaf items = items.map (normalize leaf) := by
  induction items with
  | nil => rfl
  | cons v vs ih => simp only [normalizeItems, List.map_cons, ih]

theorem normalizeEntries_eq_map (leaf : Json → Json) (entries : List (String × Json)) :
    normalizeEntries leaf entries = entries.map (fun e => (e.1, e.2.normalize leaf)) := by
  induction entries with
  | nil => rfl
  | cons e es ih => simp only [normalizeEntries, List.map_cons, ih]

/-! ### Key order in lists and objects -/

theorem sorted_arr (items : List Json) : (arr items).sorted = .arr (items.map sorted) := by
  rw [sorted, normalize, normalizeItems_eq_map]
  rfl

theorem sorted_obj (entries : List (String × Json)) :
    (obj entries).sorted = .obj ((entries.map (fun e => (e.1, e.2.sorted))).insertionSort keyLe) := by
  rw [sorted, normalize, normalizeEntries_eq_map]
  rfl

theorem keyEq_arr_iff {items others : List Json} :
    KeyEq (.arr items) (.arr others) ↔ List.Forall₂ KeyEq items others := by
  rw [KeyEq, sorted_arr, sorted_arr, arr.injEq]
  induction items generalizing others with
  | nil => cases others <;> simp
  | cons v vs ih => cases others <;> simp [ih, KeyEq]

/-- Entries with distinct names have one order by name. -/
theorem insertionSort_keyLe_of_perm {entries others : List (String × Json)} (h : entries.Perm others)
    (hnodup : (entries.map Prod.fst).Nodup) :
    entries.insertionSort keyLe = others.insertionSort keyLe := by
  have hperm : (entries.insertionSort keyLe).Perm (others.insertionSort keyLe) :=
    ((List.perm_insertionSort keyLe entries).trans h).trans
      (List.perm_insertionSort keyLe others).symm
  refine hperm.eq_of_pairwise (fun d e hd he hle hge => ?_) (List.pairwise_insertionSort _ _)
    (List.pairwise_insertionSort _ _)
  have hd' : d ∈ entries := (List.mem_insertionSort keyLe).mp hd
  have he' : e ∈ entries := h.mem_iff.mpr ((List.mem_insertionSort keyLe).mp he)
  exact List.inj_on_of_nodup_map hnodup hd' he' (le_antisymm hle hge)

/-- Objects with the same names in any order, and the same values up to key order. -/
theorem keyEq_obj_of_perm {entries others : List (String × Json)} {f : String × Json → Json}
    (h : others.Perm (entries.map (fun e => (e.1, f e)))) (hnodup : (entries.map Prod.fst).Nodup)
    (hf : ∀ e ∈ entries, KeyEq (f e) e.2) : KeyEq (.obj others) (.obj entries) := by
  have hmap : (others.map (fun e => (e.1, e.2.sorted))).Perm
      (entries.map (fun e => (e.1, e.2.sorted))) := by
    refine (h.map _).trans (.of_eq ?_)
    rw [List.map_map]
    exact List.map_congr_left (fun e he => Prod.ext rfl (hf e he))
  have hnames : ((others.map (fun e => (e.1, e.2.sorted))).map Prod.fst).Nodup := by
    refine (hmap.map Prod.fst).nodup_iff.mpr ?_
    rwa [List.map_map]
  rw [KeyEq, sorted_obj, sorted_obj, insertionSort_keyLe_of_perm hmap hnames]

theorem keyEq_of_mem_of_keyEq_obj {entries others : List (String × Json)}
    (h : KeyEq (.obj others) (.obj entries)) (hnodup : (entries.map Prod.fst).Nodup) {key : String}
    {v w : Json} (hw : (key, w) ∈ others) (hv : (key, v) ∈ entries) : KeyEq w v := by
  rw [KeyEq, sorted_obj, sorted_obj, obj.injEq] at h
  have hmem : (key, w.sorted) ∈ others.map (fun e => (e.1, e.2.sorted)) :=
    List.mem_map_of_mem (f := fun e : String × Json => (e.1, e.2.sorted)) hw
  rw [← List.mem_insertionSort keyLe, h, List.mem_insertionSort, List.mem_map] at hmem
  obtain ⟨e, he, heq⟩ := hmem
  obtain ⟨hkey, hvalue⟩ := Prod.mk.inj heq
  have hsame : e = (key, v) := List.inj_on_of_nodup_map hnodup he hv hkey
  rw [hsame] at hvalue
  exact hvalue.symm

theorem keyEq_obj_of_map_eq {entries others : List (String × Json)}
    (h : others.map (fun e => (e.1, e.2.sorted)) = entries.map (fun e => (e.1, e.2.sorted))) :
    KeyEq (.obj others) (.obj entries) := by
  rw [KeyEq, sorted_obj, sorted_obj, h]

/-- Lookups in objects that are equal once their scalars and key order are normalized. -/
theorem find_of_normalize_eq {leaf : Json → Json} {entries others : List (String × Json)}
    (h : (obj others).normalize leaf = (obj entries).normalize leaf)
    (hnodup : (entries.map Prod.fst).Nodup) (hnodup' : (others.map Prod.fst).Nodup) (key : String) :
    (find others key).map (normalize leaf) = (find entries key).map (normalize leaf) := by
  rw [normalize, normalize, normalizeEntries_eq_map, normalizeEntries_eq_map, obj.injEq] at h
  have hsort : ∀ l : List (String × Json), (l.map Prod.fst).Nodup →
      (find l key).map (normalize leaf) =
        find ((l.map (fun e => (e.1, e.2.normalize leaf))).insertionSort keyLe) key := by
    intro l hl
    have hperm := List.perm_insertionSort keyLe (l.map (fun e => (e.1, e.2.normalize leaf)))
    have hnames : ((l.map (fun e => (e.1, e.2.normalize leaf))).map Prod.fst).Nodup := by
      rwa [List.map_map]
    rw [find_perm hperm ((hperm.map Prod.fst).nodup_iff.mpr hnames),
      find_map (fun _ v => v.normalize leaf)]
  rw [hsort others hnodup', hsort entries hnodup, h]

theorem find_of_keyEq_obj {entries others : List (String × Json)}
    (h : KeyEq (.obj others) (.obj entries)) (hnodup : (entries.map Prod.fst).Nodup)
    (hnodup' : (others.map Prod.fst).Nodup) (key : String) :
    (find others key).map sorted = (find entries key).map sorted :=
  find_of_normalize_eq h hnodup hnodup' key

theorem pyEq_obj_of_perm {entries others : List (String × Json)} (h : others.Perm entries)
    (hnodup : (entries.map Prod.fst).Nodup) : PyEq (.obj others) (.obj entries) := by
  rw [PyEq, canon, canon, normalize, normalize, normalizeEntries_eq_map, normalizeEntries_eq_map]
  refine congrArg obj (insertionSort_keyLe_of_perm (h.map _) ?_)
  rw [List.map_map]
  exact (h.map Prod.fst).nodup_iff.mpr hnodup

mutual

/-- Every object has distinct keys, as a `dict` has. -/
def wellFormed : Json → Bool
  | .arr items => wellFormedItems items
  | .obj entries => decide (entries.map Prod.fst).Nodup && wellFormedEntries entries
  | _ => true

def wellFormedItems : List Json → Bool
  | [] => true
  | v :: vs => v.wellFormed && wellFormedItems vs

def wellFormedEntries : List (String × Json) → Bool
  | [] => true
  | (_, v) :: es => v.wellFormed && wellFormedEntries es

end

theorem wellFormed_arr_iff {items : List Json} :
    (arr items).wellFormed = true ↔ ∀ v ∈ items, v.wellFormed = true := by
  rw [wellFormed]
  induction items with
  | nil => simp [wellFormedItems]
  | cons v vs ih => simp [wellFormedItems, ih]

theorem wellFormed_obj_iff {entries : List (String × Json)} :
    (obj entries).wellFormed = true ↔
      (entries.map Prod.fst).Nodup ∧ ∀ e ∈ entries, e.2.wellFormed = true := by
  have hvalues : wellFormedEntries entries = true ↔ ∀ e ∈ entries, e.2.wellFormed = true := by
    induction entries with
    | nil => simp [wellFormedEntries]
    | cons e es ih => simp [wellFormedEntries, ih]
  rw [wellFormed, Bool.and_eq_true, decide_eq_true_iff, hvalues]

end Json
