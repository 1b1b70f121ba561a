import Mathlib.Data.List.Forall2
import NetboxRpc.Regex

/-!
# The first match

How literals, classes and repetitions of classes read a text, and which match of a sequence, a
choice or a repetition comes first.
-/

namespace Regex

/-! ## Moving along a text -/

theorem State.advance_of_nil {s : State} (h : s.rest = []) (n : ℕ) : s.advance n = s := by
  cases n with
  | zero => rfl
  | succ n => rw [State.advance, h]

theorem State.advance_succ {s : State} {c : Char} {cs : List Char} (h : s.rest = c :: cs) (n : ℕ) :
    s.advance (n + 1) = (s.step c cs).advance n := by
  rw [State.advance, h]

theorem State.step_eq_advance {s : State} {c : Char} {cs : List Char} (h : s.rest = c :: cs) :
    s.step c cs = s.advance 1 := (State.advance_succ h 0).symm

theorem State.advance_advance (s : State) (m n : ℕ) : (s.advance m).advance n = s.advance (m + n) := by
  induction m generalizing s with
  | zero => rw [State.advance, Nat.zero_add]
  | succ m ih =>
    cases h : s.rest with
    | nil => rw [State.advance_of_nil h, State.advance_of_nil h, State.advance_of_nil h]
    | cons c cs => rw [State.advance_succ h, ih, Nat.succ_add, State.advance_succ h]

@[simp] theorem State.rest_advance (s : State) (n : ℕ) : (s.advance n).rest = s.rest.drop n := by
  induction n generalizing s with
  | zero => rfl
  | succ n ih =>
    cases h : s.rest with
    | nil => rw [State.advance_of_nil h, h, List.drop_nil]
    | cons c cs => rw [State.advance_succ h, ih, List.drop_succ_cons, State.step]

@[simp] theorem State.groups_advance (s : State) (n : ℕ) : (s.advance n).groups = s.groups := by
  induction n generalizing s with
  | zero => rfl
  | succ n ih =>
    cases h : s.rest with
    | nil => rw [State.advance_of_nil h]
    | cons c cs =>
      rw [State.advance_succ h, ih]
      rfl

theorem State.pos_advance {s : State} {n : ℕ} (h : n ≤ s.rest.length) :
    (s.advance n).pos = s.pos + n := by
  have htotal := (s.reads_advance n).pos_add_length
  rw [State.rest_advance, List.length_drop] at htotal
  omega

theorem State.rest_advance_append {s : State} {xs after : List Char} (h : s.rest = xs ++ after) :
    (s.advance xs.length).rest = after := by
  rw [State.rest_advance, h, List.drop_left]

theorem State.pos_advance_append {s : State} {xs after : List Char} (h : s.rest = xs ++ after) :
    (s.advance xs.length).pos = s.pos + xs.length :=
  State.pos_advance (by rw [h, List.length_append]; exact Nat.le_add_right _ _)

theorem State.lookup_advance (s : State) (n : ℕ) (name : String) :
    (s.advance n).lookup name = s.lookup name := by
  rw [State.lookup, State.lookup, State.groups_advance]

/-! ## Classes -/

theorem Rx.run_set_cons_eq (c : CharSet) {s : State} {x : Char} {xs : List Char}
    (h : s.rest = x :: xs) : (Rx.set c).run s = if c.mem x then [s.advance 1] else [] := by
  simp only [Rx.run, h, State.step_eq_advance h]

theorem Rx.run_set_nil (c : CharSet) {s : State} (h : s.rest = []) : (Rx.set c).run s = [] := by
  simp only [Rx.run, h]

theorem Rx.of_mem_run_set {c : CharSet} {s t : State} (h : t ∈ (Rx.set c).run s) :
    ∃ x xs, s.rest = x :: xs ∧ c.mem x = true ∧ t = s.step x xs := by
  cases hrest : s.rest with
  | nil =>
    rw [Rx.run_set_nil c hrest] at h
    cases h
  | cons x xs =>
    obtain ⟨hx, hrun⟩ := run_set_cons hrest (List.ne_nil_of_mem h)
    rw [hrun] at h
    exact ⟨x, xs, rfl, hx, List.mem_singleton.mp h⟩

theorem CharSet.mem_of_subset {a b : CharSet} (ha : a.neg = false) (hb : b.neg = false)
    (h : a.ranges ⊆ b.ranges) {x : Char} (hx : a.mem x = true) : b.mem x = true := by
  simp only [CharSet.mem, ha, hb, Bool.false_bne, List.any_eq_true] at hx ⊢
  obtain ⟨r, hr, hrx⟩ := hx
  exact ⟨r, h hr, hrx⟩

theorem CharSet.not_mem_of_all {c : CharSet} {bad : List Char}
    (hbad : bad.all (fun b => !c.mem b) = true) {x : Char} (hx : c.mem x = true) : x ∉ bad := by
  intro hmem
  have hnot := List.all_eq_true.mp hbad x hmem
  rw [hx] at hnot
  cases hnot

def CharSet.disjoint (a b : CharSet) : Bool :=
  !a.neg && !b.neg &&
    a.ranges.all (fun r => b.ranges.all (fun q => decide (r.2 < q.1) || decide (q.2 < r.1)))

theorem CharSet.mem_eq_false_of_disjoint {a b : CharSet} (h : a.disjoint b = true) {x : Char}
    (hx : a.mem x = true) : b.mem x = false := by
  simp only [CharSet.disjoint, Bool.and_eq_true, Bool.not_eq_true', List.all_eq_true,
    Bool.or_eq_true, decide_eq_true_eq] at h
  obtain ⟨⟨ha, hb⟩, hall⟩ := h
  rw [← Bool.not_eq_true]
  intro hxb
  simp only [CharSet.mem, ha, hb, Bool.false_bne, List.any_eq_true, Bool.and_eq_true,
    decide_eq_true_eq] at hx hxb
  obtain ⟨r, hr, hrlo, hrhi⟩ := hx
  obtain ⟨q, hq, hqlo, hqhi⟩ := hxb
  rcases hall r hr q hq with hlt | hlt
  · exact absurd (Char.le_trans hqlo hrhi) (Char.not_le.mpr hlt)
  · exact absurd (Char.le_trans hrlo hqhi) (Char.not_le.mpr hlt)

def CharSet.reach (c : CharSet) (s : State) : ℕ := (s.rest.takeWhile c.mem).length

theorem CharSet.reach_le (c : CharSet) (s : State) : c.reach s ≤ s.rest.length :=
  (List.takeWhile_prefix c.mem).length_le

theorem CharSet.reach_of_pos {c : CharSet} {s : State} {x : Char} {xs : List Char}
    (h : s.rest = x :: xs) (hx : c.mem x = true) : c.reach s = c.reach (s.advance 1) + 1 := by
  rw [CharSet.reach, CharSet.reach, State.rest_advance, h, List.takeWhile_cons_of_pos hx]
  rfl

theorem CharSet.reach_append {c : CharSet} {s : State} {xs after : List Char}
    (h : s.rest = xs ++ after) (hxs : ∀ x ∈ xs, c.mem x = true) :
    c.reach s = xs.length + (after.takeWhile c.mem).length := by
  rw [CharSet.reach, h, List.takeWhile_append_of_pos hxs, List.length_append]

theorem CharSet.reach_eq {c : CharSet} {s : State} {xs after : List Char} {y : Char}
    (h : s.rest = xs ++ y :: after) (hxs : ∀ x ∈ xs, c.mem x = true) (hy : c.mem y = false) :
    c.reach s = xs.length := by
  rw [CharSet.reach_append h hxs, List.takeWhile_cons_of_neg (by rw [hy]; exact Bool.false_ne_true)]
  rfl

theorem CharSet.run_eq_nil_of_reach {c : CharSet} {s : State} (h : c.reach s = 0) :
    (Rx.set c).run s = [] := by
  cases hr : s.rest with
  | nil => exact Rx.run_set_nil c hr
  | cons x xs =>
    rw [Rx.run_set_cons_eq c hr, if_neg]
    intro hx
    rw [CharSet.reach_of_pos hr hx] at h
    cases h

/-- A class that reads at all reads one character, and goes on from there. -/
theorem CharSet.run_of_reach {c : CharSet} {s : State} (h : 0 < c.reach s) :
    (Rx.set c).run s = [s.advance 1] ∧ s.pos < (s.advance 1).pos ∧
      c.reach s = c.reach (s.advance 1) + 1 := by
  have hlength := c.reach_le s
  cases hr : s.rest with
  | nil =>
    rw [CharSet.reach, hr] at h
    cases h
  | cons x xs =>
    have hx : c.mem x = true := by
      by_contra hx
      rw [CharSet.reach, hr, List.takeWhile_cons_of_neg hx] at h
      cases h
    refine ⟨by rw [Rx.run_set_cons_eq c hr, if_pos hx], ?_, CharSet.reach_of_pos hr hx⟩
    rw [State.pos_advance (by rw [hr]; exact Nat.succ_le_succ (Nat.zero_le _))]
    exact Nat.lt_succ_self _

theorem more_of_singleton {m : Mode} {step : State → List State} {fuel lo : ℕ} {hi : Option ℕ}
    {s u : State} (hrun : step s = [u]) (hpos : s.pos < u.pos) :
    ((step s).filter (fun t => s.pos < t.pos)).flatMap
      (iterate m step fuel (lo - 1) (hi.map (· - 1))) =
        iterate m step fuel (lo - 1) (hi.map (· - 1)) u := by
  rw [hrun, List.filter_cons_of_pos (by simpa using hpos), List.filter_nil, List.flatMap_cons,
    List.flatMap_nil, List.append_nil]

/-- A repeated class stops after any number of characters within its bounds and its reach. -/
theorem mem_iterate_set {m : Mode} {c : CharSet} {fuel lo : ℕ} {hi : Option ℕ} {s t : State}
    (hfuel : c.reach s ≤ fuel) : t ∈ iterate m (Rx.set c).run fuel lo hi s ↔
      ∃ k, lo ≤ k ∧ (∀ h ∈ hi, k ≤ h) ∧ k ≤ c.reach s ∧ t = s.advance k := by
  induction fuel generalizing lo hi s with
  | zero =>
    rw [Nat.le_zero] at hfuel
    simp only [iterate, hfuel, Nat.le_zero]
    constructor
    · intro ht
      split_ifs at ht with hlo
      · exact ⟨0, hlo.le, by simp, rfl, List.mem_singleton.mp ht⟩
      · cases ht
    · rintro ⟨k, hlo, _, rfl, rfl⟩
      rw [if_pos (Nat.le_zero.mp hlo)]
      exact List.mem_singleton_self _
  | succ fuel ih =>
    have hmem : ∀ more : List State, t ∈ (if lo ≠ 0 then more else if m = .lazy then s :: more
        else more ++ [s]) ↔ t ∈ more ∨ lo = 0 ∧ t = s := by
      intro more
      split_ifs with hlo hlazy
      · exact (or_iff_left (fun h => hlo h.1)).symm
      · rw [List.mem_cons, or_comm]
        simp [not_not.mp hlo]
      · rw [List.mem_append, List.mem_singleton]
        simp [not_not.mp hlo]
    rw [iterate, hmem]
    by_cases hreach : 0 < c.reach s
    · obtain ⟨hrun, hpos, hnext⟩ := CharSet.run_of_reach hreach
      rw [more_of_singleton hrun hpos]
      constructor
      · rintro (ht | ⟨rfl, rfl⟩)
        · split_ifs at ht with hzero
          · cases ht
          · obtain ⟨k, hlo, hhi, hk, rfl⟩ := (ih (by omega)).mp ht
            refine ⟨k + 1, by omega, fun h hh => ?_, by omega, ?_⟩
            · have hle := hhi (h - 1) (by rw [Option.mem_def] at hh ⊢; rw [hh]; rfl)
              have hne : h ≠ 0 := fun h0 => hzero (by rw [Option.mem_def] at hh; rw [hh, h0])
              omega
            · rw [State.advance_advance, Nat.add_comm 1 k]
        · exact ⟨0, le_rfl, by simp, Nat.zero_le _, rfl⟩
      · rintro ⟨k, hlo, hhi, hk, rfl⟩
        cases k with
        | zero => exact .inr ⟨Nat.le_zero.mp hlo, rfl⟩
        | succ k =>
          left
          rw [if_neg (fun h0 => absurd (hhi 0 (by rw [h0]; rfl)) (Nat.not_succ_le_zero k))]
          refine (ih (by omega)).mpr ⟨k, by omega, fun h hh => ?_, by omega, ?_⟩
          · obtain ⟨h', hh', rfl⟩ := Option.map_eq_some_iff.mp hh
            have := hhi h' hh'
            omega
          · rw [State.advance_advance, Nat.add_comm 1 k]
    · have hzero : c.reach s = 0 := Nat.eq_zero_of_not_pos hreach
      rw [CharSet.run_eq_nil_of_reach hzero, hzero]
      simp only [List.filter_nil, List.flatMap_nil, ite_self, List.not_mem_nil, false_or,
        Nat.le_zero]
      constructor
      · rintro ⟨rfl, rfl⟩
        exact ⟨0, le_rfl, by simp, rfl, rfl⟩
      · rintro ⟨k, hlo, _, rfl, rfl⟩
        exact ⟨Nat.le_zero.mp hlo, rfl⟩

def CharSet.upTo (c : CharSet) (hi : Option ℕ) (s : State) : ℕ :=
  match hi with
  | none => c.reach s
  | some h => min h (c.reach s)

theorem head?_iterate_set {m : Mode} (hm : m ≠ .lazy) {c : CharSet} {fuel lo : ℕ} {hi : Option ℕ}
    {s : State} (hfuel : c.reach s ≤ fuel) (hlo : lo ≤ c.upTo hi s) :
    (iterate m (Rx.set c).run fuel lo hi s).head? = some (s.advance (c.upTo hi s)) := by
  induction fuel generalizing lo hi s with
  | zero =>
    have hzero : c.upTo hi s = 0 := by
      rw [Nat.le_zero] at hfuel
      unfold CharSet.upTo
      split <;> omega
    rw [hzero, Nat.le_zero] at hlo
    rw [iterate, if_pos hlo, hzero]
    rfl
  | succ fuel ih =>
    rw [iterate]
    by_cases hstop : c.upTo hi s = 0
    · have hmore : (if hi = some 0 then [] else
          (((Rx.set c).run s).filter (fun t => s.pos < t.pos)).flatMap
            (iterate m (Rx.set c).run fuel (lo - 1) (hi.map (· - 1)))) = [] := by
        by_cases hreach : c.reach s = 0
        · rw [CharSet.run_eq_nil_of_reach hreach]
          simp
        · have hhi : hi = some 0 := by
            unfold CharSet.upTo at hstop
            split at hstop
            · exact absurd hstop hreach
            · next h =>
              have : h = 0 := by omega
              rw [this]
          rw [if_pos hhi]
      rw [hstop, Nat.le_zero] at hlo
      rw [hmore, if_neg (not_not.mpr hlo), if_neg hm, hstop]
      rfl
    · have hreach : 0 < c.reach s := by
        unfold CharSet.upTo at hstop
        split at hstop <;> omega
      have hhi : hi ≠ some 0 := by
        rintro rfl
        exact hstop (Nat.zero_min _)
      obtain ⟨hrun, hpos, hnext⟩ := CharSet.run_of_reach hreach
      have hupTo : c.upTo hi s = c.upTo (hi.map (· - 1)) (s.advance 1) + 1 := by
        cases hi with
        | none => exact hnext
        | some h =>
          have hne : h ≠ 0 := fun h0 => hhi (by rw [h0])
          simp only [CharSet.upTo, Option.map_some]
          omega
      have hrest := @ih (lo - 1) (hi.map (· - 1)) (s.advance 1) (by omega) (by omega)
      rw [if_neg hhi, more_of_singleton hrun hpos]
      have hfirst : some (s.advance (c.upTo hi s)) = (iterate m (Rx.set c).run fuel (lo - 1)
          (hi.map (· - 1)) (s.advance 1)).head? := by
        rw [hrest, State.advance_advance, hupTo, Nat.add_comm 1]
      split_ifs
      · exact hfirst.symm
      · rw [List.head?_append, ← hfirst]
        rfl

/-! ## Repeated classes -/

theorem Rx.run_rep (m : Mode) (lo : ℕ) (hi : Option ℕ) (r : Rx) (s : State) :
    (Rx.rep m lo hi r).run s =
      if m = .possessive then (iterate m r.run s.rest.length lo hi s).take 1
      else iterate m r.run s.rest.length lo hi s := rfl

section

variable {c : CharSet} {s t : State} {lo : ℕ} {hi : Option ℕ}

theorem mem_run_rep_set {m : Mode} (h : t ∈ (Rx.rep m lo hi (.set c)).run s) :
    ∃ k, lo ≤ k ∧ k ≤ c.reach s ∧ t = s.advance k := by
  have hmem : t ∈ iterate m (Rx.set c).run s.rest.length lo hi s := by
    rw [Rx.run_rep] at h
    split_ifs at h
    · exact List.mem_of_mem_take h
    · exact h
  obtain ⟨k, hlo, _, hk, rfl⟩ := (mem_iterate_set (c.reach_le s)).mp hmem
  exact ⟨k, hlo, hk, rfl⟩

theorem advance_mem_run_rep_set {m : Mode} (hm : m ≠ .possessive) {k : ℕ} (hlo : lo ≤ k)
    (hk : k ≤ c.reach s) : s.advance k ∈ (Rx.rep m lo none (.set c)).run s := by
  rw [Rx.run_rep, if_neg hm]
  exact (mem_iterate_set (c.reach_le s)).mpr ⟨k, hlo, by simp, hk, rfl⟩

theorem head?_run_rep_set {m : Mode} (hm : m ≠ .lazy) (hlo : lo ≤ c.upTo hi s) :
    ((Rx.rep m lo hi (.set c)).run s).head? = some (s.advance (c.upTo hi s)) := by
  have hhead := head?_iterate_set hm (c.reach_le s) hlo
  rw [Rx.run_rep]
  split_ifs
  · rw [List.head?_take, if_neg Nat.one_ne_zero, hhead]
  · exact hhead

theorem run_rep_possessive_set (hlo : lo ≤ c.upTo hi s) :
    (Rx.rep .possessive lo hi (.set c)).run s = [s.advance (c.upTo hi s)] := by
  have hhead := head?_iterate_set (m := .possessive) (by decide) (c.reach_le s) hlo
  rw [Rx.run_rep, if_pos rfl]
  cases hall : iterate .possessive (Rx.set c).run s.rest.length lo hi s with
  | nil =>
    rw [hall] at hhead
    cases hhead
  | cons u us =>
    rw [hall] at hhead
    rw [← Option.some.inj hhead]
    rfl

end

/-! ## Words -/

def word (cs : List CharSet) : Rx := seqs (cs.map .set)

def Spells (cs : List CharSet) (xs : List Char) : Prop :=
  List.Forall₂ (fun c x => c.mem x = true) cs xs

theorem lit_eq_word (w : String) : lit w = word (w.toList.map .one) := by
  rw [lit, word, List.map_map]
  rfl

theorem ignoreCase_seqs (rs : List Rx) : (seqs rs).ignoreCase = seqs (rs.map Rx.ignoreCase) := by
  induction rs with
  | nil => rfl
  | cons r rs ih =>
    cases rs with
    | nil => rfl
    | cons q rs =>
      exact congrArg (Rx.seq r.ignoreCase) ih

theorem ignoreCase_lit (w : String) :
    (lit w).ignoreCase = word (w.toList.map (fun c => (CharSet.one c).ignoreCase)) := by
  rw [lit, ignoreCase_seqs, word, List.map_map, List.map_map]
  rfl

theorem mem_one {c x : Char} : (CharSet.one c).mem x = true ↔ x = c := by
  simp only [CharSet.one, CharSet.mem, List.any_cons, List.any_nil, Bool.or_false, Bool.false_bne,
    Bool.and_eq_true, decide_eq_true_eq]
  exact ⟨fun h => Char.le_antisymm h.2 h.1, fun h => h ▸ ⟨Char.le_refl _, Char.le_refl _⟩⟩

theorem mem_oneOf {cs : List Char} {x : Char} : (CharSet.oneOf cs).mem x = true ↔ x ∈ cs := by
  simp only [CharSet.oneOf, CharSet.mem, Bool.false_bne, List.any_map, List.any_eq_true,
    Function.comp_apply, Bool.and_eq_true, decide_eq_true_eq]
  constructor
  · rintro ⟨c, hc, hle, hge⟩
    exact Char.le_antisymm hge hle ▸ hc
  · exact fun hx => ⟨x, hx, Char.le_refl x, Char.le_refl x⟩

theorem mem_noneOf {cs : List Char} {x : Char} : (CharSet.noneOf cs).mem x = true ↔ x ∉ cs := by
  have hneg : (CharSet.noneOf cs).mem x = !(CharSet.oneOf cs).mem x := by
    simp [CharSet.noneOf, CharSet.oneOf, CharSet.mem]
  rw [hneg, Bool.not_eq_true', ← Bool.not_eq_true, mem_oneOf]

theorem spells_map_one (xs : List Char) : Spells (xs.map .one) xs := by
  induction xs with
  | nil => exact .nil
  | cons x xs ih => exact .cons (mem_one.mpr rfl) ih

theorem eq_of_spells_map_one {ws xs : List Char} (h : Spells (ws.map .one) xs) : xs = ws := by
  induction ws generalizing xs with
  | nil =>
    cases h
    rfl
  | cons w ws ih =>
    cases h with
    | cons hx hxs => rw [mem_one.mp hx, ih hxs]

theorem Rx.run_seq_of_singleton {a b : Rx} {s u : State} (h : a.run s = [u]) :
    (Rx.seq a b).run s = b.run u := by
  rw [Rx.run, h, List.flatMap_cons, List.flatMap_nil, List.append_nil]

theorem Rx.run_seq_ne_nil {a b : Rx} {s u : State} (hu : u ∈ a.run s) (h : b.run u ≠ []) :
    (Rx.seq a b).run s ≠ [] :=
  fun hnil => h (List.flatMap_eq_nil_iff.mp hnil u hu)

theorem Rx.run_seqs_cons (r : Rx) {rs : List Rx} (hne : rs ≠ []) (s : State) :
    (seqs (r :: rs)).run s = (r.run s).flatMap (seqs rs).run := by
  cases rs with
  | nil => exact absurd rfl hne
  | cons q rs => rfl

theorem Rx.run_seqs_append {as : List Rx} (has : as ≠ []) {bs : List Rx} (hbs : bs ≠ []) (s : State) :
    (seqs (as ++ bs)).run s = ((seqs as).run s).flatMap (seqs bs).run := by
  induction as generalizing s with
  | nil => exact absurd rfl has
  | cons a as ih =>
    cases as with
    | nil => exact Rx.run_seqs_cons a hbs s
    | cons a' as =>
      have hstep : (seqs (a' :: as ++ bs)).run =
          fun u => ((seqs (a' :: as)).run u).flatMap (seqs bs).run :=
        funext (fun u => ih (List.cons_ne_nil _ _) u)
      rw [List.cons_append, Rx.run_seqs_cons a (List.append_ne_nil_of_right_ne_nil _ hbs), hstep,
        Rx.run_seqs_cons a (List.cons_ne_nil _ _), List.flatMap_assoc]

theorem run_word {cs : List CharSet} {xs after : List Char} (h : Spells cs xs) {s : State}
    (hrest : s.rest = xs ++ after) : (word cs).run s = [s.advance cs.length] := by
  induction h generalizing s with
  | nil => rfl
  | @cons c x cs xs hx hxs ih =>
    have hset : (Rx.set c).run s = [s.advance 1] := by
      rw [Rx.run_set_cons_eq c hrest, if_pos hx]
    cases cs with
    | nil => exact hset
    | cons d ds =>
      have hnext : (s.advance 1).rest = xs ++ after := by
        rw [State.rest_advance, hrest]
        rfl
      have hrun := ih hnext
      rw [State.advance_advance, Nat.add_comm] at hrun
      exact (Rx.run_seq_of_singleton hset).trans hrun

theorem of_mem_run_word {cs : List CharSet} {s t : State} (h : t ∈ (word cs).run s) :
    ∃ xs after, Spells cs xs ∧ s.rest = xs ++ after ∧ t = s.advance cs.length := by
  induction cs generalizing s with
  | nil => exact ⟨[], s.rest, .nil, rfl, List.mem_singleton.mp h⟩
  | cons c cs ih =>
    have hset : ∀ {u}, u ∈ (Rx.set c).run s →
        ∃ x xs, c.mem x = true ∧ s.rest = x :: xs ∧ u = s.advance 1 := by
      intro u hu
      cases hr : s.rest with
      | nil =>
        rw [Rx.run_set_nil c hr] at hu
        cases hu
      | cons x xs =>
        rw [Rx.run_set_cons_eq c hr] at hu
        split_ifs at hu with hx
        · exact ⟨x, xs, hx, rfl, List.mem_singleton.mp hu⟩
        · cases hu
    cases cs with
    | nil =>
      obtain ⟨x, xs, hx, hrest, rfl⟩ := hset h
      exact ⟨[x], xs, .cons hx .nil, hrest, rfl⟩
    | cons d ds =>
      obtain ⟨u, hu, hut⟩ := List.mem_flatMap.mp h
      obtain ⟨x, xs, hx, hrest, rfl⟩ := hset hu
      obtain ⟨ys, after, hspells, hys, rfl⟩ := ih hut
      rw [State.rest_advance, hrest, List.drop_succ_cons, List.drop_zero] at hys
      refine ⟨x :: ys, after, .cons hx hspells, by rw [hrest, hys]; rfl, ?_⟩
      rw [State.advance_advance, Nat.add_comm]
      rfl

theorem fullmatch_word {cs : List CharSet} {xs : List Char} (h : Spells cs xs) :
    (word cs).fullmatch xs = true := by
  have hrun := run_word h (s := State.init xs) (List.append_nil xs).symm
  rw [Rx.fullmatch, hrun, h.length_eq, List.any_cons, State.rest_advance]
  simp [State.init]

theorem of_mem_run_lit {w : String} {s t : State} (h : t ∈ (lit w).run s) :
    ∃ after, s.rest = w.toList ++ after ∧ t = s.advance w.toList.length := by
  rw [lit_eq_word] at h
  obtain ⟨xs, after, hspells, hrest, ht⟩ := of_mem_run_word h
  rw [eq_of_spells_map_one hspells] at hrest
  exact ⟨after, hrest, by rw [ht, List.length_map]⟩

theorem run_lit {w : String} {s : State} {after : List Char} (h : s.rest = w.toList ++ after) :
    (lit w).run s = [s.advance w.toList.length] := by
  rw [lit_eq_word, run_word (spells_map_one _) h, List.length_map]

theorem run_backref {name : String} {start : ℕ} {text after : List Char} {s : State} (hlookup : s.lookup name = some (start, text))
    (h : s.rest = text ++ after) : (Rx.backref name).run s = [s.advance text.length] := by
  simp only [Rx.run, hlookup]
  rw [if_pos (List.isPrefixOf_iff_prefix.mpr (h ▸ List.prefix_append _ _))]

theorem of_mem_run_backref {name : String} {start : ℕ} {text : List Char} {s t : State}
    (hlookup : s.lookup name = some (start, text)) (ht : t ∈ (Rx.backref name).run s) :
    ∃ more, s.rest = text ++ more ∧ t = s.advance text.length := by
  simp only [Rx.run, hlookup] at ht
  split_ifs at ht with hstart
  · obtain ⟨more, hmore⟩ := List.isPrefixOf_iff_prefix.mp hstart
    exact ⟨more, hmore.symm, List.mem_singleton.mp ht⟩
  · cases ht

theorem of_mem_run_textEnd {s t : State} (ht : t ∈ Rx.textEnd.run s) : s.rest = [] ∧ t = s := by
  rw [Rx.run] at ht
  split_ifs at ht with hend
  · exact ⟨List.isEmpty_iff.mp hend, List.mem_singleton.mp ht⟩
  · cases ht

/-! ## Choices and repetitions -/

theorem Rx.run_alts {rs : List Rx} (hne : rs ≠ []) (s : State) :
    (alts rs).run s = rs.flatMap (fun r => r.run s) := by
  induction rs with
  | nil => exact absurd rfl hne
  | cons r rs ih =>
    cases rs with
    | nil => simp [alts]
    | cons q rs =>
      rw [List.flatMap_cons, ← ih (List.cons_ne_nil q rs)]
      rfl

/-- When every choice starts with a good match, if it matches at all, so does the whole. -/
theorem Rx.head?_run_alts {rs : List Rx} {s : State} {p : State → Prop}
    (h : ∀ r ∈ rs, ∀ t, (r.run s).head? = some t → p t) {r : Rx} (hr : r ∈ rs) (hrun : r.run s ≠ []) :
    ∃ t, ((alts rs).run s).head? = some t ∧ p t := by
  rw [Rx.run_alts (List.ne_nil_of_mem hr)]
  have hsome : (rs.flatMap (fun r => r.run s)).head?.isSome = true := by
    rw [List.isSome_head?]
    exact fun hall => hrun (List.flatMap_eq_nil_iff.mp hall r hr)
  obtain ⟨t, ht⟩ := Option.isSome_iff_exists.mp hsome
  refine ⟨t, ht, ?_⟩
  rw [List.head?_flatMap] at ht
  obtain ⟨q, hq, hqt⟩ := List.exists_of_findSome?_eq_some ht
  exact h q hq t hqt

theorem Rx.head?_run_seq {a b : Rx} {s t : State} (h : ((Rx.seq a b).run s).head? = some t) :
    ∃ u ∈ a.run s, (b.run u).head? = some t := by
  rw [Rx.run, List.head?_flatMap] at h
  exact List.exists_of_findSome?_eq_some h

theorem Rx.head?_run_seq_of_head? {a b : Rx} {s u : State} (ha : (a.run s).head? = some u)
    (hb : b.run u ≠ []) : ((Rx.seq a b).run s).head? = (b.run u).head? := by
  obtain ⟨us, hus⟩ : ∃ us, a.run s = u :: us := by
    cases hrun : a.run s with
    | nil =>
      rw [hrun] at ha
      cases ha
    | cons x xs =>
      rw [hrun] at ha
      exact ⟨xs, by rw [Option.some.inj ha]⟩
  rw [Rx.run, hus, List.flatMap_cons, List.head?_append_of_ne_nil _ hb]

theorem self_mem_iterate (m : Mode) (step : State → List State) (fuel : ℕ) (hi : Option ℕ)
    (s : State) : s ∈ iterate m step fuel 0 hi s := by
  cases fuel with
  | zero => simp [iterate]
  | succ fuel =>
    rw [iterate, if_neg (not_not.mpr rfl)]
    split_ifs <;> simp

theorem Rx.self_mem_run_rep {m : Mode} (hm : m ≠ .possessive) (hi : Option ℕ) (r : Rx) (s : State) :
    s ∈ (Rx.rep m 0 hi r).run s := by
  rw [Rx.run_rep, if_neg hm]
  exact self_mem_iterate _ _ _ _ _

theorem head?_iterate_of_singleton {step : State → List State} (fuel : ℕ) {s u : State}
    (hrun : step s = [u]) (hpos : s.pos < u.pos) :
    (iterate .greedy step (fuel + 1) 0 none s).head? = (iterate .greedy step fuel 0 none u).head? := by
  have hmore := @more_of_singleton .greedy step fuel 0 none s u hrun hpos
  have hne : iterate .greedy step fuel 0 none u ≠ [] :=
    List.ne_nil_of_mem (self_mem_iterate _ _ _ _ _)
  have hall : iterate .greedy step (fuel + 1) 0 none s =
      iterate .greedy step fuel 0 none u ++ [s] := by
    rw [iterate, if_neg (not_not.mpr rfl), if_neg (by decide), if_neg (by simp), hmore]
    rfl
  rw [hall, List.head?_append_of_ne_nil _ hne]

theorem head?_iterate_advance {step : State → List State} {fuel k : ℕ} {s : State}
    (hrun : step s = [s.advance k]) (hk : 0 < k) (hlength : k ≤ s.rest.length) (hfuel : 0 < fuel) :
    (iterate .greedy step fuel 0 none s).head? =
      (iterate .greedy step (fuel - 1) 0 none (s.advance k)).head? := by
  obtain ⟨fuel, rfl⟩ : ∃ n, fuel = n + 1 := ⟨fuel - 1, by omega⟩
  exact head?_iterate_of_singleton fuel hrun (by rw [State.pos_advance hlength]; omega)

/-! ## Expressions that look at nothing but what they read -/

def Rx.plain : Rx → Bool
  | .empty | .set _ => true
  | .seq a b | .alt a b => a.plain && b.plain
  | .rep m _ _ r => decide (m ≠ .possessive) && r.plain
  | _ => false

theorem State.Reads.split {s t u : State} {w : List Char} (hs : s.Reads t) (ht : t.Reads u)
    (h : s.rest = w ++ u.rest) : ∃ a b, w = a ++ b ∧ s.rest = a ++ t.rest ∧ t.rest = b ++ u.rest := by
  obtain ⟨a, ha, _⟩ := hs
  obtain ⟨b, hb, _⟩ := ht
  refine ⟨a, b, ?_, ha, hb⟩
  rw [ha, hb, ← List.append_assoc] at h
  exact (List.append_cancel_right h).symm

theorem exists_iterate_of_read {m : Mode} {r : Rx} {more : List Char}
    (hr : ∀ s t s' : State, ∀ w after, t ∈ r.run s → s.rest = w ++ t.rest → s'.rest = w ++ after →
      ∃ t' ∈ r.run s', t'.rest = after) {fuel fuel' lo : ℕ} {hi : Option ℕ}
    {s t s' : State} {w : List Char} (hfuel : w.length ≤ fuel') (hs : s.rest = w ++ t.rest)
    (hs' : s'.rest = w ++ more) (ht : t ∈ iterate m r.run fuel lo hi s) :
    ∃ t' ∈ iterate m r.run fuel' lo hi s', t'.rest = more := by
  have hself : ∀ {s s' : State} {w : List Char} {fuel' : ℕ} {hi : Option ℕ}, s.rest = w ++ s.rest →
      s'.rest = w ++ more → ∃ t' ∈ iterate m r.run fuel' 0 hi s', t'.rest = more := by
    intro s s' w fuel' hi hs hs'
    rw [List.self_eq_append_left.mp hs, List.nil_append] at hs'
    exact ⟨s', self_mem_iterate _ _ _ _ _, hs'⟩
  induction fuel generalizing fuel' lo hi s s' w with
  | zero =>
    rw [iterate] at ht
    split_ifs at ht with hlo
    · rw [List.mem_singleton.mp ht] at hs
      exact hlo ▸ hself hs hs'
    · cases ht
  | succ fuel ih =>
    have hfirst : hi ≠ some 0 → t ∈ ((r.run s).filter (fun t => s.pos < t.pos)).flatMap
        (iterate m r.run fuel (lo - 1) (hi.map (· - 1))) →
        ∃ t' ∈ iterate m r.run fuel' lo hi s', t'.rest = more := by
      intro hhi hmem
      obtain ⟨u, hu, hut⟩ := List.mem_flatMap.mp hmem
      obtain ⟨hrun, hpos⟩ := List.mem_filter.mp hu
      have hreads := r.reads_run s u hrun
      obtain ⟨a, b, rfl, ha, hb⟩ :=
        hreads.split (reads_iterate (fun s t => r.reads_run s t) _ _ _ _ _ hut) hs
      rw [List.append_assoc] at hs'
      obtain ⟨u', hrun', hu'⟩ := hr s u s' a (b ++ more) hrun ha hs'
      have htotal := hreads.pos_add_length
      have htotal' := (r.reads_run s' u' hrun').pos_add_length
      have hpos : s.pos < u.pos := by simpa using hpos
      simp only [ha, hs', hu', List.length_append] at htotal htotal' hfuel
      obtain ⟨fuel', rfl⟩ : ∃ n, fuel' = n + 1 := ⟨fuel' - 1, by omega⟩
      obtain ⟨t', ht', hrest⟩ := ih (show b.length ≤ fuel' by omega) hb hu' hut
      refine ⟨t', ?_, hrest⟩
      have hmore : t' ∈ ((r.run s').filter (fun t => s'.pos < t.pos)).flatMap
          (iterate m r.run fuel' (lo - 1) (hi.map (· - 1))) :=
        List.mem_flatMap.mpr ⟨u', List.mem_filter.mpr ⟨hrun', by simpa using (by omega)⟩, ht'⟩
      rw [iterate, if_neg hhi]
      split_ifs
      · exact hmore
      · exact List.mem_cons_of_mem _ hmore
      · exact List.mem_append_left _ hmore
    rw [iterate] at ht
    by_cases hhi : hi = some 0
    · simp only [if_pos hhi] at ht
      split_ifs at ht with hlo
      · cases ht
      all_goals
        rw [not_not.mp hlo] at *
        rw [show t = s by simpa using ht] at hs
        exact hself hs hs'
    · simp only [if_neg hhi] at ht
      split_ifs at ht with hlo hlazy
      · exact hfirst hhi ht
      · rcases List.mem_cons.mp ht with rfl | ht
        · exact not_not.mp hlo ▸ hself hs hs'
        · exact hfirst hhi ht
      · rcases List.mem_append.mp ht with ht | ht
        · exact hfirst hhi ht
        · rw [List.mem_singleton.mp ht] at hs
          exact not_not.mp hlo ▸ hself hs hs'

/-- What a plain expression reads it reads whatever follows. -/
theorem Rx.exists_run_of_read {r : Rx} (hr : r.plain = true) {s t s' : State} {w more : List Char}
    (ht : t ∈ r.run s) (hs : s.rest = w ++ t.rest) (hs' : s'.rest = w ++ more) :
    ∃ t' ∈ r.run s', t'.rest = more := by
  induction r generalizing s t s' w more with
  | empty =>
    rw [List.mem_singleton.mp ht] at hs
    rw [List.self_eq_append_left.mp hs, List.nil_append] at hs'
    exact ⟨s', List.mem_singleton_self s', hs'⟩
  | set c =>
    cases hrest : s.rest with
    | nil =>
      rw [Rx.run_set_nil c hrest] at ht
      cases ht
    | cons x xs =>
      rw [Rx.run_set_cons_eq c hrest] at ht
      split_ifs at ht with hx
      · rw [List.mem_singleton.mp ht, State.rest_advance, hrest, List.drop_one, List.tail_cons,
          ← List.singleton_append] at hs
        rw [← List.append_cancel_right hs, List.singleton_append] at hs'
        refine ⟨s'.advance 1, ?_, by rw [State.rest_advance, hs']; rfl⟩
        rw [Rx.run_set_cons_eq c hs', if_pos hx]
        exact List.mem_singleton_self _
      · cases ht
  | seq a b iha ihb =>
    rw [Rx.plain, Bool.and_eq_true] at hr
    obtain ⟨u, hu, hut⟩ := List.mem_flatMap.mp ht
    obtain ⟨w₁, w₂, rfl, hw₁, hw₂⟩ := (a.reads_run s u hu).split (b.reads_run u t hut) hs
    rw [List.append_assoc] at hs'
    obtain ⟨u', hu', hurest⟩ := iha hr.1 hu hw₁ hs'
    obtain ⟨t', ht', htrest⟩ := ihb hr.2 hut hw₂ hurest
    exact ⟨t', List.mem_flatMap.mpr ⟨u', hu', ht'⟩, htrest⟩
  | alt a b iha ihb =>
    rw [Rx.plain, Bool.and_eq_true] at hr
    rcases List.mem_append.mp ht with ht | ht
    · obtain ⟨t', ht', htrest⟩ := iha hr.1 ht hs hs'
      exact ⟨t', List.mem_append_left _ ht', htrest⟩
    · obtain ⟨t', ht', htrest⟩ := ihb hr.2 ht hs hs'
      exact ⟨t', List.mem_append_right _ ht', htrest⟩
  | rep m lo hi r ih =>
    rw [Rx.plain, Bool.and_eq_true, decide_eq_true_eq] at hr
    rw [Rx.run_rep, if_neg hr.1] at ht ⊢
    refine exists_iterate_of_read (fun s t s' w after => ih hr.2) ?_ hs hs' ht
    rw [hs', List.length_append]
    exact Nat.le_add_right _ _
  | group | backref | ahead | notAhead | notBehind | textEnd | lineStart | lineEnd
  | wordBoundary => cases hr

theorem Rx.run_ne_nil_of_fullmatch {r : Rx} (hr : r.plain = true) {xs after : List Char}
    (h : r.fullmatch xs = true) {s : State} (hs : s.rest = xs ++ after) : r.run s ≠ [] := by
  obtain ⟨t, ht, hend⟩ := List.any_eq_true.mp h
  obtain ⟨t', ht', _⟩ := Rx.exists_run_of_read hr ht
    (show xs = xs ++ t.rest by rw [List.isEmpty_iff.mp hend, List.append_nil]) hs
  exact List.ne_nil_of_mem ht'

end Regex
