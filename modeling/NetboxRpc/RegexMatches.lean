import NetboxRpc.RegexFirst

/-!
# The matches of a text

What `finditer` returns, by positions of the text: matches in order, each the first match at its
start, and none of them missed except under an earlier match.
-/

namespace Regex

/-! ## States of a text -/

def State.ofPos (text : List Char) (n : ℕ) : State :=
  ⟨(text.take n).getLast?, text.drop n, n, []⟩

structure State.On (text : List Char) (s : State) : Prop where
  le : s.pos ≤ text.length
  prev : s.prev = (text.take s.pos).getLast?
  rest : s.rest = text.drop s.pos

theorem State.on_ofPos {text : List Char} {n : ℕ} (h : n ≤ text.length) :
    (State.ofPos text n).On text := ⟨h, rfl, rfl⟩

theorem State.On.eq_ofPos {text : List Char} {s : State} (h : s.On text) :
    { s with groups := [] } = State.ofPos text s.pos := by
  rw [State.ofPos, ← h.prev, ← h.rest]

theorem State.rest_ofPos_append (before after : List Char) :
    (State.ofPos (before ++ after) before.length).rest = after := List.drop_left

theorem State.any_prev_ofPos_append {before : List Char} {c : CharSet}
    (h : ∀ x ∈ before.getLast?, c.mem x = false) (after : List Char) :
    (State.ofPos (before ++ after) before.length).prev.any c.mem = false := by
  rw [State.ofPos, List.take_left]
  cases hlast : before.getLast? with
  | none => rfl
  | some x => exact h x hlast

theorem State.init_eq_ofPos (text : List Char) : State.init text = State.ofPos text 0 := by
  simp [State.init, State.ofPos]

theorem take_succ_of_drop_eq {α : Type} {xs ys : List α} {x : α} {n : ℕ} (h : xs.drop n = x :: ys) :
    xs.take (n + 1) = xs.take n ++ [x] := by
  have hlt : n < xs.length := by
    by_contra hle
    rw [List.drop_eq_nil_of_le (Nat.not_lt.mp hle)] at h
    cases h
  have hget : xs[n] = x := by
    have hhead := congrArg List.head? h
    rw [List.head?_drop, List.getElem?_eq_getElem hlt] at hhead
    exact Option.some.inj hhead
  rw [List.take_succ_eq_append_getElem hlt, hget]

theorem State.On.step {text : List Char} {s : State} (h : s.On text) {c : Char} {cs : List Char}
    (hrest : s.rest = c :: cs) : (s.step c cs).On text := by
  have hdrop : text.drop s.pos = c :: cs := h.rest.symm.trans hrest
  have hlt : s.pos < text.length := by
    by_contra hle
    rw [List.drop_eq_nil_of_le (Nat.not_lt.mp hle)] at hdrop
    cases hdrop
  refine ⟨hlt, ?_, ?_⟩
  · show some c = (text.take (s.pos + 1)).getLast?
    rw [take_succ_of_drop_eq hdrop, List.getLast?_concat]
  · show cs = text.drop (s.pos + 1)
    rw [← List.drop_drop, hdrop]
    rfl

theorem State.On.advance {text : List Char} {s : State} (h : s.On text) (n : ℕ) :
    (s.advance n).On text := by
  induction n generalizing s with
  | zero => exact h
  | succ n ih =>
    rw [State.advance]
    split
    · exact h
    · next c cs hrest => exact ih (h.step hrest)

/-- A property that one pass keeps is kept by a repetition. -/
theorem iterate_preserves {m : Mode} {step : State → List State} {p : State → Prop}
    (hstep : ∀ s, p s → ∀ t ∈ step s, p t) {fuel lo : ℕ} {hi : Option ℕ} {s t : State} (hs : p s)
    (ht : t ∈ iterate m step fuel lo hi s) : p t := by
  induction fuel generalizing lo hi s with
  | zero =>
    simp only [iterate] at ht
    split_ifs at ht
    · exact List.mem_singleton.mp ht ▸ hs
    · cases ht
  | succ fuel ih =>
    rw [iterate] at ht
    generalize hmore : (if hi = some 0 then [] else
      ((step s).filter (fun t => s.pos < t.pos)).flatMap
        (iterate m step fuel (lo - 1) (hi.map (· - 1)))) = more at ht
    have hkeeps : t ∈ more → p t := by
      intro hmem
      rw [← hmore] at hmem
      split_ifs at hmem
      · cases hmem
      · obtain ⟨u, hu, hut⟩ := List.mem_flatMap.mp hmem
        exact ih (hstep s hs u (List.mem_of_mem_filter hu)) hut
    split_ifs at ht
    · exact hkeeps ht
    · rcases List.mem_cons.mp ht with rfl | ht
      · exact hs
      · exact hkeeps ht
    · rcases List.mem_append.mp ht with ht | ht
      · exact hkeeps ht
      · exact List.mem_singleton.mp ht ▸ hs

/-- A match that starts in a text stays in it. -/
theorem Rx.on_run {text : List Char} (r : Rx) {s t : State} (h : s.On text) (ht : t ∈ r.run s) :
    t.On text := by
  induction r generalizing s t with
  | set c =>
    cases hr : s.rest with
    | nil => simp [Rx.run, hr] at ht
    | cons x xs =>
      obtain ⟨_, hrun⟩ := run_set_cons hr (List.ne_nil_of_mem ht)
      rw [hrun, List.mem_singleton] at ht
      exact ht ▸ h.step hr
  | seq a b iha ihb =>
    obtain ⟨u, hu, hut⟩ := List.mem_flatMap.mp ht
    exact ihb (iha h hu) hut
  | alt a b iha ihb =>
    rcases List.mem_append.mp ht with ht | ht
    · exact iha h ht
    · exact ihb h ht
  | rep m lo hi r ih =>
    simp only [Rx.run] at ht
    split_ifs at ht
    · exact iterate_preserves (fun s hs t ht => ih hs ht) h (List.mem_of_mem_take ht)
    · exact iterate_preserves (fun s hs t ht => ih hs ht) h ht
  | group name r ih =>
    obtain ⟨u, hu, rfl⟩ := List.mem_map.mp ht
    have hu' := ih h hu
    exact ⟨hu'.le, hu'.prev, hu'.rest⟩
  | backref name =>
    simp only [Rx.run] at ht
    split at ht
    · cases ht
    · split_ifs at ht
      · exact List.mem_singleton.mp ht ▸ h.advance _
      · cases ht
  | empty => exact List.mem_singleton.mp ht ▸ h
  | ahead | notAhead | notBehind | textEnd | lineStart | lineEnd | wordBoundary =>
    simp only [Rx.run] at ht
    split_ifs at ht <;> simp_all

/-! ## How much a match reads -/

def Rx.most : Rx → Option ℕ
  | .set _ => some 1
  | .seq a b => do return (← a.most) + (← b.most)
  | .alt a b => do return max (← a.most) (← b.most)
  | .rep _ _ hi r => do return (← hi) * (← r.most)
  | .group _ r => r.most
  | .backref _ => none
  | _ => some 0

theorem pos_iterate_le {m : Mode} {step : State → List State} {n : ℕ}
    (hstep : ∀ s, ∀ t ∈ step s, t.pos ≤ s.pos + n) {fuel lo hi : ℕ} {s t : State}
    (ht : t ∈ iterate m step fuel lo (some hi) s) : t.pos ≤ s.pos + hi * n := by
  induction fuel generalizing lo hi s with
  | zero =>
    simp only [iterate] at ht
    split_ifs at ht
    · rw [List.mem_singleton.mp ht]
      exact Nat.le_add_right _ _
    · cases ht
  | succ fuel ih =>
    rw [iterate] at ht
    generalize hmore : (if some hi = some 0 then [] else
      ((step s).filter (fun t => s.pos < t.pos)).flatMap
        (iterate m step fuel (lo - 1) ((some hi).map (· - 1)))) = more at ht
    have hbound : t ∈ more → t.pos ≤ s.pos + hi * n := by
      intro hmem
      rw [← hmore] at hmem
      split_ifs at hmem with hzero
      · cases hmem
      · obtain ⟨u, hu, hut⟩ := List.mem_flatMap.mp hmem
        have hfirst := hstep s u (List.mem_of_mem_filter hu)
        have hrest : t.pos ≤ u.pos + (hi - 1) * n := ih hut
        have hpos : hi = (hi - 1) + 1 := by
          have : hi ≠ 0 := fun h => hzero (by rw [h])
          omega
        rw [hpos, Nat.succ_mul]
        omega
    split_ifs at ht
    · exact hbound ht
    · rcases List.mem_cons.mp ht with rfl | ht
      · exact Nat.le_add_right _ _
      · exact hbound ht
    · rcases List.mem_append.mp ht with ht | ht
      · exact hbound ht
      · rw [List.mem_singleton.mp ht]
        exact Nat.le_add_right _ _

theorem Rx.pos_le_most {r : Rx} {n : ℕ} (hr : r.most = some n) {s t : State} (ht : t ∈ r.run s) :
    t.pos ≤ s.pos + n := by
  induction r generalizing n s t with
  | set c =>
    cases hrest : s.rest with
    | nil => simp [Rx.run, hrest] at ht
    | cons x xs =>
      obtain ⟨_, hrun⟩ := run_set_cons hrest (List.ne_nil_of_mem ht)
      rw [hrun, List.mem_singleton] at ht
      rw [ht, ← Option.some.inj hr]
      exact le_rfl
  | seq a b iha ihb =>
    simp only [Rx.most, Option.bind_eq_bind, Option.bind_eq_some_iff, Option.pure_def,
      Option.some.injEq] at hr
    obtain ⟨k, ha, l, hb, rfl⟩ := hr
    obtain ⟨u, hu, hut⟩ := List.mem_flatMap.mp ht
    have hfirst := iha ha hu
    have hsecond := ihb hb hut
    omega
  | alt a b iha ihb =>
    simp only [Rx.most, Option.bind_eq_bind, Option.bind_eq_some_iff, Option.pure_def,
      Option.some.injEq] at hr
    obtain ⟨k, ha, l, hb, rfl⟩ := hr
    rcases List.mem_append.mp ht with ht | ht
    · have hle := iha ha ht
      omega
    · have hle := ihb hb ht
      omega
  | rep m lo hi r ih =>
    simp only [Rx.most, Option.bind_eq_bind, Option.bind_eq_some_iff, Option.pure_def,
      Option.some.injEq] at hr
    obtain ⟨k, rfl, l, hl, rfl⟩ := hr
    have hstep : ∀ s, ∀ t ∈ r.run s, t.pos ≤ s.pos + l := fun s t ht => ih hl ht
    simp only [Rx.run] at ht
    split_ifs at ht
    · exact pos_iterate_le hstep (List.mem_of_mem_take ht)
    · exact pos_iterate_le hstep ht
  | group name r ih =>
    obtain ⟨u, hu, rfl⟩ := List.mem_map.mp ht
    have hle : u.pos ≤ s.pos + n := ih hr hu
    exact hle
  | backref name => cases hr
  | empty =>
    rw [List.mem_singleton.mp ht]
    exact Nat.le_add_right _ _
  | ahead | notAhead | notBehind | textEnd | lineStart | lineEnd | wordBoundary =>
    simp only [Rx.run] at ht
    split_ifs at ht <;> simp_all

theorem Rx.length_le_of_fullmatch {r : Rx} {n : ℕ} (hr : r.most = some n) {text : List Char}
    (h : r.fullmatch text = true) : text.length ≤ n := by
  obtain ⟨t, ht, hend⟩ := List.any_eq_true.mp h
  have hpos := Rx.pos_le_most hr ht
  have htotal := (r.reads_run _ t ht).pos_add_length
  rw [List.isEmpty_iff.mp hend] at htotal
  simp only [State.init, List.length_nil] at hpos htotal
  omega

def Rx.avoids (bad : List Char) : Rx → Bool
  | .set c => bad.all (fun b => !c.mem b)
  | .seq a b | .alt a b => a.avoids bad && b.avoids bad
  | .rep _ _ _ r | .group _ r => r.avoids bad
  | .backref _ => false
  | _ => true

def State.ReadsNone (bad : List Char) (s t : State) : Prop :=
  ∃ read, s.rest = read ++ t.rest ∧ ∀ c ∈ read, c ∉ bad

theorem State.ReadsNone.refl (bad : List Char) (s : State) : s.ReadsNone bad s :=
  ⟨[], rfl, by simp⟩

theorem State.ReadsNone.trans {bad : List Char} {s t u : State} (h : s.ReadsNone bad t)
    (k : t.ReadsNone bad u) : s.ReadsNone bad u := by
  obtain ⟨a, ha, hpa⟩ := h
  obtain ⟨b, hb, hpb⟩ := k
  refine ⟨a ++ b, by rw [ha, hb, List.append_assoc], fun c hc => ?_⟩
  exact (List.mem_append.mp hc).elim (hpa c) (hpb c)

theorem Rx.readsNone_run {bad : List Char} {r : Rx} (hr : r.avoids bad = true) {s t : State}
    (ht : t ∈ r.run s) : s.ReadsNone bad t := by
  induction r generalizing s t with
  | set c =>
    cases hrest : s.rest with
    | nil => simp [Rx.run, hrest] at ht
    | cons x xs =>
      obtain ⟨hx, hrun⟩ := run_set_cons hrest (List.ne_nil_of_mem ht)
      rw [hrun, List.mem_singleton] at ht
      subst ht
      refine ⟨[x], hrest, fun c hc hbad => ?_⟩
      have hnot := List.all_eq_true.mp hr c hbad
      rw [List.mem_singleton.mp hc, hx] at hnot
      cases hnot
  | seq a b iha ihb =>
    rw [Rx.avoids, Bool.and_eq_true] at hr
    obtain ⟨u, hu, hut⟩ := List.mem_flatMap.mp ht
    exact (iha hr.1 hu).trans (ihb hr.2 hut)
  | alt a b iha ihb =>
    rw [Rx.avoids, Bool.and_eq_true] at hr
    rcases List.mem_append.mp ht with ht | ht
    · exact iha hr.1 ht
    · exact ihb hr.2 ht
  | rep m lo hi r ih =>
    have hstep : ∀ u, s.ReadsNone bad u → ∀ v ∈ r.run u, s.ReadsNone bad v :=
      fun u hu v hv => hu.trans (ih hr hv)
    simp only [Rx.run] at ht
    split_ifs at ht
    · exact iterate_preserves hstep (.refl bad s) (List.mem_of_mem_take ht)
    · exact iterate_preserves hstep (.refl bad s) ht
  | group name r ih =>
    obtain ⟨u, hu, rfl⟩ := List.mem_map.mp ht
    have hread : s.ReadsNone bad u := ih hr hu
    exact hread
  | backref name => cases hr
  | empty => exact List.mem_singleton.mp ht ▸ .refl bad s
  | ahead | notAhead | notBehind | textEnd | lineStart | lineEnd | wordBoundary =>
    simp only [Rx.run] at ht
    split_ifs at ht <;> simp_all [State.ReadsNone.refl]

/-- Reading none of some characters and stopping at one of them is stopping at the first of them. -/
theorem State.ReadsNone.rest_eq {bad : List Char} {s u : State} (h : s.ReadsNone bad u)
    {xs ys zs : List Char} {y z : Char} (hs : s.rest = xs ++ y :: ys) (hxs : ∀ x ∈ xs, x ∉ bad)
    (hy : y ∈ bad) (hu : u.rest = z :: zs) (hz : z ∈ bad) : u.rest = y :: ys := by
  obtain ⟨read, hread, hnone⟩ := h
  have hdrop : ∀ {as bs : List Char} {b : Char}, (∀ a ∈ as, a ∉ bad) → b ∈ bad →
      (as ++ b :: bs).dropWhile (fun c => decide (c ∉ bad)) = b :: bs := by
    intro as bs b has hb
    rw [List.dropWhile_append_of_pos (by simpa using has),
      List.dropWhile_cons_of_neg (by simpa using hb)]
  rw [hu, ← hdrop hnone hz, ← hu, ← hread, hs, hdrop hxs hy]

theorem Rx.not_mem_of_fullmatch {bad : List Char} {r : Rx} (hr : r.avoids bad = true)
    {text : List Char} (h : r.fullmatch text = true) : ∀ c ∈ text, c ∉ bad := by
  obtain ⟨t, ht, hend⟩ := List.any_eq_true.mp h
  obtain ⟨read, hread, hnone⟩ := Rx.readsNone_run hr ht
  rw [List.isEmpty_iff.mp hend, List.append_nil] at hread
  intro c hc
  exact hnone c (hread ▸ hc)

/-! ## Matches are not empty -/

def Rx.Advances (r : Rx) : Prop := ∀ s, ∀ t ∈ r.run s, s.pos < t.pos

theorem Rx.advances_of_consumes {r : Rx} {S : Char → Bool} (h : 0 < r.consumes S) : r.Advances := by
  intro s t ht
  have hcount := r.consumes_add_countP_le S s t ht
  obtain ⟨read, hread, hpos⟩ := r.reads_run s t ht
  cases read with
  | nil =>
    rw [List.nil_append] at hread
    rw [hread] at hcount
    omega
  | cons c cs =>
    rw [List.length_cons] at hpos
    omega

/-! ## Search -/

/-- The search stops at the first position that starts a match. -/
theorem Rx.searchFrom_spec (r : Rx) {text : List Char} {n : ℕ} (hn : n ≤ text.length) :
    (∃ k t, r.searchFrom (State.ofPos text n).prev n (text.drop n) = some (k, t) ∧ n ≤ k ∧
      k ≤ text.length ∧ (r.run (State.ofPos text k)).head? = some t ∧
      ∀ j, n ≤ j → j < k → r.run (State.ofPos text j) = []) ∨
    r.searchFrom (State.ofPos text n).prev n (text.drop n) = none ∧
      ∀ j, n ≤ j → j ≤ text.length → r.run (State.ofPos text j) = [] := by
  generalize hrest : text.drop n = rest
  induction rest generalizing n with
  | nil =>
    have hlength : n = text.length := Nat.le_antisymm hn (List.drop_eq_nil_iff.mp hrest)
    have hstate : State.ofPos text n = ⟨(State.ofPos text n).prev, [], n, []⟩ := by
      rw [State.ofPos, hrest]
    rw [Rx.searchFrom, ← hstate]
    cases hrun : (r.run (State.ofPos text n)).head? with
    | some t =>
      refine .inl ⟨n, t, rfl, le_rfl, hn, hrun, fun j hj hlt => ?_⟩
      omega
    | none =>
      refine .inr ⟨rfl, fun j hj hle => ?_⟩
      have hj' : j = n := by omega
      rw [hj']
      exact List.head?_eq_none_iff.mp hrun
  | cons c cs ih =>
    have hstate : State.ofPos text n = ⟨(State.ofPos text n).prev, c :: cs, n, []⟩ := by
      rw [State.ofPos, hrest]
    have hnext : ((State.ofPos text n).step c cs).On text := (State.on_ofPos hn).step hrest
    have hprev : some c = (State.ofPos text (n + 1)).prev := hnext.prev
    have hdrop : text.drop (n + 1) = cs := hnext.rest.symm
    have hlt : n + 1 ≤ text.length := hnext.le
    rw [Rx.searchFrom, ← hstate]
    cases hrun : (r.run (State.ofPos text n)).head? with
    | some t =>
      refine .inl ⟨n, t, rfl, le_rfl, hn, hrun, fun j hj hlt => ?_⟩
      omega
    | none =>
      have hempty := List.head?_eq_none_iff.mp hrun
      have hcons : ∀ j, n ≤ j → j = n ∨ n + 1 ≤ j := fun j hj => by omega
      simp only
      rw [hprev]
      rcases ih hlt hdrop with ⟨k, t, hsearch, hle, hk, hhead, hbefore⟩ | ⟨hsearch, hnone⟩
      · refine .inl ⟨k, t, hsearch, by omega, hk, hhead, fun j hj hlt => ?_⟩
        rcases hcons j hj with rfl | hj
        · exact hempty
        · exact hbefore j hj hlt
      · refine .inr ⟨hsearch, fun j hj hle => ?_⟩
        rcases hcons j hj with rfl | hj
        · exact hempty
        · exact hnone j hj hle

/-! ## All matches -/

def Rx.IsMatch (r : Rx) (text : List Char) (m : Match) : Prop :=
  m.start < m.stop ∧ m.stop ≤ text.length ∧
    ∃ t, (r.run (State.ofPos text m.start)).head? = some t ∧ t.pos = m.stop

structure Rx.Scans (r : Rx) (text : List Char) (n : ℕ) (ms : List Match) : Prop where
  isMatch : ∀ m ∈ ms, n ≤ m.start ∧ r.IsMatch text m
  ordered : ms.Pairwise (fun a b => a.stop ≤ b.start)
  /-- A position that starts a match is the start of a match found, or lies in one. -/
  found : ∀ k, n ≤ k → k ≤ text.length → ∀ t, (r.run (State.ofPos text k)).head? = some t →
    ∃ m ∈ ms, m.start < k ∧ k < m.stop ∨ m.start = k ∧ m.stop = t.pos

theorem Rx.scans_finditerFrom {r : Rx} (hr : r.Advances) {text : List Char} {fuel n : ℕ}
    (hn : n ≤ text.length) (hfuel : text.length < fuel + n) :
    r.Scans text n (r.finditerFrom fuel (State.ofPos text n)) := by
  induction fuel generalizing n with
  | zero => omega
  | succ fuel ih =>
    rw [Rx.finditerFrom]
    rcases r.searchFrom_spec hn with ⟨k, t, hsearch, hle, hk, hhead, hbefore⟩ | ⟨hsearch, hnone⟩
    · have hmem : t ∈ r.run (State.ofPos text k) := List.mem_of_mem_head? hhead
      have hadvance : k < t.pos := hr _ t hmem
      have hon := r.on_run (State.on_ofPos hk) hmem
      have hrest := ih hon.le (by omega)
      rw [← hon.eq_ofPos] at hrest
      have hfirst : r.searchFrom (State.ofPos text n).prev (State.ofPos text n).pos
          (State.ofPos text n).rest = some (k, t) := hsearch
      rw [hfirst]
      simp only [if_pos hadvance]
      refine ⟨?_, ?_, ?_⟩
      · intro m hm
        rcases List.mem_cons.mp hm with rfl | hm
        · exact ⟨hle, hadvance, hon.le, t, hhead, rfl⟩
        · obtain ⟨hstart, hmatch⟩ := hrest.isMatch m hm
          exact ⟨by omega, hmatch⟩
      · rw [List.pairwise_cons]
        exact ⟨fun m hm => (hrest.isMatch m hm).1, hrest.ordered⟩
      · intro j hj hjle u hu
        by_cases hbetween : j < t.pos
        · refine ⟨_, List.mem_cons_self, ?_⟩
          rcases Nat.lt_trichotomy j k with hlt | rfl | hgt
          · rw [hbefore j hj hlt] at hu
            cases hu
          · rw [hhead] at hu
            exact .inr ⟨rfl, congrArg State.pos (Option.some.inj hu)⟩
          · exact .inl ⟨hgt, hbetween⟩
        · obtain ⟨m, hm, hcovers⟩ := hrest.found j (by omega) hjle u hu
          exact ⟨m, List.mem_cons_of_mem _ hm, hcovers⟩
    · have hfirst : r.searchFrom (State.ofPos text n).prev (State.ofPos text n).pos
          (State.ofPos text n).rest = none := hsearch
      rw [hfirst]
      refine ⟨by simp, List.Pairwise.nil, fun k hk hkle t ht => ?_⟩
      rw [hnone k hk hkle] at ht
      cases ht

theorem Rx.scans_finditer {r : Rx} (hr : r.Advances) (text : List Char) :
    r.Scans text 0 (r.finditer text) := by
  rw [Rx.finditer, State.init_eq_ofPos]
  exact Rx.scans_finditerFrom hr (Nat.zero_le _) (by omega)

/-! ## Searching by position -/

theorem State.init_advance {text : List Char} {n : ℕ} (hn : n ≤ text.length) :
    (State.init text).advance n = State.ofPos text n := by
  have hon : ((State.init text).advance n).On text := by
    rw [State.init_eq_ofPos]
    exact (State.on_ofPos (Nat.zero_le _)).advance n
  have hpos : ((State.init text).advance n).pos = n := by
    rw [State.pos_advance hn]
    exact Nat.zero_add n
  have hgroups : ((State.init text).advance n).groups = [] := State.groups_advance _ _
  have heq := hon.eq_ofPos
  generalize (State.init text).advance n = s at hpos hgroups heq
  cases s
  cases hgroups
  cases hpos
  exact heq

theorem Rx.search_spec (r : Rx) {text : List Char} {n : ℕ} (hn : n ≤ text.length) :
    (∃ m, r.search text n = some m ∧ n ≤ m.start ∧ m.start ≤ text.length ∧
      (∃ t, (r.run (State.ofPos text m.start)).head? = some t ∧ t.pos = m.stop) ∧
      ∀ j, n ≤ j → j < m.start → r.run (State.ofPos text j) = []) ∨
    r.search text n = none ∧ ∀ j, n ≤ j → j ≤ text.length → r.run (State.ofPos text j) = [] := by
  have hsearch : r.search text n = (r.searchFrom (State.ofPos text n).prev n (text.drop n)).map
      (fun p => ⟨p.1, p.2.pos, p.2.groups⟩) := by
    rw [Rx.search, State.init_advance hn]
    rfl
  rcases r.searchFrom_spec hn with ⟨k, t, hfrom, hle, hk, hhead, hbefore⟩ | ⟨hfrom, hnone⟩
  · rw [hfrom] at hsearch
    exact .inl ⟨_, hsearch, hle, hk, ⟨t, hhead, rfl⟩, hbefore⟩
  · rw [hfrom] at hsearch
    exact .inr ⟨hsearch, hnone⟩

/-- No match starts with a suffix of the text ahead, whatever lies behind. -/
def Rx.Nowhere (r : Rx) (text : List Char) : Prop :=
  ∀ s : State, s.rest <:+ text → r.run s = []

section

variable {r a b : Rx} {text : List Char}

theorem Rx.Nowhere.seq_left (h : a.Nowhere text) (b : Rx) : (Rx.seq a b).Nowhere text :=
  fun s hs => by rw [Rx.run, h s hs, List.flatMap_nil]

theorem Rx.Nowhere.seq_right (a : Rx) (h : b.Nowhere text) : (Rx.seq a b).Nowhere text :=
  fun s hs => List.flatMap_eq_nil_iff.mpr fun t ht => h t <| by
    obtain ⟨w, hw, _⟩ := a.reads_run s t ht
    exact (hw ▸ List.suffix_append w t.rest).trans hs

theorem Rx.Nowhere.alt (ha : a.Nowhere text) (hb : b.Nowhere text) : (Rx.alt a b).Nowhere text :=
  fun s hs => List.append_eq_nil_iff.mpr ⟨ha s hs, hb s hs⟩

theorem Rx.Nowhere.ahead (h : r.Nowhere text) : (Rx.ahead r).Nowhere text :=
  fun s hs => by rw [Rx.run, h s hs]; rfl

theorem Rx.Nowhere.search (h : r.Nowhere text) {n : ℕ} (hn : n ≤ text.length) :
    r.search text n = none := by
  rcases r.search_spec hn with ⟨m, _, _, hle, ⟨t, ht, _⟩, _⟩ | ⟨hnone, _⟩
  · rw [h (State.ofPos text m.start) (List.drop_suffix _ _)] at ht
    cases ht
  · exact hnone

theorem Rx.Nowhere.finditer (h : r.Nowhere text) : r.finditer text = [] := by
  have hsearch := h.search (Nat.zero_le _)
  rw [Rx.search, Option.map_eq_none_iff, State.advance] at hsearch
  rw [Rx.finditer, Rx.finditerFrom, hsearch]

end

end Regex
