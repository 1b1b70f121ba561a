import Mathlib.Data.List.Basic
import Mathlib.Data.List.Infix

/-!
# Ordered backtracking regular expressions

`Rx.run` lists every way an expression can match from a position, in the order a backtracking
matcher tries them, so the first element is the match that matcher reports. Greedy, lazy and
possessive repetition, named groups, back-references and look-around are those of Python's `re`;
a repetition never accepts an empty pass of its body.
-/

namespace Regex

structure CharSet where
  neg : Bool
  ranges : List (Char × Char)
deriving DecidableEq

namespace CharSet

def mem (s : CharSet) (c : Char) : Bool :=
  s.neg != s.ranges.any (fun r => decide (r.1 ≤ c) && decide (c ≤ r.2))

def one (c : Char) : CharSet := ⟨false, [(c, c)]⟩

def oneOf (l : List Char) : CharSet := ⟨false, l.map (fun c => (c, c))⟩

def noneOf (l : List Char) : CharSet := ⟨true, l.map (fun c => (c, c))⟩

def foldRange (r : Char × Char) : List (Char × Char) :=
  if r.1.isLower && r.2.isLower then [(r.1.toUpper, r.2.toUpper)]
  else if r.1.isUpper && r.2.isUpper then [(r.1.toLower, r.2.toLower)]
  else []

/-- Under `IGNORECASE` the letters `i`, `k` and `s` also match four non-ASCII code points. -/
def foldExtras (s : CharSet) : List (Char × Char) :=
  let has := fun c : Char => s.ranges.any (fun r => decide (r.1 ≤ c) && decide (c ≤ r.2))
  (if has 'i' || has 'I' then [(Char.ofNat 0x130, Char.ofNat 0x131)] else []) ++
  (if has 'k' || has 'K' then [(Char.ofNat 0x212A, Char.ofNat 0x212A)] else []) ++
  (if has 's' || has 'S' then [(Char.ofNat 0x17F, Char.ofNat 0x17F)] else [])

def ignoreCase (s : CharSet) : CharSet :=
  ⟨s.neg, s.ranges ++ s.ranges.flatMap foldRange ++ s.foldExtras⟩

def within (s : CharSet) (S : Char → Bool) : Bool :=
  !s.neg && s.ranges.all (fun r => decide (r.1 = r.2) && S r.1)

theorem of_mem_within {s : CharSet} {S : Char → Bool} {c : Char}
    (hw : s.within S = true) (hc : s.mem c = true) : S c = true := by
  simp only [within, Bool.and_eq_true, Bool.not_eq_true', List.all_eq_true] at hw
  obtain ⟨hneg, hall⟩ := hw
  simp only [mem, hneg, Bool.false_bne, List.any_eq_true, Bool.and_eq_true,
    decide_eq_true_eq] at hc
  obtain ⟨r, hr, hlo, hhi⟩ := hc
  obtain ⟨heq, hS⟩ := hall r hr
  have hcr : c = r.1 := Char.le_antisymm ((of_decide_eq_true heq) ▸ hhi) hlo
  rw [hcr]
  exact hS

end CharSet

inductive Mode
  | greedy
  | lazy
  | possessive
deriving DecidableEq

inductive Rx
  | empty
  | set (s : CharSet)
  | seq (a b : Rx)
  | alt (a b : Rx)
  | rep (m : Mode) (lo : ℕ) (hi : Option ℕ) (r : Rx)
  | group (name : String) (r : Rx)
  | backref (name : String)
  | ahead (r : Rx)
  | notAhead (r : Rx)
  | notBehind (s : CharSet)
  | textEnd
  | lineStart
  | lineEnd
  | wordBoundary (word : Char → Bool)

/-- A position in a text: the character before it, the characters after it, its index, and the
groups captured so far with their start index and text. -/
structure State where
  prev : Option Char
  rest : List Char
  pos : ℕ
  groups : List (String × ℕ × List Char)
deriving DecidableEq

namespace State

def init (text : List Char) : State := ⟨none, text, 0, []⟩

def step (s : State) (c : Char) (cs : List Char) : State :=
  { s with prev := some c, rest := cs, pos := s.pos + 1 }

def advance (s : State) : ℕ → State
  | 0 => s
  | n + 1 => match s.rest with
    | [] => s
    | c :: cs => (s.step c cs).advance n

def capture (s t : State) (name : String) : State :=
  { t with groups := (name, s.pos, s.rest.take (t.pos - s.pos)) :: t.groups }

def lookup (s : State) (name : String) : Option (ℕ × List Char) :=
  (s.groups.find? (fun g => g.1 == name)).map Prod.snd

end State

/-- Repeat `step`, trying another pass before or after stopping according to the mode. -/
def iterate (m : Mode) (step : State → List State) : ℕ → ℕ → Option ℕ → State → List State
  | 0, lo, _, s => if lo = 0 then [s] else []
  | fuel + 1, lo, hi, s =>
    let more := if hi = some 0 then [] else
      ((step s).filter (fun t => s.pos < t.pos)).flatMap
        (iterate m step fuel (lo - 1) (hi.map (· - 1)))
    if lo ≠ 0 then more else if m = .lazy then s :: more else more ++ [s]

def Rx.run : Rx → State → List State
  | .empty, s => [s]
  | .set c, s => match s.rest with
    | [] => []
    | x :: xs => if c.mem x then [s.step x xs] else []
  | .seq a b, s => (a.run s).flatMap b.run
  | .alt a b, s => a.run s ++ b.run s
  | .rep m lo hi r, s =>
    let all := iterate m r.run s.rest.length lo hi s
    if m = .possessive then all.take 1 else all
  | .group name r, s => (r.run s).map (fun t => s.capture t name)
  | .backref name, s => match s.lookup name with
    | none => []
    | some (_, text) => if text.isPrefixOf s.rest then [s.advance text.length] else []
  | .ahead r, s => if (r.run s).isEmpty then [] else [s]
  | .notAhead r, s => if (r.run s).isEmpty then [s] else []
  | .notBehind c, s => if s.prev.any c.mem then [] else [s]
  | .textEnd, s => if s.rest.isEmpty then [s] else []
  | .lineStart, s => if s.prev.all (· == '\n') then [s] else []
  | .lineEnd, s => if s.rest.head?.all (· == '\n') then [s] else []
  | .wordBoundary word, s =>
    if s.prev.any word != s.rest.head?.any word then [s] else []

/-! ## Searching -/

structure Match where
  start : ℕ
  stop : ℕ
  groups : List (String × ℕ × List Char)
deriving DecidableEq

def Rx.searchFrom (r : Rx) (prev : Option Char) (pos : ℕ) : List Char → Option (ℕ × State)
  | [] => (r.run ⟨prev, [], pos, []⟩).head?.map (fun t => (pos, t))
  | c :: cs => match (r.run ⟨prev, c :: cs, pos, []⟩).head? with
    | some t => some (pos, t)
    | none => r.searchFrom (some c) (pos + 1) cs

/-- `pattern.search(text, start)`: look-behind sees the characters before `start`. -/
def Rx.search (r : Rx) (text : List Char) (start : ℕ) : Option Match :=
  let s := (State.init text).advance start
  (r.searchFrom s.prev s.pos s.rest).map (fun p => ⟨p.1, p.2.pos, p.2.groups⟩)

def Rx.finditerFrom (r : Rx) : ℕ → State → List Match
  | 0, _ => []
  | fuel + 1, s => match r.searchFrom s.prev s.pos s.rest with
    | none => []
    | some (start, t) => ⟨start, t.pos, t.groups⟩ ::
      (if start < t.pos then r.finditerFrom fuel { t with groups := [] }
        else match t.rest with
          | [] => []
          | c :: cs => r.finditerFrom fuel ⟨some c, cs, t.pos + 1, []⟩)

def Rx.finditer (r : Rx) (text : List Char) : List Match :=
  r.finditerFrom (text.length + 1) (State.init text)

def Rx.fullmatch (r : Rx) (text : List Char) : Bool :=
  (r.run (State.init text)).any (fun t => t.rest.isEmpty)

/-! ## Building expressions -/

def seqs : List Rx → Rx
  | [] => .empty
  | [r] => r
  | r :: rs => .seq r (seqs rs)

def alts : List Rx → Rx
  | [] => .empty
  | [r] => r
  | r :: rs => .alt r (alts rs)

def lit (s : String) : Rx := seqs (s.toList.map (fun c => .set (.one c)))

def Rx.opt (r : Rx) : Rx := .rep .greedy 0 (some 1) r
def Rx.star (r : Rx) : Rx := .rep .greedy 0 none r
def Rx.plus (r : Rx) : Rx := .rep .greedy 1 none r
def Rx.starLazy (r : Rx) : Rx := .rep .lazy 0 none r
def Rx.plusLazy (r : Rx) : Rx := .rep .lazy 1 none r
def Rx.starAtomic (r : Rx) : Rx := .rep .possessive 0 none r
def Rx.plusAtomic (r : Rx) : Rx := .rep .possessive 1 none r
def Rx.optAtomic (r : Rx) : Rx := .rep .possessive 0 (some 1) r

def Rx.ignoreCase : Rx → Rx
  | .set s => .set s.ignoreCase
  | .seq a b => .seq a.ignoreCase b.ignoreCase
  | .alt a b => .alt a.ignoreCase b.ignoreCase
  | .rep m lo hi r => .rep m lo hi r.ignoreCase
  | .group name r => .group name r.ignoreCase
  | .ahead r => .ahead r.ignoreCase
  | .notAhead r => .notAhead r.ignoreCase
  | .notBehind s => .notBehind s.ignoreCase
  | r => r

/-! ## A match reads forward -/

def State.Reads (s t : State) : Prop :=
  ∃ read, s.rest = read ++ t.rest ∧ t.pos = s.pos + read.length

theorem State.Reads.refl (s : State) : s.Reads s := ⟨[], by simp, by simp⟩

theorem State.Reads.trans {s t u : State} (h₁ : s.Reads t) (h₂ : t.Reads u) : s.Reads u := by
  obtain ⟨a, ha, hp⟩ := h₁
  obtain ⟨b, hb, hq⟩ := h₂
  exact ⟨a ++ b, by rw [ha, hb, List.append_assoc], by rw [hq, hp, List.length_append]; omega⟩

theorem State.Reads.pos_add_length {s t : State} (h : s.Reads t) :
    t.pos + t.rest.length = s.pos + s.rest.length := by
  obtain ⟨a, ha, hp⟩ := h
  rw [hp, ha, List.length_append]
  omega

theorem State.reads_step (s : State) (c : Char) (cs : List Char) (h : s.rest = c :: cs) :
    s.Reads (s.step c cs) := ⟨[c], by simp [State.step, h], by simp [State.step]⟩

theorem State.reads_advance (s : State) (n : ℕ) : s.Reads (s.advance n) := by
  induction n generalizing s with
  | zero => exact .refl s
  | succ n ih =>
    cases h : s.rest with
    | nil => simpa only [State.advance, h] using State.Reads.refl s
    | cons c cs =>
      simp only [State.advance, h]
      exact (s.reads_step c cs h).trans (ih _)

theorem reads_iterate {m : Mode} {step : State → List State}
    (hstep : ∀ s, ∀ t ∈ step s, s.Reads t) (fuel lo : ℕ) (hi : Option ℕ) (s t : State)
    (ht : t ∈ iterate m step fuel lo hi s) : s.Reads t := by
  induction fuel generalizing lo hi s t with
  | zero =>
    simp only [iterate] at ht
    split_ifs at ht
    · simp only [List.mem_singleton] at ht
      exact ht ▸ .refl s
    · cases ht
  | succ fuel ih =>
    rw [iterate] at ht
    generalize hmore : (if hi = some 0 then [] else
      ((step s).filter (fun t => s.pos < t.pos)).flatMap
        (iterate m step fuel (lo - 1) (hi.map (· - 1)))) = more at ht
    have hreads : ∀ u ∈ more, s.Reads u := by
      intro u hu
      rw [← hmore] at hu
      split_ifs at hu
      · cases hu
      · obtain ⟨v, hv, huv⟩ := List.mem_flatMap.mp hu
        exact (hstep s v (List.mem_of_mem_filter hv)).trans (ih _ _ _ _ huv)
    split_ifs at ht
    · exact hreads t ht
    · rcases List.mem_cons.mp ht with rfl | ht
      · exact .refl _
      · exact hreads t ht
    · rcases List.mem_append.mp ht with ht | ht
      · exact hreads t ht
      · exact List.mem_singleton.mp ht ▸ .refl s

theorem Rx.reads_run (r : Rx) (s t : State) (ht : t ∈ r.run s) : s.Reads t := by
  induction r generalizing s t with
  | empty => simp only [Rx.run, List.mem_singleton] at ht; exact ht ▸ .refl s
  | set c =>
    cases hr : s.rest with
    | nil => simp [Rx.run, hr] at ht
    | cons x xs =>
      simp only [Rx.run, hr] at ht
      split_ifs at ht
      · simp only [List.mem_singleton] at ht
        exact ht ▸ s.reads_step x xs hr
      · cases ht
  | seq a b iha ihb =>
    obtain ⟨u, hu, hut⟩ := List.mem_flatMap.mp ht
    exact (iha s u hu).trans (ihb u t hut)
  | alt a b iha ihb =>
    rcases List.mem_append.mp ht with h | h
    · exact iha s t h
    · exact ihb s t h
  | rep m lo hi r ih =>
    simp only [Rx.run] at ht
    split_ifs at ht
    · exact reads_iterate (fun s t => ih s t) _ _ _ _ _ (List.mem_of_mem_take ht)
    · exact reads_iterate (fun s t => ih s t) _ _ _ _ _ ht
  | group name r ih =>
    obtain ⟨u, hu, rfl⟩ := List.mem_map.mp ht
    exact ih s u hu
  | backref name =>
    simp only [Rx.run] at ht
    split at ht
    · cases ht
    · split_ifs at ht
      · simp only [List.mem_singleton] at ht
        exact ht ▸ s.reads_advance _
      · cases ht
  | ahead r ih | notAhead r ih =>
    simp only [Rx.run] at ht
    split_ifs at ht <;> simp_all [State.Reads.refl]
  | notBehind c | textEnd | lineStart | lineEnd | wordBoundary =>
    simp only [Rx.run] at ht
    split_ifs at ht <;> simp_all [State.Reads.refl]

/-! ## Characters a match cannot do without -/

def Rx.consumes (S : Char → Bool) : Rx → ℕ
  | .set c => if c.within S then 1 else 0
  | .seq a b => a.consumes S + b.consumes S
  | .alt a b => min (a.consumes S) (b.consumes S)
  | .group _ r => r.consumes S
  | _ => 0

/-- A lower bound on the characters of `S` that lie ahead of a match, look-ahead included. -/
def Rx.needs (S : Char → Bool) : Rx → ℕ
  | .set c => if c.within S then 1 else 0
  | .seq a b => max (a.needs S) (a.consumes S + b.needs S)
  | .alt a b => min (a.needs S) (b.needs S)
  | .rep _ lo _ r => if lo = 0 then 0 else r.needs S
  | .group _ r => r.needs S
  | .ahead r => r.needs S
  | _ => 0

theorem State.Reads.countP_le {s t : State} (h : s.Reads t) (S : Char → Bool) :
    t.rest.countP S ≤ s.rest.countP S := by
  obtain ⟨read, hread, _⟩ := h
  rw [hread, List.countP_append]
  exact Nat.le_add_left _ _

theorem run_set_cons {c : CharSet} {s : State} {x : Char} {xs : List Char}
    (hr : s.rest = x :: xs) (hne : (Rx.set c).run s ≠ []) :
    c.mem x = true ∧ (Rx.set c).run s = [s.step x xs] := by
  have hx : c.mem x = true := by
    by_contra hx
    simp [Rx.run, hr, hx] at hne
  exact ⟨hx, by simp [Rx.run, hr, hx]⟩

theorem Rx.consumes_add_countP_le (S : Char → Bool) (r : Rx) (s t : State) (ht : t ∈ r.run s) :
    r.consumes S + t.rest.countP S ≤ s.rest.countP S := by
  induction r generalizing s t with
  | set c =>
    cases hr : s.rest with
    | nil => simp [Rx.run, hr] at ht
    | cons x xs =>
      obtain ⟨hx, hrun⟩ := run_set_cons hr (List.ne_nil_of_mem ht)
      rw [hrun, List.mem_singleton] at ht
      subst ht
      simp only [Rx.consumes, State.step, List.countP_cons]
      split_ifs with hw hS
      · omega
      · exact absurd (CharSet.of_mem_within hw hx) hS
      all_goals omega
  | seq a b iha ihb =>
    obtain ⟨u, hu, hut⟩ := List.mem_flatMap.mp ht
    have ha := iha s u hu
    have hb := ihb u t hut
    simp only [Rx.consumes]
    omega
  | alt a b iha ihb =>
    simp only [Rx.consumes]
    rcases List.mem_append.mp ht with h | h
    · have ha := iha s t h
      omega
    · have hb := ihb s t h
      omega
  | group name r ih =>
    obtain ⟨u, hu, rfl⟩ := List.mem_map.mp ht
    exact ih s u hu
  | empty | rep | backref | ahead | notAhead | notBehind | textEnd | lineStart | lineEnd
  | wordBoundary =>
    simpa only [Rx.consumes, Nat.zero_add] using (Rx.reads_run _ s t ht).countP_le S

theorem iterate_eq_nil {m : Mode} {step : State → List State} {fuel lo : ℕ} {hi : Option ℕ}
    {s : State} (hlo : lo ≠ 0) (hs : step s = []) : iterate m step fuel lo hi s = [] := by
  cases fuel with
  | zero => simp [iterate, hlo]
  | succ fuel => simp [iterate, hlo, hs]

theorem Rx.needs_le_countP (S : Char → Bool) (r : Rx) (s : State) (hne : r.run s ≠ []) :
    r.needs S ≤ s.rest.countP S := by
  induction r generalizing s with
  | set c =>
    obtain ⟨t, ht⟩ := List.exists_mem_of_ne_nil _ hne
    have hle := Rx.consumes_add_countP_le S _ s t ht
    simp only [Rx.consumes, Rx.needs] at hle ⊢
    omega
  | seq a b iha ihb =>
    obtain ⟨t, ht⟩ := List.exists_mem_of_ne_nil _ hne
    obtain ⟨u, hu, hut⟩ := List.mem_flatMap.mp ht
    have ha := iha s (List.ne_nil_of_mem hu)
    have hread := Rx.consumes_add_countP_le S a s u hu
    have hb := ihb u (List.ne_nil_of_mem hut)
    simp only [Rx.needs]
    omega
  | alt a b iha ihb =>
    simp only [Rx.needs]
    by_cases h : a.run s = []
    · have hb := ihb s (by simpa [Rx.run, h] using hne)
      omega
    · have ha := iha s h
      omega
  | rep m lo hi r ih =>
    simp only [Rx.needs]
    split_ifs with hlo
    · exact Nat.zero_le _
    · apply ih s
      intro h
      apply hne
      simp [Rx.run, iterate_eq_nil hlo h]
  | group name r ih => exact ih s (by simpa [Rx.run] using hne)
  | ahead r ih =>
    apply ih s
    intro h
    simp [Rx.run, h] at hne
  | empty | backref | notAhead | notBehind | textEnd | lineStart | lineEnd | wordBoundary =>
    exact Nat.zero_le _

def Rx.Absent (r : Rx) (text : List Char) : Prop :=
  ∀ cs, cs <:+ text → ∀ prev pos, r.run ⟨prev, cs, pos, []⟩ = []

theorem Rx.absent_of_needs {S : Char → Bool} (r : Rx) {text : List Char}
    (htext : text.countP S < r.needs S) : r.Absent text := by
  intro cs hsuffix prev pos
  by_contra h
  have hneeds := r.needs_le_countP S _ h
  have hle : cs.countP S ≤ text.countP S := hsuffix.sublist.countP_le
  exact absurd (Nat.le_trans hneeds hle) (Nat.not_le.mpr htext)

theorem Rx.absent_alts {rs : List Rx} (hne : rs ≠ []) {text : List Char}
    (h : ∀ r ∈ rs, r.Absent text) : (alts rs).Absent text := by
  induction rs with
  | nil => exact absurd rfl hne
  | cons r rs ih =>
    cases rs with
    | nil => exact h r (List.mem_singleton_self r)
    | cons r' rs =>
      intro cs hsuffix prev pos
      have hfirst := h r List.mem_cons_self cs hsuffix prev pos
      have hrest := ih (List.cons_ne_nil r' rs) (fun q hq => h q (List.mem_cons_of_mem r hq)) cs
        hsuffix prev pos
      simp [alts, Rx.run, hfirst, hrest]

theorem Rx.Absent.searchFrom {r : Rx} {text : List Char} (h : r.Absent text) (prev : Option Char)
    (pos : ℕ) : r.searchFrom prev pos text = none := by
  induction text generalizing prev pos with
  | nil => simp [Rx.searchFrom, h [] List.suffix_rfl prev pos]
  | cons c cs ih =>
    rw [Rx.searchFrom, h _ List.suffix_rfl prev pos]
    exact ih (fun ds hds => h ds (hds.trans (List.suffix_cons c cs))) (some c) (pos + 1)

theorem Rx.Absent.finditer {r : Rx} {text : List Char} (h : r.Absent text) : r.finditer text = [] := by
  simp only [Rx.finditer, Rx.finditerFrom, State.init, h.searchFrom]

theorem Rx.search_eq_none {S : Char → Bool} (r : Rx) (text : List Char)
    (htext : text.countP S < r.needs S) (start : ℕ) : r.search text start = none := by
  have hrest : ((State.init text).advance start).rest.countP S ≤ text.countP S :=
    ((State.init text).reads_advance start).countP_le S
  rw [Rx.search, (r.absent_of_needs (Nat.lt_of_le_of_lt hrest htext)).searchFrom]
  rfl

theorem Rx.finditer_eq_nil {S : Char → Bool} (r : Rx) (text : List Char)
    (htext : text.countP S < r.needs S) : r.finditer text = [] :=
  (r.absent_of_needs htext).finditer

theorem Rx.fullmatch_eq_false {S : Char → Bool} (r : Rx) (text : List Char)
    (htext : text.countP S < r.needs S) : r.fullmatch text = false := by
  have hrun : r.run (State.init text) = [] := by
    by_contra h
    exact absurd (r.needs_le_countP S _ h) (Nat.not_le.mpr htext)
  simp [Rx.fullmatch, hrun]

/-- A place where the expression matches is found, or one before it. -/
theorem Rx.isSome_searchFrom {r : Rx} {tail : List Char}
    (hrun : ∀ prev pos, r.run ⟨prev, tail, pos, []⟩ ≠ []) (skipped : List Char)
    (prev : Option Char) (pos : ℕ) : (r.searchFrom prev pos (skipped ++ tail)).isSome = true := by
  induction skipped generalizing prev pos with
  | nil =>
    obtain ⟨t, ts, ht⟩ := List.exists_cons_of_ne_nil (hrun prev pos)
    cases tail with
    | nil => simp [Rx.searchFrom, ht]
    | cons c cs => simp [Rx.searchFrom, ht]
  | cons c cs ih =>
    rw [List.cons_append, Rx.searchFrom]
    split
    · rfl
    · exact ih (some c) (pos + 1)

end Regex
