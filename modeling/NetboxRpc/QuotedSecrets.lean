import NetboxRpc.PrivateKeys
import NetboxRpc.SecretAlternatives

/-!
# Quoted values of secret keys

A double-quoted value of a secret key does not survive, unless it is a value of `authorization` over
several lines, or a match that starts before the key ends inside it, and nothing else covers the rest.
-/

namespace NetboxRpc

open Regex

inductive Quoted : Text → Prop
  | nil : Quoted []
  | pair {cs : Text} : Quoted cs → Quoted ('"' :: '"' :: cs)
  | escape (c : Char) {cs : Text} : Quoted cs → Quoted ('\\' :: c :: cs)
  | plain {c : Char} {cs : Text} (hquote : c ≠ '"') (hslash : c ≠ '\\') :
      Quoted cs → Quoted (c :: cs)

section

variable {s t : State} {inner after : Text}

/-! ## The value -/

theorem run_quotedRun_pair {cs : Text} (h : s.rest = '"' :: '"' :: cs) :
    (quotedRun '"').run s = [s.advance 2] := by
  have hnext : (s.advance 1).rest = '"' :: cs := by
    rw [State.rest_advance, h]
    rfl
  have hpair : (Rx.seq (chr '"') (chr '"')).run s = [s.advance 2] := by
    rw [Rx.run_seq_of_singleton (run_chr h), run_chr hnext, State.advance_advance]
  have hescape : (chr '\\').run s = [] := run_chr_eq_nil h (by decide)
  have hother : (Rx.set (.noneOf ['"', '\\'])).run s = [] := by
    rw [Rx.run_set_cons_eq _ h, if_neg (fun hmem => absurd (mem_noneOf.mp hmem) (by decide))]
  change (Rx.seq (chr '"') (chr '"')).run s ++ (((chr '\\').run s).flatMap _ ++
    (Rx.set (.noneOf ['"', '\\'])).run s) = _
  rw [hpair, hescape, hother]
  rfl

theorem run_quotedRun_escape {c : Char} {cs : Text} (h : s.rest = '\\' :: c :: cs) :
    (quotedRun '"').run s = [s.advance 2] := by
  have hnext : (s.advance 1).rest = c :: cs := by
    rw [State.rest_advance, h]
    rfl
  have hany : (Rx.set anyChar).run (s.advance 1) = [s.advance 2] := by
    rw [Rx.run_set_cons_eq _ hnext, if_pos (show anyChar.mem c = true from rfl),
      State.advance_advance]
  have hend : Rx.textEnd.run (s.advance 1) = [] := by
    rw [Rx.run, hnext]
    rfl
  have hquote : (chr '"').run s = [] := run_chr_eq_nil h (by decide)
  have hother : (Rx.set (.noneOf ['"', '\\'])).run s = [] := by
    rw [Rx.run_set_cons_eq _ h, if_neg (fun hmem => absurd (mem_noneOf.mp hmem) (by decide))]
  change ((chr '"').run s).flatMap _ ++ ((Rx.seq (chr '\\') (.alt (.set anyChar) .textEnd)).run s ++
    (Rx.set (.noneOf ['"', '\\'])).run s) = _
  rw [hquote, hother, Rx.run_seq_of_singleton (run_chr h), Rx.run, hany, hend]
  rfl

theorem run_quotedRun_plain {c : Char} {cs : Text} (h : s.rest = c :: cs) (hquote : c ≠ '"')
    (hslash : c ≠ '\\') : (quotedRun '"').run s = [s.advance 1] := by
  have hother : (Rx.set (.noneOf ['"', '\\'])).run s = [s.advance 1] := by
    rw [Rx.run_set_cons_eq _ h, if_pos (mem_noneOf.mpr (by simp [hquote, hslash]))]
  change ((chr '"').run s).flatMap _ ++ (((chr '\\').run s).flatMap _ ++
    (Rx.set (.noneOf ['"', '\\'])).run s) = _
  rw [run_chr_eq_nil h hquote, run_chr_eq_nil h hslash, hother]
  rfl

/-- The greedy repetition goes through the whole inside first. -/
theorem head?_iterate_quotedRun (hinner : Quoted inner) {fuel : ℕ} (hfuel : inner.length ≤ fuel)
    (h : s.rest = inner ++ after) : ∃ fuel', (iterate .greedy (quotedRun '"').run fuel 0 none s).head? =
      (iterate .greedy (quotedRun '"').run fuel' 0 none (s.advance inner.length)).head? := by
  induction hinner generalizing s fuel with
  | nil => exact ⟨fuel, rfl⟩
  | @pair cs _ ih =>
    have hnext : (s.advance 2).rest = cs ++ after := by rw [State.rest_advance, h]; rfl
    have hlength : 2 ≤ s.rest.length := by rw [h]; exact Nat.le_add_left 2 _
    simp only [List.length_cons] at hfuel
    obtain ⟨fuel', hfuel'⟩ := @ih (s.advance 2) (fuel - 1) (by omega) hnext
    refine ⟨fuel', ?_⟩
    rw [head?_iterate_advance (run_quotedRun_pair h) Nat.two_pos hlength (by omega), hfuel',
      State.advance_advance, Nat.add_comm]
    rfl
  | @escape c cs _ ih =>
    have hnext : (s.advance 2).rest = cs ++ after := by rw [State.rest_advance, h]; rfl
    have hlength : 2 ≤ s.rest.length := by rw [h]; exact Nat.le_add_left 2 _
    simp only [List.length_cons] at hfuel
    obtain ⟨fuel', hfuel'⟩ := @ih (s.advance 2) (fuel - 1) (by omega) hnext
    refine ⟨fuel', ?_⟩
    rw [head?_iterate_advance (run_quotedRun_escape h) Nat.two_pos hlength (by omega), hfuel',
      State.advance_advance, Nat.add_comm]
    rfl
  | @plain c cs hquote hslash _ ih =>
    have hnext : (s.advance 1).rest = cs ++ after := by rw [State.rest_advance, h]; rfl
    have hlength : 1 ≤ s.rest.length := by rw [h]; exact Nat.le_add_left 1 _
    simp only [List.length_cons] at hfuel
    obtain ⟨fuel', hfuel'⟩ := @ih (s.advance 1) (fuel - 1) (by omega) hnext
    refine ⟨fuel', ?_⟩
    rw [head?_iterate_advance (run_quotedRun_plain h hquote hslash) Nat.one_pos hlength (by omega),
      hfuel', State.advance_advance, Nat.add_comm]
    rfl

/-- The inside is read up to the closing quote, or further. -/
theorem head?_run_quotedRun (hinner : Quoted inner) (h : s.rest = inner ++ after) :
    ∃ u, ((quotedRun '"').star.run s).head? = some u ∧ s.pos + inner.length ≤ u.pos ∧
      (u.pos = s.pos + inner.length → u.rest = after) := by
  have hlength : inner.length ≤ s.rest.length := by
    rw [h, List.length_append]
    exact Nat.le_add_right _ _
  obtain ⟨fuel, hfuel⟩ := head?_iterate_quotedRun hinner hlength h
  have hne : iterate .greedy (quotedRun '"').run fuel 0 none (s.advance inner.length) ≠ [] :=
    List.ne_nil_of_mem (self_mem_iterate _ _ _ _ _)
  obtain ⟨u, us, hus⟩ := List.exists_cons_of_ne_nil hne
  have hreads : (s.advance inner.length).Reads u :=
    reads_iterate (fun v w hw => Rx.reads_run _ v w hw) _ _ _ _ _ (hus ▸ List.mem_cons_self)
  obtain ⟨read, hread, hpos⟩ := hreads
  rw [State.pos_advance_append h] at hpos
  rw [State.rest_advance_append h] at hread
  refine ⟨u, ?_, by omega, fun heq => ?_⟩
  · rw [Rx.star, Rx.run_rep, if_neg (by decide), hfuel, hus]
    rfl
  · rw [hread, List.length_eq_zero_iff.mp (show read.length = 0 by omega)]
    rfl

/-- The first match of a double-quoted value reaches its closing quote. -/
theorem head?_run_assignedValues (hinner : Quoted inner) (h : s.rest = '"' :: (inner ++ '"' :: after)) :
    ∃ t, ((alts assignedValues).run s).head? = some t ∧ s.pos + inner.length + 2 ≤ t.pos := by
  have hopen := run_chr h
  have hnext : (s.advance 1).rest = inner ++ '"' :: after := by rw [State.rest_advance, h]; rfl
  have hpos : (s.advance 1).pos = s.pos + 1 :=
    State.pos_advance (by rw [h]; exact Nat.succ_le_succ (Nat.zero_le _))
  obtain ⟨u, hu, hle, hclose⟩ := head?_run_quotedRun hinner hnext
  have hopt : (chr '"').opt.run u ≠ [] :=
    List.ne_nil_of_mem (Rx.self_mem_run_rep (by decide) (some 1) (chr '"') u)
  obtain ⟨t, ts, hts⟩ := List.exists_cons_of_ne_nil hopt
  have hhead : ((seqs [chr '"', (quotedRun '"').star, (chr '"').opt]).run s).head? = some t := by
    change ((Rx.seq (chr '"') (.seq (quotedRun '"').star (chr '"').opt)).run s).head? = _
    rw [Rx.run_seq_of_singleton hopen, Rx.head?_run_seq_of_head? hu hopt, hts]
    rfl
  refine ⟨t, ?_, ?_⟩
  · change ((seqs [chr '"', (quotedRun '"').star, (chr '"').opt]).run s ++ _).head? = _
    rw [List.head?_append, hhead]
    rfl
  · obtain ⟨read, _, hread⟩ := Rx.reads_run _ u t (hts ▸ List.mem_cons_self)
    by_cases hexact : u.pos = (s.advance 1).pos + inner.length
    · have hquote := hclose hexact
      have hupTo : (CharSet.one '"').upTo (some 1) u = 1 := by
        have hreach := @CharSet.reach_append (.one '"') u ['"'] after hquote
          (fun c hc => mem_one.mpr (List.mem_singleton.mp hc))
        rw [CharSet.upTo, hreach]
        exact Nat.min_eq_left (Nat.le_add_right 1 _)
      have hlast := @head?_run_rep_set (.one '"') u 0 (some 1) .greedy (by decide) (Nat.zero_le _)
      have heq : t = u.advance 1 := by
        rw [hupTo] at hlast
        exact Option.some.inj ((congrArg List.head? hts).symm.trans hlast)
      rw [heq, State.pos_advance (by rw [hquote]; exact Nat.succ_le_succ (Nat.zero_le _))]
      omega
    · omega

end

/-! ## The key -/

/-- A secret key, a mark and a double-quoted value. The key is a run over the pattern's own class,
which is taken without regard to case. -/
structure QuotedAssignment where
  key : Text
  blanksBefore : Text
  mark : Char
  blanksAfter : Text
  inner : Text
  key_mem : ∀ c ∈ key, keyChars.ignoreCase.mem c = true
  key_secret : ∃ a f z, key = a ++ (f ++ z) ∧ secretKeyFragment.ignoreCase.fullmatch f = true
  blanksBefore_mem : ∀ c ∈ blanksBefore, c ∈ [' ', '\t']
  mark_mem : mark ∈ assignmentMarks
  blanksAfter_mem : ∀ c ∈ blanksAfter, c ∈ [' ', '\t']
  quoted : Quoted inner

namespace QuotedAssignment

def keyPart (q : QuotedAssignment) : Text := q.key ++ q.blanksBefore ++ q.mark :: q.blanksAfter

def value (q : QuotedAssignment) : Text := '"' :: (q.inner ++ ['"'])

def text (q : QuotedAssignment) : Text := q.keyPart ++ q.value

variable (q : QuotedAssignment) {s t : State} {after : Text}

theorem text_append (after : Text) : q.text ++ after = (q.key ++ q.blanksBefore) ++
    q.mark :: (q.blanksAfter ++ '"' :: (q.inner ++ '"' :: after)) := by
  simp [text, keyPart, value]

theorem length_text : q.text.length =
    (q.key ++ q.blanksBefore).length + 1 + q.blanksAfter.length + q.inner.length + 2 := by
  simp only [text, keyPart, value, List.length_append, List.length_cons, List.length_nil]
  omega

def stopChars : CharSet := ⟨false, spaceRanges ++ [(':', ':'), ('=', '=')]⟩

theorem stopChars_of_space {c : Char} (h : spaceChars.mem c = true) : stopChars.mem c = true :=
  CharSet.mem_of_subset rfl rfl (List.subset_append_left _ _) h

theorem stopChars_of_mark {c : Char} (h : c ∈ assignmentMarks) : stopChars.mem c = true := by
  simp only [assignmentMarks, List.mem_cons, List.not_mem_nil, or_false] at h
  rcases h with rfl | rfl <;> rfl

theorem not_spaceChars_of_mark {c : Char} (h : c ∈ assignmentMarks) : spaceChars.mem c = false := by
  simp only [assignmentMarks, List.mem_cons, List.not_mem_nil, or_false] at h
  rcases h with rfl | rfl <;> rfl

theorem spaceChars_of_blank {c : Char} (h : c ∈ [' ', '\t']) : spaceChars.mem c = true := by
  simp only [List.mem_cons, List.not_mem_nil, or_false] at h
  rcases h with rfl | rfl <;> rfl

theorem stopChars_of_key {c : Char} (h : keyChars.ignoreCase.mem c = true) :
    stopChars.mem c = false :=
  CharSet.mem_eq_false_of_disjoint rfl h

theorem keyedAt (h : s.rest = q.text ++ after) : KeyedAt s (q.key ++ q.blanksBefore) q.mark
    q.blanksAfter '"' (q.inner ++ '"' :: after) where
  rest := h.trans (q.text_append after)
  key c hc hmark := by
    rcases List.mem_append.mp hc with hc | hc
    · have hstop := stopChars_of_mark hmark
      rw [stopChars_of_key (q.key_mem c hc)] at hstop
      cases hstop
    · have hblank := q.blanksBefore_mem c hc
      simp only [assignmentMarks, List.mem_cons, List.not_mem_nil, or_false] at hblank hmark
      rcases hblank with rfl | rfl <;> simp at hmark
  mark := q.mark_mem
  blanks c hc := spaceChars_of_blank (q.blanksAfter_mem c hc)
  first := rfl

theorem exists_stop (h : s.rest = q.text ++ after) :
    ∃ y ys, stopChars.mem y = true ∧ s.rest = q.key ++ y :: ys := by
  rw [h, q.text_append, List.append_assoc]
  cases hblanks : q.blanksBefore with
  | nil => exact ⟨q.mark, _, stopChars_of_mark q.mark_mem, rfl⟩
  | cons c cs =>
    have hc := q.blanksBefore_mem c (hblanks ▸ List.mem_cons_self)
    exact ⟨c, _, stopChars_of_space (spaceChars_of_blank hc), rfl⟩

/-- The key is what stands in front of the first space or mark. -/
theorem key_eq (h : s.rest = q.text ++ after) {w more : Text} {x : Char}
    (hrest : s.rest = w ++ x :: more) (hw : ∀ c ∈ w, stopChars.mem c = false)
    (hx : stopChars.mem x = true) : q.key = w := by
  have htake : ∀ {as bs : Text} {b : Char}, (∀ a ∈ as, stopChars.mem a = false) →
      stopChars.mem b = true → (as ++ b :: bs).takeWhile (fun c => !stopChars.mem c) = as := by
    intro as bs b has hb
    rw [List.takeWhile_append_of_pos (by simpa using has),
      List.takeWhile_cons_of_neg (by simp [hb]), List.append_nil]
  obtain ⟨y, ys, hy, hys⟩ := q.exists_stop h
  have hkey := @htake q.key ys y (fun c hc => stopChars_of_key (q.key_mem c hc)) hy
  rw [← hys, hrest, htake hw hx] at hkey
  exact hkey.symm

def isDistinctive (c : Char) : Bool :=
  c ∉ ['-', 'B', 'E', 'G', 'I', 'N', 'A', 'R', 'b', 'e', 'a', 'r']

theorem countP_key_pos : 0 < q.key.countP isDistinctive := by
  obtain ⟨a, f, z, hkey, hf⟩ := q.key_secret
  obtain ⟨t, ht, _⟩ := List.any_eq_true.mp hf
  have hneeds := Rx.needs_le_countP isDistinctive _ _ (List.ne_nil_of_mem ht)
  have hone : 1 ≤ secretKeyFragment.ignoreCase.needs isDistinctive := by decide +kernel
  have hcount : q.key.countP isDistinctive =
      a.countP isDistinctive + (f.countP isDistinctive + z.countP isDistinctive) := by
    rw [hkey, List.countP_append, List.countP_append]
  have hfragment : secretKeyFragment.ignoreCase.needs isDistinctive ≤ f.countP isDistinctive := hneeds
  omega

theorem key_ne_nil : q.key ≠ [] := by
  intro hkey
  have hpos := q.countP_key_pos
  rw [hkey] at hpos
  cases hpos

theorem not_begin (h : s.rest = q.text ++ after) : ¬ "-----BEGIN ".toList <+: s.rest := by
  rintro ⟨more, hmore⟩
  have houtside : ['-', '-', '-', '-', '-', 'B', 'E', 'G', 'I', 'N'].all
      (fun c => !stopChars.mem c) = true := rfl
  have hkey := @key_eq q s after h ['-', '-', '-', '-', '-', 'B', 'E', 'G', 'I', 'N'] more ' '
    hmore.symm (fun c hc => by simpa using List.all_eq_true.mp houtside c hc) rfl
  have hcount := q.countP_key_pos
  rw [hkey] at hcount
  exact absurd hcount (by decide)

/-! ## Authorization headers -/

theorem mem_of_spells {cs : List CharSet} {xs : Text} {p : Char → Prop} (h : Spells cs xs)
    (hcs : ∀ c ∈ cs, ∀ x, c.mem x = true → p x) : ∀ x ∈ xs, p x := by
  induction h with
  | nil => simp
  | @cons c x cs xs hx _ ih =>
    intro y hy
    rcases List.mem_cons.mp hy with rfl | hy
    · exact hcs c List.mem_cons_self y hx
    · exact ih (fun c hc => hcs c (List.mem_cons_of_mem _ hc)) y hy

def anyCase (w : String) : List CharSet := w.toList.map (fun c => (CharSet.one c).ignoreCase)

/-- A word in front of a space or a mark is the whole key. -/
theorem spells_key {w : String} (hw : (anyCase w).all (fun c => c.disjoint stopChars) = true)
    (h : s.rest = q.text ++ after) {u : State} (hu : u ∈ (lit w).ignoreCase.run s) {x : Char}
    {more : Text} (hrest : u.rest = x :: more) (hx : stopChars.mem x = true) :
    Spells (anyCase w) q.key := by
  rw [ignoreCase_lit] at hu
  obtain ⟨xs, ys, hspells, hxs, rfl⟩ := of_mem_run_word hu
  rw [hspells.length_eq, State.rest_advance_append hxs] at hrest
  rw [hrest] at hxs
  have houtside : ∀ c ∈ xs, stopChars.mem c = false :=
    mem_of_spells hspells (fun c hc y hy =>
      CharSet.mem_eq_false_of_disjoint (List.all_eq_true.mp hw c hc) hy)
  rw [q.key_eq h hxs houtside hx]
  exact hspells

theorem spells_key_of_authorizationRe {word : Char → Bool} (h : s.rest = q.text ++ after)
    (ht : t ∈ (authorizationRe word).run s) :
    Spells (anyCase "authorization") q.key ∨ Spells (anyCase "bearer") q.key := by
  have hsplit := @Rx.run_seqs_append (authorizationHead word) (List.cons_ne_nil _ _)
    [.set (.oneOf assignmentMarks), space.star, notBreak.plusLazy,
      .ahead (.seq (chr '\r').opt .lineEnd)] (List.cons_ne_nil _ _) s
  rw [authorizationRe_eq, hsplit] at ht
  obtain ⟨u, hu, hut⟩ := List.mem_flatMap.mp ht
  obtain ⟨v, hv, _⟩ := List.mem_flatMap.mp hut
  obtain ⟨s', hs', hu⟩ := List.mem_flatMap.mp hu
  have hboundary : s' = s := by
    rw [Rx.run] at hs'
    split_ifs at hs' with hword
    · exact List.mem_singleton.mp hs'
    · cases hs'
  rw [hboundary] at hu
  obtain ⟨b, hb, hbu⟩ := List.mem_flatMap.mp hu
  -- what follows the word is a space or the mark
  obtain ⟨x, more, hrest, hx⟩ : ∃ x more, b.rest = x :: more ∧ stopChars.mem x = true := by
    obtain ⟨k, _, hk, rfl⟩ := mem_run_rep_set hbu
    cases hrest : b.rest with
    | nil =>
      have hnil : (b.advance k).rest = [] := by rw [State.rest_advance, hrest, List.drop_nil]
      rw [Rx.run_set_nil _ hnil] at hv
      cases hv
    | cons x more =>
      refine ⟨x, more, rfl, ?_⟩
      cases k with
      | zero =>
        have hzero : (b.advance 0).rest = x :: more := hrest
        rw [Rx.run_set_cons_eq _ hzero] at hv
        split_ifs at hv with hmark
        · exact stopChars_of_mark (mem_oneOf.mp hmark)
        · cases hv
      | succ k =>
        by_contra hnot
        have hspace : spaceChars.mem x ≠ true := fun hspace => hnot (stopChars_of_space hspace)
        have hreach : spaceChars.reach b = 0 := by
          rw [CharSet.reach, hrest, List.takeWhile_cons_of_neg hspace]
          rfl
        have hle : k + 1 ≤ spaceChars.reach b := hk
        omega
  rcases List.mem_append.mp hb with hb | hb
  · exact .inl (q.spells_key rfl h hb hrest hx)
  · exact .inr (q.spells_key rfl h hb hrest hx)

/-- A secret key is not `bearer`. -/
theorem spells_authorization {word : Char → Bool} (h : s.rest = q.text ++ after)
    (ht : t ∈ (authorizationRe word).run s) : Spells (anyCase "authorization") q.key := by
  rcases q.spells_key_of_authorizationRe h ht with hspells | hspells
  · exact hspells
  · have hnone : ∀ c ∈ q.key, isDistinctive c = false :=
      mem_of_spells hspells (fun c hc x hx => by
        have hwithin : ∀ c ∈ anyCase "bearer", c.within (fun x => !isDistinctive x) = true := by
          decide +kernel
        simpa using CharSet.of_mem_within (hwithin c hc) hx)
    have hpos := q.countP_key_pos
    rw [List.countP_eq_zero.mpr (fun c hc => by rw [hnone c hc]; exact Bool.false_ne_true)] at hpos
    exact absurd hpos (Nat.lt_irrefl 0)

theorem isBreak_keyPart : ∀ c ∈ q.keyPart, isBreak c = false := by
  have hblank : ∀ c ∈ [' ', '\t'], isBreak c = false := by simp [isBreak]
  intro c hc
  simp only [keyPart, List.mem_append, List.mem_cons] at hc
  rcases hc with (hc | hc) | rfl | hc
  · have hnot : c ∉ ['\r', '\n'] :=
      CharSet.not_mem_of_all rfl (q.key_mem c hc)
    simp only [List.mem_cons, List.not_mem_nil, or_false, not_or] at hnot
    simp [isBreak, hnot]
  · exact hblank c (q.blanksBefore_mem c hc)
  · have hmark := q.mark_mem
    simp only [assignmentMarks, List.mem_cons, List.not_mem_nil, or_false] at hmark
    rcases hmark with h | h <;> rw [h] <;> decide
  · exact hblank c (q.blanksAfter_mem c hc)

/-- An authorization header ends behind the first line of the value, or further. -/
theorem le_pos_of_authorizationRe {word : Char → Bool} (h : s.rest = q.text ++ after) {a z : Text}
    (hvalue : q.value = a ++ z) (ha : ∀ c ∈ a, isBreak c = false)
    (ht : t ∈ (authorizationRe word).run s) : s.pos + q.keyPart.length + a.length ≤ t.pos := by
  have hrest : s.rest = (q.keyPart ++ a) ++ (z ++ after) := by
    rw [h, text, hvalue]
    simp only [List.append_assoc]
  have hle := le_pos_of_all_isBreak (Rx.reads_run _ s t ht) hrest
    (fun c hc => (List.mem_append.mp hc).elim (q.isBreak_keyPart c) (ha c))
    (all_isBreak_of_mem_run_authorizationRe ht)
  rw [List.length_append] at hle
  omega

/-! ## The assignment -/

theorem run_secretKey_ahead (h : s.rest = q.key ++ after) :
    (Rx.ahead (seqs [quote.opt, (Rx.set keyChars).starLazy, secretKeyFragment]).ignoreCase).run s =
      [s] := by
  obtain ⟨a, f, z, hkey, hf⟩ := q.key_secret
  have hrest : s.rest = a ++ (f ++ (z ++ after)) := by
    rw [h, hkey]
    simp only [List.append_assoc]
  have hreach : a.length ≤ keyChars.ignoreCase.reach s := by
    rw [CharSet.reach_append hrest (fun c hc => q.key_mem c (hkey ▸ List.mem_append_left _ hc))]
    exact Nat.le_add_right _ _
  have hquote := Rx.self_mem_run_rep (m := .greedy) (by decide) (some 1) quote.ignoreCase s
  have hrun := @advance_mem_run_rep_set keyChars.ignoreCase s 0 .lazy (by decide) a.length
    (Nat.zero_le _) hreach
  have hfragment := Rx.run_ne_nil_of_fullmatch rfl hf (State.rest_advance_append hrest)
  have hne := Rx.run_seq_ne_nil hquote (Rx.run_seq_ne_nil hrun hfragment)
  rw [Rx.run, if_neg]
  rw [List.isEmpty_iff]
  exact hne

theorem advance_mem_run_secretKey {x : Char} (h : s.rest = q.key ++ x :: after)
    (hx : keyChars.ignoreCase.mem x = false) :
    s.advance q.key.length ∈ secretKey.ignoreCase.run s := by
  have hself : ∀ u, u ∈ quote.opt.ignoreCase.run u := fun u =>
    Rx.self_mem_run_rep (by decide) (some 1) quote.ignoreCase u
  have hrun := @run_rep_possessive_set keyChars.ignoreCase s 0 none (Nat.zero_le _)
  rw [CharSet.upTo, CharSet.reach_eq h q.key_mem hx] at hrun
  have hahead := q.run_secretKey_ahead h
  refine List.mem_flatMap.mpr ⟨s, hahead ▸ List.mem_singleton_self s, ?_⟩
  refine List.mem_flatMap.mpr ⟨s, hself s, ?_⟩
  exact List.mem_flatMap.mpr ⟨_, hrun ▸ List.mem_singleton_self _, hself _⟩

theorem run_secretAssignmentRe_ne_nil (h : s.rest = q.text ++ after)
    (hbehind : s.prev.any keyChars.ignoreCase.mem = false) : secretAssignmentRe.run s ≠ [] := by
  obtain ⟨x, more, hx, hmore⟩ := q.exists_stop h
  have hend : keyChars.ignoreCase.mem x = false := by
    rw [← Bool.not_eq_true]
    intro hkey
    rw [stopChars_of_key hkey] at hx
    cases hx
  have hkey := q.advance_mem_run_secretKey hmore hend
  have hmark : spaceChars.mem q.mark = false :=
    not_spaceChars_of_mark q.mark_mem
  have hkeyed := (q.keyedAt h).rest
  rw [List.append_assoc] at hkeyed
  have hblanks := State.rest_advance_append hkeyed
  have hbefore := run_spaces hblanks (fun c hc => spaceChars_of_blank (q.blanksBefore_mem c hc)) hmark
  have hsep := State.rest_advance_append hblanks
  have hset := Rx.run_set_cons_eq (.oneOf assignmentMarks) hsep
  rw [if_pos (mem_oneOf.mpr q.mark_mem)] at hset
  have hvalue : (State.advance _ 1).rest = q.blanksAfter ++ '"' :: (q.inner ++ '"' :: after) :=
    @State.rest_advance_append _ [q.mark] _ hsep
  have hafter := run_spaces hvalue (fun c hc => spaceChars_of_blank (q.blanksAfter_mem c hc))
    rfl
  obtain ⟨t, ht, _⟩ := head?_run_assignedValues q.quoted (State.rest_advance_append hvalue)
  have hassigned : (alts assignedValues).run _ ≠ [] := List.ne_nil_of_mem (List.mem_of_mem_head? ht)
  have hboundary : (Rx.notBehind keyChars.ignoreCase).run s = [s] := by
    rw [Rx.run, if_neg (by rw [hbehind]; exact Bool.false_ne_true)]
  have hself : s ∈ (Rx.opt (alts [.seq .lineStart blank.star,
      .seq (.set (.oneOf [',', '\x7b'])) space.star, .seq (chr '-') space.plus])).ignoreCase.run s :=
    Rx.self_mem_run_rep (by decide) (some 1) (Rx.ignoreCase _) s
  have hhead : _ ∈ (seqs assignmentHead).run s :=
    List.mem_flatMap.mpr ⟨s, hself, List.mem_flatMap.mpr ⟨s, hboundary ▸ List.mem_singleton_self s,
      List.mem_flatMap.mpr ⟨_, hkey, hbefore ▸ List.mem_singleton_self _⟩⟩⟩
  rw [run_secretAssignmentRe]
  exact Rx.run_seq_ne_nil hhead (Rx.run_seq_ne_nil (hset ▸ List.mem_singleton_self _)
    (Rx.run_seq_ne_nil (hafter ▸ List.mem_singleton_self _) hassigned))

theorem le_pos_of_secretAssignmentRe (h : s.rest = q.text ++ after)
    (ht : (secretAssignmentRe.run s).head? = some t) : s.pos + q.text.length ≤ t.pos := by
  obtain ⟨v, hrest, hpos, hhead⟩ := head?_run_secretAssignmentRe (q.keyedAt h) ht
  obtain ⟨u, hu, hle⟩ := head?_run_assignedValues q.quoted hrest
  have heq : t = u := Option.some.inj (hhead.symm.trans hu)
  rw [heq, q.length_text]
  omega

/-- The pattern matches at the key. A value of `authorization` is followed up to its first line break,
any other value to its end. -/
theorem head?_run_secretContentRe {word : Char → Bool} (h : s.rest = q.text ++ after)
    (hbehind : s.prev.any keyChars.ignoreCase.mem = false) {a z : Text} (hvalue : q.value = a ++ z)
    (ha : (lit "authorization").ignoreCase.fullmatch q.key = true → ∀ c ∈ a, isBreak c = false) :
    ∃ t, ((secretContentRe word).run s).head? = some t ∧
      s.pos + q.keyPart.length + a.length ≤ t.pos := by
  refine NetboxRpc.head?_run_secretContentRe (q.not_begin h)
    (run_secretBlockScalarRe_eq_nil (q.keyedAt h) (by decide)) (fun t ht => ?_) (fun t ht => ?_)
    (fun t ht => ?_) (.inl (q.run_secretAssignmentRe_ne_nil h hbehind))
  · refine q.le_pos_of_authorizationRe h hvalue (ha ?_) ht
    rw [ignoreCase_lit]
    exact fullmatch_word (q.spells_authorization h ht)
  · have hle := q.le_pos_of_secretAssignmentRe h ht
    have hlength := congrArg List.length hvalue
    rw [text, List.length_append] at hle
    rw [List.length_append] at hlength
    omega
  · rw [run_urlCredentialRe_eq_nil (q.keyedAt h) (by decide)] at ht
    cases ht

end QuotedAssignment

/-- No character of a double-quoted value of a secret key survives when other spans cover what is
behind the first line of a value of `authorization`, and what a match leaves of the value that starts
before the key and ends inside the value. -/
theorem quoted_secret_not_kept (word : Char → Bool) (before : Text) (q : QuotedAssignment)
    (after : Text) (hboundary : ∀ c ∈ before.getLast?, keyChars.ignoreCase.mem c = false)
    (hlines : (lit "authorization").ignoreCase.fullmatch q.key = true →
      ∀ a c z, q.value = a ++ c :: z → isBreak c = true →
        ∀ p < before.length + q.text.length, before.length + q.keyPart.length + a.length ≤ p →
          Covered word (before ++ q.text ++ after) p)
    (hbefore : ∀ m ∈ (secretContentRe word).finditer (before ++ q.text ++ after),
      m.start < before.length → before.length < m.stop →
        ∀ p < before.length + q.text.length, m.stop ≤ p →
          Covered word (before ++ q.text ++ after) p)
    (p : ℕ) (hp : before.length + q.keyPart.length ≤ p) (hpe : p < before.length + q.text.length) :
    ¬ Survives word (before ++ q.text ++ after) p := by
  rw [List.append_assoc] at hlines hbefore ⊢
  have hrest := State.rest_ofPos_append before (q.text ++ after)
  have hbehind := State.any_prev_ofPos_append hboundary (q.text ++ after)
  have hlength : q.text.length = q.keyPart.length + q.value.length := List.length_append
  have hpos : (State.ofPos (before ++ (q.text ++ after)) before.length).pos = before.length := rfl
  have hfirst : ∃ t, ((secretContentRe word).run (State.ofPos (before ++ (q.text ++ after))
      before.length)).head? = some t ∧ ∀ p < before.length + q.text.length, t.pos ≤ p →
        Covered word (before ++ (q.text ++ after)) p := by
    have hsplit := (List.takeWhile_append_dropWhile (p := fun c => !isBreak c) (l := q.value)).symm
    have hline : ∀ c ∈ q.value.takeWhile (fun c => !isBreak c), isBreak c = false := fun c hc => by
      simpa using List.mem_takeWhile_imp hc
    by_cases hkey : (lit "authorization").ignoreCase.fullmatch q.key = true
    · obtain ⟨t, ht, hreach⟩ := q.head?_run_secretContentRe hrest hbehind hsplit (fun _ => hline)
      refine ⟨t, ht, fun p hpe hstop => ?_⟩
      cases hafter : q.value.dropWhile (fun c => !isBreak c) with
      | nil =>
        have hwhole := congrArg List.length hsplit
        rw [hafter, List.append_nil] at hwhole
        omega
      | cons c z =>
        have hbreak : isBreak c = true := by
          have hhead := List.head_dropWhile_not (fun c => !isBreak c) (w := by rw [hafter]; simp)
          simpa [hafter] using hhead
        rw [hafter] at hsplit
        exact hlines hkey _ c z hsplit hbreak p hpe (by omega)
    · obtain ⟨t, ht, hreach⟩ := q.head?_run_secretContentRe hrest hbehind
        (List.append_nil q.value).symm (fun h => absurd h hkey)
      exact ⟨t, ht, fun p hpe hstop => by omega⟩
  obtain ⟨c, cs, hkey⟩ := List.exists_cons_of_ne_nil q.key_ne_nil
  have hinitial : (before ++ (q.text ++ after))[before.length]? = some c := by
    rw [List.getElem?_append_right le_rfl, Nat.sub_self, q.text_append, hkey]
    rfl
  have hmark : c ∉ [byteOrderMark] := CharSet.not_mem_of_all rfl
    (q.key_mem c (hkey ▸ List.mem_cons_self))
  have hquote : '"' ∈ before ++ (q.text ++ after) := by
    rw [q.text_append]
    simp
  exact not_survives (not_reference_of_mem hquote (by decide)) hinitial (by simpa using hmark)
    hfirst hbefore (by omega) hpe

def sampleAssignment (key inner : Text) (hkey : key.all keyChars.ignoreCase.mem = true)
    (hsecret : secretKeyFragment.ignoreCase.fullmatch key = true) (hinner : Quoted inner) :
    QuotedAssignment where
  key := key
  blanksBefore := []
  mark := '='
  blanksAfter := []
  inner := inner
  key_mem := List.all_eq_true.mp hkey
  key_secret := ⟨[], key, [], by simp, hsecret⟩
  blanksBefore_mem := by simp
  mark_mem := by decide
  blanksAfter_mem := by simp
  quoted := hinner

theorem quoted_twoLines : Quoted ['a', '\n', 'b'] :=
  .plain (by decide) (by decide) (.plain (by decide) (by decide) (.plain (by decide) (by decide) .nil))

def tokenAssignment : QuotedAssignment :=
  sampleAssignment ['t', 'o', 'k', 'e', 'n'] ['a', '\n', 'b'] (by decide +kernel) (by decide +kernel)
    quoted_twoLines

def authorizationAssignment : QuotedAssignment :=
  sampleAssignment ['a', 'u', 't', 'h', 'o', 'r', 'i', 'z', 'a', 't', 'i', 'o', 'n'] ['a', '\n', 'b']
    (by decide +kernel) (by decide +kernel) quoted_twoLines

/-- A value of `authorization` over two lines in a flow sequence, behind another header: the header ends
with the line, and the rule for flow context covers the whole value. -/
theorem quoted_secret_not_kept_flow :
    (∃ m ∈ (secretContentRe Char.isAlphanum).finditer ("[ bearer: ".toList ++
      authorizationAssignment.text ++ " ]".toList), m.start < 10 ∧ m.stop = 26) ∧
    ¬ Survives Char.isAlphanum ("[ bearer: ".toList ++ authorizationAssignment.text ++ " ]".toList)
      27 := by
  have hcovered : ∀ p < 29, 10 ≤ p → Covered Char.isAlphanum
      ("[ bearer: ".toList ++ authorizationAssignment.text ++ " ]".toList) p := by
    decide +kernel
  have hstop : "[ bearer: ".toList.length + authorizationAssignment.text.length = 29 := by decide
  have hstart : "[ bearer: ".toList.length = 10 := by decide
  refine ⟨by decide +kernel, quoted_secret_not_kept _ _ authorizationAssignment _ ?_ ?_ ?_ 27 ?_ ?_⟩
  · rintro c ⟨⟩
    decide
  · intro _ a c z _ _ p hp hle
    exact hcovered p (by omega) (by omega)
  · intro m _ _ hm p hp hle
    exact hcovered p (by omega) (by omega)
  · decide
  · decide

/-- A value of `authorization` over two lines is cut at its first line, and so is a value that an
authorization header on its first line reaches into. -/
theorem quoted_secret_kept_in_part :
    Survives Char.isAlphanum ([] ++ authorizationAssignment.text ++ []) 17 ∧
    Survives Char.isAlphanum (['b', 'e', 'a', 'r', 'e', 'r', ':', ' '] ++ tokenAssignment.text ++ [])
      17 := by
  decide +kernel

end NetboxRpc
