import NetboxRpc.SecretSurvival

/-!
# The alternatives of the base pattern

How the alternatives read from a position whose first assignment mark, and the value after it, are
known.
-/

namespace NetboxRpc

open Regex

def assignmentMarks : List Char := [':', '=']

def isBreak (c : Char) : Bool := c == '\r' || c == '\n'

def spaceChars : CharSet := ⟨false, spaceRanges⟩

/-- From a position the text has no assignment mark up to `mark`, and `first` is the first character
after it that is not a space. -/
structure KeyedAt (s : State) (key : Text) (mark : Char) (blanks : Text) (first : Char)
    (value : Text) : Prop where
  rest : s.rest = key ++ mark :: (blanks ++ first :: value)
  key : ∀ c ∈ key, c ∉ assignmentMarks
  mark : mark ∈ assignmentMarks
  blanks : ∀ c ∈ blanks, spaceChars.mem c = true
  first : spaceChars.mem first = false

section

variable {word : Char → Bool} {s t : State} {key blanks value : Text} {mark first : Char}

/-- An expression that reads no mark, in front of one that starts with a mark, stops at the first
one. -/
theorem KeyedAt.rest_eq (h : KeyedAt s key mark blanks first value) {r : Rx}
    (hr : r.avoids assignmentMarks = true) {u : State} (hu : u ∈ r.run s) {c : CharSet} {v : State}
    (hv : v ∈ (Rx.set c).run u) (hc : ∀ x, c.mem x = true → x ∈ assignmentMarks) :
    c.mem mark = true ∧ v.rest = blanks ++ first :: value ∧ v.pos = s.pos + key.length + 1 := by
  cases hrest : u.rest with
  | nil =>
    rw [Rx.run_set_nil c hrest] at hv
    cases hv
  | cons z zs =>
    rw [Rx.run_set_cons_eq c hrest] at hv
    split_ifs at hv with hz
    · have heq := (Rx.readsNone_run hr hu).rest_eq h.rest h.key h.mark hrest (hc z hz)
      have hpos := (Rx.reads_run r s u hu).pos_add_length
      rw [heq, h.rest, List.length_append] at hpos
      rw [List.mem_singleton.mp hv]
      refine ⟨?_, ?_, ?_⟩
      · rw [hrest] at heq
        exact (List.cons.inj heq).1 ▸ hz
      · rw [State.rest_advance, heq]
        rfl
      · rw [State.pos_advance (by rw [heq]; exact Nat.succ_le_succ (Nat.zero_le _))]
        omega
    · cases hv

/-! ## Key blocks and block scalars -/

theorem run_pemBlocks_eq_nil (h : ¬ "-----BEGIN ".toList <+: s.rest) :
    pemBlockRe.run s = [] ∧ openPemBlockRe.run s = [] := by
  have hlit : (lit "-----BEGIN ").run s = [] := by
    rw [List.eq_nil_iff_forall_not_mem]
    intro t ht
    obtain ⟨after, hafter, _⟩ := of_mem_run_lit ht
    exact h (hafter ▸ List.prefix_append _ _)
  constructor <;>
  · change ((lit "-----BEGIN ").run s).flatMap _ = []
    rw [hlit]
    rfl

def blockScalarHead : List Rx :=
  [atLineStart, .group "yaml_indent" blank.star, (Rx.seq (chr '-') blank.plus).star, secretKey,
    space.star]

theorem run_secretBlockScalarRe (s : State) : secretBlockScalarRe.run s =
    ((seqs blockScalarHead).run s).flatMap (seqs [chr ':', space.star, blockScalar]).run :=
  @Rx.run_seqs_append blockScalarHead (List.cons_ne_nil _ _) _ (List.cons_ne_nil _ _) s

theorem run_secretBlockScalarRe_eq_nil (h : KeyedAt s key mark blanks first value)
    (hfirst : first ∉ ['|', '>']) : secretBlockScalarRe.run s = [] := by
  rw [run_secretBlockScalarRe, List.flatMap_eq_nil_iff]
  intro u hu
  rw [List.eq_nil_iff_forall_not_mem]
  intro t ht
  obtain ⟨v, hv, hvt⟩ := List.mem_flatMap.mp ht
  obtain ⟨_, hrest, _⟩ := h.rest_eq rfl hu hv
    (fun x hx => by rw [mem_one.mp hx]; decide)
  obtain ⟨w, hw, hwt⟩ := List.mem_flatMap.mp hvt
  obtain ⟨k, _, hk, rfl⟩ := mem_run_rep_set hw
  have hreach : spaceChars.reach v = blanks.length := CharSet.reach_eq hrest h.blanks h.first
  replace hk : k ≤ blanks.length := hreach ▸ hk
  have hwrest : (v.advance k).rest = blanks.drop k ++ first :: value := by
    rw [State.rest_advance, hrest, List.drop_append_of_le_length hk]
  obtain ⟨x, hx, _⟩ := List.mem_flatMap.mp hwt
  have hhead : ∀ c cs, (v.advance k).rest = c :: cs → c ∉ ['|', '>'] →
      x ∉ (Rx.set (.oneOf ['|', '>'])).run (v.advance k) := by
    intro c cs hc hnot hmem
    rw [Rx.run_set_cons_eq _ hc, if_neg (fun hin => hnot (mem_oneOf.mp hin))] at hmem
    cases hmem
  cases hdrop : blanks.drop k with
  | nil => exact hhead first value (by rw [hwrest, hdrop]; rfl) hfirst hx
  | cons c cs =>
    refine hhead c (cs ++ first :: value) (by rw [hwrest, hdrop]; rfl) (fun hin => ?_) hx
    have hspace := h.blanks c (List.mem_of_mem_drop (hdrop ▸ List.mem_cons_self))
    simp only [List.mem_cons, List.not_mem_nil, or_false] at hin
    rcases hin with rfl | rfl
    · exact absurd hspace Bool.false_ne_true
    · exact absurd hspace Bool.false_ne_true

/-! ## Assignments -/

def assignmentHead : List Rx :=
  [(alts [.seq .lineStart blank.star, .seq (.set (.oneOf [',', '\x7b'])) space.star,
      .seq (chr '-') space.plus]).opt.ignoreCase,
    .notBehind keyChars.ignoreCase, secretKey.ignoreCase, space.starAtomic]

def assignedValues : List Rx :=
  [seqs [chr '"', (quotedRun '"').star, (chr '"').opt],
    seqs [chr '\'', (quotedRun '\'').star, (chr '\'').opt], notBreak.plus]

theorem secretAssignmentRe_eq : secretAssignmentRe = seqs (assignmentHead ++
    [.set (.oneOf assignmentMarks), space.starAtomic, alts assignedValues]) := by
  rw [secretAssignmentRe, ignoreCase_seqs]
  rfl

theorem run_secretAssignmentRe (s : State) : secretAssignmentRe.run s =
    ((seqs assignmentHead).run s).flatMap
      (seqs [.set (.oneOf assignmentMarks), space.starAtomic, alts assignedValues]).run := by
  rw [secretAssignmentRe_eq]
  exact @Rx.run_seqs_append assignmentHead (List.cons_ne_nil _ _) _ (List.cons_ne_nil _ _) s

theorem run_spaces {v : State} (h : v.rest = blanks ++ first :: value)
    (hblanks : ∀ c ∈ blanks, spaceChars.mem c = true) (hfirst : spaceChars.mem first = false) :
    space.starAtomic.run v = [v.advance blanks.length] := by
  have hrun := @run_rep_possessive_set spaceChars v 0 none (Nat.zero_le _)
  have hupTo : spaceChars.upTo none v = blanks.length := CharSet.reach_eq h hblanks hfirst
  rw [hupTo] at hrun
  exact hrun

/-- The first match of an assignment is the first match of its value. -/
theorem head?_run_secretAssignmentRe (h : KeyedAt s key mark blanks first value)
    (ht : (secretAssignmentRe.run s).head? = some t) :
    ∃ v : State, v.rest = first :: value ∧ v.pos = s.pos + key.length + 1 + blanks.length ∧
      ((alts assignedValues).run v).head? = some t := by
  rw [run_secretAssignmentRe] at ht
  obtain ⟨u, hu, hut⟩ := Rx.head?_run_seq ht
  obtain ⟨v, hv, hvt⟩ := Rx.head?_run_seq hut
  obtain ⟨_, hrest, hpos⟩ := h.rest_eq rfl hu hv (fun x hx => mem_oneOf.mp hx)
  have hspaces := run_spaces hrest h.blanks h.first
  refine ⟨v.advance blanks.length, State.rest_advance_append hrest, ?_, ?_⟩
  · rw [State.pos_advance_append hrest, hpos]
  · rw [← Rx.run_seq_of_singleton hspaces]
    exact hvt

theorem run_chr {c : Char} {cs : Text} (h : s.rest = c :: cs) : (chr c).run s = [s.advance 1] := by
  rw [chr, Rx.run_set_cons_eq _ h, if_pos (mem_one.mpr rfl)]

theorem run_chr_eq_nil {c d : Char} {cs : Text} (h : s.rest = d :: cs) (hne : d ≠ c) :
    (chr c).run s = [] := by
  rw [chr, Rx.run_set_cons_eq _ h, if_neg (fun hmem => hne (mem_one.mp hmem))]

/-- A value that is not quoted runs over its line. -/
theorem le_pos_of_bare_value {c : Char} {cs ys : Text} (h : s.rest = (c :: cs) ++ ys)
    (hquote : c ∉ ['"', '\'']) (hbreak : ∀ d ∈ c :: cs, isBreak d = false)
    (ht : ((alts assignedValues).run s).head? = some t) : s.pos + (c :: cs).length ≤ t.pos := by
  simp only [List.mem_cons, List.not_mem_nil, or_false, not_or] at hquote
  have hmem : ∀ d ∈ c :: cs, (CharSet.noneOf ['\r', '\n']).mem d = true := by
    intro d hd
    have hnot := hbreak d hd
    simp only [isBreak, Bool.or_eq_false_iff, beq_eq_false_iff_ne] at hnot
    exact mem_noneOf.mpr (by simp [hnot])
  have hreach : (c :: cs).length ≤ (CharSet.noneOf ['\r', '\n']).upTo none s := by
    rw [CharSet.upTo, CharSet.reach_append h hmem]
    exact Nat.le_add_right _ _
  have hruns : (alts assignedValues).run s = notBreak.plus.run s := by
    have hquoted : ∀ (q : Char) (r : Rx), c ≠ q → (Rx.seq (chr q) r).run s = [] := by
      intro q r hq
      rw [Rx.run, run_chr_eq_nil h hq]
      rfl
    change (Rx.seq (chr '"') _).run s ++ ((Rx.seq (chr '\'') _).run s ++ notBreak.plus.run s) = _
    rw [hquoted _ _ hquote.1, hquoted _ _ hquote.2]
    rfl
  have hhead := @head?_run_rep_set (.noneOf ['\r', '\n']) s 1 none .greedy (by decide)
    (Nat.le_trans (Nat.succ_le_succ (Nat.zero_le _)) hreach)
  rw [hruns] at ht
  have heq : t = s.advance ((CharSet.noneOf ['\r', '\n']).upTo none s) :=
    Option.some.inj (ht.symm.trans hhead)
  have hpos : (s.advance ((CharSet.noneOf ['\r', '\n']).upTo none s)).pos = s.pos + _ :=
    State.pos_advance (CharSet.reach_le _ _)
  rw [heq, hpos]
  exact Nat.add_le_add_left hreach _

/-! ## Authorization headers -/

def authorizationHead (word : Char → Bool) : List Rx :=
  [.wordBoundary word, (alts [lit "authorization", lit "bearer"]).ignoreCase, space.star]

theorem authorizationRe_eq (word : Char → Bool) : authorizationRe word =
    seqs (authorizationHead word ++ [.set (.oneOf assignmentMarks), space.star, notBreak.plusLazy,
      .ahead (.seq (chr '\r').opt .lineEnd)]) := by
  rw [authorizationRe, ignoreCase_seqs]
  rfl

/-- An authorization header runs to the end of a line. -/
theorem all_isBreak_of_mem_run_authorizationRe (ht : t ∈ (authorizationRe word).run s) :
    t.rest.head?.all isBreak = true := by
  have hsplit := @Rx.run_seqs_append (authorizationHead word ++ [.set (.oneOf assignmentMarks),
    space.star, notBreak.plusLazy]) (List.cons_ne_nil _ _) [.ahead (.seq (chr '\r').opt .lineEnd)]
    (List.cons_ne_nil _ _) s
  rw [authorizationRe_eq] at ht
  obtain ⟨u, _, hut⟩ := List.mem_flatMap.mp (hsplit ▸ ht)
  have hahead : t = u ∧ (Rx.seq (chr '\r').opt .lineEnd).run u ≠ [] := by
    change t ∈ (Rx.ahead _).run u at hut
    rw [Rx.run] at hut
    split_ifs at hut with hempty
    · cases hut
    · exact ⟨List.mem_singleton.mp hut, fun hnil => hempty (List.isEmpty_iff.mpr hnil)⟩
  obtain ⟨rfl, hline⟩ := hahead
  obtain ⟨w, hw⟩ := List.exists_mem_of_ne_nil _ hline
  obtain ⟨v, hv, hvw⟩ := List.mem_flatMap.mp hw
  obtain ⟨k, _, hk, rfl⟩ := mem_run_rep_set hv
  cases hrest : t.rest with
  | nil => rfl
  | cons c cs =>
    change isBreak c = true
    cases k with
    | zero =>
      change w ∈ Rx.lineEnd.run t at hvw
      rw [Rx.run] at hvw
      split_ifs at hvw with hend
      · rw [hrest] at hend
        rw [isBreak, show c = '\n' by simpa using hend]
        decide
      · cases hvw
    | succ k =>
      by_contra hc
      have hnot : (CharSet.one '\r').mem c ≠ true := by
        intro hmem
        rw [mem_one.mp hmem] at hc
        exact hc (by decide)
      rw [CharSet.reach, hrest, List.takeWhile_cons_of_neg hnot] at hk
      cases hk

/-- Reading up to the end of a line is reading past every character that is not a break. -/
theorem le_pos_of_all_isBreak {xs ys : Text} (hreads : s.Reads t) (hrest : s.rest = xs ++ ys)
    (hxs : ∀ c ∈ xs, isBreak c = false) (ht : t.rest.head?.all isBreak = true) :
    s.pos + xs.length ≤ t.pos := by
  obtain ⟨read, hread, hpos⟩ := hreads
  rw [hpos]
  by_contra hlt
  have hlength : read.length < xs.length := by omega
  have hdrop : t.rest = xs.drop read.length ++ ys := by
    rw [← List.drop_append_of_le_length hlength.le, ← hrest, hread, List.drop_left]
  rw [hdrop, List.drop_eq_getElem_cons hlength, List.cons_append, List.head?_cons] at ht
  have hbreak := hxs _ (List.getElem_mem hlength)
  rw [show isBreak xs[read.length] = true from ht] at hbreak
  cases hbreak

/-! ## Credentials in a URL -/

def schemeFirst : CharSet := CharSet.ignoreCase ⟨false, [('a', 'z')]⟩

def schemeChars : CharSet :=
  CharSet.ignoreCase ⟨false, [('a', 'z'), ('0', '9'), ('+', '+'), ('.', '.'), ('-', '-')]⟩

def schemeBehind : CharSet :=
  CharSet.ignoreCase
    ⟨false, [('A', 'Z'), ('a', 'z'), ('0', '9'), ('+', '+'), ('.', '.'), ('-', '-')]⟩

def userChars : CharSet := ⟨true, spaceRanges ++ [('/', '/'), (':', ':'), ('@', '@')]⟩

def passwordChars : CharSet := ⟨true, spaceRanges ++ [('/', '/'), ('@', '@')]⟩

def urlHead : List Rx := [.notBehind schemeBehind, .set schemeFirst, (Rx.set schemeChars).starAtomic]

def urlBody : List Rx := [lit "://", (Rx.set userChars).plus, chr ':', (Rx.set passwordChars).plus]

theorem urlCredentialRe_eq : urlCredentialRe = seqs (urlHead ++ (urlBody ++ [chr '@'])) := by
  rw [urlCredentialRe, ignoreCase_seqs]
  rfl

theorem run_urlCredentialRe_eq_nil (h : KeyedAt s key mark blanks first value)
    (hfirst : first ≠ '/') : urlCredentialRe.run s = [] := by
  have hsplit := @Rx.run_seqs_append urlHead (List.cons_ne_nil _ _) (urlBody ++ [chr '@'])
    (List.cons_ne_nil _ _) s
  rw [urlCredentialRe_eq, hsplit, List.flatMap_eq_nil_iff]
  intro u hu
  rw [List.eq_nil_iff_forall_not_mem]
  intro t ht
  obtain ⟨v, hv, _⟩ := List.mem_flatMap.mp ht
  obtain ⟨after, hafter, _⟩ := of_mem_run_lit hv
  have hmark := (Rx.readsNone_run rfl hu).rest_eq h.rest h.key h.mark hafter
    (by decide)
  have hslash : blanks ++ first :: value = '/' :: '/' :: after := by
    rw [hafter] at hmark
    exact (List.cons.inj hmark).2.symm
  cases hblanks : blanks with
  | nil =>
    rw [hblanks] at hslash
    exact hfirst (List.cons.inj hslash).1
  | cons c cs =>
    rw [hblanks] at hslash
    have hspace := h.blanks c (hblanks ▸ List.mem_cons_self)
    rw [(List.cons.inj hslash).1] at hspace
    exact absurd hspace Bool.false_ne_true

/-! ## All alternatives -/

/-- Where no key block and no block scalar starts, the first match reaches `e` as soon as those of
the other alternatives do. -/
theorem head?_run_secretContentRe {e : ℕ} (hpem : ¬ "-----BEGIN ".toList <+: s.rest)
    (hblock : secretBlockScalarRe.run s = []) (hauth : ∀ t ∈ (authorizationRe word).run s, e ≤ t.pos)
    (hassign : ∀ t, (secretAssignmentRe.run s).head? = some t → e ≤ t.pos)
    (hurl : ∀ t ∈ urlCredentialRe.run s, e ≤ t.pos)
    (hne : secretAssignmentRe.run s ≠ [] ∨ urlCredentialRe.run s ≠ []) :
    ∃ t, ((secretContentRe word).run s).head? = some t ∧ e ≤ t.pos := by
  obtain ⟨hclosed, hopen⟩ := run_pemBlocks_eq_nil hpem
  have hnil : ∀ {r : Rx} {t : State}, r.run s = [] → (r.run s).head? = some t → e ≤ t.pos := by
    intro r t hr ht
    rw [hr] at ht
    cases ht
  have hall : ∀ r ∈ [pemBlockRe, openPemBlockRe, secretBlockScalarRe, authorizationRe word,
      secretAssignmentRe, urlCredentialRe], ∀ t, (r.run s).head? = some t → e ≤ t.pos := by
    intro r hr t ht
    simp only [List.mem_cons, List.not_mem_nil, or_false] at hr
    rcases hr with rfl | rfl | rfl | rfl | rfl | rfl
    · exact hnil hclosed ht
    · exact hnil hopen ht
    · exact hnil hblock ht
    · exact hauth t (List.mem_of_mem_head? ht)
    · exact hassign t ht
    · exact hurl t (List.mem_of_mem_head? ht)
  rcases hne with hne | hne
  · exact Rx.head?_run_alts hall (by simp) hne
  · exact Rx.head?_run_alts hall (by simp) hne

end

end NetboxRpc
