import NetboxRpc.Redaction
import NetboxRpc.StructuralMasking

/-!
# Sensitive tokens

Every structural rule starts from a sensitive word, an escape or a question mark. No stage writes
one of these, so a text whose tokens all lie in secret spans is redacted into a text that the
structural rules leave alone.
-/

namespace NetboxRpc

open Regex

/-! ## Tokens -/

def tokenWordRe : Rx := alts [secretKeyFragment.ignoreCase, chr '\\', chr '?']

def isTokenWord (w : Text) : Bool := tokenWordRe.fullmatch w

/-- Nothing that a structural rule starts from. -/
def TokenFree (text : Text) : Prop := ∀ w, w <:+: text → isTokenWord w = false

theorem tokenWordRe_plain : tokenWordRe.plain = true := by decide +kernel

theorem isTokenWord_of_run {s t : State} {w : Text} (ht : t ∈ tokenWordRe.run s)
    (hw : s.rest = w ++ t.rest) : isTokenWord w = true := by
  obtain ⟨t', ht', hend⟩ := Rx.exists_run_of_read tokenWordRe_plain ht hw
    (show (State.init w).rest = w ++ [] from (List.append_nil w).symm)
  exact List.any_eq_true.mpr ⟨t', ht', List.isEmpty_iff.mpr hend⟩

theorem TokenFree.nowhere_tokenWordRe {text : Text} (h : TokenFree text) :
    tokenWordRe.Nowhere text := by
  intro s hs
  by_contra hne
  obtain ⟨t, ht⟩ := List.exists_mem_of_ne_nil _ hne
  obtain ⟨w, hw, _⟩ := tokenWordRe.reads_run s t ht
  have hinside : w <:+: text :=
    (hw ▸ (List.prefix_append w t.rest).isInfix : w <:+: s.rest).trans hs.isInfix
  have htoken := isTokenWord_of_run ht hw
  rw [h w hinside] at htoken
  cases htoken

def markerChars : Text := redactionMarker ++ truncationMarker

section

variable {w : Text} (h : isTokenWord w = true)

include h

theorem not_mem_of_isTokenWord : ∀ c ∈ w, c ∉ ['[', ']', '.'] :=
  Rx.not_mem_of_fullmatch (by decide +kernel) h

theorem exists_mem_of_isTokenWord : ∃ c ∈ w, c ∉ markerChars := by
  obtain ⟨t, ht, _⟩ := List.any_eq_true.mp h
  have hneeds := Rx.needs_le_countP (fun c => !markerChars.contains c) _ _ (List.ne_nil_of_mem ht)
  have hone : tokenWordRe.needs (fun c => !markerChars.contains c) = 1 := by decide +kernel
  rw [hone] at hneeds
  obtain ⟨c, hc, hout⟩ := List.countP_pos_iff.mp hneeds
  exact ⟨c, hc, by simpa using hout⟩

theorem not_infix_of_isTokenWord {letters : Text} (hletters : letters ⊆ markerChars) :
    ¬ w <:+: letters := by
  intro hinside
  obtain ⟨c, hc, hout⟩ := exists_mem_of_isTokenWord h
  exact hout (hletters (hinside.subset hc))

end

theorem tokenFree_marker : TokenFree redactionMarker := by
  intro w hw
  by_contra hne
  exact not_infix_of_isTokenWord (by simpa using hne) (List.subset_append_left _ _) hw

/-! ## Stages write no token -/

/-- Every token of a tracked text holds a character that the spans mask. -/
def TokensMasked (structural : List Span) (t : Tracked Char) : Prop :=
  ∀ w, w <:+: t → isTokenWord (w.map Prod.fst) = true → ∃ e ∈ w, isMasked structural e = true

def TokensMet (structural : List Span) (t : Tracked Char) (ranges : List Span) : Prop :=
  ∀ i w, Ranges.slice t i (i + w.length) = w → isTokenWord (w.map Prod.fst) = true →
    (∃ e ∈ w, isMasked structural e = true) ∨
      ∃ j, i ≤ j ∧ j < i + w.length ∧ Ranges.Covers ranges j

theorem isMasked_nil (e : Char × Option ℕ) : isMasked [] e = false := by
  rcases e with ⟨c, _ | j⟩ <;> rfl

section

variable {structural : List Span} {t : Tracked Char} {ranges : List Span}

theorem TokensMasked.met (h : TokensMasked structural t) (ranges : List Span) :
    TokensMet structural t ranges := by
  intro i w hw htoken
  refine .inl (h w ?_ htoken)
  rw [← hw, Ranges.slice]
  exact (List.drop_suffix i _).isInfix.trans (List.take_prefix _ t).isInfix

def insertedMarker : Tracked Char := Tracked.inserted redactionMarker

theorem insertedMarker_eq :
    insertedMarker = ('[', none) :: Tracked.inserted "REDACTED".toList ++ [(']', none)] := rfl

/-- Replacing ranges leaves no token that they meet and writes none. -/
theorem TokensMet.replace (h : TokensMet structural t ranges) (hranges : Ranges.Ordered 0 ranges) :
    TokensMasked structural (Ranges.replace insertedMarker t ranges 0) := by
  rintro w ⟨before, after, heq⟩ htoken
  have hout : ∀ c ∈ ['[', ']', '.'], (c, none) ∉ w := fun c hc hmem =>
    not_mem_of_isTokenWord htoken c (List.mem_map.mpr ⟨_, hmem, rfl⟩) hc
  have hne : w ≠ [] := by
    rintro rfl
    obtain ⟨c, hc, _⟩ := exists_mem_of_isTokenWord htoken
    cases hc
  rw [insertedMarker_eq] at heq
  rcases Ranges.infix_replace hranges hne (hout _ (by simp)) (hout _ (by simp)) heq.symm with
    hinside | ⟨i, _, hslice, hnone⟩
  · have hmap := hinside.map Prod.fst
    rw [Tracked.map_fst_inserted] at hmap
    exact absurd hmap (not_infix_of_isTokenWord htoken (by decide))
  · refine (h i w hslice htoken).resolve_right ?_
    rintro ⟨j, hj, hlt, hcov⟩
    exact hnone j hj hlt hcov

theorem TokenFree.tokensMasked (h : TokenFree (t.map Prod.fst)) (structural : List Span) :
    TokensMasked structural t := by
  intro w hw htoken
  rw [h _ (hw.map _)] at htoken
  cases htoken

theorem TokensMasked.tokenFree (h : TokensMasked structural t)
    (hnone : ∀ e ∈ t, isMasked structural e = false) : TokenFree (t.map Prod.fst) := by
  rintro w ⟨before, after, ht⟩
  obtain ⟨bw, a, hsplit, hbw, rfl⟩ := List.map_eq_append_iff.mp ht.symm
  obtain ⟨b, w, rfl, rfl, rfl⟩ := List.map_eq_append_iff.mp hbw
  by_contra hne
  obtain ⟨e, he, hmasked⟩ := h w ⟨b, a, hsplit.symm⟩ (by simpa using hne)
  rw [hnone e (by simp [hsplit, he])] at hmasked
  cases hmasked

theorem truncationMarker_eq : truncationMarker = '.' :: "..[truncated]".toList := by decide

/-- Cutting a text off with the truncation marker writes no token. -/
theorem TokensMasked.cut {p y z : Tracked Char} (h : TokensMasked structural (p ++ y))
    (hz : z.map Prod.fst = truncationMarker) : TokensMasked structural (p ++ z) := by
  rintro w ⟨before, after, heq⟩ htoken
  cases z with
  | nil => cases hz
  | cons e z =>
    obtain ⟨hdot, hrest⟩ := List.cons.inj (hz.trans truncationMarker_eq)
    have hout : e ∉ w := fun hmem =>
      not_mem_of_isTokenWord htoken e.1 (List.mem_map_of_mem hmem) (by simp [hdot])
    rcases Ranges.append_cons_eq_append heq.symm hout with ⟨q, hp, _⟩ | ⟨q, _, hmore⟩
    · exact h w ⟨before, q ++ y, by simp [hp]⟩ htoken
    · refine absurd ?_ (@not_infix_of_isTokenWord _ htoken "..[truncated]".toList (by decide))
      rw [← hrest, hmore]
      exact ⟨q.map Prod.fst, after.map Prod.fst, by simp⟩

end

/-! ## The rules on a text without tokens -/

theorem lineStartBefore_le (text : Text) (k : ℕ) : lineStartBefore text k ≤ text.length := by
  rw [lineStartBefore, List.length_take]
  omega

section

variable {text : Text} (h : TokenFree text)

include h

theorem TokenFree.nowhere_words :
    secretKeyFragment.ignoreCase.Nowhere text ∧ (chr '\\').Nowhere text ∧ (chr '?').Nowhere text := by
  have hrun : ∀ s : State, s.rest <:+ text → secretKeyFragment.ignoreCase.run s = [] ∧
      (chr '\\').run s = [] ∧ (chr '?').run s = [] := by
    intro s hs
    have hword := h.nowhere_tokenWordRe s hs
    rwa [tokenWordRe, Rx.run_alts (by simp), List.flatMap_cons, List.flatMap_cons,
      List.flatMap_cons, List.flatMap_nil, List.append_nil, List.append_eq_nil_iff,
      List.append_eq_nil_iff] at hword
  exact ⟨fun s hs => (hrun s hs).1, fun s hs => (hrun s hs).2.1, fun s hs => (hrun s hs).2.2⟩

theorem TokenFree.nowhere_flowSensitiveTokenRe : flowSensitiveTokenRe.Nowhere text := by
  obtain ⟨hfragment, hescape, hmark⟩ := h.nowhere_words
  exact hfragment.alt (hescape.alt (.seq_right _ (.seq_right _ (hmark.seq_left _))))

theorem TokenFree.nowhere_yamlSensitiveValueRe : yamlSensitiveValueRe.Nowhere text := by
  obtain ⟨hfragment, hescape, hmark⟩ := h.nowhere_words
  refine .seq_right _ (.seq_right _ (.seq_right _ (.seq_right _ (.seq_right _
    ((hmark.seq_left _).alt (.seq_left (.ahead ?_) _))))))
  exact .alt (.seq_right _ hfragment) (.alt (.seq_right _ (.seq_right _ hfragment))
    (.alt (.seq_right _ (.seq_right _ hfragment)) (.seq_right _ (.seq_right _ hescape))))

theorem TokenFree.sensitiveValueSpans : NetboxRpc.sensitiveValueSpans text = [] := by
  refine sensitiveValueSpans_eq_nil h.nowhere_yamlSensitiveValueRe.finditer ?_ ?_
  · rw [flowTail]
    split
    · rfl
    · rw [h.nowhere_flowSensitiveTokenRe.search (lineStartBefore_le text _)]
  · intro hmem
    obtain ⟨before, after, rfl⟩ := List.append_of_mem hmem
    have htoken := h ['\\'] ⟨before, after, by simp⟩
    exact absurd htoken (by decide +kernel)

end

end NetboxRpc
