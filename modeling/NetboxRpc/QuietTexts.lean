import NetboxRpc.SensitiveTokens

/-!
# Quiet texts

The structural rules look at the original text, before the base redaction and the limit change it.
In the stored text they can find something new only where both a token and a mark are kept. A quiet
text is left unchanged, or keeps no token, or keeps no mark.
-/

namespace NetboxRpc

open Regex

/-! ## Texts that keep no token -/

def tokensCovered (spans : List Span) (text : Text) : Bool :=
  (List.range text.length).all fun i => (tokenWordRe.run (State.ofPos text i)).all fun t =>
    (List.range' i (t.pos - i)).any (covered spans)

theorem tokensMet_whole {ranges structural : List Span} {text : Text}
    (h : tokensCovered (ranges ++ structural) text = true) :
    TokensMet structural (Tracked.whole text) ranges := by
  intro i w hw htoken
  obtain ⟨t, ht, hend⟩ := List.any_eq_true.mp htoken
  obtain ⟨c, hc, _⟩ := exists_mem_of_isTokenWord htoken
  have hpos := List.length_pos_of_mem hc
  rw [List.length_map] at hpos
  have hrest : text.drop i = w.map Prod.fst ++ text.drop (i + w.length) := by
    have hsplit := Ranges.slice_append_drop (Tracked.whole text) (Nat.le_add_right i w.length)
    rw [hw] at hsplit
    have hmap := congrArg (List.map Prod.fst) hsplit
    rw [List.map_append, List.map_drop, List.map_drop, Tracked.map_fst_whole] at hmap
    exact hmap.symm
  have hlength := congrArg List.length hrest
  rw [List.length_drop, List.length_append, List.length_drop, List.length_map] at hlength
  obtain ⟨t', ht', hrest'⟩ := Rx.exists_run_of_read tokenWordRe_plain ht
    (show w.map Prod.fst = _ ++ t.rest by rw [List.isEmpty_iff.mp hend, List.append_nil])
    (show (State.ofPos text i).rest = _ ++ text.drop (i + w.length) from hrest)
  have htotal := (tokenWordRe.reads_run _ t' ht').pos_add_length
  rw [hrest', show (State.ofPos text i).rest = text.drop i from rfl, hrest, List.length_append,
    List.length_map] at htotal
  have hpos' : t'.pos = i + w.length := by
    have : (State.ofPos text i).pos = i := rfl
    omega
  obtain ⟨j, hj, hcov⟩ := List.any_eq_true.mp (List.all_eq_true.mp
    (List.all_eq_true.mp h i (List.mem_range.mpr (by omega))) t' ht')
  have hrange := List.mem_range'_1.mp hj
  obtain ⟨k, rfl⟩ := Nat.exists_eq_add_of_le hrange.1
  have hk : k < w.length := by omega
  have hget : (Tracked.whole text)[i + k]? = some w[k] := by
    rw [← List.getElem?_drop, ← Ranges.slice_append_drop _ (Nat.le_add_right i w.length), hw,
      List.getElem?_append_left hk, List.getElem?_eq_getElem hk]
  -- A character's source in the whole text is its place.
  rw [covered_iff, Ranges.covers_append] at hcov
  rcases hcov with hcov | hcov
  · exact .inr ⟨i + k, by omega, by omega, hcov⟩
  · refine .inl ⟨w[k], List.getElem_mem hk, ?_⟩
    rw [isMasked, Tracked.source_of_whole hget]
    exact (covered_iff _ _).mpr hcov

section

variable {word : Char → Bool} {limit : ℕ} {text current : Text} {pieces : List Piece}
  {structural : List Span}

theorem map_fst_redactedTrack (hfits : Fits current pieces) :
    (redactedTrack word current pieces).map Prod.fst = redactSecretSpans word current := by
  rw [redactedTrack, Ranges.map_replace, Tracked.map_fst_inserted, map_fst_track hfits,
    redactSecretSpans_eq_replace]

/-- A bound keeps the text up to the limit and writes no token after it. -/
theorem tokensMasked_bound {t next : Tracked Char} {low : ℕ}
    (h : TokensMasked structural t ∨ TokensMasked structural (t.take limit))
    (hfst : next.map Prod.fst = boundText limit (t.map Prod.fst))
    (hmost : ∀ k ≤ min (t.map Prod.fst).length (boundText limit (t.map Prod.fst)).length,
      (t.map Prod.fst).take k = (boundText limit (t.map Prod.fst)).take k → k ≤ low)
    (hnext : next = t.take low ++ Tracked.inserted ((boundText limit (t.map Prod.fst)).drop low)) :
    TokensMasked structural next := by
  by_cases hcut : limit < t.length
  · have hbound :
        boundText limit (t.map Prod.fst) = (t.map Prod.fst).take limit ++ truncationMarker := by
      rw [boundText, if_pos (by rwa [List.length_map])]
    have hlength : ((t.map Prod.fst).take limit).length = limit := by
      rw [List.length_take, List.length_map]
      omega
    have hlow : limit ≤ low := by
      refine hmost limit ?_ ?_
      · rw [hbound, List.length_append, hlength, List.length_map]
        omega
      · rw [hbound, List.take_left' hlength]
    have hmarker : (next.drop limit).map Prod.fst = truncationMarker := by
      rw [List.map_drop, hfst, hbound, List.drop_left' hlength]
    have hfirst : next.take limit = t.take limit := by
      rw [hnext, List.take_append_of_le_length (by rw [List.length_take]; omega), List.take_take,
        Nat.min_eq_left hlow]
    rw [← List.take_append_drop limit next, hfirst]
    rcases h with h | h
    · rw [← List.take_append_drop limit t] at h
      exact h.cut hmarker
    · rw [← List.append_nil (t.take limit)] at h
      exact h.cut hmarker
  · have hbound : boundText limit (t.map Prod.fst) = t.map Prod.fst := by
      rw [boundText, if_neg (by rwa [List.length_map])]
    have hlow := hmost t.length (by rw [hbound, List.length_map, Nat.min_self]) (by rw [hbound])
    rw [hbound, List.take_of_length_le hlow, List.drop_eq_nil_of_le (by rwa [List.length_map])] at hnext
    rw [List.take_of_length_le (by omega), or_self_iff] at h
    rw [hnext]
    exact (List.append_nil t).symm ▸ h

theorem tokensMasked_basePass (hfits : Fits current pieces)
    (h : TokensMasked structural (redactedTrack word current pieces) ∨
      TokensMasked structural ((redactedTrack word current pieces).take limit)) :
    TokensMasked structural (track (basePass word (boundText limit) current pieces).1
      (basePass word (boundText limit) current pieces).2) := by
  obtain ⟨hnext, low, hmost, htrack⟩ := @basePass_spec word (boundText limit) current pieces hfits
  have hpass := @basePass_fst word (boundText limit) current pieces
  have hfst := (map_fst_track hnext).trans hpass
  rw [← map_fst_redactedTrack hfits] at hmost hfst hpass
  rw [hpass] at hmost
  refine tokensMasked_bound h hfst hmost ?_
  rw [← hpass]
  exact htrack

/-- A text that a pass leaves alone holds no secret span. -/
theorem secretSpans_of_fixed (h : boundText limit (redactSecretSpans word current) = current) :
    secretSpans word current = [] := by
  by_contra hne
  have hlt := countP_redactSecretSpans_lt hne
  have hle : (boundText limit (redactSecretSpans word current)).countP isKeyMark ≤
      (redactSecretSpans word current).countP isKeyMark := by
    rw [boundText]
    split_ifs
    · rw [List.countP_append, show truncationMarker.countP isKeyMark = 0 by decide, Nat.add_zero]
      exact (List.take_sublist _ _).countP_le
    · exact Nat.le_refl _
  rw [h] at hle
  omega

theorem tokensMasked_of_fixed (hfits : Fits current pieces)
    (hfixed : boundText limit (redactSecretSpans word current) = current)
    (h : TokensMasked structural (redactedTrack word current pieces) ∨
      TokensMasked structural ((redactedTrack word current pieces).take limit)) :
    TokensMasked structural (track current pieces) := by
  have hnone := secretSpans_of_fixed hfixed
  rw [redactSecretSpans_of_nil hnone] at hfixed
  have hsame : redactedTrack word current pieces = track current pieces := by
    rw [redactedTrack, hnone]
    rfl
  have htext := map_fst_track hfits
  rw [hsame] at h
  refine @tokensMasked_bound _ _ _ _ current.length h (by rw [htext, hfixed]) ?_ ?_
  · rw [htext]
    omega
  · have hlength : (track current pieces).length = current.length := by
      rw [← htext, List.length_map, htext]
    rw [htext, hfixed, List.drop_length, ← hlength, List.take_length]
    exact (List.append_nil _).symm

theorem tokensMasked_baseLoop {passes : ℕ} {result : Text × List Piece}
    (hfits : Fits current pieces)
    (h : TokensMasked structural (redactedTrack word current pieces) ∨
      TokensMasked structural ((redactedTrack word current pieces).take limit))
    (hloop : baseLoop word (boundText limit) passes current pieces = some result) :
    TokensMasked structural (track result.1 result.2) := by
  induction passes generalizing current pieces with
  | zero => cases hloop
  | succ passes ih =>
    rw [baseLoop] at hloop
    split_ifs at hloop with hsame
    · cases hloop
      rw [basePass_fst] at hsame
      exact tokensMasked_of_fixed hfits hsame h
    · have hpass := tokensMasked_basePass hfits h
      refine ih (basePass_spec hfits).1 (.inl ?_) hloop
      exact (hpass.met _).replace
        (ordered_afterMarks _ (spansOf_secretSpans word _).ordered)

/-- Masking leaves no token. -/
theorem tokenFree_maskStructural (htracks : Tracks text current pieces) (hspans : InOrder structural)
    (h : TokensMasked structural (track current pieces)) :
    TokenFree (maskStructural current pieces structural) := by
  obtain ⟨groups, hgroups, hranges⟩ := exists_maskGroups htracks.fits htracks.positive
    htracks.sources_increasing hspans
  rw [← map_fst_maskedTrack htracks.fits]
  refine @TokensMasked.tokenFree structural _ ?_ (fun e he => ?_)
  · rw [maskedTrack, hranges]
    exact (h.met _).replace hgroups.ordered
  · rw [maskedTrack, hranges] at he
    rcases Ranges.mem_replace hgroups.ordered he with hin | ⟨j, _, hnot, hget⟩
    · obtain ⟨c, _, rfl⟩ := List.mem_map.mp hin
      rfl
    · by_contra hmasked
      exact hnot (hgroups.covers_of_isMasked hget (by simpa using hmasked))

theorem TokenFree.boundText (h : TokenFree text) (limit : ℕ) : TokenFree (boundText limit text) := by
  rw [NetboxRpc.boundText]
  split_ifs
  · rw [← Tracked.map_fst_inserted text, ← List.take_append_drop limit (Tracked.inserted text)] at h
    have hcut := (h.tokensMasked []).cut (Tracked.map_fst_inserted truncationMarker)
    have hfree := hcut.tokenFree (fun e _ => isMasked_nil e)
    rwa [List.map_append, List.map_take, Tracked.map_fst_inserted, Tracked.map_fst_inserted] at hfree
  · exact h

theorem tokenFree_baseFixedPoint {result : Text × List Piece} (h : TokenFree text)
    (hbase : baseFixedPoint word (boundText limit) text = some result) : TokenFree result.1 := by
  have hwhole := tracks_whole text
  rw [← map_fst_track hwhole.fits] at h
  have hmasked := @tokensMasked_baseLoop _ _ _ _ [] _ _ hwhole.fits
    (.inl (((h.tokensMasked []).met _).replace
      (ordered_afterMarks _ (spansOf_secretSpans word _).ordered))) hbase
  rw [← map_fst_track (tracks_baseFixedPoint hbase).fits]
  exact hmasked.tokenFree (fun e _ => isMasked_nil e)

theorem tokenFree_structuralStage (htracks : Tracks text current pieces) (hspans : InOrder structural)
    (h : TokensMasked structural (track current pieces)) :
    TokenFree (structuralStage word (boundText limit) structural current pieces) := by
  rw [structuralStage]
  split_ifs with hempty
  · rw [List.isEmpty_iff.mp hempty] at h
    rw [← map_fst_track htracks.fits]
    exact h.tokenFree (fun e _ => isMasked_nil e)
  · split
    · exact tokenFree_marker
    · next again hagain =>
      exact tokenFree_baseFixedPoint ((tokenFree_maskStructural htracks hspans h).boundText limit)
        hagain

theorem boundText_append {limit : ℕ} {kept rest : Text} (hkept : kept.length = limit)
    (hrest : rest ≠ []) : boundText limit (kept ++ rest) = kept ++ truncationMarker := by
  have hpos := List.length_pos_iff.mpr hrest
  rw [boundText, if_pos (by rw [List.length_append]; omega), List.take_left' hkept]

theorem boundText_of_le {limit : ℕ} {text : Text} (h : text.length ≤ limit) :
    boundText limit text = text := if_neg (Nat.not_lt.mpr h)

theorem structurallySettled_of_nil {bound : Text → Text} (h : sensitiveValueSpans text = []) :
    structurallySettled word bound text = true := by
  rw [structurallySettled, h, Bool.or_eq_true, beq_iff_eq]
  exact .inr rfl

/-- No token is kept of the text or, when no span is redacted, of what the limit leaves of it. -/
def keepsNoToken (word : Char → Bool) (limit : ℕ) (text : Text) : Bool :=
  let spans := secretSpans word text
  tokensCovered (spans.map (afterMarks text) ++ sensitiveValueSpans text)
    (if spans.isEmpty then text.take limit else text)

theorem tokensMasked_mergeSpans {t : Tracked Char} {spans : List Span}
    (hne : ∀ s ∈ spans, s.1 < s.2) (h : TokensMasked spans t) : TokensMasked (mergeSpans spans) t := by
  have hsame : ∀ e, isMasked spans e = true → isMasked (mergeSpans spans) e = true := by
    intro e he
    rw [isMasked, Option.any_eq_true] at he ⊢
    obtain ⟨j, hj, hcov⟩ := he
    exact ⟨j, hj, (covered_iff _ _).mpr ((covers_mergeSpans hne j).mpr ((covered_iff _ _).mp hcov))⟩
  exact fun w hw htoken => (h w hw htoken).imp fun e he => ⟨he.1, hsame e he.2⟩

theorem tokensMasked_first (h : keepsNoToken word limit text = true) :
    TokensMasked (mergeSpans (sensitiveValueSpans text))
        (redactedTrack word text (wholePieces text)) ∨
      TokensMasked (mergeSpans (sensitiveValueSpans text))
        ((redactedTrack word text (wholePieces text)).take limit) := by
  have hne : ∀ s ∈ sensitiveValueSpans text, s.1 < s.2 := fun _ => nonempty_sensitiveValueSpans
  have hspans := ordered_afterMarks text (spansOf_secretSpans word text).ordered
  rw [keepsNoToken] at h
  rw [redactedTrack, track_wholePieces]
  cases hempty : secretSpans word text with
  | nil =>
    rw [hempty] at h
    have hmasked := (@tokensMet_whole [] (sensitiveValueSpans text) (text.take limit) h).replace
      (Ranges.Ordered.nil 0)
    rw [Ranges.replace, List.drop_zero, Tracked.whole_take] at hmasked
    exact .inr (tokensMasked_mergeSpans hne hmasked)
  | cons span spans =>
    rw [hempty] at h hspans
    exact .inl (tokensMasked_mergeSpans hne ((tokensMet_whole h).replace hspans))

theorem tokenFree_redactBounded (href : nmsSecretReferenceRe.fullmatch text = false)
    (h : keepsNoToken word limit text = true) :
    TokenFree (redactBounded word (boundText limit) text) := by
  rw [redactBounded, href, if_neg Bool.false_ne_true]
  split
  · exact tokenFree_marker
  · next current pieces hbase =>
    have htracks := tracks_baseFixedPoint hbase
    refine tokenFree_structuralStage htracks (inOrder_structural text) ?_
    exact tokensMasked_baseLoop (tracks_whole text).fits (tokensMasked_first h) hbase

end

/-! ## Texts that keep no mark -/

structure Prose (text : Text) : Prop where
  marks : ∀ c ∈ text, isAssignment c = false ∧ isStructuralMark c = false
  dashes : text.countP (· == '-') < 10

instance (text : Text) : Decidable (Prose text) :=
  decidable_of_iff (text.all (fun c => !isAssignment c && !isStructuralMark c) = true ∧
      text.countP (· == '-') < 10)
    ⟨fun h => ⟨by simpa using h.1, h.2⟩, fun h => ⟨by simpa using h.marks, h.dashes⟩⟩

/-- Without its secret spans the text is prose, which leaves no mark for the structural rules. The
markers have to fit the limit, and a limit has to cut the text on a line without tokens, since the
bracket of the truncation marker is a mark. -/
def keepsNoMark (word : Char → Bool) (limit : ℕ) (text : Text) : Bool :=
  let spans := secretSpans word text
  decide (Prose (Ranges.replace [] text (spans.map (afterMarks text)) 0)) &&
    (sensitiveValueSpans text).isEmpty &&
    if spans.isEmpty then tokensCovered [] ((text.take limit).drop (lineStartBefore text limit))
    else decide (text.length + redactionMarker.length * spans.length ≤ limit)

theorem Prose.countP_eq_zero {text : Text} (h : Prose text) {q : Char → Bool}
    (hq : ∀ c, q c = true → isAssignment c = true ∨ isStructuralMark c = true) :
    text.countP q = 0 := by
  refine List.countP_eq_zero.mpr (fun c hc hqc => ?_)
  obtain ⟨hassign, hmark⟩ := h.marks c hc
  rcases hq c hqc with htrue | htrue
  · rw [hassign] at htrue
    cases htrue
  · rw [hmark] at htrue
    cases htrue

theorem tokenFree_of_tokensCovered {text : Text} (h : tokensCovered [] text = true) :
    TokenFree text := by
  have hmasked := (@tokensMet_whole [] [] text h).replace (Ranges.Ordered.nil 0)
  rw [Ranges.replace, List.drop_zero] at hmasked
  have hfree := hmasked.tokenFree (fun e _ => isMasked_nil e)
  rwa [Tracked.map_fst_whole] at hfree

theorem lineStartBefore_mono (text : Text) {j k : ℕ} (h : j ≤ k) :
    lineStartBefore text j ≤ lineStartBefore text k := by
  obtain ⟨zs, hzs⟩ : text.take j <+: text.take k := List.take_prefix_take_left h
  rw [lineStartBefore, lineStartBefore, ← hzs, List.reverse_append, List.length_append,
    List.takeWhile_append]
  have hle := (@List.takeWhile_sublist _ zs.reverse (fun c => c != '\n' && c != '\r')).length_le
  rw [List.length_reverse] at hle
  split_ifs
  · rw [List.length_append]
    omega
  · omega

section

variable {limit : ℕ} {text : Text}

theorem exists_of_mem_run_flowOpenerRe {s t : State} (ht : t ∈ flowOpenerRe.run s) :
    ∃ c after, s.rest = c :: after ∧ c ∈ ['{', '['] := by
  rcases List.mem_append.mp ht with ht | ht
  · obtain ⟨c, after, hrest, hc, _⟩ := Rx.of_mem_run_set ht
    exact ⟨c, after, hrest, by simp [mem_one.mp hc]⟩
  · obtain ⟨s₁, h₁, _⟩ := List.mem_flatMap.mp ht
    obtain ⟨c, after, hrest, hc, _⟩ := Rx.of_mem_run_set h₁
    exact ⟨c, after, hrest, by simp [mem_one.mp hc]⟩

/-- The flow rule looks from the line that holds the first opener on. -/
theorem flowTail_of_line {n : ℕ} (hopener : ∀ c ∈ text.take n, c ∉ ['{', '['])
    (htoken : ∀ k, lineStartBefore text n ≤ k → k ≤ text.length →
      flowSensitiveTokenRe.run (State.ofPos text k) = []) : flowTail text = [] := by
  rw [flowTail]
  split
  · rfl
  · next opener hfound =>
    have hstart : n ≤ opener.start := by
      rcases flowOpenerRe.search_spec (Nat.zero_le text.length) with
        ⟨m, hm, _, _, ⟨t, ht, _⟩, _⟩ | ⟨hnone, _⟩
      · rw [hm] at hfound
        cases hfound
        by_contra hlt
        obtain ⟨c, after, hrest, hc⟩ := exists_of_mem_run_flowOpenerRe (List.mem_of_head? ht)
        have hget : (text.take n)[opener.start]? = some c := by
          rw [List.getElem?_take_of_lt (Nat.lt_of_not_le hlt), ← List.head?_drop]
          exact congrArg List.head? hrest
        exact hopener c (List.mem_of_getElem? hget) hc
      · rw [hnone] at hfound
        cases hfound
    rcases flowSensitiveTokenRe.search_spec (lineStartBefore_le text opener.start) with
      ⟨m, _, hle, hm, ⟨t, ht, _⟩, _⟩ | ⟨hnone, _⟩
    · rw [htoken _ ((lineStartBefore_mono text hstart).trans hle) hm] at ht
      cases ht
    · rw [hnone]

/-- Cutting a text off behind position `n` writes no token into the rest of its line. -/
theorem TokenFree.cut_line {n : ℕ} (hn : n ≤ (text.take limit).length)
    (h : TokenFree ((text.take limit).drop n)) :
    TokenFree ((text.take limit ++ truncationMarker).drop n) := by
  rw [← Tracked.map_fst_inserted ((text.take limit).drop n),
    ← List.append_nil (Tracked.inserted ((text.take limit).drop n))] at h
  have hcut := (h.tokensMasked []).cut (Tracked.map_fst_inserted truncationMarker)
  have hfree := hcut.tokenFree (fun e _ => isMasked_nil e)
  rwa [List.map_append, Tracked.map_fst_inserted, Tracked.map_fst_inserted,
    ← List.drop_append_of_le_length hn] at hfree

theorem sensitiveValueSpans_of_absent (hcolon : ':' ∉ text) (hmark : '?' ∉ text)
    (hescape : '\\' ∉ text) (hflow : flowTail text = []) : sensitiveValueSpans text = [] := by
  refine sensitiveValueSpans_eq_nil ?_ hflow hescape
  refine Rx.finditer_eq_nil (S := fun c => c == ':' || c == '?') _ _ ?_
  rw [yamlSensitiveValueRe_needs, Nat.lt_one_iff, List.countP_eq_zero]
  intro c hc hor
  rcases Bool.or_eq_true_iff.mp hor with heq | heq
  · exact hcolon (beq_iff_eq.mp heq ▸ hc)
  · exact hmark (beq_iff_eq.mp heq ▸ hc)

/-- The limit cuts prose, and no rule finds anything in what is left. -/
theorem sensitiveValueSpans_cut {word : Char → Bool} (hprose : Prose text)
    (hline : tokensCovered [] ((text.take limit).drop (lineStartBefore text limit)) = true)
    (hcut : limit < text.length) :
    secretSpans word (boundText limit text) = [] ∧
      boundText limit (boundText limit text) = boundText limit text ∧
      sensitiveValueSpans (boundText limit text) = [] := by
  have hbound : boundText limit text = text.take limit ++ truncationMarker := if_pos hcut
  have hlength : (text.take limit).length = limit := by
    rw [List.length_take]
    omega
  have hcount : ∀ q : Char → Bool, truncationMarker.countP q = 0 →
      (boundText limit text).countP q ≤ text.countP q := by
    intro q hmarker
    rw [hbound, List.countP_append, hmarker]
    exact (List.take_sublist limit text).countP_le
  have habsent : ∀ c, isStructuralMark c = true → c ∉ truncationMarker → c ∉ boundText limit text := by
    intro c hc hmarker hmem
    rw [hbound, List.mem_append] at hmem
    rw [(hprose.marks c (List.mem_of_mem_take (hmem.resolve_right hmarker))).2] at hc
    cases hc
  refine ⟨?_, by rw [hbound, boundText_append hlength (by decide)], sensitiveValueSpans_of_absent
    (habsent _ (by decide) (by decide)) (habsent _ (by decide) (by decide))
    (habsent _ (by decide) (by decide)) ?_⟩
  · refine secretSpans_of_no_assignment (Nat.le_zero.mp ?_)
      (Nat.lt_of_le_of_lt (hcount _ (by decide)) hprose.dashes)
    rw [← hprose.countP_eq_zero (q := isAssignment) (fun _ => .inl)]
    exact hcount _ (by decide)
  · have hstart : lineStartBefore (boundText limit text) limit = lineStartBefore text limit := by
      rw [lineStartBefore, lineStartBefore, hbound, List.take_left' hlength]
    have hfree : TokenFree ((boundText limit text).drop (lineStartBefore text limit)) := by
      rw [hbound]
      exact (tokenFree_of_tokensCovered hline).cut_line (Nat.sub_le _ _)
    refine flowTail_of_line (n := limit) (fun c hc hopen => ?_) (fun k hk _ => ?_)
    · rw [hbound, List.take_left' hlength] at hc
      have hmark : isStructuralMark c = true := List.all_eq_true.mp (by decide) c hopen
      rw [(hprose.marks c (List.mem_of_mem_take hc)).2] at hmark
      cases hmark
    · rw [hstart] at hk
      exact hfree.nowhere_flowSensitiveTokenRe _ (List.drop_suffix_drop_left _ hk)

end

def Bracketed (text : Text) : Prop :=
  ∀ before after, text = before ++ '[' :: after → "REDACTED]".toList <+: after

theorem Bracketed.append {xs ys : Text} (hxs : Bracketed xs) (hys : Bracketed ys) :
    Bracketed (xs ++ ys) := by
  intro before after h
  rcases List.append_eq_append_iff.mp h with ⟨q, _, hrest⟩ | ⟨q, hfirst, hrest⟩
  · exact hys q after hrest
  · cases q with
    | nil => exact hys [] after hrest.symm
    | cons c q =>
      obtain ⟨rfl, rfl⟩ := List.cons.inj hrest
      exact (hxs before q hfirst).trans (List.prefix_append _ _)

theorem bracketed_of_not_mem {text : Text} (h : '[' ∉ text) : Bracketed text := by
  rintro before after rfl
  simp at h

theorem bracketed_marker : Bracketed redactionMarker := by
  intro before after h
  cases before with
  | nil => exact (List.cons.inj h).2 ▸ List.prefix_refl _
  | cons c before =>
    have htail : "REDACTED]".toList = before ++ '[' :: after := (List.cons.inj h).2
    have hmem : '[' ∈ "REDACTED]".toList := by
      rw [htail]
      simp
    exact absurd hmem (by decide)

theorem bracketed_replace {text : Text} {spans : List Span} {last : ℕ}
    (h : '[' ∉ Ranges.replace [] text spans last) :
    Bracketed (Ranges.replace redactionMarker text spans last) := by
  induction spans generalizing last with
  | nil => exact bracketed_of_not_mem h
  | cons s spans ih =>
    rw [Ranges.replace, List.append_nil, List.mem_append, not_or] at h
    exact ((bracketed_of_not_mem h.1).append bracketed_marker).append (ih h.2)

/-- The bracket of a redaction marker opens no flow collection. -/
theorem Bracketed.flowTail {text : Text} (h : Bracketed text) (hbrace : '{' ∉ text) :
    NetboxRpc.flowTail text = [] := by
  have hnone : flowOpenerRe.Nowhere text := by
    rintro s ⟨before, hs⟩
    refine List.append_eq_nil_iff.mpr ⟨?_, ?_⟩
    · by_contra hne
      obtain ⟨t, ht⟩ := List.exists_mem_of_ne_nil _ hne
      obtain ⟨c, after, hrest, hc, _⟩ := Rx.of_mem_run_set ht
      rw [mem_one.mp hc] at hrest
      exact hbrace (by simp [← hs, hrest])
    · refine List.flatMap_eq_nil_iff.mpr (fun t ht => ?_)
      obtain ⟨c, after, hrest, hc, rfl⟩ := Rx.of_mem_run_set ht
      rw [mem_one.mp hc] at hrest
      obtain ⟨more, hmore⟩ := h before after (by rw [← hs, hrest])
      rw [Rx.run, run_lit hmore.symm]
      rfl
  rw [NetboxRpc.flowTail, hnone.search (Nat.zero_le _)]

/-- Redacting the spans of such a text leaves prose and markers. -/
theorem sensitiveValueSpans_prose {word : Char → Bool} {text : Text}
    (hprose : Prose (Ranges.replace [] text ((secretSpans word text).map (afterMarks text)) 0)) :
    secretSpans word (redactSecretSpans word text) = [] ∧
      sensitiveValueSpans (redactSecretSpans word text) = [] := by
  have hspans := ordered_afterMarks text (spansOf_secretSpans word text).ordered
  rw [redactSecretSpans_eq_replace]
  generalize (secretSpans word text).map (afterMarks text) = spans at hprose hspans
  have hcount : ∀ q : Char → Bool, redactionMarker.countP q = 0 →
      (Ranges.replace redactionMarker text spans 0).countP q =
        (Ranges.replace [] text spans 0).countP q := by
    intro q hmarker
    have hmarked := Ranges.countP_replace hmarker text hspans
    have hempty := @Ranges.countP_replace _ q [] rfl text _ _ hspans
    omega
  have habsent : ∀ c, isStructuralMark c = true → c ∉ Ranges.replace [] text spans 0 := by
    intro c hc hmem
    rw [(hprose.marks c hmem).2] at hc
    cases hc
  have habsent' : ∀ c, isStructuralMark c = true → c ∉ redactionMarker →
      c ∉ Ranges.replace redactionMarker text spans 0 := fun c hc hmarker hmem =>
    (Ranges.mem_or_mem_replace hmem).elim hmarker (habsent c hc)
  refine ⟨secretSpans_of_no_assignment ?_ ?_, sensitiveValueSpans_of_absent
    (habsent' _ (by decide) (by decide)) (habsent' _ (by decide) (by decide))
    (habsent' _ (by decide) (by decide))
    ((bracketed_replace (habsent _ (by decide))).flowTail (habsent' _ (by decide) (by decide)))⟩
  · rw [hcount _ (by decide), hprose.countP_eq_zero (fun _ => .inl)]
  · rw [hcount _ (by decide)]
    exact hprose.dashes

section

variable {word : Char → Bool} {limit : ℕ} {text : Text} (h : keepsNoMark word limit text = true)

include h

theorem prose_of_keepsNoMark :
    Prose (Ranges.replace [] text ((secretSpans word text).map (afterMarks text)) 0) := by
  rw [keepsNoMark, Bool.and_eq_true, Bool.and_eq_true, decide_eq_true_eq] at h
  exact h.1.1

theorem sensitiveValueSpans_of_keepsNoMark : sensitiveValueSpans text = [] := by
  rw [keepsNoMark, Bool.and_eq_true, Bool.and_eq_true, List.isEmpty_iff] at h
  exact h.1.2

/-- The markers of such a text fit the limit. -/
theorem length_redactSecretSpans_le (hfits : text.length ≤ limit) :
    (redactSecretSpans word text).length ≤ limit := by
  have hlength := Ranges.length_replace_le redactionMarker text
    (ordered_afterMarks text (spansOf_secretSpans word text).ordered)
  rw [← redactSecretSpans_eq_replace, List.length_map, List.drop_zero] at hlength
  refine hlength.trans ?_
  have hroom := (Bool.and_eq_true_iff.mp h).2
  cases hspans : secretSpans word text with
  | nil => exact hfits
  | cons span spans =>
    rw [hspans] at hroom
    exact of_decide_eq_true hroom

theorem redactBounded_keepsNoMark (href : nmsSecretReferenceRe.fullmatch text = false)
    (hfits : text.length ≤ limit) {limit' : ℕ} (hle : limit ≤ limit') :
    redactBounded word (boundText limit') text = redactSecretSpans word text := by
  have hbound := boundText_of_le ((length_redactSecretSpans_le h hfits).trans hle)
  exact redactBounded_of_pass hbound (sensitiveValueSpans_prose (prose_of_keepsNoMark h)).1 hbound
    (sensitiveValueSpans_of_keepsNoMark h) href

theorem sensitiveValueSpans_keepsNoMark (href : nmsSecretReferenceRe.fullmatch text = false) :
    sensitiveValueSpans (redactBounded word (boundText limit) text) = [] := by
  have hprose := prose_of_keepsNoMark h
  have hroom := (Bool.and_eq_true_iff.mp h).2
  by_cases hfits : text.length ≤ limit
  · rw [redactBounded_keepsNoMark h href hfits (le_refl limit)]
    exact (sensitiveValueSpans_prose hprose).2
  cases hspans : secretSpans word text with
  | nil =>
    rw [hspans] at hprose hroom
    obtain ⟨hnone, hagain, hleft⟩ :=
      @sensitiveValueSpans_cut limit text word hprose hroom (Nat.lt_of_not_le hfits)
    rwa [redactBounded_of_pass (by rw [redactSecretSpans_of_nil hspans]) hnone hagain
      (sensitiveValueSpans_of_keepsNoMark h) href]
  | cons span spans =>
    rw [hspans] at hroom
    exact absurd ((Nat.le_add_right _ _).trans (of_decide_eq_true hroom)) hfits

end

/-! ## Quiet texts -/

/-- A whole reference, a text that fits the limit and in which no rule finds anything, or one of which
no token or no mark is kept. -/
def isQuiet (word : Char → Bool) (limit : ℕ) (text : Text) : Bool :=
  nmsSecretReferenceRe.fullmatch text ||
    (secretSpans word text).isEmpty && (sensitiveValueSpans text).isEmpty &&
      decide (text.length ≤ limit) ||
    keepsNoToken word limit text || keepsNoMark word limit text

theorem structurallySettled_of_isQuiet {word : Char → Bool} {limit : ℕ} {text : Text}
    (h : isQuiet word limit text = true) :
    structurallySettled word (boundText limit) (redactBounded word (boundText limit) text) = true := by
  cases href : nmsSecretReferenceRe.fullmatch text with
  | true => rw [redactBounded, if_pos href, structurallySettled, href, Bool.true_or]
  | false =>
    rw [isQuiet, href, Bool.false_or, Bool.or_eq_true, Bool.or_eq_true] at h
    refine structurallySettled_of_nil ?_
    rcases h with (h | h) | h
    · simp only [Bool.and_eq_true, List.isEmpty_iff, decide_eq_true_eq] at h
      obtain ⟨⟨hspans, hvalues⟩, hfits⟩ := h
      rwa [redactBounded_of_clean hspans hvalues (boundText_of_le hfits)]
    · exact (tokenFree_redactBounded href h).sensitiveValueSpans
    · exact sensitiveValueSpans_keepsNoMark h href

end NetboxRpc
