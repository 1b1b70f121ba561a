import NetboxRpc.StructuralMasking
import NetboxRpc.RegexFirst

/-!
# What survives redaction

A character survives when the redacted text keeps it from its position in the original one. What
the first pass of the base patterns covers does not survive, whatever the later passes do.
-/

namespace NetboxRpc

open Regex

def Survives (word : Char → Bool) (text : Text) (p : ℕ) : Prop :=
  ∃ c, (c, p) ∈ Tracked.kept (redactTrack word id text)

instance (word : Char → Bool) (text : Text) (p : ℕ) : Decidable (Survives word text p) :=
  decidable_of_iff ((Tracked.kept (redactTrack word id text)).any (fun e => e.2 == p) = true)
    (by simp [Survives])

section

variable {word : Char → Bool} {text : Text}

/-! ## The first pass -/

theorem not_mem_kept_redactedTrack {s : Span} (hs : s ∈ secretSpans word text) {p : ℕ}
    (hstart : (afterMarks text s).1 ≤ p) (hstop : p < s.2) (c : Char) :
    (c, p) ∉ Tracked.kept (redactedTrack word text (wholePieces text)) := by
  intro hkept
  have hmem := Tracked.mem_kept_iff.mp hkept
  rw [redactedTrack, track_wholePieces] at hmem
  rcases Ranges.mem_replace (ordered_afterMarks text (spansOf_secretSpans word text).ordered) hmem with
    hin | ⟨i, _, hnot, hget⟩
  · have hinserted := Tracked.mem_kept_iff.mpr hin
    rw [Tracked.kept_inserted] at hinserted
    cases hinserted
  · rw [← Option.some.inj (Tracked.source_of_whole hget)] at hnot
    exact hnot ⟨afterMarks text s, List.mem_map_of_mem hs, hstart, hstop⟩

/-- A text with a secret span goes through its first pass. -/
theorem kept_baseFixedPoint (hne : secretSpans word text ≠ []) {result : Text × List Piece}
    (h : baseFixedPoint word id text = some result) :
    (Tracked.kept (track result.1 result.2)).Sublist
      (Tracked.kept (redactedTrack word text (wholePieces text))) := by
  have hchanged : (basePass word id text (wholePieces text)).1 ≠ text := by
    rw [basePass_fst]
    exact fun hsame => hne (redactSecretSpans_eq_self_iff.mp hsame)
  rw [baseFixedPoint, secretTextPasses, baseLoop, if_neg hchanged] at h
  have hwhole := tracks_whole text
  exact ((hwhole.basePass).baseLoop h).2.trans (kept_basePass hwhole.fits)

theorem kept_redactTrack (href : nmsSecretReferenceRe.fullmatch text = false)
    (hne : secretSpans word text ≠ []) :
    (Tracked.kept (redactTrack word id text)).Sublist
      (Tracked.kept (redactedTrack word text (wholePieces text))) := by
  rw [redactTrack, if_neg (by rw [href]; exact Bool.false_ne_true)]
  cases hbase : baseFixedPoint word id text with
  | none => simp
  | some result =>
    have hstage := @kept_structuralTrack word id text result.1 result.2 _
      (tracks_baseFixedPoint hbase) (inOrder_structural text)
    exact (hstage.trans List.filter_sublist).trans (kept_baseFixedPoint hne hbase)

/-! ## Matches and spans -/

theorem exists_span_of_match {m : Match} (hm : m ∈ (secretContentRe word).finditer text) :
    ∃ s ∈ secretSpans word text, s.1 ≤ m.start ∧ m.stop ≤ s.2 := by
  have hmem : matchSpan m ∈ ((secretContentRe word).finditer text).map matchSpan :=
    List.mem_map_of_mem hm
  rw [secretSpans_eq]
  split_ifs
  · exact ⟨matchSpan m, hmem, le_rfl, le_rfl⟩
  · have hbase := spansOf_finditer (advances_secretContentRe word) text
    have hheader := spansOf_finditer advances_yamlBlockScalarHeaderRe text
    refine (merges_mergeSpans (fun s hs => ?_)).within _ ((List.perm_insertionSort spanLe _).mem_iff.mpr
      (List.mem_append_left _ hmem))
    exact (List.mem_append.mp hs).elim (hbase.nonempty s) (hheader.nonempty s)

theorem length_takeWhile_le {α : Type} {p : α → Bool} {xs : List α} {i : ℕ} {x : α}
    (hx : xs[i]? = some x) (hp : p x = false) : (xs.takeWhile p).length ≤ i := by
  by_contra hlt
  obtain ⟨after, hafter⟩ := List.takeWhile_prefix (l := xs) p
  rw [← hafter, List.getElem?_append_left (Nat.not_le.mp hlt)] at hx
  have hmem := List.mem_takeWhile_imp (List.mem_of_getElem? hx)
  rw [hp] at hmem
  cases hmem

theorem afterMarks_le_of_char {s : Span} {q : ℕ} {c : Char} (hstart : s.1 ≤ q) (hstop : q < s.2)
    (hq : text[q]? = some c) (hc : c ≠ byteOrderMark) : (afterMarks text s).1 ≤ q := by
  have hget : (slice text s.1 s.2)[q - s.1]? = some c := by
    rw [slice, List.getElem?_drop, List.getElem?_take, if_pos (by omega),
      show s.1 + (q - s.1) = q by omega, hq]
  have hlength := length_takeWhile_le (p := (· == byteOrderMark)) hget (by simpa using hc)
  simp only [afterMarks]
  omega

/-- A text that no structural rule reads and in which the pattern matches somewhere is changed. -/
theorem containsSecretText_of_run (hmarks : text.countP isStructuralMark = 0) {k : ℕ}
    (hk : k ≤ text.length) (hrun : (secretContentRe word).run (State.ofPos text k) ≠ []) :
    containsSecretText word text = true := by
  have hmark : ∀ {c : Char}, isStructuralMark c = true → c ∉ text := fun hc hmem =>
    List.countP_eq_zero.mp hmarks _ hmem hc
  have href : nmsSecretReferenceRe.fullmatch text = false := by
    refine Rx.fullmatch_eq_false (S := (· == ':')) _ _ ?_
    rw [List.countP_eq_zero.mpr (fun c hc heq => hmark (by simp_all [isStructuralMark]) hc)]
    decide
  obtain ⟨t, ht⟩ := Option.isSome_iff_exists.mp (List.isSome_head?.mpr hrun)
  obtain ⟨m, hm, _⟩ := (Rx.scans_finditer (advances_secretContentRe word) text).found k
    (Nat.zero_le _) hk t ht
  obtain ⟨span, hspan, _⟩ := exists_span_of_match hm
  rw [containsSecretText, bne_iff_ne]
  intro hsame
  rw [redactSecretText, redactBounded, if_neg (by rw [href]; exact Bool.false_ne_true),
    sensitiveValueSpans_of_no_mark hmarks] at hsame
  cases hbase : baseFixedPoint word id text with
  | none =>
    rw [hbase] at hsame
    have htext : redactionMarker = text := hsame
    have hopens : '[' ∈ redactionMarker := by decide
    rw [htext] at hopens
    exact hmark (by decide) hopens
  | some result =>
    rw [hbase] at hsame
    have hcurrent : result.1 = text := hsame
    have hfixed : redactSecretSpans word result.1 = result.1 := baseFixed_of_baseLoop hbase
    rw [hcurrent] at hfixed
    exact List.ne_nil_of_mem hspan (redactSecretSpans_eq_self_iff.mp hfixed)

/-! ## What the spans of the original text cover -/

/-- A span that the base patterns redact in the text, or one of the structural rules, covers the
position; byte-order marks at the start of a span of the base patterns stay. -/
def Covered (word : Char → Bool) (text : Text) (p : ℕ) : Prop :=
  covered ((secretSpans word text).map (afterMarks text)) p = true ∨
    covered (sensitiveValueSpans text) p = true

instance (word : Char → Bool) (text : Text) (p : ℕ) : Decidable (Covered word text p) :=
  inferInstanceAs (Decidable (_ ∨ _))

theorem covered_of_match {m : Match} (hm : m ∈ (secretContentRe word).finditer text) {b p : ℕ}
    {c : Char} (hb : text[b]? = some c) (hc : c ≠ byteOrderMark) (hstart : m.start ≤ b)
    (hp : b ≤ p) (hpm : p < m.stop) : Covered word text p := by
  obtain ⟨s, hs, hs1, hs2⟩ := exists_span_of_match hm
  have hmarks := afterMarks_le_of_char (s := s) (by omega) (by omega) hb hc
  exact .inl ((covered_iff _ _).mpr
    ⟨afterMarks text s, List.mem_map_of_mem hs, hmarks.trans hp, hpm.trans_le hs2⟩)

theorem not_survives_of_covered (href : nmsSecretReferenceRe.fullmatch text = false) {p : ℕ}
    (h : Covered word text p) : ¬ Survives word text p := by
  rintro ⟨c, hkept⟩
  rcases h with hbase | hstructural
  · obtain ⟨r, hr, hstart, hstop⟩ := (covered_iff _ _).mp hbase
    obtain ⟨s, hs, rfl⟩ := List.mem_map.mp hr
    exact not_mem_kept_redactedTrack hs hstart hstop c
      ((kept_redactTrack href (List.ne_nil_of_mem hs)).subset hkept)
  · rw [redactTrack, if_neg (by rw [href]; exact Bool.false_ne_true)] at hkept
    cases hbase : baseFixedPoint word id text with
    | none =>
      rw [hbase] at hkept
      simp at hkept
    | some result =>
      rw [hbase] at hkept
      have hleft := (@kept_structuralTrack word id text result.1 result.2 _
        (tracks_baseFixedPoint hbase) (inOrder_structural text)).subset hkept
      have hmerged : covered (mergeSpans (sensitiveValueSpans text)) p = true := by
        rw [covered_iff, covers_mergeSpans fun _ => nonempty_sensitiveValueSpans, ← covered_iff]
        exact hstructural
      have hmasked := (List.mem_filter.mp hleft).2
      simp [hmerged] at hmasked

/-- A construct does not survive when the pattern matches at its start, and what a match leaves of it
that starts there, or before it and reaches into it, is covered. -/
theorem not_survives {b e : ℕ} {c : Char} (href : nmsSecretReferenceRe.fullmatch text = false)
    (hb : text[b]? = some c) (hc : c ≠ byteOrderMark)
    (hfirst : ∃ t, ((secretContentRe word).run (State.ofPos text b)).head? = some t ∧
      ∀ p < e, t.pos ≤ p → Covered word text p)
    (hbefore : ∀ m ∈ (secretContentRe word).finditer text, m.start < b → b < m.stop →
      ∀ p < e, m.stop ≤ p → Covered word text p)
    {p : ℕ} (hp : b ≤ p) (hpe : p < e) : ¬ Survives word text p := by
  obtain ⟨t, ht, hrest⟩ := hfirst
  have hlt : b < text.length := (List.getElem?_eq_some_iff.mp hb).1
  have hscan := Rx.scans_finditer (advances_secretContentRe word) text
  obtain ⟨m, hm, hcovers⟩ := hscan.found b (Nat.zero_le _) hlt.le t ht
  have hstart : m.start ≤ b := hcovers.elim (fun h => h.1.le) (fun h => h.1.le)
  refine not_survives_of_covered href ?_
  by_cases hpm : p < m.stop
  · exact covered_of_match hm hb hc hstart hp hpm
  · rcases hcovers with ⟨hstart, hstop⟩ | ⟨_, hstop⟩
    · exact hbefore m hm hstart hstop p hpe (by omega)
    · exact hrest p hpe (by omega)

end

end NetboxRpc
