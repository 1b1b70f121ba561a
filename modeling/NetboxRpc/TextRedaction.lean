import NetboxRpc.SecretPatterns
import Mathlib.Data.List.Sort
import Mathlib.Data.List.TakeWhile

/-!
# Redaction of persisted text

`redactBounded` is the text stage of the event ledger: secret spans are replaced and the text is
bounded until nothing changes, then the structural rules for sensitive YAML values mask what the
first stage kept. Positions of the original text are carried through the passes as pieces.
-/

namespace NetboxRpc

open Regex

abbrev Text := List Char

abbrev Span := ℕ × ℕ

def slice (text : Text) (start stop : ℕ) : Text := (text.take stop).drop start

def lineStartBefore (text : Text) (k : ℕ) : ℕ :=
  (text.take k).length - ((text.take k).reverse.takeWhile (fun c => c != '\n' && c != '\r')).length

def escapedKeyLineStartFrom (text : Text) : ℕ → ℕ → Option ℕ
  | 0, _ => none
  | fuel + 1, position =>
    match (text.drop position).findIdx? (· == '\\') with
    | none => none
    | some offset =>
      let backslash := position + offset
      let lineBreak := lineBreakRe.search text backslash
      let lineEnd := (lineBreak.map Match.start).getD text.length
      if (quotedKeyEndRe.search (text.take lineEnd) backslash).isSome then
        some (lineStartBefore text backslash)
      else match lineBreak with
        | none => none
        | some b => escapedKeyLineStartFrom text fuel b.stop

def escapedKeyLineStart (text : Text) : Option ℕ :=
  escapedKeyLineStartFrom text (text.length + 1) 0

def flowTail (text : Text) : List Span :=
  match flowOpenerRe.search text 0 with
  | none => []
  | some opener =>
    match flowSensitiveTokenRe.search text (lineStartBefore text opener.start) with
    | none => []
    | some token => [(token.start, text.length)]

def failClosedTails (text : Text) : List Span :=
  flowTail text ++ match escapedKeyLineStart text with
    | none => []
    | some escaped => [(escaped, text.length)]

def valueSpan (text : Text) (m : Match) : Option Span :=
  match ["explicit_tail", "tail", "region"].findSome?
      (fun name => m.groups.find? (fun g => g.1 == name)) with
  | none => none
  | some (_, start, body) =>
    let first := start + if "\r\n".toList.isPrefixOf (text.drop start) then 2 else 1
    if first < start + body.length then some (first, start + body.length) else none

def sensitiveValueSpans (text : Text) : List Span :=
  (yamlSensitiveValueRe.finditer text).filterMap (valueSpan text) ++
    (failClosedTails text).filter (fun s => s.1 < s.2)

def spanLe (a b : Span) : Prop := a.1 < b.1 ∨ a.1 = b.1 ∧ a.2 ≤ b.2

instance : DecidableRel spanLe := fun a b =>
  inferInstanceAs (Decidable (a.1 < b.1 ∨ a.1 = b.1 ∧ a.2 ≤ b.2))

def pushSpan (joins : ℕ → ℕ → Bool) (merged : List Span) (s : Span) : List Span :=
  match merged.getLast? with
  | some last =>
    if joins s.1 last.2 then merged.dropLast ++ [(last.1, max last.2 s.2)] else merged ++ [s]
  | none => [s]

def mergeSpans (spans : List Span) : List Span :=
  (spans.insertionSort spanLe).foldl (pushSpan (fun start stop => start < stop)) []

def secretSpans (word : Char → Bool) (text : Text) : List Span :=
  let spans := ((secretContentRe word).finditer text).map (fun m => (m.start, m.stop))
  let extra := (yamlBlockScalarHeaderRe.finditer text).map (fun m => (m.start, m.stop))
  if extra.isEmpty then spans else mergeSpans (spans ++ extra)

def redactionMarker : Text := "[REDACTED]".toList

/-- A length, and the index in the original text of the first character; `none` for inserted
characters. -/
abbrev Piece := ℕ × Option ℕ

structure PieceCursor where
  pieces : List Piece
  offset : ℕ

def takePieces (start stop : ℕ) : List Piece → ℕ → List Piece × PieceCursor
  | [], offset => ([], ⟨[], offset⟩)
  | (length, source) :: rest, offset =>
    let low := max start offset
    let high := min stop (offset + length)
    let here := if low < high then [(high - low, source.map (fun s => s + (low - offset)))] else []
    if stop < offset + length then (here, ⟨(length, source) :: rest, offset⟩)
    else
      let more := takePieces start stop rest (offset + length)
      (here ++ more.1, more.2)

def PieceCursor.take (c : PieceCursor) (start stop : ℕ) : List Piece × PieceCursor :=
  takePieces start stop c.pieces c.offset

def redactSpansFrom (text : Text) : List Span → ℕ → PieceCursor → Text × List Piece
  | [], last, cursor => (text.drop last, (cursor.take last text.length).1)
  | (start, stop) :: spans, last, cursor =>
    -- A header match consumes the byte-order marks at its line start; they stay.
    let marks := (slice text start stop).takeWhile (· == byteOrderMark)
    let before := cursor.take last (start + marks.length)
    let inside := before.2.take (start + marks.length) stop
    let more := redactSpansFrom text spans stop inside.2
    (slice text last start ++ marks ++ redactionMarker ++ more.1,
      before.1 ++ [(redactionMarker.length, none)] ++ more.2)

def redactSpansTracked (text : Text) (pieces : List Piece) (spans : List Span) :
    Text × List Piece :=
  redactSpansFrom text spans 0 ⟨pieces, 0⟩

def bisectPrefix (text bounded : Text) : ℕ → ℕ → ℕ → ℕ
  | 0, low, _ => low
  | fuel + 1, low, high =>
    if low < high then
      let middle := (low + high + 1) / 2
      if text.take middle = bounded.take middle then bisectPrefix text bounded fuel middle high
      else bisectPrefix text bounded fuel low (middle - 1)
    else low

def boundTracked (text : Text) (pieces : List Piece) (bounded : Text) : List Piece :=
  if bounded = text then pieces else
    let high := min text.length bounded.length
    let low := bisectPrefix text bounded (high + 1) 0 high
    ((PieceCursor.mk pieces 0).take 0 low).1 ++
      if low < bounded.length then [(bounded.length - low, none)] else []

/-- The part of a kept piece at `offset` that each structural span covers; `ahead` starts with the
first span that ends after the start of the piece. -/
def coveredRanges (ahead : List Span) (offset length source : ℕ) : List Span :=
  (ahead.takeWhile (fun s => s.1 < source + length)).map (fun s =>
    (offset + (max s.1 source - source), offset + (min s.2 (source + length) - source)))

def maskedRangesFrom : List Span → List Piece → ℕ → List Span
  | _, [], _ => []
  | structural, (length, none) :: pieces, offset =>
    maskedRangesFrom structural pieces (offset + length)
  | structural, (length, some source) :: pieces, offset =>
    let ahead := structural.dropWhile (fun s => s.2 ≤ source)
    coveredRanges ahead offset length source ++ maskedRangesFrom ahead pieces (offset + length)

def mergeTouching (ranges : List Span) : List Span :=
  ranges.foldl (pushSpan (fun start stop => start ≤ stop)) []

def insertedRangesFrom : List Piece → ℕ → List Span
  | [], _ => []
  | (length, none) :: pieces, offset =>
    (offset, offset + length) :: insertedRangesFrom pieces (offset + length)
  | (length, some _) :: pieces, offset => insertedRangesFrom pieces (offset + length)

def insertedRanges (pieces : List Piece) : List Span := insertedRangesFrom pieces 0

def taggedLe (a b : Span × Bool) : Prop :=
  spanLe a.1 b.1 ∧ (a.1 = b.1 → a.2 = true → b.2 = true)

instance : DecidableRel taggedLe := fun a b =>
  inferInstanceAs (Decidable (spanLe a.1 b.1 ∧ (a.1 = b.1 → a.2 = true → b.2 = true)))

def pushTagged (groups : List (Span × Bool)) (t : Span × Bool) : List (Span × Bool) :=
  match groups.getLast? with
  | some last =>
    if t.1.1 ≤ last.1.2 then
      groups.dropLast ++ [((last.1.1, max last.1.2 t.1.2), last.2 || t.2)]
    else groups ++ [t]
  | none => [t]

def absorbInserted (pieces : List Piece) (ranges : List Span) : List Span :=
  if ranges.isEmpty then ranges else
    let tagged := ranges.map (fun r => (r, true)) ++ (insertedRanges pieces).map (fun r => (r, false))
    (((tagged.insertionSort taggedLe).foldl pushTagged []).filter Prod.snd).map Prod.fst

def maskedRanges (pieces : List Piece) (structural : List Span) : List Span :=
  absorbInserted pieces (mergeTouching (maskedRangesFrom structural pieces 0))

def maskFrom (text : Text) : List Span → ℕ → Text
  | [], last => text.drop last
  | (start, stop) :: ranges, last =>
    slice text last start ++ redactionMarker ++ maskFrom text ranges stop

def maskStructural (text : Text) (pieces : List Piece) (structural : List Span) : Text :=
  maskFrom text (maskedRanges pieces structural) 0

def wholePieces (text : Text) : List Piece :=
  if text.isEmpty then [] else [(text.length, some 0)]

def redactSecretSpans (word : Char → Bool) (text : Text) : Text :=
  (redactSpansTracked text [(text.length, some 0)] (secretSpans word text)).1

def secretTextPasses : ℕ := 4

def basePass (word : Char → Bool) (bound : Text → Text) (current : Text) (pieces : List Piece) :
    Text × List Piece :=
  let redacted := redactSpansTracked current pieces (secretSpans word current)
  (bound redacted.1, boundTracked redacted.1 redacted.2 (bound redacted.1))

def baseLoop (word : Char → Bool) (bound : Text → Text) :
    ℕ → Text → List Piece → Option (Text × List Piece)
  | 0, _, _ => none
  | passes + 1, current, pieces =>
    let next := basePass word bound current pieces
    if next.1 = current then some (current, pieces) else baseLoop word bound passes next.1 next.2

/-- The base redaction and the bound to a fixed point; `none` when the text still changes. -/
def baseFixedPoint (word : Char → Bool) (bound : Text → Text) (text : Text) :
    Option (Text × List Piece) :=
  baseLoop word bound secretTextPasses text (wholePieces text)

/-- The structural stage: mask what the rules on the original text cover in the kept text. -/
def structuralStage (word : Char → Bool) (bound : Text → Text) (structural : List Span)
    (current : Text) (pieces : List Piece) : Text :=
  if structural.isEmpty then current else
    match baseFixedPoint word bound (bound (maskStructural current pieces structural)) with
    | none => redactionMarker
    | some again => again.1

def redactBounded (word : Char → Bool) (bound : Text → Text) (text : Text) : Text :=
  if nmsSecretReferenceRe.fullmatch text then text else
    match baseFixedPoint word bound text with
    | none => redactionMarker
    | some (current, pieces) =>
      structuralStage word bound (mergeSpans (sensitiveValueSpans text)) current pieces

def redactSecretText (word : Char → Bool) (text : Text) : Text := redactBounded word id text

def containsSecretText (word : Char → Bool) (text : Text) : Bool :=
  redactSecretText word text != text

/-! ## Fixed points -/

theorem redactSpansFrom_fst (text : Text) (spans : List Span) (last : ℕ) (c d : PieceCursor) :
    (redactSpansFrom text spans last c).1 = (redactSpansFrom text spans last d).1 := by
  induction spans generalizing last c d with
  | nil => rfl
  | cons s spans ih =>
    simp only [redactSpansFrom]
    rw [ih]

theorem basePass_fst (word : Char → Bool) (bound : Text → Text) (current : Text)
    (pieces : List Piece) :
    (basePass word bound current pieces).1 = bound (redactSecretSpans word current) := by
  simp only [basePass, redactSecretSpans, redactSpansTracked]
  rw [redactSpansFrom_fst]

def BaseFixed (word : Char → Bool) (bound : Text → Text) (text : Text) : Prop :=
  bound (redactSecretSpans word text) = text

section

variable {word : Char → Bool} {bound : Text → Text}

theorem baseFixed_of_baseLoop {passes : ℕ} {text current : Text} {pieces kept : List Piece}
    (h : baseLoop word bound passes text pieces = some (current, kept)) :
    BaseFixed word bound current := by
  induction passes generalizing text pieces with
  | zero => cases h
  | succ passes ih =>
    simp only [baseLoop] at h
    split_ifs at h with hstop
    · obtain ⟨rfl, rfl⟩ := Prod.mk.inj (Option.some.inj h)
      rwa [basePass_fst] at hstop
    · exact ih h

theorem baseFixedPoint_of_baseFixed {text : Text} (h : BaseFixed word bound text) :
    baseFixedPoint word bound text = some (text, wholePieces text) := by
  simp only [baseFixedPoint, secretTextPasses, baseLoop]
  rw [if_pos (by rw [basePass_fst]; exact h)]

theorem redactBounded_of_baseFixed {text : Text} (h : BaseFixed word bound text)
    (href : nmsSecretReferenceRe.fullmatch text = false) :
    redactBounded word bound text =
      structuralStage word bound (mergeSpans (sensitiveValueSpans text)) text
        (wholePieces text) := by
  simp only [redactBounded, href, baseFixedPoint_of_baseFixed h]
  rfl

theorem structuralStage_cases (structural : List Span) (current : Text) (pieces : List Piece)
    (h : BaseFixed word bound current) :
    structuralStage word bound structural current pieces = redactionMarker ∨
      BaseFixed word bound (structuralStage word bound structural current pieces) := by
  simp only [structuralStage]
  split_ifs
  · exact .inr h
  · split
    · exact .inl rfl
    · next again hagain => exact .inr (baseFixed_of_baseLoop hagain)

/-- A redacted text is a reference kept whole, the marker, or stable under the base stage. -/
theorem redactBounded_cases (text : Text) :
    nmsSecretReferenceRe.fullmatch (redactBounded word bound text) = true ∨
      redactBounded word bound text = redactionMarker ∨
      BaseFixed word bound (redactBounded word bound text) := by
  by_cases href : nmsSecretReferenceRe.fullmatch text = true
  · left
    simp only [redactBounded, href, if_true]
  · right
    simp only [redactBounded, href]
    cases hbase : baseFixedPoint word bound text with
    | none => exact .inl rfl
    | some p => exact structuralStage_cases _ _ _ (baseFixed_of_baseLoop hbase)

theorem secretSpans_eq_nil {text : Text} (hbase : (secretContentRe word).finditer text = [])
    (hheader : yamlBlockScalarHeaderRe.finditer text = []) : secretSpans word text = [] := by
  simp [secretSpans, hbase, hheader]

theorem redactSecretSpans_of_nil {text : Text} (h : secretSpans word text = []) :
    redactSecretSpans word text = text := by
  simp [redactSecretSpans, h, redactSpansTracked, redactSpansFrom]

theorem baseFixed_of_nil {text : Text} (h : secretSpans word text = [])
    (hbound : bound text = text) : BaseFixed word bound text := by
  rw [BaseFixed, redactSecretSpans_of_nil h, hbound]

theorem secretSpans_of_no_assignment {text : Text} (h : text.countP isAssignment = 0)
    (hdashes : text.countP (· == '-') < 10) : secretSpans word text = [] := by
  have hcolon : text.countP (· == ':') ≤ text.countP isAssignment :=
    List.countP_mono_left (fun c _ hc => by simp_all [isAssignment])
  apply secretSpans_eq_nil
  · exact (secretContentRe_absent word h hdashes).finditer
  · exact Rx.finditer_eq_nil (S := (· == ':')) _ _ (by rw [yamlBlockScalarHeaderRe_needs]; omega)

def isStructuralMark (c : Char) : Bool :=
  c == ':' || c == '?' || c == '{' || c == '[' || c == '\\'

theorem sensitiveValueSpans_eq_nil {text : Text} (hvalues : yamlSensitiveValueRe.finditer text = [])
    (hflow : flowTail text = []) (hescape : '\\' ∉ text) : sensitiveValueSpans text = [] := by
  have hnone : text.findIdx? (· == '\\') = none := by
    rw [List.findIdx?_eq_none_iff]
    intro c hc
    rw [beq_eq_false_iff_ne]
    rintro rfl
    exact hescape hc
  simp [sensitiveValueSpans, hvalues, failClosedTails, hflow, escapedKeyLineStart,
    escapedKeyLineStartFrom, hnone]

theorem sensitiveValueSpans_of_no_mark {text : Text} (h : text.countP isStructuralMark = 0) :
    sensitiveValueSpans text = [] := by
  have hle : ∀ q : Char → Bool, (∀ c, q c = true → isStructuralMark c = true) →
      text.countP q = 0 := fun q hq =>
    Nat.le_zero.mp (h ▸ List.countP_mono_left (fun c _ hc => hq c hc))
  apply sensitiveValueSpans_eq_nil
  · refine Rx.finditer_eq_nil (S := fun c => c == ':' || c == '?') _ _ ?_
    rw [yamlSensitiveValueRe_needs, hle _ (fun c hc => by grind [isStructuralMark])]
    exact Nat.one_pos
  · have hopener : flowOpenerRe.search text 0 = none := by
      refine Rx.search_eq_none (S := fun c => c == '{' || c == '[') _ _ ?_ _
      rw [flowOpenerRe_needs, hle _ (fun c hc => by grind [isStructuralMark])]
      exact Nat.one_pos
    simp [flowTail, hopener]
  · intro hmem
    exact absurd (show isStructuralMark '\\' = true by decide)
      (by simpa using List.countP_eq_zero.mp h '\\' hmem)

theorem flowTail_of_no_token {text : Text} {S : Char → Bool}
    (h : text.countP S < flowSensitiveTokenRe.needs S) : flowTail text = [] := by
  rw [flowTail]
  split
  · rfl
  · rw [Rx.search_eq_none _ _ h]

theorem baseFixed_redactionMarker (hbound : bound redactionMarker = redactionMarker) :
    BaseFixed word bound redactionMarker :=
  baseFixed_of_nil (secretSpans_of_no_assignment (by decide) (by decide)) hbound

/-- The structural rules, applied to a text as it stands, leave it unchanged; a whole reference is
not subject to them. -/
def structurallySettled (word : Char → Bool) (bound : Text → Text) (text : Text) : Bool :=
  nmsSecretReferenceRe.fullmatch text ||
    structuralStage word bound (mergeSpans (sensitiveValueSpans text)) text (wholePieces text)
      == text

/-- Redacting twice is redacting once exactly when the structural rules have nothing left to mask
in the redacted text. -/
theorem redactBounded_redactBounded_iff (hbound : bound redactionMarker = redactionMarker)
    (text : Text) :
    redactBounded word bound (redactBounded word bound text) = redactBounded word bound text ↔
      structurallySettled word bound (redactBounded word bound text) = true := by
  have hcases := @redactBounded_cases word bound text
  generalize redactBounded word bound text = r at hcases ⊢
  cases href : nmsSecretReferenceRe.fullmatch r with
  | true => simp [redactBounded, structurallySettled, href]
  | false =>
    have hfixed : BaseFixed word bound r := by
      rcases hcases with h | rfl | h
      · rw [href] at h
        cases h
      · exact baseFixed_redactionMarker hbound
      · exact h
    rw [redactBounded_of_baseFixed hfixed href]
    simp [structurallySettled, href]

theorem redactBounded_of_clean {text : Text} (hspans : secretSpans word text = [])
    (hvalues : sensitiveValueSpans text = []) (hbound : bound text = text) :
    redactBounded word bound text = text := by
  cases href : nmsSecretReferenceRe.fullmatch text with
  | true => simp [redactBounded, href]
  | false =>
    rw [redactBounded_of_baseFixed (baseFixed_of_nil hspans hbound) href, hvalues]
    rfl

/-- A text in whose first pass nothing is left for a second one. -/
theorem redactBounded_of_pass {text next : Text} (hnext : bound (redactSecretSpans word text) = next)
    (hspans : secretSpans word next = []) (hbound : bound next = next)
    (hvalues : sensitiveValueSpans text = [])
    (href : nmsSecretReferenceRe.fullmatch text = false) : redactBounded word bound text = next := by
  have hfirst : ∀ pieces, (basePass word bound text pieces).1 = next := fun pieces => by
    rw [basePass_fst, hnext]
  have hsecond : ∀ pieces, (basePass word bound next pieces).1 = next := fun pieces => by
    rw [basePass_fst, redactSecretSpans_of_nil hspans, hbound]
  have hloop : ∃ pieces, baseFixedPoint word bound text = some (next, pieces) := by
    by_cases hsame : next = text
    · exact ⟨_, by rw [baseFixedPoint, secretTextPasses, baseLoop, if_pos ((hfirst _).trans hsame), hsame]⟩
    · refine ⟨(basePass word bound text (wholePieces text)).2, ?_⟩
      rw [baseFixedPoint, secretTextPasses, baseLoop, if_neg (by rwa [hfirst]), hfirst, baseLoop,
        if_pos (hsecond _)]
  obtain ⟨pieces, hpieces⟩ := hloop
  simp only [redactBounded, href, hpieces, hvalues]
  rfl

/-- A structural span over the whole text leaves the marker alone. -/
theorem structuralStage_whole {text : Text} (hne : text ≠ [])
    (hbound : bound redactionMarker = redactionMarker) :
    structuralStage word bound [(0, text.length)] text (wholePieces text) = redactionMarker := by
  have hpieces : wholePieces text = [(text.length, some 0)] := by
    cases text with
    | nil => exact absurd rfl hne
    | cons c cs => rfl
  have hpos : 0 < text.length := List.length_pos_iff.mpr hne
  have hranges : maskedRanges (wholePieces text) [(0, text.length)] = [(0, text.length)] := by
    have hahead : [(0, text.length)].dropWhile (fun s : Span => s.2 ≤ 0) = [(0, text.length)] := by
      rw [List.dropWhile_cons_of_neg (by simpa using hpos.ne')]
    have hcovered : maskedRangesFrom [(0, text.length)] (wholePieces text) 0 =
        [(0, text.length)] := by
      rw [hpieces, maskedRangesFrom, hahead]
      simp [coveredRanges, maskedRangesFrom, hpos]
    rw [maskedRanges, hcovered, hpieces]
    simp [mergeTouching, pushSpan, absorbInserted, insertedRanges, insertedRangesFrom, pushTagged]
  have hmask : maskStructural text (wholePieces text) [(0, text.length)] = redactionMarker := by
    simp [maskStructural, hranges, maskFrom, slice]
  simp only [structuralStage, List.isEmpty_cons, Bool.false_eq_true, if_false, hmask, hbound,
    baseFixedPoint_of_baseFixed (baseFixed_redactionMarker hbound)]

/-- A flow opener after a line that starts with a sensitive token exposes the whole text. -/
theorem flowTail_of_token {text tail skipped : Text}
    (htext : text = skipped ++ tail) (hopener : ∀ prev pos, flowOpenerRe.run ⟨prev, tail, pos, []⟩ ≠ [])
    (hbreaks : ∀ c ∈ text, c ≠ '\n' ∧ c ≠ '\r')
    (htoken : (flowSensitiveTokenRe.run (State.init text)) ≠ []) :
    flowTail text = [(0, text.length)] := by
  have hline : ∀ k, lineStartBefore text k = 0 := fun k => by
    have hall : (text.take k).reverse.takeWhile (fun c => c != '\n' && c != '\r') =
        (text.take k).reverse := by
      refine List.takeWhile_eq_self_iff.mpr (fun c hc => ?_)
      have := hbreaks c (List.take_subset k text (List.mem_reverse.mp hc))
      simp [this.1, this.2]
    rw [lineStartBefore, hall, List.length_reverse, Nat.sub_self]
  have hsome : (flowOpenerRe.search text 0).isSome = true := by
    have := Rx.isSome_searchFrom hopener skipped none 0
    rw [Rx.search, Option.isSome_map, State.advance, State.init, htext]
    exact this
  obtain ⟨opener, hfound⟩ := Option.isSome_iff_exists.mp hsome
  obtain ⟨t, ts, hrun⟩ := List.exists_cons_of_ne_nil htoken
  have hsearch : ∃ stop groups, flowSensitiveTokenRe.search text 0 = some ⟨0, stop, groups⟩ := by
    refine ⟨t.pos, t.groups, ?_⟩
    rw [Rx.search, State.advance]
    cases hcs : text with
    | nil =>
      rw [hcs] at hrun
      simp only [State.init] at hrun ⊢
      rw [Rx.searchFrom, hrun]
      rfl
    | cons c cs =>
      rw [hcs] at hrun
      simp only [State.init] at hrun ⊢
      rw [Rx.searchFrom, hrun]
      rfl
  obtain ⟨stop, groups, hsearch⟩ := hsearch
  simp [flowTail, hfound, hline, hsearch]

end

end NetboxRpc
