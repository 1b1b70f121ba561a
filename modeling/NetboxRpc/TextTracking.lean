import NetboxRpc.TextRedaction
import NetboxRpc.RegexMatches
import NetboxRpc.Tracked

/-!
# Positions through the redaction passes

The pieces that the passes carry give each character of the current text the position it had in
the original one. Each pass replaces ranges and bounds the text, so the kept characters are a part
of the original text, in order and at their positions.
-/

namespace NetboxRpc

open Regex

/-! ## Pieces as positions -/

def pieceOrigins : Piece → List (Option ℕ)
  | (length, none) => List.replicate length none
  | (length, some source) => (List.range' source length).map some

def origins (pieces : List Piece) : List (Option ℕ) := pieces.flatMap pieceOrigins

def track (text : Text) (pieces : List Piece) : Tracked Char := text.zip (origins pieces)

def Fits (text : Text) (pieces : List Piece) : Prop := (origins pieces).length = text.length

@[simp] theorem origins_nil : origins [] = [] := rfl

@[simp] theorem origins_cons (p : Piece) (ps : List Piece) :
    origins (p :: ps) = pieceOrigins p ++ origins ps := rfl

@[simp] theorem origins_append (ps qs : List Piece) : origins (ps ++ qs) = origins ps ++ origins qs :=
  List.flatMap_append

@[simp] theorem length_pieceOrigins (p : Piece) : (pieceOrigins p).length = p.1 := by
  obtain ⟨length, source⟩ := p
  cases source <;> simp [pieceOrigins]

theorem slice_pieceOrigins (length : ℕ) (source : Option ℕ) {a b : ℕ} (hb : b ≤ length) :
    Ranges.slice (pieceOrigins (length, source)) a b =
      pieceOrigins (b - a, source.map (fun s => s + a)) := by
  cases source with
  | none =>
    simp [Ranges.slice, pieceOrigins, Nat.min_eq_left hb]
  | some s =>
    have htake : (List.range' s length).take b = List.range' s b := by
      obtain ⟨k, rfl⟩ := Nat.exists_eq_add_of_le hb
      rw [← List.range'_append_1, List.take_left' List.length_range']
    simp only [Ranges.slice, pieceOrigins, Option.map_some, ← List.map_take, ← List.map_drop]
    rw [htake, List.drop_range', Nat.mul_one]

theorem map_fst_track {text : Text} {pieces : List Piece} (h : Fits text pieces) :
    (track text pieces).map Prod.fst = text := by
  rw [track, List.map_fst_zip]
  exact h.ge

theorem map_snd_track {text : Text} {pieces : List Piece} (h : Fits text pieces) :
    (track text pieces).map Prod.snd = origins pieces := by
  rw [track, List.map_snd_zip]
  exact h.le

theorem track_eq_of_parts {text : Text} {pieces : List Piece} {t : Tracked Char}
    (hfst : t.map Prod.fst = text) (hsnd : t.map Prod.snd = origins pieces) :
    track text pieces = t := (List.zip_of_prod hfst hsnd).symm

theorem fits_of_parts {text : Text} {pieces : List Piece} {t : Tracked Char}
    (hfst : t.map Prod.fst = text) (hsnd : t.map Prod.snd = origins pieces) : Fits text pieces := by
  rw [Fits, ← hfst, ← hsnd, List.length_map, List.length_map]

/-! ## Reading ranges of pieces -/

structure PieceCursor.At (all : List (Option ℕ)) (c : PieceCursor) : Prop where
  pieces : origins c.pieces = all.drop c.offset

theorem slice_drop {α : Type} (xs : List α) {a c : ℕ} (b : ℕ) (h : c ≤ a) :
    Ranges.slice xs a b = Ranges.slice (xs.drop c) (a - c) (b - c) := by
  rw [Ranges.slice, Ranges.slice, ← List.drop_take, List.drop_drop]
  congr 1
  omega

theorem slice_append_left {α : Type} {xs ys : List α} {a b : ℕ} (h : b ≤ xs.length) :
    Ranges.slice (xs ++ ys) a b = Ranges.slice xs a b := by
  rw [Ranges.slice, List.take_append_of_le_length h, Ranges.slice]

theorem slice_eq_nil {α : Type} {xs : List α} {a b : ℕ} (h : b ≤ a ∨ xs.length ≤ a) :
    Ranges.slice xs a b = [] := by
  rw [Ranges.slice, List.drop_eq_nil_iff, List.length_take]
  omega

theorem slice_length_eq_drop {α : Type} {xs : List α} {a b : ℕ} (h : xs.length ≤ b) :
    Ranges.slice xs a b = xs.drop a := by
  rw [Ranges.slice, List.take_of_length_le h]

/-- The part of the first piece in a range of the text. -/
theorem slice_first_piece {all : List (Option ℕ)} {length offset : ℕ} {source : Option ℕ}
    {rest : List Piece} (hat : origins ((length, source) :: rest) = all.drop offset) {low high : ℕ}
    (hlow : offset ≤ low) (hhigh : high ≤ offset + length) :
    Ranges.slice all low high =
      origins (if low < high then [(high - low, source.map (fun s => s + (low - offset)))]
        else []) := by
  rw [slice_drop all high hlow, ← hat, origins_cons,
    slice_append_left (by rw [length_pieceOrigins]; omega), slice_pieceOrigins _ _ (by omega)]
  split_ifs with hlt
  · rw [show high - offset - (low - offset) = high - low by omega]
    exact (List.append_nil _).symm
  · rw [show high - offset - (low - offset) = 0 by omega]
    cases source <;> rfl

theorem takePieces_spec {all : List (Option ℕ)} {start stop : ℕ} {pieces : List Piece} {offset : ℕ}
    (hat : origins pieces = all.drop offset) (hle : offset ≤ stop) :
    origins (takePieces start stop pieces offset).1 = Ranges.slice all (max start offset) stop ∧
      PieceCursor.At all (takePieces start stop pieces offset).2 ∧
      (takePieces start stop pieces offset).2.offset ≤ stop := by
  induction pieces generalizing offset with
  | nil =>
    have hend : all.length ≤ offset := List.drop_eq_nil_iff.mp hat.symm
    exact ⟨(slice_eq_nil (.inr (by omega))).symm, ⟨hat⟩, hle⟩
  | cons p rest ih =>
    obtain ⟨length, source⟩ := p
    rw [takePieces]
    by_cases hstop : stop < offset + length
    · simp only [if_pos hstop]
      rw [Nat.min_eq_left hstop.le]
      refine ⟨(slice_first_piece hat (Nat.le_max_right _ _) hstop.le).symm, ⟨hat⟩, hle⟩
    · simp only [if_neg hstop]
      rw [Nat.min_eq_right (Nat.not_lt.mp hstop)]
      have hnext : origins rest = all.drop (offset + length) := by
        rw [← List.drop_drop, ← hat, origins_cons]
        exact (List.drop_left' (length_pieceOrigins (length, source))).symm
      obtain ⟨hmore, hcursor, hoffset⟩ := ih hnext (Nat.not_lt.mp hstop)
      refine ⟨?_, hcursor, hoffset⟩
      rw [origins_append, hmore,
        ← slice_first_piece hat (Nat.le_max_right start offset) (le_refl (offset + length))]
      by_cases hstart : start ≤ offset + length
      · rw [Nat.max_eq_right hstart]
        exact Ranges.slice_append_slice all (by omega) (Nat.not_lt.mp hstop)
      · rw [slice_eq_nil (.inl (by omega)), List.nil_append]
        congr 1
        omega

theorem PieceCursor.At.take {all : List (Option ℕ)} {c : PieceCursor} (h : c.At all) {start stop : ℕ}
    (hstart : c.offset ≤ start) (hle : start ≤ stop) :
    origins (c.take start stop).1 = Ranges.slice all start stop ∧ (c.take start stop).2.At all ∧
      (c.take start stop).2.offset ≤ stop := by
  have hspec := @takePieces_spec all start stop c.pieces c.offset h.pieces (hstart.trans hle)
  rwa [Nat.max_eq_left hstart] at hspec

/-! ## Redacting spans -/

/-- The span without the byte-order marks at its start, which stay. -/
def afterMarks (text : Text) (s : Span) : Span :=
  (s.1 + ((slice text s.1 s.2).takeWhile (· == byteOrderMark)).length, s.2)

theorem slice_append_marks (text : Text) {last : ℕ} {s : Span} (hlast : last ≤ s.1)
    (hspan : s.1 ≤ s.2) :
    slice text last s.1 ++ (slice text s.1 s.2).takeWhile (· == byteOrderMark) =
      Ranges.slice text last (afterMarks text s).1 := by
  generalize hmarks : (slice text s.1 s.2).takeWhile (· == byteOrderMark) = marks
  have hpart : Ranges.slice text s.1 (s.1 + marks.length) = marks := by
    have hinitial : marks = (slice text s.1 s.2).take marks.length :=
      List.prefix_iff_eq_take.mp (hmarks ▸ List.takeWhile_prefix _)
    have hlength : marks.length ≤ (slice text s.1 s.2).length :=
      hmarks ▸ (List.takeWhile_prefix _).length_le
    rw [slice, List.length_drop, List.length_take] at hlength
    conv_rhs => rw [hinitial]
    rw [Ranges.slice, slice, List.take_drop, List.take_take]
    congr 2
    omega
  rw [afterMarks, hmarks, ← Ranges.slice_append_slice text hlast (Nat.le_add_right _ _), hpart]
  rfl

theorem afterMarks_le (text : Text) {s : Span} (h : s.1 ≤ s.2) :
    s.1 ≤ (afterMarks text s).1 ∧ (afterMarks text s).1 ≤ s.2 := by
  have hlength := (List.takeWhile_prefix (l := slice text s.1 s.2) (· == byteOrderMark)).length_le
  rw [slice, List.length_drop, List.length_take] at hlength
  simp only [afterMarks, slice]
  omega

theorem ordered_afterMarks (text : Text) {last : ℕ} {spans : List Span}
    (h : Ranges.Ordered last spans) : Ranges.Ordered last (spans.map (afterMarks text)) := by
  induction h with
  | nil lo => exact .nil lo
  | @cons lo a b rs hlo hab _ ih =>
    obtain ⟨hstart, hstop⟩ := afterMarks_le text (s := (a, b)) hab
    exact .cons (hlo.trans hstart) hstop ih

theorem redactSpansFrom_spec {text : Text} {all : List (Option ℕ)} (hall : all.length = text.length)
    {spans : List Span} {last : ℕ} {cursor : PieceCursor} (h : Ranges.Ordered last spans)
    (hlast : last ≤ text.length) (hstop : ∀ s ∈ spans, s.2 ≤ text.length) (hat : cursor.At all)
    (hoffset : cursor.offset ≤ last) :
    (redactSpansFrom text spans last cursor).1 =
        Ranges.replace redactionMarker text (spans.map (afterMarks text)) last ∧
      origins (redactSpansFrom text spans last cursor).2 =
        Ranges.replace (List.replicate redactionMarker.length none) all
          (spans.map (afterMarks text)) last := by
  induction h generalizing cursor with
  | nil lo =>
    refine ⟨rfl, ?_⟩
    rw [redactSpansFrom, (hat.take hoffset hlast).1, slice_length_eq_drop hall.le]
    rfl
  | @cons lo a b rs hlo hab _ ih =>
    obtain ⟨hstart, hle⟩ := afterMarks_le text (s := (a, b)) hab
    have hbefore := hat.take hoffset (hlo.trans hstart)
    have hinside := hbefore.2.1.take hbefore.2.2 hle
    obtain ⟨htext, horigins⟩ := ih (hstop (a, b) List.mem_cons_self)
      (fun s hs => hstop s (List.mem_cons_of_mem _ hs)) hinside.2.1 hinside.2.2
    have hend : (afterMarks text (a, b)).2 = b := rfl
    constructor
    · rw [List.map_cons, Ranges.replace, ← slice_append_marks text hlo hab, hend, ← htext]
      rfl
    · rw [List.map_cons, Ranges.replace, hend, ← hbefore.1, ← horigins]
      simp only [redactSpansFrom, origins_append, origins_cons, origins_nil, List.append_nil]
      rfl

theorem map_snd_inserted (xs : Text) :
    (Tracked.inserted xs).map Prod.snd = List.replicate xs.length none := by
  rw [Tracked.inserted, List.map_map]
  exact List.map_const'

/-- Redacting spans replaces ranges of the tracked text. -/
theorem track_redactSpansTracked {text : Text} {pieces : List Piece} (hfits : Fits text pieces)
    {spans : List Span} (h : Ranges.Ordered 0 spans) (hstop : ∀ s ∈ spans, s.2 ≤ text.length) :
    let redacted := redactSpansTracked text pieces spans
    track redacted.1 redacted.2 = Ranges.replace (Tracked.inserted redactionMarker)
        (track text pieces) (spans.map (afterMarks text)) 0 ∧
      Fits redacted.1 redacted.2 := by
  obtain ⟨htext, horigins⟩ := @redactSpansFrom_spec text (origins pieces) hfits spans 0 ⟨pieces, 0⟩ h
    (Nat.zero_le _) hstop ⟨rfl⟩ (le_refl 0)
  have hfst : (Ranges.replace (Tracked.inserted redactionMarker) (track text pieces)
      (spans.map (afterMarks text)) 0).map Prod.fst = (redactSpansTracked text pieces spans).1 := by
    rw [Ranges.map_replace, Tracked.map_fst_inserted, map_fst_track hfits]
    exact htext.symm
  have hsnd : (Ranges.replace (Tracked.inserted redactionMarker) (track text pieces)
      (spans.map (afterMarks text)) 0).map Prod.snd =
        origins (redactSpansTracked text pieces spans).2 := by
    rw [Ranges.map_replace, map_snd_inserted, map_snd_track hfits]
    exact horigins.symm
  exact ⟨track_eq_of_parts hfst hsnd, fits_of_parts hfst hsnd⟩

/-! ## Bounding -/

theorem bisectPrefix_spec {text bounded : Text} (fuel : ℕ) {low high : ℕ}
    (h : text.take low = bounded.take low) (hle : low ≤ high) :
    text.take (bisectPrefix text bounded fuel low high) =
        bounded.take (bisectPrefix text bounded fuel low high) ∧
      bisectPrefix text bounded fuel low high ≤ high := by
  induction fuel generalizing low high with
  | zero => exact ⟨h, hle⟩
  | succ fuel ih =>
    rw [bisectPrefix]
    by_cases hlt : low < high
    · simp only [if_pos hlt]
      split_ifs with hsame
      · exact ih hsame (by omega)
      · obtain ⟨heq, hbound⟩ := ih h (show low ≤ (low + high + 1) / 2 - 1 by omega)
        exact ⟨heq, by omega⟩
    · rw [if_neg hlt]
      exact ⟨h, hle⟩

/-- The bisection finds the whole common part. -/
theorem le_bisectPrefix {text bounded : Text} {fuel low high k : ℕ} (hfuel : high < fuel + low)
    (hk : k ≤ high) (h : text.take k = bounded.take k) :
    k ≤ bisectPrefix text bounded fuel low high := by
  induction fuel generalizing low high with
  | zero => rw [bisectPrefix]; omega
  | succ fuel ih =>
    rw [bisectPrefix]
    by_cases hlt : low < high
    · simp only [if_pos hlt]
      split_ifs with hsame
      · exact ih (by omega) hk
      · refine ih (by omega) ?_
        by_contra hle
        refine hsame ?_
        have hpart := congrArg (List.take ((low + high + 1) / 2)) h
        rwa [List.take_take, List.take_take, Nat.min_eq_left (by omega)] at hpart
    · rw [if_neg hlt]
      omega

/-- A bounded text keeps the common first part of the tracked text; what follows is inserted. -/
theorem track_boundTracked {text : Text} {pieces : List Piece} (hfits : Fits text pieces)
    (bounded : Text) :
    Fits bounded (boundTracked text pieces bounded) ∧ ∃ low,
      (∀ k ≤ min text.length bounded.length, text.take k = bounded.take k → k ≤ low) ∧
      track bounded (boundTracked text pieces bounded) =
        (track text pieces).take low ++ Tracked.inserted (bounded.drop low) := by
  by_cases hsame : bounded = text
  · subst hsame
    rw [boundTracked, if_pos rfl]
    refine ⟨hfits, bounded.length, fun k hk _ => by omega, ?_⟩
    have hlength : (track bounded pieces).length ≤ bounded.length := by
      rw [track, List.length_zip]
      exact Nat.min_le_left _ _
    rw [List.take_of_length_le hlength, List.drop_length]
    exact (List.append_nil _).symm
  · obtain ⟨hinitial, hlow⟩ := @bisectPrefix_spec text bounded
      (min text.length bounded.length + 1) 0 (min text.length bounded.length) rfl (Nat.zero_le _)
    have hmost : ∀ k ≤ min text.length bounded.length, text.take k = bounded.take k → _ :=
      fun k hk => @le_bisectPrefix text bounded (min text.length bounded.length + 1) 0
        (min text.length bounded.length) k (by omega) hk
    rw [boundTracked, if_neg hsame]
    dsimp only
    generalize bisectPrefix text bounded (min text.length bounded.length + 1) 0
      (min text.length bounded.length) = low at hinitial hlow hmost ⊢
    have htake := (@PieceCursor.At.take (origins pieces) ⟨pieces, 0⟩ ⟨rfl⟩ 0 low (Nat.zero_le _)
      (Nat.zero_le _)).1
    have horigins : origins (((PieceCursor.mk pieces 0).take 0 low).1 ++
        if low < bounded.length then [(bounded.length - low, none)] else []) =
          (origins pieces).take low ++ List.replicate (bounded.length - low) none := by
      rw [origins_append, htake, Ranges.slice, List.drop_zero]
      split_ifs with hlt
      · rw [origins_cons, origins_nil, List.append_nil]
        rfl
      · rw [show bounded.length - low = 0 by omega]
        rfl
    have hfst : ((track text pieces).take low ++ Tracked.inserted (bounded.drop low)).map Prod.fst =
        bounded := by
      rw [List.map_append, List.map_take, map_fst_track hfits, Tracked.map_fst_inserted, hinitial,
        List.take_append_drop]
    have hsnd : ((track text pieces).take low ++ Tracked.inserted (bounded.drop low)).map Prod.snd =
        origins (((PieceCursor.mk pieces 0).take 0 low).1 ++
          if low < bounded.length then [(bounded.length - low, none)] else []) := by
      rw [horigins, List.map_append, List.map_take, map_snd_track hfits, map_snd_inserted,
        List.length_drop]
    exact ⟨fits_of_parts hfst hsnd, low, hmost, track_eq_of_parts hfst hsnd⟩

/-! ## Merged spans -/

structure SpansOf (text : Text) (spans : List Span) : Prop where
  ordered : Ranges.Ordered 0 spans
  nonempty : ∀ s ∈ spans, s.1 < s.2
  inside : ∀ s ∈ spans, s.2 ≤ text.length

theorem spansOf_of_pairwise {text : Text} {spans : List Span}
    (h : ∀ s ∈ spans, s.1 < s.2 ∧ s.2 ≤ text.length)
    (hp : spans.Pairwise (fun a b => a.2 ≤ b.1)) : SpansOf text spans where
  ordered := Ranges.ordered_of_pairwise (fun s hs => ⟨Nat.zero_le _, (h s hs).1.le⟩) hp
  nonempty := fun s hs => (h s hs).1
  inside := fun s hs => (h s hs).2

theorem joining_lt : Ranges.Joining (fun start stop => decide (start < stop)) where
  meets := fun h => (of_decide_eq_true h).le
  earlier := fun hle h => decide_eq_true (hle.trans_lt (of_decide_eq_true h))

instance : Std.Total spanLe := ⟨fun a b => by unfold spanLe; omega⟩

instance : IsTrans Span spanLe := ⟨fun a b c => by unfold spanLe; omega⟩

theorem merges_mergeSpans {spans : List Span} (hne : ∀ s ∈ spans, s.1 < s.2) :
    Ranges.Merges (fun start stop => decide (start < stop)) (spans.insertionSort spanLe)
      (mergeSpans spans) := by
  have hperm := List.perm_insertionSort spanLe spans
  refine Ranges.merges_foldl joining_lt (fun s hs => hne s (hperm.mem_iff.mp hs)) ?_
  refine (List.pairwise_insertionSort spanLe spans).imp ?_
  intro a b hab
  unfold spanLe at hab
  omega

theorem covers_mergeSpans {spans : List Span} (hne : ∀ s ∈ spans, s.1 < s.2) (i : ℕ) :
    Ranges.Covers (mergeSpans spans) i ↔ Ranges.Covers spans i := by
  rw [(merges_mergeSpans hne).covers_iff]
  exact Ranges.covers_perm (List.perm_insertionSort spanLe spans) i

theorem spansOf_mergeSpans {text : Text} {spans : List Span}
    (h : ∀ s ∈ spans, s.1 < s.2 ∧ s.2 ≤ text.length) : SpansOf text (mergeSpans spans) := by
  have hmerges := merges_mergeSpans (fun s hs => (h s hs).1)
  refine spansOf_of_pairwise (fun m hm => ⟨hmerges.nonempty m hm, ?_⟩) ?_
  · have hlt := hmerges.nonempty m hm
    have hlast : Ranges.Covers (mergeSpans spans) (m.2 - 1) := ⟨m, hm, by omega, by omega⟩
    obtain ⟨s, hs, _, hstop⟩ := (covers_mergeSpans (fun s hs => (h s hs).1) _).mp hlast
    have := (h s hs).2
    omega
  · refine hmerges.apart.imp ?_
    intro a b hab
    exact Nat.not_lt.mp (of_decide_eq_false hab)

/-! ## The spans of a base pass -/

def isKeyMark (c : Char) : Bool := c == ':' || c == '=' || c == '-'

theorem consumes_secretContentRe (word : Char → Bool) :
    (secretContentRe word).consumes isKeyMark = 1 := (rfl)

theorem consumes_yamlBlockScalarHeaderRe : yamlBlockScalarHeaderRe.consumes isKeyMark = 1 := by
  decide +kernel

theorem advances_secretContentRe (word : Char → Bool) : (secretContentRe word).Advances :=
  Rx.advances_of_consumes (S := isKeyMark) (by rw [consumes_secretContentRe]; exact Nat.one_pos)

theorem advances_yamlBlockScalarHeaderRe : yamlBlockScalarHeaderRe.Advances :=
  Rx.advances_of_consumes (S := isKeyMark)
    (by rw [consumes_yamlBlockScalarHeaderRe]; exact Nat.one_pos)

def matchSpan (m : Match) : Span := (m.start, m.stop)

theorem spansOf_finditer {r : Rx} (hr : r.Advances) (text : Text) :
    SpansOf text ((r.finditer text).map matchSpan) := by
  have hscans := Rx.scans_finditer hr text
  refine spansOf_of_pairwise ?_ (List.pairwise_map.mpr hscans.ordered)
  intro s hs
  obtain ⟨m, hm, rfl⟩ := List.mem_map.mp hs
  exact ⟨(hscans.isMatch m hm).2.1, (hscans.isMatch m hm).2.2.1⟩

theorem secretSpans_eq (word : Char → Bool) (text : Text) :
    secretSpans word text =
      if (yamlBlockScalarHeaderRe.finditer text).isEmpty then
        ((secretContentRe word).finditer text).map matchSpan
      else mergeSpans (((secretContentRe word).finditer text).map matchSpan ++
        (yamlBlockScalarHeaderRe.finditer text).map matchSpan) := by
  simp only [secretSpans, List.isEmpty_map]
  rfl

section

variable {word : Char → Bool} {text : Text}

theorem spansOf_secretSpans (word : Char → Bool) (text : Text) :
    SpansOf text (secretSpans word text) := by
  have hbase := spansOf_finditer (advances_secretContentRe word) text
  have hheader := spansOf_finditer advances_yamlBlockScalarHeaderRe text
  rw [secretSpans_eq]
  split_ifs
  · exact hbase
  · refine spansOf_mergeSpans (fun s hs => ?_)
    rcases List.mem_append.mp hs with hs | hs
    · exact ⟨hbase.nonempty s hs, hbase.inside s hs⟩
    · exact ⟨hheader.nonempty s hs, hheader.inside s hs⟩

theorem countP_slice_add {α : Type} (p : α → Bool) (xs : List α) {a b : ℕ} (h : a ≤ b) :
    (Ranges.slice xs a b).countP p + (xs.drop b).countP p = (xs.drop a).countP p := by
  rw [← Ranges.slice_append_drop xs h, List.countP_append]

/-- Every match holds a character that the pattern cannot do without. -/
theorem countP_matchSpan {r : Rx} {S : Char → Bool} (hr : 0 < r.consumes S) {m : Match}
    (hm : m ∈ r.finditer text) : 0 < (Ranges.slice text m.start m.stop).countP S := by
  obtain ⟨_, hlt, _, t, hrun, hstop⟩ :=
    (Rx.scans_finditer (Rx.advances_of_consumes hr) text).isMatch m hm
  have hmem := List.mem_of_mem_head? hrun
  have hcount := r.consumes_add_countP_le S _ t hmem
  have hon := r.on_run (State.on_ofPos (hlt.le.trans ‹_›)) hmem
  have hsplit := countP_slice_add S text hlt.le
  rw [hon.rest, hstop] at hcount
  simp only [State.ofPos] at hcount
  omega

theorem countP_of_mem_secretSpans {s : Span} (hs : s ∈ secretSpans word text) :
    0 < (Ranges.slice text s.1 s.2).countP isKeyMark := by
  have hbase := spansOf_finditer (advances_secretContentRe word) text
  have hheader := spansOf_finditer advances_yamlBlockScalarHeaderRe text
  have hfound : ∀ s, s ∈ ((secretContentRe word).finditer text).map matchSpan ∨
      s ∈ (yamlBlockScalarHeaderRe.finditer text).map matchSpan →
      0 < (Ranges.slice text s.1 s.2).countP isKeyMark := by
    rintro s (hs | hs)
    · obtain ⟨m, hm, rfl⟩ := List.mem_map.mp hs
      exact countP_matchSpan (by rw [consumes_secretContentRe]; exact Nat.one_pos) hm
    · obtain ⟨m, hm, rfl⟩ := List.mem_map.mp hs
      exact countP_matchSpan (by rw [consumes_yamlBlockScalarHeaderRe]; exact Nat.one_pos) hm
  rw [secretSpans_eq] at hs
  split_ifs at hs
  · exact hfound s (.inl hs)
  · have hne : ∀ s ∈ ((secretContentRe word).finditer text).map matchSpan ++
        (yamlBlockScalarHeaderRe.finditer text).map matchSpan, s.1 < s.2 := fun s hs =>
      (List.mem_append.mp hs).elim (hbase.nonempty s) (hheader.nonempty s)
    obtain ⟨r, hr, hstart, hstop⟩ := (merges_mergeSpans hne).origin s hs
    have hmem := (List.perm_insertionSort spanLe _).mem_iff.mp hr
    have hlt := hne r hmem
    have hpart := hfound r (List.mem_append.mp hmem)
    rw [hstart] at hpart hlt
    rw [← Ranges.slice_append_slice text hlt.le hstop, List.countP_append]
    omega

theorem countP_afterMarks {s : Span} (h : s.1 ≤ s.2) :
    (Ranges.slice text (afterMarks text s).1 s.2).countP isKeyMark =
      (Ranges.slice text s.1 s.2).countP isKeyMark := by
  obtain ⟨hstart, hstop⟩ := afterMarks_le text h
  have hmarks := slice_append_marks text (le_refl s.1) h
  have hempty : slice text s.1 s.1 = [] := slice_eq_nil (.inl (le_refl _))
  rw [hempty, List.nil_append] at hmarks
  have hnone : (Ranges.slice text s.1 (afterMarks text s).1).countP isKeyMark = 0 := by
    rw [← hmarks, List.countP_eq_zero]
    intro c hc
    have hbom := List.mem_takeWhile_imp hc
    rw [beq_iff_eq.mp hbom]
    decide
  rw [← Ranges.slice_append_slice text hstart hstop, List.countP_append, hnone, Nat.zero_add]

theorem redactSecretSpans_eq_replace :
    redactSecretSpans word text = Ranges.replace redactionMarker text
      ((secretSpans word text).map (afterMarks text)) 0 := by
  have hspans := spansOf_secretSpans word text
  have hall : (origins [(text.length, some 0)]).length = text.length := by
    simp [origins, pieceOrigins]
  exact (redactSpansFrom_spec hall hspans.ordered (Nat.zero_le _) hspans.inside ⟨rfl⟩
    (le_refl 0)).1

theorem countP_redactSecretSpans_lt (h : secretSpans word text ≠ []) :
    (redactSecretSpans word text).countP isKeyMark < text.countP isKeyMark := by
  have hspans := spansOf_secretSpans word text
  obtain ⟨s, hs⟩ := List.exists_mem_of_ne_nil _ h
  have hpos := countP_of_mem_secretSpans hs
  rw [← countP_afterMarks (hspans.nonempty s hs).le] at hpos
  rw [redactSecretSpans_eq_replace]
  exact Ranges.countP_replace_lt (by decide) (ordered_afterMarks text hspans.ordered)
    (List.mem_map_of_mem hs) hpos

theorem redactSecretSpans_eq_self_iff : redactSecretSpans word text = text ↔
    secretSpans word text = [] := by
  refine ⟨fun h => ?_, redactSecretSpans_of_nil⟩
  by_contra hne
  have hlt := countP_redactSecretSpans_lt hne
  rw [h] at hlt
  exact lt_irrefl _ hlt

end

/-! ## Pieces are not empty -/

theorem positive_takePieces {start stop : ℕ} {pieces : List Piece} {offset : ℕ} :
    ∀ p ∈ (takePieces start stop pieces offset).1, 0 < p.1 := by
  induction pieces generalizing offset with
  | nil => simp [takePieces]
  | cons p rest ih =>
    obtain ⟨length, source⟩ := p
    have hhere : ∀ q ∈ (if max start offset < min stop (offset + length) then
        [(min stop (offset + length) - max start offset,
          source.map (fun s => s + (max start offset - offset)))] else []), 0 < q.1 := by
      intro q hq
      split_ifs at hq with hlt
      · rw [List.mem_singleton.mp hq]
        exact Nat.sub_pos_of_lt hlt
      · cases hq
    intro q hq
    rw [takePieces] at hq
    dsimp only at hq
    by_cases hstop : stop < offset + length
    · rw [if_pos hstop] at hq
      exact hhere q hq
    · rw [if_neg hstop] at hq
      exact (List.mem_append.mp hq).elim (hhere q) (ih q)

theorem positive_redactSpansFrom {text : Text} {spans : List Span} {last : ℕ}
    {cursor : PieceCursor} : ∀ p ∈ (redactSpansFrom text spans last cursor).2, 0 < p.1 := by
  induction spans generalizing last cursor with
  | nil => exact positive_takePieces
  | cons s spans ih =>
    intro p hp
    simp only [redactSpansFrom, List.mem_append, List.mem_singleton] at hp
    rcases hp with (hp | rfl) | hp
    · exact positive_takePieces p hp
    · exact Nat.succ_pos _
    · exact ih p hp

theorem positive_boundTracked {text bounded : Text} {pieces : List Piece}
    (h : ∀ p ∈ pieces, 0 < p.1) : ∀ p ∈ boundTracked text pieces bounded, 0 < p.1 := by
  intro p hp
  rw [boundTracked] at hp
  dsimp only at hp
  split_ifs at hp with hsame hlt
  · exact h p hp
  · rcases List.mem_append.mp hp with hp | hp
    · exact positive_takePieces p hp
    · rw [List.mem_singleton.mp hp]
      exact Nat.sub_pos_of_lt hlt
  · rw [List.append_nil] at hp
    exact positive_takePieces p hp

/-! ## Passes -/

structure Tracks (text current : Text) (pieces : List Piece) : Prop where
  fits : Fits current pieces
  keeps : Tracked.Keeps text (track current pieces)
  positive : ∀ p ∈ pieces, 0 < p.1

theorem origins_wholePieces (text : Text) :
    origins (wholePieces text) = (List.range' 0 text.length).map some := by
  cases text with
  | nil => rfl
  | cons c cs => exact List.append_nil _

theorem track_wholePieces (text : Text) : track text (wholePieces text) = Tracked.whole text := by
  refine track_eq_of_parts (Tracked.map_fst_whole text) ?_
  rw [origins_wholePieces, Tracked.whole, List.map_map, ← List.zipIdx_map_snd 0 text, List.map_map]
  rfl

theorem tracks_whole (text : Text) : Tracks text text (wholePieces text) where
  fits := by rw [Fits, origins_wholePieces, List.length_map, List.length_range']
  keeps := by
    rw [track_wholePieces]
    exact Tracked.keeps_whole text
  positive := by
    intro p hp
    cases text with
    | nil => cases hp
    | cons c cs =>
      rw [List.mem_singleton.mp hp]
      exact Nat.succ_pos _

/-- Redacting spans loses characters and keeps the others where they were. -/
theorem Tracks.redact {text current : Text} {pieces : List Piece} (h : Tracks text current pieces)
    {spans : List Span} (hspans : Ranges.Ordered 0 spans)
    (hinside : ∀ s ∈ spans, s.2 ≤ current.length) :
    Tracks text (redactSpansTracked current pieces spans).1
      (redactSpansTracked current pieces spans).2 := by
  obtain ⟨htrack, hfits⟩ := track_redactSpansTracked h.fits hspans hinside
  refine ⟨hfits, ?_, positive_redactSpansFrom⟩
  rw [Tracked.Keeps, htrack]
  exact (Tracked.kept_replace_sublist _ _ (ordered_afterMarks _ hspans)).trans h.keeps

theorem Tracks.bound {text current : Text} {pieces : List Piece} (h : Tracks text current pieces)
    (bounded : Text) : Tracks text bounded (boundTracked current pieces bounded) := by
  obtain ⟨hfits, low, _, htrack⟩ := track_boundTracked h.fits bounded
  refine ⟨hfits, ?_, positive_boundTracked h.positive⟩
  rw [Tracked.Keeps, htrack, Tracked.kept_append, Tracked.kept_inserted, List.append_nil]
  exact ((List.take_sublist low _).filterMap _).trans h.keeps

section

variable {word : Char → Bool} {bound : Text → Text} {text current : Text} {pieces : List Piece}

def redactedTrack (word : Char → Bool) (current : Text) (pieces : List Piece) : Tracked Char :=
  Ranges.replace (Tracked.inserted redactionMarker) (track current pieces)
    ((secretSpans word current).map (afterMarks current)) 0

theorem basePass_spec (h : Fits current pieces) :
    let next := basePass word bound current pieces
    Fits next.1 next.2 ∧ ∃ low,
      (∀ k ≤ min (redactSecretSpans word current).length next.1.length,
        (redactSecretSpans word current).take k = next.1.take k → k ≤ low) ∧
      track next.1 next.2 =
        (redactedTrack word current pieces).take low ++ Tracked.inserted (next.1.drop low) := by
  have hspans := spansOf_secretSpans word current
  obtain ⟨hredacted, hfits⟩ := track_redactSpansTracked h hspans.ordered hspans.inside
  have hsame : (redactSpansTracked current pieces (secretSpans word current)).1 =
      redactSecretSpans word current := redactSpansFrom_fst _ _ _ _ _
  rw [redactedTrack, ← hredacted, ← hsame]
  exact track_boundTracked hfits _

theorem kept_basePass (h : Fits current pieces) :
    (Tracked.kept (track (basePass word bound current pieces).1
      (basePass word bound current pieces).2)).Sublist
        (Tracked.kept (redactedTrack word current pieces)) := by
  obtain ⟨_, low, _, htrack⟩ := @basePass_spec word bound current pieces h
  rw [htrack, Tracked.kept_append, Tracked.kept_inserted, List.append_nil]
  exact (List.take_sublist _ _).filterMap _

theorem kept_redactedTrack (word : Char → Bool) (current : Text) (pieces : List Piece) :
    (Tracked.kept (redactedTrack word current pieces)).Sublist
      (Tracked.kept (track current pieces)) :=
  Tracked.kept_replace_sublist _ _ (ordered_afterMarks _ (spansOf_secretSpans word current).ordered)

theorem Tracks.basePass (h : Tracks text current pieces) :
    Tracks text (basePass word bound current pieces).1 (basePass word bound current pieces).2 := by
  have hspans := spansOf_secretSpans word current
  exact (h.redact hspans.ordered hspans.inside).bound _

/-- The passes lose characters and keep the others where they were. -/
theorem Tracks.baseLoop {passes : ℕ} {result : Text × List Piece} (h : Tracks text current pieces)
    (hloop : baseLoop word bound passes current pieces = some result) :
    Tracks text result.1 result.2 ∧ (Tracked.kept (track result.1 result.2)).Sublist
      (Tracked.kept (track current pieces)) := by
  induction passes generalizing current pieces with
  | zero => cases hloop
  | succ passes ih =>
    simp only [NetboxRpc.baseLoop] at hloop
    split_ifs at hloop
    · cases hloop
      exact ⟨h, List.Sublist.refl _⟩
    · obtain ⟨htracks, hkept⟩ := ih h.basePass hloop
      exact ⟨htracks, hkept.trans ((kept_basePass h.fits).trans (kept_redactedTrack _ _ _))⟩

theorem tracks_baseFixedPoint {result : Text × List Piece}
    (h : baseFixedPoint word bound text = some result) : Tracks text result.1 result.2 :=
  ((tracks_whole text).baseLoop h).1

end

end NetboxRpc
