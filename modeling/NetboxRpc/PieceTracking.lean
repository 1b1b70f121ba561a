import NetboxRpc.TextTracking

/-!
# The pieces of a redacted text

Any number of redactions and bounds, in any order, carry a list of pieces along with the text. The
pieces cover the text, each sourced piece is a slice of the original text, and the slices do not go
back. Reading adjacent ranges through one cursor gives the positions of the whole range; only a
piece that a boundary cuts comes in two parts.
-/

namespace NetboxRpc

/-! ## What the pieces say -/

def totalLength (pieces : List Piece) : ℕ := (pieces.map Prod.fst).sum

def sourceRanges (pieces : List Piece) : List Span :=
  pieces.filterMap fun p => p.2.map fun source => (source, source + p.1)

structure FaithfulPieces (text current : Text) (pieces : List Piece) : Prop where
  lengths : totalLength pieces = current.length
  slices : ∀ before after length source, pieces = before ++ (length, some source) :: after →
    slice current (totalLength before) (totalLength before + length) =
        slice text source (source + length) ∧
      source + length ≤ text.length
  forward : (sourceRanges pieces).Pairwise fun r r' => r.1 < r'.1 ∧ r.2 ≤ r'.1

inductive Carried (text : Text) : Text → List Piece → Prop
  | whole : Carried text text (wholePieces text)
  | redact {current : Text} {pieces : List Piece} (spans : List Span) :
      Carried text current pieces → Ranges.Ordered 0 spans →
      (∀ s ∈ spans, s.2 ≤ current.length) →
      Carried text (redactSpansTracked current pieces spans).1
        (redactSpansTracked current pieces spans).2
  | bound {current : Text} {pieces : List Piece} (bounded : Text) :
      Carried text current pieces → Carried text bounded (boundTracked current pieces bounded)

theorem Carried.tracks {text current : Text} {pieces : List Piece}
    (h : Carried text current pieces) : Tracks text current pieces := by
  induction h with
  | whole => exact tracks_whole text
  | redact spans _ hspans hinside ih => exact ih.redact hspans hinside
  | bound bounded _ ih => exact ih.bound bounded

theorem Carried.baseLoop {text current : Text} {pieces : List Piece} {word : Char → Bool}
    {bound : Text → Text} {passes : ℕ} {result : Text × List Piece}
    (h : Carried text current pieces)
    (hloop : NetboxRpc.baseLoop word bound passes current pieces = some result) :
    Carried text result.1 result.2 := by
  induction passes generalizing current pieces with
  | zero => cases hloop
  | succ passes ih =>
    simp only [NetboxRpc.baseLoop] at hloop
    split_ifs at hloop
    · cases hloop
      exact h
    · have hspans := spansOf_secretSpans word current
      exact ih ((h.redact _ hspans.ordered hspans.inside).bound _) hloop

theorem length_origins (pieces : List Piece) : (origins pieces).length = totalLength pieces := by
  rw [origins, List.length_flatMap, totalLength]
  congr 1
  exact List.map_congr_left fun p _ => length_pieceOrigins p

section Tracks

variable {text current : Text} {pieces : List Piece}

/-- The character at a position of a sourced piece is the one it comes from. -/
theorem Tracks.getElem?_piece (h : Tracks text current pieces) {before after : List Piece}
    {length source : ℕ} (hpieces : pieces = before ++ (length, some source) :: after) {j : ℕ}
    (hj : j < length) : current[totalLength before + j]? = text[source + j]? := by
  have horigin : (origins pieces)[totalLength before + j]? = some (some (source + j)) := by
    rw [hpieces, origins_append, origins_cons, ← length_origins,
      List.getElem?_append_right (Nat.le_add_right _ _), Nat.add_sub_cancel_left,
      List.getElem?_append_left (by rw [length_pieceOrigins]; exact hj)]
    simp [pieceOrigins, hj]
  have hinside : totalLength before + j < current.length := by
    rw [← h.fits]
    exact (List.getElem?_eq_some_iff.mp horigin).1
  have hchar : current[totalLength before + j]? = some current[totalLength before + j] :=
    List.getElem?_eq_getElem hinside
  have hmem : (current[totalLength before + j], some (source + j)) ∈ track current pieces := by
    apply List.mem_of_getElem?
    exact List.getElem?_zip_eq_some.mpr ⟨hchar, horigin⟩
  rw [hchar, h.keeps.getElem? hmem]

theorem Tracks.slice_piece (h : Tracks text current pieces) {before after : List Piece}
    {length source : ℕ} (hpieces : pieces = before ++ (length, some source) :: after) :
    slice current (totalLength before) (totalLength before + length) =
      slice text source (source + length) := by
  apply List.ext_getElem?
  intro j
  rw [slice, slice, List.getElem?_drop, List.getElem?_drop, List.getElem?_take,
    List.getElem?_take]
  by_cases hj : j < length
  · rw [if_pos (by omega), if_pos (by omega)]
    exact h.getElem?_piece hpieces hj
  · rw [if_neg (by omega), if_neg (by omega)]

theorem Tracks.source_inside (h : Tracks text current pieces) {before after : List Piece}
    {length source : ℕ} (hpieces : pieces = before ++ (length, some source) :: after) :
    source + length ≤ text.length := by
  have hpositive : 0 < length := h.positive (length, some source) (by simp [hpieces])
  have htotal : totalLength before + length ≤ current.length := by
    rw [← h.fits, length_origins, hpieces]
    simp only [totalLength, List.map_append, List.map_cons, List.sum_append, List.sum_cons]
    omega
  have hlast := h.getElem?_piece hpieces (show length - 1 < length by omega)
  rw [List.getElem?_eq_getElem (by omega)] at hlast
  have := (List.getElem?_eq_some_iff.mp hlast.symm).1
  omega

/-- The kept positions increase. -/
theorem Tracks.pairwise_origins (h : Tracks text current pieces) :
    ((origins pieces).filterMap id).Pairwise (· < ·) := by
  have hkept : (origins pieces).filterMap id =
      (Tracked.kept (track current pieces)).map Prod.snd := by
    rw [← map_snd_track h.fits, Tracked.kept, List.map_filterMap, List.filterMap_map]
    apply List.filterMap_congr
    rintro ⟨c, origin⟩ -
    cases origin <;> rfl
  have hall : (text.zipIdx.map Prod.snd).Pairwise (· < ·) := by
    rw [List.zipIdx_map_snd]
    exact List.pairwise_lt_range'
  rw [hkept]
  exact hall.sublist (h.keeps.map Prod.snd)

end Tracks

theorem filterMap_pieceOrigins (length source : ℕ) :
    (pieceOrigins (length, some source)).filterMap id = List.range' source length := by
  simp [pieceOrigins, List.filterMap_map]

/-- The first position of a sourced piece that is not empty is kept. -/
theorem mem_origins_of_sourceRange {pieces : List Piece} (hpositive : ∀ p ∈ pieces, 0 < p.1)
    {r : Span} (hr : r ∈ sourceRanges pieces) : r.1 ∈ (origins pieces).filterMap id := by
  rw [sourceRanges, List.mem_filterMap] at hr
  obtain ⟨⟨length, origin⟩, hp, hr⟩ := hr
  obtain ⟨source, rfl, rfl⟩ := Option.map_eq_some_iff.mp hr
  have hlength := hpositive _ hp
  simp only [List.mem_filterMap, id, exists_eq_right]
  rw [origins, List.mem_flatMap]
  refine ⟨_, hp, ?_⟩
  simp only [pieceOrigins, List.mem_map, List.mem_range'_1, Option.some.injEq, exists_eq_right]
  omega

theorem sourceRanges_forward {pieces : List Piece} (hpositive : ∀ p ∈ pieces, 0 < p.1)
    (h : ((origins pieces).filterMap id).Pairwise (· < ·)) :
    (sourceRanges pieces).Pairwise fun r r' => r.1 < r'.1 ∧ r.2 ≤ r'.1 := by
  induction pieces with
  | nil => exact .nil
  | cons p rest ih =>
    obtain ⟨length, origin⟩ := p
    obtain ⟨hlength, hrest⟩ := List.forall_mem_cons.mp hpositive
    rw [origins_cons, List.filterMap_append, List.pairwise_append] at h
    cases origin with
    | none => exact ih hrest h.2.1
    | some source =>
      refine List.Pairwise.cons ?_ (ih hrest h.2.1)
      intro r hr
      -- the last position of this piece comes before the first one of any later piece
      have hlast := h.2.2 (source + (length - 1))
        (by rw [filterMap_pieceOrigins, List.mem_range'_1]; omega) r.1
        (mem_origins_of_sourceRange hrest hr)
      simp only at hlength hlast ⊢
      omega

theorem Tracks.faithfulPieces {text current : Text} {pieces : List Piece}
    (h : Tracks text current pieces) : FaithfulPieces text current pieces where
  lengths := by rw [← length_origins, h.fits]
  slices := fun _ _ _ _ hpieces => ⟨h.slice_piece hpieces, h.source_inside hpieces⟩
  forward := sourceRanges_forward h.positive h.pairwise_origins

/-! ## Adjacent ranges -/

def PieceCursor.takes (c : PieceCursor) (start : ℕ) : List ℕ → List Piece
  | [] => []
  | stop :: stops => (c.take start stop).1 ++ (c.take start stop).2.takes stop stops

def CutsPiece (start middle stop : ℕ) : List Piece → ℕ → Prop
  | [], _ => False
  | (length, _) :: rest, offset =>
    (max start offset < middle ∧ middle < min stop (offset + length)) ∨
      CutsPiece start middle stop rest (offset + length)

theorem PieceCursor.at_self (c : PieceCursor) :
    c.At (List.replicate c.offset none ++ origins c.pieces) where
  pieces := (List.drop_left' List.length_replicate).symm

theorem le_getLastD {start : ℕ} {stops : List ℕ} (h : (start :: stops).Pairwise (· ≤ ·)) :
    start ≤ stops.getLastD start := by
  rw [List.getLastD_eq_getLast?]
  cases hend : stops.getLast? with
  | none => exact le_refl start
  | some last => exact (List.pairwise_cons.mp h).1 last (List.mem_of_getLast? hend)

theorem PieceCursor.At.takes {all : List (Option ℕ)} {c : PieceCursor} (h : c.At all)
    {start : ℕ} {stops : List ℕ} (hstart : c.offset ≤ start)
    (hstops : (start :: stops).Pairwise (· ≤ ·)) :
    origins (c.takes start stops) = Ranges.slice all start (stops.getLastD start) := by
  induction stops generalizing c start with
  | nil => exact (slice_eq_nil (.inl (le_refl start))).symm
  | cons stop stops ih =>
    obtain ⟨hfirst, hrest⟩ := List.pairwise_cons.mp hstops
    obtain ⟨hhere, hnext, hoffset⟩ := h.take hstart (hfirst stop List.mem_cons_self)
    rw [PieceCursor.takes, origins_append, hhere, ih hnext hoffset hrest,
      Ranges.slice_append_slice all (hfirst stop List.mem_cons_self) (le_getLastD hrest),
      List.getLastD_cons]

theorem PieceCursor.origins_takes {c : PieceCursor} {start : ℕ} {stops : List ℕ}
    (hstart : c.offset ≤ start) (hstops : (start :: stops).Pairwise (· ≤ ·)) :
    origins (c.takes start stops) = origins (c.take start (stops.getLastD start)).1 := by
  rw [c.at_self.takes hstart hstops, (c.at_self.take hstart (le_getLastD hstops)).1]

def piecePart (start stop length offset : ℕ) (source : Option ℕ) : List Piece :=
  if max start offset < min stop (offset + length) then
    [(min stop (offset + length) - max start offset,
      source.map fun s => s + (max start offset - offset))]
  else []

theorem takePieces_cons (start stop length offset : ℕ) (source : Option ℕ) (rest : List Piece) :
    (takePieces start stop ((length, source) :: rest) offset).1 =
      piecePart start stop length offset source ++
        if stop < offset + length then []
        else (takePieces start stop rest (offset + length)).1 := by
  rw [takePieces, piecePart]
  by_cases hstop : stop < offset + length
  · simp only [if_pos hstop, List.append_nil]
  · simp only [if_neg hstop]

theorem takePieces_start {start start' stop : ℕ} {pieces : List Piece} {offset : ℕ}
    (h : start ≤ offset) (h' : start' ≤ offset) :
    takePieces start stop pieces offset = takePieces start' stop pieces offset := by
  induction pieces generalizing offset with
  | nil => rfl
  | cons p rest ih =>
    obtain ⟨length, source⟩ := p
    rw [takePieces, takePieces, Nat.max_eq_right h, Nat.max_eq_right h',
      ih (h.trans (Nat.le_add_right _ _)) (h'.trans (Nat.le_add_right _ _))]

theorem not_cutsPiece_of_start {start stop : ℕ} {pieces : List Piece} {offset : ℕ} :
    ¬ CutsPiece start start stop pieces offset := by
  induction pieces generalizing offset with
  | nil => exact id
  | cons p rest ih =>
    rintro (⟨hlow, -⟩ | hrest)
    · omega
    · exact ih hrest

theorem not_cutsPiece_of_le {start middle stop : ℕ} {pieces : List Piece} {offset : ℕ}
    (h : middle ≤ offset) : ¬ CutsPiece start middle stop pieces offset := by
  induction pieces generalizing offset with
  | nil => exact id
  | cons p rest ih =>
    rintro (⟨hlow, -⟩ | hrest)
    · omega
    · exact ih (h.trans (Nat.le_add_right _ _)) hrest

/-- Within the piece that holds the boundary. -/
theorem piecePart_append_cases {start middle stop length offset : ℕ} {source : Option ℕ}
    (hstart : start ≤ middle) (hoffset : offset ≤ middle) (hmiddle : middle < offset + length)
    (hstop : middle ≤ stop) :
    if max start offset < middle ∧ middle < min stop (offset + length) then
      (piecePart start stop length offset source).length <
        (piecePart start middle length offset source ++
          piecePart middle stop length offset source).length
    else piecePart start middle length offset source ++ piecePart middle stop length offset source =
      piecePart start stop length offset source := by
  have hfirst : min middle (offset + length) = middle := by omega
  have hsecond : max middle offset = middle := by omega
  split_ifs with hcut
  · -- the piece is cut, and comes in two parts
    have hwhole : max start offset < min stop (offset + length) := by omega
    simp only [piecePart, hfirst, hsecond, if_pos hcut.1, if_pos hcut.2, if_pos hwhole,
      List.length_append, List.length_cons, List.length_nil]
    omega
  · by_cases hbegin : max start offset < middle
    · have hsame : min stop (offset + length) = middle := by omega
      simp only [piecePart, hfirst, hsecond, hsame, lt_irrefl, if_false, List.append_nil]
    · have hsame : max start offset = middle := by omega
      simp only [piecePart, hfirst, hsecond, hsame, lt_irrefl, if_false, List.nil_append]

/-- What two takes over adjacent ranges return: the pieces of the whole range, or more of them when
the boundary cuts a piece. -/
structure Adjoins (parts whole : List Piece) (cut : Prop) : Prop where
  same : ¬ cut → parts = whole
  more : cut → whole.length < parts.length

theorem Adjoins.cons_left {parts whole : List Piece} {cut : Prop} (h : Adjoins parts whole cut)
    (first : List Piece) : Adjoins (first ++ parts) (first ++ whole) cut where
  same := fun hcut => by rw [h.same hcut]
  more := fun hcut => by
    have := h.more hcut
    simp only [List.length_append]
    omega

theorem Adjoins.length_le {parts whole : List Piece} {cut : Prop} (h : Adjoins parts whole cut) :
    whole.length ≤ parts.length := by
  by_cases hcut : cut
  · exact (h.more hcut).le
  · rw [h.same hcut]

theorem takePieces_adjoins {start middle stop : ℕ} {pieces : List Piece} {offset : ℕ}
    (hstart : start ≤ middle) (hoffset : offset ≤ middle) (hstop : middle ≤ stop) :
    Adjoins ((takePieces start middle pieces offset).1 ++
        ((takePieces start middle pieces offset).2.take middle stop).1)
      (takePieces start stop pieces offset).1 (CutsPiece start middle stop pieces offset) := by
  induction pieces generalizing offset with
  | nil => exact ⟨fun _ => rfl, fun h => h.elim⟩
  | cons p rest ih =>
    obtain ⟨length, source⟩ := p
    by_cases hmiddle : middle < offset + length
    · have hnext : (takePieces start middle ((length, source) :: rest) offset).2 =
          ⟨(length, source) :: rest, offset⟩ := by
        rw [takePieces]
        simp only [if_pos hmiddle]
      have hmore : (takePieces middle stop rest (offset + length)).1 =
          (takePieces start stop rest (offset + length)).1 := by
        rw [takePieces_start hmiddle.le (hstart.trans hmiddle.le)]
      rw [hnext, PieceCursor.take]
      simp only
      rw [takePieces_cons, takePieces_cons, takePieces_cons, if_pos hmiddle, List.append_nil, hmore,
        CutsPiece, or_iff_left (not_cutsPiece_of_le hmiddle.le)]
      have hhere := @piecePart_append_cases _ _ _ _ _ source hstart hoffset hmiddle hstop
      constructor
      · intro hcut
        rw [if_neg hcut] at hhere
        rw [← List.append_assoc, hhere]
      · intro hcut
        rw [if_pos hcut] at hhere
        simp only [List.length_append] at hhere ⊢
        omega
    · have hle : offset + length ≤ middle := Nat.not_lt.mp hmiddle
      have hnext : (takePieces start middle ((length, source) :: rest) offset).2 =
          (takePieces start middle rest (offset + length)).2 := by
        rw [takePieces]
        simp only [if_neg hmiddle]
      have hpart : piecePart start middle length offset source =
          piecePart start stop length offset source := by
        simp only [piecePart, Nat.min_eq_right hle, Nat.min_eq_right (hle.trans hstop)]
      have hhere : ¬ (max start offset < middle ∧ middle < min stop (offset + length)) := by omega
      rw [hnext, takePieces_cons, takePieces_cons, if_neg hmiddle,
        if_neg (Nat.not_lt.mpr (hle.trans hstop)), hpart, List.append_assoc, CutsPiece,
        or_iff_right hhere]
      exact (ih hle).cons_left _

/-- After a take up to `middle`, a later boundary cuts a piece that is left if it cuts one at
all. -/
theorem cutsPiece_next_iff {start middle later stop : ℕ} {pieces : List Piece} {offset : ℕ}
    (hstart : start ≤ middle) (hlater : middle < later) :
    CutsPiece middle later stop (takePieces start middle pieces offset).2.pieces
        (takePieces start middle pieces offset).2.offset ↔
      CutsPiece start later stop pieces offset := by
  -- From here on only what lies behind `middle` counts, so the two starts do not differ.
  have hsame : ∀ (pieces : List Piece) (offset : ℕ),
      CutsPiece middle later stop pieces offset ↔ CutsPiece start later stop pieces offset := by
    intro pieces
    induction pieces with
    | nil => exact fun _ => Iff.rfl
    | cons p rest ih =>
      intro offset
      rw [CutsPiece, CutsPiece, ih]
      refine or_congr_left (and_congr_left fun _ => ?_)
      omega
  induction pieces generalizing offset with
  | nil => exact Iff.rfl
  | cons p rest ih =>
    obtain ⟨length, source⟩ := p
    rw [takePieces]
    by_cases hmiddle : middle < offset + length
    · simp only [if_pos hmiddle]
      exact hsame _ _
    · simp only [if_neg hmiddle]
      refine ih.trans ?_
      rw [CutsPiece, or_iff_right]
      omega

theorem takePieces_self (start : ℕ) (pieces : List Piece) (offset : ℕ) :
    (takePieces start start pieces offset).1 = [] := by
  induction pieces generalizing offset with
  | nil => rfl
  | cons p rest ih =>
    obtain ⟨length, source⟩ := p
    have hpart : piecePart start start length offset source = [] := if_neg (by omega)
    rw [takePieces_cons, hpart, ih, ite_self, List.append_nil]

/-- Takes up to successive boundaries return the pieces of the whole range, and more of them when a
boundary cuts a piece. -/
theorem PieceCursor.takes_adjoins {c : PieceCursor} {start : ℕ} {stops : List ℕ}
    (hoffset : c.offset ≤ start) (hstops : (start :: stops).Pairwise (· ≤ ·)) :
    Adjoins (c.takes start stops) (c.take start (stops.getLastD start)).1
      (∃ middle ∈ stops, CutsPiece start middle (stops.getLastD start) c.pieces c.offset) := by
  induction stops generalizing c start with
  | nil => exact ⟨fun _ => (takePieces_self ..).symm, fun ⟨_, h, _⟩ => nomatch h⟩
  | cons middle stops ih =>
    obtain ⟨hfirst, hrest⟩ := List.pairwise_cons.mp hstops
    have hstart := hfirst middle List.mem_cons_self
    have hlast := le_getLastD hrest
    have hnext := (c.at_self.take hoffset hstart).2.2
    have hhead : Adjoins _ (c.take start (stops.getLastD middle)).1 _ :=
      takePieces_adjoins hstart (hoffset.trans hstart) hlast
    have htail := ih hnext hrest
    rw [List.getLastD_cons, PieceCursor.takes]
    constructor
    · intro hcut
      have hmiddle : ¬ CutsPiece start middle (stops.getLastD middle) c.pieces c.offset :=
        fun h => hcut ⟨middle, List.mem_cons_self, h⟩
      rw [htail.same, ← hhead.same hmiddle]
      · rfl
      · rintro ⟨later, hlater, h⟩
        rcases ((List.pairwise_cons.mp hrest).1 later hlater).eq_or_lt with rfl | hlt
        · exact not_cutsPiece_of_start h
        · exact hcut ⟨later, List.mem_cons_of_mem _ hlater, (cutsPiece_next_iff hstart hlt).mp h⟩
    · rintro ⟨later, hlater, h⟩
      have hle := htail.length_le
      by_cases hmiddle : CutsPiece start middle (stops.getLastD middle) c.pieces c.offset
      · have hlt := hhead.more hmiddle
        rw [List.length_append] at hlt ⊢
        exact hlt.trans_le (Nat.add_le_add_left hle _)
      · have hlt : middle < later := by
          rcases List.mem_cons.mp hlater with rfl | hlater
          · exact absurd h hmiddle
          · refine lt_of_le_of_ne ((List.pairwise_cons.mp hrest).1 later hlater) ?_
            rintro rfl
            exact hmiddle h
        have hmem := (List.mem_cons.mp hlater).resolve_left hlt.ne'
        have hmore := htail.more ⟨later, hmem, (cutsPiece_next_iff hstart hlt).mpr h⟩
        rw [← hhead.same hmiddle, List.length_append, List.length_append]
        exact Nat.add_lt_add_left hmore _

/-- Takes up to successive boundaries return the very pieces of the whole range if no boundary cuts
a piece, and only then. -/
theorem PieceCursor.takes_eq_iff {c : PieceCursor} {start : ℕ} {stops : List ℕ}
    (hoffset : c.offset ≤ start) (hstops : (start :: stops).Pairwise (· ≤ ·)) :
    c.takes start stops = (c.take start (stops.getLastD start)).1 ↔
      ∀ middle ∈ stops, ¬ CutsPiece start middle (stops.getLastD start) c.pieces c.offset := by
  have hadjoins := c.takes_adjoins hoffset hstops
  constructor
  · intro hsame middle hmiddle hcut
    have hmore := hadjoins.more ⟨middle, hmiddle, hcut⟩
    rw [hsame] at hmore
    exact lt_irrefl _ hmore
  · intro hnone
    exact hadjoins.same fun ⟨middle, hmiddle, hcut⟩ => hnone middle hmiddle hcut

/-- The pieces that redactions and bounds carry are faithful to the original text, and the passes
of `baseFixedPoint` are such redactions and bounds. Reading adjacent ranges through one cursor gives
the positions of the whole range, and the very pieces of it exactly when no boundary cuts a piece. -/
theorem piece_tracking_faithful (text : Text) :
    (∀ current pieces, Carried text current pieces → FaithfulPieces text current pieces) ∧
      (∀ word bound result, baseFixedPoint word bound text = some result →
        Carried text result.1 result.2) ∧
      ∀ (c : PieceCursor) (start : ℕ) (stops : List ℕ), c.offset ≤ start →
        (start :: stops).Pairwise (· ≤ ·) →
        origins (c.takes start stops) = origins (c.take start (stops.getLastD start)).1 ∧
          (c.takes start stops = (c.take start (stops.getLastD start)).1 ↔
            ∀ middle ∈ stops,
              ¬ CutsPiece start middle (stops.getLastD start) c.pieces c.offset) :=
  ⟨fun _ _ h => h.tracks.faithfulPieces, fun _ _ _ h => Carried.whole.baseLoop h,
    fun _ _ _ hoffset hstops => ⟨PieceCursor.origins_takes hoffset hstops,
      PieceCursor.takes_eq_iff hoffset hstops⟩⟩

theorem piece_tracking_faithful_masked :
    FaithfulPieces "a=secret".toList "a=[REDACTED]".toList [(2, some 0), (10, none)] ∧
      origins ((PieceCursor.mk [(2, some 0), (10, none)] 0).takes 0 [1, 2, 5, 12]) =
        origins ((PieceCursor.mk [(2, some 0), (10, none)] 0).take 0 12).1 := by
  have hspans : Ranges.Ordered 0 [((2, 8) : Span)] :=
    .cons (by decide) (by decide) (.nil 8)
  have hcarried : Carried "a=secret".toList "a=[REDACTED]".toList [(2, some 0), (10, none)] :=
    Carried.redact [(2, 8)] Carried.whole hspans (by decide)
  exact ⟨(piece_tracking_faithful "a=secret".toList).1 _ _ hcarried,
    ((piece_tracking_faithful "a=secret".toList).2.2 _ 0 [1, 2, 5, 12] (le_refl 0)
      (by decide)).1⟩

/-- A boundary inside a piece: the cursor returns the piece in two parts. -/
theorem cut_piece_in_parts :
    (PieceCursor.mk (wholePieces "hello".toList) 0).takes 0 [2, 5] = [(2, some 0), (3, some 2)] ∧
      ((PieceCursor.mk (wholePieces "hello".toList) 0).take 0 5).1 = [(5, some 0)] := by
  decide

end NetboxRpc
