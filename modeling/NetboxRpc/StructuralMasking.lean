import NetboxRpc.TextTracking

/-!
# Structural masking

The walk over the pieces, the merging of ranges and the absorption of markers amount to one rule on
the tracked text: split it into runs of characters that are masked or inserted and runs of the
others, and replace each run that holds a masked character by one marker.
-/

namespace NetboxRpc

open Regex

/-! ## Positions under spans -/

def covered (spans : List Span) (p : ℕ) : Bool := spans.any (fun s => s.1 ≤ p && p < s.2)

theorem covered_iff (spans : List Span) (p : ℕ) :
    covered spans p = true ↔ Ranges.Covers spans p := by
  simp [covered, Ranges.Covers]

def isMasked (structural : List Span) (e : Char × Option ℕ) : Bool := e.2.any (covered structural)

def isClosed (structural : List Span) (e : Char × Option ℕ) : Bool := e.2.all (covered structural)

def maskedRuns (structural : List Span) (t : Tracked Char) : Text :=
  (t.splitBy (fun x y => isClosed structural x == isClosed structural y)).flatMap
    (fun run => if run.any (isMasked structural) then redactionMarker else run.map Prod.fst)

section

variable {structural : List Span}

structure InOrder (spans : List Span) : Prop where
  apart : spans.Pairwise (fun a b => a.2 ≤ b.1)
  nonempty : ∀ s ∈ spans, s.1 < s.2

theorem InOrder.starts {spans : List Span} (h : InOrder spans) :
    spans.Pairwise (fun a b => a.1 ≤ b.1) := by
  refine h.apart.imp_of_mem (fun {a b} ha _ hab => ?_)
  have := h.nonempty a ha
  omega

theorem InOrder.sublist {spans others : List Span} (h : InOrder spans)
    (hsub : others.Sublist spans) : InOrder others :=
  ⟨h.apart.sublist hsub, fun s hs => h.nonempty s (hsub.subset hs)⟩

theorem mem_takeWhile_of_lt {spans : List Span} (h : spans.Pairwise (fun a b => a.1 ≤ b.1))
    {s : Span} {stop : ℕ} (hs : s ∈ spans) (hlt : s.1 < stop) :
    s ∈ spans.takeWhile (fun s => s.1 < stop) := by
  induction spans with
  | nil => cases hs
  | cons a spans ih =>
    rw [List.pairwise_cons] at h
    have hhead : a.1 < stop := by
      rcases List.mem_cons.mp hs with rfl | hs
      · exact hlt
      · exact (h.1 s hs).trans_lt hlt
    rw [List.takeWhile_cons_of_pos (by simpa using hhead)]
    rcases List.mem_cons.mp hs with rfl | hs
    · exact List.mem_cons_self
    · exact List.mem_cons_of_mem _ (ih h.2 hs)

theorem covers_dropWhile {spans : List Span} {source p : ℕ} (hp : source ≤ p) :
    Ranges.Covers (spans.dropWhile (fun s => s.2 ≤ source)) p ↔ Ranges.Covers spans p := by
  induction spans with
  | nil => rfl
  | cons a spans ih =>
    by_cases ha : a.2 ≤ source
    · rw [List.dropWhile_cons_of_pos (by simpa using ha), ih, Ranges.covers_cons]
      exact (or_iff_right (fun h => by omega)).symm
    · rw [List.dropWhile_cons_of_neg (by simpa using ha)]

theorem InOrder.stop_gt_of_mem_dropWhile {spans : List Span} (h : InOrder spans) {source : ℕ}
    {s : Span} (hs : s ∈ spans.dropWhile (fun s => s.2 ≤ source)) : source < s.2 := by
  induction spans with
  | nil => cases hs
  | cons a spans ih =>
    by_cases ha : a.2 ≤ source
    · rw [List.dropWhile_cons_of_pos (by simpa using ha)] at hs
      exact ih (h.sublist (List.sublist_cons_self a spans)) hs
    · rw [List.dropWhile_cons_of_neg (by simpa using ha)] at hs
      rcases List.mem_cons.mp hs with rfl | hs'
      · exact Nat.not_le.mp ha
      · have hapart := (List.pairwise_cons.mp h.apart).1 s hs'
        have hne := h.nonempty s hs
        omega

/-! ## The walk over the pieces -/

theorem mem_coveredRanges {ahead : List Span} (h : InOrder ahead) {offset length source : ℕ}
    (hstop : ∀ s ∈ ahead, source < s.2) (hlength : 0 < length) {r : Span}
    (hr : r ∈ coveredRanges ahead offset length source) :
    offset ≤ r.1 ∧ r.1 < r.2 ∧ r.2 ≤ offset + length := by
  obtain ⟨s, hs, rfl⟩ := List.mem_map.mp hr
  have hmem := (List.takeWhile_prefix _).subset hs
  have hstart : s.1 < source + length := by simpa using List.mem_takeWhile_imp hs
  have hne := h.nonempty s hmem
  have := hstop s hmem
  refine ⟨by omega, ?_, by omega⟩
  simp only
  omega

theorem covers_coveredRanges {ahead : List Span} (h : InOrder ahead) {offset length source : ℕ}
    (hstop : ∀ s ∈ ahead, source < s.2) {k : ℕ} (hk : k < length) :
    Ranges.Covers (coveredRanges ahead offset length source) (offset + k) ↔
      Ranges.Covers ahead (source + k) := by
  constructor
  · rintro ⟨r, hr, hlow, hhigh⟩
    obtain ⟨s, hs, rfl⟩ := List.mem_map.mp hr
    have hmem := (List.takeWhile_prefix _).subset hs
    have := hstop s hmem
    simp only at hlow hhigh
    exact ⟨s, hmem, by omega, by omega⟩
  · rintro ⟨s, hs, hlow, hhigh⟩
    have hmem := mem_takeWhile_of_lt h.starts hs (show s.1 < source + length by omega)
    refine ⟨_, List.mem_map_of_mem hmem, ?_, ?_⟩ <;> simp only <;> omega

theorem starts_coveredRanges {ahead : List Span} (h : InOrder ahead) (offset length source : ℕ) :
    (coveredRanges ahead offset length source).Pairwise (fun a b => a.1 ≤ b.1) := by
  refine List.pairwise_map.mpr ((h.starts.sublist (List.takeWhile_prefix _).sublist).imp ?_)
  intro a b hab
  omega

def sources (pieces : List Piece) : List ℕ := (origins pieces).filterMap id

theorem getElem?_pieceOrigins_some (length source : ℕ) {k : ℕ} (hk : k < length) :
    (pieceOrigins (length, some source))[k]? = some (some (source + k)) := by
  simp [pieceOrigins, hk]

theorem getElem?_pieceOrigins_none {length k : ℕ} (hk : k < length) :
    (pieceOrigins (length, none))[k]? = some none := List.getElem?_replicate_of_lt hk

theorem getElem?_origins_cons (p : Piece) (ps : List Piece) (k : ℕ) :
    (origins (p :: ps))[k]? =
      if k < p.1 then (pieceOrigins p)[k]? else (origins ps)[k - p.1]? := by
  rw [origins_cons, List.getElem?_append, length_pieceOrigins]

/-- What a walk from `offset` finds: ranges from there on, by their starts, that cover the positions
whose origin satisfies `p`. -/
structure WalkFinds (pieces : List Piece) (offset : ℕ) (p : Option ℕ → Prop) (ranges : List Span) :
    Prop where
  range : ∀ r ∈ ranges, offset ≤ r.1 ∧ r.1 < r.2
  starts : ranges.Pairwise (fun a b => a.1 ≤ b.1)
  covers : ∀ k, Ranges.Covers ranges (offset + k) ↔ ∃ o, (origins pieces)[k]? = some o ∧ p o

/-- The ranges of the first piece, and those of the others. -/
theorem WalkFinds.cons {piece : Piece} {pieces : List Piece} {offset : ℕ} {p : Option ℕ → Prop}
    {ranges : List Span} (h : WalkFinds pieces (offset + piece.1) p ranges) (here : List Span)
    (hrange : ∀ r ∈ here, offset ≤ r.1 ∧ r.1 < r.2 ∧ r.2 ≤ offset + piece.1)
    (hstarts : here.Pairwise (fun a b => a.1 ≤ b.1))
    (hcovers : ∀ k, k < piece.1 → (Ranges.Covers here (offset + k) ↔
      ∃ o, (pieceOrigins piece)[k]? = some o ∧ p o)) :
    WalkFinds (piece :: pieces) offset p (here ++ ranges) where
  range := by
    intro r hr
    rcases List.mem_append.mp hr with hr | hr
    · exact ⟨(hrange r hr).1, (hrange r hr).2.1⟩
    · have := h.range r hr
      exact ⟨by omega, this.2⟩
  starts := by
    refine List.pairwise_append.mpr ⟨hstarts, h.starts, fun a ha b hb => ?_⟩
    have hfirst := hrange a ha
    have hlater := h.range b hb
    omega
  covers := by
    intro k
    rw [Ranges.covers_append, getElem?_origins_cons]
    by_cases hk : k < piece.1
    · rw [if_pos hk, ← hcovers k hk]
      refine or_iff_left ?_
      rintro ⟨r, hr, hle, _⟩
      have := h.range r hr
      omega
    · rw [if_neg hk, ← h.covers, show offset + piece.1 + (k - piece.1) = offset + k by omega]
      refine or_iff_right ?_
      rintro ⟨r, hr, _, hlt⟩
      have := hrange r hr
      omega

theorem walkFinds_nil (offset : ℕ) (p : Option ℕ → Prop) : WalkFinds [] offset p [] :=
  ⟨by simp, List.Pairwise.nil, fun k => by simp⟩

theorem walkFinds_insertedRangesFrom {pieces : List Piece} (h : ∀ p ∈ pieces, 0 < p.1)
    (offset : ℕ) : WalkFinds pieces offset (· = none) (insertedRangesFrom pieces offset) := by
  induction pieces generalizing offset with
  | nil => exact walkFinds_nil offset _
  | cons piece pieces ih =>
    obtain ⟨length, source⟩ := piece
    have hpos : 0 < length := h _ List.mem_cons_self
    have hrest := ih (fun p hp => h p (List.mem_cons_of_mem _ hp)) (offset + length)
    cases source with
    | none =>
      refine hrest.cons [(offset, offset + length)] ?_ (List.pairwise_singleton _ _) ?_
      · intro r hr
        rw [List.mem_singleton.mp hr]
        exact ⟨le_rfl, Nat.lt_add_of_pos_right hpos, le_rfl⟩
      · intro k hk
        simp only at hk
        rw [getElem?_pieceOrigins_none hk]
        simp [Ranges.covers_cons, hk]
    | some source =>
      refine hrest.cons [] (by simp) List.Pairwise.nil (fun k hk => ?_)
      rw [getElem?_pieceOrigins_some _ _ hk]
      simp

theorem walkFinds_maskedRangesFrom {pieces : List Piece} (hpos : ∀ p ∈ pieces, 0 < p.1)
    (hsources : (sources pieces).Pairwise (· < ·)) {structural : List Span} (h : InOrder structural)
    (offset : ℕ) : WalkFinds pieces offset (fun o => ∃ p, o = some p ∧ Ranges.Covers structural p)
      (maskedRangesFrom structural pieces offset) := by
  induction pieces generalizing offset structural with
  | nil =>
    rw [maskedRangesFrom]
    exact walkFinds_nil offset _
  | cons piece pieces ih =>
    obtain ⟨length, source⟩ := piece
    have hlength : 0 < length := hpos _ List.mem_cons_self
    have hpos' : ∀ p ∈ pieces, 0 < p.1 := fun p hp => hpos p (List.mem_cons_of_mem _ hp)
    rw [sources, origins_cons, List.filterMap_append] at hsources
    have hparts := List.pairwise_append.mp hsources
    cases source with
    | none =>
      refine (ih hpos' hparts.2.1 h (offset + length)).cons [] (by simp)
        List.Pairwise.nil (fun k hk => ?_)
      rw [getElem?_pieceOrigins_none hk]
      simp
    | some source =>
      have hsub := List.dropWhile_sublist (fun s : Span => decide (s.2 ≤ source)) (l := structural)
      have hahead := h.sublist hsub
      have hstop : ∀ s ∈ structural.dropWhile (fun s => s.2 ≤ source), source < s.2 :=
        fun s hs => h.stop_gt_of_mem_dropWhile hs
      -- What comes later lies after this piece, so the spans passed here do not matter to it.
      have hlater : ∀ p, some p ∈ origins pieces → source ≤ p := by
        intro p hp
        have hself : source ∈ (pieceOrigins (length, some source)).filterMap id := by
          refine List.mem_filterMap.mpr ⟨some source, ?_, rfl⟩
          refine List.mem_iff_getElem?.mpr ⟨0, ?_⟩
          rw [getElem?_pieceOrigins_some _ _ hlength]
          rfl
        exact (hparts.2.2 source hself p (List.mem_filterMap.mpr ⟨_, hp, rfl⟩)).le
      have hrest := ih hpos' hparts.2.1 hahead (offset + length)
      have hrest' : WalkFinds pieces (offset + length)
          (fun o => ∃ p, o = some p ∧ Ranges.Covers structural p)
          (maskedRangesFrom (structural.dropWhile (fun s => s.2 ≤ source)) pieces
            (offset + length)) := by
        refine ⟨hrest.range, hrest.starts, fun k => ?_⟩
        rw [hrest.covers]
        refine exists_congr (fun o => and_congr_right (fun ho => exists_congr (fun p => ?_)))
        refine and_congr_right (fun hp => covers_dropWhile (hlater p ?_))
        exact hp ▸ List.mem_of_getElem? ho
      refine hrest'.cons _ (fun r hr => mem_coveredRanges hahead hstop hlength hr)
        (starts_coveredRanges hahead offset length source) (fun k hk => ?_)
      rw [covers_coveredRanges hahead hstop hk, covers_dropWhile (Nat.le_add_right _ _),
        getElem?_pieceOrigins_some _ _ hk]
      simp

/-! ## Groups of ranges -/

instance : Std.Total taggedLe := ⟨fun a b => by
  have htotal := Std.Total.total (r := spanLe) a.1 b.1
  unfold taggedLe
  unfold spanLe at htotal ⊢
  have heq : ∀ x y : Span, x = y ↔ x.1 = y.1 ∧ x.2 = y.2 := fun x y => Prod.ext_iff
  rw [heq, heq]
  rcases Bool.eq_false_or_eq_true a.2 with ha | ha <;>
    rcases Bool.eq_false_or_eq_true b.2 with hb | hb <;> rw [ha, hb] <;> simp <;> omega⟩

instance : IsTrans (Span × Bool) taggedLe := ⟨fun a b c hab hbc => by
  unfold taggedLe spanLe at *
  refine ⟨by omega, fun heq htag => hbc.2 ?_ (hab.2 ?_ htag)⟩
  · rw [Prod.ext_iff] at heq ⊢
    omega
  · rw [Prod.ext_iff] at heq ⊢
    omega⟩

def taggedRanges (pieces : List Piece) (ranges : List Span) : List (Span × Bool) :=
  (ranges.map (fun r => (r, true)) ++
    (insertedRanges pieces).map (fun r => (r, false))).insertionSort taggedLe

theorem mem_taggedRanges {pieces : List Piece} {ranges : List Span} {t : Span × Bool} :
    t ∈ taggedRanges pieces ranges ↔
      (t.2 = true ∧ t.1 ∈ ranges) ∨ (t.2 = false ∧ t.1 ∈ insertedRanges pieces) := by
  rw [taggedRanges, (List.perm_insertionSort taggedLe _).mem_iff, List.mem_append, List.mem_map,
    List.mem_map]
  obtain ⟨r, b⟩ := t
  constructor
  · rintro (⟨s, hs, heq⟩ | ⟨s, hs, heq⟩) <;> cases heq
    · exact .inl ⟨rfl, hs⟩
    · exact .inr ⟨rfl, hs⟩
  · rintro (⟨rfl, hs⟩ | ⟨rfl, hs⟩)
    · exact .inl ⟨r, hs, rfl⟩
    · exact .inr ⟨r, hs, rfl⟩

theorem starts_taggedRanges (pieces : List Piece) (ranges : List Span) :
    (taggedRanges pieces ranges).Pairwise (fun a b => a.1.1 ≤ b.1.1) := by
  refine (List.pairwise_insertionSort taggedLe _).imp ?_
  intro a b hab
  unfold taggedLe spanLe at hab
  omega

theorem covers_taggedRanges (pieces : List Piece) (ranges : List Span) (i : ℕ) :
    Ranges.Covers ((taggedRanges pieces ranges).map Prod.fst) i ↔
      Ranges.Covers ranges i ∨ Ranges.Covers (insertedRanges pieces) i := by
  rw [← Ranges.covers_append]
  simp only [Ranges.Covers, List.mem_map, mem_taggedRanges, List.mem_append]
  constructor
  · rintro ⟨r, ⟨t, ht | ht, rfl⟩, hi⟩
    · exact ⟨t.1, .inl ht.2, hi⟩
    · exact ⟨t.1, .inr ht.2, hi⟩
  · rintro ⟨r, hr | hr, hi⟩
    · exact ⟨r, ⟨(r, true), .inl ⟨rfl, hr⟩, rfl⟩, hi⟩
    · exact ⟨r, ⟨(r, false), .inr ⟨rfl, hr⟩, rfl⟩, hi⟩

/-- Absorption keeps the groups that hold a masked range. -/
theorem absorbInserted_eq {pieces : List Piece} {ranges : List Span}
    (hne : ∀ t ∈ taggedRanges pieces ranges, t.1.1 < t.1.2) :
    absorbInserted pieces ranges =
      (((taggedRanges pieces ranges).foldl Ranges.pushTagged []).filter Prod.snd).map Prod.fst := by
  rw [absorbInserted]
  split_ifs with hempty
  · have hnil : ranges = [] := List.isEmpty_iff.mp hempty
    have htags := Ranges.tags_foldl hne (starts_taggedRanges pieces ranges)
    have hnone : ((taggedRanges pieces ranges).foldl Ranges.pushTagged []).filter Prod.snd = [] := by
      rw [List.filter_eq_nil_iff]
      intro g hg htag
      obtain ⟨t, ht, htrue, _⟩ := htags.holds g hg htag
      rcases mem_taggedRanges.mp ht with h | h
      · rw [hnil] at h
        cases h.2
      · rw [h.1] at htrue
        cases htrue
    rw [hnone, hnil]
    rfl
  · rfl

theorem maskFrom_eq_replace (text : Text) (ranges : List Span) (last : ℕ) :
    maskFrom text ranges last = Ranges.replace redactionMarker text ranges last := by
  induction ranges generalizing last with
  | nil => rfl
  | cons r ranges ih =>
    rw [maskFrom, ih]
    rfl

/-! ## Masking is exact -/

theorem isMasked_iff (e : Char × Option ℕ) :
    isMasked structural e = true ↔ ∃ p, e.2 = some p ∧ Ranges.Covers structural p := by
  obtain ⟨c, o⟩ := e
  cases o <;> simp [isMasked, covered_iff]

theorem isClosed_iff (e : Char × Option ℕ) :
    isClosed structural e = true ↔ isMasked structural e = true ∨ e.2 = none := by
  obtain ⟨c, o⟩ := e
  cases o <;> simp [isClosed, isMasked]

section

variable {current : Text} {pieces : List Piece}

theorem origins_of_track (hfits : Fits current pieces) {i : ℕ} {e : Char × Option ℕ}
    (h : (track current pieces)[i]? = some e) : (origins pieces)[i]? = some e.2 := by
  rw [← map_snd_track hfits, List.getElem?_map, h]
  rfl

theorem exists_track_of_origins (hfits : Fits current pieces) {i : ℕ} {o : Option ℕ}
    (h : (origins pieces)[i]? = some o) :
    ∃ e, (track current pieces)[i]? = some e ∧ e.2 = o := by
  rw [← map_snd_track hfits, List.getElem?_map] at h
  exact Option.map_eq_some_iff.mp h

structure MaskGroups (structural : List Span) (t : Tracked Char)
    (groups : List (Span × Bool)) : Prop where
  group : ∀ g ∈ groups, g.1.1 < g.1.2 ∧ g.1.2 ≤ t.length
  apart : groups.Pairwise (fun a b => a.1.2 < b.1.1)
  closed : ∀ i e, t[i]? = some e →
    (isClosed structural e = true ↔ Ranges.Covers (groups.map Prod.fst) i)
  masked : ∀ g ∈ groups, (g.2 = true ↔
    (Ranges.slice t g.1.1 g.1.2).any (isMasked structural) = true)

def touchingRanges (pieces : List Piece) (structural : List Span) : List Span :=
  mergeTouching (maskedRangesFrom structural pieces 0)

theorem merges_touchingRanges (hpos : ∀ p ∈ pieces, 0 < p.1)
    (hsources : (sources pieces).Pairwise (· < ·)) (h : InOrder structural) :
    Ranges.Merges (fun start stop => decide (start ≤ stop)) (maskedRangesFrom structural pieces 0)
      (touchingRanges pieces structural) := by
  have hwalk := walkFinds_maskedRangesFrom hpos hsources h 0
  exact Ranges.merges_foldl Ranges.joining_le (fun r hr => (hwalk.range r hr).2) hwalk.starts

theorem covers_touchingRanges (hfits : Fits current pieces) (hpos : ∀ p ∈ pieces, 0 < p.1)
    (hsources : (sources pieces).Pairwise (· < ·)) (h : InOrder structural) (i : ℕ) :
    Ranges.Covers (touchingRanges pieces structural) i ↔
      ∃ e, (track current pieces)[i]? = some e ∧ isMasked structural e = true := by
  have hwalk := (walkFinds_maskedRangesFrom hpos hsources h 0).covers i
  rw [Nat.zero_add] at hwalk
  rw [(merges_touchingRanges hpos hsources h).covers_iff, hwalk]
  constructor
  · rintro ⟨o, ho, hmasked⟩
    obtain ⟨e, he, rfl⟩ := exists_track_of_origins hfits ho
    exact ⟨e, he, (isMasked_iff e).mpr hmasked⟩
  · rintro ⟨e, he, hmasked⟩
    exact ⟨e.2, origins_of_track hfits he, (isMasked_iff e).mp hmasked⟩

theorem covers_insertedRanges (hfits : Fits current pieces) (hpos : ∀ p ∈ pieces, 0 < p.1)
    (i : ℕ) : Ranges.Covers (insertedRanges pieces) i ↔
      ∃ e, (track current pieces)[i]? = some e ∧ e.2 = none := by
  have hwalk := (walkFinds_insertedRangesFrom hpos 0).covers i
  rw [Nat.zero_add] at hwalk
  rw [insertedRanges, hwalk]
  constructor
  · rintro ⟨o, ho, hnone⟩
    obtain ⟨e, he, rfl⟩ := exists_track_of_origins hfits ho
    exact ⟨e, he, hnone⟩
  · rintro ⟨e, he, hnone⟩
    exact ⟨e.2, origins_of_track hfits he, hnone⟩

theorem nonempty_taggedRanges (hpos : ∀ p ∈ pieces, 0 < p.1)
    (hsources : (sources pieces).Pairwise (· < ·)) (h : InOrder structural) :
    ∀ t ∈ taggedRanges pieces (touchingRanges pieces structural), t.1.1 < t.1.2 := by
  intro t ht
  rcases mem_taggedRanges.mp ht with ⟨_, hr⟩ | ⟨_, hr⟩
  · exact (merges_touchingRanges hpos hsources h).nonempty t.1 hr
  · exact ((walkFinds_insertedRangesFrom hpos 0).range t.1 hr).2

/-- Groups that are apart and share a position are one. -/
theorem eq_of_apart {groups : List (Span × Bool)}
    (hapart : groups.Pairwise (fun a b => a.1.2 < b.1.1)) {g g' : Span × Bool} (hg : g ∈ groups)
    (hg' : g' ∈ groups) {i : ℕ} (hi : g.1.1 ≤ i ∧ i < g.1.2) (hi' : g'.1.1 ≤ i ∧ i < g'.1.2) :
    g = g' := by
  by_contra hne
  have heither : groups.Pairwise (fun a b => a.1.2 < b.1.1 ∨ b.1.2 < a.1.1) :=
    hapart.imp (fun h => .inl h)
  have : Std.Symm (fun a b : Span × Bool => a.1.2 < b.1.1 ∨ b.1.2 < a.1.1) :=
    ⟨fun _ _ h => h.symm⟩
  rcases heither.forall hg hg' hne with hlt | hlt <;> omega

theorem maskGroups_foldl (hfits : Fits current pieces) (hpos : ∀ p ∈ pieces, 0 < p.1)
    (hsources : (sources pieces).Pairwise (· < ·)) (h : InOrder structural) :
    MaskGroups structural (track current pieces)
      ((taggedRanges pieces (touchingRanges pieces structural)).foldl Ranges.pushTagged []) := by
  have hne := nonempty_taggedRanges hpos hsources h
  have hstarts := starts_taggedRanges pieces (touchingRanges pieces structural)
  have hmerges := Ranges.merges_foldl_pushTagged hne hstarts
  have htags := Ranges.tags_foldl hne hstarts
  generalize (taggedRanges pieces (touchingRanges pieces structural)).foldl
    Ranges.pushTagged [] = groups at hmerges htags ⊢
  have hmasked := covers_touchingRanges hfits hpos hsources h
  have hclosed : ∀ i, Ranges.Covers (groups.map Prod.fst) i ↔
      ∃ e, (track current pieces)[i]? = some e ∧ isClosed structural e = true := by
    intro i
    rw [hmerges.covers_iff, covers_taggedRanges, hmasked, covers_insertedRanges hfits hpos,
      ← exists_or]
    refine exists_congr (fun e => ?_)
    rw [isClosed_iff, and_or_left]
  have hapart : groups.Pairwise (fun a b => a.1.2 < b.1.1) := by
    refine (List.pairwise_map.mp hmerges.apart).imp ?_
    intro a b hab
    exact Nat.not_le.mp (of_decide_eq_false hab)
  refine ⟨fun g hg => ?_, hapart, fun i e he => ?_, fun g hg => ?_⟩
  · have hlt := hmerges.nonempty g.1 (List.mem_map_of_mem hg)
    refine ⟨hlt, ?_⟩
    have hlast : Ranges.Covers (groups.map Prod.fst) (g.1.2 - 1) :=
      ⟨g.1, List.mem_map_of_mem hg, by omega, by omega⟩
    obtain ⟨e, he, _⟩ := (hclosed _).mp hlast
    have := (List.getElem?_eq_some_iff.mp he).1
    omega
  · rw [hclosed, he]
    simp
  · rw [List.any_eq_true]
    constructor
    · intro htag
      obtain ⟨t, ht, htrue, hwithin⟩ := htags.holds g hg htag
      have hlt := hne t ht
      have hrange : t.1 ∈ touchingRanges pieces structural := by
        rcases mem_taggedRanges.mp ht with ht | ht
        · exact ht.2
        · rw [ht.1] at htrue
          cases htrue
      obtain ⟨e, he, hm⟩ := (hmasked t.1.1).mp ⟨t.1, hrange, le_rfl, hlt⟩
      exact ⟨e, Ranges.mem_slice_iff.mpr ⟨t.1.1, hwithin.1, by have := hwithin.2; omega, he⟩, hm⟩
    · rintro ⟨e, he, hm⟩
      obtain ⟨i, hstart, hstop, hget⟩ := Ranges.mem_slice_iff.mp he
      obtain ⟨r, hr, hri, hir⟩ := (hmasked i).mpr ⟨e, hget, hm⟩
      obtain ⟨g', hg', htag, hwithin⟩ := htags.held (r, true)
        (mem_taggedRanges.mpr (.inl ⟨rfl, hr⟩)) rfl
      have hstart' := hwithin.1
      have hstop' := hwithin.2
      simp only at hstart' hstop'
      have hsame : g' = g :=
        eq_of_apart hapart hg' hg ⟨hstart'.trans hri, by omega⟩ ⟨hstart, hstop⟩
      exact hsame ▸ htag

theorem exists_maskGroups (hfits : Fits current pieces) (hpos : ∀ p ∈ pieces, 0 < p.1)
    (hsources : (sources pieces).Pairwise (· < ·)) (h : InOrder structural) :
    ∃ groups, MaskGroups structural (track current pieces) groups ∧
      maskedRanges pieces structural = (groups.filter Prod.snd).map Prod.fst :=
  ⟨_, maskGroups_foldl hfits hpos hsources h,
    absorbInserted_eq (nonempty_taggedRanges hpos hsources h)⟩

theorem maskStructural_eq_maskedRuns (hfits : Fits current pieces) (hpos : ∀ p ∈ pieces, 0 < p.1)
    (hsources : (sources pieces).Pairwise (· < ·)) (h : InOrder structural) :
    maskStructural current pieces structural = maskedRuns structural (track current pieces) := by
  obtain ⟨groups, hgroups, hranges⟩ := exists_maskGroups hfits hpos hsources h
  have hruns := @Ranges.flatMap_splitBy_eq_replace _ _ (track current pieces) (isClosed structural)
    Prod.fst (fun run => if run.any (isMasked structural) then redactionMarker else run.map Prod.fst)
    redactionMarker groups 0 (fun g hg => ⟨Nat.zero_le _, hgroups.group g hg⟩) hgroups.apart
    (fun i e _ he => hgroups.closed i e he) ?_ ?_
  · rw [maskStructural, maskFrom_eq_replace, hranges, maskedRuns]
    rw [List.drop_zero, map_fst_track hfits] at hruns
    exact hruns.symm
  · intro run hrun
    have hnone : run.any (isMasked structural) = false := by
      rw [List.any_eq_false]
      intro e he hm
      have hclosed := (isClosed_iff e).mpr (.inl hm)
      rw [hrun e he] at hclosed
      cases hclosed
    rw [hnone, if_neg Bool.false_ne_true]
  · intro g hg
    have htag := hgroups.masked g hg
    by_cases hm : g.2 = true
    · rw [if_pos (htag.mp hm), if_pos hm]
    · rw [if_neg (fun h => hm (htag.mpr h)), if_neg hm]

/-! ## Positions through masking -/

def maskedTrack (structural : List Span) (current : Text) (pieces : List Piece) : Tracked Char :=
  Ranges.replace (Tracked.inserted redactionMarker) (track current pieces)
    (maskedRanges pieces structural) 0

theorem map_fst_maskedTrack (hfits : Fits current pieces) (structural : List Span) :
    (maskedTrack structural current pieces).map Prod.fst =
      maskStructural current pieces structural := by
  rw [maskedTrack, Ranges.map_replace, Tracked.map_fst_inserted, map_fst_track hfits, maskStructural,
    maskFrom_eq_replace]

theorem MaskGroups.ordered {t : Tracked Char} {groups : List (Span × Bool)}
    (h : MaskGroups structural t groups) :
    Ranges.Ordered 0 ((groups.filter Prod.snd).map Prod.fst) := by
  refine Ranges.ordered_of_pairwise (fun r hr => ?_) ?_
  · obtain ⟨g, hg, rfl⟩ := List.mem_map.mp hr
    exact ⟨Nat.zero_le _, (h.group g (List.mem_of_mem_filter hg)).1.le⟩
  · exact List.pairwise_map.mpr ((h.apart.filter _).imp (fun hlt => hlt.le))

/-- A masked character lies in a group that is replaced. -/
theorem MaskGroups.covers_of_isMasked {t : Tracked Char} {groups : List (Span × Bool)}
    (h : MaskGroups structural t groups) {i : ℕ} {e : Char × Option ℕ} (he : t[i]? = some e)
    (hm : isMasked structural e = true) :
    Ranges.Covers ((groups.filter Prod.snd).map Prod.fst) i := by
  obtain ⟨r, hr, hstart, hstop⟩ := (h.closed i e he).mp ((isClosed_iff e).mpr (.inl hm))
  obtain ⟨g, hg, rfl⟩ := List.mem_map.mp hr
  have htag : g.2 = true := (h.masked g hg).mpr
    (List.any_eq_true.mpr ⟨e, Ranges.mem_slice_iff.mpr ⟨i, hstart, hstop, he⟩, hm⟩)
  exact ⟨g.1, List.mem_map_of_mem (List.mem_filter.mpr ⟨hg, htag⟩), hstart, hstop⟩

theorem MaskGroups.isClosed_of_covers {t : Tracked Char} {groups : List (Span × Bool)}
    (h : MaskGroups structural t groups) {i : ℕ} {e : Char × Option ℕ} (he : t[i]? = some e)
    (hi : Ranges.Covers ((groups.filter Prod.snd).map Prod.fst) i) :
    isClosed structural e = true := by
  obtain ⟨r, hr, hrange⟩ := hi
  obtain ⟨g, hg, rfl⟩ := List.mem_map.mp hr
  exact (h.closed i e he).mpr ⟨g.1, List.mem_map_of_mem (List.mem_of_mem_filter hg), hrange⟩

/-- Masking removes exactly the kept characters under the spans. -/
theorem kept_maskedTrack (hfits : Fits current pieces) (hpos : ∀ p ∈ pieces, 0 < p.1)
    (hsources : (sources pieces).Pairwise (· < ·)) (h : InOrder structural) :
    Tracked.kept (maskedTrack structural current pieces) =
      (Tracked.kept (track current pieces)).filter (fun e => !covered structural e.2) := by
  obtain ⟨groups, hgroups, hranges⟩ := exists_maskGroups hfits hpos hsources h
  let uncovered : Char × Option ℕ → Option (Char × ℕ) := fun e =>
    (e.2.map (fun i => (e.1, i))).filter (fun e => !covered structural e.2)
  have hfilter : ∀ t : Tracked Char, (Tracked.kept t).filter (fun e => !covered structural e.2) =
      t.filterMap uncovered := by
    intro t
    rw [Tracked.kept, List.filter_filterMap]
  have hall : ∀ e ∈ Tracked.kept (maskedTrack structural current pieces),
      (!covered structural e.2) = true := by
    rintro ⟨c, p⟩ he
    have hmem := Tracked.mem_kept_iff.mp he
    rw [maskedTrack, hranges] at hmem
    rcases Ranges.mem_replace hgroups.ordered hmem with hin | ⟨j, _, hnot, hget⟩
    · have hkept := Tracked.mem_kept_iff.mpr hin
      rw [Tracked.kept_inserted] at hkept
      cases hkept
    · rw [Bool.not_eq_true', ← Bool.not_eq_true, covered_iff]
      intro hcovers
      exact hnot (hgroups.covers_of_isMasked hget ((isMasked_iff _).mpr ⟨p, rfl, hcovers⟩))
  rw [← List.filter_eq_self.mpr hall, hfilter, hfilter, maskedTrack, hranges]
  refine Ranges.filterMap_replace_eq ?_ hgroups.ordered (fun i e hi he => ?_)
  · simp [Tracked.inserted, List.filterMap_map, uncovered]
  · rcases (isClosed_iff e).mp (hgroups.isClosed_of_covers he hi) with hm | hnone
    · obtain ⟨p, hp, hcovers⟩ := (isMasked_iff e).mp hm
      simp [uncovered, hp, (covered_iff _ _).mpr hcovers]
    · simp [uncovered, hnone]

end

end

/-! ## Positions through the whole redaction -/

def boundTrack (t : Tracked Char) (bounded : Text) : Tracked Char :=
  let text := t.map Prod.fst
  if bounded = text then t else
    let high := min text.length bounded.length
    let low := bisectPrefix text bounded (high + 1) 0 high
    t.take low ++ Tracked.inserted (bounded.drop low)

def structuralTrack (word : Char → Bool) (bound : Text → Text) (structural : List Span)
    (current : Text) (pieces : List Piece) : Tracked Char :=
  if structural.isEmpty then track current pieces else
    let masked := bound (maskStructural current pieces structural)
    match baseFixedPoint word bound masked with
    | none => Tracked.inserted redactionMarker
    | some again => Tracked.through (boundTrack (maskedTrack structural current pieces) masked)
        (track again.1 again.2)

def redactTrack (word : Char → Bool) (bound : Text → Text) (text : Text) : Tracked Char :=
  if nmsSecretReferenceRe.fullmatch text then Tracked.whole text else
    match baseFixedPoint word bound text with
    | none => Tracked.inserted redactionMarker
    | some (current, pieces) =>
      structuralTrack word bound (mergeSpans (sensitiveValueSpans text)) current pieces

theorem map_fst_boundTrack (t : Tracked Char) (bounded : Text) :
    (boundTrack t bounded).map Prod.fst = bounded := by
  unfold boundTrack
  dsimp only
  split_ifs with hsame
  · exact hsame.symm
  · have hinitial := (@bisectPrefix_spec (t.map Prod.fst) bounded
      (min (t.map Prod.fst).length bounded.length + 1) 0
      (min (t.map Prod.fst).length bounded.length) rfl (Nat.zero_le _)).1
    rw [List.map_append, List.map_take, hinitial, Tracked.map_fst_inserted, List.take_append_drop]

theorem kept_boundTrack (t : Tracked Char) (bounded : Text) :
    (Tracked.kept (boundTrack t bounded)).Sublist (Tracked.kept t) := by
  unfold boundTrack
  dsimp only
  split_ifs
  · exact List.Sublist.refl _
  · rw [Tracked.kept_append, Tracked.kept_inserted, List.append_nil]
    exact (List.take_sublist _ _).filterMap _

section

variable {word : Char → Bool} {bound : Text → Text} {text current : Text} {pieces : List Piece}
  {structural : List Span}

theorem map_fst_structuralTrack (hfits : Fits current pieces) :
    (structuralTrack word bound structural current pieces).map Prod.fst =
      structuralStage word bound structural current pieces := by
  unfold structuralTrack structuralStage
  dsimp only
  split_ifs
  · exact map_fst_track hfits
  · cases hagain : baseFixedPoint word bound (bound (maskStructural current pieces structural)) with
    | none => exact Tracked.map_fst_inserted _
    | some again =>
      rw [Tracked.map_fst_through]
      exact map_fst_track (tracks_baseFixedPoint hagain).fits

theorem map_fst_redactTrack (word : Char → Bool) (bound : Text → Text) (text : Text) :
    (redactTrack word bound text).map Prod.fst = redactBounded word bound text := by
  unfold redactTrack redactBounded
  split_ifs
  · exact Tracked.map_fst_whole text
  · cases hbase : baseFixedPoint word bound text with
    | none => exact Tracked.map_fst_inserted _
    | some result => exact map_fst_structuralTrack (tracks_baseFixedPoint hbase).fits

theorem Tracks.sources_increasing (h : Tracks text current pieces) :
    (sources pieces).Pairwise (· < ·) := by
  have hsources : sources pieces = (Tracked.kept (track current pieces)).map Prod.snd := by
    rw [sources, ← map_snd_track h.fits, Tracked.kept, List.map_filterMap, List.filterMap_map]
    refine List.filterMap_congr (fun e _ => ?_)
    cases he : e.2 <;> simp [he]
  rw [hsources]
  refine List.Pairwise.sublist (h.keeps.map Prod.snd) ?_
  rw [List.zipIdx_map_snd]
  exact List.pairwise_lt_range'

/-- What is kept after the structural stage lies outside its spans. -/
theorem kept_structuralTrack (h : Tracks text current pieces) (hspans : InOrder structural) :
    (Tracked.kept (structuralTrack word bound structural current pieces)).Sublist
      ((Tracked.kept (track current pieces)).filter (fun e => !covered structural e.2)) := by
  unfold structuralTrack
  dsimp only
  split_ifs with hempty
  · rw [List.isEmpty_iff.mp hempty]
    simp [covered]
  · rw [← kept_maskedTrack h.fits h.positive h.sources_increasing hspans]
    cases hagain : baseFixedPoint word bound (bound (maskStructural current pieces structural)) with
    | none => simp
    | some again =>
      refine (Tracked.kept_through_sublist ?_).trans (kept_boundTrack _ _)
      rw [map_fst_boundTrack]
      exact (tracks_baseFixedPoint hagain).keeps

theorem nonempty_sensitiveValueSpans {s : Span} (hs : s ∈ sensitiveValueSpans text) : s.1 < s.2 := by
  rcases List.mem_append.mp hs with hs | hs
  · obtain ⟨m, _, hm⟩ := List.mem_filterMap.mp hs
    unfold valueSpan at hm
    split at hm
    · cases hm
    · dsimp only at hm
      split_ifs at hm <;> cases hm <;> assumption
  · simpa using (List.mem_filter.mp hs).2

theorem inOrder_structural (text : Text) : InOrder (mergeSpans (sensitiveValueSpans text)) := by
  have hmerges := merges_mergeSpans (fun s hs => @nonempty_sensitiveValueSpans text s hs)
  refine ⟨hmerges.apart.imp ?_, hmerges.nonempty⟩
  intro a b hab
  exact Nat.not_lt.mp (of_decide_eq_false hab)

end

/-- Masking the base fixed point of a text replaces each run of masked and inserted characters that
holds a masked one, and removes exactly the kept characters under the spans; what redaction keeps in
the end is a part of the others. -/
theorem structural_masking_exact {word : Char → Bool} {bound : Text → Text} {text current : Text}
    {pieces : List Piece} (href : nmsSecretReferenceRe.fullmatch text = false)
    (hbase : baseFixedPoint word bound text = some (current, pieces)) :
    let structural := mergeSpans (sensitiveValueSpans text)
    let outside := (Tracked.kept (track current pieces)).filter (fun e => !covered structural e.2)
    ((track current pieces).map Prod.fst = current ∧ Tracked.Keeps text (track current pieces)) ∧
    maskStructural current pieces structural = maskedRuns structural (track current pieces) ∧
    ((maskedTrack structural current pieces).map Prod.fst =
        maskStructural current pieces structural ∧
      Tracked.kept (maskedTrack structural current pieces) = outside) ∧
    (redactTrack word bound text).map Prod.fst = redactBounded word bound text ∧
      (Tracked.kept (redactTrack word bound text)).Sublist outside := by
  have htracks := tracks_baseFixedPoint hbase
  have hspans := inOrder_structural text
  have hredact : redactTrack word bound text = structuralTrack word bound
      (mergeSpans (sensitiveValueSpans text)) current pieces := by
    simp only [redactTrack, href, hbase]
    rfl
  refine ⟨⟨map_fst_track htracks.fits, htracks.keeps⟩,
    maskStructural_eq_maskedRuns htracks.fits htracks.positive htracks.sources_increasing hspans,
    ⟨map_fst_maskedTrack htracks.fits _,
      kept_maskedTrack htracks.fits htracks.positive htracks.sources_increasing hspans⟩,
    map_fst_redactTrack word bound text, ?_⟩
  rw [hredact]
  exact kept_structuralTrack htracks hspans

def explicitKey : Text := ['?', '\n', 'x']

theorem structural_masking_exact_explicitKey :
    baseFixedPoint (fun _ => false) id explicitKey = some (explicitKey, [(3, some 0)]) ∧
      covered (mergeSpans (sensitiveValueSpans explicitKey)) 2 = true ∧
      (Tracked.kept (redactTrack (fun _ => false) id explicitKey)).Sublist
        ((Tracked.kept (track explicitKey [(3, some 0)])).filter
          (fun e => !covered (mergeSpans (sensitiveValueSpans explicitKey)) e.2)) := by
  have href : nmsSecretReferenceRe.fullmatch explicitKey = false := by decide +kernel
  have hbase : baseFixedPoint (fun _ => false) id explicitKey =
      some (explicitKey, [(3, some 0)]) := by decide +kernel
  exact ⟨hbase, by decide +kernel, (structural_masking_exact href hbase).2.2.2.2⟩

end NetboxRpc
