import Bbr.Tui.NavigationIndexLaws
import Bbr.Tui.SourceRanges

/-!
# Restoring over the rows of a Buffer

In a Buffer each Line stands in one place. A Line on both sides of a pair is as far on the left as on the
right, so that its spans are one tiling or its repetitions, which echo.
-/
namespace Bbr.Tui.Frame

open Bbr.Lib List Option
open Bbr.Search (Range)

/-- Where a row has a Line; one on both sides of a pair counts as the right one. -/
inductive Place where
  | whole
  | left
  | right
  deriving DecidableEq, Repr

def Row.places : Row → List (LineRef × Place)
  | .line ref => [(ref, .whole)]
  | .linePair pair =>
    pair.right.toList.map (fun ref => (ref, .right)) ++
      (pair.left.toList.filter (fun ref => decide (pair.right ≠ some ref))).map
        (fun ref => (ref, .left))
  | _ => []

/-- Rows in which no Line has different places. -/
structure Buffer where
  rows : List Row
  placed : ∀ a ∈ rows.flatMap Row.places, ∀ b ∈ rows.flatMap Row.places, a.1 = b.1 → a.2 = b.2

def Buffer.visualRows (self : Buffer) (metrics : CellMetrics) (options : VisualRowOptions) :
    List VisualRow :=
  buildVisualRowsWithOptions self.rows metrics options

section Built

variable {metrics : CellMetrics} {options : VisualRowOptions}

variable {visual : VisualRow} {row : Row} {i : Nat}

theorem mem_visualBlock (h : visual ∈ visualBlock metrics options i row) :
    visual = makeVisualRow row i ∨ (∃ start stop, visual = wrappedVisualRow row i start stop) ∨
      ∃ left right target, visual = pairVisualRow i left right target := by
  rw [visualBlock] at h
  split at h
  · split at h
    · exact .inl (mem_singleton.mp h)
    · cases mem_unifiedVisualRows row i visual h with
      | inl heq => exact .inl heq
      | inr hwrapped => exact .inr (.inl hwrapped)
  · split at h
    · exact .inl (mem_singleton.mp h)
    rw [sideBySideVisualRows.eq_def] at h
    split at h
    · exact .inr (.inr (mem_wrappedLinePair i _ _ _ visual h))
    · exact .inl (mem_singleton.mp h)

theorem cardOffset_ownerOf {wanted : RowOwner} {start : Nat}
    (h : cardOffset wanted (ownerOf row) = some start) : start < 2 ^ usizeBits - 1 := by
  cases row with
  | comment id card resolvedThread =>
    cases resolvedThread <;> cases wanted <;> simp [ownerOf, cardOffset] at h
    exact h.2 ▸ card.inMemory
  | draft id card =>
    cases wanted <;> simp [ownerOf, cardOffset] at h
    exact h.2 ▸ card.inMemory
  | _ => cases wanted <;> simp [ownerOf, cardOffset] at h

/-- Where a glyph of the text begins. -/
def glyphStart (metrics : CellMetrics) (text : Bytes) (n : Nat) : Nat :=
  Lib.Wrap.totalSize ((graphemes metrics text).take n)

theorem glyphStart_mono {text : Bytes} {m n : Nat} (h : m ≤ n) :
    glyphStart metrics text m ≤ glyphStart metrics text n := by
  have hcut : (graphemes metrics text).take n =
      (graphemes metrics text).take m ++ ((graphemes metrics text).drop m).take (n - m) := by
    rw [← take_add, Nat.add_sub_cancel' h]
  simp [glyphStart, hcut]

theorem glyphStart_le (text : Bytes) (n : Nat) : glyphStart metrics text n ≤ text.length :=
  totalSize_take_le metrics text n

def rowStop (metrics : CellMetrics) (text : Bytes) (width n : Nat) : Nat :=
  n + Lib.Wrap.rowLength width ((graphemes metrics text).drop n)

theorem wrapEnd_glyphStart (text : Bytes) (width n : Nat) :
    wrapEnd text (glyphStart metrics text n) width metrics =
      glyphStart metrics text (rowStop metrics text width n) := by
  rw [wrapEnd_eq width metrics (glyphStart_le text n), glyphStart, graphemes_drop, ← glyphStart]
  simp [glyphStart, rowStop, take_add]

variable {text : Bytes}

theorem lt_of_glyphStart_lt {n : Nat} (h : glyphStart metrics text n < text.length) :
    n < (graphemes metrics text).length := by
  by_contra hle
  rw [glyphStart, take_of_length_le (by omega), totalSize_graphemes] at h
  omega

theorem rowStop_mono {w w' m n : Nat} (hw : w ≤ w') (hle : m ≤ n)
    (hn : glyphStart metrics text n < text.length) :
    rowStop metrics text w m ≤ rowStop metrics text w' n :=
  (Lib.Wrap.rowEnd_rowLength w _).mono (Lib.Wrap.rowEnd_rowLength w' _) hle hw (lt_of_glyphStart_lt hn)

/-- Of one Line on both sides, the left side is done or not behind the right one. -/
def Leads (metrics : CellMetrics) (line : LineRef) (left right : Side) : Prop :=
  left = none ∨ ∃ m n, m ≤ n ∧ right = some (line, glyphStart metrics line.text m) ∧
    left = some (line, glyphStart metrics line.text n)

theorem Leads.first (line : LineRef) : Leads metrics line (some (line, 0)) (some (line, 0)) :=
  .inr ⟨0, 0, Nat.le_refl 0, by simp [glyphStart], by simp [glyphStart]⟩

variable {line : LineRef}

theorem sourceEnd_glyphStart (hne : line.text.length ≠ 0) (width n : Nat) :
    (makeVisualHalf line (glyphStart metrics line.text n) width metrics).sourceEnd =
      glyphStart metrics line.text (rowStop metrics line.text width n) := by
  rw [makeVisualHalf, if_neg hne, wrapEnd_glyphStart]

theorem Leads.next {left right : Side} {w w' : Nat} (hw : w ≤ w') (h : Leads metrics line left right) :
    Leads metrics line (left.next w' metrics) (right.next w metrics) := by
  cases h with
  | inl hnone => exact .inl (by simp [hnone])
  | inr hboth =>
    obtain ⟨m, n, hle, rfl, rfl⟩ := hboth
    rw [Side.next_some, Side.next_some]
    by_cases hempty : line.text.length = 0
    · exact .inl (by simp [hempty])
    rw [sourceEnd_glyphStart hempty, sourceEnd_glyphStart hempty]
    by_cases hdone : line.text.length ≤ glyphStart metrics line.text (rowStop metrics line.text w' n)
    · exact .inl (by simp [hdone])
    have hstart : glyphStart metrics line.text n ≤
        glyphStart metrics line.text (rowStop metrics line.text w' n) :=
      glyphStart_mono (by simp [rowStop])
    have hstop : rowStop metrics line.text w m ≤ rowStop metrics line.text w' n :=
      rowStop_mono hw hle (by omega)
    have hbefore := @glyphStart_mono metrics line.text _ _ hstop
    exact .inr ⟨_, _, hstop, by rw [if_neg (by omega)], by rw [if_neg hdone]⟩

variable {widths : SideBodyWidths}

theorem right_of_leads (i : Nat) (line : LineRef)
    (hwidths : widths.right ≤ widths.left) {left right : Side} (h : Leads metrics line left right) :
    ∀ visual ∈ wrappedLinePair i widths metrics left right, ∀ halves, visual.halves = some halves →
      halves.right = none → halves.left = none := by
  induction left, right using wrappedLinePair.induct widths metrics with
  | case1 left right hnone => simp [wrappedLinePair_none i widths hnone]
  | case2 left right target htarget ih =>
    rw [wrappedLinePair_some i widths htarget]
    intro visual hvisual halves hhalves hright
    cases mem_cons.mp hvisual with
    | inl heq =>
      subst heq
      obtain rfl : Halves.mk _ _ = halves := some.inj hhalves
      cases h with
      | inl hnone => simp [hnone]
      | inr hboth =>
        obtain ⟨m, n, _, rfl, rfl⟩ := hboth
        simp [Side.half] at hright
    | inr hmem => exact ih (h.next hwidths) visual hmem halves hhalves hright

theorem sideBodyWidths_le {width : Nat}
    (h : sideBodyWidths width = some widths) : widths.right ≤ widths.left := by
  have hsides : SideBodyWidths.mk (width / 2 - sideGutterCols)
      (width - width / 2 - sideDividerCols - sideGutterCols) = widths := by
    simp only [sideBodyWidths, ite_none_left_eq_some, some.injEq] at h
    exact h.2.2
  subst hsides
  simp only [sideDividerCols]
  omega

/-- The ranges of a Line in its place. -/
def placeRanges (metrics : CellMetrics) (options : VisualRowOptions) (line : LineRef)
    (place : Place) : List Range :=
  match options.layout with
  | .unified =>
    if options.width ≤ unifiedGutterCols then [⟨0, line.text.length⟩]
    else match place with
      | .whole => lineRanges metrics line.text (options.width - unifiedGutterCols)
      | .left | .right => [⟨0, line.text.length⟩]
  | .sideBySide => match sideBodyWidths options.width with
    | none => [⟨0, line.text.length⟩]
    | some widths => match place with
      | .left => lineRanges metrics line.text widths.left
      | .right => lineRanges metrics line.text widths.right
      | .whole => [⟨0, line.text.length⟩]

theorem pairwise_lineRanges (text : Bytes) (width : Nat) :
    (lineRanges metrics text width).Pairwise (fun a b => a.start < b.start) := by
  have htiled := tiled_lineRanges metrics text width
  by_cases hempty : text.length = 0
  · simp [lineRanges, hempty]
  · exact htiled.tiles.pairwise (htiled.nonempty (by omega))

theorem pairwise_placeRanges (line : LineRef) (place : Place) :
    (placeRanges metrics options line place).Pairwise (fun a b => a.start < b.start) := by
  rw [placeRanges.eq_def]
  split
  · split
    · simp
    cases place with
    | whole => exact pairwise_lineRanges _ _
    | left => simp
    | right => simp
  · split
    · simp
    cases place with
    | whole => simp
    | left | right => exact pairwise_lineRanges _ _

variable {pair : LinePair}

theorem target_place (h : pair.target = line) :
    ∃ place, (line, place) ∈ (Row.linePair pair).places := by
  obtain ⟨left, right, shown⟩ := pair
  cases right with
  | some right =>
    obtain rfl : right = line := h
    exact ⟨.right, by simp [Row.places]⟩
  | none =>
    cases left with
    | some left =>
      obtain rfl : left = line := h
      exact ⟨.left, by simp [Row.places]⟩
    | none => simp at shown

/-- The ranges of a Line among visual rows. -/
def shownRanges (line : LineRef) (visualRows : List VisualRow) : List Range :=
  visualRows.filterMap (fun visual => lineRangeForOwner visual line)

theorem shownRanges_single (line : LineRef) (row : Row) (i : Nat) :
    shownRanges line [makeVisualRow row i] = [] ∨ ∃ place, (line, place) ∈ row.places ∧
        shownRanges line [makeVisualRow row i] = [⟨0, line.text.length⟩] := by
  cases row with
  | line other =>
    by_cases heq : other = line
    · subst heq
      exact .inr ⟨.whole, by simp [Row.places], by
        simp [shownRanges, lineRangeForOwner, makeVisualRow, ownerOf, rowSourceStart, rowSourceEnd]⟩
    · exact .inl (by simp [shownRanges, lineRangeForOwner, makeVisualRow, ownerOf, heq])
  | linePair pair =>
    by_cases heq : pair.target = line
    · obtain ⟨place, hplace⟩ := target_place heq
      refine .inr ⟨place, hplace, ?_⟩
      simp [shownRanges, lineRangeForOwner, makeVisualRow, ownerOf, rowSourceStart, rowSourceEnd, heq]
    · exact .inl (by simp [shownRanges, lineRangeForOwner, makeVisualRow, ownerOf, heq])
  | comment id card resolvedThread =>
    cases resolvedThread <;>
      simp [shownRanges, lineRangeForOwner, makeVisualRow, ownerOf]
  | _ => simp [shownRanges, lineRangeForOwner, makeVisualRow, ownerOf]

theorem shownRanges_lines (line other : LineRef) (i : Nat) (ranges : List Range) :
    shownRanges line (ranges.map (fun range =>
        wrappedVisualRow (.line other) i range.start range.stop)) =
      if other = line then ranges else [] := by
  induction ranges with
  | nil => simp [shownRanges]
  | cons range ranges ih =>
    by_cases heq : other = line
    · simp [shownRanges, lineRangeForOwner, wrappedVisualRow, ownerOf, heq]
    · simp [shownRanges, lineRangeForOwner, wrappedVisualRow, ownerOf, heq]

variable {halves : Halves} {half : VisualHalf}

theorem side_line {side : Option LineRef} {width : Nat} (h : half ∈ (side.map (fun line =>
    (lineRanges metrics line.text width).map (halfOf line))).getD []) : side = some half.line := by
  cases side with
  | none => simp at h
  | some line =>
    obtain ⟨range, _, rfl⟩ : ∃ range ∈ lineRanges metrics line.text width,
        halfOf line range = half := by simpa using h
    rfl

section

variable (h : visual ∈ appendWrappedLinePair i pair widths metrics)
  (hhalves : visual.halves = some halves)
include h hhalves

theorem pair_left_line (hhalf : halves.left = some half) : pair.left = some half.line :=
  side_line ((pair_halves pair widths i).1 ▸
    mem_filterMap.mpr ⟨visual, h, by simpa [hhalves] using hhalf⟩)

theorem pair_right_line (hhalf : halves.right = some half) : pair.right = some half.line :=
  side_line ((pair_halves pair widths i).2 ▸
    mem_filterMap.mpr ⟨visual, h, by simpa [hhalves] using hhalf⟩)

end

theorem lineRange_halves (h : visual.halves = some halves)
    (line : LineRef) : lineRangeForOwner visual line =
      ((halves.right.filter (fun half => decide (half.line = line))) <|>
        (halves.left.filter (fun half => decide (half.line = line)))).map
        (fun half => ⟨half.sourceStart, half.sourceEnd⟩) := by
  rw [lineRangeForOwner, h]

theorem filtered_none {side : Option LineRef} {shown : Option VisualHalf} (hside : side ≠ some line)
    (hline : ∀ {half : VisualHalf}, shown = some half → side = some half.line) :
    shown.filter (fun half => decide (half.line = line)) = none := by
  cases shown with
  | none => rfl
  | some half =>
    have hne : half.line ≠ line := fun heq => hside (by rw [hline rfl, heq])
    simp [hne]

/-- On both sides or only on the right, the right side tells the ranges. -/
theorem shownRanges_right (hright : pair.right = some line)
    (hwidths : widths.right ≤ widths.left) (i : Nat) :
    shownRanges line (appendWrappedLinePair i pair widths metrics) =
      lineRanges metrics line.text widths.right := by
  have hside := (@pair_halves metrics pair widths i).2
  simp only [hright, map_some, getD_some] at hside
  rw [← copyRanges_side hside]
  refine filterMap_congr (fun visual hvisual => ?_)
  obtain ⟨halves, hhalves⟩ := halves_of_mem_pair hvisual
  rw [lineRange_halves hhalves, hhalves, bind_some]
  cases hhalf : halves.right with
  | some half =>
    have hline := (pair_right_line hvisual hhalves hhalf).symm.trans hright
    simp [some.inj hline]
  | none =>
    cases hleft : halves.left with
    | none => rfl
    | some half =>
      by_cases heq : half.line = line
      · have hboth := pair_left_line hvisual hhalves hleft
        rw [heq] at hboth
        have hleads := right_of_leads i line hwidths (@Leads.first metrics line)
        rw [appendWrappedLinePair, hboth, hright] at hvisual
        have hnone := hleads visual hvisual halves hhalves hhalf
        rw [hnone] at hleft
        exact absurd hleft (by simp)
      · simp [heq]

theorem shownRanges_left (hright : pair.right ≠ some line)
    (hleft : pair.left = some line) (widths : SideBodyWidths) (i : Nat) :
    shownRanges line (appendWrappedLinePair i pair widths metrics) =
      lineRanges metrics line.text widths.left := by
  have hside := (@pair_halves metrics pair widths i).1
  simp only [hleft, map_some, getD_some] at hside
  rw [← copyRanges_side hside]
  refine filterMap_congr (fun visual hvisual => ?_)
  obtain ⟨halves, hhalves⟩ := halves_of_mem_pair hvisual
  rw [lineRange_halves hhalves, hhalves, bind_some]
  rw [filtered_none hright (pair_right_line hvisual hhalves)]
  cases hhalf : halves.left with
  | none => rfl
  | some half =>
    have hline := (pair_left_line hvisual hhalves hhalf).symm.trans hleft
    simp [some.inj hline]

theorem shownRanges_other (hright : pair.right ≠ some line)
    (hleft : pair.left ≠ some line) (widths : SideBodyWidths) (i : Nat) :
    shownRanges line (appendWrappedLinePair i pair widths metrics) = [] := by
  refine filterMap_eq_nil_iff.mpr (fun visual hvisual => ?_)
  obtain ⟨halves, hhalves⟩ := halves_of_mem_pair hvisual
  rw [lineRange_halves hhalves, filtered_none hright (pair_right_line hvisual hhalves),
    filtered_none hleft (pair_left_line hvisual hhalves)]
  rfl

theorem whole_mem_places (h : (line, Place.whole) ∈ row.places) : row = .line line := by
  cases row with
  | line other =>
    obtain rfl : line = other := by simpa [Row.places] using h
    rfl
  | linePair pair | _ => simp [Row.places] at h

theorem pair_of_mem_places {place : Place} (h : (line, place) ∈ row.places) (hne : place ≠ .whole) :
    ∃ pair, row = .linePair pair := by
  cases row with
  | line other => exact absurd (by simpa [Row.places] using h : line = other ∧ place = .whole).2 hne
  | linePair pair => exact ⟨pair, rfl⟩
  | _ => simp [Row.places] at h

/-- A row shows nothing of a Line, or the ranges of the Line in its place. -/
def ShowsPlaced (metrics : CellMetrics) (options : VisualRowOptions) (line : LineRef) (row : Row)
    (i : Nat) : Prop :=
  shownRanges line (visualBlock metrics options i row) = [] ∨
    ∃ place, (line, place) ∈ row.places ∧ shownRanges line (visualBlock metrics options i row) =
      placeRanges metrics options line place

theorem showsPlaced_single (hblock : visualBlock metrics options i row = [makeVisualRow row i])
    (hranges : ∀ place, (line, place) ∈ row.places →
      placeRanges metrics options line place = [⟨0, line.text.length⟩]) :
    ShowsPlaced metrics options line row i := by
  rw [ShowsPlaced, hblock]
  refine (shownRanges_single line row i).imp_right (fun ⟨place, hplace, hshown⟩ => ?_)
  exact ⟨place, hplace, hshown.trans (hranges place hplace).symm⟩

theorem shownRanges_unified (hlayout : options.layout = .unified) (line : LineRef) (row : Row)
    (i : Nat) : ShowsPlaced metrics options line row i := by
  by_cases hwidth : options.width ≤ unifiedGutterCols
  · refine showsPlaced_single (by simp [visualBlock, hlayout, hwidth]) (fun place _ => ?_)
    simp [placeRanges.eq_def, hlayout, hwidth]
  by_cases hline : ∃ other, row = .line other
  · obtain ⟨other, rfl⟩ := hline
    have hblock : shownRanges line (visualBlock metrics options i (.line other)) =
        if other = line then
          lineRanges metrics other.text (options.width - unifiedGutterCols) else [] := by
      simp [visualBlock, hlayout, hwidth, unifiedVisualRows_line, shownRanges_lines]
    by_cases heq : other = line
    · subst heq
      refine .inr ⟨.whole, by simp [Row.places], ?_⟩
      simp [hblock, placeRanges.eq_def, hlayout, hwidth]
    · exact .inl (by simp [hblock, heq])
  · refine showsPlaced_single ?_ (fun place hplace => ?_)
    · cases row <;> simp_all [visualBlock, unifiedVisualRows]
    cases place with
    | whole => exact absurd ⟨line, whole_mem_places hplace⟩ hline
    | left | right => simp [placeRanges.eq_def, hlayout]

theorem shownRanges_sideBySide (hlayout : options.layout = .sideBySide) (line : LineRef)
    (row : Row) (i : Nat) : ShowsPlaced metrics options line row i := by
  cases hwidths : sideBodyWidths options.width with
  | none =>
    refine showsPlaced_single (by simp [visualBlock, hlayout, hwidths]) (fun place _ => ?_)
    simp [placeRanges.eq_def, hlayout, hwidths]
  | some widths =>
    by_cases hpair : ∃ pair, row = .linePair pair
    · obtain ⟨pair, rfl⟩ := hpair
      rw [ShowsPlaced, visualBlock_pair hlayout hwidths]
      by_cases hright : pair.right = some line
      · refine .inr ⟨.right, by simp [Row.places, hright], ?_⟩
        rw [shownRanges_right hright (sideBodyWidths_le hwidths)]
        simp [placeRanges.eq_def, hlayout, hwidths]
      · by_cases hleft : pair.left = some line
        · refine .inr ⟨.left, by simp [Row.places, hleft, hright], ?_⟩
          rw [shownRanges_left hright hleft]
          simp [placeRanges.eq_def, hlayout, hwidths]
        · exact .inl (shownRanges_other hright hleft widths i)
    · refine showsPlaced_single ?_ (fun place hplace => ?_)
      · cases row <;> simp_all [visualBlock, sideBySideVisualRows]
      cases place with
      | whole => simp [placeRanges.eq_def, hlayout, hwidths]
      | left | right => exact absurd (pair_of_mem_places hplace (by simp)) hpair

theorem shownRanges_block (line : LineRef) (row : Row) (i : Nat) :
    ShowsPlaced metrics options line row i := by
  cases hlayout : options.layout with
  | unified => exact shownRanges_unified hlayout line row i
  | sideBySide => exact shownRanges_sideBySide hlayout line row i

theorem filterMap_zipIdx_flatten (f : VisualRow × Nat → Option Span)
    (visualBlocks : List (List VisualRow)) (k : Nat) :
    ∃ blocks : List (List Span), (visualBlocks.flatten.zipIdx k).filterMap f = blocks.flatten ∧
      ∀ block ∈ blocks, ∃ visuals ∈ visualBlocks, ∃ k, block = (visuals.zipIdx k).filterMap f := by
  induction visualBlocks generalizing k with
  | nil => exact ⟨[], by simp, by simp⟩
  | cons visuals visualBlocks ih =>
    obtain ⟨blocks, hflatten, hblocks⟩ := ih (k + visuals.length)
    refine ⟨(visuals.zipIdx k).filterMap f :: blocks, ?_, fun block hblock => ?_⟩
    · rw [flatten_cons, zipIdx_append, filterMap_append, flatten_cons, hflatten]
    cases mem_cons.mp hblock with
    | inl heq => exact ⟨visuals, by simp, k, heq⟩
    | inr hmem =>
      obtain ⟨other, hother, hk⟩ := hblocks block hmem
      exact ⟨other, by simp [hother], hk⟩

def rangeBounds (range : Range) : Nat × Nat := (range.start, range.stop)

theorem bounds_lineSpan (line : LineRef) (visuals : List VisualRow) (k : Nat) :
    ((visuals.zipIdx k).filterMap (lineSpan line)).map (fun span => (span.start, span.stop)) =
      (shownRanges line visuals).map rangeBounds := by
  induction visuals generalizing k with
  | nil => rfl
  | cons visual visuals ih =>
    simp only [shownRanges] at ih
    rw [zipIdx_cons, filterMap_cons_toList, map_append, ih, shownRanges,
      filterMap_cons_toList, map_append]
    cases hrange : lineRangeForOwner visual line <;> simp [lineSpan, hrange, rangeBounds]

theorem exists_ranges (buffer : Buffer) (line : LineRef) :
    ∃ ranges : List Range, ranges.Pairwise (fun a b => a.start < b.start) ∧
      ∀ row ∈ buffer.rows, ∀ i, shownRanges line (visualBlock metrics options i row) = [] ∨
        shownRanges line (visualBlock metrics options i row) = ranges := by
  by_cases hplace : ∃ place, (line, place) ∈ buffer.rows.flatMap Row.places
  · obtain ⟨place, hplace⟩ := hplace
    refine ⟨placeRanges metrics options line place, pairwise_placeRanges line place, ?_⟩
    intro row hrow i
    refine (shownRanges_block line row i).imp_right (fun ⟨other, hother, hranges⟩ => ?_)
    have hmem : (line, other) ∈ buffer.rows.flatMap Row.places := mem_flatMap.mpr ⟨row, hrow, hother⟩
    have hsame : other = place := buffer.placed _ hmem _ hplace rfl
    rw [hranges, hsame]
  · refine ⟨[], .nil, fun row hrow i => ?_⟩
    refine (shownRanges_block line row i).imp_right (fun ⟨other, hother, _⟩ => ?_)
    exact absurd ⟨other, mem_flatMap.mpr ⟨row, hrow, hother⟩⟩ hplace

theorem echoed_visualRows (buffer : Buffer) (line : LineRef) : Echoed Span.start Span.stop Span.row
      ((buffer.visualRows metrics options).zipIdx.filterMap (lineSpan line)) := by
  obtain ⟨ranges, hsorted, hranges⟩ := @exists_ranges metrics options buffer line
  have hrows := pairwise_filterMap_rows (row_lineSpan line) (buffer.visualRows metrics options) 0
  obtain ⟨blocks, hflatten, hblocks⟩ := filterMap_zipIdx_flatten (lineSpan line)
    (buffer.rows.mapIdx (visualBlock metrics options)) 0
  rw [Buffer.visualRows, buildVisualRowsWithOptions_eq] at hrows ⊢
  rw [hflatten] at hrows ⊢
  refine @echoed_of_blocks _ _ _ _ _ (ranges.map rangeBounds) (fun block hblock => ?_) ?_ hrows
  · obtain ⟨visuals, hvisuals, k, rfl⟩ := hblocks block hblock
    obtain ⟨i, hi, rfl⟩ := mem_mapIdx.mp hvisuals
    rw [bounds_lineSpan]
    cases hranges buffer.rows[i] (getElem_mem hi) i with
    | inl hnil =>
      have hbounds := bounds_lineSpan line (visualBlock metrics options i buffer.rows[i]) k
      rw [hnil] at hbounds
      exact .inl (by simpa using hbounds)
    | inr heq => exact .inr (by rw [heq])
  · rw [pairwise_map]
    exact hsorted

theorem searchable_visualRows (buffer : Buffer) : Searchable (buffer.visualRows metrics options) where
  whole := by
    intro visual hvisual hhalves
    obtain ⟨row, _, hblock⟩ := index_of_mem hvisual
    rcases mem_visualBlock hblock with hrow | ⟨_, _, hrow⟩ | ⟨_, _, _, hrow⟩
    · exact absurd (by rw [hrow, makeVisualRow]) hhalves
    · exact absurd (by rw [hrow, wrappedVisualRow]) hhalves
    · rw [hrow]
      rfl
  offsets := by
    intro visual hvisual wanted start hstart
    obtain ⟨row, _, hblock⟩ := index_of_mem hvisual
    rcases mem_visualBlock hblock with hrow | ⟨_, _, hrow⟩ | ⟨_, _, _, hrow⟩
    · rw [hrow] at hstart
      exact cardOffset_ownerOf hstart
    · rw [hrow] at hstart
      exact cardOffset_ownerOf hstart
    · rw [hrow] at hstart
      cases wanted <;> simp [pairVisualRow, cardOffset] at hstart
  echoed := echoed_visualRows buffer

end Built

/-- The index restores the navigation as the walk over the rows of a Buffer does, and finds the same row
for every wanted one. -/
theorem restoreNavigationIndexed_eq (diffContentHeight : Geometry → Usize) (buffer : Buffer)
    (metrics : CellMetrics) (options : VisualRowOptions) (previous : Projection)
    (geometry : Geometry) :
    restoreNavigationIndexed diffContentHeight previous (buffer.visualRows metrics options) geometry
        (NavigationIndex.build (buffer.visualRows metrics options)) =
      restoreNavigation diffContentHeight previous (buffer.visualRows metrics options) geometry ∧
    ∀ wanted, (NavigationIndex.build (buffer.visualRows metrics options)).find wanted =
      findVisualRow (buffer.visualRows metrics options) wanted := by
  have hfind := find_eq (@searchable_visualRows metrics options buffer)
  refine ⟨?_, hfind⟩
  rw [restoreNavigationIndexed, restoreNavigation, funext hfind]

/-- A context Line of four bytes, of which a side of sixteen columns has one or two in a row. -/
def fourBytes : LineRef :=
  ⟨0, { oldNo := 1, newNo := 1, kind := .context, text := [97, 98, 99, 100] }⟩

def secondByte : VisualRow := { owner := .line fourBytes, sourceStart := 1, sourceEnd := 2 }

def zeroRows : Usize := ⟨0, Nat.two_pow_pos _⟩

def nothingShown : Projection := ⟨[], .init zeroRows zeroRows⟩

/-- The Line on both sides of a pair. -/
def contextBuffer : Buffer := ⟨[.linePair ⟨some fourBytes, some fourBytes, by decide⟩], by decide⟩

theorem restoreNavigationIndexed_context :
    (NavigationIndex.build (contextBuffer.visualRows .bytes ⟨.sideBySide, 16⟩)).find secondByte =
      findVisualRow (contextBuffer.visualRows .bytes ⟨.sideBySide, 16⟩) secondByte :=
  (restoreNavigationIndexed_eq (fun _ => zeroRows) contextBuffer .bytes ⟨.sideBySide, 16⟩
    nothingShown ⟨0, 0⟩).2 secondByte

/-- The Line on the right of one pair and on the left of another. -/
def twoPlaces : List Row := [.linePair ⟨none, some fourBytes, by decide⟩,
  .linePair ⟨some fourBytes, none, by decide⟩]

/-- The index finds the row on the wider side, which is behind the one that the walk finds. -/
theorem restoreNavigationIndexed_twoPlaces : ¬ ∀ (diffContentHeight : Geometry → Usize)
    (rows : List Row) (metrics : CellMetrics) (options : VisualRowOptions) (previous : Projection)
    (geometry : Geometry),
    restoreNavigationIndexed diffContentHeight previous
        (buildVisualRowsWithOptions rows metrics options) geometry
        (NavigationIndex.build (buildVisualRowsWithOptions rows metrics options)) =
      restoreNavigation diffContentHeight previous
        (buildVisualRowsWithOptions rows metrics options) geometry ∧
    ∀ wanted, (NavigationIndex.build (buildVisualRowsWithOptions rows metrics options)).find wanted =
      findVisualRow (buildVisualRowsWithOptions rows metrics options) wanted := by
  intro hclaim
  have hsame := (hclaim (fun _ => zeroRows) twoPlaces .bytes ⟨.sideBySide, 16⟩ nothingShown
    ⟨0, 0⟩).2 secondByte
  have hspans : (buildVisualRowsWithOptions twoPlaces .bytes ⟨.sideBySide, 16⟩).zipIdx.filterMap
      (lineSpan fourBytes) =
      [⟨0, 1, 0, 0⟩, ⟨1, 2, 1, 0⟩, ⟨2, 3, 2, 0⟩, ⟨3, 4, 3, 0⟩, ⟨0, 2, 4, 0⟩, ⟨2, 4, 5, 0⟩] := by
    decide +kernel
  have hsorted : sortSpans
      [⟨0, 1, 0, 0⟩, ⟨1, 2, 1, 0⟩, ⟨2, 3, 2, 0⟩, ⟨3, 4, 3, 0⟩, ⟨0, 2, 4, 0⟩, ⟨2, 4, 5, 0⟩] =
      [⟨0, 1, 0, 0⟩, ⟨0, 2, 4, 0⟩, ⟨1, 2, 1, 0⟩, ⟨2, 3, 2, 0⟩, ⟨2, 4, 5, 0⟩, ⟨3, 4, 3, 0⟩] := by
    simp [sortSpans, List.mergeSort, NavigationIndex.spanLess, List.MergeSort.Internal.splitInTwo]
  have hindex : NavigationIndex.findLine (NavigationIndex.prefixEnds 0
      [⟨0, 1, 0, 0⟩, ⟨0, 2, 4, 0⟩, ⟨1, 2, 1, 0⟩, ⟨2, 3, 2, 0⟩, ⟨2, 4, 5, 0⟩, ⟨3, 4, 3, 0⟩]) 1 =
      some 4 := by
    decide +kernel
  have hwalk : findVisualRow (buildVisualRowsWithOptions twoPlaces .bytes ⟨.sideBySide, 16⟩)
      secondByte = some 1 := by
    decide +kernel
  rw [hwalk] at hsame
  simp only [NavigationIndex.find, secondByte, RowOwner.isLine, NavigationIndex.spanKey,
    NavigationIndex.wantedOffset, Option.bind_some, if_true] at hsame
  rw [spans_build_line, hspans, hsorted, hindex] at hsame
  exact absurd hsame (by decide)

end Bbr.Tui.Frame
