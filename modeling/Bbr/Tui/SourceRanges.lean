import Bbr.Tui.Wrapping

/-!
# Matches on visual rows

The ranges of a search match are cut where the rows of a Line end. Every displayed copy of the Line
shows each matched byte once.
-/
namespace Bbr.Tui.Frame

open Bbr.Lib List
open Bbr.Search (Range VersionRelation)

structure SourceMatch where
  oldLine : Option LineRef := none
  newLine : Option LineRef := none
  relation : VersionRelation
  ranges : List Range
  active : Bool := false
  deriving DecidableEq, Repr

structure ProjectedSourceRange where
  visualRow : Nat
  relation : VersionRelation
  source : Range
  row : Range
  active : Bool
  occurrenceIndex : Option Nat := none
  definition : Option Range := none
  deriving DecidableEq, Repr

def intersection (found : SourceMatch) (visualIndex : Nat) (relation : VersionRelation)
    (rowStart rowEnd : Nat) (range : Range) : Option ProjectedSourceRange :=
  let start := max range.start rowStart
  let stop := min range.stop rowEnd
  if stop ≤ start then none
  else some {
    visualRow := visualIndex
    relation := relation
    source := ⟨start, stop⟩
    row := ⟨start - rowStart, stop - rowStart⟩
    active := found.active }

def appendRangeIntersections (found : SourceMatch) (visualIndex : Nat) (relation : VersionRelation)
    (rowStart rowEnd : Nat) : List ProjectedSourceRange :=
  found.ranges.filterMap (intersection found visualIndex relation rowStart rowEnd)

/-- The match is on a side of the Line. -/
def onHalf (relation : VersionRelation) (line : LineRef) (found : SourceMatch) : Bool :=
  let wanted := if relation = .old then found.oldLine else found.newLine
  !(decide (wanted ≠ some line) ||
    decide (found.relation ≠ .neutral) && decide (found.relation ≠ relation))

def projectHalf (matched : List SourceMatch) (visualIndex : Nat) (relation : VersionRelation)
    (half : VisualHalf) : List ProjectedSourceRange :=
  matched.flatMap (fun found =>
    if onHalf relation half.line found then
      appendRangeIntersections found visualIndex relation half.sourceStart half.sourceEnd
    else [])

def onCandidates (candidates : YankCandidates) (found : SourceMatch) : Bool :=
  let oldMatches := decide (found.oldLine ≠ none) && decide (candidates.old = found.oldLine)
  let newMatches := decide (found.newLine ≠ none) && decide (candidates.new = found.newLine)
  match found.relation with
  | .neutral => oldMatches || newMatches
  | .old => oldMatches
  | .new => newMatches

def projectRow (matched : List SourceMatch) (visualIndex : Nat) (row : VisualRow) :
    List ProjectedSourceRange :=
  match row.halves with
  | some halves =>
    halves.left.toList.flatMap (projectHalf matched visualIndex .old) ++
      halves.right.toList.flatMap (projectHalf matched visualIndex .new)
  | none =>
    matched.flatMap (fun found =>
      if onCandidates row.yankCandidates found then
        appendRangeIntersections found visualIndex found.relation row.sourceStart row.sourceEnd
      else [])

def projectSourceRanges (visualRows : List VisualRow) (matched : List SourceMatch) :
    List ProjectedSourceRange :=
  (visualRows.mapIdx (projectRow matched)).flatten

/-- A visual row shows a Line in full width, which stands for neither version, or a half of either
version. -/
def VisualRow.copyRange (self : VisualRow) : VersionRelation → Option Range
  | .neutral => if self.halves = none then some ⟨self.sourceStart, self.sourceEnd⟩ else none
  | .old => (self.halves.bind Halves.left).map (fun half => ⟨half.sourceStart, half.sourceEnd⟩)
  | .new => (self.halves.bind Halves.right).map (fun half => ⟨half.sourceStart, half.sourceEnd⟩)

/-- The ranges of the visual rows of a row, in order. -/
def copyRanges (visualRows : List VisualRow) (i : Nat) (copy : VersionRelation) : List Range :=
  (visualRows.filter (fun row => decide (row.bufferIndex = i))).filterMap
    (fun row => row.copyRange copy)

/-- The width of a Line in full width. Side by side, only pairs are wrapped. -/
def VisualRowOptions.lineWidth (self : VisualRowOptions) : Option Nat :=
  match self.layout with
  | .unified => some (self.width - unifiedGutterCols)
  | .sideBySide => none

def VisualRowOptions.Wraps (self : VisualRowOptions) : Prop :=
  match self.layout with
  | .unified => unifiedGutterCols < self.width
  | .sideBySide => sideBodyWidths self.width ≠ none

instance (options : VisualRowOptions) : Decidable options.Wraps := by
  unfold VisualRowOptions.Wraps
  split <;> infer_instance

/-- The copies of Lines that a row displays, each with the width that it is wrapped at. -/
inductive Displays (options : VisualRowOptions) :
    Row → VersionRelation → LineRef → Option Nat → Prop
  | line (line : LineRef) : Displays options (.line line) .neutral line options.lineWidth
  | left {pair : LinePair} {line : LineRef} {widths : SideBodyWidths}
    (layout : options.layout = .sideBySide) (hwidths : sideBodyWidths options.width = some widths)
    (h : pair.left = some line) : Displays options (.linePair pair) .old line (some widths.left)
  | right {pair : LinePair} {line : LineRef} {widths : SideBodyWidths}
    (layout : options.layout = .sideBySide) (hwidths : sideBodyWidths options.width = some widths)
    (h : pair.right = some line) : Displays options (.linePair pair) .new line (some widths.right)

def holds (k : Nat) (range : Range) : Bool :=
  decide (range.start ≤ k) && decide (k < range.stop)

/-- The match is on a copy of the Line. -/
def onCopy (copy : VersionRelation) (line : LineRef) : SourceMatch → Bool :=
  match copy with
  | .neutral => onCandidates (candidatesForLine line)
  | side => onHalf side line

/-- How many ranges of the matches on a copy hold a byte. -/
def hits (copy : VersionRelation) (line : LineRef) (matched : List SourceMatch) (k : Nat) : Nat :=
  ((matched.filter (onCopy copy line)).flatMap SourceMatch.ranges).countP (holds k)

/-- The piece lies on the copy that a row displays and holds a byte. -/
def pieceOn (visualRows : List VisualRow) (i : Nat) (copy : VersionRelation) (k : Nat)
    (piece : ProjectedSourceRange) : Bool :=
  visualRows[piece.visualRow]?.any (fun row => decide (row.bufferIndex = i)) &&
    (decide (copy = .neutral) || decide (piece.relation = copy)) && holds k piece.source

/-- The piece is a range of a match, cut where the visual row begins and ends. -/
def Cut (visualRows : List VisualRow) (matched : List SourceMatch) (piece : ProjectedSourceRange) :
    Prop :=
  ∃ row copy range found whole, visualRows[piece.visualRow]? = some row ∧
    row.copyRange copy = some range ∧ found ∈ matched ∧ whole ∈ found.ranges ∧
    piece.source = ⟨max whole.start range.start, min whole.stop range.stop⟩ ∧
    piece.source.start < piece.source.stop ∧
    piece.row = ⟨piece.source.start - range.start, piece.source.stop - range.start⟩

section Pieces

variable {found : SourceMatch} {visualIndex rowStart rowEnd k : Nat} {relation : VersionRelation}
  {piece : ProjectedSourceRange}

theorem intersection_eq_some {range : Range}
    (h : intersection found visualIndex relation rowStart rowEnd range = some piece) :
    piece.visualRow = visualIndex ∧ piece.relation = relation ∧
      piece.source = ⟨max range.start rowStart, min range.stop rowEnd⟩ ∧
      piece.source.start < piece.source.stop ∧
      piece.row = ⟨piece.source.start - rowStart, piece.source.stop - rowStart⟩ := by
  simp only [intersection] at h
  split at h
  · simp at h
  · next hlt =>
    obtain rfl := Option.some.inj h
    exact ⟨rfl, rfl, rfl, by simp only; omega, rfl⟩

theorem intersection_holds (range : Range) :
    (intersection found visualIndex relation rowStart rowEnd range).any
        (fun piece => holds k piece.source) =
      (holds k ⟨rowStart, rowEnd⟩ && holds k range) := by
  simp only [intersection]
  rw [Bool.eq_iff_iff]
  split
  · simp [holds]
    omega
  · simp [holds]
    omega

theorem countP_filterMap_any {α β : Type} (f : α → Option β) (p : β → Bool) (l : List α) :
    (l.filterMap f).countP p = l.countP (fun a => (f a).any p) := by
  rw [countP_filterMap]
  congr 1
  funext a
  cases f a <;> rfl

theorem countP_appendRangeIntersections (found : SourceMatch) :
    (appendRangeIntersections found visualIndex relation rowStart rowEnd).countP
        (fun piece => holds k piece.source) =
      if holds k ⟨rowStart, rowEnd⟩ then found.ranges.countP (holds k) else 0 := by
  rw [appendRangeIntersections, countP_filterMap_any]
  simp only [intersection_holds]
  split
  · next h => simp [h]
  · next h => simp [h]

/-- The pieces of the matches that apply. -/
def applied (applies : SourceMatch → Bool) (relationOf : SourceMatch → VersionRelation)
    (matched : List SourceMatch) (visualIndex rowStart rowEnd : Nat) : List ProjectedSourceRange :=
  matched.flatMap (fun found =>
    if applies found then
      appendRangeIntersections found visualIndex (relationOf found) rowStart rowEnd
    else [])

variable {applies : SourceMatch → Bool} {relationOf : SourceMatch → VersionRelation}
  {matched : List SourceMatch}

theorem countP_applied : (applied applies relationOf matched visualIndex rowStart rowEnd).countP
        (fun piece => holds k piece.source) =
      if holds k ⟨rowStart, rowEnd⟩ then
        ((matched.filter applies).flatMap SourceMatch.ranges).countP (holds k) else 0 := by
  induction matched with
  | nil => simp [applied]
  | cons found matched ih =>
    simp only [applied] at ih
    rw [applied, flatMap_cons, countP_append, ih]
    by_cases happlies : applies found
    · simp only [happlies, if_true, countP_appendRangeIntersections, filter_cons,
        flatMap_cons, countP_append]
      split <;> rfl
    · simp [happlies]

theorem mem_applied (h : piece ∈ applied applies relationOf matched visualIndex rowStart rowEnd) :
    ∃ found ∈ matched, ∃ range ∈ found.ranges,
      intersection found visualIndex (relationOf found) rowStart rowEnd range = some piece := by
  obtain ⟨found, hfound, hpiece⟩ := mem_flatMap.mp h
  split at hpiece
  · obtain ⟨range, hrange, heq⟩ := mem_filterMap.mp hpiece
    exact ⟨found, hfound, range, hrange, heq⟩
  · simp at hpiece

end Pieces

/-- All that the visual row shows of a side, or in full width, is the Line. -/
def Shows (visual : VisualRow) (copy : VersionRelation) (line : LineRef) : Prop :=
  match copy with
  | .neutral => visual.halves = none ∧ visual.owner = .line line ∧
      visual.yankCandidates = candidatesForLine line
  | .old => ∃ halves, visual.halves = some halves ∧ ∀ half ∈ halves.left, half.line = line
  | .new => ∃ halves, visual.halves = some halves ∧ ∀ half ∈ halves.right, half.line = line

section Rows

variable {matched : List SourceMatch} {visualIndex k : Nat} {visual : VisualRow}
  {copy : VersionRelation} {line : LineRef}

theorem projectHalf_eq (relation : VersionRelation) (half : VisualHalf) :
    projectHalf matched visualIndex relation half =
      applied (onHalf relation half.line) (fun _ => relation) matched visualIndex half.sourceStart
        half.sourceEnd := rfl

theorem projectRow_whole (h : visual.halves = none) : projectRow matched visualIndex visual =
      applied (onCandidates visual.yankCandidates) SourceMatch.relation matched visualIndex
        visual.sourceStart visual.sourceEnd := by
  rw [projectRow, h]
  rfl

theorem projectRow_halves {halves : Halves} (h : visual.halves = some halves) :
    projectRow matched visualIndex visual =
      halves.left.toList.flatMap (projectHalf matched visualIndex .old) ++
        halves.right.toList.flatMap (projectHalf matched visualIndex .new) := by
  rw [projectRow, h]

variable {relation : VersionRelation}

theorem relation_projectHalf {half : VisualHalf} :
    ∀ piece ∈ projectHalf matched visualIndex relation half, piece.relation = relation := by
  intro piece hpiece
  obtain ⟨_, _, _, _, heq⟩ := mem_applied hpiece
  exact (intersection_eq_some heq).2.1

def sidePieces (k : Nat) (relation : VersionRelation) (piece : ProjectedSourceRange) : Bool :=
  decide (piece.relation = relation) && holds k piece.source

theorem countP_projectHalf {relation : VersionRelation} {side : Option VisualHalf}
    (hline : ∀ half ∈ side, half.line = line) :
    (side.toList.flatMap (projectHalf matched visualIndex relation)).countP (sidePieces k relation) =
      side.elim 0 (fun half => if holds k ⟨half.sourceStart, half.sourceEnd⟩ then
        ((matched.filter (onHalf relation line)).flatMap SourceMatch.ranges).countP (holds k)
      else 0) := by
  cases side with
  | none => rfl
  | some half =>
    have hsame : (projectHalf matched visualIndex relation half).countP (sidePieces k relation) =
        (projectHalf matched visualIndex relation half).countP (fun piece => holds k piece.source) := by
      refine countP_congr (fun piece hpiece => ?_)
      simp [sidePieces, relation_projectHalf piece hpiece]
    simp only [Option.toList_some, flatMap_singleton, Option.elim_some]
    rw [hsame, projectHalf_eq, countP_applied, hline half rfl]

theorem countP_projectHalf_other {relation other : VersionRelation} (hne : relation ≠ other)
    (side : Option VisualHalf) :
    (side.toList.flatMap (projectHalf matched visualIndex relation)).countP
      (sidePieces k other) = 0 := by
  refine countP_eq_zero.mpr (fun piece hpiece => ?_)
  obtain ⟨half, _, hpiece⟩ := mem_flatMap.mp hpiece
  simp [sidePieces, relation_projectHalf piece hpiece, hne]

theorem sidePieces_eq (h : relation ≠ .neutral) : (fun piece : ProjectedSourceRange =>
      (decide (relation = .neutral) || decide (piece.relation = relation)) &&
        holds k piece.source) = sidePieces k relation := by
  funext piece
  simp [sidePieces, h]

/-- Every match on the copy that a visual row shows is projected as often as its ranges hold the
byte, if the row has it. -/
theorem countP_projectRow (h : Shows visual copy line) :
    (projectRow matched visualIndex visual).countP (fun piece =>
        (decide (copy = .neutral) || decide (piece.relation = copy)) && holds k piece.source) =
      (visual.copyRange copy).elim 0
        (fun range => if holds k range then hits copy line matched k else 0) := by
  cases copy with
  | neutral =>
    obtain ⟨hhalves, _, hcandidates⟩ := h
    simp only [decide_true, Bool.true_or, Bool.true_and]
    rw [projectRow_whole hhalves, countP_applied, hcandidates]
    simp [VisualRow.copyRange, hhalves, hits, onCopy]
  | old =>
    obtain ⟨halves, hhalves, hline⟩ := h
    have hleft := @countP_projectHalf matched visualIndex k line .old halves.left hline
    have hright := @countP_projectHalf_other matched visualIndex k .new .old (by simp) halves.right
    rw [projectRow_halves hhalves, countP_append, sidePieces_eq (by simp), hleft, hright]
    cases hhalf : halves.left <;>
      simp [VisualRow.copyRange, hhalves, hhalf, hits, onCopy]
  | new =>
    obtain ⟨halves, hhalves, hline⟩ := h
    have hright := @countP_projectHalf matched visualIndex k line .new halves.right hline
    have hleft := @countP_projectHalf_other matched visualIndex k .old .new (by simp) halves.left
    rw [projectRow_halves hhalves, countP_append, sidePieces_eq (by simp), hleft, hright]
    cases hhalf : halves.right <;>
      simp [VisualRow.copyRange, hhalves, hhalf, hits, onCopy]

variable {piece : ProjectedSourceRange}

section

variable (h : piece ∈ projectRow matched visualIndex visual)
include h

theorem mem_projectRow : ∃ copy range applies relationOf, visual.copyRange copy = some range ∧
      piece ∈ applied applies relationOf matched visualIndex range.start range.stop := by
  cases hhalves : visual.halves with
  | none =>
    rw [projectRow_whole hhalves] at h
    have hcopy : visual.copyRange .neutral = some ⟨visual.sourceStart, visual.sourceEnd⟩ := by
      simp [VisualRow.copyRange, hhalves]
    exact ⟨_, _, _, _, hcopy, h⟩
  | some halves =>
    rw [projectRow_halves hhalves] at h
    cases mem_append.mp h with
    | inl hleft =>
      obtain ⟨half, hhalf, hpiece⟩ := mem_flatMap.mp hleft
      have hcopy : visual.copyRange .old = some ⟨half.sourceStart, half.sourceEnd⟩ := by
        simp [VisualRow.copyRange, hhalves, Option.mem_toList.mp hhalf]
      exact ⟨_, _, _, _, hcopy, hpiece⟩
    | inr hright =>
      obtain ⟨half, hhalf, hpiece⟩ := mem_flatMap.mp hright
      have hcopy : visual.copyRange .new = some ⟨half.sourceStart, half.sourceEnd⟩ := by
        simp [VisualRow.copyRange, hhalves, Option.mem_toList.mp hhalf]
      exact ⟨_, _, _, _, hcopy, hpiece⟩

theorem visualRow_of_mem_projectRow : piece.visualRow = visualIndex := by
  obtain ⟨_, _, _, _, _, hpiece⟩ := mem_projectRow h
  obtain ⟨_, _, _, _, heq⟩ := mem_applied hpiece
  exact (intersection_eq_some heq).1

theorem cut_of_mem_projectRow {visualRows : List VisualRow}
    (hvisual : visualRows[visualIndex]? = some visual) : Cut visualRows matched piece := by
  obtain ⟨copy, range, _, _, hcopy, hpiece⟩ := mem_projectRow h
  obtain ⟨found, hfound, whole, hwhole, heq⟩ := mem_applied hpiece
  obtain ⟨rfl, _, hsource, hlt, hrow⟩ := intersection_eq_some heq
  exact ⟨visual, copy, range, found, whole, hvisual, hcopy, hfound, hwhole, hsource, hlt, hrow⟩

end

end Rows

section Copies

variable {metrics : CellMetrics} {options : VisualRowOptions} {row : Row}
  {copy : VersionRelation} {line : LineRef} {width : Option Nat}

theorem copyRanges_lines (line : LineRef) (i : Nat) (ranges : List Range) :
    (ranges.map (fun range => wrappedVisualRow (.line line) i range.start range.stop)).filterMap
      (fun visual => visual.copyRange .neutral) = ranges := by
  induction ranges with
  | nil => rfl
  | cons range ranges ih => simp [VisualRow.copyRange, wrappedVisualRow]

variable {side : Halves → Option VisualHalf}

section

variable {visualRows : List VisualRow} {ranges : List Range} {visual : VisualRow}
  (hside : visualRows.filterMap (fun visual => visual.halves.bind side) = ranges.map (halfOf line))
include hside

theorem copyRanges_side : visualRows.filterMap (fun visual => (visual.halves.bind side).map
      (fun half => (⟨half.sourceStart, half.sourceEnd⟩ : Range))) = ranges := by
  rw [← map_filterMap, hside, map_map]
  exact map_id'' (fun range => rfl) ranges

theorem shows_side (hvisual : visual ∈ visualRows) {halves : Halves}
    (hhalves : visual.halves = some halves) : ∀ half ∈ side halves, half.line = line := by
  intro half hhalf
  have hmem : half ∈ visualRows.filterMap (fun visual => visual.halves.bind side) :=
    mem_filterMap.mpr ⟨visual, hvisual, by simpa [hhalves] using hhalf⟩
  rw [hside] at hmem
  obtain ⟨range, _, rfl⟩ := mem_map.mp hmem
  rfl

end

variable {visual : VisualRow}

theorem pair_halves (pair : LinePair) (widths : SideBodyWidths) (i : Nat) :
    (appendWrappedLinePair i pair widths metrics).filterMap
        (fun visual => visual.halves.bind Halves.left) =
      (pair.left.map (fun line => (lineRanges metrics line.text widths.left).map
        (halfOf line))).getD [] ∧
    (appendWrappedLinePair i pair widths metrics).filterMap
        (fun visual => visual.halves.bind Halves.right) =
      (pair.right.map (fun line => (lineRanges metrics line.text widths.right).map
        (halfOf line))).getD [] := by
  rw [← Side.halves_first, ← Side.halves_first]
  exact wrappedLinePair_halves i widths (Side.open_first _) (Side.open_first _)

variable {widths : SideBodyWidths}

theorem halves_of_mem_pair {pair : LinePair} {i : Nat}
    (h : visual ∈ appendWrappedLinePair i pair widths metrics) :
    ∃ halves, visual.halves = some halves := by
  obtain ⟨left, right, target, rfl⟩ := mem_wrappedLinePair i widths _ _ visual h
  exact ⟨_, rfl⟩

theorem visualBlock_pair (hlayout : options.layout = .sideBySide)
    (hwidths : sideBodyWidths options.width = some widths) (pair : LinePair) (i : Nat) :
    visualBlock metrics options i (.linePair pair) = appendWrappedLinePair i pair widths metrics := by
  simp [visualBlock, hlayout, hwidths, sideBySideVisualRows]

theorem makeVisualRow_line (line : LineRef) (i : Nat) :
    makeVisualRow (.line line) i = wrappedVisualRow (.line line) i 0 line.text.length := rfl

theorem visualBlock_line (hwraps : options.Wraps) (line : LineRef) (metrics : CellMetrics)
    (i : Nat) : ∃ ranges, Tiled metrics line.text options.lineWidth ranges ∧
      visualBlock metrics options i (.line line) =
        ranges.map (fun range => wrappedVisualRow (.line line) i range.start range.stop) := by
  cases hlayout : options.layout with
  | unified =>
    have hwidth : ¬options.width ≤ unifiedGutterCols := by
      simpa [VisualRowOptions.Wraps, hlayout] using hwraps
    refine ⟨lineRanges metrics line.text (options.width - unifiedGutterCols), ?_, ?_⟩
    · simpa [VisualRowOptions.lineWidth, hlayout] using tiled_lineRanges metrics line.text _
    · simp [visualBlock, hlayout, hwidth, unifiedVisualRows_line]
  | sideBySide =>
    refine ⟨[⟨0, line.text.length⟩], ?_, ?_⟩
    · simpa [VisualRowOptions.lineWidth, hlayout] using tiled_whole metrics line.text
    · simp only [visualBlock, hlayout, sideBySideVisualRows, makeVisualRow_line, map_cons, map_nil]
      split <;> rfl

/-- The visual rows of a row tile each copy of a Line that it displays. -/
theorem displays_block (hwraps : options.Wraps) (h : Displays options row copy line width)
    (metrics : CellMetrics) (i : Nat) :
    Tiled metrics line.text width
        ((visualBlock metrics options i row).filterMap (fun visual => visual.copyRange copy)) ∧
      ∀ visual ∈ visualBlock metrics options i row, Shows visual copy line := by
  cases h with
  | line =>
    obtain ⟨ranges, htiled, hblock⟩ := visualBlock_line hwraps line metrics i
    rw [hblock, copyRanges_lines]
    refine ⟨htiled, fun visual hvisual => ?_⟩
    obtain ⟨range, _, rfl⟩ := mem_map.mp hvisual
    exact ⟨rfl, rfl, rfl⟩
  | @left pair line widths hlayout hwidths hleft =>
    have hside := (@pair_halves metrics pair widths i).1
    rw [hleft, Option.map_some, Option.getD_some] at hside
    rw [visualBlock_pair hlayout hwidths]
    refine ⟨copyRanges_side hside ▸ tiled_lineRanges metrics line.text widths.left, ?_⟩
    intro visual hvisual
    obtain ⟨halves, hhalves⟩ := halves_of_mem_pair hvisual
    exact ⟨halves, hhalves, shows_side hside hvisual hhalves⟩
  | @right pair line widths hlayout hwidths hright =>
    have hside := (@pair_halves metrics pair widths i).2
    rw [hright, Option.map_some, Option.getD_some] at hside
    rw [visualBlock_pair hlayout hwidths]
    refine ⟨copyRanges_side hside ▸ tiled_lineRanges metrics line.text widths.right, ?_⟩
    intro visual hvisual
    obtain ⟨halves, hhalves⟩ := halves_of_mem_pair hvisual
    exact ⟨halves, hhalves, shows_side hside hvisual hhalves⟩

end Copies

section Buffers

variable {rows : List Row} {metrics : CellMetrics} {options : VisualRowOptions} {i : Nat}
  {row : Row} {copy : VersionRelation} {line : LineRef} {width : Option Nat}

theorem blockOf (hrow : rows[i]? = some row) : (buildVisualRowsWithOptions rows metrics options).filter
        (fun visual => decide (visual.bufferIndex = i)) = visualBlock metrics options i row := by
  have hindex : ∀ i row, ∀ visual ∈ visualBlock metrics options i row,
      visual.bufferIndex = i + 0 := visualBlock_index metrics options
  have hfilter := filter_flatten_mapIdx (l := rows) (i := i) hindex
  rw [buildVisualRowsWithOptions_eq]
  simpa [hrow] using hfilter

theorem copyRanges_eq (hrow : rows[i]? = some row) (copy : VersionRelation) :
    copyRanges (buildVisualRowsWithOptions rows metrics options) i copy =
      (visualBlock metrics options i row).filterMap (fun visual => visual.copyRange copy) := by
  rw [copyRanges, blockOf hrow]

variable {visualRows : List VisualRow}

theorem sum_copies (i count : Nat) (copy : VersionRelation) (k : Nat) :
    (visualRows.map (fun visual => if visual.bufferIndex = i then
        (visual.copyRange copy).elim 0 (fun range => if holds k range then count else 0)
      else 0)).sum = (copyRanges visualRows i copy).countP (holds k) * count := by
  induction visualRows with
  | nil => simp [copyRanges]
  | cons visual visualRows ih =>
    simp only [copyRanges, map_cons, sum_cons, ih]
    by_cases hindex : visual.bufferIndex = i
    · cases hrange : visual.copyRange copy with
      | none => simp [hindex, hrange]
      | some range =>
        by_cases hholds : holds k range
        · simp [hindex, hrange, hholds, Nat.add_mul, Nat.add_comm]
        · simp [hindex, hrange, hholds]
    · simp [hindex]

theorem countP_pieceOn {matched : List SourceMatch} {k : Nat}
    (h : ∀ visual ∈ visualRows, visual.bufferIndex = i → Shows visual copy line) :
    (projectSourceRanges visualRows matched).countP (pieceOn visualRows i copy k) =
      (copyRanges visualRows i copy).countP (holds k) * hits copy line matched k := by
  rw [← sum_copies, projectSourceRanges]
  refine countP_flatten_mapIdx (fun place visual hvisual => ?_)
  by_cases hindex : visual.bufferIndex = i
  · have hshows := h visual (mem_of_getElem? hvisual) hindex
    rw [if_pos hindex, ← countP_projectRow hshows]
    refine countP_congr (fun piece hpiece => ?_)
    simp [pieceOn, visualRow_of_mem_projectRow hpiece, hvisual, hindex]
  · rw [if_neg hindex]
    refine countP_eq_zero.mpr (fun piece hpiece => ?_)
    simp [pieceOn, visualRow_of_mem_projectRow hpiece, hvisual, hindex]

theorem index_of_mem {visual : VisualRow}
    (h : visual ∈ buildVisualRowsWithOptions rows metrics options) :
    ∃ row, rows[visual.bufferIndex]? = some row ∧
      visual ∈ visualBlock metrics options visual.bufferIndex row := by
  rw [buildVisualRowsWithOptions_eq] at h
  obtain ⟨i, row, hrow, hvisual⟩ := mem_flatten_mapIdx.mp h
  rw [visualBlock_index metrics options i row visual hvisual]
  exact ⟨row, hrow, hvisual⟩

theorem exists_visualRow_iff :
    (∃ visual ∈ buildVisualRowsWithOptions rows metrics options, visual.bufferIndex = i) ↔
      i < rows.length := by
  constructor
  · intro h
    obtain ⟨visual, hvisual, rfl⟩ := h
    obtain ⟨row, hrow, _⟩ := index_of_mem hvisual
    exact (List.getElem?_eq_some_iff.mp hrow).1
  · intro hi
    obtain ⟨visual, hvisual⟩ := List.exists_mem_of_ne_nil _
      (visualBlock_ne_nil metrics options i rows[i])
    refine ⟨visual, ?_, visualBlock_index metrics options i _ visual hvisual⟩
    rw [buildVisualRowsWithOptions_eq]
    exact mem_flatten_mapIdx.mpr ⟨i, rows[i], List.getElem?_eq_getElem hi, hvisual⟩

theorem pairwise_bufferIndex (rows : List Row) (metrics : CellMetrics)
    (options : VisualRowOptions) : (buildVisualRowsWithOptions rows metrics options).Pairwise
      (fun a b => a.bufferIndex ≤ b.bufferIndex) := by
  have hindex : ∀ i row, ∀ visual ∈ visualBlock metrics options i row,
      visual.bufferIndex = i + 0 := visualBlock_index metrics options
  rw [buildVisualRowsWithOptions_eq]
  exact pairwise_flatten_mapIdx hindex

section

variable (hwraps : options.Wraps) (hrow : rows[i]? = some row)
  (hdisplays : Displays options row copy line width)
include hwraps hrow hdisplays

theorem shows_of_mem : ∀ visual ∈ buildVisualRowsWithOptions rows metrics options,
      visual.bufferIndex = i → Shows visual copy line := by
  intro visual hvisual hi
  have hmem : visual ∈ (buildVisualRowsWithOptions rows metrics options).filter
      (fun visual => decide (visual.bufferIndex = i)) :=
    mem_filter.mpr ⟨hvisual, by simpa using hi⟩
  rw [blockOf hrow] at hmem
  exact (displays_block hwraps hdisplays metrics i).2 visual hmem

theorem tiled_copyRanges : Tiled metrics line.text width
      (copyRanges (buildVisualRowsWithOptions rows metrics options) i copy) := by
  rw [copyRanges_eq hrow]
  exact (displays_block hwraps hdisplays metrics i).1

end

/-- The visual rows of a Buffer follow its rows, and tile each copy of a Line; every piece of a match is
cut at their ends, and each copy shows every matched byte as often as ranges of matches hold it. -/
theorem buildVisualRows_tile (rows : List Row) (metrics : CellMetrics) (options : VisualRowOptions)
    (hwraps : options.Wraps) :
    let visualRows := buildVisualRowsWithOptions rows metrics options
    visualRows.Pairwise (fun a b => a.bufferIndex ≤ b.bufferIndex) ∧
    (∀ i, (∃ visual ∈ visualRows, visual.bufferIndex = i) ↔ i < rows.length) ∧
    (∀ matched, ∀ piece ∈ projectSourceRanges visualRows matched, Cut visualRows matched piece) ∧
    ∀ i row copy line width, rows[i]? = some row → Displays options row copy line width →
      (∀ visual ∈ visualRows, visual.bufferIndex = i → Shows visual copy line) ∧
      Tiled metrics line.text width (copyRanges visualRows i copy) ∧
      ∀ matched, ∀ k < line.text.length,
        (projectSourceRanges visualRows matched).countP (pieceOn visualRows i copy k) =
          hits copy line matched k := by
  refine ⟨pairwise_bufferIndex rows metrics options, fun i => exists_visualRow_iff,
    fun matched piece hpiece => ?_, fun i row copy line width hrow hdisplays => ?_⟩
  · obtain ⟨place, visual, hvisual, hpiece⟩ := mem_flatten_mapIdx.mp hpiece
    exact cut_of_mem_projectRow hpiece hvisual
  · have hshows := @shows_of_mem rows metrics options i row copy line width hwraps hrow hdisplays
    have htiled := @tiled_copyRanges rows metrics options i row copy line width hwraps hrow hdisplays
    refine ⟨hshows, htiled, fun matched k hk => ?_⟩
    have honce : (copyRanges (buildVisualRowsWithOptions rows metrics options) i copy).countP
        (holds k) = 1 := by
      have hcount := htiled.tiles.countP (k := k)
      rwa [if_pos (by omega)] at hcount
    rw [countP_pieceOn hshows, honce, Nat.one_mul]

/-- A Line of two words, wrapped between them. -/
theorem words_tile :
    let rows := [Row.line ⟨0, ⟨1, 1, .context, [97, 98, 32, 99, 100], true⟩⟩]
    let options : VisualRowOptions := ⟨.unified, 15⟩
    VisualRowOptions.Wraps options ∧
      (buildVisualRowsWithOptions rows .bytes options).map VisualRow.sourceStart = [0, 3] ∧
      (buildVisualRowsWithOptions rows .bytes options).Pairwise
        (fun a b => a.bufferIndex ≤ b.bufferIndex) :=
  ⟨by decide, by decide +kernel, (buildVisualRows_tile _ .bytes ⟨.unified, 15⟩ (by decide)).1⟩

end Buffers

end Bbr.Tui.Frame
