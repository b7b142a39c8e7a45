import Bbr.Lib.Tilings
import Bbr.Tui.VisualRows

/-!
# Wrapped Lines

The graphemes of a text are glyphs, and its rows are those of greedy wrapping. The rows of a Line tile
its text.
-/
namespace Bbr.Tui.Frame

open Bbr.Lib (Tiles tiles_cons)
open Lib.Wrap List Option
open Bbr.Search (Range VersionRelation)

def graphemes (metrics : CellMetrics) (text : Bytes) : List Glyph :=
  if _ : 0 < text.length then
    let measured := metrics.next text
    ⟨measured.byteLen, measured.cellWidth, isUnicodeWhitespace (text.take measured.byteLen)⟩ ::
      graphemes metrics (text.drop measured.byteLen)
  else []
termination_by text.length
decreasing_by
  have := @CellMetrics.byteLen_pos metrics text ‹_›
  simp
  omega

section Graphemes

variable (metrics : CellMetrics) {text : Bytes}

theorem graphemes_of_pos (h : 0 < text.length) : graphemes metrics text =
      ⟨(metrics.next text).byteLen, (metrics.next text).cellWidth,
        isUnicodeWhitespace (text.take (metrics.next text).byteLen)⟩ ::
      graphemes metrics (text.drop (metrics.next text).byteLen) := by
  rw [graphemes, dif_pos h]

theorem graphemes_of_le (h : text.length ≤ 0) : graphemes metrics text = [] := by
  rw [graphemes, dif_neg (by omega)]

theorem graphemes_ne_nil (h : 0 < text.length) : graphemes metrics text ≠ [] := by
  simp [graphemes_of_pos metrics h]

theorem totalSize_graphemes (text : Bytes) : totalSize (graphemes metrics text) = text.length := by
  induction text using graphemes.induct metrics with
  | case1 text h measured ih =>
    have hle := metrics.byteLen_le text
    rw [graphemes_of_pos metrics h, totalSize_cons]
    simp only [measured, length_drop] at ih
    simp only [ih]
    omega
  | case2 text h => simp [graphemes_of_le metrics (by omega : text.length ≤ 0)]; omega

theorem size_pos_of_mem_graphemes (text : Bytes) : ∀ g ∈ graphemes metrics text, 0 < g.size := by
  induction text using graphemes.induct metrics with
  | case1 text h measured ih =>
    rw [graphemes_of_pos metrics h]
    intro g hg
    cases mem_cons.mp hg with
    | inl heq => simpa [heq] using metrics.byteLen_pos h
    | inr hmem => exact ih g hmem
  | case2 text h => simp [graphemes_of_le metrics (by omega : text.length ≤ 0)]

theorem graphemes_drop (text : Bytes) (n : Nat) :
    graphemes metrics (text.drop (totalSize ((graphemes metrics text).take n))) =
      (graphemes metrics text).drop n := by
  induction n generalizing text with
  | zero => simp
  | succ n ih =>
    by_cases h : 0 < text.length
    · rw [graphemes_of_pos metrics h, take_succ_cons, totalSize_cons, drop_succ_cons, ← drop_drop, ih]
    · simp [graphemes_of_le metrics (by omega : text.length ≤ 0)]

theorem totalSize_take_le (text : Bytes) (n : Nat) :
    totalSize ((graphemes metrics text).take n) ≤ text.length := by
  have hsum : totalSize ((graphemes metrics text).take n) +
      totalSize ((graphemes metrics text).drop n) = text.length := by
    rw [← totalSize_append, take_append_drop, totalSize_graphemes]
  omega

end Graphemes

/-- Where the row ends, as the glyphs from `pos` on tell it. -/
def stopOf (text : Bytes) (start pos room : Nat) (gs : List Glyph) (whitespaceEnd : Option Nat) :
    Nat :=
  if fitting room gs = gs.length then text.length
  else if spaced (gs.take (fitting room gs)) ≠ 0 then
    pos + totalSize (gs.take (spaced (gs.take (fitting room gs))))
  else
    breakBefore text start (pos + totalSize (gs.take (fitting room gs)))
      ((gs[fitting room gs]?.map Glyph.size).getD 0) whitespaceEnd

section RowEnds

variable {text : Bytes} {start pos room : Nat} {g : Glyph} {gs : List Glyph} (width : Nat)
  (metrics : CellMetrics) (whitespaceEnd : Option Nat)

theorem stopOf_nil : stopOf text start pos room [] whitespaceEnd = text.length := by
  simp [stopOf, fitting]

theorem stopOf_wide (hg : room < g.width) : stopOf text start pos room (g :: gs) whitespaceEnd =
      breakBefore text start pos g.size whitespaceEnd := by
  have hfit : fitting room (g :: gs) = 0 := by
    rw [fitting, if_neg (by omega)]
  simp [stopOf, hfit, spaced]

theorem breakBefore_some {stop : Nat} (byteLen : Nat) (h : start < stop) :
    breakBefore text start pos byteLen (some stop) = stop := by
  have hfilter : (some stop).filter (fun stop => decide (start < stop)) = some stop :=
    filter_some_pos (by simpa using h)
  rw [breakBefore, hfilter]

theorem breakBefore_none (byteLen : Nat) : breakBefore text start pos byteLen none =
      if start < pos then pos else min (pos + byteLen) text.length := rfl

theorem stopOf_fits (hg : g.width ≤ room) (hstart : start < pos + g.size) :
    stopOf text start pos room (g :: gs) whitespaceEnd =
      stopOf text start (pos + g.size) (room - g.width) gs
        (if g.space then some (pos + g.size) else whitespaceEnd) := by
  have hfit : fitting room (g :: gs) = fitting (room - g.width) gs + 1 := by
    rw [fitting, if_pos hg]
  simp only [stopOf, hfit, length_cons, Nat.add_right_cancel_iff, take_succ_cons,
    totalSize_cons, getElem?_cons_succ, spaced]
  by_cases hall : fitting (room - g.width) gs = gs.length
  · simp [hall]
  simp only [hall, if_false]
  by_cases hspaced : spaced (gs.take (fitting (room - g.width) gs)) = 0
  · by_cases hspace : g.space
    · simp [hspaced, hspace, breakBefore_some _ hstart]
    · simp [hspaced, hspace, Nat.add_assoc]
  · simp [hspaced, Nat.add_assoc]

theorem wrapFrom_eq (cells : Nat) (whitespaceEnd : Option Nat) (hpos : start ≤ pos)
    (hcells : cells ≤ width) :
    wrapFrom text start width metrics pos cells whitespaceEnd =
      stopOf text start pos (width - cells) (graphemes metrics (text.drop pos)) whitespaceEnd := by
  induction pos, cells, whitespaceEnd using wrapFrom.induct text width metrics with
  | case1 pos cells ws h measured hover =>
    have hrest : 0 < (text.drop pos).length := by simp; omega
    have hwide : width - cells < (metrics.next (text.drop pos)).cellWidth := by
      simp only [measured] at hover
      omega
    rw [wrapFrom, dif_pos h, if_pos hover, graphemes_of_pos metrics hrest, stopOf_wide _ hwide]
  | case2 pos cells ws h measured hover ih =>
    have hrest : 0 < (text.drop pos).length := by simp; omega
    have hlen := metrics.byteLen_pos hrest
    simp only [measured, dite_eq_ite] at hover ih
    have hfits : (metrics.next (text.drop pos)).cellWidth ≤ width - cells := by omega
    rw [wrapFrom, dif_pos h, if_neg hover, graphemes_of_pos metrics hrest,
      stopOf_fits _ hfits (by simp only; omega), drop_drop, ih (by omega) (by omega),
      Nat.sub_add_eq]
  | case3 pos cells ws h =>
    rw [wrapFrom, dif_neg h, graphemes_of_le metrics (by simp; omega), stopOf_nil]

theorem stopOf_start (hsize : ∀ g ∈ gs, 0 < g.size) (hlen : start + totalSize gs = text.length) :
    stopOf text start start room gs none = start + totalSize (gs.take (rowLength room gs)) := by
  have hfit := fitting_le_length room gs
  rw [stopOf, rowLength]
  by_cases hall : fitting room gs = gs.length
  · rw [if_pos hall, if_pos hall, take_length, hlen]
  rw [if_neg hall, if_neg hall]
  by_cases hspaced : spaced (gs.take (fitting room gs)) = 0
  · rw [if_neg (by simpa using hspaced), if_neg (by simpa using hspaced), breakBefore_none]
    cases gs with
    | nil => simp [fitting] at hall
    | cons g gs =>
      have hg := hsize g (by simp)
      simp only [totalSize_cons] at hlen
      cases fitting room (g :: gs) with
      | zero => simp; omega
      | succ n =>
        have hstart : start < start + totalSize ((g :: gs).take (n + 1)) := by simp; omega
        rw [if_pos hstart, Nat.max_eq_left (by omega)]
  · rw [if_pos hspaced, if_pos hspaced]

theorem wrapEnd_eq (h : start ≤ text.length) :
    wrapEnd text start width metrics = start + totalSize ((graphemes metrics (text.drop start)).take
      (rowLength width (graphemes metrics (text.drop start)))) := by
  rw [wrapEnd, wrapFrom_eq width metrics 0 none (Nat.le_refl start) (Nat.zero_le width), Nat.sub_zero]
  refine stopOf_start (size_pos_of_mem_graphemes metrics _) ?_
  rw [totalSize_graphemes, length_drop]
  omega

theorem wrapEnd_le (h : start ≤ text.length) : wrapEnd text start width metrics ≤ text.length := by
  have hle := totalSize_take_le metrics (text.drop start)
    (rowLength width (graphemes metrics (text.drop start)))
  rw [length_drop] at hle
  rw [wrapEnd_eq width metrics h]
  omega

/-- A range that is a row of a text: whole graphemes from its start on, as many as make a row. -/
def RowRange (metrics : CellMetrics) (text : Bytes) (width : Nat) (range : Range) : Prop :=
  ∃ n, IsRow width (graphemes metrics (text.drop range.start)) n ∧
    range.stop = range.start + totalSize ((graphemes metrics (text.drop range.start)).take n)

theorem rowRange_wrapEnd (h : start < text.length) :
    RowRange metrics text width ⟨start, wrapEnd text start width metrics⟩ :=
  ⟨_, isRow_rowLength width (graphemes_ne_nil metrics (by simp; omega)),
    wrapEnd_eq width metrics (Nat.le_of_lt h)⟩

end RowEnds

def wrapRanges (metrics : CellMetrics) (text : Bytes) (width start : Nat) : List Range :=
  if _ : start < text.length then
    ⟨start, wrapEnd text start width metrics⟩ ::
      wrapRanges metrics text width (wrapEnd text start width metrics)
  else []
termination_by text.length - start
decreasing_by
  have := lt_wrapEnd width metrics ‹_›
  omega

/-- The rows of a displayed text; one without bytes has a row as well. -/
def lineRanges (metrics : CellMetrics) (text : Bytes) (width : Nat) : List Range :=
  if text.length = 0 then [⟨0, 0⟩] else wrapRanges metrics text width 0

/-- The ranges tile a text, and are its rows if these have a width. -/
structure Tiled (metrics : CellMetrics) (text : Bytes) (width : Option Nat) (ranges : List Range) :
    Prop where
  tiles : Tiles Range.start Range.stop 0 text.length ranges
  shown : ranges ≠ []
  nonempty : 0 < text.length → ∀ range ∈ ranges, range.start < range.stop
  rows : 0 < text.length → ∀ w ∈ width, ∀ range ∈ ranges, RowRange metrics text w range

section Ranges

variable {metrics : CellMetrics} {text : Bytes} {width start : Nat}

theorem wrapRanges_of_lt (h : start < text.length) : wrapRanges metrics text width start =
      ⟨start, wrapEnd text start width metrics⟩ ::
        wrapRanges metrics text width (wrapEnd text start width metrics) := by
  rw [wrapRanges, dif_pos h]

theorem wrapRanges_of_le (h : text.length ≤ start) : wrapRanges metrics text width start = [] := by
  rw [wrapRanges, dif_neg (by omega)]

theorem tiles_wrapRanges (h : start ≤ text.length) :
    Tiles Range.start Range.stop start text.length (wrapRanges metrics text width start) := by
  induction start using wrapRanges.induct metrics text width with
  | case1 start hlt ih =>
    have hend := lt_wrapEnd width metrics hlt
    rw [wrapRanges_of_lt hlt]
    exact ⟨rfl, Nat.le_of_lt hend, ih (wrapEnd_le width metrics h)⟩
  | case2 start hnot =>
    rw [wrapRanges_of_le (by omega)]
    exact (by omega : start = text.length)

theorem rowRange_of_mem_wrapRanges (start : Nat) : ∀ range ∈ wrapRanges metrics text width start,
      range.start < range.stop ∧ RowRange metrics text width range := by
  induction start using wrapRanges.induct metrics text width with
  | case1 start hlt ih =>
    rw [wrapRanges_of_lt hlt]
    intro range hrange
    cases mem_cons.mp hrange with
    | inl heq =>
      subst heq
      exact ⟨lt_wrapEnd width metrics hlt, rowRange_wrapEnd width metrics hlt⟩
    | inr hmem => exact ih range hmem
  | case2 start hnot => simp [wrapRanges_of_le (by omega : text.length ≤ start)]

theorem tiled_lineRanges (metrics : CellMetrics) (text : Bytes) (width : Nat) :
    Tiled metrics text (some width) (lineRanges metrics text width) := by
  by_cases hempty : text.length = 0
  · have hranges : lineRanges metrics text width = [⟨0, 0⟩] := if_pos hempty
    rw [hranges]
    exact ⟨by simp [hempty], by simp, by omega, by omega⟩
  have hranges : lineRanges metrics text width = wrapRanges metrics text width 0 := if_neg hempty
  have hrow := @rowRange_of_mem_wrapRanges metrics text width 0
  rw [hranges]
  refine ⟨tiles_wrapRanges (Nat.zero_le _), ?_, fun _ range h => (hrow range h).1, ?_⟩
  · simp [wrapRanges_of_lt (by omega : 0 < text.length)]
  · intro _ w hw range hrange
    obtain rfl : width = w := by simpa using hw
    exact (hrow range hrange).2

theorem tiled_whole (metrics : CellMetrics) (text : Bytes) :
    Tiled metrics text none [⟨0, text.length⟩] :=
  ⟨by simp, by simp, by simp, by simp⟩

end Ranges

section Lines

variable {metrics : CellMetrics} {width : Nat}

theorem wrappedVisualRows_eq (row : Row) (text : Bytes) (bufferIndex start : Nat) :
    wrappedVisualRows row text bufferIndex width metrics start =
      (wrapRanges metrics text width start).map
        (fun range => wrappedVisualRow row bufferIndex range.start range.stop) := by
  induction start using wrapRanges.induct metrics text width with
  | case1 start hlt ih =>
    rw [wrappedVisualRows, dif_pos hlt, wrapRanges_of_lt hlt, map_cons, ih]
  | case2 start hnot =>
    rw [wrappedVisualRows, dif_neg hnot, wrapRanges_of_le (by omega), map_nil]

/-- The rows of a Line that is not empty, and the one of a Line that is. -/
theorem unifiedVisualRows_line (line : LineRef) (bufferIndex : Nat) :
    unifiedVisualRows width metrics (.line line) bufferIndex = (lineRanges metrics line.text width).map
        (fun range => wrappedVisualRow (.line line) bufferIndex range.start range.stop) := by
  by_cases hempty : line.text.length = 0
  · simp [unifiedVisualRows, lineRanges, hempty, makeVisualRow, wrappedVisualRow, rowSourceStart,
      rowSourceEnd, Row.kind]
  · simp [unifiedVisualRows, lineRanges, hempty, wrappedVisualRows_eq]

def halfOf (line : LineRef) (range : Range) : VisualHalf where
  line := line
  sourceStart := range.start
  sourceEnd := range.stop
  continuation := range.start != 0

/-- All halves from where the side stands. -/
def Side.halves (width : Nat) (metrics : CellMetrics) : Side → List VisualHalf
  | none => []
  | some (line, start) =>
    (if line.text.length = 0 then [⟨0, 0⟩] else wrapRanges metrics line.text width start).map
      (halfOf line)

/-- Something of the Line is left. -/
def Side.Open (self : Side) : Prop :=
  ∀ line start, self = some (line, start) →
    start < line.text.length ∨ start = 0 ∧ line.text.length = 0

theorem Side.open_first (line : Option LineRef) : Side.Open (line.map (fun line => (line, 0))) := by
  intro line' start h
  cases line with
  | none => simp at h
  | some line =>
    simp only [map_some, some.injEq, Prod.mk.injEq] at h
    obtain ⟨rfl, rfl⟩ := h
    omega

theorem Side.halves_first (line : Option LineRef) :
    Side.halves width metrics (line.map (fun line => (line, 0))) =
      (line.map (fun line => (lineRanges metrics line.text width).map (halfOf line))).getD [] := by
  cases line with
  | none => rfl
  | some line => rfl

theorem Side.step {side : Side} (h : side.Open) : side.halves width metrics =
        (side.half width metrics).toList ++ (side.next width metrics).halves width metrics ∧
      (side.next width metrics).Open := by
  cases side with
  | none => exact ⟨rfl, by simp [Side.Open]⟩
  | some side =>
    obtain ⟨line, start⟩ := side
    rw [Side.next_some]
    by_cases hempty : line.text.length = 0
    · obtain rfl : start = 0 := by
        have := h line start rfl
        omega
      have htext : line.text = [] := eq_nil_of_length_eq_zero hempty
      simp [Side.halves, Side.half, Side.Open, htext, makeVisualHalf, halfOf]
    · have hlt : start < line.text.length := by
        have := h line start rfl
        omega
      have hend : (makeVisualHalf line start width metrics).sourceEnd =
          wrapEnd line.text start width metrics := if_neg hempty
      have hhalf : makeVisualHalf line start width metrics =
          halfOf line ⟨start, wrapEnd line.text start width metrics⟩ := by
        simp [makeVisualHalf, halfOf, hempty]
      rw [hend]
      simp only [Side.halves, Side.half, hempty, if_false, map_some, hhalf,
        wrapRanges_of_lt hlt, map_cons, toList_some, singleton_append]
      by_cases hdone : line.text.length ≤ wrapEnd line.text start width metrics
      · simp [hdone, wrapRanges_of_le hdone, Side.Open]
      simp only [hdone, if_false, hempty, true_and]
      intro line' start' heq
      simp only [some.injEq, Prod.mk.injEq] at heq
      obtain ⟨rfl, rfl⟩ := heq
      omega

variable {left right : Side} (bufferIndex : Nat) (widths : SideBodyWidths)

theorem wrappedLinePair_none
    (h : (right.half widths.right metrics <|> left.half widths.left metrics) = none) :
    wrappedLinePair bufferIndex widths metrics left right = [] := by
  rw [wrappedLinePair]
  split
  · rfl
  · next target htarget => simp [h] at htarget

theorem wrappedLinePair_some {target : VisualHalf}
    (h : (right.half widths.right metrics <|> left.half widths.left metrics) = some target) :
    wrappedLinePair bufferIndex widths metrics left right =
      pairVisualRow bufferIndex (left.half widths.left metrics) (right.half widths.right metrics)
          target ::
        wrappedLinePair bufferIndex widths metrics (left.next widths.left metrics)
          (right.next widths.right metrics) := by
  rw [wrappedLinePair]
  split
  · next hnone => simp [h] at hnone
  · next target' htarget' =>
    obtain rfl : target = target' := by simpa [h] using htarget'
    rfl

theorem Side.half_eq_none {side : Side} : side.half width metrics = none ↔ side = none := by
  cases side <;> simp [Side.half]

theorem sides_done {widths : SideBodyWidths}
    (h : (right.half widths.right metrics <|> left.half widths.left metrics) = none) :
    left = none ∧ right = none := by
  have hnone : right.half widths.right metrics = none ∧ left.half widths.left metrics = none := by
    cases hright : right.half widths.right metrics <;> simp_all
  exact ⟨Side.half_eq_none.mp hnone.2, Side.half_eq_none.mp hnone.1⟩

theorem filterMap_cons_toList {α β : Type} (f : α → Option β) (a : α) (l : List α) :
    (a :: l).filterMap f = (f a).toList ++ l.filterMap f := by
  cases h : f a <;> simp [h]

theorem wrappedLinePair_halves (bufferIndex : Nat) (widths : SideBodyWidths)
    {left right : Side} (hleft : left.Open) (hright : right.Open) :
    (wrappedLinePair bufferIndex widths metrics left right).filterMap
        (fun row => row.halves.bind Halves.left) = left.halves widths.left metrics ∧
      (wrappedLinePair bufferIndex widths metrics left right).filterMap
        (fun row => row.halves.bind Halves.right) = right.halves widths.right metrics := by
  induction left, right using wrappedLinePair.induct widths metrics with
  | case1 left right hnone =>
    obtain ⟨rfl, rfl⟩ := sides_done hnone
    simp [wrappedLinePair_none bufferIndex widths hnone, Side.halves]
  | case2 left right target htarget ih =>
    have hstepl := @Side.step metrics widths.left left hleft
    have hstepr := @Side.step metrics widths.right right hright
    have hrest := ih hstepl.2 hstepr.2
    rw [wrappedLinePair_some bufferIndex widths htarget, filterMap_cons_toList,
      filterMap_cons_toList, hrest.1, hrest.2, hstepl.1, hstepr.1]
    exact ⟨rfl, rfl⟩

theorem mem_wrappedLinePair (left right : Side) :
    ∀ row ∈ wrappedLinePair bufferIndex widths metrics left right,
      ∃ left right target, row = pairVisualRow bufferIndex left right target := by
  induction left, right using wrappedLinePair.induct widths metrics with
  | case1 left right hnone => simp [wrappedLinePair_none bufferIndex widths hnone]
  | case2 left right target htarget ih =>
    rw [wrappedLinePair_some bufferIndex widths htarget]
    intro row hrow
    cases mem_cons.mp hrow with
    | inl heq => exact ⟨_, _, _, heq⟩
    | inr hmem => exact ih row hmem

theorem appendWrappedLinePair_ne_nil (pair : LinePair) (widths : SideBodyWidths) :
    appendWrappedLinePair bufferIndex pair widths metrics ≠ [] := by
  rw [appendWrappedLinePair]
  intro hnil
  have hhalves := @wrappedLinePair_halves metrics bufferIndex widths _ _
    (Side.open_first pair.left) (Side.open_first pair.right)
  rw [hnil, Side.halves_first, Side.halves_first] at hhalves
  cases pair.shown with
  | inl hleft =>
    obtain ⟨line, hline⟩ := ne_none_iff_exists'.mp hleft
    have htiled := (tiled_lineRanges metrics line.text widths.left).shown
    simp [hline] at hhalves
    exact htiled hhalves.1
  | inr hright =>
    obtain ⟨line, hline⟩ := ne_none_iff_exists'.mp hright
    have htiled := (tiled_lineRanges metrics line.text widths.right).shown
    simp [hline] at hhalves
    exact htiled hhalves.2

def visualBlock (metrics : CellMetrics) (options : VisualRowOptions) (bufferIndex : Nat)
    (row : Row) : List VisualRow :=
  match options.layout with
  | .unified =>
    if options.width ≤ unifiedGutterCols then [makeVisualRow row bufferIndex]
    else unifiedVisualRows (options.width - unifiedGutterCols) metrics row bufferIndex
  | .sideBySide => match sideBodyWidths options.width with
    | none => [makeVisualRow row bufferIndex]
    | some widths => sideBySideVisualRows widths metrics row bufferIndex

theorem flatten_mapIdx_singleton {α β : Type} (f : Nat → α → β) (l : List α) :
    (l.mapIdx (fun i a => [f i a])).flatten = l.mapIdx f := by
  induction l generalizing f with
  | nil => rfl
  | cons a l ih => simp [ih]

theorem buildUnwrappedVisualRows_eq (rows : List Row) :
    buildUnwrappedVisualRows rows = (rows.mapIdx (fun i row => [makeVisualRow row i])).flatten :=
  (flatten_mapIdx_singleton (fun i row => makeVisualRow row i) rows).symm

theorem buildVisualRowsWithOptions_eq (rows : List Row) (metrics : CellMetrics)
    (options : VisualRowOptions) :
    buildVisualRowsWithOptions rows metrics options =
      (rows.mapIdx (visualBlock metrics options)).flatten := by
  cases hlayout : options.layout with
  | unified =>
    by_cases hwidth : options.width ≤ unifiedGutterCols
    · have hblock : visualBlock metrics options = fun i row => [makeVisualRow row i] := by
        funext i row
        simp [visualBlock, hlayout, hwidth]
      simp only [buildVisualRowsWithOptions, hlayout, hwidth, if_true, hblock]
      exact buildUnwrappedVisualRows_eq rows
    · have hblock : visualBlock metrics options = fun i row =>
          unifiedVisualRows (options.width - unifiedGutterCols) metrics row i := by
        funext i row
        simp [visualBlock, hlayout, hwidth]
      simp only [buildVisualRowsWithOptions, hlayout, hwidth, if_false, hblock]
  | sideBySide =>
    cases hwidths : sideBodyWidths options.width with
    | none =>
      have hblock : visualBlock metrics options = fun i row => [makeVisualRow row i] := by
        funext i row
        simp [visualBlock, hlayout, hwidths]
      simp only [buildVisualRowsWithOptions, hlayout, hwidths, hblock]
      exact buildUnwrappedVisualRows_eq rows
    | some widths =>
      have hblock : visualBlock metrics options = fun i row =>
          sideBySideVisualRows widths metrics row i := by
        funext i row
        simp [visualBlock, hlayout, hwidths]
      simp only [buildVisualRowsWithOptions, hlayout, hwidths, hblock]

theorem mem_unifiedVisualRows (row : Row) (bufferIndex : Nat) :
    ∀ visual ∈ unifiedVisualRows width metrics row bufferIndex, visual = makeVisualRow row bufferIndex ∨
        ∃ start stop, visual = wrappedVisualRow row bufferIndex start stop := by
  intro visual hvisual
  cases row with
  | line line =>
    rw [unifiedVisualRows_line] at hvisual
    obtain ⟨range, _, rfl⟩ := mem_map.mp hvisual
    exact .inr ⟨_, _, rfl⟩
  | _ => exact .inl (mem_singleton.mp hvisual)

theorem visualBlock_index (metrics : CellMetrics) (options : VisualRowOptions) (bufferIndex : Nat)
    (row : Row) : ∀ visual ∈ visualBlock metrics options bufferIndex row,
      visual.bufferIndex = bufferIndex := by
  have hsingle : ∀ visual ∈ [makeVisualRow row bufferIndex],
      visual.bufferIndex = bufferIndex := by simp [makeVisualRow]
  rw [visualBlock]
  split
  · split
    · exact hsingle
    intro visual hvisual
    cases mem_unifiedVisualRows row bufferIndex visual hvisual with
    | inl heq => rw [heq, makeVisualRow]
    | inr hwrapped =>
      obtain ⟨start, stop, rfl⟩ := hwrapped
      rfl
  · split
    · exact hsingle
    rw [sideBySideVisualRows.eq_def]
    split
    · intro visual hvisual
      obtain ⟨_, _, _, rfl⟩ := mem_wrappedLinePair bufferIndex _ _ _ visual hvisual
      rfl
    · exact hsingle

theorem visualBlock_ne_nil (metrics : CellMetrics) (options : VisualRowOptions)
    (bufferIndex : Nat) (row : Row) : visualBlock metrics options bufferIndex row ≠ [] := by
  rw [visualBlock]
  split
  · split
    · simp
    cases row with
    | line line =>
      rw [unifiedVisualRows_line]
      simpa using (tiled_lineRanges metrics line.text _).shown
    | _ => simp [unifiedVisualRows]
  · split
    · simp
    · cases row with
      | linePair pair => exact appendWrappedLinePair_ne_nil bufferIndex pair _
      | _ => simp [sideBySideVisualRows]

end Lines

end Bbr.Tui.Frame
