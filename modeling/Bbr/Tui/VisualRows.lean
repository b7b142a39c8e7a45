import Bbr.Diff.Model
import Bbr.Lib.Wraps
import Bbr.Search.Candidate
import Bbr.Tui.Cards
import Bbr.Tui.Nav

/-!
# Visual rows

The rows of a Buffer are laid out for a width: a Line that is too long is wrapped, and the halves of a
pair are wrapped side by side. The terminal measures one grapheme after the other. Things that the code
tells apart by their address have it as a number.
-/
namespace Bbr.Tui.Frame

open Bbr.Bitbucket (CommentId)
open Lib.Wrap (Glyph)
open Bbr.Review (TempId)
open Bbr.Search (Range VersionRelation)

structure Measurement where
  byteLen : Nat
  cellWidth : Nat
  deriving DecidableEq, Repr

structure CellMetrics where
  measure : Bytes → Measurement

/-- At least a byte and no more than there is. -/
def CellMetrics.next (self : CellMetrics) (text : Bytes) : Measurement :=
  if text.length = 0 then ⟨0, 0⟩
  else
    let measured := self.measure text
    { byteLen := if measured.byteLen = 0 ∨ text.length < measured.byteLen then 1
        else measured.byteLen
      cellWidth := measured.cellWidth }

/-- Every byte has a cell. -/
def CellMetrics.bytes : CellMetrics where
  measure text := if text.length = 0 then ⟨0, 0⟩ else ⟨1, 1⟩

def utf8ByteSequenceLength (first : UInt8) : Option Nat :=
  if first < 0x80 then some 1
  else if 0xc0 ≤ first ∧ first < 0xe0 then some 2
  else if 0xe0 ≤ first ∧ first < 0xf0 then some 3
  else if 0xf0 ≤ first ∧ first < 0xf8 then some 4
  else none

/-- The bits that a byte behind the first adds. -/
def continued (value : Nat) (b : UInt8) : Option Nat :=
  if 0x80 ≤ b ∧ b < 0xc0 then some (value * 64 + b.toNat % 64) else none

/-- The scalar of a sequence of the length that its first byte says. -/
def utf8Decode : Bytes → Option Nat
  | [a] => some a.toNat
  | [a, b] => (continued (a.toNat % 32) b).filter (fun value => decide (0x80 ≤ value))
  | [a, b, c] => ((continued (a.toNat % 16) b).bind (fun value => continued value c)).filter
      (fun value => decide (0x800 ≤ value ∧ ¬(0xd800 ≤ value ∧ value ≤ 0xdfff)))
  | [a, b, c, d] => (((continued (a.toNat % 8) b).bind (fun value => continued value c)).bind
      (fun value => continued value d)).filter
      (fun value => decide (0x10000 ≤ value ∧ value ≤ 0x10ffff))
  | _ => none

def whitespaceScalar (cp : Nat) : Bool :=
  decide ((0x09 ≤ cp ∧ cp ≤ 0x0d) ∨ cp = 0x20 ∨ cp = 0x85 ∨ cp = 0xa0 ∨ cp = 0x1680 ∨
    (0x2000 ≤ cp ∧ cp ≤ 0x200a) ∨ cp = 0x2028 ∨ cp = 0x2029 ∨ cp = 0x202f ∨ cp = 0x205f ∨
    cp = 0x3000)

def isUnicodeWhitespace : Bytes → Bool
  | [] => false
  | first :: rest => match utf8ByteSequenceLength first with
    | none => false
    | some firstLen =>
      if (first :: rest).length < firstLen then false
      else (utf8Decode ((first :: rest).take firstLen)).any whitespaceScalar

theorem CellMetrics.byteLen_pos (metrics : CellMetrics) {text : Bytes} (h : 0 < text.length) :
    0 < (metrics.next text).byteLen := by
  have hne : text.length ≠ 0 := by omega
  simp only [CellMetrics.next, hne, if_false]
  split <;> omega

theorem CellMetrics.byteLen_le (metrics : CellMetrics) (text : Bytes) :
    (metrics.next text).byteLen ≤ text.length := by
  simp only [CellMetrics.next]
  split
  · simp
  · simp only
    split <;> omega

/-- The end of the row that a grapheme at `pos` is too wide for; `whitespaceEnd` is the end of the last
whitespace before it. -/
def breakBefore (text : Bytes) (start pos byteLen : Nat) (whitespaceEnd : Option Nat) : Nat :=
  match whitespaceEnd.filter (fun stop => decide (start < stop)) with
  | some stop => stop
  | none => if start < pos then pos else min (pos + byteLen) text.length

def wrapFrom (text : Bytes) (start width : Nat) (metrics : CellMetrics) (pos cells : Nat)
    (whitespaceEnd : Option Nat) : Nat :=
  if _ : pos < text.length then
    let measured := metrics.next (text.drop pos)
    if width < cells + measured.cellWidth then
      breakBefore text start pos measured.byteLen whitespaceEnd
    else
      wrapFrom text start width metrics (pos + measured.byteLen) (cells + measured.cellWidth)
        (if isUnicodeWhitespace ((text.drop pos).take measured.byteLen) then
          some (pos + measured.byteLen)
        else whitespaceEnd)
  else text.length
termination_by text.length - pos
decreasing_by
  have := @CellMetrics.byteLen_pos metrics (text.drop pos) (by simp; omega)
  omega

/-- Where the row that begins at `start` ends. -/
def wrapEnd (text : Bytes) (start width : Nat) (metrics : CellMetrics) : Nat :=
  wrapFrom text start width metrics start 0 none

section Progress

variable {text : Bytes} {start : Nat} (width : Nat) (metrics : CellMetrics)

theorem lt_breakBefore {pos byteLen : Nat} (hstart : start < text.length) (hpos : start ≤ pos)
    (hlen : 0 < byteLen) (whitespaceEnd : Option Nat) :
    start < breakBefore text start pos byteLen whitespaceEnd := by
  rw [breakBefore]
  split
  · next stop hstop => simpa using (Option.filter_eq_some_iff.mp hstop).2
  · split <;> omega

theorem lt_wrapFrom {pos : Nat} (cells : Nat) (whitespaceEnd : Option Nat)
    (hstart : start < text.length) (hpos : start ≤ pos) :
    start < wrapFrom text start width metrics pos cells whitespaceEnd := by
  induction pos, cells, whitespaceEnd using wrapFrom.induct text width metrics with
  | case1 pos cells ws h measured hover =>
    rw [wrapFrom, dif_pos h, if_pos hover]
    exact lt_breakBefore hstart hpos (metrics.byteLen_pos (by simp; omega)) ws
  | case2 pos cells ws h measured hover ih =>
    rw [wrapFrom, dif_pos h, if_neg hover]
    exact ih (by omega)
  | case3 pos cells ws h =>
    rw [wrapFrom, dif_neg h]
    exact hstart

theorem lt_wrapEnd (h : start < text.length) : start < wrapEnd text start width metrics :=
  lt_wrapFrom width metrics 0 none h (Nat.le_refl start)

theorem wrapEnd_of_le (h : text.length ≤ start) : wrapEnd text start width metrics = text.length := by
  rw [wrapEnd, wrapFrom, dif_neg (by omega)]

end Progress

inductive Layout where
  | unified
  | sideBySide
  deriving DecidableEq, Repr

structure LineRef where
  address : Nat
  line : Diff.Line
  deriving DecidableEq, Repr

def LineRef.text (self : LineRef) : Bytes := self.line.text

inductive DisclosureKey where
  | resolvedThread (id : CommentId)
  | fold (line : LineRef)
  | outdatedFile (file : Nat)
  | outdatedReview
  | oppositeVersion (file : Nat)
  | reviewCard (owner : Cards.Owner)
  deriving DecidableEq, Repr

inductive SectionKind where
  | prComments
  | pending
  | outdated
  | unavailable
  deriving DecidableEq, Repr

/-- At least one side has a Line. -/
structure LinePair where
  left : Option LineRef
  right : Option LineRef
  shown : left ≠ none ∨ right ≠ none
  deriving DecidableEq

/-- A row of a card, and the bytes of the body that it shows. No body has as many bytes as there are
addresses. -/
structure CardRow where
  part : Cards.Part
  sourceRange : Range
  inMemory : sourceRange.start < 2 ^ usizeBits - 1
  deriving DecidableEq

structure Slice where
  address : Nat
  length : Nat
  deriving DecidableEq, Repr

/-- The row of a card that stands for a resolved Thread is that of a Comment. -/
inductive Row where
  | fileHeader (file : Nat)
  | hunkHeader (hunk : Nat)
  | statusPlaceholder (file : Nat) (old new : Bool)
  | line (line : LineRef)
  | linePair (pair : LinePair)
  | disclosure (key : DisclosureKey)
  | comment (id : CommentId) (card : CardRow) (resolvedThread : Bool)
  | draft (id : TempId) (card : CardRow)
  | snapshot (localId : TempId) (text : Option Slice) (line : Nat)
  | section (kind : SectionKind) (path : Bytes)
  deriving DecidableEq

inductive RowKind where
  | fileHeader
  | hunkHeader
  | statusPlaceholder
  | line
  | linePair
  | disclosure
  | comment
  | draft
  | snapshot
  | section
  deriving DecidableEq, Repr

def Row.kind : Row → RowKind
  | .fileHeader _ => .fileHeader
  | .hunkHeader _ => .hunkHeader
  | .statusPlaceholder _ _ _ => .statusPlaceholder
  | .line _ => .line
  | .linePair _ => .linePair
  | .disclosure _ => .disclosure
  | .comment _ _ _ => .comment
  | .draft _ _ => .draft
  | .snapshot _ _ _ => .snapshot
  | .section _ _ => .section

/-- The new side, or else the old one. -/
def LinePair.target (self : LinePair) : LineRef :=
  match self.right, self.left, self.shown with
  | some right, _, _ => right
  | none, some left, _ => left
  | none, none, shown => (by simp at shown : False).elim

inductive RowOwner where
  | file (file : Nat)
  | hunk (hunk : Nat)
  | statusPlaceholder (file : Nat) (old new : Bool)
  | line (line : LineRef)
  | disclosure (key : DisclosureKey)
  | comment (id : CommentId) (sourceOffset : Nat) (part : Option Cards.Part)
  | draft (id : TempId) (sourceOffset : Nat) (part : Option Cards.Part)
  | snapshot (id : TempId) (sourceOffset : Nat)
  | section (kind : SectionKind) (path : Bytes)
  deriving DecidableEq, Repr

structure YankCandidates where
  old : Option LineRef := none
  new : Option LineRef := none
  deriving DecidableEq, Repr

structure VisualHalf where
  line : LineRef
  sourceStart : Nat
  sourceEnd : Nat
  continuation : Bool
  deriving DecidableEq, Repr

structure Halves where
  left : Option VisualHalf := none
  right : Option VisualHalf := none
  deriving DecidableEq, Repr

structure VisualRow where
  bufferIndex : Nat := 0
  kind : RowKind := .line
  owner : RowOwner
  sourceStart : Nat := 0
  sourceEnd : Nat := 0
  continuation : Bool := false
  halves : Option Halves := none
  yankCandidates : YankCandidates := {}
  deriving DecidableEq, Repr

structure VisualRowOptions where
  layout : Layout
  width : Nat
  deriving DecidableEq, Repr

def sourceOffset (source : Slice) (part : Nat) : Nat :=
  if part < source.address ∨ source.address + source.length < part then 0
  else part - source.address

def anchorPart : Cards.Part → Option Cards.Part
  | .header => some .header
  | .disclosureFooter => some .disclosureFooter
  | .bottom => some .bottom
  | .body | .codeBody | .suggestionLabel | .suggestionBody => none

def ownerOf : Row → RowOwner
  | .fileHeader file => .file file
  | .hunkHeader hunk => .hunk hunk
  | .statusPlaceholder file old new => .statusPlaceholder file old new
  | .line line => .line line
  | .linePair pair => .line pair.target
  | .disclosure key => .disclosure key
  | .comment id card resolvedThread =>
    if resolvedThread then .disclosure (.resolvedThread id)
    else .comment id card.sourceRange.start (anchorPart card.part)
  | .draft id card => .draft id card.sourceRange.start (anchorPart card.part)
  | .snapshot localId text line =>
    .snapshot localId ((text.map (fun text => sourceOffset text line)).getD 0)
  | .section kind path => .section kind path

def rowSourceStart : Row → Nat
  | .comment _ card _ => card.sourceRange.start
  | .draft _ card => card.sourceRange.start
  | _ => 0

def rowSourceEnd : Row → Nat
  | .line line => line.text.length
  | .linePair pair => pair.target.text.length
  | .comment _ card _ => card.sourceRange.stop
  | .draft _ card => card.sourceRange.stop
  | _ => 0

def candidatesForLine (line : LineRef) : YankCandidates where
  old := if line.line.oldNo ≠ 0 then some line else none
  new := if line.line.newNo ≠ 0 then some line else none

def yankCandidates : Row → YankCandidates
  | .line line => candidatesForLine line
  | .linePair pair => ⟨pair.left, pair.right⟩
  | _ => {}

def makeVisualRow (row : Row) (bufferIndex : Nat) : VisualRow where
  bufferIndex := bufferIndex
  kind := row.kind
  owner := ownerOf row
  sourceStart := rowSourceStart row
  sourceEnd := rowSourceEnd row
  yankCandidates := yankCandidates row

def wrappedVisualRow (row : Row) (bufferIndex start stop : Nat) : VisualRow where
  bufferIndex := bufferIndex
  kind := .line
  owner := ownerOf row
  sourceStart := start
  sourceEnd := stop
  continuation := start != 0
  yankCandidates := yankCandidates row

/-- The rows of a Line from `start` on. -/
def wrappedVisualRows (row : Row) (text : Bytes) (bufferIndex bodyWidth : Nat)
    (metrics : CellMetrics) (start : Nat) : List VisualRow :=
  if _ : start < text.length then
    wrappedVisualRow row bufferIndex start (wrapEnd text start bodyWidth metrics) ::
      wrappedVisualRows row text bufferIndex bodyWidth metrics (wrapEnd text start bodyWidth metrics)
  else []
termination_by text.length - start
decreasing_by
  have := lt_wrapEnd bodyWidth metrics ‹_›
  omega

def makeVisualHalf (line : LineRef) (start width : Nat) (metrics : CellMetrics) : VisualHalf where
  line := line
  sourceStart := start
  sourceEnd := if line.text.length = 0 then 0 else wrapEnd line.text start width metrics
  continuation := start != 0

/-- A side of a pair that is not done: its Line and where its next row begins. -/
abbrev Side := Option (LineRef × Nat)

def Side.half (width : Nat) (metrics : CellMetrics) (self : Side) : Option VisualHalf :=
  self.map (fun side => makeVisualHalf side.1 side.2 width metrics)

/-- Past the half that was shown. -/
def Side.next (width : Nat) (metrics : CellMetrics) (self : Side) : Side :=
  (self.half width metrics).bind (fun half =>
    if half.line.text.length ≤ half.sourceEnd then none else some (half.line, half.sourceEnd))

def Side.measure : Side → Nat
  | none => 0
  | some (line, start) => line.text.length - start + 1

structure SideBodyWidths where
  left : Nat
  right : Nat
  deriving DecidableEq, Repr

/-- The row of a pair that shows the halves; `target` is the right one, or else the left one. -/
def pairVisualRow (bufferIndex : Nat) (left right : Option VisualHalf) (target : VisualHalf) :
    VisualRow where
  bufferIndex := bufferIndex
  kind := .linePair
  owner := .line target.line
  sourceStart := target.sourceStart
  sourceEnd := target.sourceEnd
  continuation := target.continuation
  halves := some ⟨left, right⟩
  yankCandidates := ⟨left.map VisualHalf.line, right.map VisualHalf.line⟩

variable (width : Nat) (metrics : CellMetrics)

theorem Side.next_some (line : LineRef) (start : Nat) : Side.next width metrics (some (line, start)) =
      if line.text.length ≤ (makeVisualHalf line start width metrics).sourceEnd then none
      else some (line, (makeVisualHalf line start width metrics).sourceEnd) := rfl

theorem makeVisualHalf_advances (line : LineRef) (start width : Nat) (metrics : CellMetrics) :
    line.text.length ≤ (makeVisualHalf line start width metrics).sourceEnd ∨
      start < line.text.length ∧ start < (makeVisualHalf line start width metrics).sourceEnd := by
  simp only [makeVisualHalf]
  by_cases hempty : line.text.length = 0
  · simp [hempty]
  rw [if_neg hempty]
  by_cases hstart : start < line.text.length
  · exact .inr ⟨hstart, lt_wrapEnd width metrics hstart⟩
  · exact .inl (wrapEnd_of_le width metrics (by omega)).ge

theorem Side.measure_next (side : LineRef × Nat) :
    Side.measure (Side.next width metrics (some side)) < Side.measure (some side) := by
  obtain ⟨line, start⟩ := side
  have hadvances := makeVisualHalf_advances line start width metrics
  rw [Side.next_some]
  split
  · simp [Side.measure]
  · simp only [Side.measure]
    omega

@[simp] theorem Side.next_none : Side.next width metrics none = none := rfl

@[simp] theorem Side.half_none : Side.half width metrics none = none := rfl

theorem Side.measure_next_le (side : Side) : (side.next width metrics).measure ≤ side.measure := by
  cases side with
  | none => simp
  | some side => exact Nat.le_of_lt (Side.measure_next width metrics side)

/-- Both sides are wrapped, each at its width, until both are done. -/
def wrappedLinePair (bufferIndex : Nat) (widths : SideBodyWidths) (metrics : CellMetrics)
    (left right : Side) : List VisualRow :=
  match _ : right.half widths.right metrics <|> left.half widths.left metrics with
  | none => []
  | some target =>
    pairVisualRow bufferIndex (left.half widths.left metrics) (right.half widths.right metrics)
        target ::
      wrappedLinePair bufferIndex widths metrics (left.next widths.left metrics)
        (right.next widths.right metrics)
termination_by left.measure + right.measure
decreasing_by
  have hleft := Side.measure_next_le widths.left metrics left
  have hright := Side.measure_next_le widths.right metrics right
  cases left with
  | some side =>
    have := Side.measure_next widths.left metrics side
    omega
  | none => cases right with
    | some side =>
      have := Side.measure_next widths.right metrics side
      omega
    | none => simp_all

def appendWrappedLinePair (bufferIndex : Nat) (pair : LinePair) (widths : SideBodyWidths)
    (metrics : CellMetrics) : List VisualRow :=
  wrappedLinePair bufferIndex widths metrics (pair.left.map (fun line => (line, 0)))
    (pair.right.map (fun line => (line, 0)))

def anchorCols : Nat := 1

def sideGutterCols : Nat := anchorCols + 5

def sideDividerCols : Nat := 1

def unifiedGutterCols : Nat := anchorCols + 10

def sideBodyWidths (width : Nat) : Option SideBodyWidths :=
  if width < sideDividerCols then none
  else
    let leftHalf := width / 2
    let rightHalf := width - leftHalf - sideDividerCols
    if leftHalf ≤ sideGutterCols ∨ rightHalf ≤ sideGutterCols then none
    else some ⟨leftHalf - sideGutterCols, rightHalf - sideGutterCols⟩

def unifiedVisualRows (bodyWidth : Nat) (metrics : CellMetrics) (row : Row) (bufferIndex : Nat) :
    List VisualRow :=
  match row with
  | .line line =>
    if line.text.length = 0 then [makeVisualRow row bufferIndex]
    else wrappedVisualRows row line.text bufferIndex bodyWidth metrics 0
  | _ => [makeVisualRow row bufferIndex]

def sideBySideVisualRows (widths : SideBodyWidths) (metrics : CellMetrics) (row : Row)
    (bufferIndex : Nat) : List VisualRow :=
  match row with
  | .linePair pair => appendWrappedLinePair bufferIndex pair widths metrics
  | _ => [makeVisualRow row bufferIndex]

def buildUnwrappedVisualRows (rows : List Row) : List VisualRow := rows.mapIdx (fun i row =>
  makeVisualRow row i)

def buildVisualRowsWithOptions (rows : List Row) (metrics : CellMetrics)
    (options : VisualRowOptions) : List VisualRow :=
  match options.layout with
  | .unified =>
    if options.width ≤ unifiedGutterCols then buildUnwrappedVisualRows rows
    else (rows.mapIdx (fun i row =>
      unifiedVisualRows (options.width - unifiedGutterCols) metrics row i)).flatten
  | .sideBySide => match sideBodyWidths options.width with
    | none => buildUnwrappedVisualRows rows
    | some widths => (rows.mapIdx (fun i row => sideBySideVisualRows widths metrics row i)).flatten

end Bbr.Tui.Frame
