import Bbr.Lib.Bisection
import Bbr.Tui.VisualRows

/-!
# Restoring the navigation

After a change of the rows, cursor and mark are put back to the owners of their old rows. An index finds
the rows of an owner without a walk over all rows. The height of the panes for a geometry is left open.
-/
namespace Bbr.Tui.Frame

open Bbr.Lib (bisect)
open Bbr.Search (Range)

def RowOwner.isLine : RowOwner → Bool
  | .line _ => true
  | _ => false

structure Span where
  start : Nat
  stop : Nat
  row : Nat
  prefixEnd : Nat := 0
  deriving DecidableEq, Repr

structure NavigationIndex where
  owners : RowOwner → Option Nat := fun _ => none
  spans : RowOwner → List Span := fun _ => []

namespace NavigationIndex

variable (self : NavigationIndex)

/-- The first row of an owner stays. -/
def addOwner (key : RowOwner) (index : Nat) : NavigationIndex :=
  match self.owners key with
  | some _ => self
  | none => { self with owners := Function.update self.owners key (some index) }

def add (key : RowOwner) (start stop row : Nat) : NavigationIndex :=
  { self with spans := Function.update self.spans key (self.spans key ++ [⟨start, stop, row, 0⟩]) }

def addHalf (half : VisualHalf) (index : Nat) : NavigationIndex :=
  self.add (.line half.line) half.sourceStart half.sourceEnd index

/-- The left half counts unless the right one shows the same Line. -/
def addHalves (halves : Halves) (index : Nat) : NavigationIndex :=
  let withRight := match halves.right with
    | some half => self.addHalf half index
    | none => self
  match halves.left with
  | some half =>
    if halves.right.map VisualHalf.line = some half.line then withRight
    else withRight.addHalf half index
  | none => withRight

def addSpans (row : VisualRow) (index : Nat) : NavigationIndex :=
  match row.halves with
  | some halves => self.addHalves halves index
  | none => match row.owner with
    | .line line => self.add (.line line) row.sourceStart row.sourceEnd index
    | .comment id sourceOffset part =>
      if part = some .header then self
      else self.add (.comment id 0 none) sourceOffset row.sourceEnd index
    | .draft id sourceOffset part =>
      if part = some .header then self
      else self.add (.draft id 0 none) sourceOffset row.sourceEnd index
    | _ => self

def addRow (entry : VisualRow × Nat) : NavigationIndex :=
  (self.addOwner entry.1.owner entry.2).addSpans entry.1 entry.2

def spanLess (a b : Span) : Bool :=
  decide (a.start < b.start) || (decide (a.start = b.start) && decide (a.row < b.row))

/-- Every span with the end of the furthest up to it. -/
def prefixEnds : Nat → List Span → List Span
  | _, [] => []
  | furthest, span :: spans =>
    { span with prefixEnd := max furthest span.stop } :: prefixEnds (max furthest span.stop) spans

def build (rows : List VisualRow) : NavigationIndex :=
  let result := rows.zipIdx.foldl addRow {}
  { result with
    spans := fun key =>
      prefixEnds 0 ((result.spans key).mergeSort (fun a b => !spanLess b a)) }

/-- The key of the spans that are searched for an owner. -/
def spanKey : RowOwner → Option RowOwner
  | .line line => some (.line line)
  | .comment id _ _ => some (.comment id 0 none)
  | .draft id _ _ => some (.draft id 0 none)
  | _ => none

def wantedOffset (wanted : VisualRow) : Nat :=
  match wanted.owner with
  | .comment _ sourceOffset _ => sourceOffset
  | .draft _ sourceOffset _ => sourceOffset
  | _ => wanted.sourceStart

/-- The first span that all spans up to it do not reach the offset before. -/
def containing (spans : List Span) (offset : Nat) : Option Span :=
  (spans[bisect (fun middle => spans[middle]?.any (fun span => decide (span.prefixEnd ≤ offset)))
    0 spans.length]?).filter (fun span => decide (span.start ≤ offset))

/-- The first span that holds the offset or starts behind it. -/
def following (spans : List Span) (offset : Nat) : Option Span :=
  spans[bisect (fun middle => spans[middle]?.any (fun span =>
    decide (span.prefixEnd ≤ offset) && decide (span.start < offset))) 0 spans.length]?

def findLine (spans : List Span) (offset : Nat) : Option Nat :=
  (containing spans offset <|> following spans offset <|> spans.getLast?).map Span.row

def find (wanted : VisualRow) : Option Nat :=
  if wanted.owner.isLine then
    (spanKey wanted.owner).bind (fun key => findLine (self.spans key) (wantedOffset wanted))
  else match self.owners wanted.owner with
    | some row => some row
    | none => (spanKey wanted.owner).bind (fun key =>
      (following (self.spans key) (wantedOffset wanted)).map Span.row)

end NavigationIndex

def lineRangeForOwner (row : VisualRow) (line : LineRef) : Option Range :=
  match row.halves with
  | some halves =>
    ((halves.right.filter (fun half => decide (half.line = line))) <|>
      (halves.left.filter (fun half => decide (half.line = line)))).map
      (fun half => ⟨half.sourceStart, half.sourceEnd⟩)
  | none =>
    if row.owner = .line line then some ⟨row.sourceStart, row.sourceEnd⟩ else none

/-- The first row that holds the offset, or else the first behind it, or else the last. -/
def scanLine (line : LineRef) (offset : Nat) :
    List (VisualRow × Nat) → Option Nat → Option Nat → Option Nat
  | [], following, final => following <|> final
  | (row, index) :: rows, following, final =>
    match lineRangeForOwner row line with
    | none => scanLine line offset rows following final
    | some range =>
      if range.start ≤ offset ∧ offset < range.stop then some index
      else
        scanLine line offset rows
          (if following = none ∧ offset ≤ range.start then some index else following) (some index)

/-- Where a row of the same card starts in the source; its header does not count. -/
def cardOffset (wanted owner : RowOwner) : Option Nat :=
  match wanted, owner with
  | .comment id _ _, .comment id' sourceOffset part =>
    if id' = id ∧ part ≠ some .header then some sourceOffset else none
  | .draft id _ _, .draft id' sourceOffset part =>
    if id' = id ∧ part ≠ some .header then some sourceOffset else none
  | _, _ => none

def RowOwner.offset : RowOwner → Nat
  | .comment _ sourceOffset _ => sourceOffset
  | .draft _ sourceOffset _ => sourceOffset
  | _ => 0

/-- The nearest row and where it starts, past another row. -/
def nearer (wanted : RowOwner) (nearest : Option Nat × Nat) (entry : VisualRow × Nat) :
    Option Nat × Nat :=
  match cardOffset wanted entry.1.owner with
  | none => nearest
  | some start =>
    if ((start ≤ wanted.offset ∧ wanted.offset < entry.1.sourceEnd) ∨ wanted.offset ≤ start) ∧
        start < nearest.2 then (some entry.2, start)
    else nearest

def findOwner (rows : List VisualRow) (wanted : RowOwner) : Option Nat :=
  match rows.findIdx? (fun row => decide (row.owner = wanted)) with
  | some index => some index
  | none => (rows.zipIdx.foldl (nearer wanted) (none, 2 ^ usizeBits - 1)).1

def findVisualRow (rows : List VisualRow) (wanted : VisualRow) : Option Nat :=
  match wanted.owner with
  | .line line => scanLine line wanted.sourceStart rows.zipIdx none none
  | owner => findOwner rows owner

structure Geometry where
  cols : Nat
  rows : Nat
  deriving DecidableEq, Repr

/-- What is restored from a published Frame. -/
structure Projection where
  visualRows : List VisualRow
  navigation : Nav

def initialNav (rows : List VisualRow) (height : Usize) : Option Nav :=
  if h : rows.length < 2 ^ usizeBits then some (Nav.init ⟨rows.length, h⟩ height) else none

/-- The mark, if it stands for Lines as the cursor does or no row has shifted. -/
def restoredMark (previous : Projection) (find : VisualRow → Option Nat) (cursorRow : VisualRow)
    (cursor : Nat) : Option Nat :=
  previous.navigation.mark.bind (fun mark =>
    previous.visualRows[mark]?.bind (fun markRow =>
      (find markRow).bind (fun restored =>
        if (markRow.owner.isLine && cursorRow.owner.isLine) = true ∨
            (min mark previous.navigation.cursor, max mark previous.navigation.cursor) =
              (min restored cursor, max restored cursor) then some restored
        else none)))

def restoreNavigationWith (previous : Projection) (rows : List VisualRow) (height : Usize)
    (find : VisualRow → Option Nat) : Option Nav :=
  (initialNav rows height).bind (fun initial =>
    let counted := { initial with count := previous.navigation.count }
    match previous.visualRows[previous.navigation.cursor]? with
    | none => some counted
    | some cursorRow => match find cursorRow with
      | none => some counted
      | some cursor =>
        let oldOffset := previous.navigation.cursor - previous.navigation.scroll
        (counted.jumpTo cursor).bind (fun jumped =>
          (Nav.setViewport { jumped with
            count := previous.navigation.count
            scroll := cursor - oldOffset } height).map (fun restored => { restored with
              mark := restoredMark previous find cursorRow cursor <|> restored.mark })))

section Geometry

variable (diffContentHeight : Geometry → Usize)

def restoreNavigationIndexed (previous : Projection) (rows : List VisualRow) (geometry : Geometry)
    (index : NavigationIndex) : Option Nav :=
  restoreNavigationWith previous rows (diffContentHeight geometry) index.find

def restoreNavigation (previous : Projection) (rows : List VisualRow) (geometry : Geometry) :
    Option Nav :=
  restoreNavigationWith previous rows (diffContentHeight geometry) (findVisualRow rows)

end Geometry

end Bbr.Tui.Frame
