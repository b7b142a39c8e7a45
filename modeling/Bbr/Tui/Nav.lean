import Bbr.Lib.Words

/-!
# Navigation

The cursor, the top visible row and the mark of a selection, and the motions that move them. `none`
stands for an operation that leaves the range of its type.
-/
namespace Bbr.Tui

open Lib.Word

def usizeBits : Nat := 64

/-- What a `usize` can be. -/
abbrev Usize := {n : Nat // n < 2 ^ usizeBits}

/-- What an `isize` can be. -/
abbrev Isize := {d : Int // -2 ^ (usizeBits - 1) ≤ d ∧ d < 2 ^ (usizeBits - 1)}

structure Nav where
  cursor : Nat := 0
  scroll : Nat := 0
  /-- The pending Count; 0 stands for none. -/
  count : Nat := 0
  mark : Option Nat := none
  rowCount : Nat
  viewport : Nat
  deriving DecidableEq, Repr

namespace Nav

def init (rowCount viewport : Usize) : Nav where
  rowCount := rowCount
  viewport := max viewport 1

variable (self : Nav)

def lastRow : Option Nat := if self.rowCount = 0 then some 0 else sub? self.rowCount 1

def maxScroll : Option Nat :=
  if self.viewport < self.rowCount then sub? self.rowCount self.viewport else some 0

/-- The scroll nearest to the old one that shows the cursor. -/
def shownScroll : Option Nat :=
  if self.cursor < self.scroll then some self.cursor
  else if satAdd usizeBits self.scroll self.viewport ≤ self.cursor then
    (add? usizeBits self.cursor 1).bind (fun next => sub? next self.viewport)
  else some self.scroll

def clampScroll : Option Nav :=
  (shownScroll self).bind (fun scroll => (maxScroll self).map (fun most =>
    { self with scroll := if most < scroll then most else scroll }))

def moveTo (target : Nat) : Option Nav :=
  (lastRow self).bind (fun last => clampScroll { self with cursor := min target last })

def pushDigit (d : Nat) : Option Nav :=
  some { self with count := satAdd usizeBits (satMul usizeBits self.count 10) d }

def taken : Nat := if self.count = 0 then 1 else self.count

/-- The pending Count is used up. -/
def uncounted : Nav := { self with count := 0 }

def setViewport (viewport : Nat) : Option Nav :=
  clampScroll { self with viewport := max viewport 1 }

def cursorWithin (rowCount : Nat) : Option Nat :=
  if rowCount ≤ self.cursor then (if rowCount = 0 then some 0 else sub? rowCount 1)
  else some self.cursor

def setRowCount (rowCount : Nat) : Option Nav :=
  (cursorWithin self rowCount).bind (fun cursor =>
    clampScroll { self with rowCount := rowCount, cursor := cursor, mark := none })

def toggleMark : Option Nav :=
  some { self with mark := if self.mark = none then some self.cursor else none }

def ensureMark : Option Nav :=
  some (if self.mark = none then { self with mark := some self.cursor } else self)

def clearMark : Option Nav := some { self with mark := none }

def down : Option Nav :=
  moveTo (uncounted self) (satAdd usizeBits self.cursor (taken self))

/-- The row some rows above the cursor, or the first. -/
def rowAbove (rows least : Nat) : Option Nat :=
  if self.cursor ≤ rows then some 0 else sub? self.cursor (max rows least)

def up : Option Nav := (rowAbove self (taken self) 0).bind (moveTo (uncounted self))

def halfStep : Nat := satMul usizeBits (self.viewport / 2) (taken self)

def halfPageDown : Option Nav :=
  moveTo (uncounted self) (satAdd usizeBits self.cursor (max (halfStep self) 1))

def halfPageUp : Option Nav := (rowAbove self (halfStep self) 1).bind (moveTo (uncounted self))

def pageStep : Nat := satMul usizeBits self.viewport (taken self)

def pageDown : Option Nav :=
  moveTo (uncounted self) (satAdd usizeBits self.cursor (pageStep self))

def pageUp : Option Nav := (rowAbove self (pageStep self) 0).bind (moveTo (uncounted self))

def centeredScroll : Option Nat :=
  if self.viewport / 2 < self.cursor then sub? self.cursor (self.viewport / 2) else some 0

def center : Option Nav :=
  (centeredScroll self).bind (fun scroll => clampScroll { uncounted self with scroll := scroll })

def scrollCursorTop : Option Nav := clampScroll { uncounted self with scroll := self.cursor }

def bottomScroll : Option Nat :=
  (add? usizeBits self.cursor 1).bind (fun next =>
    if self.viewport < next then sub? next self.viewport else some 0)

def scrollCursorBottom : Option Nav :=
  (bottomScroll self).bind (fun scroll => clampScroll { uncounted self with scroll := scroll })

def scrolled (delta : Int) : Option Nat :=
  (maxScroll self).bind (fun most =>
    if delta < 0 then
      ((neg? usizeBits delta).bind (natCast? usizeBits)).map (fun amount => self.scroll - amount)
    else
      (natCast? usizeBits delta).map (fun amount => min (satAdd usizeBits self.scroll amount) most))

/-- The cursor, or the edge that would pass it. -/
def carried (scroll : Nat) : Nat :=
  let cursor := if self.cursor < scroll then scroll else self.cursor
  if satAdd usizeBits scroll self.viewport ≤ cursor then satAdd usizeBits scroll self.viewport - 1
  else cursor

/-- The viewport moves, and an edge that would pass the cursor takes it along. -/
def scrollRows (delta : Int) : Option Nav :=
  (scrolled self delta).map (fun scroll =>
    { uncounted self with scroll := scroll, cursor := carried self scroll })

def cursorToViewTop : Option Nav := moveTo (uncounted self) self.scroll

def cursorToViewMiddle : Option Nav :=
  (add? usizeBits self.scroll (self.viewport / 2)).bind (moveTo (uncounted self))

def cursorToViewBottom : Option Nav :=
  moveTo (uncounted self) (satAdd usizeBits self.scroll self.viewport - 1)

def jumpTo (target : Nat) : Option Nav := moveTo (uncounted self) target

/-- The row that the Count names. -/
def countedRow (otherwise : Option Nat) : Option Nat :=
  if self.count = 0 then otherwise else sub? self.count 1

def toTop : Option Nav := (countedRow self (some 0)).bind (moveTo (uncounted self))

def toBottom : Option Nav := (countedRow self (lastRow self)).bind (moveTo (uncounted self))

inductive Op where
  | pushDigit (d : Fin 10)
  | setViewport (viewport : Usize)
  | setRowCount (rowCount : Usize)
  | toggleMark
  | ensureMark
  | clearMark
  | down
  | up
  | halfPageDown
  | halfPageUp
  | pageDown
  | pageUp
  | center
  | scrollCursorTop
  | scrollCursorBottom
  | scrollRows (delta : Isize)
  | cursorToViewTop
  | cursorToViewMiddle
  | cursorToViewBottom
  | jumpTo (target : Usize)
  | toTop
  | toBottom
  deriving DecidableEq

def apply (self : Nav) : Op → Option Nav
  | .pushDigit d => pushDigit self d
  | .setViewport viewport => setViewport self viewport
  | .setRowCount rowCount => setRowCount self rowCount
  | .toggleMark => toggleMark self
  | .ensureMark => ensureMark self
  | .clearMark => clearMark self
  | .down => down self
  | .up => up self
  | .halfPageDown => halfPageDown self
  | .halfPageUp => halfPageUp self
  | .pageDown => pageDown self
  | .pageUp => pageUp self
  | .center => center self
  | .scrollCursorTop => scrollCursorTop self
  | .scrollCursorBottom => scrollCursorBottom self
  | .scrollRows delta => scrollRows self delta
  | .cursorToViewTop => cursorToViewTop self
  | .cursorToViewMiddle => cursorToViewMiddle self
  | .cursorToViewBottom => cursorToViewBottom self
  | .jumpTo target => jumpTo self target
  | .toTop => toTop self
  | .toBottom => toBottom self

def run (self : Nav) (ops : List Op) : Option Nav := ops.foldlM apply self

end Nav

end Bbr.Tui
