import Bbr.Lib.Cursors
import Bbr.Tui.HunkRows

/-!
# Highlight spans of displayed Lines

Each version of a File has a cursor over its spans that only moves forward. A row asks the cursors for
the spans of its Lines when it is appended: unified rows and the rows of a Hunk by the kind of the Line,
rows of the whole-file view outside the Hunks by the side they show.
-/
namespace Bbr.Tui

open Bbr.Diff
open Bbr.Lib

structure Span where
  line : Nat
  start : Nat
  stop : Nat
  capture : Nat
  deriving DecidableEq, Repr

/-- The spans of either version; a version without a result has none. -/
structure FileHighlights where
  old : Option (List Span) := none
  new : Option (List Span) := none
  deriving DecidableEq, Repr

/-- The spans that are left for the cursor. -/
structure SpanCursor where
  rest : List Span
  deriving DecidableEq, Repr

def SpanCursor.lineSpans (cursor : SpanCursor) (number : Nat) : List Span × SpanCursor :=
  if number = 0 then ([], cursor)
  else ((seek Span.line number cursor.rest).1, ⟨(seek Span.line number cursor.rest).2⟩)

structure SpanCursors where
  old : Option SpanCursor := none
  new : Option SpanCursor := none
  deriving DecidableEq, Repr

namespace SpanCursors

def ofHighlights (highlights : FileHighlights) : SpanCursors where
  old := highlights.old.map SpanCursor.mk
  new := highlights.new.map SpanCursor.mk

def lineSpansForSide (cursors : SpanCursors) (line : Line) (side : SelectedVersion) :
    List Span × SpanCursors :=
  match side with
  | .old =>
    match cursors.old with
    | none => ([], cursors)
    | some cursor =>
      ((cursor.lineSpans line.oldNo).1, { cursors with old := some (cursor.lineSpans line.oldNo).2 })
  | .new =>
    match cursors.new with
    | none => ([], cursors)
    | some cursor =>
      ((cursor.lineSpans line.newNo).1, { cursors with new := some (cursor.lineSpans line.newNo).2 })

def lineSpans (cursors : SpanCursors) (line : Line) : List Span × SpanCursors :=
  match line.kind with
  | .removed => cursors.lineSpansForSide line .old
  | .added => cursors.lineSpansForSide line .new
  | .context =>
    if cursors.new.isSome then cursors.lineSpansForSide line .new
    else cursors.lineSpansForSide line .old

end SpanCursors

/-- A displayed Line with the spans it is decorated with. -/
structure LineRow where
  line : Line
  spans : List Span
  displayVersion : Option SelectedVersion := none
  deriving DecidableEq, Repr

inductive SpannedRow where
  | disclosure (id count : Nat) (expanded : Bool)
  | line (row : LineRow)
  | linePair (left right : Option LineRow)
  deriving DecidableEq, Repr

def SpannedRow.lineRows : SpannedRow → List LineRow
  | .disclosure _ _ _ => []
  | .line row => [row]
  | .linePair left right => left.toList ++ right.toList

def decorateLine (cursors : SpanCursors) (line : Line) : LineRow × SpanCursors :=
  (⟨line, (cursors.lineSpans line).1, none⟩, (cursors.lineSpans line).2)

/-- A context Line is decorated once, for both columns. -/
def decorateRow (cursors : SpanCursors) : HunkRow → SpannedRow × SpanCursors
  | .disclosure id count expanded => (.disclosure id count expanded, cursors)
  | .line line => (.line (decorateLine cursors line).1, (decorateLine cursors line).2)
  | .linePair ⟨none, none⟩ => (.linePair none none, cursors)
  | .linePair ⟨some left, none⟩ =>
    (.linePair (some (decorateLine cursors left).1) none, (decorateLine cursors left).2)
  | .linePair ⟨none, some right⟩ =>
    (.linePair none (some (decorateLine cursors right).1), (decorateLine cursors right).2)
  | .linePair ⟨some left, some right⟩ =>
    let first := decorateLine cursors left
    if left.kind = .context then (.linePair (some first.1) (some first.1), first.2)
    else
      let second := decorateLine first.2 right
      (.linePair (some first.1) (some second.1), second.2)

def decorateRows (cursors : SpanCursors) : List HunkRow → List SpannedRow × SpanCursors
  | [] => ([], cursors)
  | row :: rows =>
    let first := decorateRow cursors row
    let later := decorateRows first.2 rows
    (first.1 :: later.1, later.2)

def emitUnifiedWholeFile (cursors : SpanCursors) (side : SelectedVersion) :
    List Line → List SpannedRow × SpanCursors
  | [] => ([], cursors)
  | line :: lines =>
    let projected := decorateLine cursors line
    let later := emitUnifiedWholeFile projected.2 side lines
    (.line { projected.1 with displayVersion := some side } :: later.1, later.2)

def decorateSide (cursors : SpanCursors) (side : SelectedVersion) :
    Option Line → Option LineRow × SpanCursors
  | none => (none, cursors)
  | some line =>
    (some ⟨line, (cursors.lineSpansForSide line side).1, some side⟩,
      (cursors.lineSpansForSide line side).2)

def emitWholeFilePair (cursors : SpanCursors) (pair : LinePair) : SpannedRow × SpanCursors :=
  let left := decorateSide cursors .old pair.left
  let right := decorateSide left.2 .new pair.right
  (.linePair left.1 right.1, right.2)

def emitWholeFilePairs (cursors : SpanCursors) : List LinePair → List SpannedRow × SpanCursors
  | [] => ([], cursors)
  | pair :: pairs =>
    let first := emitWholeFilePair cursors pair
    let later := emitWholeFilePairs first.2 pairs
    (first.1 :: later.1, later.2)

section Weave

variable {F : Type} (costs : MatchCosts F)

/-- A Hunk of the whole-file view: its rows go through `emitWholeFilePair` when only one version is
present. -/
def emitSpannedHunk (cursors : SpanCursors) (status : FileStatus) (hunk : Hunk) :
    List SpannedRow × SpanCursors :=
  match status with
  | .added | .removed => emitWholeFilePairs cursors (emitHunk costs status hunk)
  | .modified | .renamed =>
    decorateRows cursors ((emitHunk costs status hunk).map HunkRow.linePair)

def emitSpannedHunks (status : FileStatus) (cursors : SpanCursors) (oldLines newLines : List Line) :
    List Hunk → List SpannedRow × SpanCursors
  | [] => emitWholeFilePairs cursors (emitWholeFileGap oldLines newLines)
  | hunk :: hunks =>
    let gap := emitWholeFilePairs cursors (emitWholeFileGap (gapEnd oldLines) (gapEnd newLines))
    let shown := emitSpannedHunk costs gap.2 status hunk
    let later := emitSpannedHunks status shown.2 (passHunk oldLines) (passHunk newLines) hunks
    (gap.1 ++ shown.1 ++ later.1, later.2)

/-- The folds that are expanded are known by the place of their Hunk and of their first Line. -/
def emitChanges (sideBySide : Bool) (opts : BuildOptions) (expanded : Nat → Nat → Bool)
    (fuel : Nat) : Nat → List Hunk → Option (List HunkRow)
  | _, [] => some []
  | place, hunk :: hunks =>
    match computeFolds opts hunk.lines with
    | none => none
    | some folds =>
      match if sideBySide then emitFoldedSideBySideHunk costs folds (expanded place) fuel hunk.lines
        else emitUnifiedHunk folds (expanded place) fuel hunk.lines with
      | none => none
      | some rows => (emitChanges sideBySide opts expanded fuel (place + 1) hunks).map
          (fun later => rows ++ later)

end Weave

/-- What is shown of a File: the fetched Hunks in either layout, one version as a whole, or both
side by side. -/
inductive View where
  | changes (sideBySide : Bool) (opts : BuildOptions) (expanded : Nat → Nat → Bool) (fuel : Nat)
  | wholeFile (side : SelectedVersion) (blob : Option Bytes)
  | wholeFiles (old new : Option Bytes)

/-- The displayed rows; `none` as for the rows of a Hunk. -/
def spannedRows {F : Type} (costs : MatchCosts F) (file : File) (highlights : FileHighlights) :
    View → Option (List SpannedRow)
  | .changes sideBySide opts expanded fuel =>
    (emitChanges costs sideBySide opts expanded fuel 0 file.hunks).map
      (fun rows => (decorateRows (.ofHighlights highlights) rows).1)
  | .wholeFile side blob =>
    some (emitUnifiedWholeFile (.ofHighlights highlights) side
      (((wholeFileUsableContent blob).map (fun blob => spliceSide file blob side)).getD [])).1
  | .wholeFiles old new =>
    some (emitSpannedHunks costs file.status (.ofHighlights highlights)
      (((wholeFileUsableContent old).map (fun blob => spliceSide file blob .old)).getD [])
      (((wholeFileUsableContent new).map (fun blob => spliceSide file blob .new)).getD [])
      file.hunks).1

def FileHighlights.side (highlights : FileHighlights) : SelectedVersion → Option (List Span)
  | .old => highlights.old
  | .new => highlights.new

/-- The spans of a version on a Line. -/
def spansAt (highlights : FileHighlights) (side : SelectedVersion) (line : Line) : List Span :=
  match highlights.side side with
  | none => []
  | some spans =>
    if sideNo side line = 0 then []
    else spans.filter (fun span => decide (span.line = sideNo side line))

/-- The version that a Line of a Hunk takes its spans from. -/
def kindSide (highlights : FileHighlights) (line : Line) : SelectedVersion :=
  match line.kind with
  | .removed => .old
  | .added => .new
  | .context => if highlights.new.isSome then .new else .old

/-- The version that a displayed Line takes its spans from: one that a Hunk does not have takes them
from the version it is shown as. -/
def spanSide (highlights : FileHighlights) (line : Line) : Option SelectedVersion → SelectedVersion
  | none => kindSide highlights line
  | some version =>
    if line.kind = .context ∧ line.inHunk = false then version else kindSide highlights line

def SpansFollow (highlights : FileHighlights) (rows : List SpannedRow) : Prop :=
  ∀ row ∈ rows, ∀ shown ∈ row.lineRows,
    shown.spans = spansAt highlights (spanSide highlights shown.line shown.displayVersion) shown.line

end Bbr.Tui
