import Bbr.Diff.Parser
import Bbr.Tui.WholeFile

/-!
# The rows of a Hunk

Context that is far from a change is hidden behind a disclosure; the other Lines get rows of their own,
in the unified layout one for each Line, side by side as pairs. A Line is known by its place in the Hunk.
`none` stands for a trap or for a walk that has not come to its end.
-/
namespace Bbr.Tui

open Bbr.Diff

structure BuildOptions where
  foldContext : Bool := false
  contextMargin : Nat := 3
  minFold : Nat := 2
  deriving DecidableEq, Repr

/-- Hidden context Lines; the place of the first is their identity. -/
structure Fold where
  id : Nat
  lines : List Line
  deriving DecidableEq, Repr

/-- What a context run that starts at `s` keeps at its top. -/
def keepTop (opts : BuildOptions) (s : Nat) : Nat := if s > 0 then opts.contextMargin else 0

/-- What a context run that ends at `e` keeps at its bottom. -/
def keepBottom (opts : BuildOptions) (len e : Nat) : Nat := if e < len then opts.contextMargin else 0

/-- The loop from the place `i` on, with the Lines left there. The sum of the margins may leave the
range of its type, and the first hidden Line must be a Line. -/
def foldsFrom (opts : BuildOptions) (len : Nat) : Nat → Nat → List Line → Option (List Fold)
  | 0, _, _ => some []
  | _ + 1, _, [] => some []
  | fuel + 1, i, line :: lines =>
    if line.kind ≠ .context then foldsFrom opts len fuel (i + 1) lines
    else
      let run := (line :: lines).takeWhile (isKind .context)
      let e := i + run.length
      let top := keepTop opts i
      let bottom := keepBottom opts len e
      let following := foldsFrom opts len fuel e ((line :: lines).drop run.length)
      if usizeLimit ≤ top + bottom then none
      else if run.length < top + bottom then following
      else if run.length - top - bottom < opts.minFold then following
      else if len ≤ i + top then none
      else following.map
        (fun folds => ⟨i + top, (run.drop top).take (run.length - top - bottom)⟩ :: folds)

def computeFolds (opts : BuildOptions) (lines : List Line) : Option (List Fold) :=
  if opts.foldContext = false then some [] else foldsFrom opts lines.length lines.length 0 lines

def foldStartingAt (folds : List Fold) (place : Nat) : Option Fold :=
  folds.find? (fun fold => fold.id == place)

inductive HunkRow where
  /-- The identity of a fold and how many Lines it hides. -/
  | disclosure (id count : Nat) (expanded : Bool)
  | line (line : Line)
  | linePair (pair : LinePair)
  deriving DecidableEq, Repr

/-- The walk of either layout: `part` has the rows at a Line and how many Lines they show. -/
def emitHunkRows (part : Line → List Line → List HunkRow × Nat) (folds : List Fold)
    (expanded : Nat → Bool) : Nat → Nat → List Line → Option (List HunkRow)
  | 0, _, _ => none
  | _ + 1, _, [] => some []
  | fuel + 1, i, line :: lines =>
    let shown := (emitHunkRows part folds expanded fuel (i + (part line lines).2)
      ((line :: lines).drop (part line lines).2)).map (fun rows => (part line lines).1 ++ rows)
    match foldStartingAt folds i with
    | none => shown
    | some fold =>
      if expanded fold.id then shown.map (fun rows => .disclosure fold.id fold.lines.length true :: rows)
      else (emitHunkRows part folds expanded fuel (i + fold.lines.length)
        ((line :: lines).drop fold.lines.length)).map
          (fun rows => .disclosure fold.id fold.lines.length false :: rows)

def unifiedPart (line : Line) (_ : List Line) : List HunkRow × Nat := ([.line line], 1)

def emitUnifiedHunk (folds : List Fold) (expanded : Nat → Bool) (fuel : Nat) (lines : List Line) :
    Option (List HunkRow) :=
  emitHunkRows unifiedPart folds expanded fuel 0 lines

section Weave

variable {F : Type} (costs : MatchCosts F)

/-- A context Line, an added run, or a removed run with the added run behind it. -/
def sideBySidePart (line : Line) (lines : List Line) : List HunkRow × Nat :=
  match line.kind with
  | .context => ([.linePair (emitContext line)], 1)
  | .added =>
    let run := (line :: lines).takeWhile (isKind .added)
    (run.map (fun added => .linePair ⟨none, some added⟩), run.length)
  | .removed =>
    let removed := (line :: lines).takeWhile (isKind .removed)
    let added := ((line :: lines).dropWhile (isKind .removed)).takeWhile (isKind .added)
    ((emitSideBySideChangeBlock costs removed added).map HunkRow.linePair,
      removed.length + added.length)

def emitFoldedSideBySideHunk (folds : List Fold) (expanded : Nat → Bool) (fuel : Nat)
    (lines : List Line) : Option (List HunkRow) :=
  emitHunkRows (sideBySidePart costs) folds expanded fuel 0 lines

end Weave

/-- A removed Line stands on the old side and an added one on the new side; a context Line stands on
each side its numbers name. -/
def presentOn (side : SelectedVersion) (line : Line) : Bool :=
  match line.kind with
  | .removed => side = .old
  | .added => side = .new
  | .context => sideNo side line != 0

/-- The Lines a row shows or hides, among those that `keep` asks for. -/
def readRow (lines : List Line) (keep : Line → Bool) (cell : HunkRow → List Line) :
    HunkRow → List Line
  | .disclosure _ _ true => []
  | .disclosure id count false => ((lines.drop id).take count).filter keep
  | row => cell row

def lineCell : HunkRow → List Line
  | .line line => [line]
  | _ => []

def pairCell (side : SelectedVersion) : HunkRow → List Line
  | .linePair pair =>
    match side with
    | .old => pair.left.toList
    | .new => pair.right.toList
  | _ => []

/-- The Lines of unified rows, each collapsed fold replaced by what it hides. -/
def unifiedLines (lines : List Line) (rows : List HunkRow) : List Line :=
  rows.flatMap (readRow lines (fun _ => true) lineCell)

/-- A column of side-by-side rows, each collapsed fold replaced by what it hides of the side. -/
def column (lines : List Line) (side : SelectedVersion) (rows : List HunkRow) : List Line :=
  rows.flatMap (readRow lines (presentOn side) (pairCell side))

end Bbr.Tui
