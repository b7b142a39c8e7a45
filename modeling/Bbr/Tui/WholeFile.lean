import Bbr.Diff.Model
import Mathlib.Data.List.Basic

/-!
# The whole-file view

Hunks spliced into the unchanged Lines of a side's content, and the side-by-side rows over both
sides. Rows are the Lines they show: spans, emphasis and the cards woven between them are left out.
Line numbers are unbounded: contents have fewer than `2 ^ 32` Lines.
-/
namespace Bbr.Tui

open Bbr.Diff

inductive SelectedVersion where
  | old
  | new
  deriving DecidableEq, Repr

def sideNo : SelectedVersion → Line → Nat
  | .old, line => line.oldNo
  | .new, line => line.newNo

def sideStart : SelectedVersion → Hunk → Nat
  | .old, hunk => hunk.oldStart
  | .new, hunk => hunk.newStart

def sideCount : SelectedVersion → Hunk → Nat
  | .old, hunk => hunk.oldCount
  | .new, hunk => hunk.newCount

def sideLines (side : SelectedVersion) (lines : List Line) : List Line :=
  lines.filter (fun line => sideNo side line != 0)

def splitBlobLines (blob : Bytes) : List Bytes :=
  if blob.isEmpty then []
  else if blob.getLast? == some 10 then blob.dropLast.splitOn 10
  else blob.splitOn 10

def blobLine (lines : List Bytes) (n : Nat) : Option Bytes :=
  if n = 0 ∨ lines.length < n then none else lines[n - 1]?

def gapLine (side : SelectedVersion) (cursor : Nat) (text : Bytes) : Line where
  oldNo := if side = .old then cursor else 0
  newNo := if side = .new then cursor else 0
  kind := .context
  text := text
  inHunk := false

/-- At most `steps` Lines from the cursor on, up to the end of the content. -/
def fill (side : SelectedVersion) (lines : List Bytes) : Nat → Nat → List Line
  | 0, _ => []
  | steps + 1, cursor =>
    match blobLine lines cursor with
    | none => []
    | some text => gapLine side cursor text :: fill side lines steps (cursor + 1)

def spliceFrom (side : SelectedVersion) (lines : List Bytes) (cursor : Nat) : List Hunk → List Line
  | [] => fill side lines (lines.length + 1 - cursor) cursor
  | hunk :: hunks =>
    fill side lines (sideStart side hunk - cursor) cursor ++ sideLines side hunk.lines ++
      spliceFrom side lines (sideStart side hunk + sideCount side hunk) hunks

def spliceSide (file : File) (blob : Bytes) (side : SelectedVersion) : List Line :=
  spliceFrom side (splitBlobLines blob) 1 file.hunks

structure LinePair where
  left : Option Line := none
  right : Option Line := none
  deriving DecidableEq, Repr

/-- The doubles of the match costs, and the lexical similarity of two texts. -/
structure MatchCosts (F : Type) where
  matchingSimilarity : Bytes → Bytes → F
  zero : F
  /-- The cost, `1.0` more. -/
  plusOne : F → F
  minus : F → F → F
  atLeastThreshold : F → Bool
  /-- Within `1e-12` of zero. -/
  tiny : F → Bool
  /-- Below `-1e-12`. -/
  negative : F → Bool

inductive MatchOperation where
  | pair
  | left
  | right
  | done
  deriving DecidableEq, Repr

structure MatchCell (F : Type) where
  cost : F
  exactPairs : Nat
  firstOld : Nat := 18446744073709551615
  firstNew : Nat := 18446744073709551615
  operation : MatchOperation

inductive ByteClass where
  | word
  | space
  | other
  deriving DecidableEq, Repr

def classOf (b : UInt8) : ByteClass :=
  if (48 ≤ b ∧ b ≤ 57) ∨ (65 ≤ b ∧ b ≤ 90) ∨ (97 ≤ b ∧ b ≤ 122) ∨ b = 95 then .word
  else if b = 32 ∨ b = 9 then .space
  else .other

/-- A run of word or space bytes is one part, every other byte one of its own. -/
def lexicalPartCount : Option ByteClass → Bytes → Nat
  | _, [] => 0
  | run, b :: text =>
    if classOf b ≠ .other ∧ run = some (classOf b) then lexicalPartCount run text
    else lexicalPartCount (some (classOf b)) text + 1

def lexicalParts : List Line → Nat
  | [] => 0
  | line :: lines => lexicalPartCount none line.text + lexicalParts lines

def sideBySideWorkLimit : Nat := 131625

section Weave

variable {F : Type} (costs : MatchCosts F)

def chooseMatch (current candidate : MatchCell F) : MatchCell F :=
  let costDelta := costs.minus candidate.cost current.cost
  let equalCost := costs.tiny costDelta
  let earlierPair := decide (candidate.firstOld < current.firstOld ∨
    (candidate.firstOld = current.firstOld ∧ candidate.firstNew < current.firstNew))
  if costs.negative costDelta ||
      (equalCost && decide (candidate.exactPairs > current.exactPairs)) ||
      (equalCost && decide (candidate.exactPairs = current.exactPairs) && earlierPair) then
    candidate
  else current

def alone (operation : MatchOperation) (next : MatchCell F) : MatchCell F :=
  { next with cost := costs.plusOne next.cost, operation := operation }

/-- The last row of the table, past the removed Lines. -/
def lastCells : List Line → MatchCell F
  | [] => { cost := costs.zero, exactPairs := 0, operation := .done }
  | _ :: added => alone costs .right (lastCells added)

/-- A row of the table, from the row below it. -/
def rowCells (below : List Line → Nat → MatchCell F) (old : Line) (oldCursor : Nat) :
    List Line → Nat → MatchCell F
  | [], newCursor => alone costs .left (below [] newCursor)
  | new :: added, newCursor =>
    let score := costs.matchingSimilarity old.text new.text
    let next := below added (newCursor + 1)
    let left := alone costs .left (below (new :: added) newCursor)
    let first := if costs.atLeastThreshold score then
        chooseMatch costs
          { cost := costs.minus (costs.plusOne next.cost) score
            exactPairs := next.exactPairs + if old.text = new.text then 1 else 0
            firstOld := oldCursor
            firstNew := newCursor
            operation := .pair }
          left
      else left
    chooseMatch costs first (alone costs .right (rowCells below old oldCursor added (newCursor + 1)))

/-- The cell for the removed and the added Lines that are left. -/
def cells : List Line → Nat → List Line → Nat → MatchCell F
  | [], _ => fun added _ => lastCells costs added
  | old :: removed, oldCursor =>
    rowCells costs (fun added newCursor => cells removed (oldCursor + 1) added newCursor) old oldCursor

/-- Index by index, then what one side has more. -/
def pairUp : List Line → List Line → List LinePair
  | [], new => new.map (fun line => ⟨none, some line⟩)
  | old, [] => old.map (fun line => ⟨some line, none⟩)
  | left :: old, right :: new => ⟨some left, some right⟩ :: pairUp old new

def emitIndexedChangeBlock (removed added : List Line) : List LinePair := pairUp removed added

def emitMatched : Nat → List Line → Nat → List Line → Nat → List LinePair
  | 0, _, _, _, _ => []
  | fuel + 1, removed, oldCursor, added, newCursor =>
    match (cells costs removed oldCursor added newCursor).operation, removed, added with
    | .pair, old :: removed, new :: added =>
      ⟨some old, some new⟩ :: emitMatched fuel removed (oldCursor + 1) added (newCursor + 1)
    | .right, removed, new :: added =>
      ⟨none, some new⟩ :: emitMatched fuel removed oldCursor added (newCursor + 1)
    | .left, old :: removed, added =>
      ⟨some old, none⟩ :: emitMatched fuel removed (oldCursor + 1) added newCursor
    | _, _, _ => []

def emitSideBySideChangeBlock (removed added : List Line) : List LinePair :=
  let work := removed.length * added.length + lexicalParts removed * lexicalParts added
  if work > sideBySideWorkLimit then emitIndexedChangeBlock removed added
  else emitMatched costs (removed.length + added.length) removed 0 added 0

def emitContext (line : Line) : LinePair :=
  if line.newNo = 0 then ⟨some line, none⟩
  else if line.oldNo = 0 then ⟨none, some line⟩
  else ⟨some line, some line⟩

def isKind (kind : LineKind) (line : Line) : Bool := decide (line.kind = kind)

/-- The rows of a Hunk without folds; the fuel is the number of Lines. -/
def emitSideBySideHunk : Nat → List Line → List LinePair
  | 0, _ => []
  | _, [] => []
  | fuel + 1, line :: lines =>
    match line.kind with
    | .context => emitContext line :: emitSideBySideHunk fuel lines
    | .added =>
      ((line :: lines).takeWhile (isKind .added)).map (fun added => ⟨none, some added⟩) ++
        emitSideBySideHunk fuel ((line :: lines).dropWhile (isKind .added))
    | .removed =>
      let following := (line :: lines).dropWhile (isKind .removed)
      emitSideBySideChangeBlock costs ((line :: lines).takeWhile (isKind .removed))
          (following.takeWhile (isKind .added)) ++
        emitSideBySideHunk fuel (following.dropWhile (isKind .added))

def emitWholeFileGap (old new : List Line) : List LinePair := pairUp old new

def emitWholeFileSideHunk (lines : List Line) (side : SelectedVersion) : List LinePair :=
  (sideLines side lines).map (fun line =>
    match side with
    | .old => ⟨some line, none⟩
    | .new => ⟨none, some line⟩)

def emitHunk (status : FileStatus) (hunk : Hunk) : List LinePair :=
  match status with
  | .added => emitWholeFileSideHunk hunk.lines .new
  | .removed => emitWholeFileSideHunk hunk.lines .old
  | .modified | .renamed => emitSideBySideHunk costs hunk.lines.length hunk.lines

/-- The Lines up to the end of the gap. -/
def gapEnd (lines : List Line) : List Line := lines.takeWhile (fun line => !line.inHunk)

/-- The Lines behind the gap, without those of Hunks. -/
def passHunk (lines : List Line) : List Line :=
  (lines.dropWhile (fun line => !line.inHunk)).dropWhile Line.inHunk

/-- The cursors stand for the Lines left on either side; a side without content has none. -/
def emitWholeFileHunks (status : FileStatus) (oldLines newLines : List Line) :
    List Hunk → List LinePair
  | [] => emitWholeFileGap oldLines newLines
  | hunk :: hunks =>
    emitWholeFileGap (gapEnd oldLines) (gapEnd newLines) ++ emitHunk costs status hunk ++
      emitWholeFileHunks status (passHunk oldLines) (passHunk newLines) hunks

def emitSideBySideWholeFile (file : File) (oldLines newLines : Option (List Line)) :
    List LinePair :=
  emitWholeFileHunks costs file.status (oldLines.getD []) (newLines.getD []) file.hunks

def wholeFileUsableContent (blob : Option Bytes) : Option Bytes :=
  blob.filter (fun bytes => !bytes.isEmpty)

/-- The side-by-side rows of a File, from the content of its sides. -/
def wholeFileRows (file : File) (old new : Option Bytes) : List LinePair :=
  emitSideBySideWholeFile costs file
    ((wholeFileUsableContent old).map (fun blob => spliceSide file blob .old))
    ((wholeFileUsableContent new).map (fun blob => spliceSide file blob .new))

end Weave

end Bbr.Tui
