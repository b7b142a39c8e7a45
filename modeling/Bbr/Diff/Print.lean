import Bbr.Diff.Parser

/-!
# Printing a unified diff

The text that stands for a list of changed text Files, as Git prints it: a `diff --git` line, the extended
header lines of the change, the two path lines when there are Hunks, and the Hunks. Paths with unusual
bytes are quoted.
-/
namespace Bbr.Diff

/-- A line of a Hunk body; the marker says that the File ends there without a newline. -/
structure PrintedLine where
  kind : LineKind
  text : Bytes
  noNewline : Bool := false
  deriving DecidableEq, Repr

/-- A Hunk; a brief range leaves out a count of 1. -/
structure PrintedHunk where
  oldStart : Nat
  oldCount : Nat
  newStart : Nat
  newCount : Nat
  oldBrief : Bool := false
  newBrief : Bool := false
  heading : Bytes := []
  lines : List PrintedLine
  deriving DecidableEq, Repr

inductive FileChange where
  | added (path : Bytes)
  | removed (path : Bytes)
  | modified (path : Bytes)
  | renamed (old new : Bytes)
  deriving DecidableEq, Repr

namespace FileChange

def status : FileChange → FileStatus
  | .added _ => .added
  | .removed _ => .removed
  | .modified _ => .modified
  | .renamed _ _ => .renamed

/-- The path on the old side, where the File exists there. -/
def oldName : FileChange → Option Bytes
  | .added _ => none
  | .removed path => some path
  | .modified path => some path
  | .renamed old _ => some old

def newName : FileChange → Option Bytes
  | .added path => some path
  | .removed _ => none
  | .modified path => some path
  | .renamed _ new => some new

/-- The paths of the `diff --git` line, which names both sides always. -/
def operands : FileChange → Bytes × Bytes
  | .added path => (path, path)
  | .removed path => (path, path)
  | .modified path => (path, path)
  | .renamed old new => (old, new)

end FileChange

structure PrintedFile where
  change : FileChange
  hunks : List PrintedHunk
  deriving DecidableEq, Repr

/-- Decimal digits, with enough fuel for the number of digits. -/
def digits : Nat → Nat → Bytes
  | 0, _ => []
  | fuel + 1, n =>
    if n < 10 then [(0x30 + n).toUInt8] else digits fuel (n / 10) ++ [(0x30 + n % 10).toUInt8]

def decimal (n : Nat) : Bytes := digits (n + 1) n

/-- Git quotes a path with such a byte. -/
def isSpecial (b : UInt8) : Bool :=
  decide (b < 0x20) || decide (0x7f ≤ b) || b == quote || b == backslash

def isQuoted (path : Bytes) : Bool := path.any isSpecial

def octalDigits (b : UInt8) : Bytes :=
  [(0x30 + b.toNat / 64).toUInt8, (0x30 + b.toNat / 8 % 8).toUInt8, (0x30 + b.toNat % 8).toUInt8]

/-- The letter that escapes a byte, where there is one. -/
def escapeLetter (b : UInt8) : Option UInt8 :=
  if b = 0x07 then some 0x61
  else if b = 0x08 then some 0x62
  else if b = 0x09 then some 0x74
  else if b = 0x0a then some 0x6e
  else if b = 0x0b then some 0x76
  else if b = 0x0c then some 0x66
  else if b = 0x0d then some 0x72
  else if b = backslash then some backslash
  else if b = quote then some quote
  else none

def escapeByte (b : UInt8) : Bytes :=
  if isSpecial b then
    match escapeLetter b with
    | some e => [backslash, e]
    | none => backslash :: octalDigits b
  else [b]

/-- A path after its side prefix, quoted when it has to be. -/
def printName (side path : Bytes) : Bytes :=
  if isQuoted path then [quote] ++ side ++ path.flatMap escapeByte ++ [quote] else side ++ path

/-- A path of a `---` or `+++` line; one with a space is closed by a tab. -/
def printPath (side : Bytes) : Option Bytes → Bytes
  | none => devNull
  | some path => printName side path ++ if path.contains space then [tab] else []

def printRange (brief : Bool) (start count : Nat) : Bytes :=
  if brief ∧ count = 1 then decimal start else decimal start ++ [comma] ++ decimal count

def PrintedHunk.ranges (h : PrintedHunk) : Bytes :=
  [0x2d] ++ printRange h.oldBrief h.oldStart h.oldCount ++ [space, 0x2b] ++
    printRange h.newBrief h.newStart h.newCount

def PrintedHunk.header (h : PrintedHunk) : Bytes :=
  ascii "@@ " ++ h.ranges ++ ascii " @@" ++ h.heading

def mark : LineKind → UInt8
  | .context => 0x20
  | .added => 0x2b
  | .removed => 0x2d

def noNewlineMarker : Bytes := ascii "\\ No newline at end of file"

def PrintedLine.rows (l : PrintedLine) : List Bytes :=
  (mark l.kind :: l.text) :: if l.noNewline then [noNewlineMarker] else []

def PrintedHunk.rows (h : PrintedHunk) : List Bytes := h.header :: h.lines.flatMap PrintedLine.rows

def FileChange.statusRows : FileChange → List Bytes
  | .added _ => [ascii "new file mode 100644"]
  | .removed _ => [ascii "deleted file mode 100644"]
  | .modified _ => []
  | .renamed old new =>
    [ascii "rename from " ++ printName [] old, ascii "rename to " ++ printName [] new]

def FileChange.gitOperands (change : FileChange) : Bytes :=
  printName (ascii "a/") change.operands.1 ++ [space] ++ printName (ascii "b/") change.operands.2

def FileChange.pathRows (change : FileChange) : List Bytes :=
  [ascii "--- " ++ printPath (ascii "a/") change.oldName,
    ascii "+++ " ++ printPath (ascii "b/") change.newName]

def PrintedFile.rows (f : PrintedFile) : List Bytes :=
  (ascii "diff --git " ++ f.change.gitOperands) :: f.change.statusRows ++
    (if f.hunks = [] then [] else f.change.pathRows) ++ f.hunks.flatMap PrintedHunk.rows

/-- Every row ends with a newline. -/
def joinRows (rows : List Bytes) : Bytes := rows.flatMap (fun row => row ++ [newline])

def print (files : List PrintedFile) : Bytes := joinRows (files.flatMap PrintedFile.rows)

/-- How many lines of the Hunk are on the old side. -/
def oldLines (lines : List PrintedLine) : Nat := lines.countP (fun l => l.kind != .added)

def newLines (lines : List PrintedLine) : Nat := lines.countP (fun l => l.kind != .removed)

/-- Texts are single lines, and start and count stay below the limit of 32 bits. How many lines
there are is another matter. -/
structure PrintedHunk.WellFormed (h : PrintedHunk) : Prop where
  heading : newline ∉ h.heading
  texts : ∀ l ∈ h.lines, newline ∉ l.text
  old : h.oldStart + h.oldCount < u32Limit
  new : h.newStart + h.newCount < u32Limit

/-- The number behind the last line of a side is one of 32 bits. -/
structure PrintedHunk.Fits (h : PrintedHunk) : Prop where
  old : h.oldStart + oldLines h.lines < u32Limit
  new : h.newStart + newLines h.lines < u32Limit

/-- Paths are relative to the repository. -/
structure PrintedFile.WellFormed (f : PrintedFile) : Prop where
  first : isRepositoryRelative f.change.operands.1 = true
  second : isRepositoryRelative f.change.operands.2 = true
  hunks : ∀ h ∈ f.hunks, h.WellFormed

end Bbr.Diff
