import Bbr.Diff.Model
import Bbr.Diff.Path

/-!
# The unified-diff parser

`ParseState` holds the accumulators of the loop of `parse`: the Files so far, the File being built
and the Hunk being built. `parseLine` is one turn of that loop. Memory allocation is taken to
succeed.
-/
namespace Bbr.Diff

/-- `integerOverflow` is the trap of an unsigned line number that leaves its range. -/
inductive ParseError where
  | unexpectedLine
  | malformedHunkHeader
  | integerOverflow
  deriving DecidableEq, Repr

def u32Limit : Nat := Nat.pow 2 32

def usizeLimit : Nat := Nat.pow 2 64

def digitValue (c : UInt8) : Option Nat :=
  if 0x30 ≤ c ∧ c ≤ 0x39 then some (c.toNat - 0x30) else none

/-- Decimal digits; underscores may stand between them. -/
def parseMagnitude (buf : Bytes) : Option Nat :=
  if buf.head? = none ∨ buf.head? = some 0x5f ∨ buf.getLast? = some 0x5f then none
  else (buf.filter (fun c => c ≠ 0x5f)).foldlM
    (fun value c => (digitValue c).map (fun digit => value * 10 + digit)) 0

/-- An unsigned integer below the limit, with an optional sign. -/
def parseInt (limit : Nat) (buf : Bytes) : Option Nat :=
  match buf with
  | 0x2b :: rest => (parseMagnitude rest).filter (fun value => decide (value < limit))
  | 0x2d :: rest => (parseMagnitude rest).filter (fun value => decide (value = 0))
  | _ => (parseMagnitude buf).filter (fun value => decide (value < limit))

structure Range where
  start : Nat
  count : Nat
  deriving DecidableEq, Repr

structure HunkNumbers where
  oldStart : Nat
  oldCount : Nat
  newStart : Nat
  newCount : Nat
  deriving DecidableEq, Repr

def comma : UInt8 := 0x2c
def space : UInt8 := 0x20

def parseU32 (s : Bytes) : Except ParseError Nat :=
  match parseInt u32Limit s with
  | some value => .ok value
  | none => .error .malformedHunkHeader

/-- `start[,count]`; an omitted count is 1. -/
def parseRange (s : Bytes) : Except ParseError Range :=
  if s.contains comma then do
    let start ← parseU32 (s.takeWhile (fun c => c != comma))
    let count ← parseU32 ((s.dropWhile (fun c => c != comma)).drop 1)
    return ⟨start, count⟩
  else do
    let start ← parseU32 s
    return ⟨start, 1⟩

/-- The text before the first occurrence of `stop`. -/
def textBefore (stop : Bytes) : Bytes → Option Bytes
  | [] => if stop.isEmpty then some [] else none
  | c :: rest =>
    if stop.isPrefixOf (c :: rest) then some []
    else (textBefore stop rest).map (fun out => c :: out)

/-- `@@ -old +new @@[ section]`. -/
def parseHunkHeader (line : Bytes) : Except ParseError HunkNumbers :=
  if (ascii "@@ ").isPrefixOf line = false then .error .malformedHunkHeader
  else match textBefore (ascii " @@") (line.drop 3) with
    | none => .error .malformedHunkHeader
    | some ranges => match ranges.splitOn space with
      | (0x2d :: oldPart) :: (0x2b :: newPart) :: _ => do
        let old ← parseRange oldPart
        let new ← parseRange newPart
        return ⟨old.start, old.count, new.start, new.count⟩
      | _ => .error .malformedHunkHeader

structure ParsedPath where
  path : Bytes
  valid : Bool
  deriving DecidableEq, Repr

structure GitOperand where
  value : Bytes
  rest : Bytes
  deriving DecidableEq, Repr

structure GitPaths where
  old : Bytes
  new : Bytes
  oldValid : Bool
  newValid : Bool
  deriving DecidableEq, Repr

def stripPrefix (s pre : Bytes) : Bytes := if pre.isPrefixOf s then s.drop pre.length else s

def normalizePathOrOriginal (path : Bytes) : ParsedPath :=
  match normalize path with
  | some normalized => ⟨normalized, true⟩
  | none => ⟨path, false⟩

def tab : UInt8 := 0x09

def devNull : Bytes := ascii "/dev/null"

/-- Drop the timestamp after a tab and the side prefix. -/
def stripDiffPath (rest : Bytes) : Bytes :=
  let path := rest.takeWhile (fun c => c != tab)
  if path = devNull then path else stripPrefix (stripPrefix path (ascii "a/")) (ascii "b/")

def normalizeDiffPath (rest : Bytes) : ParsedPath :=
  let stripped := stripDiffPath rest
  if stripped = devNull then ⟨stripped, true⟩ else normalizePathOrOriginal stripped

/-- The length of a quoted text after its opening quote, the closing quote included. -/
def closingQuote (escaped : Bool) : Bytes → Option Nat
  | [] => none
  | c :: rest =>
    if escaped = false ∧ c = quote then some 1
    else (closingQuote (!escaped && c == backslash) rest).map (fun n => n + 1)

/-- One operand of a `diff --git` line, and the text after it. -/
def parseGitOperand (input : Bytes) : Option GitOperand :=
  match input.dropWhile (fun c => c == space) with
  | [] => none
  | c :: rest =>
    if c ≠ quote then
      some ⟨(c :: rest).takeWhile (fun c => c != space), (c :: rest).dropWhile (fun c => c != space)⟩
    else (closingQuote false rest).map (fun n => ⟨c :: rest.take n, rest.drop n⟩)

def normalizeGitOperand (operand pre : Bytes) : ParsedPath :=
  if operand.head? = some quote then normalizePathOrOriginal operand
  else ⟨stripPrefix operand pre, isRepositoryRelative (stripPrefix operand pre)⟩

def invalidGitPaths (operands : Bytes) : GitPaths := ⟨operands, operands, false, false⟩

/-- The paths of a `diff --git` line. -/
def parseGitPaths (operands : Bytes) : GitPaths :=
  match parseGitOperand operands with
  | none => invalidGitPaths operands
  | some first => match parseGitOperand first.rest with
    | none => invalidGitPaths operands
    | some second =>
      if second.rest.all (fun c => c == space) = false then invalidGitPaths operands
      else
        let old := normalizeGitOperand first.value (ascii "a/")
        let new := normalizeGitOperand second.value (ascii "b/")
        ⟨old.path, new.path, old.valid, new.valid⟩

def sideContent (absent valid binary : Bool) (size : Option Nat) : Option FileContentStatus :=
  if absent then none
  else if valid = false then some (.unavailable none .invalidPath)
  else if binary then some (.binary size)
  else some (.text none)

def fileContent (status : FileStatus) (binary : Bool) (oldSize newSize : Option Nat)
    (oldPathValid newPathValid : Bool) : FileContent :=
  ⟨sideContent (status = .added) oldPathValid binary oldSize,
    sideContent (status = .removed) newPathValid binary newSize⟩

structure ParseState where
  files : List File := []
  haveFile : Bool := false
  oldPath : Bytes := []
  newPath : Bytes := []
  oldPathValid : Bool := true
  newPathValid : Bool := true
  status : FileStatus := .modified
  binary : Bool := false
  binaryNewSize : Option Nat := none
  binaryOldSize : Option Nat := none
  binaryBlockCount : Nat := 0
  binaryExpectsBlock : Bool := false
  hunks : List Hunk := []
  haveHunk : Bool := false
  hunkHeader : Bytes := []
  oldStart : Nat := 0
  oldCount : Nat := 0
  newStart : Nat := 0
  newCount : Nat := 0
  oldNo : Nat := 0
  newNo : Nat := 0
  lines : List Line := []
  deriving DecidableEq, Repr

namespace ParseState

def flushHunk (s : ParseState) : ParseState :=
  if s.haveHunk then
    { s with
      hunks := s.hunks ++ [⟨s.oldStart, s.oldCount, s.newStart, s.newCount, s.hunkHeader, s.lines⟩]
      lines := []
      haveHunk := false }
  else s

def flushFile (s : ParseState) : ParseState :=
  if s.haveFile then
    { s with
      files := s.files ++ [⟨s.oldPath, s.newPath, s.status, s.hunks,
        fileContent s.status s.binary s.binaryOldSize s.binaryNewSize s.oldPathValid s.newPathValid⟩]
      hunks := [] }
  else s

/-- A `diff --git` line: a new File with the paths its operands suggest. -/
def openFile (s : ParseState) (operands : Bytes) : ParseState :=
  let paths := parseGitPaths operands
  { s with
    haveFile := true
    status := .modified
    binary := false
    binaryNewSize := none
    binaryOldSize := none
    binaryBlockCount := 0
    binaryExpectsBlock := false
    oldPath := paths.old
    newPath := paths.new
    oldPathValid := paths.oldValid
    newPathValid := paths.newValid }

/-- A header line between `diff --git` and the first Hunk; `none` when it is not one of those the
parser knows. -/
def preambleLine (s : ParseState) (line : Bytes) : Option ParseState :=
  if (ascii "new file mode").isPrefixOf line then some { s with status := .added }
  else if (ascii "deleted file mode").isPrefixOf line then some { s with status := .removed }
  else if (ascii "rename ").isPrefixOf line then some { s with status := .renamed }
  else if (ascii "--- ").isPrefixOf line then
    let parsed := normalizeDiffPath (line.drop 4)
    some { s with
      oldPath := parsed.path
      oldPathValid := parsed.valid
      status := if parsed.path = devNull then .added else s.status }
  else if (ascii "+++ ").isPrefixOf line then
    let parsed := normalizeDiffPath (line.drop 4)
    some { s with
      newPath := parsed.path
      newPathValid := parsed.valid
      status := if parsed.path = devNull then .removed else s.status }
  else if line = ascii "GIT binary patch" ∨
      ((ascii "Binary files ").isPrefixOf line ∧ (ascii " differ").isSuffixOf line) then
    some { s with binary := true, binaryExpectsBlock := decide (line = ascii "GIT binary patch") }
  else if s.binary ∧ line = [] then some { s with binaryExpectsBlock := true }
  else if s.binaryExpectsBlock ∧
      ((ascii "literal ").isPrefixOf line ∨ (ascii "delta ").isPrefixOf line) then
    let size := parseInt usizeLimit (line.drop 8)
    let literal := (ascii "literal ").isPrefixOf line
    some { s with
      binaryNewSize := if literal ∧ s.binaryBlockCount = 0 then size else s.binaryNewSize
      binaryOldSize := if literal ∧ s.binaryBlockCount = 1 then size else s.binaryOldSize
      binaryBlockCount := s.binaryBlockCount + 1
      binaryExpectsBlock := false }
  else none

def openHunk (s : ParseState) (line : Bytes) : Except ParseError ParseState := do
  let h ← parseHunkHeader line
  return { s with
    haveHunk := true
    hunkHeader := line
    oldStart := h.oldStart
    oldCount := h.oldCount
    newStart := h.newStart
    newCount := h.newCount
    oldNo := h.oldStart
    newNo := h.newStart }

/-- The next line number of a side. -/
def next (n : Nat) : Except ParseError Nat :=
  if n + 1 < u32Limit then .ok (n + 1) else .error .integerOverflow

/-- A line of the Hunk body, told by its first byte. -/
def bodyLine (s : ParseState) (line : Bytes) : Except ParseError ParseState :=
  match line with
  | [] => .ok s
  | mark :: text =>
    if mark = 0x20 then do
      let oldNo ← next s.oldNo
      let newNo ← next s.newNo
      return { s with
        lines := s.lines ++ [{ oldNo := s.oldNo, newNo := s.newNo, kind := .context, text := text }]
        oldNo := oldNo
        newNo := newNo }
    else if mark = 0x2b then do
      let newNo ← next s.newNo
      return { s with
        lines := s.lines ++ [{ oldNo := 0, newNo := s.newNo, kind := .added, text := text }]
        newNo := newNo }
    else if mark = 0x2d then do
      let oldNo ← next s.oldNo
      return { s with
        lines := s.lines ++ [{ oldNo := s.oldNo, newNo := 0, kind := .removed, text := text }]
        oldNo := oldNo }
    else if mark = backslash then .ok s
    else .error .unexpectedLine

def parseLine (s : ParseState) (line : Bytes) : Except ParseError ParseState :=
  if (ascii "diff --git ").isPrefixOf line then
    .ok (s.flushHunk.flushFile.openFile (line.drop 11))
  else if s.haveFile = false then .ok s
  else match (if s.haveHunk then none else s.preambleLine line) with
    | some s' => .ok s'
    | none =>
      if (ascii "@@").isPrefixOf line then s.flushHunk.openHunk line
      else if s.haveHunk = false then .ok s
      else s.bodyLine line

end ParseState

def newline : UInt8 := 0x0a

def parse (raw : Bytes) : Except ParseError Diff := do
  let s ← (raw.splitOn newline).foldlM ParseState.parseLine {}
  return ⟨s.flushHunk.flushFile.files⟩

end Bbr.Diff
