import Bbr.Diff.Parser
import Bbr.Search.Literal

/-!
# Searching a whole File

The Lines of the old and the new content are searched one by one, and a context Line that both have
becomes one Occurrence. `none` stands for an error or a trap.
-/
namespace Bbr.Search

open Bbr.Diff

-- The conditionally complete order of the integers has no code.
local instance intPreorder : Preorder Int := Int.instLinearOrder.toPreorder

section Fuzzy

variable (unicode : UnicodeCase) (query : Query)

def alignmentBetter (left right : Alignment) : Bool :=
  if left.calculation ≠ right.calculation then left.calculation == .exact
  else if left.score ≠ right.score then decide (right.score < left.score)
  else decide (left.positions.headD 0 < right.positions.headD 0)

/-- The alignment of a region, with positions in the whole text. -/
def regionAlignment (candidate : Candidate) (scalars : List PlacedScalar) (region : Range) :
    Option Alignment :=
  let wholeLine := decide (candidate.boundaries = [] ∧ region.start = 0 ∧
    region.stop = scalars.length)
  (fuzzyAlignment unicode query
    (((scalars.drop region.start).take (region.stop - region.start)).map PlacedScalar.value)
    wholeLine).map (fun relative =>
      { relative with positions := relative.positions.map (fun p => p + region.start) })

def bestAlignment (candidate : Candidate) (scalars : List PlacedScalar) : List Range →
    Option Alignment → Option Alignment
  | [], best => best
  | region :: regions, best =>
    bestAlignment candidate scalars regions
      (match regionAlignment unicode query candidate scalars region, best with
        | none, best => best
        | some relative, none => some relative
        | some relative, some current =>
          if alignmentBetter relative current then some relative else some current)

/-- The Occurrences of a candidate without alternative spellings. -/
def fuzzyOccurrences (candidate : Candidate) : Option (List Occurrence) :=
  let scalars := decode candidate.text
  match bestAlignment unicode query candidate scalars (regionsOf candidate) none with
  | none => some []
  | some alignment => (makeOccurrence candidate scalars alignment.positions alignment.score
      alignment.calculation).map (fun occurrence => [occurrence])

end Fuzzy

def VersionRelation.rank : VersionRelation → Nat
  | .neutral => 0
  | .old => 1
  | .new => 2

/-- The order of source Lines with the same worth; `none` when they are the same Line. -/
def sourceLess (a b : SourceLocation) : Option Bool :=
  let aPath := if a.relation = .old then a.oldPath else a.newPath
  let bPath := if b.relation = .old then b.oldPath else b.newPath
  let aLine := (a.newLine.or a.oldLine).getD 0
  let bLine := (b.newLine.or b.oldLine).getD 0
  if aPath ≠ bPath then some (decide (aPath < bPath))
  else if aLine ≠ bLine then some (decide (aLine < bLine))
  else if a.relation ≠ b.relation then some (decide (a.relation.rank < b.relation.rank))
  else none

def corpusLess (left right : Occurrence) : Bool :=
  if left.corpusOrder ≠ right.corpusOrder then decide (left.corpusOrder < right.corpusOrder)
  else decide (left.column < right.column)

def fuzzyLess (left right : Occurrence) : Bool :=
  if left.calculation ≠ right.calculation then left.calculation == .exact
  else if left.score ≠ right.score then decide (right.score < left.score)
  else if left.candidateScalars ≠ right.candidateScalars then
    decide (left.candidateScalars < right.candidateScalars)
  else match left.location, right.location with
    | .source _, .reviewBody _ => true
    | .reviewBody _, .source _ => false
    | .source a, .source b => (sourceLess a b).getD (corpusLess left right)
    | .reviewBody _, .reviewBody _ => corpusLess left right

def lineLimit : Nat := 2 ^ 32

/-- A carriage return at the end belongs to the terminator. -/
def stripReturn (line : Bytes) : Bytes := if line.getLast? = some 13 then line.dropLast else line

/-- The Lines of the rest of a content. -/
def linesFrom : Nat → Nat → Bytes → Option (List Bytes)
  | 0, _, _ => some []
  | fuel + 1, lineNo, rest =>
    if rest.isEmpty then some []
    else if lineLimit ≤ lineNo + 1 then none
    else (linesFrom fuel (lineNo + 1) ((rest.dropWhile (fun b => b != 10)).drop 1)).map
      (fun lines => stripReturn (rest.takeWhile (fun b => b != 10)) :: lines)

def contentLines (blob : Option Bytes) : Option (List Bytes) :=
  match blob with
  | none => some []
  | some blob => linesFrom blob.length 1 blob

/-- A Line of one version that is searched. -/
structure ContentLine where
  relation : VersionRelation
  lineNo : Nat
  text : Bytes
  deriving DecidableEq, Repr

def numberLines (relation : VersionRelation) (lines : List Bytes) : List ContentLine :=
  lines.zipIdx.map (fun pair => ⟨relation, pair.2 + 1, pair.1⟩)

section File

variable (unicode : UnicodeCase) (query : Query) (file : File) (fileIndex epoch : Nat)

def lineLocation (line : ContentLine) : SourceLocation where
  fileIndex := fileIndex
  relation := line.relation
  oldPath := file.oldPath
  newPath := file.newPath
  oldLine := if line.relation = .old then some line.lineNo else none
  newLine := if line.relation = .new then some line.lineNo else none

def lineCandidate (line : ContentLine) (text : Text) : Candidate where
  text := text
  location := .source (lineLocation file fileIndex line)
  corpusOrder := line.lineNo * 2 + if line.relation = .new then 1 else 0
  sessionEpoch := epoch

def scanLine (line : ContentLine) : Option (List Occurrence) :=
  (utf8Decode line.text).bind (fun text =>
    fuzzyOccurrences unicode query (lineCandidate file fileIndex epoch line text))

/-- The scan of Lines in the fuzzy mode. -/
def scanLines (lines : List ContentLine) : Option (List Occurrence) :=
  if query.scalars.isEmpty then some []
  else (lines.mapM (scanLine unicode query file fileIndex epoch)).map (fun found =>
    found.flatten.mergeSort (fun left right => !fuzzyLess right left))

/-- The number of an Occurrence in one version. -/
def lineNumber (relation : VersionRelation) (occurrence : Occurrence) : Option Nat :=
  match occurrence.location with
  | .reviewBody _ => none
  | .source source =>
    if source.relation ≠ relation then none
    else if relation = .old then source.oldLine else source.newLine

/-- The places of the Occurrences by their Line. -/
def matchPlaces (relation : VersionRelation) (count : Nat) (batch : List Occurrence) :
    List (Option Nat) :=
  batch.zipIdx.foldl (fun places pair => match lineNumber relation pair.1 with
    | some number =>
      if number - 1 < places.length then places.set (number - 1) (some pair.2) else places
    | none => places) (List.replicate count none)

/-- The duplicates of a merge have the greatest order. -/
def dropped : Nat := 2 ^ 64 - 1

def Occurrence.sourceRelation (occurrence : Occurrence) : Option VersionRelation :=
  match occurrence.location with
  | .source source => some source.relation
  | .reviewBody _ => none

/-- An Occurrence of both versions. -/
def Occurrence.neutralize (occurrence : Occurrence) (line : Line) (duplicate : Bool) : Occurrence :=
  match occurrence.location with
  | .reviewBody _ => occurrence
  | .source source =>
    if duplicate then { occurrence with
      location := .source { source with relation := .neutral, oldLine := some line.oldNo }
      corpusOrder := dropped }
    else { occurrence with
      location := .source { source with relation := .neutral, newLine := some line.newNo } }

/-- The Occurrences of the old and the new Line become one when they show the same. -/
def mergePair (batch : List Occurrence) (line : Line) (oi ni : Nat) : List Occurrence :=
  match batch[oi]?, batch[ni]? with
  | some before, some after =>
    if before.sourceRelation ≠ some .old ∨ after.sourceRelation ≠ some .new then batch
    else if before.ranges ≠ after.ranges then batch
    else (batch.set oi (before.neutralize line false)).set ni (after.neutralize line true)
  | _, _ => batch

def mergeLine (oldLines newLines : List Bytes) (oldPlaces newPlaces : List (Option Nat))
    (batch : List Occurrence) (line : Line) : List Occurrence :=
  if line.kind ≠ .context ∨ line.oldNo = 0 ∨ line.newNo = 0 then batch
  else match oldLines[line.oldNo - 1]?, newLines[line.newNo - 1]? with
    | some oldText, some newText =>
      if oldText ≠ newText ∨ oldText ≠ line.text then batch
      else match (oldPlaces[line.oldNo - 1]?).join, (newPlaces[line.newNo - 1]?).join with
        | some oi, some ni => mergePair batch line oi ni
        | _, _ => batch
    | _, _ => batch

def mergeVersions (oldLines newLines : List Bytes) (batch : List Occurrence) : List Occurrence :=
  let oldPlaces := matchPlaces .old oldLines.length batch
  let newPlaces := matchPlaces .new newLines.length batch
  ((file.hunks.flatMap Hunk.lines).foldl (mergeLine oldLines newLines oldPlaces newPlaces)
    batch).filter (fun occurrence => occurrence.corpusOrder != dropped)

def scanFile (old new : Option Bytes) : Option (List Occurrence) :=
  (contentLines old).bind (fun oldLines => (contentLines new).bind (fun newLines =>
    (scanLines unicode query file fileIndex epoch
      (numberLines .old oldLines ++ numberLines .new newLines)).map (fun batch =>
        if old = none ∨ new = none then batch else mergeVersions file oldLines newLines batch)))

end File

end Bbr.Search
