import Bbr.Bitbucket.Types
import Bbr.Search.Fuzzy

/-!
# Candidates and Occurrences

A candidate is a text that is searched. Its mapping says where its pieces were authored, and its boundaries
cut it into regions that no match crosses. A text is UTF-8 and stands as the list of its scalars; other
texts are an error before the search.
-/
namespace Bbr.Search

abbrev Text := List Scalar

structure Range where
  start : Nat
  stop : Nat
  deriving DecidableEq, Repr

structure Mapping where
  semantic : Range
  authored : Range
  authoredColumn : Option Nat := none
  authoredLine : Option Nat := none
  definitionSource : Option Range := none
  alternative : Text := []
  deriving DecidableEq, Repr

inductive VersionRelation where
  | neutral
  | old
  | new
  deriving DecidableEq, Repr

structure SourceLocation where
  fileIndex : Nat
  relation : VersionRelation
  oldPath : Bytes := []
  newPath : Bytes := []
  oldLine : Option Nat := none
  newLine : Option Nat := none
  deriving DecidableEq, Repr

inductive ReviewBodyOwner where
  | comment (id : Nat)
  | draft (id : Nat)
  deriving DecidableEq, Repr

structure ReviewBodyLocation where
  owner : ReviewBodyOwner
  logicalLine : Nat
  deriving DecidableEq, Repr

inductive Location where
  | source (location : SourceLocation)
  | reviewBody (location : ReviewBodyLocation)
  deriving DecidableEq, Repr

structure Candidate where
  text : Text
  mapping : List Mapping := []
  boundaries : List Nat := []
  location : Location
  corpusOrder : Nat := 0
  sessionEpoch : Nat := 0
  deriving DecidableEq, Repr

structure Occurrence where
  location : Location
  ranges : List Range
  definitionRanges : List Range := []
  column : Nat
  score : WithTop Int := 0
  calculation : Calculation := .exact
  candidateScalars : Nat
  corpusOrder : Nat
  sessionEpoch : Nat
  deriving DecidableEq

def utf8Encode (scalar : Scalar) : List Nat :=
  if scalar < 0x80 then [scalar]
  else if scalar < 0x800 then [0xc0 + scalar / 64, 0x80 + scalar % 64]
  else if scalar < 0x10000 then
    [0xe0 + scalar / 4096, 0x80 + scalar / 64 % 64, 0x80 + scalar % 64]
  else [0xf0 + scalar / 262144, 0x80 + scalar / 4096 % 64, 0x80 + scalar / 64 % 64,
    0x80 + scalar % 64]

def utf8Decode (bytes : Bytes) : Option Text :=
  (ByteArray.mk bytes.toArray).utf8Decode?.map (fun chars => chars.toList.map Char.toNat)

def utf8Length (scalar : Scalar) : Nat := (utf8Encode scalar).length

/-- The scalars of a number of bytes, unless these end inside a scalar. -/
def takeBytes : Text → Nat → Option Text
  | _, 0 => some []
  | [], _ + 1 => none
  | scalar :: text, n + 1 =>
    if n + 1 < utf8Length scalar then none
    else (takeBytes text (n + 1 - utf8Length scalar)).map (fun front => scalar :: front)

def dropBytes : Text → Nat → Option Text
  | text, 0 => some text
  | [], _ + 1 => none
  | scalar :: text, n + 1 =>
    if n + 1 < utf8Length scalar then none else dropBytes text (n + 1 - utf8Length scalar)

def slice (text : Text) (start stop : Nat) : Option Text :=
  (dropBytes text start).bind (fun rest => takeBytes rest (stop - start))

/-- A scalar and its bytes in the text. -/
structure PlacedScalar where
  value : Scalar
  bytes : Range
  deriving DecidableEq, Repr

/-- `start` is the byte where the text begins. -/
def decodeFrom : Nat → Text → List PlacedScalar
  | _, [] => []
  | start, value :: text =>
    ⟨value, ⟨start, start + utf8Length value⟩⟩ :: decodeFrom (start + utf8Length value) text

def decode (text : Text) : List PlacedScalar := decodeFrom 0 text

/-- The regions from the scalar `regionStart` on. -/
def regionsFrom (scalars : List PlacedScalar) : List Nat → Nat → List Range
  | [], regionStart =>
    if regionStart < scalars.length then [⟨regionStart, scalars.length⟩] else []
  | boundary :: boundaries, regionStart =>
    let cursor := regionStart +
      ((scalars.drop regionStart).takeWhile (fun s => decide (s.bytes.start < boundary))).length
    (if regionStart < cursor then [⟨regionStart, cursor⟩] else []) ++
      regionsFrom scalars boundaries cursor

def scalarRegions (scalars : List PlacedScalar) (boundaries : List Nat) : List Range :=
  let regions := regionsFrom scalars boundaries 0
  if regions.isEmpty then [⟨0, scalars.length⟩] else regions

/-- A range that meets the last one is joined with it. -/
def joinRange (ranges : List Range) (range : Range) : List Range :=
  match ranges.getLast? with
  | none => [range]
  | some last =>
    if range.start ≤ last.stop then ranges.dropLast ++ [⟨last.start, max last.stop range.stop⟩]
    else ranges ++ [range]

/-- The positions are places of scalars. -/
def mergedScalarRanges (scalars : List PlacedScalar) (positions : List Nat) : List Range :=
  (positions.filterMap (fun position => scalars[position]?)).foldl
    (fun ranges scalar => joinRange ranges scalar.bytes) []

/-- Where an entry has the part of a range that it maps. -/
def mapRange (definitions : Bool) (semantic : Range) (entry : Mapping) : Option Range :=
  let start := max semantic.start entry.semantic.start
  let stop := min semantic.stop entry.semantic.stop
  if stop ≤ start then none
  else (if definitions then entry.definitionSource else some entry.authored).map (fun source =>
    if entry.alternative = [] ∧ (definitions = true ∨ entry.definitionSource = none) ∧
        source.stop - source.start = entry.semantic.stop - entry.semantic.start then
      ⟨source.start + start - entry.semantic.start, source.start + stop - entry.semantic.start⟩
    else source)

def mapRanges (semanticRanges : List Range) (mapping : List Mapping) (definitions : Bool) :
    List Range :=
  if mapping = [] then (if definitions then [] else semanticRanges)
  else (semanticRanges.flatMap (fun semantic => mapping.filterMap (mapRange definitions semantic))).foldl
    (fun ranges authored =>
      if ranges.getLast? = some authored then ranges else joinRange ranges authored) []

def mappingAt (candidate : Candidate) (first : Nat) : Option Mapping :=
  candidate.mapping.find? (fun entry =>
    decide (entry.semantic.start ≤ first) && decide (first < entry.semantic.stop))

def columnOf (candidate : Candidate) (first column : Nat) : Nat :=
  match mappingAt candidate first with
  | none => column
  | some entry => match entry.authoredColumn with
    | none => column
    | some authoredColumn =>
      authoredColumn + if entry.definitionSource = none ∧ entry.alternative = [] then
        ((slice candidate.text entry.semantic.start first).map List.length).getD 0 else 0

def locationOf (candidate : Candidate) (first : Nat) : Location :=
  match (mappingAt candidate first).bind Mapping.authoredLine, candidate.location with
  | some line, .reviewBody body => .reviewBody { body with logicalLine := line }
  | _, location => location

/-- The Occurrence of matched scalars. `none` stands for a trap: there has to be a position. -/
def makeOccurrence (candidate : Candidate) (scalars : List PlacedScalar) (positions : List Nat)
    (score : WithTop Int) (calculation : Calculation) : Option Occurrence :=
  match positions with
  | [] => none
  | position :: _ => (scalars[position]?).map (fun scalar =>
    let semanticRanges := mergedScalarRanges scalars positions
    { location := locationOf candidate scalar.bytes.start
      ranges := mapRanges semanticRanges candidate.mapping false
      definitionRanges := mapRanges semanticRanges candidate.mapping true
      column := columnOf candidate scalar.bytes.start (position + 1)
      score := score
      calculation := calculation
      candidateScalars := scalars.length
      corpusOrder := candidate.corpusOrder
      sessionEpoch := candidate.sessionEpoch })

end Bbr.Search
