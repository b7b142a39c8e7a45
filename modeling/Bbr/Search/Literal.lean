import Bbr.Search.Candidate

/-!
# Literal matching

The window scan over the scalars of a region, the search over the graph of a candidate with
alternative spellings, and the test whether a text contains the query. `none` stands for a trap.
-/
namespace Bbr.Search

section Window

variable (unicode : UnicodeCase) (query : Query)

/-- The text starts with the needles. -/
def startsWith : List Scalar → Text → Bool
  | [], _ => true
  | _ :: _, [] => false
  | needle :: needles, scalar :: text =>
    equalScalar unicode query needle scalar && startsWith needles text

def containsFrom : Text → Bool
  | [] => false
  | scalar :: text =>
    startsWith unicode query query.scalars (scalar :: text) || containsFrom text

/-- Whether a UTF-8 text contains the query. -/
def containsLiteral (text : Text) : Bool :=
  if query.scalars.isEmpty then true else containsFrom unicode query text

variable (candidate : Candidate) (scalars : List PlacedScalar)

/-- The Occurrence of the query at a scalar. -/
def occurrenceAt (start : Nat) : Option Occurrence :=
  makeOccurrence candidate scalars (List.range' start query.scalars.length) 0 .exact

def matchesAt (start : Nat) : Bool :=
  startsWith unicode query query.scalars ((scalars.drop start).map PlacedScalar.value)

/-- The scan from `start` on; a match is skipped as a whole. -/
def literalStarts (stop : Nat) : Nat → Nat → List Nat
  | 0, _ => []
  | fuel + 1, start =>
    if start + query.scalars.length ≤ stop then
      if matchesAt unicode query scalars start then
        start :: literalStarts stop fuel (start + query.scalars.length)
      else literalStarts stop fuel (start + 1)
    else []

def scanLiteral (region : Range) : Option (List Occurrence) :=
  if region.stop - region.start < query.scalars.length then some []
  else (literalStarts unicode query scalars region.stop (region.stop - region.start + 1)
    region.start).mapM (occurrenceAt query candidate scalars)

end Window

/-- A scalar of a spelling with the scalars in front of it. -/
structure BranchNode where
  scalar : PlacedScalar
  previous : Option Nat × Option Nat
  authoredForm : Bool := false
  deriving DecidableEq, Repr

/-- The text of an atomic spelling has one place. -/
def branchNodes (semantic : Range) (atomic : Bool) :
    Nat → Option Nat × Option Nat → List PlacedScalar → List BranchNode
  | _, _, [] => []
  | index, previous, scalar :: scalars =>
    ⟨⟨scalar.value, if atomic then semantic
        else ⟨semantic.start + scalar.bytes.start, semantic.start + scalar.bytes.stop⟩⟩,
      previous, atomic && scalar.bytes.start == 0⟩ ::
        branchNodes semantic atomic (index + 1) (some index, none) scalars

/-- The nodes with a new branch, and the last node of it. -/
def appendBranch (nodes : List BranchNode) (text : Text) (semantic : Range)
    (previous : Option Nat × Option Nat) (atomic : Bool) : List BranchNode × Option Nat :=
  (nodes ++ branchNodes semantic atomic nodes.length previous (decode text),
    if text.isEmpty then previous.1 else some (nodes.length + text.length - 1))

/-- A byte of the alternative is a scalar of the query. -/
def suppliesQuery (unicode : UnicodeCase) (query : Query) (alternative : Text) : Bool :=
  (alternative.flatMap utf8Encode).any (fun byte =>
    query.scalars.any (fun needle => equalScalar unicode query needle byte))

/-- The two spellings of an entry. -/
def appendEntry (unicode : UnicodeCase) (query : Query) (candidate : Candidate) (entry : Mapping)
    (nodes : List BranchNode) (previous : Option Nat × Option Nat) :
    Option (List BranchNode × Option Nat × Option Nat) :=
  (slice candidate.text entry.semantic.start entry.semantic.stop).map (fun text =>
    let displayed := appendBranch nodes text entry.semantic previous false
    if suppliesQuery unicode query entry.alternative then
      let authored := appendBranch displayed.1 entry.alternative entry.semantic previous true
      (authored.1, displayed.2, authored.2)
    else (displayed.1, displayed.2, none))

/-- The text between two places, if there is any. -/
def appendPlain (candidate : Candidate) (start stop : Nat) (nodes : List BranchNode)
    (previous : Option Nat × Option Nat) : Option (List BranchNode × Option Nat × Option Nat) :=
  if start < stop then
    (slice candidate.text start stop).map (fun text =>
      let plain := appendBranch nodes text ⟨start, stop⟩ previous false
      (plain.1, plain.2, none))
  else some (nodes, previous)

/-- The entries from `offset` on. A piece of the text that is no UTF-8 is an error. -/
def graphFrom (unicode : UnicodeCase) (query : Query) (candidate : Candidate)
    (startByte endByte : Nat) : List Mapping → Nat → List BranchNode → Option Nat × Option Nat →
      Option (List BranchNode × Option Nat × Option Nat)
  | [], offset, nodes, previous => appendPlain candidate offset endByte nodes previous
  | entry :: mapping, offset, nodes, previous =>
    if entry.alternative = [] ∨ entry.semantic.start < startByte ∨ endByte < entry.semantic.stop then
      graphFrom unicode query candidate startByte endByte mapping offset nodes previous
    else (appendPlain candidate offset entry.semantic.start nodes previous).bind (fun before =>
      (appendEntry unicode query candidate entry before.1 before.2).bind (fun after =>
        graphFrom unicode query candidate startByte endByte mapping entry.semantic.stop after.1
          after.2))

def emojiGraph (unicode : UnicodeCase) (query : Query) (candidate : Candidate)
    (startByte endByte : Nat) : Option (List BranchNode × Option Nat × Option Nat) :=
  graphFrom unicode query candidate startByte endByte candidate.mapping startByte [] (none, none)

section Graph

variable (unicode : UnicodeCase) (query : Query)

def minOption (a b : Option Nat) : Option Nat :=
  match a, b with
  | none, b => b
  | a, none => a
  | some a, some b => some (min a b)

/-- The earliest start of a match of the first query scalars that ends at each node; `before` has
that of one scalar less. -/
def matchRow (nodes : List BranchNode) (before : List (Option Nat)) (first : Bool)
    (needle : Scalar) : List (Option Nat) :=
  nodes.map (fun node =>
    if equalScalar unicode query needle node.scalar.value then
      if first then some node.scalar.bytes.start
      else minOption (node.previous.1.bind (fun p => (before[p]?).join))
        (node.previous.2.bind (fun p => (before[p]?).join))
    else none)

/-- The rows of the query scalars, given up where no node is left. -/
def matchRows (nodes : List BranchNode) : Bool → List Scalar → List (Option Nat) →
    Option (List (Option Nat))
  | _, [], before => some before
  | first, needle :: needles, before =>
    let current := matchRow unicode query nodes before first needle
    if current.all Option.isNone then none else matchRows nodes false needles current

def branchMatches (nodes : List BranchNode) : List Range :=
  match matchRows unicode query nodes true query.scalars (nodes.map (fun _ => none)) with
  | none => []
  | some last => (nodes.zip last).filterMap (fun pair =>
      pair.2.map (fun first => ⟨first, pair.1.scalar.bytes.stop⟩))

def rangeLe (left right : Range) : Bool :=
  if left.start = right.start then decide (left.stop ≤ right.stop)
  else decide (left.start < right.start)

variable (candidate : Candidate) (scalars : List PlacedScalar) (region : Range)

/-- The scalars from `cursor` on that end in front of the match. -/
def skipTo (cursor start : Nat) : Nat :=
  cursor + (((scalars.take region.stop).drop cursor).takeWhile
    (fun s => decide (s.bytes.stop ≤ start))).length

def positionsOf (cursor : Nat) (range : Range) : List Nat :=
  List.range' cursor (((scalars.take region.stop).drop cursor).takeWhile
    (fun s => decide (s.bytes.start < range.stop))).length

/-- Matches in their order; one is left out when it begins in front of the last one's end. -/
def keepMatches : Nat → Nat → List Range → Option (List Occurrence)
  | _, _, [] => some []
  | authoredEnd, cursor, range :: ranges =>
    let cursor := skipTo scalars region cursor range.start
    (makeOccurrence candidate scalars (positionsOf scalars region cursor range) 0 .exact).bind
      (fun occurrence => match occurrence.ranges.head?, occurrence.ranges.getLast? with
        | some first, some last =>
          if first.start < authoredEnd then keepMatches authoredEnd cursor ranges
          else (keepMatches last.stop cursor ranges).map (fun kept => occurrence :: kept)
        | _, _ => none)

def scanEmojiLiteral : Option (List Occurrence) :=
  if region.start = region.stop then some []
  else match scalars[region.start]?, scalars[region.stop - 1]? with
    | some first, some last =>
      (emojiGraph unicode query candidate first.bytes.start last.bytes.stop).bind (fun graph =>
        if graph.1.length < query.scalars.length then some []
        else keepMatches candidate scalars region 0 region.start
          ((branchMatches unicode query graph.1).mergeSort rangeLe))
    | _, _ => none

end Graph

section Scan

variable (unicode : UnicodeCase) (query : Query)

def regionsOf (candidate : Candidate) : List Range :=
  scalarRegions (decode candidate.text) candidate.boundaries

/-- The scan of every region in its order. -/
def scanRegions (part : Candidate → List PlacedScalar → Range → Option (List Occurrence))
    (candidate : Candidate) : Option (List Occurrence) :=
  ((regionsOf candidate).mapM (part candidate (decode candidate.text))).map List.flatten

def hasEmoji (candidate : Candidate) : Bool :=
  candidate.mapping.any (fun entry => !entry.alternative.isEmpty)

def literalLess (left right : Occurrence) : Bool :=
  if left.corpusOrder = right.corpusOrder then
    match left.ranges.head?, right.ranges.head? with
    | some first, some second => decide (first.start < second.start)
    | _, _ => decide (left.column < right.column)
  else decide (left.corpusOrder < right.corpusOrder)

/-- The scan of candidates in the literal mode. -/
def scanLiterals (candidates : List Candidate) : Option (List Occurrence) :=
  if query.scalars.isEmpty then some []
  else (candidates.mapM (fun candidate =>
    if hasEmoji candidate then scanRegions (scanEmojiLiteral unicode query) candidate
    else scanRegions (scanLiteral unicode query) candidate)).map (fun found =>
      found.flatten.mergeSort (fun left right => !literalLess right left))

end Scan

end Bbr.Search
