import Bbr.Search.Candidate
import Mathlib.Data.List.Infix

/-!
# Workspace Member search

A name is compared with the names of the members by spelling, by its parts and by edit distance. The
matches of a query are listed once for each account, the best first.
-/
namespace Bbr.Bitbucket

structure WorkspaceMember where
  uuid : Bytes
  displayName : Bytes
  nickname : Bytes := []
  deriving DecidableEq, Repr

end Bbr.Bitbucket

namespace Bbr.Api.MemberSearch
open Bbr.Search (Scalar utf8Decode)
open Bbr.Bitbucket (WorkspaceMember)

def maxQueryScalars : Nat := 256

inductive Kind where
  | exact
  | spelling
  | partialMatch
  | fuzzy
  deriving DecidableEq, Repr

inductive Field where
  | displayName
  | nickname
  deriving DecidableEq, Repr

structure Match where
  member : WorkspaceMember
  matchKind : Kind
  matchedField : Field
  editDistance : Nat
  deriving DecidableEq, Repr

structure Result where
  found : List Match
  totalMatches : Nat
  exactMatches : Nat
  deriving DecidableEq, Repr

/-- A search fails on a name, or it stops at a check of the running program. -/
inductive SearchError where
  | badRequest
  | malformedResponse
  | checkFailed
  deriving DecidableEq, Repr

def space : Scalar := 0x20

/-- `count` scalars were read, one of them no space if `nonblank`. -/
def validateScalars : List Scalar → Nat → Bool → Except SearchError Unit
  | [], _, nonblank => if nonblank then .ok () else .error .badRequest
  | cp :: rest, count, nonblank =>
    if cp < 0x20 ∨ (0x7f ≤ cp ∧ cp ≤ 0x9f) then .error .badRequest
    else if maxQueryScalars < count + 1 then .error .badRequest
    else validateScalars rest (count + 1) (nonblank || cp != space)

def validateName (name : Bytes) : Except SearchError Unit :=
  match utf8Decode name with
  | none => .error .badRequest
  | some scalars => validateScalars scalars 0 false

/-- The spellings of a text and the parts of each spelling. -/
structure Text where
  forms : Fin 3 → List Scalar
  parts : Fin 3 → List (List Scalar)

variable (fold : Scalar → Scalar)

/-- Spaces at the start and behind a space are left out, the others are folded. -/
def normalizeFrom (normalized : List Scalar) : List Scalar → List Scalar
  | [] => normalized
  | cp :: rest =>
    if cp = space ∧ (normalized = [] ∨ normalized.getLast? = some space) then
      normalizeFrom normalized rest
    else normalizeFrom (normalized ++ [fold cp]) rest

def normalize (scalars : List Scalar) : List Scalar :=
  let normalized := normalizeFrom fold [] scalars
  if normalized.getLast? = some space then normalized.dropLast else normalized

/-- Umlauts lose their dots in form 1 and get an `e` in form 2. -/
def aliasScalar (form : Fin 3) (cp : Scalar) : List Scalar :=
  if cp = 0xe4 ∨ cp = 0xf6 ∨ cp = 0xfc then
    (if cp = 0xe4 then 0x61 else if cp = 0xf6 then 0x6f else 0x75) ::
      (if form = 2 then [0x65] else [])
  else if cp = 0xdf then [0x73, 0x73]
  else [cp]

def spellingOf (normalized : List Scalar) (form : Fin 3) : List Scalar :=
  if form = 0 then normalized else normalized.flatMap (aliasScalar form)

def isSeparator (cp : Scalar) : Bool := cp == 0x20 || cp == 0x2c || cp == 0x2e || cp == 0x2d

/-- The tokens of a text behind the scalars of an open one. -/
def tokenizeFrom (token : List Scalar) : List Scalar → List (List Scalar)
  | [] => if token = [] then [] else [token]
  | cp :: rest =>
    if isSeparator cp then
      (if token = [] then [] else [token]) ++ tokenizeFrom [] rest
    else tokenizeFrom (token ++ [cp]) rest

def prepare (text : Bytes) : Except SearchError Text :=
  match utf8Decode text with
  | none => .error .malformedResponse
  | some scalars =>
    let forms := spellingOf (normalize fold scalars)
    .ok { forms, parts := fun form => tokenizeFrom [] (forms form) }

structure Quality where
  kind : Kind
  distance : Nat := 0
  deriving DecidableEq, Repr

def Kind.toNat : Kind → Nat
  | .exact => 0
  | .spelling => 1
  | .partialMatch => 2
  | .fuzzy => 3

def better (lhs rhs : Quality) : Bool :=
  if lhs.kind ≠ rhs.kind then lhs.kind.toNat < rhs.kind.toNat else lhs.distance < rhs.distance

def rowCells : Nat := maxQueryScalars * 2 + 3

/-- A cell holds nothing until it is written. -/
abbrev Rows := Nat → Nat → Option Nat

def readCell (rows : Rows) (row col : Nat) : Except SearchError Nat :=
  match rows (row % 3) col with
  | some value => .ok value
  | none => .error .checkFailed

/-- The cells end with the row, and a value is a word of 16 bits. -/
def writeCell (rows : Rows) (row col value : Nat) : Except SearchError Rows :=
  if col < rowCells ∧ value < 2 ^ 16 then
    .ok (fun r c => if r = row % 3 ∧ c = col then some value else rows r c)
  else .error .checkFailed

def addWord (value step : Nat) : Except SearchError Nat :=
  if value + step < 2 ^ 16 then .ok (value + step) else .error .checkFailed

/-- The cells of the first row up to a column. -/
def firstRow : Nat → Except SearchError Rows
  | 0 => writeCell (fun _ _ => none) 0 0 0
  | col + 1 => do
    let rows ← firstRow col
    writeCell rows 0 (col + 1) (col + 1)

section
variable (query candidate : List Scalar)

/-- The price of deleting, inserting or replacing the last scalar. -/
def plainCell (row : Nat) (cp : Scalar) (col : Nat) (other : Scalar) (rows : Rows) :
    Except SearchError Rows := do
  let above ← addWord (← readCell rows (row - 1) col) 1
  let left ← addWord (← readCell rows row (col - 1)) 1
  let diagonal ← addWord (← readCell rows (row - 1) (col - 1)) (if cp = other then 0 else 1)
  writeCell rows row col (min above (min left diagonal))

/-- The price of swapping the last two, where it is less. -/
def swapCell (row : Nat) (cp : Scalar) (col : Nat) (other : Scalar) (rows : Rows) :
    Except SearchError Rows :=
  if 2 ≤ row ∧ 2 ≤ col ∧ candidate[col - 2]? = some cp ∧ query[row - 2]? = some other then do
    let current ← readCell rows row col
    let swapped ← addWord (← readCell rows (row - 2) (col - 2)) 1
    writeCell rows row col (min current swapped)
  else .ok rows

def fillCell (row : Nat) (cp : Scalar) (col : Nat) (other : Scalar) (rows : Rows) :
    Except SearchError Rows := do
  let rows ← plainCell row cp col other rows
  swapCell query candidate row cp col other rows

/-- The cells of a row from a column on. -/
def fillRow (row : Nat) (cp : Scalar) : Nat → List Scalar → Rows → Except SearchError Rows
  | _, [], rows => .ok rows
  | col, other :: rest, rows => do
    let rows ← fillCell query candidate row cp col other rows
    fillRow row cp (col + 1) rest rows

def fillRows : Nat → List Scalar → Rows → Except SearchError Rows
  | _, [], rows => .ok rows
  | row, cp :: rest, rows => do
    let rows ← writeCell rows row 0 row
    let rows ← fillRow query candidate row cp 1 candidate rows
    fillRows (row + 1) rest rows

/-- One more than the budget stands for every distance above it. -/
def distance (budget : Nat) : Except SearchError Nat :=
  let rejected := budget + 1
  if max query.length candidate.length - min query.length candidate.length > budget then
    .ok rejected
  else do
    let rows ← firstRow candidate.length
    let rows ← fillRows query candidate 1 query rows
    .ok (min (← readCell rows query.length candidate.length) rejected)

end

/-- The arrays of the assignment. Rows and columns count from 1, and column 0 holds the row that
looks for a place. -/
structure Tables where
  u : Nat → Int := fun _ => 0
  v : Nat → Int := fun _ => 0
  owner : Nat → Nat := fun _ => 0
  previous : Nat → Nat := fun _ => 0
  minimum : Nat → Int := fun _ => 0
  used : Nat → Bool := fun _ => false

def unreached : Int := 1000000

/-- The cheapest column seen so far by a pass over the columns. -/
structure Scan where
  tables : Tables
  delta : Int := unreached
  next : Nat := 0

/-- What a path pays for going from a column to another one. -/
def slack (costs : Nat → Nat → Nat) (tables : Tables) (col candidateCol : Nat) : Int :=
  costs (tables.owner col - 1) (candidateCol - 1) - tables.u (tables.owner col) -
    tables.v candidateCol

def put {α : Type} (array : Nat → α) (index : Nat) (value : α) : Nat → α :=
  fun i => if i = index then value else array i

def scanColumn (costs : Nat → Nat → Nat) (col : Nat) (scan : Scan) (candidateCol : Nat) : Scan :=
  if scan.tables.used candidateCol then scan
  else
    let cost := slack costs scan.tables col candidateCol
    let tables :=
      if cost < scan.tables.minimum candidateCol then
        { scan.tables with
          minimum := put scan.tables.minimum candidateCol cost
          previous := put scan.tables.previous candidateCol col }
      else scan.tables
    if tables.minimum candidateCol < scan.delta then
      { tables, delta := tables.minimum candidateCol, next := candidateCol }
    else { scan with tables }

def shiftColumn (delta : Int) (tables : Tables) (candidateCol : Nat) : Tables :=
  if tables.used candidateCol then
    let row := tables.owner candidateCol
    { tables with
      u := put tables.u row (tables.u row + delta)
      v := put tables.v candidateCol (tables.v candidateCol - delta) }
  else
    { tables with
      minimum := put tables.minimum candidateCol (tables.minimum candidateCol - delta) }

def scanColumns (costs : Nat → Nat → Nat) (cols col : Nat) (tables : Tables) : Scan :=
  (List.range' 1 cols).foldl (scanColumn costs col) { tables }

def shiftColumns (cols : Nat) (delta : Int) (tables : Tables) : Tables :=
  (List.range (cols + 1)).foldl (shiftColumn delta) tables

/-- From a column to the first one that no row owns. -/
def findFree (costs : Nat → Nat → Nat) (cols : Nat) :
    Nat → Nat → Tables → Except SearchError (Nat × Tables)
  | 0, _, _ => .error .checkFailed
  | fuel + 1, col, tables =>
    let scan := scanColumns costs cols col { tables with used := put tables.used col true }
    let tables := shiftColumns cols scan.delta scan.tables
    if tables.owner scan.next = 0 then .ok (scan.next, tables)
    else findFree costs cols fuel scan.next tables

/-- Every column on the way back takes the row of the one before it. -/
def augment : Nat → Nat → Tables → Except SearchError Tables
  | 0, _, _ => .error .checkFailed
  | fuel + 1, col, tables =>
    if col = 0 then .ok tables
    else
      let next := tables.previous col
      augment fuel next { tables with owner := put tables.owner col (tables.owner next) }

def enterRow (row : Nat) (tables : Tables) : Tables :=
  { tables with
    owner := put tables.owner 0 row
    minimum := fun _ => unreached
    used := fun _ => false }

def placeRow (costs : Nat → Nat → Nat) (cols row : Nat) (tables : Tables) :
    Except SearchError Tables := do
  let (col, tables) ← findFree costs cols (cols + 1) 0 (enterRow row tables)
  augment (cols + 2) col tables

def placeRows (costs : Nat → Nat → Nat) (cols budget : Nat) :
    List Nat → Tables → Except SearchError (Option Nat)
  | [], tables => .ok (some (-tables.v 0).toNat)
  | row :: rest, tables => do
    let tables ← placeRow costs cols row tables
    if (budget : Int) < -tables.v 0 then .ok none else placeRows costs cols budget rest tables

/-- What the rows cost at least, each with its cheapest column. -/
def lowerBound (costs : Nat → Nat → Nat) (rows cols budget : Nat) : Nat :=
  ((List.range rows).map (fun row =>
    (List.range cols).foldl (fun minimum col => min minimum (costs row col)) (budget + 1))).sum

def assignmentCost (costs : Nat → Nat → Nat) (rows cols budget : Nat) :
    Except SearchError (Option Nat) :=
  if rows = 0 ∨ cols < rows then .ok none
  else if budget < lowerBound costs rows cols budget then .ok none
  else placeRows costs cols budget (List.range' 1 rows) {}

def formPairs : List (Fin 3 × Fin 3) :=
  (List.finRange 3).flatMap (fun a => (List.finRange 3).map (fun b => (a, b)))

def occursIn (needle haystack : List Scalar) : Bool := decide (needle <:+: haystack)

def partAt (text : Text) (form : Fin 3) (index : Nat) : Except SearchError (List Scalar) :=
  match (text.parts form)[index]? with
  | some part => .ok part
  | none => .error .checkFailed

def partCost (query candidate : Text) (budget : Nat) (literal : Bool) (row col : Nat) :
    Except SearchError Nat :=
  if literal then do
    let part ← partAt query 0 row
    let other ← partAt candidate 0 col
    .ok (if occursIn part other then 0 else budget + 1)
  else
    formPairs.foldlM (fun cost (a, b) => do
      let part ← partAt query a row
      let other ← partAt candidate b col
      .ok (min cost (← distance part other budget))) (budget + 1)

def partMatch (query candidate : Text) (budget : Nat) (literal : Bool) :
    Except SearchError (Option Nat) :=
  let rows := (query.parts 0).length
  let cols := (candidate.parts 0).length
  if rows = 0 ∨ cols < rows then .ok none
  else do
    let costs ← (List.range rows).mapM (fun row =>
      (List.range cols).mapM (fun col => partCost query candidate budget literal row col))
    assignmentCost (fun row col => ((costs[row]?.getD [])[col]?).getD 0) rows cols budget

def fuzzyBudget (query : Text) : Nat :=
  if (query.forms 0).length < 3 then 0 else if (query.forms 0).length < 8 then 1 else 2

/-- The least distance of the spellings. -/
def formDistance (query candidate : Text) (budget : Nat) : Except SearchError Nat :=
  formPairs.foldlM (fun best (a, b) => do
    .ok (min best (← distance (query.forms a) (candidate.forms b) budget))) (budget + 1)

/-- A nickname holds the query, or the parts of a display name hold those of the query. -/
def holdsQuery (query candidate : Text) (field : Field) : Except SearchError Bool :=
  match field with
  | .nickname => .ok (occursIn (query.forms 0) (candidate.forms 0))
  | .displayName => do return (← partMatch query candidate 0 true).isSome

def fuzzyMatch (query candidate : Text) (field : Field) : Except SearchError (Option Quality) := do
  let budget := fuzzyBudget query
  let best ← formDistance query candidate budget
  let cost ← match field with
    | .nickname => .ok none
    | .displayName => partMatch query candidate budget false
  let best := match cost with
    | some cost => min best cost
    | none => best
  return if best ≤ budget then some { kind := .fuzzy, distance := best } else none

def fieldMatch (query candidate : Text) (field : Field) : Except SearchError (Option Quality) :=
  if candidate.forms 0 = [] then .ok none
  else if query.forms 0 = candidate.forms 0 then .ok (some { kind := .exact })
  else if formPairs.any (fun (a, b) => query.forms a == candidate.forms b) then
    .ok (some { kind := .spelling })
  else if query.parts 0 = [] ∨ candidate.parts 0 = [] then .ok none
  else do
    let holds ← holdsQuery query candidate field
    if holds then .ok (some { kind := .partialMatch }) else fuzzyMatch query candidate field

structure Ranked where
  toMatch : Match
  name : List Scalar
  nickname : List Scalar
  deriving DecidableEq, Repr

/-- The order of lists by their first difference, a shorter one first. -/
def order : List Nat → List Nat → Ordering
  | [], [] => .eq
  | [], _ :: _ => .lt
  | _ :: _, [] => .gt
  | a :: as, b :: bs => if a < b then .lt else if b < a then .gt else order as bs

def Field.toNat : Field → Nat
  | .displayName => 0
  | .nickname => 1

def rankedLessThan (lhs rhs : Ranked) : Bool :=
  let left : Quality := ⟨lhs.toMatch.matchKind, lhs.toMatch.editDistance⟩
  let right : Quality := ⟨rhs.toMatch.matchKind, rhs.toMatch.editDistance⟩
  if better left right then true
  else if better right left then false
  else
    let nameOrder := order lhs.name rhs.name
    if nameOrder ≠ .eq then nameOrder == .lt
    else
      let nickOrder := order lhs.nickname rhs.nickname
      if nickOrder ≠ .eq then nickOrder == .lt
      else
        let uuidOrder := order (lhs.toMatch.member.uuid.map UInt8.toNat)
          (rhs.toMatch.member.uuid.map UInt8.toNat)
        if uuidOrder ≠ .eq then uuidOrder == .lt
        else lhs.toMatch.matchedField.toNat < rhs.toMatch.matchedField.toNat

/-- The nickname counts where it matches better than the display name. -/
def betterField (display nick : Option Quality) : Option (Quality × Field) :=
  match nick with
  | none => display.map (fun quality => (quality, .displayName))
  | some nickMatch =>
    match display with
    | none => some (nickMatch, .nickname)
    | some quality =>
      if better nickMatch quality then some (nickMatch, .nickname)
      else some (quality, .displayName)

def rankMember (query : Text) (member : WorkspaceMember) :
    Except SearchError (Option Ranked) := do
  let display ← prepare fold member.displayName
  let nickname ← prepare fold member.nickname
  let displayMatch ← fieldMatch query display .displayName
  let nickMatch ← fieldMatch query nickname .nickname
  return (betterField displayMatch nickMatch).map (fun (matched, field) =>
    { toMatch := ⟨member, matched.kind, field, matched.distance⟩
      name := display.forms 0
      nickname := nickname.forms 0 })

/-- An entry takes the place of one of the same account, if it ranks before it. -/
def keepBest (entry : Ranked) : List Ranked → List Ranked
  | [] => [entry]
  | kept :: rest =>
    if kept.toMatch.member.uuid = entry.toMatch.member.uuid then
      (if rankedLessThan entry kept then entry else kept) :: rest
    else kept :: keepBest entry rest

def rankMembers (query : Text) :
    List WorkspaceMember → List Ranked → Except SearchError (List Ranked)
  | [], ranked => .ok ranked
  | member :: rest, ranked => do
    match ← rankMember fold query member with
    | none => rankMembers query rest ranked
    | some entry => rankMembers query rest (keepBest entry ranked)

def search (members : List WorkspaceMember) (name : Bytes) (limit : Option Nat) :
    Except SearchError Result := do
  validateName name
  let query ← prepare fold name
  let ranked ← rankMembers fold query members []
  let ranked := ranked.mergeSort (fun a b => !rankedLessThan b a)
  let count := min (limit.getD ranked.length) ranked.length
  return {
    found := (ranked.take count).map (fun entry => entry.toMatch)
    totalMatches := ranked.length
    exactMatches := ranked.countP (fun entry => entry.toMatch.matchKind = .exact) }

end Bbr.Api.MemberSearch
