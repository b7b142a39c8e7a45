import Mathlib.Algebra.Order.Monoid.WithTop
import Mathlib.Algebra.Order.Ring.Int
import Mathlib.Data.Int.ConditionallyCompleteOrder

/-!
# Fuzzy matching

The exact matcher of the Buffer Search: two score tables over query and candidate scalars, and the
walk back that picks the highlighted positions. Scores are in units of 1/200.
-/
namespace Bbr.Search

abbrev Scalar := Nat

/-- What the generated tables say about scalars outside ASCII. -/
structure UnicodeCase where
  uppercase : Scalar → Bool
  lowercase : Scalar → Bool
  folds : Scalar → Scalar

structure Query where
  scalars : List Scalar
  caseSensitive : Bool := false
  deriving DecidableEq, Repr

inductive Calculation where
  | exact
  | fallback
  deriving DecidableEq, Repr

structure Alignment where
  positions : List Nat
  score : WithTop Int
  calculation : Calculation
  deriving DecidableEq

namespace UnicodeCase

def isUppercase (self : UnicodeCase) (scalar : Scalar) : Bool :=
  if scalar < 0x80 then decide (65 ≤ scalar ∧ scalar ≤ 90) else self.uppercase scalar

def isLowercase (self : UnicodeCase) (scalar : Scalar) : Bool :=
  if scalar < 0x80 then decide (97 ≤ scalar ∧ scalar ≤ 122) else self.lowercase scalar

def fold (self : UnicodeCase) (scalar : Scalar) : Scalar :=
  if scalar < 0x80 then (if 65 ≤ scalar ∧ scalar ≤ 90 then scalar + 32 else scalar)
  else self.folds scalar

end UnicodeCase

def exactFuzzyCellLimit : Nat := 256 * 1024

def scoreGapLeading : Int := -1
def scoreGapTrailing : Int := -1
def scoreGapInner : Int := -2
def scoreMatchConsecutive : Int := 200
def scoreMatchSlash : Int := 180
def scoreMatchWord : Int := 160
def scoreMatchCapital : Int := 140
def scoreMatchDot : Int := 120

variable (unicode : UnicodeCase) (query : Query) (scalars : List Scalar)

def equalScalar (needle candidate : Scalar) : Bool :=
  if query.caseSensitive then needle == candidate
  else unicode.fold needle == unicode.fold candidate

def branchBonus (previous : Option Scalar) (current : Scalar) : Int :=
  match previous with
  | none => scoreMatchWord
  | some before =>
    if before = 47 ∨ before = 92 then scoreMatchSlash
    else if before = 32 ∨ before = 95 ∨ before = 45 then scoreMatchWord
    else if before = 46 then scoreMatchDot
    else if unicode.isLowercase before ∧ unicode.isUppercase current then scoreMatchCapital
    else 0

def boundaryBonus (index : Nat) : Int :=
  branchBonus unicode (if index = 0 then none else scalars[index - 1]?) (scalars.getD index 0)

/-- The loop of `alignmentScore` over the positions after the first. -/
def joinedScore : Nat → List Nat → Int
  | _, [] => 0
  | before, position :: rest =>
    let gap := position - before - 1
    (if gap = 0 then scoreMatchConsecutive
      else boundaryBonus unicode scalars position + gap * scoreGapInner) + joinedScore position rest

def alignmentScore : List Nat → Int
  | [] => 0
  | first :: rest =>
    first * scoreGapLeading + boundaryBonus unicode scalars first +
      joinedScore unicode scalars first rest +
      ((scalars.length - (first :: rest).getLastD 0 - 1 : Nat) : Int) * scoreGapTrailing

/-- The best score with the query scalar on this candidate scalar, and with it here or before. -/
structure Cell where
  exact : WithBot Int
  best : WithBot Int
  deriving DecidableEq

/-- The score of a query scalar on a candidate scalar, given the row of the scalar before. -/
def exactScore (above : List Cell) (queryIndex candidateIndex : Nat) : WithBot Int :=
  if equalScalar unicode query (query.scalars.getD queryIndex 0) (scalars.getD candidateIndex 0) then
    if queryIndex = 0 then
      ((candidateIndex * scoreGapLeading + boundaryBonus unicode scalars candidateIndex : Int) :
        WithBot Int)
    else match candidateIndex with
      | 0 => ⊥
      | candidate + 1 => match above[candidate]? with
        | none => ⊥
        | some cell => max (cell.best + (boundaryBonus unicode scalars (candidate + 1) : Int))
            (cell.exact + (scoreMatchConsecutive : Int))
  else ⊥

/-- The first `n` cells of a row, with the best score of the last one. -/
def fillRow (above : List Cell) (queryIndex : Nat) : Nat → List Cell × WithBot Int
  | 0 => ([], ⊥)
  | candidate + 1 =>
    let (row, previous) := fillRow above queryIndex candidate
    let gap := if queryIndex + 1 = query.scalars.length then scoreGapTrailing else scoreGapInner
    let score := exactScore unicode query scalars above queryIndex candidate
    let best := max score (previous + (gap : Int))
    (row ++ [⟨score, best⟩], best)

/-- The first `n` rows of the tables. -/
def fillTables : Nat → List (List Cell)
  | 0 => []
  | queryIndex + 1 =>
    let rows := fillTables queryIndex
    rows ++ [(fillRow unicode query scalars (rows.getLastD []) queryIndex scalars.length).1]

def cellAt (rows : List (List Cell)) (queryIndex candidateIndex : Nat) : Cell :=
  (rows.getD queryIndex []).getD candidateIndex ⟨⊥, ⊥⟩

/-- The inner loop: the last cell before `cursor` that can carry the query scalar. -/
def findCell (rows : List (List Cell)) (queryIndex : Nat) (matchRequired : Bool) :
    Nat → Option Nat
  | 0 => none
  | candidate + 1 =>
    let cell := cellAt rows queryIndex candidate
    if cell.exact = ⊥ ∨ (matchRequired = false ∧ cell.exact ≠ cell.best) then
      findCell rows queryIndex matchRequired candidate
    else some candidate

/-- The next query scalar has to be matched right before. -/
def requiresMatch (rows : List (List Cell)) (queryIndex candidateIndex : Nat) : Bool :=
  decide (0 < queryIndex ∧ 0 < candidateIndex ∧
    (cellAt rows queryIndex candidateIndex).best =
      (cellAt rows (queryIndex - 1) (candidateIndex - 1)).exact + (scoreMatchConsecutive : Int))

def traceBack (rows : List (List Cell)) : Nat → Nat → Bool → Option (List Nat)
  | 0, _, _ => some []
  | queryIndex + 1, cursor, matchRequired =>
    match findCell rows queryIndex matchRequired cursor with
    | none => none
    | some candidate =>
      (traceBack rows queryIndex candidate (requiresMatch rows queryIndex candidate)).map
        (fun positions => positions ++ [candidate])

/-- Each query scalar on the first candidate scalar it fits, from `cursor` on. -/
def greedyPositions : List Scalar → List Scalar → Nat → Option (List Nat)
  | [], _, _ => some []
  | _ :: _, [], _ => none
  | needle :: needles, candidate :: candidates, cursor =>
    if equalScalar unicode query needle candidate then
      (greedyPositions needles candidates (cursor + 1)).map (fun positions => cursor :: positions)
    else greedyPositions (needle :: needles) candidates (cursor + 1)

def greedyAlignment : Option Alignment :=
  (greedyPositions unicode query query.scalars scalars 0).map (fun positions =>
    ⟨positions, ((alignmentScore unicode scalars positions : Int) : WithTop Int), .fallback⟩)

/-- A whole line of the query's length matches scalar by scalar or not at all. -/
def lineAlignment : Option Alignment :=
  if (query.scalars.zip scalars).all (fun pair => equalScalar unicode query pair.1 pair.2) then
    some ⟨List.range query.scalars.length, ⊤, .exact⟩
  else none

/-- The final score stands in the last cell of the last row. -/
def exactAlignment : Option Alignment :=
  let rows := fillTables unicode query scalars query.scalars.length
  match (cellAt rows (query.scalars.length - 1) (scalars.length - 1)).best with
  | none => none
  | some score => (traceBack rows query.scalars.length scalars.length false).map (fun positions =>
      ⟨positions, ((score : Int) : WithTop Int), .exact⟩)

def fuzzyAlignment (wholeLine : Bool) : Option Alignment :=
  if scalars.length < query.scalars.length then none
  else if exactFuzzyCellLimit < query.scalars.length * scalars.length then
    greedyAlignment unicode query scalars
  else if wholeLine ∧ query.scalars.length = scalars.length then lineAlignment unicode query scalars
  else exactAlignment unicode query scalars

end Bbr.Search
