import Bbr.Review.Draft

/-!
# Card geometry

The rows of the review cards in a Buffer are indexed in two passes: the first finds the cards and
how they are nested, the second the rails that run past a row. A card is named by its place in the
list of all cards.
-/
namespace Bbr.Tui.Cards

open Bbr.Bitbucket
open Bbr.Review

inductive SelectedVersion where
  | old
  | new
  deriving DecidableEq, Repr

inductive Owner where
  | comment (id : CommentId)
  | draft (id : TempId)
  deriving DecidableEq, Repr

inductive CardRole where
  | comment
  | commentReply
  | deletedComment
  | deletedReply
  | draft
  | draftReply
  | outcomeUnknown
  | outcomeUnknownReply
  deriving DecidableEq, Repr

inductive Part where
  | header
  | body
  | codeBody
  | suggestionLabel
  | suggestionBody
  | disclosureFooter
  | bottom
  deriving DecidableEq, Repr

/-- The line of an ancestor card down to its next sibling. -/
structure Rail where
  column : Nat
  target : Nat
  deriving DecidableEq, Repr

structure ReviewCardRow where
  owner : Owner
  scope : CommentScope := .review
  role : CardRole
  part : Part
  depth : Nat := 0
  indent : Nat := 0
  /-- The nearest rail first. -/
  rails : List Rail := []
  card : Option Nat := none
  /-- The last row of a card that a sibling follows. -/
  siblingBelow : Bool := false
  deriving DecidableEq, Repr

/-- The line numbers a Line row shows. -/
structure LineRow where
  oldNo : Option Nat
  newNo : Option Nat
  deriving DecidableEq, Repr

inductive DisclosureKind where
  | resolvedThread
  | fold
  | outdated
  | oppositeVersion
  | reviewCard
  deriving DecidableEq, Repr

inductive PlainRow where
  | fileHeader
  | hunkHeader
  | statusPlaceholder
  | line (value : LineRow)
  | linePair (left right : Option LineRow)
  | disclosure (kind : DisclosureKind)
  | snapshot
  | section
  deriving DecidableEq, Repr

inductive Row where
  | plain (row : PlainRow)
  | comment (card : ReviewCardRow)
  | draft (card : ReviewCardRow)
  deriving DecidableEq, Repr

def cardAt : Row → Option ReviewCardRow
  | .plain _ => none
  | .comment card => some card
  | .draft card => some card

def cardRow (card : ReviewCardRow) : Row :=
  match card.owner with
  | .comment _ => .comment card
  | .draft _ => .draft card

def sameCard (owner : Owner) (row : Row) : Bool :=
  match cardAt row with
  | none => false
  | some card => decide (card.owner = owner)

def Row.update (f : ReviewCardRow → ReviewCardRow) : Row → Row
  | .plain row => .plain row
  | .comment card => .comment (f card)
  | .draft card => .draft (f card)

/-- A range of rows, without `stop`. -/
structure RowRange where
  start : Nat
  stop : Nat
  deriving DecidableEq, Repr

def RowRange.holds (self : RowRange) (row : Nat) : Bool :=
  decide (self.start ≤ row) && decide (row < self.stop)

def updateRows (range : RowRange) (f : ReviewCardRow → ReviewCardRow) (rows : List Row) : List Row :=
  rows.mapIdx (fun i row => if range.holds i then row.update f else row)

structure Card where
  rows : RowRange
  subtreeEnd : Nat
  parent : Option Nat
  root : Nat
  depth : Nat
  role : CardRole
  anchored : RowRange
  nextSibling : Option Nat := none
  deriving DecidableEq, Repr

def depthAt (cards : List Card) (k : Nat) : Nat := (cards[k]?.map Card.depth).getD 0

def anchorCols : Nat := 1

def cardContentWidth (width indent : Nat) : Nat := max (width - 4 - indent) 1

structure CardIndentation where
  unit : Nat
  budget : Nat
  deriving DecidableEq, Repr

namespace CardIndentation

def shrink (deepest budget : Nat) : Nat → Nat
  | 0 => 0
  | unit + 1 => if 0 < unit ∧ budget < deepest * (unit + 1) then shrink deepest budget unit else unit + 1

def init (width deepest : Nat) : CardIndentation where
  unit := shrink deepest (cardContentWidth width anchorCols - 40)
    (if 100 ≤ width then 4 else if 80 ≤ width then 3 else if 60 ≤ width then 2 else 1)
  budget := cardContentWidth width anchorCols - 40

def offset (self : CardIndentation) (depth : Nat) : Nat :=
  anchorCols + min (depth * self.unit) self.budget

end CardIndentation

inductive LineOnSide where
  | notLine
  | absent
  | number (n : Nat)
  deriving DecidableEq, Repr

def lineOnSide (side : SelectedVersion) : Row → LineOnSide
  | .plain (.line value) => ofLine value
  | .plain (.linePair left right) => match (if side = .new then right else left) with
    | none => .absent
    | some value => ofLine value
  | _ => .notLine
where
  ofLine (value : LineRow) : LineOnSide :=
    match (if side = .new then value.newNo else value.oldNo) with
    | none => .absent
    | some n => .number n

/-- The Lines of one side since the last row that ends a run. -/
structure SourceRows where
  side : SelectedVersion
  needed : Bool := false
  ranged : Bool := false
  last : Option Nat := none
  indices : List Nat := []
  deriving DecidableEq, Repr

namespace SourceRows

def numberAt (self : SourceRows) (rows : List Row) (i : Nat) : Option Nat :=
  match rows[i]?.map (lineOnSide self.side) with
  | some (.number n) => some n
  | _ => none

def add (self : SourceRows) (rows : List Row) (index : Nat) : SourceRows :=
  if !self.needed || (self.numberAt rows index).isNone then self
  else { self with
    last := some index
    indices := if self.ranged then self.indices ++ [index] else self.indices }

def clear (self : SourceRows) : SourceRows := { self with last := none, indices := [] }

/-- The first place from `low` up to `high` whose Line is not above `top`, in ordered Lines. -/
def lowerBound (self : SourceRows) (rows : List Row) (top : Nat) : Nat → Nat → Nat → Nat
  | 0, low, _ => low
  | steps + 1, low, high =>
    if low < high then
      let middle := low + (high - low) / 2
      if ((self.indices[middle]?.bind (self.numberAt rows)).getD 0) < top then
        lowerBound self rows top steps (middle + 1) high
      else lowerBound self rows top steps low middle
    else low

def anchorStart (self : SourceRows) (rows : List Row) (top bottom : Nat) : Option Nat :=
  self.last.bind (fun last => (self.numberAt rows last).bind (fun number =>
    if number < top ∨ bottom < number then none
    else if !self.ranged then some last
    else self.indices[self.lowerBound rows top self.indices.length 0 self.indices.length]?))

/-- The Anchor of a tree asks for the Lines of its side. -/
def require (self : SourceRows) (rows : List Row) (start : Nat) : SourceRows :=
  match rows[start]?.bind cardAt with
  | none => self
  | some card =>
    if card.depth ≠ 0 then self
    else match card.scope with
      | .inline anchor =>
        if (if anchor.toLine.isSome then SelectedVersion.new else .old) ≠ self.side then self
        else { self with
          needed := true
          ranged := self.ranged || decide (anchor.top ≠ anchor.line) }
      | _ => self

end SourceRows

structure Indexing where
  rows : List Row
  cards : List Card := []
  /-- The open cards, the last one first. -/
  opened : List Nat := []
  old : SourceRows := { side := .old }
  new : SourceRows := { side := .new }
  index : Nat := 0
  tree : Nat := 0
  deriving DecidableEq, Repr

def closeCards (row : Nat) (opened : List Nat) (cards : List Card) : List Card :=
  opened.foldl (fun cards k => cards.modify k (fun card => { card with subtreeEnd := row })) cards

/-- Closes the open cards that are not above the depth, and finds the sibling among them. -/
def popCards (row depth : Nat) : List Nat → List Card → Option Nat →
    List Nat × List Card × Option Nat
  | [], cards, sibling => ([], cards, sibling)
  | k :: opened, cards, sibling =>
    if depthAt cards k < depth then (k :: opened, cards, sibling)
    else popCards row depth opened
      (cards.modify k (fun card => { card with subtreeEnd := row }))
      (if depthAt cards k = depth ∧ 0 < depth then some k else sibling)

section Index

variable (rows : List Row) (treeStarts : List Nat)

def plainStep (row : PlainRow) (s : Indexing) : Indexing :=
  let lines (f : SourceRows → SourceRows) : Indexing :=
    { s with
      cards := closeCards s.index s.opened s.cards
      opened := []
      old := f s.old
      new := f s.new
      index := s.index + 1 }
  match row with
  | .line _ => lines (fun source => source.add rows s.index)
  | .linePair _ _ => lines (fun source => source.add rows s.index)
  | .disclosure .resolvedThread => lines id
  | _ => lines SourceRows.clear

/-- The row behind a card that begins at `index`. -/
def cardEnd (owner : Owner) (index : Nat) : Nat :=
  index + 1 + ((rows.drop (index + 1)).takeWhile (sameCard owner)).length

def anchoredStart (value : ReviewCardRow) (s : Indexing) : Nat :=
  match value.scope with
  | .inline anchor =>
    if value.depth ≠ 0 then s.index
    else match anchor.top, anchor.line with
      | some top, some bottom =>
        ((if anchor.toLine.isSome then s.new else s.old).anchorStart rows top bottom).getD s.index
      | _, _ => s.index
  | _ => s.index

def treeStep (s : Indexing) : Indexing :=
  if treeStarts[s.tree]? = some s.index then
    { s with cards := closeCards s.index s.opened s.cards, opened := [], tree := s.tree + 1 }
  else s

/-- The card before its next sibling. -/
def linkSibling (k : Nat) (sibling : Option Nat) (cards : List Card) : List Card :=
  match sibling with
  | none => cards
  | some q => cards.modify q (fun card => { card with nextSibling := some k })

def markBelow (cards : List Card) (sibling : Option Nat) (written : List Row) : List Row :=
  match sibling.bind (cards[·]?) with
  | none => written
  | some previous => updateRows ⟨previous.rows.stop - 1, previous.rows.stop⟩
      (fun row => { row with siblingBelow := true }) written

/-- The card is put below the open cards that are above it. -/
def putCard (value : ReviewCardRow) (s : Indexing) : Indexing :=
  let stop := cardEnd rows value.owner s.index
  let popped := popCards s.index value.depth s.opened s.cards none
  let cards := popped.2.1
  let k := cards.length
  let card : Card :=
    { rows := ⟨s.index, stop⟩
      subtreeEnd := stop
      parent := popped.1.head?
      root := (popped.1.head?.bind (fun p => cards[p]?.map Card.root)).getD k
      depth := value.depth
      role := value.role
      anchored := ⟨anchoredStart rows value s, s.index⟩ }
  { s with
    rows := updateRows ⟨s.index, stop⟩ (fun row => { row with card := some k })
      (markBelow cards popped.2.2 s.rows)
    cards := linkSibling k popped.2.2 cards ++ [card]
    opened := k :: popped.1
    index := stop }

/-- One row that is no card, or all rows of a card. Only `card` and `siblingBelow` of a row change,
which the pass does not read. -/
def indexStep (s : Indexing) : Indexing :=
  match rows[s.index]? with
  | none => s
  | some (.plain row) => plainStep rows row s
  | some (.comment value) => putCard rows value (treeStep treeStarts s)
  | some (.draft value) => putCard rows value (treeStep treeStarts s)

def indexLoop : Nat → Indexing → Indexing
  | 0, s => s
  | steps + 1, s => if s.index < rows.length then indexLoop steps (indexStep rows treeStarts s) else s

def initialIndexing : Indexing where
  rows := rows
  old := treeStarts.foldl (fun source start => source.require rows start) { side := .old }
  new := treeStarts.foldl (fun source start => source.require rows start) { side := .new }

def indentAt (card : Card) : Nat := ((rows[card.rows.start]?.bind cardAt).map ReviewCardRow.indent).getD 0

/-- The rails past the rows of a card. -/
def railsBefore (cards : List Card) (rails : List Rail) (card : Card) : List Rail :=
  (if card.parent = none then [] else rails).dropWhile
    (fun rail => decide (card.depth ≤ depthAt cards rail.target))

/-- The rails past the cards behind it; a column holds one rail. -/
def railsAfter (cards : List Card) (rails : List Rail) (card : Card) : List Rail :=
  match card.nextSibling with
  | none => railsBefore cards rails card
  | some next =>
    if (railsBefore cards rails card).head?.map Rail.column = some (indentAt rows card) then
      railsBefore cards rails card
    else ⟨indentAt rows card, next⟩ :: railsBefore cards rails card

def railCards (cards : List Card) : List Card → List Rail → List Row → List Row
  | [], _, written => written
  | card :: rest, rails, written =>
    railCards cards rest (railsAfter rows cards rails card)
      (updateRows card.rows (fun row => { row with rails := railsBefore cards rails card }) written)

def indexCards : List Row × List Card :=
  let s := indexLoop rows treeStarts rows.length (initialIndexing rows treeStarts)
  let cards := closeCards rows.length s.opened s.cards
  (railCards rows cards cards [] s.rows, cards)

end Index

structure ActivePath where
  card : Option Nat := none
  byDepth : List (Option Nat) := []
  deriving DecidableEq, Repr

/-- A card and the cards above it. -/
def lineage (cards : List Card) : Nat → Nat → List Nat
  | 0, _ => []
  | steps + 1, k => k :: match cards[k]?.bind Card.parent with
    | none => []
    | some p => lineage cards steps p

/-- The Active Path while the cursor is on a row. -/
def activePath (rows : List Row) (cards : List Card) (cursor : Nat) : ActivePath :=
  match (rows[cursor]?.bind cardAt).bind ReviewCardRow.card with
  | none => {}
  | some k =>
    { card := some k
      byDepth := (lineage cards cards.length k).foldl
        (fun byDepth k => byDepth.set (depthAt cards k) (some k))
        (List.replicate (depthAt cards k + 1) none) }

def ActivePath.holds (cards : List Card) (self : ActivePath) (candidate : Option Nat) : Bool :=
  match self.card.bind (cards[·]?), candidate.bind (cards[·]?) with
  | some cursor, some ancestor =>
    decide (ancestor.rows.start ≤ cursor.rows.start) &&
      decide (cursor.rows.start < ancestor.subtreeEnd)
  | _, _ => false

end Bbr.Tui.Cards
