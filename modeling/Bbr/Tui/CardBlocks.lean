import Bbr.Lib.Preorders
import Bbr.Tui.Cards
import Mathlib.Data.List.Chain

/-!
# Rows in blocks

The rows of a Buffer are blocks: rows that are no cards, and cards with all their rows. The depths of
the cards give a preorder, and a row without a card ends every tree.
-/
namespace Bbr.Tui.Cards

open Bbr.Lib List

structure CardBlock where
  indentation : CardIndentation
  first : ReviewCardRow
  rest : List ReviewCardRow
  alike : ∀ row ∈ rest,
    row.owner = first.owner ∧ row.depth = first.depth ∧ row.indent = first.indent
  unit : 0 < indentation.unit
  indent : first.indent = indentation.offset first.depth

def CardBlock.rows (self : CardBlock) : List Row := (self.first :: self.rest).map cardRow

inductive Block where
  | plain (row : PlainRow)
  | card (card : CardBlock)

def Block.rows : Block → List Row
  | .plain row => [.plain row]
  | .card value => value.rows

def Block.card? : Block → Option CardBlock
  | .plain _ => none
  | .card value => some value

def rowsOf (blocks : List Block) : List Row := blocks.flatMap Block.rows

def cardsOf (blocks : List Block) : List CardBlock := blocks.filterMap Block.card?

/-- Where the cards are when the first block begins at a row. -/
def rangesFrom : Nat → List Block → List RowRange
  | _, [] => []
  | i, .plain _ :: blocks => rangesFrom (i + 1) blocks
  | i, .card card :: blocks =>
    ⟨i, i + card.rows.length⟩ :: rangesFrom (i + card.rows.length) blocks

def treeStartsFrom : Nat → List Block → List Nat
  | _, [] => []
  | i, .plain _ :: blocks => treeStartsFrom (i + 1) blocks
  | i, .card card :: blocks =>
    (if card.first.depth = 0 then [i] else []) ++ treeStartsFrom (i + card.rows.length) blocks

def ranges (blocks : List Block) : List RowRange := rangesFrom 0 blocks

def treeStarts (blocks : List Block) : List Nat := treeStartsFrom 0 blocks

/-- What may come behind a block. -/
def Follows : Block → Block → Prop
  | _, .plain _ => True
  | .plain _, .card card => card.first.depth = 0
  | .card before, .card card => card.first.depth = 0 ∨
    (card.first.depth ≤ before.first.depth + 1 ∧ card.indentation = before.indentation)

/-- Whole trees of cards, each card once. -/
structure Arranged (blocks : List Block) : Prop where
  chain : (.plain .section :: blocks).IsChain Follows
  owners : ((cardsOf blocks).map (fun card => card.first.owner)).Nodup

def depthOf (blocks : List Block) (k : Nat) : Nat :=
  ((cardsOf blocks)[k]?.map (fun card => card.first.depth)).getD 0

@[simp] theorem cardAt_cardRow (row : ReviewCardRow) : cardAt (cardRow row) = some row := by
  unfold cardRow
  cases row.owner <;> rfl

@[simp] theorem rowsOf_append (a b : List Block) : rowsOf (a ++ b) = rowsOf a ++ rowsOf b :=
  flatMap_append

@[simp] theorem rowsOf_cons (block : Block) (blocks : List Block) :
    rowsOf (block :: blocks) = block.rows ++ rowsOf blocks := flatMap_cons

@[simp] theorem cardsOf_append (a b : List Block) : cardsOf (a ++ b) = cardsOf a ++ cardsOf b :=
  filterMap_append

@[simp] theorem cardsOf_plain (row : PlainRow) (blocks : List Block) :
    cardsOf (.plain row :: blocks) = cardsOf blocks := rfl

@[simp] theorem cardsOf_card (card : CardBlock) (blocks : List Block) :
    cardsOf (.card card :: blocks) = card :: cardsOf blocks := rfl

theorem CardBlock.length_pos (card : CardBlock) : 0 < card.rows.length := by
  simp [CardBlock.rows]

theorem rangesFrom_append (i : Nat) (a b : List Block) :
    rangesFrom i (a ++ b) = rangesFrom i a ++ rangesFrom (i + (rowsOf a).length) b := by
  induction a generalizing i with
  | nil => simp [rangesFrom, rowsOf]
  | cons block a ih =>
    cases block with
    | plain row => simp [rangesFrom, ih, Block.rows, Nat.add_assoc, Nat.add_comm 1]
    | card card => simp [rangesFrom, ih, Block.rows, Nat.add_assoc]

theorem treeStartsFrom_append (i : Nat) (a b : List Block) : treeStartsFrom i (a ++ b) =
    treeStartsFrom i a ++ treeStartsFrom (i + (rowsOf a).length) b := by
  induction a generalizing i with
  | nil => simp [treeStartsFrom, rowsOf]
  | cons block a ih =>
    cases block with
    | plain row => simp [treeStartsFrom, ih, Block.rows, Nat.add_assoc, Nat.add_comm 1]
    | card card => simp [treeStartsFrom, ih, Block.rows, Nat.add_assoc]

@[simp] theorem length_rangesFrom (i : Nat) (blocks : List Block) :
    (rangesFrom i blocks).length = (cardsOf blocks).length := by
  induction blocks generalizing i with
  | nil => rfl
  | cons block blocks ih =>
    cases block with
    | plain row | card card => simp [rangesFrom, ih]

variable {blocks : List Block} {i : Nat} {range : RowRange}

theorem rangesFrom_bounds (h : range ∈ rangesFrom i blocks) :
    i ≤ range.start ∧ range.start < range.stop ∧ range.stop ≤ i + (rowsOf blocks).length := by
  induction blocks generalizing i with
  | nil => cases h
  | cons block blocks ih =>
    cases block with
    | plain row =>
      have := ih h
      simp [Block.rows]
      omega
    | card card =>
      have hpos := card.length_pos
      cases mem_cons.mp h with
      | inl heq => subst heq; simp [Block.rows]; omega
      | inr h => have := ih h; simp [Block.rows]; omega

theorem rangesFrom_pairwise (i : Nat) (blocks : List Block) :
    (rangesFrom i blocks).Pairwise (fun a b => a.stop ≤ b.start) := by
  induction blocks generalizing i with
  | nil => exact .nil
  | cons block blocks ih =>
    cases block with
    | plain row => exact ih (i + 1)
    | card card =>
      exact .cons (fun range h => (rangesFrom_bounds h).1) (ih (i + card.rows.length))

theorem treeStartsFrom_bounds {start : Nat} (h : start ∈ treeStartsFrom i blocks) : i ≤ start := by
  induction blocks generalizing i with
  | nil => cases h
  | cons block blocks ih =>
    cases block with
    | plain row => have := ih h; omega
    | card card =>
      cases mem_append.mp h with
      | inl h =>
        split at h
        · simp at h; omega
        · cases h
      | inr h => have := ih h; omega

variable {k : Nat} {card : CardBlock}

theorem rangesFrom_rows (hrange : (rangesFrom i blocks)[k]? = some range)
    (hcard : (cardsOf blocks)[k]? = some card) :
    range.stop = range.start + card.rows.length ∧ ∀ r, r < card.rows.length →
      (rowsOf blocks)[range.start - i + r]? = card.rows[r]? := by
  induction blocks generalizing i k with
  | nil => cases hrange
  | cons block blocks ih =>
    cases block with
    | plain row =>
      rw [rangesFrom] at hrange
      obtain ⟨hstop, hrows⟩ := ih hrange hcard
      have hle : i + 1 ≤ range.start := (rangesFrom_bounds (mem_of_getElem? hrange)).1
      refine ⟨hstop, fun r hr => ?_⟩
      rw [← hrows r hr, rowsOf_cons, Block.rows, singleton_append,
        show range.start - i + r = range.start - (i + 1) + r + 1 by omega, getElem?_cons_succ]
    | card first =>
      cases k with
      | zero =>
        obtain rfl := Option.some.inj hrange
        obtain rfl := Option.some.inj hcard
        refine ⟨rfl, fun r hr => ?_⟩
        rw [rowsOf_cons, Block.rows, Nat.sub_self, Nat.zero_add, getElem?_append_left hr]
      | succ k =>
        rw [rangesFrom, getElem?_cons_succ] at hrange
        obtain ⟨hstop, hrows⟩ := ih hrange hcard
        have hle := (rangesFrom_bounds (mem_of_getElem? hrange)).1
        refine ⟨hstop, fun r hr => ?_⟩
        rw [← hrows r hr, rowsOf_cons, Block.rows, getElem?_append_right (by omega)]
        congr 1
        omega

theorem depth_after_plain {row : PlainRow} (h : (.plain row :: blocks).IsChain Follows) :
    ∀ card ∈ (cardsOf blocks).head?, card.first.depth = 0 := by
  induction blocks generalizing row with
  | nil => simp [cardsOf]
  | cons block blocks ih =>
    obtain ⟨hfollows, hrest⟩ := isChain_cons_cons.mp h
    cases block with
    | plain next => exact ih hrest
    | card card =>
      intro next hnext
      obtain rfl : card = next := by simpa using hnext
      exact hfollows

theorem cards_chain {first : Block} (h : (first :: blocks).IsChain Follows) :
    (cardsOf (first :: blocks)).IsChain (fun a b => b.first.depth = 0 ∨
      (b.first.depth ≤ a.first.depth + 1 ∧ b.indentation = a.indentation)) := by
  induction blocks generalizing first with
  | nil =>
    cases first with
    | plain row => exact .nil
    | card card => exact .singleton card
  | cons block blocks ih =>
    obtain ⟨hfollows, hrest⟩ := isChain_cons_cons.mp h
    cases first with
    | plain row => exact ih hrest
    | card card =>
      cases block with
      | plain row =>
        have hroot := depth_after_plain hrest
        have hchain := ih hrest
        rw [cardsOf_card]
        rw [cardsOf_plain] at hchain ⊢
        cases hcards : cardsOf blocks with
        | nil => exact .singleton _
        | cons next cards =>
          rw [hcards] at hroot hchain
          exact isChain_cons_cons.mpr ⟨.inl (hroot next rfl), hchain⟩
      | card next =>
        exact isChain_cons_cons.mpr ⟨hfollows, ih hrest⟩

theorem depthOf_eq (h : (cardsOf blocks)[k]? = some card) : depthOf blocks k = card.first.depth := by
  rw [depthOf, h]
  rfl

theorem depthOf_head (done : List Block) (todo : List Block) :
    depthOf (done ++ todo) (cardsOf done).length =
      ((cardsOf todo).head?.map (fun card => card.first.depth)).getD 0 := by
  rw [depthOf, cardsOf_append, getElem?_append_right (Nat.le_refl _), Nat.sub_self, head?_eq_getElem?]

theorem depthOf_plain {done todo : List Block} {row : PlainRow}
    (h : (.plain row :: todo).IsChain Follows) :
    depthOf (done ++ .plain row :: todo) (cardsOf done).length = 0 := by
  have hroot := depth_after_plain h
  rw [depthOf_head, cardsOf_plain]
  cases hcards : (cardsOf todo).head? with
  | none => rfl
  | some card => exact hroot card (by rw [hcards]; rfl)

theorem Arranged.next (h : Arranged blocks) {k : Nat} {a b : CardBlock}
    (ha : (cardsOf blocks)[k]? = some a) (hb : (cardsOf blocks)[k + 1]? = some b) :
    b.first.depth = 0 ∨ (b.first.depth ≤ a.first.depth + 1 ∧ b.indentation = a.indentation) := by
  have hchain := cards_chain h.chain
  obtain ⟨hlt, rfl⟩ := List.getElem?_eq_some_iff.mp ha
  obtain ⟨hlt', rfl⟩ := List.getElem?_eq_some_iff.mp hb
  exact List.isChain_iff_getElem.mp hchain k hlt'

theorem Arranged.steps (h : Arranged blocks) :
    Preorder.Steps (depthOf blocks) (cardsOf blocks).length := by
  constructor
  · have := @depthOf_plain [] blocks .section h.chain
    exact this
  intro k hk
  have ha := getElem?_eq_getElem (l := cardsOf blocks) (i := k) (by omega)
  have hb := getElem?_eq_getElem (l := cardsOf blocks) (i := k + 1) hk
  have := h.next ha hb
  rw [depthOf_eq ha, depthOf_eq hb]
  omega

theorem Arranged.indentation (h : Arranged blocks) {j : Nat} {a b : CardBlock}
    (habove : Preorder.Above (depthOf blocks) j k) (ha : (cardsOf blocks)[j]? = some a)
    (hb : (cardsOf blocks)[k]? = some b) : b.indentation = a.indentation := by
  induction k generalizing b with
  | zero => exact absurd habove.1 (Nat.not_lt_zero j)
  | succ k ih =>
    have hlt := (List.getElem?_eq_some_iff.mp hb).1
    have hk := List.getElem?_eq_getElem (l := cardsOf blocks) (i := k) (by omega)
    have hpos := habove.depth_lt
    rw [depthOf_eq hb] at hpos
    have hsame := ((h.next hk hb).resolve_left (by omega)).2
    by_cases heq : j = k
    · subst heq
      obtain rfl := Option.some.inj (ha.symm.trans hk)
      exact hsame
    · rw [hsame]
      exact ih (habove.between (by have := habove.1; omega) (Nat.le_succ k)) hk

end Bbr.Tui.Cards
