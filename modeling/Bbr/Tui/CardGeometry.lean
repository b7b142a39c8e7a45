import Bbr.Tui.CardRails
import Mathlib.Order.Bounds.Basic

/-!
# The geometry of the cards

What the indexed cards say about the forest of Replies, for rows that are blocks.
-/
namespace Bbr.Tui.Cards

open Bbr.Lib List Option Preorder
open Relation

def ParentOf (cards : List Card) (p k : Nat) : Prop := cards[k]?.bind Card.parent = some p

/-- No tree begins between two cards. -/
def SameTree (treeStarts : List Nat) (a b : Card) : Prop :=
  ∀ start ∈ treeStarts, ¬(a.rows.start < start ∧ start ≤ b.rows.start)

/-- The cards of some rows, as the forest of Replies has them. -/
structure Geometry (built : List Row) (treeStarts : List Nat) (limit : Nat) (rows : List Row)
    (cards : List Card) : Prop where
  bare : rows.map Row.bare = built.map Row.bare
  range : ∀ (k : Nat) (card : Card), cards[k]? = some card → card.rows.start < card.rows.stop ∧
    ∃ owner, ∀ r, card.rows.holds r = true ↔ ∃ row, rows[r]? = some row ∧ sameCard owner row = true
  row : ∀ (r : Nat) value, rows[r]?.bind cardAt = some value → ∃ (k : Nat) (card : Card), value.card = some k ∧
    cards[k]? = some card ∧ card.rows.holds r = true ∧ card.depth = value.depth
  parent : ∀ (k : Nat) (card : Card), cards[k]? = some card → 0 < card.depth → ∃ (p : Nat) (parent : Card),
    card.parent = some p ∧ cards[p]? = some parent ∧ p < k ∧ parent.depth + 1 = card.depth ∧
      SameTree treeStarts parent card ∧
        ∀ (i : Nat) (other : Card), p < i → i < k → cards[i]? = some other → other.depth ≠ parent.depth
  rootless : ∀ (k : Nat) (card : Card), cards[k]? = some card → card.depth = 0 → card.parent = none
  root : ∀ (k : Nat) (card : Card), cards[k]? = some card → ReflTransGen (ParentOf cards) card.root k ∧
    ∃ top : Card, cards[card.root]? = some top ∧ top.parent = none
  subtreeEnd : ∀ (k : Nat) (card : Card), cards[k]? = some card → IsGreatest {stop | ∃ (j : Nat) (below : Card),
    ReflTransGen (ParentOf cards) k j ∧ cards[j]? = some below ∧ below.rows.stop = stop}
      card.subtreeEnd
  active : ∀ (cursor a : Nat), (activePath rows cards cursor).holds cards (some a) = true ↔
    ∃ k, (rows[cursor]?.bind cardAt).bind ReviewCardRow.card = some k ∧
      ReflTransGen (ParentOf cards) a k
  sibling : ∀ (k : Nat) (card : Card) (s : Nat), cards[k]? = some card → (card.nextSibling = some s ↔
    card.parent.isSome ∧ k < s ∧ cards[s]?.bind Card.parent = card.parent ∧
      ∀ i, k < i → i < s → cards[i]?.bind Card.parent ≠ card.parent)
  columns : ∀ (r : Nat) value, rows[r]?.bind cardAt = some value →
    (value.rails.map Rail.column).Pairwise (fun a b => b < a)
  rails : ∀ (r : Nat) value k rail, rows[r]?.bind cardAt = some value → value.card = some k →
    (rail ∈ value.rails ↔ ∃ (j : Nat) (above : Card), TransGen (ParentOf cards) j k ∧ cards[j]? = some above ∧
      above.nextSibling = some rail.target ∧ indentAt built above = rail.column ∧
        ∀ (i : Nat) (outer : Card), TransGen (ParentOf cards) i j → cards[i]? = some outer →
          outer.nextSibling.isSome → indentAt built outer ≠ rail.column)
  shared : ∀ (i j : Nat) (a b : Card), TransGen (ParentOf cards) i j → cards[i]? = some a → cards[j]? = some b →
    indentAt built a = indentAt built b → indentAt built a = limit
  spans : ∀ (r : Nat) value k j s (a b : Card), rows[r]?.bind cardAt = some value → value.card = some k →
    cards[j]? = some a → a.nextSibling = some s → cards[s]? = some b →
      (TransGen (ParentOf cards) j k ↔ a.rows.stop ≤ r ∧ r < b.rows.start)

section Rows

variable {blocks : List Block} {k : Nat} {range : RowRange}

theorem row_inside {r : Nat} {card : CardBlock} (hrange : (ranges blocks)[k]? = some range)
    (hcard : (cardsOf blocks)[k]? = some card) (hr : range.holds r = true) :
    ∃ value, (rowsOf blocks)[r]?.bind cardAt = some value ∧
      value.owner = card.first.owner ∧ value.depth = card.first.depth ∧
        value.indent = card.first.indent := by
  obtain ⟨hstop, hrows⟩ := rangesFrom_rows hrange hcard
  rw [RowRange.holds_iff] at hr
  have hrow := hrows (r - range.start) (by omega)
  rw [show range.start - 0 + (r - range.start) = r by omega] at hrow
  have hlt : r - range.start < (card.first :: card.rest).length := by
    rw [← length_map (f := cardRow)]
    exact Nat.sub_lt_left_of_lt_add hr.1 (hstop ▸ hr.2)
  rw [hrow, CardBlock.rows, getElem?_map, getElem?_eq_getElem hlt, map_some, bind_some, cardAt_cardRow]
  refine ⟨_, rfl, ?_⟩
  cases mem_cons.mp (getElem_mem hlt) with
  | inl heq => rw [heq]; exact ⟨rfl, rfl, rfl⟩
  | inr hmem => exact card.alike _ hmem

theorem range_of_row {i r : Nat} {value : ReviewCardRow}
    (h : (rowsOf blocks)[r]?.bind cardAt = some value) :
    ∃ (k : Nat) (range : RowRange), (rangesFrom i blocks)[k]? = some range ∧
      range.holds (i + r) = true := by
  induction blocks generalizing i r with
  | nil => cases h
  | cons block blocks ih =>
    rw [rowsOf_cons] at h
    by_cases hr : r < block.rows.length
    · cases block with
      | plain row =>
        obtain rfl : r = 0 := Nat.lt_one_iff.mp hr
        cases h
      | card card =>
        refine ⟨0, _, rfl, RowRange.holds_iff.mpr ⟨Nat.le_add_right _ _, ?_⟩⟩
        exact Nat.add_lt_add_left hr i
    · rw [getElem?_append_right (by omega)] at h
      cases block with
      | plain row =>
        have hpos : 1 ≤ r := Nat.not_lt.mp hr
        obtain ⟨k, range, hrange, hholds⟩ := ih (i := i + 1) h
        refine ⟨k, range, hrange, ?_⟩
        rw [← hholds, Block.rows, length_singleton]
        congr 1
        omega
      | card card =>
        obtain ⟨k, range, hrange, hholds⟩ := ih (i := i + card.rows.length) h
        refine ⟨k + 1, range, hrange, ?_⟩
        rw [← hholds]
        congr 1
        have : card.rows.length ≤ r := Nat.not_lt.mp hr
        rw [Block.rows]
        omega

theorem card_of_range (h : (ranges blocks)[k]? = some range) :
    ∃ card : CardBlock, (cardsOf blocks)[k]? = some card := by
  have hlt := (List.getElem?_eq_some_iff.mp h).1
  rw [ranges, length_rangesFrom] at hlt
  exact ⟨_, List.getElem?_eq_getElem hlt⟩

theorem ranges_apart {j : Nat} {a b : RowRange} (ha : (ranges blocks)[j]? = some a)
    (hb : (ranges blocks)[k]? = some b) (hlt : j < k) : a.stop ≤ b.start := by
  obtain ⟨hj, rfl⟩ := List.getElem?_eq_some_iff.mp ha
  obtain ⟨hk, rfl⟩ := List.getElem?_eq_some_iff.mp hb
  exact List.pairwise_iff_getElem.mp (rangesFrom_pairwise 0 blocks) j k hj hk hlt

theorem treeStart_root {i start : Nat} (h : start ∈ treeStartsFrom i blocks) :
    ∃ (k : Nat) (range : RowRange), (rangesFrom i blocks)[k]? = some range ∧
      range.start = start ∧ depthOf blocks k = 0 := by
  induction blocks generalizing i with
  | nil => cases h
  | cons block blocks ih =>
    cases block with
    | plain row => exact ih h
    | card card =>
      cases mem_append.mp h with
      | inl h =>
        by_cases hroot : card.first.depth = 0
        · rw [if_pos hroot, mem_singleton] at h
          exact ⟨0, _, rfl, h.symm, hroot⟩
        · rw [if_neg hroot] at h
          cases h
      | inr h =>
        obtain ⟨k, range, hrange, hstart, hdepth⟩ := ih h
        exact ⟨k + 1, range, hrange, hstart, hdepth⟩

end Rows

section Forest

variable {blocks : List Block} {written : List Row} {cards : List Card}

variable {card : Card} {k : Nat}

section

variable (h : FirstPass blocks written cards)
include h

theorem FirstPass.lt (hcard : cards[k]? = some card) : k < (cardsOf blocks).length := by
  rw [← h.length]
  exact (List.getElem?_eq_some_iff.mp hcard).1

theorem FirstPass.block (hcard : cards[k]? = some card) : ∃ block, (cardsOf blocks)[k]? = some block :=
  ⟨_, getElem?_eq_getElem (h.lt hcard)⟩

variable {j : Nat}

theorem FirstPass.ordered {a b : Card} (ha : cards[j]? = some a) (hb : cards[k]? = some b)
    (hlt : j < k) : a.rows.stop ≤ b.rows.start :=
  ranges_apart (h.facts j a ha).rows (h.facts k b hb).rows hlt

theorem FirstPass.nested : Nested (depthOf blocks) cards := by
  refine ⟨fun k card hcard => (h.facts k card hcard).depth,
    fun k card hcard => (h.facts k card hcard).parent, fun k card s hcard hs => ?_,
    fun j k a b => h.ordered⟩
  obtain ⟨hlt, hnext, -⟩ := ((h.facts k card hcard).sibling s).mp hs
  rw [h.length]
  exact ⟨hlt, hnext⟩

end

theorem depthOf_beyond (h : (cardsOf blocks).length ≤ k) : depthOf blocks k = 0 := by
  rw [depthOf, getElem?_eq_none h]
  rfl

section

variable (h : FirstPass blocks written cards)
include h

theorem FirstPass.parentOf : ParentOf cards = fun p c => (path (depthOf blocks) c).head? = some p := by
  funext p c
  rw [ParentOf]
  cases hcard : cards[c]? with
  | none =>
    have hge : (cardsOf blocks).length ≤ c := by
      rw [← h.length]
      exact getElem?_eq_none_iff.mp hcard
    rw [path_root (depthOf_beyond hge)]
    simp
  | some card => rw [bind_some, (h.facts c card hcard).parent]

theorem FirstPass.above : TransGen (ParentOf cards) j k ↔ Preorder.Above (depthOf blocks) j k := by
  rw [h.parentOf, above_iff_transGen]

theorem FirstPass.lineage :
    ReflTransGen (ParentOf cards) j k ↔ k = j ∨ Preorder.Above (depthOf blocks) j k := by
  rw [reflTransGen_iff_eq_or_transGen, h.above]

theorem FirstPass.parent (harranged : Arranged blocks) (hcard : cards[k]? = some card)
    (hpos : 0 < card.depth) :
    ∃ (p : Nat) (parent : Card), card.parent = some p ∧ cards[p]? = some parent ∧ p < k ∧
      parent.depth + 1 = card.depth ∧ SameTree (treeStarts blocks) parent card ∧
        ∀ (i : Nat) (other : Card), p < i → i < k → cards[i]? = some other →
          other.depth ≠ parent.depth := by
  have hfacts := h.facts k card hcard
  have hlt := h.lt hcard
  rw [hfacts.depth] at hpos
  obtain ⟨p, hp⟩ := isSome_iff_exists.mp ((harranged.steps.parent_isSome hlt).mpr hpos)
  obtain ⟨hpk, hdepth, hdeep⟩ := (harranged.steps.parent_iff hlt).mp hp
  have hparent := getElem?_eq_getElem (l := cards) (i := p) (by rw [h.length]; omega)
  have hown := (h.facts p _ hparent).depth
  refine ⟨p, _, by rw [hfacts.parent, hp], hparent, hpk, by rw [hown, hfacts.depth, hdepth], ?_, ?_⟩
  · rintro start hstart ⟨hafter, hupto⟩
    obtain ⟨i, range, hrange, heq, hroot⟩ := treeStart_root hstart
    have hbounds := rangesFrom_bounds (mem_of_getElem? hrange)
    have hrangep := (h.facts p _ hparent).rows
    have hpi : p < i := by
      by_contra hge
      by_cases hsame : i = p
      · subst hsame
        obtain rfl := some.inj (hrange.symm.trans hrangep)
        omega
      · have := ranges_apart hrange hrangep (by omega)
        omega
    by_cases hik : i < k
    · have := hdeep i hpi hik
      omega
    by_cases hsame : i = k
    · subst hsame
      omega
    · have hboundsk := rangesFrom_bounds (mem_of_getElem? hfacts.rows)
      have := ranges_apart hfacts.rows hrange (by omega)
      omega
  · intro i other hpi hik hother
    have := hdeep i hpi hik
    rw [hown, (h.facts i other hother).depth]
    omega

theorem FirstPass.rootless (hcard : cards[k]? = some card) (hroot : card.depth = 0) :
    card.parent = none := by
  rw [(h.facts k card hcard).depth] at hroot
  rw [(h.facts k card hcard).parent, path_root hroot]
  rfl

end

theorem path_top {depth : Nat → Nat} {top : Nat} (h : (path depth k).getLast?.getD k = top) :
    (k = top ∨ Preorder.Above depth top k) ∧ path depth top = [] := by
  induction k using Nat.strong_induction_on with
  | _ k ih =>
    cases hpath : path depth k with
    | nil =>
      rw [hpath] at h
      obtain rfl : k = top := h
      exact ⟨.inl rfl, hpath⟩
    | cons p rest =>
      have hhead : (path depth k).head? = some p := by rw [hpath, head?_cons]
      have habove := (head_path.mp hhead).1
      rw [path_last hhead] at h
      obtain ⟨hown, htop⟩ := ih p habove.1 h
      refine ⟨.inr ?_, htop⟩
      cases hown with
      | inl heq => rwa [← heq]
      | inr hp => exact hp.trans habove

section

variable (h : FirstPass blocks written cards)
include h

section

variable (hcard : cards[k]? = some card)
include hcard

theorem FirstPass.root : ReflTransGen (ParentOf cards) card.root k ∧
      ∃ top : Card, cards[card.root]? = some top ∧ top.parent = none := by
  obtain ⟨hown, hpath⟩ := path_top (h.facts k card hcard).root.symm
  have hle : card.root ≤ k := by
    cases hown with
    | inl heq => omega
    | inr habove => exact Nat.le_of_lt habove.1
  have hlt := h.lt hcard
  have htop := getElem?_eq_getElem (l := cards) (i := card.root) (by rw [h.length]; omega)
  refine ⟨h.lineage.mpr hown, _, htop, ?_⟩
  rw [(h.facts _ _ htop).parent, hpath]
  rfl

theorem FirstPass.subtreeEnd :
    IsGreatest {stop | ∃ (j : Nat) (below : Card),
      ReflTransGen (ParentOf cards) k j ∧ cards[j]? = some below ∧ below.rows.stop = stop}
        card.subtreeEnd := by
  have hends := h.ends k card hcard
  constructor
  · obtain ⟨j, range, hj, hown, hrange, hstop⟩ := hends.last
    have hbelow := getElem?_eq_getElem (l := cards) (i := j) (by rwa [h.length])
    refine ⟨j, _, h.lineage.mpr hown, hbelow, ?_⟩
    obtain rfl := some.inj (hrange.symm.trans (h.facts j _ hbelow).rows)
    exact hstop
  · rintro stop ⟨j, below, hown, hbelow, rfl⟩
    exact hends.inside j below.rows (h.lt hbelow) (h.lineage.mp hown) (h.facts j below hbelow).rows

/-- A card begins inside a subtree exactly when it is of the subtree. -/
theorem FirstPass.inside {a : Nat} {ancestor : Card} (hancestor : cards[a]? = some ancestor) :
    (ancestor.rows.start ≤ card.rows.start ∧ card.rows.start < ancestor.subtreeEnd) ↔
      ReflTransGen (ParentOf cards) a k := by
  have hends := h.ends a ancestor hancestor
  have hrange := (h.facts k card hcard).rows
  have hbounds := rangesFrom_bounds (mem_of_getElem? hrange)
  have hancestorBounds := rangesFrom_bounds (mem_of_getElem? (h.facts a ancestor hancestor).rows)
  rw [h.lineage]
  constructor
  · rintro ⟨hstart, hend⟩
    by_contra hnot
    rw [not_or] at hnot
    have hlt : a < k := by
      by_contra hge
      have := h.ordered hcard hancestor (by omega)
      omega
    have := hends.outside k card.rows (h.lt hcard) hlt hnot.2 hrange
    omega
  · intro hown
    have hstop := hends.inside k card.rows (h.lt hcard) hown hrange
    refine ⟨?_, by omega⟩
    cases hown with
    | inl heq =>
      subst heq
      obtain rfl := some.inj (hcard.symm.trans hancestor)
      exact Nat.le_refl _
    | inr habove =>
      have := h.ordered hancestor hcard habove.1
      omega

theorem FirstPass.sibling (harranged : Arranged blocks) (s : Nat) :
    card.nextSibling = some s ↔ card.parent.isSome ∧ k < s ∧ cards[s]?.bind Card.parent = card.parent ∧
        ∀ i, k < i → i < s → cards[i]?.bind Card.parent ≠ card.parent := by
  have hfacts := h.facts k card hcard
  have hparents : ∀ (i p : Nat), cards[i]?.bind Card.parent = some p ↔
      (path (depthOf blocks) i).head? = some p := by
    intro i p
    exact iff_of_eq (congrFun (congrFun h.parentOf p) i)
  rw [hfacts.sibling]
  cases hp : (path (depthOf blocks) k).head? with
  | none =>
    have hroot : ¬0 < depthOf blocks k := by
      rw [← harranged.steps.parent_isSome (h.lt hcard), hp]
      exact Bool.false_ne_true
    rw [hfacts.parent, hp]
    simp [hroot]
  | some p =>
    have hpos : 0 < depthOf blocks k := by
      rw [← harranged.steps.parent_isSome (h.lt hcard), hp]
      rfl
    rw [hfacts.parent, hp]
    simp only [ne_eq, hparents, hpos, and_true, isSome_some, true_and]
    constructor
    · rintro ⟨hlt, hnext⟩
      exact (harranged.steps.next_iff hlt hp).mp hnext
    intro hnext
    have hlt : s < (cardsOf blocks).length := by
      by_contra hge
      have hpath := hnext.2.1
      rw [path_root (depthOf_beyond (by omega))] at hpath
      cases hpath
    exact ⟨hlt, (harranged.steps.next_iff hlt hp).mpr hnext⟩

/-- The rows from a card to its next sibling are those of the cards below it. -/
theorem FirstPass.spans {s r : Nat} {a b : Card} (ha : cards[j]? = some a)
    (hs : a.nextSibling = some s) (hb : cards[s]? = some b)
    (hr : card.rows.holds r = true) :
    TransGen (ParentOf cards) j k ↔ a.rows.stop ≤ r ∧ r < b.rows.start := by
  obtain ⟨-, ⟨hjs, hsame, hdeep⟩, -⟩ := ((h.facts j a ha).sibling s).mp hs
  rw [RowRange.holds_iff] at hr
  rw [h.above]
  constructor
  · intro habove
    have hks : k < s := by
      by_contra hge
      have := habove.2 s hjs (by omega)
      omega
    have := h.ordered ha hcard habove.1
    have := h.ordered hcard hb hks
    omega
  · rintro ⟨hafter, hbefore⟩
    have hjk : j < k := by
      by_contra hge
      by_cases heq : k = j
      · subst heq
        obtain rfl := some.inj (ha.symm.trans hcard)
        omega
      · have := h.ordered hcard ha (by omega)
        have := rangesFrom_bounds (mem_of_getElem? (h.facts j a ha).rows)
        omega
    have hks : k < s := by
      by_contra hge
      by_cases heq : k = s
      · subst heq
        obtain rfl := some.inj (hb.symm.trans hcard)
        omega
      · have := h.ordered hb hcard (by omega)
        have := rangesFrom_bounds (mem_of_getElem? (h.facts s b hb).rows)
        omega
    exact ⟨hjk, fun i hi hik => hdeep i hi (by omega)⟩

end

end

end Forest

namespace CardIndentation

variable {self : CardIndentation} {a b : Nat}

theorem offset_mono (h : a ≤ b) : self.offset a ≤ self.offset b := by
  have := Nat.mul_le_mul_right self.unit h
  simp only [offset]
  omega

theorem offset_shared (hunit : 0 < self.unit) (h : a < b) (heq : self.offset a = self.offset b) :
    self.offset a = anchorCols + self.budget := by
  have := Nat.mul_lt_mul_of_pos_right h hunit
  simp only [offset] at heq ⊢
  omega

end CardIndentation

section Columns

variable {blocks : List Block} {written : List Row} {cards : List Card} {k : Nat}

section

variable (h : FirstPass blocks written cards)
include h

theorem FirstPass.indentAt {card : Card} {block : CardBlock} (hcard : cards[k]? = some card)
    (hblock : (cardsOf blocks)[k]? = some block) :
    indentAt (rowsOf blocks) card = block.indentation.offset (depthOf blocks k) := by
  have hrange := (h.facts k card hcard).rows
  have hbounds := rangesFrom_bounds (mem_of_getElem? hrange)
  obtain ⟨value, hvalue, -, -, hindent⟩ := row_inside hrange hblock
    (RowRange.holds_iff.mpr ⟨Nat.le_refl _, hbounds.2.1⟩)
  rw [Cards.indentAt, hvalue, map_some, getD_some, hindent, block.indent, depthOf_eq hblock]

theorem FirstPass.indents (harranged : Arranged blocks) {i j : Nat} {a b : Card}
    (habove : TransGen (ParentOf cards) i j) (ha : cards[i]? = some a) (hb : cards[j]? = some b) :
    Cards.indentAt (rowsOf blocks) a ≤ Cards.indentAt (rowsOf blocks) b := by
  rw [h.above] at habove
  obtain ⟨above, habove'⟩ := h.block ha
  obtain ⟨below, hbelow⟩ := h.block hb
  rw [h.indentAt ha habove', h.indentAt hb hbelow, harranged.indentation habove habove' hbelow]
  exact CardIndentation.offset_mono (Nat.le_of_lt habove.depth_lt)

theorem FirstPass.shared (harranged : Arranged blocks) {budget : Nat}
    (hbudget : ∀ card ∈ cardsOf blocks, card.indentation.budget = budget) {i j : Nat} {a b : Card}
    (habove : TransGen (ParentOf cards) i j) (ha : cards[i]? = some a) (hb : cards[j]? = some b)
    (heq : Cards.indentAt (rowsOf blocks) a = Cards.indentAt (rowsOf blocks) b) :
    Cards.indentAt (rowsOf blocks) a = anchorCols + budget := by
  rw [h.above] at habove
  obtain ⟨above, habove'⟩ := h.block ha
  obtain ⟨below, hbelow⟩ := h.block hb
  rw [h.indentAt ha habove', h.indentAt hb hbelow, harranged.indentation habove habove' hbelow] at heq
  rw [h.indentAt ha habove', ← hbudget above (mem_of_getElem? habove')]
  exact CardIndentation.offset_shared above.unit habove.depth_lt heq

theorem FirstPass.indentOf (harranged : Arranged blocks) (hk : k < cards.length) :
    (path (depthOf blocks) k).Pairwise
      (fun a b => indentOf (rowsOf blocks) cards b ≤ indentOf (rowsOf blocks) cards a) := by
  refine (path_falling (depthOf blocks) k).imp_of_mem (fun {a b} ha hb hlt => ?_)
  have hak := mem_path.mp ha
  have hbk := mem_path.mp hb
  have hab : Preorder.Above (depthOf blocks) b a := hbk.between hlt.1 (Nat.le_of_lt hak.1)
  have hcarda := getElem?_eq_getElem (l := cards) (i := a) (by have := hak.1; omega)
  have hcardb := getElem?_eq_getElem (l := cards) (i := b) (by have := hbk.1; omega)
  rw [Cards.indentOf, Cards.indentOf, hcarda, hcardb]
  exact h.indents harranged (h.above.mpr hab) hcardb hcarda

end

end Columns

section Indexed

variable {blocks : List Block} {written : List Row} {cards : List Card}

theorem railCards_bare {rows : List Row} {rest : List Card} {rails : List Rail} :
    (railCards rows cards rest rails written).map Row.bare = written.map Row.bare := by
  induction rest generalizing rails written with
  | nil => rfl
  | cons card rest ih =>
    rw [railCards, ih, updateRows_bare]
    exact fun _ => rfl

section

variable (h : FirstPass blocks written cards)
include h

theorem FirstPass.railsBare : (railCards (rowsOf blocks) cards cards [] written).map Row.bare =
      (rowsOf blocks).map Row.bare :=
  railCards_bare.trans h.bare

theorem FirstPass.row {r : Nat} {value : ReviewCardRow}
    (hrow : (railCards (rowsOf blocks) cards cards [] written)[r]?.bind cardAt = some value) :
    ∃ (k : Nat) (card : Card) (block : CardBlock), cards[k]? = some card ∧
      (cardsOf blocks)[k]? = some block ∧ card.rows.holds r = true ∧ value.card = some k ∧
        value.owner = block.first.owner ∧ value.depth = depthOf blocks k ∧
          value.rails = railsOf (rowsOf blocks) cards (path (depthOf blocks) k) := by
  have hbare := cardAt_bare h.railsBare r
  rw [hrow, map_some] at hbare
  obtain ⟨built, hbuilt, hsame⟩ := map_eq_some_iff.mp hbare.symm
  obtain ⟨k, range, hrange, hholds⟩ := range_of_row (i := 0) hbuilt
  rw [Nat.zero_add] at hholds
  obtain ⟨block, hblock⟩ := card_of_range hrange
  have hlt := (List.getElem?_eq_some_iff.mp hblock).1
  have hcard := List.getElem?_eq_getElem (l := cards) (i := k) (by rwa [h.length])
  obtain rfl := some.inj (hrange.symm.trans (h.facts k _ hcard).rows)
  obtain ⟨inside, hinside, howner, hdepth, -⟩ := row_inside hrange hblock hholds
  obtain rfl := some.inj (hinside.symm.trans hbuilt)
  have hmarked := h.marked k _ r hcard hholds
  rw [h.nested.railCards hcard hholds] at hrow
  cases hwritten : written[r]? with
  | none =>
    rw [hwritten] at hrow
    cases hrow
  | some row =>
    rw [hwritten, map_some, bind_some, cardAt_update] at hrow
    rw [hwritten, bind_some] at hmarked
    obtain ⟨before, hbefore, rfl⟩ := map_eq_some_iff.mp hrow
    rw [hbefore, bind_some] at hmarked
    have hownerBare := congrArg ReviewCardRow.owner hsame
    have hdepthBare := congrArg ReviewCardRow.depth hsame
    refine ⟨k, _, block, hcard, hblock, hholds, hmarked, ?_, ?_, rfl⟩
    · exact hownerBare.symm.trans howner
    · rw [depthOf_eq hblock, ← hdepth]
      exact hdepthBare.symm

theorem FirstPass.range (harranged : Arranged blocks) {k : Nat} {card : Card} {block : CardBlock}
    (hcard : cards[k]? = some card) (hblock : (cardsOf blocks)[k]? = some block) (r : Nat) :
    card.rows.holds r = true ↔
      ∃ row, (railCards (rowsOf blocks) cards cards [] written)[r]? = some row ∧
        sameCard block.first.owner row = true := by
  constructor
  · intro hr
    obtain ⟨inside, hinside, howner, -⟩ := row_inside (h.facts k card hcard).rows hblock hr
    have hbare := cardAt_bare h.railsBare r
    rw [hinside] at hbare
    obtain ⟨value, hvalue, hsame⟩ := map_eq_some_iff.mp hbare
    obtain ⟨row, hrow, hat⟩ := bind_eq_some_iff.mp hvalue
    refine ⟨row, hrow, ?_⟩
    have hownerBare := congrArg ReviewCardRow.owner hsame
    rw [sameCard, hat]
    exact decide_eq_true (hownerBare.trans howner)
  · rintro ⟨row, hrow, hsame⟩
    rw [sameCard] at hsame
    cases hat : cardAt row with
    | none =>
      rw [hat] at hsame
      cases hsame
    | some value =>
      rw [hat] at hsame
      have howner : value.owner = block.first.owner := of_decide_eq_true hsame
      obtain ⟨j, other, otherBlock, hother, hotherBlock, hholds, -, hown, -⟩ :=
        h.row (by rw [hrow, bind_some, hat])
      -- No two cards have one owner.
      have hnodup := harranged.owners
      have hjk : j = k := by
        refine (getElem?_inj ?_ hnodup).mp ?_
        · rw [length_map]
          exact h.lt hother
        · rw [getElem?_map, getElem?_map, hotherBlock, hblock, map_some, map_some, ← hown, howner]
      subst hjk
      obtain rfl := some.inj (hcard.symm.trans hother)
      exact hholds

theorem FirstPass.active (cursor a : Nat) :
    (activePath (railCards (rowsOf blocks) cards cards [] written) cards cursor).holds cards (some a) =
      true ↔ ∃ k, ((railCards (rowsOf blocks) cards cards [] written)[cursor]?.bind cardAt).bind
        ReviewCardRow.card = some k ∧ ReflTransGen (ParentOf cards) a k := by
  rw [activePath]
  cases hrow : (railCards (rowsOf blocks) cards cards [] written)[cursor]?.bind cardAt with
  | none => simp [ActivePath.holds]
  | some value =>
    obtain ⟨k, card, -, hcard, -, -, hown, -⟩ := h.row hrow
    rw [bind_some, hown]
    simp only [ActivePath.holds, bind_some, hcard, some.injEq, exists_eq_left']
    cases hancestor : cards[a]? with
    | none =>
      refine iff_of_false Bool.false_ne_true (fun hbelow => ?_)
      have hlt := (List.getElem?_eq_some_iff.mp hcard).1
      have hle : a ≤ k := by
        cases h.lineage.mp hbelow with
        | inl heq => omega
        | inr habove => exact Nat.le_of_lt habove.1
      have := List.getElem?_eq_none_iff.mp hancestor
      omega
    | some ancestor =>
      rw [← h.inside hcard hancestor, Bool.and_eq_true, decide_eq_true_eq, decide_eq_true_eq]

theorem FirstPass.rails (harranged : Arranged blocks) {k : Nat} (hk : k < cards.length) (rail : Rail) :
    rail ∈ railsOf (rowsOf blocks) cards (path (depthOf blocks) k) ↔
      ∃ (j : Nat) (above : Card), TransGen (ParentOf cards) j k ∧ cards[j]? = some above ∧
        above.nextSibling = some rail.target ∧ Cards.indentAt (rowsOf blocks) above = rail.column ∧
          ∀ (i : Nat) (outer : Card), TransGen (ParentOf cards) i j → cards[i]? = some outer →
            outer.nextSibling.isSome → Cards.indentAt (rowsOf blocks) outer ≠ rail.column := by
  have hfalling := path_falling (depthOf blocks) k
  have hpath : ∀ {j}, j ∈ path (depthOf blocks) k ↔ TransGen (ParentOf cards) j k := by
    intro j
    rw [mem_path, h.above]
  have hcards : ∀ {j}, TransGen (ParentOf cards) j k → ∃ card : Card, cards[j]? = some card := by
    intro j hj
    have hlt := (h.above.mp hj).1
    exact ⟨_, getElem?_eq_getElem (l := cards) (i := j) (by omega)⟩
  have hnext : ∀ {j : Nat} {card : Card}, cards[j]? = some card → nextOf cards j = card.nextSibling ∧
        Cards.indentOf (rowsOf blocks) cards j = Cards.indentAt (rowsOf blocks) card := by
    intro j card hcard
    rw [nextOf, Cards.indentOf, hcard]
    exact ⟨rfl, rfl⟩
  rw [railsOf, mem_chain (h.indentOf harranged hk) (hfalling.imp (fun hlt => hlt.1))]
  constructor
  · rintro ⟨j, hj, hsibling, hcolumn, houter⟩
    have hjk := hpath.mp hj
    obtain ⟨above, habove⟩ := hcards hjk
    obtain ⟨hown, hindent⟩ := hnext habove
    refine ⟨j, above, hjk, habove, hown ▸ hsibling, hindent ▸ hcolumn, ?_⟩
    intro i outer hij hcard hsome heq
    obtain ⟨hown', hindent'⟩ := hnext hcard
    refine houter i (hpath.mpr (hij.trans hjk)) (h.above.mp hij).1 (by rw [hown']; exact hsome) ?_
    rw [hindent', heq, hcolumn]
  · rintro ⟨j, above, hjk, habove, hsibling, hcolumn, houter⟩
    obtain ⟨hown, hindent⟩ := hnext habove
    refine ⟨j, hpath.mpr hjk, by rw [hown, hsibling], by rw [hindent, hcolumn], ?_⟩
    intro i hi hij hsome heq
    have hik := hpath.mp hi
    obtain ⟨outer, hcard⟩ := hcards hik
    obtain ⟨hown', hindent'⟩ := hnext hcard
    refine houter i outer ?_ hcard (by rwa [hown'] at hsome) ?_
    · exact h.above.mpr ((h.above.mp hik).between hij (Nat.le_of_lt (h.above.mp hjk).1))
    · rw [← hindent', heq, hindent, hcolumn]

end

theorem indexCards_geometry (harranged : Arranged blocks) {budget : Nat}
    (hbudget : ∀ card ∈ cardsOf blocks, card.indentation.budget = budget) :
    Geometry (rowsOf blocks) (treeStarts blocks) (anchorCols + budget)
      (indexCards (rowsOf blocks) (treeStarts blocks)).1
      (indexCards (rowsOf blocks) (treeStarts blocks)).2 := by
  have h := firstPass harranged
  constructor
  case bare => exact h.railsBare
  case range =>
    intro k card hcard
    obtain ⟨block, hblock⟩ := h.block hcard
    have hbounds := rangesFrom_bounds (List.mem_of_getElem? (h.facts k card hcard).rows)
    exact ⟨hbounds.2.1, block.first.owner, h.range harranged hcard hblock⟩
  case row =>
    intro r value hrow
    obtain ⟨k, card, -, hcard, -, hholds, hown, -, hdepth, -⟩ := h.row hrow
    exact ⟨k, card, hown, hcard, hholds, by rw [hdepth, (h.facts k card hcard).depth]⟩
  case parent => exact fun k card hcard hpos => h.parent harranged hcard hpos
  case rootless => exact fun k card hcard hroot => h.rootless hcard hroot
  case root => exact fun k card hcard => h.root hcard
  case subtreeEnd => exact fun k card hcard => h.subtreeEnd hcard
  case active => exact h.active
  case sibling => exact fun k card s hcard => h.sibling hcard harranged s
  case columns =>
    intro r value hrow
    obtain ⟨k, card, -, hcard, -, -, -, -, -, hrails⟩ := h.row hrow
    rw [hrails, List.pairwise_map]
    exact chain_columns (h.indentOf harranged (List.getElem?_eq_some_iff.mp hcard).1)
  case rails =>
    intro r value k rail hrow hown
    obtain ⟨j, card, -, hcard, -, -, hown', -, -, hrails⟩ := h.row hrow
    obtain rfl := some.inj (hown.symm.trans hown')
    rw [hrails]
    exact h.rails harranged (List.getElem?_eq_some_iff.mp hcard).1 rail
  case shared => exact fun i j a b habove ha hb heq => h.shared harranged hbudget habove ha hb heq
  case spans =>
    intro r value k j s a b hrow hown ha hs hb
    obtain ⟨i, card, -, hcard, -, hholds, hown', -⟩ := h.row hrow
    obtain rfl := some.inj (hown.symm.trans hown')
    exact h.spans hcard ha hs hb hholds

end Indexed

end Bbr.Tui.Cards
