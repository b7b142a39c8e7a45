import Bbr.Tui.CardBlocks

/-!
# The first pass over the cards

Behind every block the open cards are the last card and those above it in the preorder, so a card is
put below the right one and closed behind the last card below it.
-/
namespace Bbr.Tui.Cards

open Bbr.Lib List Option Preorder

theorem RowRange.holds_iff {range : RowRange} {row : Nat} :
    range.holds row = true ↔ range.start ≤ row ∧ row < range.stop := by
  simp [RowRange.holds]

def ReviewCardRow.bare (row : ReviewCardRow) : ReviewCardRow :=
  { row with rails := [], card := none, siblingBelow := false }

def Row.bare (row : Row) : Row := row.update ReviewCardRow.bare

theorem update_update (row : Row) (f g : ReviewCardRow → ReviewCardRow) :
    (row.update f).update g = row.update (fun card => g (f card)) := by
  cases row <;> rfl

@[simp] theorem cardAt_update (row : Row) (f : ReviewCardRow → ReviewCardRow) :
    cardAt (row.update f) = (cardAt row).map f := by
  cases row <;> rfl

theorem updateRows_getElem? (range : RowRange) (f : ReviewCardRow → ReviewCardRow)
    (rows : List Row) (i : Nat) : (updateRows range f rows)[i]? =
      rows[i]?.map (fun row => if range.holds i then row.update f else row) := by
  rw [updateRows, getElem?_mapIdx]

theorem updateRows_bare (range : RowRange) {f : ReviewCardRow → ReviewCardRow}
    (hf : ∀ row, (f row).bare = row.bare) (rows : List Row) :
    (updateRows range f rows).map Row.bare = rows.map Row.bare := by
  refine ext_getElem? (fun i => ?_)
  rw [getElem?_map, getElem?_map, updateRows_getElem?, Option.map_map]
  refine Option.map_congr (fun row _ => ?_)
  simp only [Function.comp_apply]
  split
  · simp only [Row.bare, update_update, hf]
  · rfl

theorem cardAt_bare {a b : List Row} (h : a.map Row.bare = b.map Row.bare) (i : Nat) :
    (a[i]?.bind cardAt).map ReviewCardRow.bare = (b[i]?.bind cardAt).map ReviewCardRow.bare := by
  have hown : ∀ rows : List Row, (rows[i]?.bind cardAt).map ReviewCardRow.bare =
      (rows.map Row.bare)[i]?.bind cardAt := by
    intro rows
    rw [getElem?_map]
    cases rows[i]? with
    | none => rfl
    | some row =>
      rw [bind_some, map_some, bind_some, Row.bare, cardAt_update]
  rw [hown, hown, h]

theorem closeCards_getElem? (row : Nat) (opened : List Nat) (cards : List Card) (k : Nat) :
    (closeCards row opened cards)[k]? = cards[k]?.map (fun card =>
      if k ∈ opened then { card with subtreeEnd := row } else card) := by
  induction opened generalizing cards with
  | nil => simp [closeCards]
  | cons first opened ih =>
    refine (ih _).trans ?_
    rw [getElem?_modify, Option.map_eq_map, Option.map_map]
    refine Option.map_congr (fun card _ => ?_)
    by_cases hk : first = k
    · simp [hk]
    · simp [hk, Ne.symm hk]

@[simp] theorem closeCards_length (row : Nat) (opened : List Nat) (cards : List Card) :
    (closeCards row opened cards).length = cards.length := by
  induction opened generalizing cards with
  | nil => rfl
  | cons first opened ih =>
    exact (ih _).trans (length_modify _ _ _)

theorem depthAt_close (row k : Nat) (opened : List Nat) (cards : List Card) :
    depthAt (closeCards row opened cards) k = depthAt cards k := by
  rw [depthAt, depthAt, closeCards_getElem?, Option.map_map]
  congr 2
  funext card
  split <;> rfl

theorem popCards_spec {row d : Nat} {depth : Nat → Nat} {opened : List Nat} {cards : List Card}
    {sibling : Option Nat} (hfalling : Preorder.Falling depth opened)
    (hdepth : ∀ k ∈ opened, depthAt cards k = depth k) :
    (popCards row d opened cards sibling).1 = opened.dropWhile (fun k => decide (d ≤ depth k)) ∧
    (popCards row d opened cards sibling).2.1 =
      closeCards row (opened.takeWhile (fun k => decide (d ≤ depth k))) cards ∧
    ∀ q, (popCards row d opened cards sibling).2.2 = some q ↔ (q ∈ opened ∧ depth q = d ∧ 0 < d) ∨
        (sibling = some q ∧ ∀ k ∈ opened, ¬(depth k = d ∧ 0 < d)) := by
  induction opened generalizing cards sibling with
  | nil => simp [popCards, closeCards]
  | cons first opened ih =>
    obtain ⟨hfirst, hrest⟩ := pairwise_cons.mp hfalling
    have hown := hdepth first mem_cons_self
    rw [popCards, hown]
    by_cases hlt : depth first < d
    · have hcut : ¬decide (d ≤ depth first) = true := by simpa using hlt
      rw [if_pos hlt, dropWhile_cons_of_neg (p := fun k => decide (d ≤ depth k)) hcut,
        takeWhile_cons_of_neg (p := fun k => decide (d ≤ depth k)) hcut]
      have hnone : ∀ k ∈ first :: opened, depth k ≠ d := by
        intro k hk
        cases mem_cons.mp hk with
        | inl heq => subst heq; omega
        | inr hk => have := (hfirst k hk).2; omega
      refine ⟨rfl, rfl, fun q => ⟨fun hq => .inr ⟨hq, fun k hk h => hnone k hk h.1⟩, ?_⟩⟩
      rintro (⟨hq, hd, -⟩ | ⟨hq, -⟩)
      · exact absurd hd (hnone q hq)
      · exact hq
    · have hcut : decide (d ≤ depth first) = true := by simpa using hlt
      rw [if_neg hlt, dropWhile_cons_of_pos (p := fun k => decide (d ≤ depth k)) hcut,
        takeWhile_cons_of_pos (p := fun k => decide (d ≤ depth k)) hcut]
      have hdepth' : ∀ k ∈ opened, depthAt (cards.modify first
          (fun card => { card with subtreeEnd := row })) k = depth k := by
        intro k hk
        rw [← hdepth k (mem_cons_of_mem _ hk)]
        exact depthAt_close row k [first] cards
      obtain ⟨hpopped, hclosed, hsibling⟩ := @ih (cards.modify first
        (fun card => { card with subtreeEnd := row }))
        (if depth first = d ∧ 0 < d then some first else sibling) hrest hdepth'
      refine ⟨hpopped, hclosed, fun q => (hsibling q).trans ?_⟩
      by_cases hd : depth first = d ∧ 0 < d
      · have hnone : ∀ k ∈ opened, depth k ≠ d := by
          intro k hk
          have := (hfirst k hk).2
          omega
        rw [if_pos hd]
        constructor
        · rintro (⟨hq, hqd, -⟩ | ⟨hq, -⟩)
          · exact absurd hqd (hnone q hq)
          · obtain rfl := some.inj hq
            exact .inl ⟨mem_cons_self, hd⟩
        · rintro (⟨hq, hqd⟩ | ⟨-, hall⟩)
          · cases mem_cons.mp hq with
            | inl heq =>
              subst heq
              exact .inr ⟨rfl, fun k hk h => hnone k hk h.1⟩
            | inr hq => exact absurd hqd.1 (hnone q hq)
          · exact absurd hd (hall first mem_cons_self)
      · rw [if_neg hd]
        constructor
        · rintro (⟨hq, hqd⟩ | ⟨hq, hall⟩)
          · exact .inl ⟨mem_cons_of_mem _ hq, hqd⟩
          · refine .inr ⟨hq, fun k hk => ?_⟩
            cases mem_cons.mp hk with
            | inl heq => subst heq; exact hd
            | inr hk => exact hall k hk
        · rintro (⟨hq, hqd⟩ | ⟨hq, hall⟩)
          · cases mem_cons.mp hq with
            | inl heq => subst heq; exact absurd hqd hd
            | inr hq => exact .inl ⟨hq, hqd⟩
          · exact .inr ⟨hq, fun k hk => hall k (mem_cons_of_mem _ hk)⟩

/-- What a card says when `m` cards are indexed. -/
structure CardFacts (blocks : List Block) (m k : Nat) (card : Card) : Prop where
  rows : (ranges blocks)[k]? = some card.rows
  depth : card.depth = depthOf blocks k
  parent : card.parent = (Preorder.path (depthOf blocks) k).head?
  root : card.root = (Preorder.path (depthOf blocks) k).getLast?.getD k
  sibling : ∀ q, card.nextSibling = some q ↔
    q < m ∧ Preorder.Next (depthOf blocks) k q ∧ 0 < depthOf blocks k

/-- The cards of a subtree among the first `m` end at a row, and the others begin there. -/
structure Ends (blocks : List Block) (m k stop : Nat) : Prop where
  last : ∃ j range, j < m ∧ (j = k ∨ Preorder.Above (depthOf blocks) k j) ∧
    (ranges blocks)[j]? = some range ∧ range.stop = stop
  inside : ∀ j range, j < m → (j = k ∨ Preorder.Above (depthOf blocks) k j) →
    (ranges blocks)[j]? = some range → range.stop ≤ stop
  outside : ∀ j range, j < m → k < j → ¬Preorder.Above (depthOf blocks) k j →
    (ranges blocks)[j]? = some range → stop ≤ range.start

/-- The open cards behind some blocks. -/
inductive Opened (blocks done : List Block) : List Nat → Prop
  | closed (hroot : depthOf blocks (cardsOf done).length = 0) : Opened blocks done []
  | last (k : Nat) (hk : (cardsOf done).length = k + 1) (range : RowRange)
    (hrange : (ranges blocks)[k]? = some range) (hstop : range.stop = (rowsOf done).length) :
    Opened blocks done (k :: Preorder.path (depthOf blocks) k)

structure Indexed (blocks done : List Block) (s : Indexing) : Prop where
  index : s.index = (rowsOf done).length
  tree : s.tree = (treeStarts done).length
  length : s.cards.length = (cardsOf done).length
  facts : ∀ k card, s.cards[k]? = some card → CardFacts blocks (cardsOf done).length k card
  opened : Opened blocks done s.opened
  closed : ∀ k card, s.cards[k]? = some card → k ∉ s.opened →
    Ends blocks (cardsOf done).length k card.subtreeEnd ∧
      card.subtreeEnd ≤ (rowsOf done).length ∧
        ∀ j, (cardsOf done).length ≤ j → ¬Preorder.Above (depthOf blocks) k j
  bare : s.rows.map Row.bare = (rowsOf blocks).map Row.bare
  marked : ∀ k card i, s.cards[k]? = some card → card.rows.holds i = true →
    (s.rows[i]?.bind cardAt).bind ReviewCardRow.card = some k

section Place

variable {blocks done todo : List Block} {block : Block}

theorem rows_here (h : blocks = done ++ block :: todo) (i : Nat) (hi : i < block.rows.length) :
    (rowsOf blocks)[(rowsOf done).length + i]? = block.rows[i]? := by
  rw [h, rowsOf_append, rowsOf_cons, getElem?_append_right (Nat.le_add_right _ _),
    Nat.add_sub_cancel_left, getElem?_append_left hi]

theorem range_here {card : CardBlock} (h : blocks = done ++ .card card :: todo) :
    (ranges blocks)[(cardsOf done).length]? =
      some ⟨(rowsOf done).length, (rowsOf done).length + card.rows.length⟩ := by
  rw [h, ranges, rangesFrom_append, getElem?_append_right (by simp), length_rangesFrom,
    Nat.sub_self, Nat.zero_add]
  rfl

variable {k : Nat}

theorem ranges_done (h : blocks = done ++ todo) (hk : k < (cardsOf done).length) :
    (ranges blocks)[k]? = (ranges done)[k]? := by
  rw [h, ranges, ranges, rangesFrom_append, getElem?_append_left (by simpa using hk)]

theorem range_done_stop (h : blocks = done ++ todo) {range : RowRange}
    (hk : k < (cardsOf done).length) (hrange : (ranges blocks)[k]? = some range) :
    range.stop ≤ (rowsOf done).length := by
  rw [ranges_done h hk] at hrange
  have := (rangesFrom_bounds (mem_of_getElem? hrange)).2.2
  omega

theorem depth_here {card : CardBlock} (h : blocks = done ++ .card card :: todo) :
    depthOf blocks (cardsOf done).length = card.first.depth := by
  rw [h, depthOf_head, cardsOf_card, head?_cons]
  rfl

theorem treeStart_here {card : CardBlock} (h : blocks = done ++ .card card :: todo) :
    (treeStarts blocks)[(treeStarts done).length]? = some (rowsOf done).length ↔
      card.first.depth = 0 := by
  have hpos := card.length_pos
  rw [h, treeStarts, treeStarts, treeStartsFrom_append,
    getElem?_append_right (Nat.le_refl _), Nat.sub_self, Nat.zero_add, treeStartsFrom]
  by_cases hroot : card.first.depth = 0
  · simp [hroot]
  simp only [hroot, if_false, nil_append, iff_false]
  intro hget
  have := treeStartsFrom_bounds (mem_of_getElem? hget)
  omega

theorem treeStarts_card (card : CardBlock) : treeStarts (done ++ [.card card]) =
    treeStarts done ++ if card.first.depth = 0 then [(rowsOf done).length] else [] := by
  rw [treeStarts, treeStarts, treeStartsFrom_append, Nat.zero_add, treeStartsFrom, treeStartsFrom,
    append_nil]

end Place

section Closing

variable {blocks done todo : List Block} {s : Indexing} {k : Nat} {card : Card}

theorem CardFacts.close {m : Nat} (h : CardFacts blocks m k card) (row : Nat) :
    CardFacts blocks m k { card with subtreeEnd := row } :=
  ⟨h.rows, h.depth, h.parent, h.root, h.sibling⟩

variable {opened : List Nat}

section

variable (h : Opened blocks done opened)
include h

theorem Opened.lt (hk : k ∈ opened) : k < (cardsOf done).length := by
  cases h with
  | closed => cases hk
  | last last hlast =>
    have := (mem_stack.mp hk).1
    omega

theorem Opened.falling : Preorder.Falling (depthOf blocks) opened := by
  cases h with
  | closed => exact .nil
  | last last => exact (stack_spec (depthOf blocks) last).1

theorem Opened.above (hk : k ∈ opened) (hlt : depthOf blocks k < depthOf blocks (cardsOf done).length) :
    Preorder.Above (depthOf blocks) k (cardsOf done).length := by
  cases h with
  | closed => cases hk
  | last last hlast =>
    obtain ⟨hle, hdeep⟩ := mem_stack.mp hk
    refine ⟨by omega, fun i hki hi => ?_⟩
    by_cases heq : i = (cardsOf done).length
    · rwa [heq]
    · exact hdeep i hki (by omega)

theorem Opened.ends (hblocks : blocks = done ++ todo) (hk : k ∈ opened) :
    Ends blocks (cardsOf done).length k (rowsOf done).length := by
  cases h with
  | closed => cases hk
  | last last hlast range hrange hstop =>
    obtain ⟨hle, hdeep⟩ := mem_stack.mp hk
    have habove : ∀ j, k < j → j ≤ last → Preorder.Above (depthOf blocks) k j :=
      fun j hkj hj => ⟨hkj, fun i hi hi' => hdeep i hi (by omega)⟩
    refine ⟨⟨last, range, by omega, ?_, hrange, hstop⟩, ?_, ?_⟩
    · by_cases heq : last = k
      · exact .inl heq
      · exact .inr (habove last (by omega) (Nat.le_refl _))
    · exact fun j range hj _ hrange => range_done_stop hblocks hj hrange
    · exact fun j range hj hkj hnot _ => absurd (habove j hkj (by omega)) hnot

end

theorem Ends.succ {m stop : Nat} (h : Ends blocks m k stop) (hk : k < m)
    (hnot : ¬Preorder.Above (depthOf blocks) k m)
    (hstop : ∀ range, (ranges blocks)[m]? = some range → stop ≤ range.start) :
    Ends blocks (m + 1) k stop := by
  obtain ⟨j, range, hj, hown, hrange, heq⟩ := h.last
  refine ⟨⟨j, range, by omega, hown, hrange, heq⟩, fun j range hj hown hrange => ?_,
    fun j range hj hkj hnot' hrange => ?_⟩
  · refine h.inside j range ?_ hown hrange
    by_contra hge
    obtain rfl : j = m := by omega
    cases hown with
    | inl heq => omega
    | inr habove => exact hnot habove
  · by_cases heq : j = m
    · subst heq
      exact hstop range hrange
    · exact h.outside j range (by omega) hkj hnot' hrange

theorem Indexed.depthAt (h : Indexed blocks done s) (hk : k < (cardsOf done).length) :
    depthAt s.cards k = depthOf blocks k := by
  rw [← h.length] at hk
  rw [Cards.depthAt, getElem?_eq_getElem hk, map_some, getD_some]
  exact (h.facts k _ (getElem?_eq_getElem hk)).depth

theorem Indexed.closeAll (h : Indexed blocks done s) (hblocks : blocks = done ++ todo)
    (hroot : depthOf blocks (cardsOf done).length = 0) {k : Nat} {card : Card}
    (hcard : (closeCards s.index s.opened s.cards)[k]? = some card) :
    CardFacts blocks (cardsOf done).length k card ∧
      Ends blocks (cardsOf done).length k card.subtreeEnd ∧ card.subtreeEnd ≤ (rowsOf done).length ∧
          ∀ j, (cardsOf done).length ≤ j → ¬Preorder.Above (depthOf blocks) k j := by
  rw [closeCards_getElem?] at hcard
  obtain ⟨before, hbefore, heq⟩ := map_eq_some_iff.mp hcard
  split at heq
  · next hopen =>
    subst heq
    have hlt := h.opened.lt hopen
    refine ⟨(h.facts k before hbefore).close _, ?_, by rw [h.index], fun j hj habove => ?_⟩
    · rw [h.index]
      exact h.opened.ends hblocks hopen
    · have := habove.2 _ hlt hj
      omega
  · next hclosed =>
    subst heq
    exact ⟨h.facts k before hbefore, h.closed k before hbefore hclosed⟩

theorem closeCards_rows {row : Nat} {cards : List Card}
    (h : (closeCards row opened cards)[k]? = some card) :
    ∃ before, cards[k]? = some before ∧ before.rows = card.rows := by
  rw [closeCards_getElem?] at h
  obtain ⟨before, hbefore, rfl⟩ := map_eq_some_iff.mp h
  refine ⟨before, hbefore, ?_⟩
  split <;> rfl

end Closing

section Step

variable {blocks done todo : List Block} {s : Indexing}

theorem plainStep_fields (rows : List Row) (row : PlainRow) (s : Indexing) :
    (plainStep rows row s).cards = closeCards s.index s.opened s.cards ∧
      (plainStep rows row s).opened = [] ∧ (plainStep rows row s).index = s.index + 1 ∧
        (plainStep rows row s).tree = s.tree ∧ (plainStep rows row s).rows = s.rows := by
  cases row with
  | disclosure kind => cases kind <;> exact ⟨rfl, rfl, rfl, rfl, rfl⟩
  | _ => exact ⟨rfl, rfl, rfl, rfl, rfl⟩

theorem Arranged.suffix {block : Block} (h : Arranged blocks) (hblocks : blocks = done ++ block :: todo) :
    (block :: todo).IsChain Follows := by
  have hchain := h.chain
  rw [hblocks, ← cons_append] at hchain
  exact hchain.right_of_append

theorem Indexed.plain (h : Indexed blocks done s) (harranged : Arranged blocks) {row : PlainRow}
    (hblocks : blocks = done ++ .plain row :: todo) :
    Indexed blocks (done ++ [.plain row]) (plainStep (rowsOf blocks) row s) := by
  obtain ⟨hcards, hopened, hindex, htree, hrows⟩ := plainStep_fields (rowsOf blocks) row s
  have hroot : depthOf blocks (cardsOf done).length = 0 := by
    rw [hblocks]
    exact depthOf_plain (harranged.suffix hblocks)
  have hcardsOf : cardsOf (done ++ [.plain row]) = cardsOf done := by
    simp [cardsOf, Block.card?]
  have hrowsOf : (rowsOf (done ++ [.plain row])).length = (rowsOf done).length + 1 := by
    simp [rowsOf, Block.rows]
  have hstarts : treeStarts (done ++ [.plain row]) = treeStarts done := by
    rw [treeStarts, treeStarts, treeStartsFrom_append, treeStartsFrom, treeStartsFrom, append_nil]
  have hall := fun {k : Nat} {card : Card} => @Indexed.closeAll _ _ _ s h hblocks hroot k card
  refine ⟨by rw [hindex, hrowsOf, h.index], by rw [htree, hstarts, h.tree], ?_, ?_, ?_, ?_, ?_, ?_⟩
  · rw [hcards, closeCards_length, hcardsOf, h.length]
  · intro k card hcard
    rw [hcards] at hcard
    rw [hcardsOf]
    exact (hall hcard).1
  · rw [hopened]
    exact .closed (by rw [hcardsOf, hroot])
  · intro k card hcard _
    rw [hcards] at hcard
    obtain ⟨-, hends, hle, hnot⟩ := hall hcard
    rw [hcardsOf, hrowsOf]
    exact ⟨hends, Nat.le_succ_of_le hle, hnot⟩
  · rw [hrows, h.bare]
  · intro k card i hcard hi
    rw [hcards] at hcard
    obtain ⟨before, hbefore, hsame⟩ := closeCards_rows hcard
    rw [hrows]
    exact h.marked k before i hbefore (by rw [hsame]; exact hi)

theorem sameCard_cardRow (owner : Owner) (row : ReviewCardRow) :
    sameCard owner (cardRow row) = decide (row.owner = owner) := by
  rw [sameCard, cardAt_cardRow]

theorem takeWhile_todo {owner : Owner}
    (h : owner ∉ (cardsOf blocks).map (fun card => card.first.owner)) :
    (rowsOf blocks).takeWhile (sameCard owner) = [] := by
  cases blocks with
  | nil => rfl
  | cons block blocks =>
    cases block with
    | plain row => rfl
    | card card =>
      have hne : card.first.owner ≠ owner := fun heq => h (by simp [heq])
      rw [rowsOf_cons, Block.rows, CardBlock.rows, map_cons, cons_append,
        takeWhile_cons_of_neg (by simp [sameCard_cardRow, hne])]

theorem cardEnd_here (harranged : Arranged blocks) {card : CardBlock}
    (hblocks : blocks = done ++ .card card :: todo) :
    cardEnd (rowsOf blocks) card.first.owner (rowsOf done).length =
      (rowsOf done).length + card.rows.length := by
  have howners := harranged.owners
  rw [hblocks, cardsOf_append, cardsOf_card, map_append, map_cons] at howners
  have hnext := takeWhile_todo (nodup_cons.mp (nodup_append.mp howners).2.1).1
  have hrest : ∀ row ∈ card.rest.map cardRow, sameCard card.first.owner row = true := by
    intro row hrow
    obtain ⟨value, hvalue, rfl⟩ := mem_map.mp hrow
    rw [sameCard_cardRow, (card.alike value hvalue).1, decide_eq_true rfl]
  have hdrop : (rowsOf blocks).drop ((rowsOf done).length + 1) =
      card.rest.map cardRow ++ rowsOf todo := by
    rw [hblocks, rowsOf_append, rowsOf_cons, Block.rows, CardBlock.rows, map_cons,
      cons_append, drop_append, drop_eq_nil_of_le (Nat.le_succ _), nil_append,
      Nat.add_sub_cancel_left, drop_succ_cons, drop_zero]
  rw [cardEnd, hdrop, takeWhile_append_of_pos hrest, hnext, append_nil, length_map,
    CardBlock.rows, length_map, length_cons]
  omega

variable {depth : Nat → Nat}

theorem path_root {k : Nat} (h : depth k = 0) : path depth k = [] := by
  refine eq_nil_iff_forall_not_mem.mpr (fun j hj => ?_)
  have := (mem_path.mp hj).depth_lt
  omega

theorem Indexed.popped (h : Indexed blocks done s) {card : CardBlock}
    (hblocks : blocks = done ++ .card card :: todo) {s' : Indexing}
    (hs : treeStep (treeStarts blocks) s = s') {popped : List Nat × List Card × Option Nat}
    (hpopped : popCards s.index card.first.depth s'.opened s'.cards none = popped) :
    (s'.index = s.index ∧ s'.rows = s.rows ∧ s'.tree = (treeStarts (done ++ [.card card])).length) ∧
    popped.1 = path (depthOf blocks) (cardsOf done).length ∧
    popped.2.1 = closeCards s.index
      (s.opened.takeWhile (fun k => decide (card.first.depth ≤ depthOf blocks k))) s.cards ∧
    ∀ q, popped.2.2 = some q ↔
      Preorder.Next (depthOf blocks) q (cardsOf done).length ∧ 0 < depthOf blocks q := by
  have hdepth := depth_here hblocks
  have hstart := treeStart_here hblocks
  rw [← h.tree, ← h.index] at hstart
  rw [treeStarts_card, length_append, ← h.tree]
  by_cases hroot : card.first.depth = 0
  · have hall : s.opened.takeWhile (fun k => decide (card.first.depth ≤ depthOf blocks k)) =
        s.opened := by
      refine takeWhile_eq_self_iff.mpr (fun k _ => ?_)
      simp [hroot]
    rw [treeStep, if_pos (hstart.mpr hroot)] at hs
    subst hs
    subst hpopped
    rw [hall, path_root (by rw [hdepth, hroot])]
    refine ⟨⟨rfl, rfl, by simp [hroot]⟩, rfl, rfl, fun q => ⟨fun hq => (by cases hq), ?_⟩⟩
    rintro ⟨⟨-, heq, -⟩, hpos⟩
    omega
  · rw [treeStep, if_neg (fun hget => hroot (hstart.mp hget))] at hs
    subst hs
    subst hpopped
    have hopened := h.opened
    obtain ⟨hcut, hclosed, hsibling⟩ := @popCards_spec s.index card.first.depth (depthOf blocks)
      s.opened s.cards none hopened.falling (fun k hk => h.depthAt (hopened.lt hk))
    generalize s.opened = opened at hopened hcut hclosed hsibling ⊢
    refine ⟨⟨rfl, rfl, by simp [hroot]⟩, ?_, hclosed, fun q => (hsibling q).trans ?_⟩
    · rw [hcut]
      cases hopened with
      | closed hnone => exact absurd (hdepth.symm.trans hnone) hroot
      | last last hlast => rw [hlast, path, ← hlast, hdepth]
    · cases hopened with
      | closed hnone => exact absurd (hdepth.symm.trans hnone) hroot
      | last last hlast =>
        rw [hlast, next_iff_stack, ← hlast, hdepth]
        simp only [reduceCtorEq, false_and, or_false, and_assoc]
        refine and_congr_right (fun _ => and_congr_right (fun heq => ?_))
        rw [heq]

theorem linkSibling_getElem? (m : Nat) (sibling : Option Nat) (cards : List Card) (k : Nat) :
    (linkSibling m sibling cards)[k]? = cards[k]?.map (fun card =>
      if sibling = some k then { card with nextSibling := some m } else card) := by
  cases sibling with
  | none => simp [linkSibling]
  | some q =>
    rw [linkSibling, getElem?_modify, Option.map_eq_map]
    simp

theorem linkSibling_length (m : Nat) (sibling : Option Nat) (cards : List Card) :
    (linkSibling m sibling cards).length = cards.length := by
  cases sibling with
  | none => rfl
  | some q => exact length_modify _ _ _

theorem markBelow_bare (cards : List Card) (sibling : Option Nat) (rows : List Row) :
    (markBelow cards sibling rows).map Row.bare = rows.map Row.bare := by
  rw [markBelow]
  split
  · rfl
  · rw [updateRows_bare]
    exact fun _ => rfl

/-- Rows take the index of their card; the others keep theirs. -/
theorem updateRows_card (start stop n : Nat) {rows : List Row} (i : Nat) :
    ((updateRows ⟨start, stop⟩ (fun row => { row with card := some n }) rows)[i]?.bind cardAt).bind
        ReviewCardRow.card =
      if start ≤ i ∧ i < stop then
        ((updateRows ⟨start, stop⟩ (fun row => { row with card := some n }) rows)[i]?.bind
          cardAt).map (fun _ => n)
      else (rows[i]?.bind cardAt).bind ReviewCardRow.card := by
  rw [updateRows_getElem?]
  have hholds : (⟨start, stop⟩ : RowRange).holds i = true ↔ start ≤ i ∧ i < stop := RowRange.holds_iff
  by_cases hi : start ≤ i ∧ i < stop
  · rw [if_pos hi]
    cases rows[i]? with
    | none => rfl
    | some row =>
      simp only [map_some, bind_some, hholds.mpr hi, if_true, cardAt_update]
      cases cardAt row <;> rfl
  · rw [if_neg hi]
    cases rows[i]? with
    | none => rfl
    | some row => simp only [map_some, if_neg (hi ∘ hholds.mp)]

theorem markBelow_card (cards : List Card) (sibling : Option Nat) (rows : List Row) (i : Nat) :
    ((markBelow cards sibling rows)[i]?.bind cardAt).bind ReviewCardRow.card =
      (rows[i]?.bind cardAt).bind ReviewCardRow.card := by
  rw [markBelow]
  split
  · rfl
  rename_i previous _
  rw [updateRows_getElem?]
  cases rows[i]? with
  | none => rfl
  | some row =>
    simp only [map_some, bind_some]
    split
    · rw [cardAt_update]
      cases cardAt row <;> rfl
    · rfl

/-- What a card says that is put below others. -/
structure Own (blocks done : List Block) (cards : List Card) (card : CardBlock) (own : Card) : Prop where
  rows : own.rows = ⟨(rowsOf done).length, (rowsOf done).length + card.rows.length⟩
  depth : own.depth = card.first.depth
  parent : own.parent = (Preorder.path (depthOf blocks) (cardsOf done).length).head?
  root : own.root = ((Preorder.path (depthOf blocks) (cardsOf done).length).head?.bind
    (fun p => cards[p]?.map Card.root)).getD (cardsOf done).length
  sibling : own.nextSibling = none

/-- A card is put behind the others. -/
structure Put (blocks done : List Block) (card : CardBlock) (s s' : Indexing) : Prop where
  index : s'.index = (rowsOf done).length + card.rows.length
  tree : s'.tree = (treeStarts (done ++ [.card card])).length
  opened : s'.opened =
    (cardsOf done).length :: Preorder.path (depthOf blocks) (cardsOf done).length
  length : s'.cards.length = (cardsOf done).length + 1
  own : ∃ own, s'.cards[(cardsOf done).length]? = some own ∧ Own blocks done s.cards card own
  others : ∀ k other, s'.cards[k]? = some other → k < (cardsOf done).length →
    ∃ before, s.cards[k]? = some before ∧ other.rows = before.rows ∧ other.depth = before.depth ∧
      other.parent = before.parent ∧ other.root = before.root ∧
      other.subtreeEnd = (if k ∈ s.opened ∧ card.first.depth ≤ depthOf blocks k then
        (rowsOf done).length else before.subtreeEnd) ∧
      ∀ q, other.nextSibling = some q ↔
        (q = (cardsOf done).length ∧ Preorder.Next (depthOf blocks) k q ∧ 0 < depthOf blocks k) ∨
          (before.nextSibling = some q ∧ ¬(Preorder.Next (depthOf blocks) k (cardsOf done).length ∧
            0 < depthOf blocks k))
  bare : s'.rows.map Row.bare = s.rows.map Row.bare
  marked : ∀ i, (s'.rows[i]?.bind cardAt).bind ReviewCardRow.card =
    if (rowsOf done).length ≤ i ∧ i < (rowsOf done).length + card.rows.length then
      (s'.rows[i]?.bind cardAt).map (fun _ => (cardsOf done).length)
    else (s.rows[i]?.bind cardAt).bind ReviewCardRow.card

variable {cards : List Card}

theorem closed_root {row : Nat} {opened : List Nat} (k : Nat) :
    (closeCards row opened cards)[k]?.map Card.root = cards[k]?.map Card.root := by
  rw [closeCards_getElem?, Option.map_map]
  refine Option.map_congr (fun card _ => ?_)
  split <;> rfl

theorem Indexed.put (h : Indexed blocks done s) (harranged : Arranged blocks) {card : CardBlock}
    (hblocks : blocks = done ++ .card card :: todo) : Put blocks done card s
      (putCard (rowsOf blocks) card.first (treeStep (treeStarts blocks) s)) := by
  generalize hs : treeStep (treeStarts blocks) s = s'
  generalize hpopped : popCards s.index card.first.depth s'.opened s'.cards none = popped
  obtain ⟨⟨hindex, hrows, htree⟩, hopened, hclosed, hsibling⟩ := h.popped hblocks hs hpopped
  have hstop := cardEnd_here harranged hblocks
  have hlength : popped.2.1.length = (cardsOf done).length := by
    rw [hclosed, closeCards_length, h.length]
  have hroots : ∀ p : Nat, popped.2.1[p]?.map Card.root = s.cards[p]?.map Card.root := by
    intro p
    rw [hclosed, closed_root]
  have hput : putCard (rowsOf blocks) card.first s' =
      { s' with
        rows := updateRows ⟨s.index, s.index + card.rows.length⟩
          (fun row => { row with card := some popped.2.1.length })
          (markBelow popped.2.1 popped.2.2 s.rows)
        cards := linkSibling popped.2.1.length popped.2.2 popped.2.1 ++
          [{ rows := ⟨s.index, s.index + card.rows.length⟩
             subtreeEnd := s.index + card.rows.length
             parent := popped.1.head?
             root := (popped.1.head?.bind (fun p : Nat => popped.2.1[p]?.map Card.root)).getD
               popped.2.1.length
             depth := card.first.depth
             role := card.first.role
             anchored := ⟨anchoredStart (rowsOf blocks) card.first s', s.index⟩ }]
        opened := popped.2.1.length :: popped.1
        index := s.index + card.rows.length } := by
    rw [putCard, hindex, hrows, hpopped, h.index, hstop]
  rw [hput, hlength]
  have hlinked : (linkSibling (cardsOf done).length popped.2.2 popped.2.1).length =
      (cardsOf done).length := by
    rw [linkSibling_length, hlength]
  refine ⟨by rw [h.index], htree, by rw [hopened], ?_, ?_, ?_, ?_, ?_⟩
  · rw [length_append, hlinked]
    rfl
  · dsimp only
    rw [getElem?_append_right (Nat.le_of_eq hlinked), hlinked, Nat.sub_self]
    refine ⟨_, rfl, ?_⟩
    simp only [hroots]
    exact ⟨by rw [h.index], rfl, by rw [hopened], by rw [hopened], rfl⟩
  · intro k other hother hk
    rw [getElem?_append_left (by rw [hlinked]; exact hk), linkSibling_getElem?, hclosed,
      closeCards_getElem?, Option.map_map] at hother
    obtain ⟨before, hbefore, rfl⟩ := Option.map_eq_some_iff.mp hother
    refine ⟨before, hbefore, ?_⟩
    simp only [Function.comp_apply, mem_takeWhile h.opened.falling, ← h.index]
    by_cases hnext : popped.2.2 = some k
    · have hspec := (hsibling k).mp hnext
      simp only [hnext, if_true, some.injEq]
      refine ⟨by split <;> rfl, by split <;> rfl, by split <;> rfl, by split <;> rfl,
        by split <;> rfl, fun q => ⟨?_, ?_⟩⟩
      · rintro rfl
        exact .inl ⟨rfl, hspec⟩
      · rintro (⟨rfl, -⟩ | ⟨-, hnot⟩)
        · rfl
        · exact absurd hspec hnot
    · have hspec := fun h => hnext ((hsibling k).mpr h)
      simp only [hnext, if_false]
      refine ⟨by split <;> rfl, by split <;> rfl, by split <;> rfl, by split <;> rfl,
        by split <;> rfl, fun q => ⟨fun hq => .inr ⟨?_, hspec⟩, ?_⟩⟩
      · rw [← hq]
        split <;> rfl
      rintro (⟨rfl, hq⟩ | ⟨hq, -⟩)
      · exact absurd hq hspec
      · rw [← hq]
        split <;> rfl
  · dsimp only
    rw [updateRows_bare, markBelow_bare]
    exact fun _ => rfl
  · intro i
    rw [← h.index]
    exact (updateRows_card _ _ _ i).trans (by rw [markBelow_card])

theorem path_last {k p : Nat} (h : (path depth k).head? = some p) :
    (path depth k).getLast?.getD k = (path depth p).getLast?.getD p := by
  cases hpath : path depth k with
  | nil =>
    rw [hpath] at h
    cases h
  | cons first rest =>
    rw [hpath, head?_cons, some.injEq] at h
    subst h
    rw [path_tail hpath, getLast?_cons, getD_some]

theorem Own.facts {card : CardBlock} {own : Card} (h : Own blocks done cards card own)
    (hblocks : blocks = done ++ .card card :: todo)
    (hfacts : ∀ k card, cards[k]? = some card → CardFacts blocks (cardsOf done).length k card)
    (hlength : cards.length = (cardsOf done).length) :
    CardFacts blocks ((cardsOf done).length + 1) (cardsOf done).length own := by
  refine ⟨by rw [h.rows, range_here hblocks], by rw [h.depth, depth_here hblocks], h.parent, ?_, ?_⟩
  · rw [h.root]
    cases hparent : (path (depthOf blocks) (cardsOf done).length).head? with
    | none =>
      rw [head?_eq_none_iff] at hparent
      rw [hparent]
      rfl
    | some p =>
      have hp := (head_path.mp hparent).1.1
      have hget := getElem?_eq_getElem (l := cards) (i := p) (by omega)
      rw [path_last hparent, bind_some, hget, map_some, getD_some, (hfacts p _ hget).root]
  · intro q
    rw [h.sibling]
    refine iff_of_false (by simp) ?_
    rintro ⟨hq, ⟨hlt, -⟩, -⟩
    omega

theorem Indexed.card (h : Indexed blocks done s) (harranged : Arranged blocks) {card : CardBlock}
    (hblocks : blocks = done ++ .card card :: todo) : Indexed blocks (done ++ [.card card])
      (putCard (rowsOf blocks) card.first (treeStep (treeStarts blocks) s)) := by
  have hput := h.put harranged hblocks
  generalize putCard (rowsOf blocks) card.first (treeStep (treeStarts blocks) s) = s' at hput ⊢
  have hcardsOf : (cardsOf (done ++ [.card card])).length = (cardsOf done).length + 1 := by
    simp [cardsOf, Block.card?]
  have hrowsOf : (rowsOf (done ++ [.card card])).length = (rowsOf done).length + card.rows.length := by
    simp [rowsOf, Block.rows]
  have hdepth := depth_here hblocks
  have hrange := range_here hblocks
  obtain ⟨own, hown, hfacts⟩ := hput.own
  have hcases : ∀ k other, s'.cards[k]? = some other →
      k < (cardsOf done).length ∨ (k = (cardsOf done).length ∧ other = own) := by
    intro k other hother
    have hlt := (List.getElem?_eq_some_iff.mp hother).1
    rw [hput.length] at hlt
    by_cases heq : k = (cardsOf done).length
    · subst heq
      exact .inr ⟨rfl, some.inj (hother.symm.trans hown)⟩
    · exact .inl (by omega)
  refine ⟨by rw [hput.index, hrowsOf], hput.tree, by rw [hput.length, hcardsOf], ?_, ?_, ?_, ?_, ?_⟩
  · intro k other hother
    rw [hcardsOf]
    obtain hk | ⟨rfl, rfl⟩ := hcases k other hother
    · obtain ⟨before, hbefore, hrows, hown', hparent, hroot, -, hsibling⟩ := hput.others k other hother hk
      have hold := h.facts k before hbefore
      refine ⟨by rw [hrows, hold.rows], by rw [hown', hold.depth], by rw [hparent, hold.parent],
        by rw [hroot, hold.root], fun q => (hsibling q).trans ?_⟩
      rw [hold.sibling]
      constructor
      · rintro (⟨rfl, hnext⟩ | ⟨⟨hq, hnext⟩, -⟩)
        · exact ⟨Nat.lt_succ_self _, hnext⟩
        · exact ⟨Nat.lt_succ_of_lt hq, hnext⟩
      · rintro ⟨hq, hnext, hpos⟩
        by_cases heq : q = (cardsOf done).length
        · exact .inl ⟨heq, hnext, hpos⟩
        · refine .inr ⟨⟨by omega, hnext, hpos⟩, fun hown => heq ?_⟩
          exact hnext.unique hown.1
    · exact hfacts.facts hblocks h.facts h.length
  · rw [hput.opened]
    refine .last _ hcardsOf _ hrange ?_
    rw [hrowsOf]
  · intro k other hother hclosed
    rw [hcardsOf, hrowsOf]
    rw [hput.opened, List.mem_cons, mem_path, not_or] at hclosed
    obtain hk | ⟨rfl, -⟩ := hcases k other hother
    · obtain ⟨before, hbefore, -, -, -, -, hend, -⟩ := hput.others k other hother hk
      have hafter : ∀ j, (cardsOf done).length + 1 ≤ j → ¬Preorder.Above (depthOf blocks) k j :=
        fun j hj habove => hclosed.2 (habove.between hk (by omega))
      have hstop : ∀ {stop : Nat}, stop ≤ (rowsOf done).length → ∀ range,
          (ranges blocks)[(cardsOf done).length]? = some range → stop ≤ range.start := by
        intro stop hle range hget
        obtain rfl := some.inj (hrange.symm.trans hget)
        exact hle
      by_cases hopen : k ∈ s.opened
      · -- The card was open, and is closed because the new one is not below it.
        have hcut : card.first.depth ≤ depthOf blocks k := by
          by_contra hlt
          exact hclosed.2 (h.opened.above hopen (by omega))
        rw [hend, if_pos ⟨hopen, hcut⟩]
        exact ⟨(h.opened.ends hblocks hopen).succ hk hclosed.2 (hstop (Nat.le_refl _)),
          Nat.le_add_right _ _, hafter⟩
      · obtain ⟨hends, hle, -⟩ := h.closed k before hbefore hopen
        rw [hend, if_neg (fun hboth => hopen hboth.1)]
        exact ⟨hends.succ hk hclosed.2 (hstop hle), Nat.le_trans hle (Nat.le_add_right _ _), hafter⟩
    · exact absurd rfl hclosed.1
  · rw [hput.bare, h.bare]
  · intro k other i hother hi
    rw [hput.marked i]
    rw [RowRange.holds_iff] at hi
    obtain hk | ⟨rfl, rfl⟩ := hcases k other hother
    · obtain ⟨before, hbefore, hrows, -⟩ := hput.others k other hother hk
      have hstop := range_done_stop hblocks hk (h.facts k before hbefore).rows
      rw [hrows] at hi
      rw [if_neg (by omega)]
      exact h.marked k before i hbefore (RowRange.holds_iff.mpr hi)
    · rw [hfacts.rows] at hi
      dsimp only at hi
      rw [if_pos hi]
      have hbare := cardAt_bare (hput.bare.trans h.bare) i
      obtain ⟨r, rfl⟩ := Nat.exists_eq_add_of_le hi.1
      rw [rows_here hblocks r (by rw [Block.rows]; omega), Block.rows, CardBlock.rows,
        List.getElem?_map] at hbare
      cases hget : (card.first :: card.rest)[r]? with
      | none =>
        have := List.getElem?_eq_none_iff.mp hget
        rw [CardBlock.rows, List.length_map] at hi
        omega
      | some row =>
        rw [hget, map_some, bind_some, cardAt_cardRow, map_some] at hbare
        obtain ⟨value, hvalue, -⟩ := map_eq_some_iff.mp hbare
        rw [hvalue]
        rfl

end Step

section Run

variable {blocks : List Block}

theorem indexed_start (harranged : Arranged blocks) (old new : SourceRows) :
    Indexed blocks [] { rows := rowsOf blocks, old := old, new := new } := by
  refine ⟨rfl, rfl, rfl, ?_, .closed harranged.steps.first, ?_, rfl, ?_⟩
  · intro k card h
    cases h
  · intro k card h
    cases h
  · intro k card i h
    cases h

theorem indexStep_indexed (harranged : Arranged blocks) {done todo : List Block} {block : Block}
    {s : Indexing} (h : Indexed blocks done s) (hblocks : blocks = done ++ block :: todo) :
    Indexed blocks (done ++ [block]) (indexStep (rowsOf blocks) (treeStarts blocks) s) := by
  cases block with
  | plain row =>
    have hrow := rows_here hblocks 0 (Nat.succ_pos 0)
    rw [Nat.add_zero, ← h.index] at hrow
    rw [indexStep, hrow]
    exact h.plain harranged hblocks
  | card card =>
    have hrow := rows_here hblocks 0 card.length_pos
    rw [Nat.add_zero, ← h.index] at hrow
    have hfirst : (Block.card card).rows[0]? = some (cardRow card.first) := rfl
    rw [indexStep, hrow, hfirst, cardRow]
    have hcard := h.card harranged hblocks
    cases card.first.owner <;> exact hcard

theorem indexLoop_indexed (harranged : Arranged blocks) {done todo : List Block} {s : Indexing}
    {steps : Nat} (h : Indexed blocks done s) (hblocks : blocks = done ++ todo)
    (hsteps : (rowsOf todo).length ≤ steps) :
    Indexed blocks blocks (indexLoop (rowsOf blocks) (treeStarts blocks) steps s) := by
  induction todo generalizing done s steps with
  | nil =>
    rw [append_nil] at hblocks
    subst hblocks
    have hend : ¬s.index < (rowsOf blocks).length := by
      rw [h.index]
      exact Nat.lt_irrefl _
    cases steps with
    | zero => exact h
    | succ steps => rwa [indexLoop, if_neg hend]
  | cons block todo ih =>
    have hpos : 0 < block.rows.length := by
      cases block with
      | plain row => exact Nat.succ_pos 0
      | card card => exact card.length_pos
    rw [rowsOf_cons, length_append] at hsteps
    cases steps with
    | zero => omega
    | succ steps =>
      have hlt : s.index < (rowsOf blocks).length := by
        rw [h.index, hblocks, rowsOf_append, rowsOf_cons, length_append, length_append]
        omega
      rw [indexLoop, if_pos hlt]
      exact ih (indexStep_indexed harranged h hblocks) (by simpa using hblocks) (by omega)

structure FirstPass (blocks : List Block) (written : List Row) (cards : List Card) : Prop where
  length : cards.length = (cardsOf blocks).length
  facts : ∀ k card, cards[k]? = some card → CardFacts blocks (cardsOf blocks).length k card
  ends : ∀ k card, cards[k]? = some card → Ends blocks (cardsOf blocks).length k card.subtreeEnd
  bare : written.map Row.bare = (rowsOf blocks).map Row.bare
  marked : ∀ k card i, cards[k]? = some card → card.rows.holds i = true →
    (written[i]?.bind cardAt).bind ReviewCardRow.card = some k

theorem firstPass (harranged : Arranged blocks) :
    FirstPass blocks (indexLoop (rowsOf blocks) (treeStarts blocks) (rowsOf blocks).length
        (initialIndexing (rowsOf blocks) (treeStarts blocks))).rows
      (indexCards (rowsOf blocks) (treeStarts blocks)).2 := by
  have h := @indexLoop_indexed blocks harranged [] blocks
    (initialIndexing (rowsOf blocks) (treeStarts blocks)) (rowsOf blocks).length
    (indexed_start harranged _ _) rfl (Nat.le_refl _)
  have hroot : depthOf blocks (cardsOf blocks).length = 0 := by
    rw [depthOf, getElem?_eq_none (Nat.le_refl _)]
    rfl
  have hcards : (indexCards (rowsOf blocks) (treeStarts blocks)).2 =
      closeCards (indexLoop (rowsOf blocks) (treeStarts blocks) (rowsOf blocks).length
          (initialIndexing (rowsOf blocks) (treeStarts blocks))).index
        (indexLoop (rowsOf blocks) (treeStarts blocks) (rowsOf blocks).length
          (initialIndexing (rowsOf blocks) (treeStarts blocks))).opened
        (indexLoop (rowsOf blocks) (treeStarts blocks) (rowsOf blocks).length
          (initialIndexing (rowsOf blocks) (treeStarts blocks))).cards := by
    rw [indexCards]
    dsimp only
    congr 1
    exact h.index.symm
  rw [hcards]
  refine ⟨?_, fun k card hcard => ?_, fun k card hcard => ?_, h.bare, fun k card i hcard hi => ?_⟩
  · rw [closeCards_length, h.length]
  · exact (h.closeAll (append_nil blocks).symm hroot hcard).1
  · exact (h.closeAll (append_nil blocks).symm hroot hcard).2.1
  · obtain ⟨before, hbefore, hrows⟩ := closeCards_rows hcard
    exact h.marked k before i hbefore (by rw [hrows]; exact hi)

end Run

end Bbr.Tui.Cards
