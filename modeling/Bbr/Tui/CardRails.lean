import Bbr.Tui.CardsLaws

/-!
# The second pass over the cards

The rails past a card are those of the cards above it that a sibling follows, without the ones in a
column that is taken.
-/
namespace Bbr.Tui.Cards

open Bbr.Lib List Option Preorder

section Chain

variable (next : Nat → Option Nat) (indent : Nat → Nat)

/-- The rails of some cards, the nearest one first. -/
def chain : List Nat → List Rail
  | [] => []
  | j :: above => match next j with
    | none => chain above
    | some s =>
      if (chain above).head?.map Rail.column = some (indent j) then chain above
      else ⟨indent j, s⟩ :: chain above

variable {next indent} {j : Nat} {above : List Nat}

theorem chain_none (h : next j = none) : chain next indent (j :: above) = chain next indent above := by
  simp [chain, h]

theorem chain_shared {s : Nat} (h : next j = some s)
    (hshared : (chain next indent above).head?.map Rail.column = some (indent j)) :
    chain next indent (j :: above) = chain next indent above := by
  simp [chain, h, hshared]

theorem chain_own {s : Nat} (h : next j = some s)
    (hown : (chain next indent above).head?.map Rail.column ≠ some (indent j)) :
    chain next indent (j :: above) = ⟨indent j, s⟩ :: chain next indent above := by
  simp [chain, h, hown]

variable {entries : List Nat}

theorem chain_from {rail : Rail} (h : rail ∈ chain next indent entries) :
    ∃ j ∈ entries, next j = some rail.target ∧ indent j = rail.column := by
  induction entries with
  | nil => cases h
  | cons j above ih =>
    have hkeep : rail ∈ chain next indent above →
        ∃ i ∈ j :: above, next i = some rail.target ∧ indent i = rail.column := by
      intro h
      obtain ⟨i, hi, hown⟩ := ih h
      exact ⟨i, mem_cons_of_mem _ hi, hown⟩
    cases hnext : next j with
    | none => exact hkeep (by rwa [chain_none hnext] at h)
    | some s =>
      by_cases hshared : (chain next indent above).head?.map Rail.column = some (indent j)
      · exact hkeep (by rwa [chain_shared hnext hshared] at h)
      rw [chain_own hnext hshared] at h
      cases mem_cons.mp h with
      | inl heq =>
        subst heq
        exact ⟨j, mem_cons_self, hnext, rfl⟩
      | inr h => exact hkeep h

theorem chain_covers {j s : Nat} (hj : j ∈ entries) (hs : next j = some s) :
    ∃ rail ∈ chain next indent entries, rail.column = indent j := by
  induction entries with
  | nil => cases hj
  | cons first above ih =>
    have hkeep : ∀ {rail}, rail ∈ chain next indent above → rail ∈ chain next indent (first :: above) := by
      intro rail h
      cases hnext : next first with
      | none => rwa [chain_none hnext]
      | some t =>
        by_cases hshared : (chain next indent above).head?.map Rail.column = some (indent first)
        · rwa [chain_shared hnext hshared]
        · rw [chain_own hnext hshared]
          exact mem_cons_of_mem _ h
    cases mem_cons.mp hj with
    | inr hj =>
      obtain ⟨rail, hrail, hcolumn⟩ := ih hj
      exact ⟨rail, hkeep hrail, hcolumn⟩
    | inl heq =>
      subst heq
      by_cases hshared : (chain next indent above).head?.map Rail.column = some (indent j)
      · obtain ⟨rail, hrail, hcolumn⟩ := map_eq_some_iff.mp hshared
        exact ⟨rail, hkeep (mem_of_head? hrail), hcolumn⟩
      · rw [chain_own hs hshared]
        exact ⟨_, mem_cons_self, rfl⟩

theorem chain_columns (h : entries.Pairwise (fun a b => indent b ≤ indent a)) :
    (chain next indent entries).Pairwise (fun a b => b.column < a.column) := by
  induction entries with
  | nil => exact .nil
  | cons j above ih =>
    obtain ⟨hfirst, hrest⟩ := pairwise_cons.mp h
    have hchain := ih hrest
    cases hnext : next j with
    | none => rwa [chain_none hnext]
    | some s =>
      by_cases hshared : (chain next indent above).head?.map Rail.column = some (indent j)
      · rwa [chain_shared hnext hshared]
      rw [chain_own hnext hshared]
      refine .cons (fun rail hrail => ?_) hchain
      cases hcells : chain next indent above with
      | nil =>
        rw [hcells] at hrail
        cases hrail
      | cons head tail =>
        rw [hcells] at hrail hchain hshared
        obtain ⟨i, hi, -, hcolumn⟩ := chain_from (by rw [hcells]; exact mem_cons_self)
        have hle := hfirst i hi
        have hne : head.column ≠ indent j := fun heq => hshared (congrArg some heq)
        cases mem_cons.mp hrail with
        | inl heq => subst heq; dsimp only; omega
        | inr htail =>
          have := (pairwise_cons.mp hchain).1 rail htail
          dsimp only
          omega

theorem mem_chain (h : entries.Pairwise (fun a b => indent b ≤ indent a))
    (hdown : entries.Pairwise (fun a b => b < a)) {rail : Rail} :
    rail ∈ chain next indent entries ↔ ∃ j ∈ entries, next j = some rail.target ∧
      indent j = rail.column ∧ ∀ i ∈ entries, i < j → (next i).isSome → indent i ≠ indent j := by
  induction entries with
  | nil => simp [chain]
  | cons first above ih =>
    obtain ⟨hindent, hrest⟩ := pairwise_cons.mp h
    obtain ⟨hless, hdown'⟩ := pairwise_cons.mp hdown
    have hspec := ih hrest hdown'
    have hup : rail ∈ chain next indent above → ∃ j ∈ first :: above,
        next j = some rail.target ∧ indent j = rail.column ∧
          ∀ i ∈ first :: above, i < j → (next i).isSome → indent i ≠ indent j := by
      intro hrail
      obtain ⟨j, hj, hnext, hcolumn, houter⟩ := hspec.mp hrail
      refine ⟨j, mem_cons_of_mem _ hj, hnext, hcolumn, fun i hi hij => ?_⟩
      cases mem_cons.mp hi with
      | inl heq => have := hless j hj; omega
      | inr hi => exact houter i hi hij
    have hdrop : ∀ {j : Nat}, j ∈ above → next j = some rail.target ∧ indent j = rail.column ∧
        (∀ i ∈ first :: above, i < j → (next i).isSome → indent i ≠ indent j) →
          rail ∈ chain next indent above := by
      rintro j hj ⟨hnext, hcolumn, houter⟩
      exact hspec.mpr ⟨j, hj, hnext, hcolumn, fun i hi => houter i (mem_cons_of_mem _ hi)⟩
    cases hnext : next first with
    | none =>
      rw [chain_none hnext]
      refine ⟨hup, ?_⟩
      rintro ⟨j, hj, hj'⟩
      cases mem_cons.mp hj with
      | inl heq =>
        subst heq
        rw [hnext] at hj'
        cases hj'.1
      | inr hj => exact hdrop hj hj'
    | some s =>
      by_cases hshared : (chain next indent above).head?.map Rail.column = some (indent first)
      · rw [chain_shared hnext hshared]
        refine ⟨hup, ?_⟩
        rintro ⟨j, hj, hj'⟩
        cases mem_cons.mp hj with
        | inl heq =>
          -- The column of the first card is taken by a card above it.
          subst heq
          obtain ⟨head, hhead, hcolumn⟩ := map_eq_some_iff.mp hshared
          obtain ⟨i, hi, hsibling, hsame⟩ := chain_from (mem_of_head? hhead)
          exact absurd (hsame.trans hcolumn)
            (hj'.2.2 i (mem_cons_of_mem _ hi) (hless i hi) (by rw [hsibling]; rfl))
        | inr hj => exact hdrop hj hj'
      · rw [chain_own hnext hshared, mem_cons]
        constructor
        · rintro (rfl | hrail)
          · refine ⟨first, mem_cons_self, hnext, rfl, fun i hi hlt hsome heq => ?_⟩
            have hi : i ∈ above := (mem_cons.mp hi).resolve_left (by omega)
            obtain ⟨t, ht⟩ := isSome_iff_exists.mp hsome
            obtain ⟨other, hother, hcolumn⟩ := @chain_covers next indent above i t hi ht
            have hcolumns := @chain_columns next indent above hrest
            cases hcells : chain next indent above with
            | nil =>
              rw [hcells] at hother
              cases hother
            | cons head tail =>
              rw [hcells] at hother hcolumns hshared
              obtain ⟨k, hk, -, hheads⟩ :=
                @chain_from next indent above head (by rw [hcells]; exact mem_cons_self)
              have hle := hindent k hk
              refine hshared (congrArg some ?_)
              cases mem_cons.mp hother with
              | inl hsame => subst hsame; omega
              | inr htail =>
                have := (pairwise_cons.mp hcolumns).1 other htail
                omega
          · exact hup hrail
        · rintro ⟨j, hj, hj'⟩
          cases mem_cons.mp hj with
          | inl heq =>
            subst heq
            left
            have htarget := some.inj (hnext.symm.trans hj'.1)
            rw [hj'.2.1, htarget]
          | inr hj => exact .inr (hdrop hj hj')

theorem chain_dropWhile {depth target : Nat → Nat} {d : Nat} (hfalling : Preorder.Falling depth entries)
    (htarget : ∀ j ∈ entries, ∀ s, next j = some s → target s = depth j) :
    (chain next indent entries).dropWhile (fun rail => decide (d ≤ target rail.target)) =
      chain next indent (entries.dropWhile (fun j => decide (d ≤ depth j))) := by
  induction entries with
  | nil => rfl
  | cons j above ih =>
    obtain ⟨hfirst, hrest⟩ := pairwise_cons.mp hfalling
    have hcut := ih hrest (fun i hi => htarget i (mem_cons_of_mem _ hi))
    by_cases hd : d ≤ depth j
    · rw [dropWhile_cons_of_pos (p := fun j => decide (d ≤ depth j)) (by simpa using hd), ← hcut]
      cases hnext : next j with
      | none => rw [chain_none hnext]
      | some s =>
        have hs := htarget j mem_cons_self s hnext
        by_cases hshared : (chain next indent above).head?.map Rail.column = some (indent j)
        · rw [chain_shared hnext hshared]
        · rw [chain_own hnext hshared, dropWhile_cons_of_pos]
          simpa [hs] using hd
    · rw [dropWhile_cons_of_neg (p := fun j => decide (d ≤ depth j)) (by simpa using hd)]
      cases hcells : chain next indent (j :: above) with
      | nil => rfl
      | cons head tail =>
        rw [dropWhile_cons_of_neg]
        obtain ⟨i, hi, hnext, -⟩ :=
          @chain_from next indent (j :: above) head (by rw [hcells]; exact mem_cons_self)
        have hs := htarget i hi _ hnext
        have hle : depth i ≤ depth j := by
          cases mem_cons.mp hi with
          | inl heq => rw [heq]
          | inr hi => exact Nat.le_of_lt (hfirst i hi).2
        simp only [decide_eq_true_eq, hs]
        omega

end Chain

def nextOf (cards : List Card) (k : Nat) : Option Nat := cards[k]?.bind Card.nextSibling

def indentOf (rows : List Row) (cards : List Card) (k : Nat) : Nat :=
  (cards[k]?.map (indentAt rows)).getD 0

/-- The open cards before a card. -/
def before (depth : Nat → Nat) : Nat → List Nat
  | 0 => []
  | k + 1 => k :: Preorder.path depth k

def railsOf (rows : List Row) (cards : List Card) (entries : List Nat) : List Rail :=
  chain (nextOf cards) (indentOf rows cards) entries

section Pass

variable {rows written : List Row} {cards : List Card} {depth : Nat → Nat}

/-- What the second pass needs from the first. -/
structure Nested (depth : Nat → Nat) (cards : List Card) : Prop where
  depths : ∀ k card, cards[k]? = some card → card.depth = depth k
  parent : ∀ k card, cards[k]? = some card → card.parent = (Preorder.path depth k).head?
  sibling : ∀ k card s, cards[k]? = some card → card.nextSibling = some s →
    s < cards.length ∧ Preorder.Next depth k s
  ranges : ∀ (j k : Nat) (a b : Card), cards[j]? = some a → cards[k]? = some b → j < k →
    a.rows.stop ≤ b.rows.start

variable {k : Nat}

theorem Nested.depthAt (h : Nested depth cards) (hk : k < cards.length) :
    depthAt cards k = depth k := by
  rw [Cards.depthAt, getElem?_eq_getElem hk, map_some, getD_some]
  exact h.depths k _ (getElem?_eq_getElem hk)

theorem Nested.target (h : Nested depth cards) {j s : Nat} (hnext : nextOf cards j = some s) :
    Cards.depthAt cards s = depth j := by
  obtain ⟨card, hcard, hsibling⟩ := bind_eq_some_iff.mp hnext
  obtain ⟨hlt, hs⟩ := h.sibling j card s hcard hsibling
  rw [h.depthAt hlt, hs.2.1]

theorem before_falling (depth : Nat → Nat) (k : Nat) : Preorder.Falling depth (before depth k) := by
  cases k with
  | zero => exact .nil
  | succ k => exact (stack_spec depth k).1

variable {card : Card}

theorem Nested.railsBefore (h : Nested depth cards) (hcard : cards[k]? = some card) :
    railsBefore cards (railsOf rows cards (before depth k)) card =
      railsOf rows cards (path depth k) := by
  rw [Cards.railsBefore, h.parent k card hcard]
  by_cases hpath : path depth k = []
  · rw [if_pos (head?_eq_none_iff.mpr hpath), hpath]
    rfl
  cases k with
  | zero => exact absurd rfl hpath
  | succ k =>
    rw [if_neg (fun hnone => hpath (head?_eq_none_iff.mp hnone)), railsOf,
      chain_dropWhile (before_falling depth (k + 1))
      (fun j _ s hs => h.target hs), h.depths _ card hcard]
    rfl

theorem Nested.railsAfter (h : Nested depth cards) (hcard : cards[k]? = some card) :
    railsAfter rows cards (railsOf rows cards (before depth k)) card =
      railsOf rows cards (before depth (k + 1)) := by
  have hnext : nextOf cards k = card.nextSibling := by rw [nextOf, hcard, bind_some]
  have hindent : indentOf rows cards k = indentAt rows card := by
    rw [indentOf, hcard, map_some, getD_some]
  rw [Cards.railsAfter, h.railsBefore hcard, before, railsOf, railsOf, ← hindent]
  cases hsibling : card.nextSibling with
  | none => rw [chain_none (hnext.trans hsibling)]
  | some s =>
    dsimp only
    split
    · next hshared => rw [chain_shared (hnext.trans hsibling) hshared]
    · next hown => rw [chain_own (hnext.trans hsibling) hown]

theorem updateRows_outside {range : RowRange} {f : ReviewCardRow → ReviewCardRow} {i : Nat}
    (h : ¬range.holds i = true) : (updateRows range f rows)[i]? = rows[i]? := by
  rw [updateRows_getElem?]
  cases rows[i]? with
  | none => rfl
  | some row => rw [map_some, if_neg h]

variable {rest : List Card}

theorem railCards_outside {rails : List Rail} {i : Nat} (h : ∀ card ∈ rest, ¬card.rows.holds i = true) :
    (railCards rows cards rest rails written)[i]? = written[i]? := by
  induction rest generalizing rails written with
  | nil => rfl
  | cons card rest ih =>
    rw [railCards, ih (fun other hother => h other (mem_cons_of_mem _ hother)),
      updateRows_outside (h card mem_cons_self)]

theorem Nested.alone (h : Nested depth cards) {j i : Nat} {a b : Card} (ha : cards[j]? = some a)
    (hb : cards[k]? = some b) (hai : a.rows.holds i = true) (hbi : b.rows.holds i = true) :
    j = k := by
  rw [RowRange.holds_iff] at hai hbi
  by_contra hne
  by_cases hlt : j < k
  · have := h.ranges j k a b ha hb hlt
    omega
  · have := h.ranges k j b a hb ha (by omega)
    omega

/-- Behind the first cards, the rows of the others get the rails of the cards above them. -/
theorem Nested.railCards_from (h : Nested depth cards) {m : Nat} (hrest : cards.drop m = rest)
    {i : Nat} (hcard : cards[k]? = some card) (hk : m ≤ k) (hi : card.rows.holds i = true) :
    (railCards rows cards rest (railsOf rows cards (before depth m)) written)[i]? =
      written[i]?.map (fun row => row.update
        (fun value => { value with rails := railsOf rows cards (path depth k) })) := by
  induction rest generalizing m written with
  | nil =>
    have := List.drop_eq_nil_iff.mp hrest
    have := (List.getElem?_eq_some_iff.mp hcard).1
    omega
  | cons first rest ih =>
    have hfirst : cards[m]? = some first := by
      rw [← Nat.add_zero m, ← List.getElem?_drop, hrest, List.getElem?_cons_zero]
    have hdrop : cards.drop (m + 1) = rest := by
      rw [← List.drop_drop, hrest, List.drop_succ_cons, List.drop_zero]
    rw [railCards, h.railsBefore hfirst, h.railsAfter hfirst]
    by_cases heq : k = m
    · subst heq
      obtain rfl := some.inj (hfirst.symm.trans hcard)
      rw [railCards_outside, updateRows_getElem?]
      · simp only [hi, if_true]
      · intro other hother habsurd
        obtain ⟨j, hj⟩ := List.mem_iff_getElem?.mp hother
        rw [← hdrop, List.getElem?_drop] at hj
        have := h.alone hj hcard habsurd hi
        omega
    · have hother : ¬first.rows.holds i = true := fun habsurd => heq (h.alone hcard hfirst hi habsurd)
      rw [ih hdrop (by omega), updateRows_outside hother]

theorem Nested.railCards (h : Nested depth cards) {i : Nat} (hcard : cards[k]? = some card)
    (hi : card.rows.holds i = true) :
    (railCards rows cards cards [] written)[i]? = written[i]?.map (fun row => row.update
      (fun value => { value with rails := railsOf rows cards (path depth k) })) :=
  h.railCards_from (m := 0) rfl hcard (Nat.zero_le k) hi

end Pass

end Bbr.Tui.Cards
