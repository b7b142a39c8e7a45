import Bbr.Lib.Alignments
import Bbr.Search.Fuzzy

/-!
# What fuzzy matching returns

The two tables bound every way of matching the query. The walk back follows them to a matching with the
score they promise, unless it reads from the wrong one whether the next query scalar has to be matched
right before: then it highlights, and ranks, another matching than the best.
-/
namespace Bbr.Search

open Bbr.Lib List

variable {uc : UnicodeCase} {query : Query} {scalars : List Scalar} {rows : List (List Cell)}
  {q c n cursor : Nat} {above : List Cell} {matchRequired : Bool} {positions : List Nat}

/-- What placing the query into the candidate is worth. -/
def scoring (uc : UnicodeCase) (query : Query) (scalars : List Scalar) : Scoring where
  fits q c := equalScalar uc query (query.scalars.getD q 0) (scalars.getD c 0) = true
  first c := c * scoreGapLeading + boundaryBonus uc scalars c
  bonus := boundaryBonus uc scalars
  gap := scoreGapInner
  streak := scoreMatchConsecutive

theorem fits_iff : (scoring uc query scalars).fits q c ↔
    equalScalar uc query (query.scalars.getD q 0) (scalars.getD c 0) = true := Iff.rfl

/-! One lemma for each way a cell is scored. -/

theorem exactScore_misfit (h : ¬ (scoring uc query scalars).fits q c) :
    exactScore uc query scalars above q c = ⊥ := by
  rw [fits_iff] at h
  unfold exactScore
  rw [if_neg h]

theorem exactScore_first (h : (scoring uc query scalars).fits 0 c) :
    exactScore uc query scalars above 0 c = (scoring uc query scalars).first c := by
  rw [fits_iff] at h
  unfold exactScore
  rw [if_pos h, if_pos rfl]
  rfl

theorem exactScore_next {cell : Cell} (h : (scoring uc query scalars).fits (q + 1) (c + 1))
    (habove : above[c]? = some cell) : exactScore uc query scalars above (q + 1) (c + 1) =
      max (cell.best + ((scoring uc query scalars).bonus (c + 1) : Int))
        (cell.exact + ((scoring uc query scalars).streak : Int)) := by
  rw [fits_iff] at h
  unfold exactScore
  rw [if_pos h, if_neg (Nat.succ_ne_zero q)]
  simp only [habove]
  rfl

theorem exactScore_edge : exactScore uc query scalars above (q + 1) 0 = ⊥ := by
  unfold exactScore
  split
  · rfl
  · rfl

theorem fillRow_succ (n : Nat) : fillRow uc query scalars above q (n + 1) =
    ((fillRow uc query scalars above q n).1 ++ [⟨exactScore uc query scalars above q n,
        (fillRow uc query scalars above q (n + 1)).2⟩],
      max (exactScore uc query scalars above q n) ((fillRow uc query scalars above q n).2 +
          ((if q + 1 = query.scalars.length then scoreGapTrailing else scoreGapInner : Int) :
            WithBot Int))) := rfl

theorem fillRow_length (n : Nat) : (fillRow uc query scalars above q n).1.length = n := by
  induction n with
  | zero => rfl
  | succ n ih => rw [fillRow_succ, length_append, ih, length_singleton]

theorem fillRow_getElem? (hc : c < n) : (fillRow uc query scalars above q n).1[c]? =
      some ⟨exactScore uc query scalars above q c, (fillRow uc query scalars above q (c + 1)).2⟩ := by
  induction n with
  | zero => omega
  | succ n ih =>
    have hlen : (fillRow uc query scalars above q n).1.length = n := fillRow_length n
    rw [fillRow_succ]
    by_cases hlast : c = n
    · subst hlast
      rw [getElem?_append_right (by omega), hlen, Nat.sub_self]
      rfl
    · rw [getElem?_append_left (by omega)]
      exact ih (by omega)

def tableRow (uc : UnicodeCase) (query : Query) (scalars : List Scalar) (q : Nat) : List Cell :=
  (fillRow uc query scalars ((fillTables uc query scalars q).getLastD []) q
    scalars.length).1

theorem fillTables_succ (q : Nat) : fillTables uc query scalars (q + 1) =
    fillTables uc query scalars q ++ [tableRow uc query scalars q] := rfl

theorem fillTables_length (m : Nat) : (fillTables uc query scalars m).length = m := by
  induction m with
  | zero => rfl
  | succ m ih => rw [fillTables_succ, length_append, ih, length_singleton]

theorem fillTables_getD {m : Nat} (hq : q < m) :
    (fillTables uc query scalars m).getD q [] = tableRow uc query scalars q := by
  induction m with
  | zero => omega
  | succ m ih =>
    have hlen : (fillTables uc query scalars m).length = m := fillTables_length m
    rw [fillTables_succ, getD_eq_getElem?_getD]
    by_cases hlast : q = m
    · subst hlast
      rw [getElem?_append_right (by omega), hlen, Nat.sub_self]
      rfl
    · rw [getElem?_append_left (by omega), ← getD_eq_getElem?_getD]
      exact ih (by omega)

/-- The row that a query scalar is filled from. -/
def rowAbove (uc : UnicodeCase) (query : Query) (scalars : List Scalar) : Nat → List Cell
  | 0 => []
  | q + 1 => tableRow uc query scalars q

theorem fillTables_last (q : Nat) :
    (fillTables uc query scalars q).getLastD [] = rowAbove uc query scalars q := by
  cases q with
  | zero => rfl
  | succ q => rw [fillTables_succ, getLastD_concat, rowAbove]

theorem tableRow_getElem? (hc : c < scalars.length) : (tableRow uc query scalars q)[c]? =
      some ⟨exactScore uc query scalars (rowAbove uc query scalars q) q c,
        (fillRow uc query scalars (rowAbove uc query scalars q) q (c + 1)).2⟩ := by
  rw [tableRow, fillTables_last]
  exact fillRow_getElem? hc

/-- The cells of the whole table. -/
def exactAt (uc : UnicodeCase) (query : Query) (scalars : List Scalar) (q c : Nat) :
    WithBot Int :=
  (cellAt (fillTables uc query scalars query.scalars.length) q c).exact

def bestAt (uc : UnicodeCase) (query : Query) (scalars : List Scalar) (q c : Nat) :
    WithBot Int :=
  (cellAt (fillTables uc query scalars query.scalars.length) q c).best

theorem cellAt_eq (hq : q < query.scalars.length) (hc : c < scalars.length) :
    cellAt (fillTables uc query scalars query.scalars.length) q c =
      ⟨exactScore uc query scalars (rowAbove uc query scalars q) q c,
        (fillRow uc query scalars (rowAbove uc query scalars q) q (c + 1)).2⟩ := by
  rw [cellAt, fillTables_getD hq, getD_eq_getElem?_getD, tableRow_getElem? hc, Option.getD_some]

theorem tables_fill (uc : UnicodeCase) (query : Query) (scalars : List Scalar) :
    (scoring uc query scalars).Fills query.scalars.length scalars.length scoreGapTrailing
      (exactAt uc query scalars) (bestAt uc query scalars) where
  first := by
    intro c hc hm
    rw [exactAt, cellAt_eq hm hc]
    dsimp only
    exact ⟨exactScore_first, exactScore_misfit⟩
  next := by
    intro q c hq hc
    have habove : (rowAbove uc query scalars (q + 1))[c]? =
        some (cellAt (fillTables uc query scalars query.scalars.length) q c) := by
      rw [cellAt_eq (by omega) (by omega)]
      exact tableRow_getElem? (by omega)
    rw [exactAt, cellAt_eq hq hc]
    exact ⟨fun hfits => exactScore_next hfits habove, exactScore_misfit⟩
  edge := by
    intro q hq
    rw [exactAt]
    by_cases hn : 0 < scalars.length
    · rw [cellAt_eq hq hn]
      dsimp only
      exact exactScore_edge
    · obtain rfl : scalars = [] := eq_nil_of_length_eq_zero (by omega)
      rw [cellAt, fillTables_getD hq]
      rfl
  left := by
    intro q hq hn
    rw [bestAt, exactAt, cellAt_eq hq hn]
    exact max_eq_left bot_le
  along := by
    intro q c hq hc
    rw [bestAt, exactAt, cellAt_eq hq hc, bestAt, cellAt_eq hq (by omega)]
    rfl

variable {p : Nat}

theorem findCell_some (h : findCell rows q matchRequired cursor = some p) :
    p < cursor ∧ (cellAt rows q p).exact ≠ ⊥ ∧
      (matchRequired = false → (cellAt rows q p).exact = (cellAt rows q p).best) ∧
      ∀ c, p < c → c < cursor → (cellAt rows q c).exact = ⊥ ∨
        (matchRequired = false ∧ (cellAt rows q c).exact ≠ (cellAt rows q c).best) := by
  induction cursor with
  | zero => cases h
  | succ cursor ih =>
    rw [findCell] at h
    split at h
    · next hskip =>
      obtain ⟨hlt, hne, hbest, hlater⟩ := ih h
      refine ⟨by omega, hne, hbest, ?_⟩
      intro c hc hlast
      by_cases hhere : c = cursor
      · subst hhere
        exact hskip
      · exact hlater c hc (by omega)
    · next hstop =>
      cases h
      rw [not_or, not_and, not_not] at hstop
      exact ⟨by omega, hstop.1, hstop.2, fun c hc hlast => absurd hc (by omega)⟩

theorem findCell_none (h : findCell rows q matchRequired cursor = none) :
    ∀ c < cursor, (cellAt rows q c).exact = ⊥ ∨
      (matchRequired = false ∧ (cellAt rows q c).exact ≠ (cellAt rows q c).best) := by
  induction cursor with
  | zero =>
    intro c hc
    omega
  | succ cursor ih =>
    rw [findCell] at h
    split at h
    · next hskip =>
      intro c hc
      by_cases hhere : c = cursor
      · subst hhere
        exact hskip
      · exact ih h c (by omega)
    · cases h

/-- The walk stands on a cell that a later match requires. The row there has a better score, so the
flag for the next scalar is read from the wrong table; and the next scalar does belong right before,
although that row has a better score, too. -/
def StraysAt (uc : UnicodeCase) (query : Query) (scalars : List Scalar) (q c : Nat) : Prop :=
  bestAt uc query scalars (q + 1) (c + 1) ≠ exactAt uc query scalars (q + 1) (c + 1) ∧
    exactAt uc query scalars q c ≠ bestAt uc query scalars q c ∧
    bestAt uc query scalars q c + (boundaryBonus uc scalars (c + 1) : Int) <
      exactAt uc query scalars q c + (scoreMatchConsecutive : Int)

/-- The walk from here never strays. -/
def Straight (uc : UnicodeCase) (query : Query) (scalars : List Scalar) :
    Nat → Nat → Bool → Prop
  | 0, _, _ => True
  | q + 1, cursor, matchRequired =>
    ∀ c ∈ findCell (fillTables uc query scalars query.scalars.length) q matchRequired cursor,
      (matchRequired = true → 0 < q → 0 < c → ¬ StraysAt uc query scalars (q - 1) (c - 1)) ∧
        Straight uc query scalars q c
          (requiresMatch (fillTables uc query scalars query.scalars.length) q c)

theorem branchBonus_lt (previous : Option Scalar) (current : Scalar) :
    branchBonus uc previous current < scoreMatchConsecutive := by
  unfold branchBonus
  repeat' split
  all_goals decide

/-- The walk is at a row that it can go on in. -/
def Ready (uc : UnicodeCase) (query : Query) (scalars : List Scalar) (q cursor : Nat)
    (matchRequired : Bool) : Prop :=
  ∃ c, cursor = c + 1 ∧ c < scalars.length ∧
    if matchRequired then exactAt uc query scalars q c ≠ ⊥
    else bestAt uc query scalars q c ≠ ⊥

/-- The cell that the walk finds there. -/
structure Finds (uc : UnicodeCase) (query : Query) (scalars : List Scalar) (q cursor : Nat)
    (matchRequired : Bool) (p : Nat) : Prop where
  found : findCell (fillTables uc query scalars query.scalars.length) q matchRequired cursor =
    some p
  before : p < cursor
  scored : exactAt uc query scalars q p ≠ ⊥
  required : matchRequired = true → p + 1 = cursor
  free : matchRequired = false → exactAt uc query scalars q p = bestAt uc query scalars q p
  later : matchRequired = false → ∀ c, p < c → c < cursor → exactAt uc query scalars q c = ⊥ ∨
    exactAt uc query scalars q c ≠ bestAt uc query scalars q c

theorem Ready.finds (h : Ready uc query scalars q cursor matchRequired)
    (hq : q < query.scalars.length) :
    ∃ p, Finds uc query scalars q cursor matchRequired p := by
  obtain ⟨c, rfl, hc, hready⟩ := h
  have hfill := tables_fill uc query scalars
  cases hfound : findCell (fillTables uc query scalars query.scalars.length) q matchRequired
    (c + 1) with
  | none =>
    have hnone := findCell_none hfound
    cases matchRequired with
    | true =>
      rcases hnone c (Nat.lt_succ_self c) with hbot | ⟨hfree, -⟩
      · exact absurd hbot hready
      · cases hfree
    | false =>
      obtain ⟨p, d, hp, hne, heq, -⟩ := hfill.source hq hc hready
      rcases hnone p (by omega) with hbot | ⟨-, hother⟩
      · exact absurd hbot hne
      · exact absurd heq hother
  | some p =>
    obtain ⟨hlt, hne, hfree, hlater⟩ := findCell_some hfound
    refine ⟨p, hfound, hlt, hne, ?_, hfree, ?_⟩
    · rintro rfl
      by_contra hfar
      rcases hlater c (by omega) (Nat.lt_succ_self c) with hbot | ⟨hfalse, -⟩
      · exact absurd hbot hready
      · cases hfalse
    · rintro rfl e he hlast
      rcases hlater e he hlast with hbot | ⟨-, hother⟩
      · exact .inl hbot
      · exact .inr hother

/-- The walk from a row on: where it leads, and whether that is worth what the row promises. -/
structure Walks (uc : UnicodeCase) (query : Query) (scalars : List Scalar) (q cursor : Nat)
    (matchRequired : Bool) (p : Nat) (positions : List Nat) (v : Int) : Prop where
  walk : traceBack (fillTables uc query scalars query.scalars.length) (q + 1) cursor
    matchRequired = some positions
  aligned : (scoring uc query scalars).Aligned positions q p v
  bound : (v : WithBot Int) ≤ exactAt uc query scalars q p
  worth : (v : WithBot Int) = exactAt uc query scalars q p ↔
    Straight uc query scalars (q + 1) cursor matchRequired

theorem Finds.walks_first (h : Finds uc query scalars 0 cursor matchRequired p)
    (hq : 0 < query.scalars.length) (hp : p < scalars.length) :
    ∃ positions v, Walks uc query scalars 0 cursor matchRequired p positions v := by
  have hfill := tables_fill uc query scalars
  have hfits := hfill.fits_of_exact hq hp h.scored
  have hexact := (hfill.first p hp hq).1 hfits
  refine ⟨[p], _, ?_, .first hfits, le_of_eq hexact.symm, ?_⟩
  · rw [traceBack, h.found]
    rfl
  · refine iff_of_true hexact.symm ?_
    intro c hc
    exact ⟨fun _ hpos => absurd hpos (Nat.lt_irrefl 0), trivial⟩

/-- The next query scalar has to be matched right before: the flag as the walk reads it. -/
def flagAt (uc : UnicodeCase) (query : Query) (scalars : List Scalar) (q c : Nat) : Bool :=
  requiresMatch (fillTables uc query scalars query.scalars.length) q c

theorem flagAt_iff : flagAt uc query scalars (q + 1) (c + 1) = true ↔
    bestAt uc query scalars (q + 1) (c + 1) =
      exactAt uc query scalars q c + (scoreMatchConsecutive : Int) := by
  unfold flagAt requiresMatch
  rw [decide_eq_true_iff]
  constructor
  · rintro ⟨-, -, h⟩
    exact h
  · intro h
    exact ⟨Nat.succ_pos q, Nat.succ_pos c, h⟩

theorem Finds.comesFrom (h : Finds uc query scalars (q + 1) cursor matchRequired p)
    (hq : q + 1 < query.scalars.length) (hp : p < scalars.length) :
    ∃ c, p = c + 1 ∧ exactAt uc query scalars (q + 1) (c + 1) =
        max (bestAt uc query scalars q c + (boundaryBonus uc scalars (c + 1) : Int))
          (exactAt uc query scalars q c + (scoreMatchConsecutive : Int)) ∧
      Ready uc query scalars q (c + 1) (flagAt uc query scalars (q + 1) (c + 1)) := by
  have hfill := tables_fill uc query scalars
  have hscored := h.scored
  cases p with
  | zero => exact absurd (hfill.edge q hq) hscored
  | succ c =>
    have hexact := (hfill.next q c hq hp).1 (hfill.fits_of_exact hq hp hscored)
    refine ⟨c, rfl, hexact, c, rfl, by omega, ?_⟩
    have hle := hfill.exact_le_best (by omega : q < query.scalars.length)
      (by omega : c < scalars.length)
    have hbest : bestAt uc query scalars q c ≠ ⊥ := by
      intro hbot
      rw [hbot, le_bot_iff] at hle
      rw [hexact, hbot, hle, WithBot.bot_add, WithBot.bot_add, max_self] at hscored
      exact hscored rfl
    split
    · next hflag =>
      have hup := hfill.exact_le_best hq hp
      rw [flagAt_iff.mp hflag] at hup
      intro hbot
      rw [hbot, WithBot.bot_add, le_bot_iff] at hup
      exact hscored hup
    · exact hbest

variable {v : Int}

/-- Behind the place that was found the row only falls. -/
theorem Finds.row_behind {d : Nat} {x : Int} (h : Finds uc query scalars q (c + d + 1) false c)
    (hq : q + 1 < query.scalars.length) (hlt : c + d < scalars.length)
    (hx : (x : WithBot Int) = exactAt uc query scalars q c) :
    bestAt uc query scalars q (c + d) = ((x + (d : Int) * scoreGapInner : Int) : WithBot Int) := by
  have hfalls := (tables_fill uc query scalars).falls_from (by omega : q < query.scalars.length) d
    (by omega) (fun e he => h.later rfl (c + e + 1) (by omega) (by omega))
  have hslope : (scoring uc query scalars).slope query.scalars.length scoreGapTrailing q =
      scoreGapInner := if_neg (by omega)
  rw [hfalls, hslope, ← h.free rfl, ← hx, WithBot.coe_add]

section

variable (hq : q + 1 < query.scalars.length) (hp : c + 1 < scalars.length)
  (hexact : exactAt uc query scalars (q + 1) (c + 1) =
    max (bestAt uc query scalars q c + (boundaryBonus uc scalars (c + 1) : Int))
      (exactAt uc query scalars q c + (scoreMatchConsecutive : Int)))
include hq hp hexact

/-- The streak goes on, and the row above has no better score than its own cell. -/
theorem Finds.streak {x : Int}
    (h : Finds uc query scalars q (c + 1) (flagAt uc query scalars (q + 1) (c + 1)) c)
    (hx : (x : WithBot Int) = exactAt uc query scalars q c) :
    exactAt uc query scalars (q + 1) (c + 1) = ((x + scoreMatchConsecutive : Int) : WithBot Int) ∧
      ¬ StraysAt uc query scalars q c := by
  have hbonus : boundaryBonus uc scalars (c + 1) < scoreMatchConsecutive := branchBonus_lt _ _
  cases hflag : flagAt uc query scalars (q + 1) (c + 1) with
  | true =>
    have hrow := flagAt_iff.mp hflag
    have hsame : exactAt uc query scalars (q + 1) (c + 1) =
        bestAt uc query scalars (q + 1) (c + 1) := by
      refine le_antisymm ((tables_fill uc query scalars).exact_le_best hq hp) ?_
      rw [hrow, hexact]
      exact le_max_right _ _
    refine ⟨?_, fun hstrays => hstrays.1 hsame.symm⟩
    rw [hsame, hrow, ← hx, WithBot.coe_add]
  | false =>
    have hsame := h.free hflag
    refine ⟨?_, fun hstrays => hstrays.2.1 hsame⟩
    rw [hexact, ← hsame, ← hx, ← WithBot.coe_add, ← WithBot.coe_add, ← WithBot.coe_max,
      max_eq_right (by omega)]

theorem Finds.worth_next {p' : Nat} (h : Finds uc query scalars (q + 1) cursor matchRequired (c + 1))
    (h' : Finds uc query scalars q (c + 1) (flagAt uc query scalars (q + 1) (c + 1)) p')
    (hbound : (v : WithBot Int) ≤ exactAt uc query scalars q p') :
    ((v + (scoring uc query scalars).join p' (c + 1) : Int) : WithBot Int) =
        exactAt uc query scalars (q + 1) (c + 1) ↔
      (matchRequired = true → ¬ StraysAt uc query scalars q c) ∧
        (v : WithBot Int) = exactAt uc query scalars q p' := by
  obtain ⟨x, hx⟩ := WithBot.ne_bot_iff_exists.mp h'.scored
  rw [← hx, WithBot.coe_le_coe] at hbound
  have hlast : p' < c + 1 := h'.before
  by_cases hnear : p' = c
  · subst hnear
    have hjoin : (scoring uc query scalars).join p' (p' + 1) = scoreMatchConsecutive := if_pos rfl
    have hboth := h'.streak hq hp hexact hx
    rw [hjoin, hboth.1, ← hx, WithBot.coe_inj, WithBot.coe_inj]
    constructor
    · intro heq
      exact ⟨fun _ => hboth.2, by omega⟩
    · rintro ⟨-, rfl⟩
      rfl
  · -- The walk leaves a gap, so the flag was not set.
    have hflag : flagAt uc query scalars (q + 1) (c + 1) = false := by
      rw [← Bool.not_eq_true]
      intro htrue
      have hreq := h'.required htrue
      omega
    obtain ⟨d, rfl⟩ : ∃ d, c = p' + d := ⟨c - p', by omega⟩
    have hrow := (hflag ▸ h').row_behind hq (by omega) hx
    have hjoin : (scoring uc query scalars).join p' (p' + d + 1) =
        boundaryBonus uc scalars (p' + d + 1) + (d : Int) * scoreGapInner := by
      have hgap : ((p' + d + 1 - p' - 1 : Nat) : Int) = d := by omega
      rw [Scoring.join, if_neg (by omega), hgap]
      rfl
    have hother : exactAt uc query scalars q (p' + d) ≠ bestAt uc query scalars q (p' + d) := by
      rcases h'.later hflag (p' + d) (by omega) (by omega) with hbot | hne
      · rw [hbot, hrow]
        exact WithBot.bot_ne_coe
      · exact hne
    rw [hjoin, ← hx, WithBot.coe_inj]
    by_cases hlt : bestAt uc query scalars q (p' + d) + (boundaryBonus uc scalars (p' + d + 1) : Int) <
          exactAt uc query scalars q (p' + d) + (scoreMatchConsecutive : Int)
    · -- The streak would have been better, so the flag came from the wrong table.
      have hstreak : exactAt uc query scalars (q + 1) (p' + d + 1) =
          exactAt uc query scalars q (p' + d) + (scoreMatchConsecutive : Int) := by
        rw [hexact]
        exact max_eq_right (le_of_lt hlt)
      have hunset : bestAt uc query scalars (q + 1) (p' + d + 1) ≠
          exactAt uc query scalars (q + 1) (p' + d + 1) := by
        intro heq
        rw [hstreak] at heq
        rw [flagAt_iff.mpr heq] at hflag
        cases hflag
      have hreq : matchRequired = true := by
        rw [← Bool.not_eq_false]
        intro hfree
        exact hunset (h.free hfree).symm
      constructor
      · intro heq
        rw [hrow, ← WithBot.coe_add, ← hstreak, ← heq, WithBot.coe_lt_coe] at hlt
        omega
      · rintro ⟨hstays, -⟩
        exact absurd ⟨hunset, hother, hlt⟩ (hstays hreq)
    · have hgap : exactAt uc query scalars (q + 1) (p' + d + 1) =
          ((x + (d : Int) * scoreGapInner + boundaryBonus uc scalars (p' + d + 1) : Int) :
            WithBot Int) := by
        rw [hexact, max_eq_left (not_lt.mp hlt), hrow, ← WithBot.coe_add]
      rw [hgap, WithBot.coe_inj]
      constructor
      · intro heq
        exact ⟨fun _ hstrays => hlt hstrays.2.2, by omega⟩
      · rintro ⟨-, rfl⟩
        ring

end

/-- Whatever the walk is ready for, it goes through to the first query scalar. -/
theorem Finds.walks (h : Finds uc query scalars q cursor matchRequired p)
    (hq : q < query.scalars.length) (hp : p < scalars.length) :
    ∃ positions v, Walks uc query scalars q cursor matchRequired p positions v := by
  induction q generalizing cursor matchRequired p with
  | zero => exact h.walks_first hq hp
  | succ q ih =>
    obtain ⟨c, rfl, hexact, hready⟩ := h.comesFrom hq hp
    obtain ⟨p', h'⟩ := hready.finds (by omega)
    have hlt := h'.before
    obtain ⟨positions, v, hwalks⟩ := ih h' (by omega) (by omega)
    have hfill := tables_fill uc query scalars
    have haligned := Scoring.Aligned.next hwalks.aligned hlt (hfill.fits_of_exact hq hp h.scored)
    have hworth := h.worth_next hq hp hexact h' hwalks.bound
    refine ⟨_, _, ?_, haligned, haligned.le_exact hfill hq hp, ?_⟩
    · have hwalk := hwalks.walk
      rw [traceBack, h.found]
      dsimp only
      rw [show requiresMatch (fillTables uc query scalars query.scalars.length) (q + 1) (c + 1) =
        flagAt uc query scalars (q + 1) (c + 1) from rfl, hwalk, Option.map_some]
    · rw [hworth, hwalks.worth]
      constructor
      · rintro ⟨hstays, hstraight⟩
        intro c' hc'
        rw [h.found] at hc'
        cases hc'
        exact ⟨fun hreq _ _ => hstays hreq, hstraight⟩
      · intro hstraight
        obtain ⟨hstays, hrest⟩ := hstraight (c + 1) h.found
        exact ⟨fun hreq => hstays hreq (Nat.succ_pos q) (Nat.succ_pos c), hrest⟩

/-- No scalar outside ASCII. -/
def asciiCase : UnicodeCase := ⟨fun _ => false, fun _ => false, id⟩

end Bbr.Search
