import Bbr.Search.FuzzyLaws
import Mathlib.Data.List.Basic
import Mathlib.Tactic.IntervalCases

/-!
# When fuzzy matching is optimal

The walk back leads to a best matching unless a streak misleads it. That is told by the matchings alone:
the walk takes every scalar as late as the best matchings allow, the last one first, and avoids a streak
of three whose first two scalars are both worth more further ahead.
-/
namespace Bbr.Search

open Bbr.Lib List

variable {uc : UnicodeCase} {query : Query} {scalars : List Scalar} {q c n p cursor : Nat}
  {matchRequired : Bool} {positions : List Nat} {v : Int}

/-- The query scalars on later and later candidate scalars, each on one that it equals. -/
structure Matching (uc : UnicodeCase) (query : Query) (scalars : List Scalar)
    (positions : List Nat) : Prop where
  length : positions.length = query.scalars.length
  increasing : positions.Pairwise (· < ·)
  fits : ∀ (i : Nat) needle position, query.scalars[i]? = some needle → positions[i]? = some position →
    ∃ scalar, scalars[position]? = some scalar ∧ equalScalar uc query needle scalar = true

/-- The score of positions without the gap after the last one. -/
def openScore (uc : UnicodeCase) (scalars : List Scalar) : List Nat → Int
  | [] => 0
  | first :: rest => first * scoreGapLeading + boundaryBonus uc scalars first +
      joinedScore uc scalars first rest

theorem joinedScore_append (before : Nat) (rest : List Nat) (c : Nat) (hlt : rest.getLastD before < c) :
    joinedScore uc scalars before (rest ++ [c]) = joinedScore uc scalars before rest +
      (scoring uc query scalars).join (rest.getLastD before) c := by
  induction rest generalizing before with
  | nil =>
    rw [getLastD_nil] at hlt ⊢
    simp only [nil_append, joinedScore, Scoring.join, Int.add_zero, Int.zero_add]
    by_cases hnear : c = before + 1
    · rw [if_pos (by omega), if_pos hnear]
      rfl
    · rw [if_neg (by omega), if_neg hnear]
      rfl
  | cons position rest ih =>
    rw [getLastD_cons] at hlt ⊢
    rw [cons_append, joinedScore, joinedScore, ih position hlt, add_assoc]

theorem openScore_append {places : List Nat} (c : Nat) (hne : places ≠ [])
    (hlt : places.getLastD 0 < c) : openScore uc scalars (places ++ [c]) =
      openScore uc scalars places + (scoring uc query scalars).join (places.getLastD 0) c := by
  cases places with
  | nil => exact absurd rfl hne
  | cons first rest =>
    rw [getLastD_cons] at hlt ⊢
    rw [cons_append, openScore, openScore, joinedScore_append first rest c hlt, add_assoc,
      add_assoc, add_assoc]

theorem alignmentScore_eq (hne : positions ≠ []) : alignmentScore uc scalars positions =
    openScore uc scalars positions +
      ((scalars.length - positions.getLastD 0 - 1 : Nat) : Int) * scoreGapTrailing := by
  cases positions with
  | nil => exact absurd rfl hne
  | cons first rest => rfl

/-- What an alignment of the tables is, as a list of positions. -/
structure Placed (uc : UnicodeCase) (query : Query) (scalars : List Scalar)
    (positions : List Nat) (q c : Nat) (v : Int) : Prop where
  length : positions.length = q + 1
  last : positions.getLastD 0 = c
  within : ∀ p ∈ positions, p ≤ c
  increasing : positions.Pairwise (· < ·)
  fits : ∀ i p, positions[i]? = some p → (scoring uc query scalars).fits i p
  score : openScore uc scalars positions = v

theorem placed_of_aligned (h : (scoring uc query scalars).Aligned positions q c v) :
    Placed uc query scalars positions q c v := by
  induction h with
  | @first c fits =>
    refine ⟨rfl, rfl, by simp, pairwise_singleton _ _, ?_, ?_⟩
    · intro i p hp
      cases i with
      | zero =>
        cases hp
        exact fits
      | succ i => cases hp
    · simp [openScore, joinedScore, scoring]
  | @next places q p c v before later fits ih =>
    have hne : places ≠ [] := by
      rintro rfl
      have hlen := ih.length
      cases hlen
    refine ⟨by simp [ih.length], by simp, ?_, ?_, ?_, ?_⟩
    · intro x hx
      rcases mem_append.mp hx with hx | hx
      · have hle := ih.within x hx
        omega
      · rw [mem_singleton.mp hx]
    · rw [pairwise_append]
      refine ⟨ih.increasing, pairwise_singleton _ _, ?_⟩
      intro x hx y hy
      rw [mem_singleton.mp hy]
      have hle := ih.within x hx
      omega
    · intro i x hx
      by_cases hi : i < places.length
      · rw [getElem?_append_left hi] at hx
        exact ih.fits i x hx
      rw [getElem?_append_right (by omega)] at hx
      have hlen := ih.length
      have hzero : i - places.length = 0 := by
        by_contra hpos
        obtain ⟨j, hj⟩ : ∃ j, i - places.length = j + 1 := ⟨i - places.length - 1, by omega⟩
        rw [hj] at hx
        cases hx
      rw [hzero] at hx
      cases hx
      obtain rfl : i = q + 1 := by omega
      exact fits
    · rw [openScore_append c hne (by rw [ih.last]; exact later), ih.score, ih.last]

/-- Every list of positions that increases and fits is an alignment of the tables. -/
theorem aligned_of_fits (hne : positions ≠ []) (hinc : positions.Pairwise (· < ·))
    (hfits : ∀ i p, positions[i]? = some p → (scoring uc query scalars).fits i p) :
    ∃ v, (scoring uc query scalars).Aligned positions (positions.length - 1)
      (positions.getLastD 0) v := by
  induction positions using reverseRecOn with
  | nil => exact absurd rfl hne
  | append_singleton places c ih =>
    by_cases hfirst : places = []
    · subst hfirst
      exact ⟨_, .first (hfits 0 c rfl)⟩
    obtain ⟨hplaces, -, hlt⟩ := pairwise_append.mp hinc
    have hfits' : ∀ i p, places[i]? = some p → (scoring uc query scalars).fits i p := by
      intro i p hp
      have hi : i < places.length := (List.getElem?_eq_some_iff.mp hp).1
      exact hfits i p (by rw [List.getElem?_append_left hi]; exact hp)
    obtain ⟨v, hv⟩ := ih hfirst hplaces hfits'
    have hpos : 0 < places.length := List.length_pos_iff.mpr hfirst
    have hlast : places.getLastD 0 < c := by
      rw [getLastD_eq_getLast?, getLast?_eq_some_getLast hfirst, Option.getD_some]
      exact hlt _ (getLast_mem hfirst) c (mem_singleton_self c)
    obtain ⟨k, hk⟩ : ∃ k, places.length = k + 1 := ⟨places.length - 1, by omega⟩
    rw [hk] at hv
    have hfit : (scoring uc query scalars).fits (k + 1) c := by
      refine hfits (k + 1) c ?_
      rw [getElem?_append_right (by omega), hk, Nat.sub_self]
      rfl
    refine ⟨v + (scoring uc query scalars).join (places.getLastD 0) c, ?_⟩
    rw [length_append, hk, getLastD_concat]
    exact .next hv hlast hfit

theorem aligned_le (h : (scoring uc query scalars).Aligned positions q c v) : q ≤ c := by
  induction h with
  | first => omega
  | next before later fits ih => omega

theorem Placed.matching (h : Placed uc query scalars positions q c v)
    (hq : query.scalars.length = q + 1) (hc : c < scalars.length) :
    Matching uc query scalars positions := by
  refine ⟨h.length.trans hq.symm, h.increasing, ?_⟩
  intro i needle position hneedle hposition
  have hle := h.within position (mem_of_getElem? hposition)
  have hlt : position < scalars.length := by omega
  have hfit := fits_iff.mp (h.fits i position hposition)
  rw [getD_eq_getElem?_getD, getD_eq_getElem?_getD, hneedle, getElem?_eq_getElem hlt] at hfit
  exact ⟨_, getElem?_eq_getElem hlt, hfit⟩

theorem Matching.aligned (h : Matching uc query scalars positions)
    (hq : query.scalars.length = q + 1) : ∃ c v, c < scalars.length ∧
      (scoring uc query scalars).Aligned positions q c v := by
  have hne : positions ≠ [] := by
    rintro rfl
    have hlen := h.length
    rw [hq] at hlen
    cases hlen
  have hplace (i p : Nat) (hp : positions[i]? = some p) :
      p < scalars.length ∧ (scoring uc query scalars).fits i p := by
    have hi : i < positions.length := (List.getElem?_eq_some_iff.mp hp).1
    obtain ⟨needle, hneedle⟩ : ∃ needle, query.scalars[i]? = some needle :=
      ⟨_, List.getElem?_eq_getElem (h.length ▸ hi)⟩
    obtain ⟨scalar, hscalar, hequal⟩ := h.fits i _ p hneedle hp
    refine ⟨(List.getElem?_eq_some_iff.mp hscalar).1, fits_iff.mpr ?_⟩
    rw [List.getD_eq_getElem?_getD, List.getD_eq_getElem?_getD, hneedle, hscalar]
    exact hequal
  obtain ⟨v, hv⟩ := aligned_of_fits hne h.increasing (fun i p hp => (hplace i p hp).2)
  have hlen : positions.length - 1 = q := by
    have hlen := h.length
    omega
  refine ⟨positions.getLastD 0, v, ?_, hlen ▸ hv⟩
  have hlast : positions[positions.length - 1]? = some (positions.getLastD 0) := by
    rw [← getLast?_eq_getElem?, getLastD_eq_getLast?, getLast?_eq_some_getLast hne, Option.getD_some]
  exact (hplace _ _ hlast).1

/-- No result exactly when nothing matches; else a best matching, with its own score. -/
structure Optimal (uc : UnicodeCase) (query : Query) (scalars : List Scalar) (wholeLine : Bool) :
    Prop where
  none_iff : fuzzyAlignment uc query scalars wholeLine = none ↔
    ¬ ∃ positions, Matching uc query scalars positions
  matching : ∀ a, fuzzyAlignment uc query scalars wholeLine = some a →
    Matching uc query scalars a.positions
  score : ∀ a, fuzzyAlignment uc query scalars wholeLine = some a →
    ((alignmentScore uc scalars a.positions : Int) : WithTop Int) = a.score
  best : ∀ a, fuzzyAlignment uc query scalars wholeLine = some a → ∀ positions,
    Matching uc query scalars positions →
      alignmentScore uc scalars positions ≤ alignmentScore uc scalars a.positions

theorem alignmentScore_placed (h : Placed uc query scalars positions q c v) :
    alignmentScore uc scalars positions =
      v + ((scalars.length - c - 1 : Nat) : Int) * scoreGapTrailing := by
  have hne : positions ≠ [] := by
    rintro rfl
    have hlen := h.length
    cases hlen
  rw [alignmentScore_eq hne, h.score, h.last]

theorem slope_last (hq : query.scalars.length = q + 1) : (scoring uc query scalars).slope
    query.scalars.length scoreGapTrailing q = scoreGapTrailing := if_pos hq.symm

theorem Matching.score_le (h : Matching uc query scalars positions)
    (hq : query.scalars.length = q + 1) (hc : scalars.length = c + 1) :
    ((alignmentScore uc scalars positions : Int) : WithBot Int) ≤
      bestAt uc query scalars q c := by
  obtain ⟨p, v, hp, haligned⟩ := h.aligned hq
  obtain ⟨d, rfl⟩ : ∃ d, c = p + d := ⟨c - p, by omega⟩
  have hle := haligned.le_best (tables_fill uc query scalars) (by omega) d (by omega)
  have hgap : scalars.length - p - 1 = d := by omega
  rw [alignmentScore_placed (placed_of_aligned haligned), hgap]
  rw [slope_last hq] at hle
  exact hle

theorem straight_of_unmatched (hq : query.scalars.length = q + 1)
    (hnone : ¬ ∃ positions, Matching uc query scalars positions) :
    Straight uc query scalars (q + 1) scalars.length false := by
  intro p hp
  obtain ⟨hlt, hne, hbest, hlater⟩ := findCell_some hp
  have hfinds : Finds uc query scalars q scalars.length false p :=
    ⟨hp, hlt, hne, by rintro ⟨⟩, hbest, fun _ c hc hlast => (hlater c hc hlast).imp id And.right⟩
  obtain ⟨positions, v, hwalks⟩ := hfinds.walks (by omega) hlt
  exact absurd ⟨positions, (placed_of_aligned hwalks.aligned).matching hq hlt⟩ hnone

theorem Optimal.of_unmatched {wholeLine : Bool}
    (hresult : fuzzyAlignment uc query scalars wholeLine = none)
    (hnone : ¬ ∃ positions, Matching uc query scalars positions) :
    Optimal uc query scalars wholeLine := by
  constructor
  · exact iff_of_true hresult hnone
  all_goals
    intro a ha
    rw [hresult] at ha
    cases ha

theorem exactAlignment_optimal_iff {wholeLine : Bool} (hq : query.scalars.length = q + 1)
    (hc : scalars.length = c + 1) (hexact : fuzzyAlignment uc query scalars wholeLine =
      exactAlignment uc query scalars) :
    Optimal uc query scalars wholeLine ↔ Straight uc query scalars (q + 1) scalars.length false := by
  have hfill := tables_fill uc query scalars
  have hc' : c + 1 - 1 = c := rfl
  have hfinal : (cellAt (fillTables uc query scalars query.scalars.length)
      (query.scalars.length - 1) (scalars.length - 1)).best = bestAt uc query scalars q c := by
    rw [bestAt, hc, hc']
    congr 2
    omega
  cases hbest : bestAt uc query scalars q c with
  | bot =>
    have hnone : ¬ ∃ positions, Matching uc query scalars positions := by
      rintro ⟨positions, hmatching⟩
      have hle := hmatching.score_le hq hc
      rw [hbest, le_bot_iff] at hle
      exact WithBot.coe_ne_bot hle
    have hresult : fuzzyAlignment uc query scalars wholeLine = none := by
      rw [hexact, exactAlignment]
      simp only [hfinal, hbest]
    exact iff_of_true (.of_unmatched hresult hnone) (straight_of_unmatched hq hnone)
  | coe score =>
    have hready : Ready uc query scalars q (c + 1) false :=
      ⟨c, rfl, by omega, by rw [hbest]; exact WithBot.coe_ne_bot⟩
    obtain ⟨p, hfinds⟩ := hready.finds (by omega)
    have hp : p < scalars.length := by
      have hlt := hfinds.before
      omega
    obtain ⟨positions, v, hwalks⟩ := hfinds.walks (by omega) hp
    have hplaced := placed_of_aligned hwalks.aligned
    have hmatching := hplaced.matching hq hp
    have hresult : fuzzyAlignment uc query scalars wholeLine =
        some ⟨positions, ((score : Int) : WithTop Int), .exact⟩ := by
      have hwalk := hwalks.walk
      rw [hexact, exactAlignment]
      simp only [hfinal, hbest]
      rw [hq, hc] at *
      rw [hwalk, Option.map_some]
    -- The row falls to the final cell from the cell that the walk starts on.
    have htotal : bestAt uc query scalars q c = exactAt uc query scalars q p +
        ((((scalars.length - p - 1 : Nat) : Int) * scoreGapTrailing : Int) : WithBot Int) := by
      obtain ⟨d, rfl⟩ : ∃ d, c = p + d := ⟨c - p, by omega⟩
      have hfalls := hfill.falls_from (by omega : q < query.scalars.length) d (by omega)
        (fun e he => hfinds.later rfl (p + e + 1) (by omega) (by omega))
      have hgap : scalars.length - p - 1 = d := by omega
      rw [hfalls, slope_last hq, hgap, ← hfinds.free rfl]
    obtain ⟨x, hx⟩ := WithBot.ne_bot_iff_exists.mp hfinds.scored
    rw [hbest, ← hx, ← WithBot.coe_add, WithBot.coe_inj] at htotal
    have hworth := hwalks.worth
    rw [← hx, WithBot.coe_inj] at hworth
    have hscore := alignmentScore_placed hplaced
    constructor
    · intro hoptimal
      have hsame := hoptimal.score _ hresult
      rw [WithTop.coe_inj, hscore, htotal] at hsame
      have hstraight := hworth.mp (by omega)
      rwa [← hc] at hstraight
    · intro hstraight
      rw [hc] at hstraight
      have hvalue : v = x := hworth.mpr hstraight
      have hreturned : alignmentScore uc scalars positions = score := by
        rw [hscore, hvalue, htotal]
      constructor
      · rw [hresult]
        exact iff_of_false (by simp) (fun hnone => hnone ⟨positions, hmatching⟩)
      all_goals
        intro a ha
        rw [hresult, Option.some.injEq] at ha
        subst ha
      · exact hmatching
      · exact congrArg _ hreturned
      · intro other hother
        have hle := hother.score_le hq hc
        rw [hbest, WithBot.coe_le_coe] at hle
        rwa [hreturned]

/-- A matching with the greatest score. -/
structure BestMatching (uc : UnicodeCase) (query : Query) (scalars : List Scalar)
    (positions : List Nat) : Prop where
  matching : Matching uc query scalars positions
  best : ∀ others, Matching uc query scalars others →
    alignmentScore uc scalars others ≤ alignmentScore uc scalars positions

/-- A query scalar on `c` begins a streak of three of which the first two are beaten: the query up to
either of them is worth more with its last scalar further ahead. -/
def Misleads (uc : UnicodeCase) (query : Query) (scalars : List Scalar) (q c : Nat)
    (later : List Nat) : Prop :=
  ∃ rest, later = (c + 1) :: (c + 2) :: rest ∧ (scoring uc query scalars).Beaten q c ∧
    (scoring uc query scalars).Beaten (q + 1) (c + 1)

/-- A best matching without such a streak. Any other is earlier than this one, where they differ seen
from the last scalar, or begins such a streak there. -/
structure Traceable (uc : UnicodeCase) (query : Query) (scalars : List Scalar)
    (positions : List Nat) : Prop where
  best : BestMatching uc query scalars positions
  direct : ∀ places c later, positions = places ++ c :: later →
    ¬ Misleads uc query scalars places.length c later
  latest : ∀ places c later others d, positions = places ++ c :: later →
    BestMatching uc query scalars (others ++ d :: later) →
      d ≤ c ∨ Misleads uc query scalars others.length d later

theorem bonus_lt_streak (c : Nat) :
    (scoring uc query scalars).bonus c < (scoring uc query scalars).streak :=
  branchBonus_lt _ _

theorem aligned_unique {w : Int} (h : (scoring uc query scalars).Aligned positions q c v)
    (h' : (scoring uc query scalars).Aligned positions q c w) : v = w :=
  (placed_of_aligned h).score.symm.trans (placed_of_aligned h').score

theorem exists_eq_concat (h : (scoring uc query scalars).Aligned positions q c v) :
    ∃ places, positions = places ++ [c] := getLast?_eq_some_iff.mp h.getLast

/-- Up to each of its places a best matching is worth what the cell there is, and anything else that
is worth as much may stand there. -/
theorem BestMatching.exchange {places later : List Nat}
    (h : BestMatching uc query scalars (places ++ c :: later)) :
    ∃ w : Int, (scoring uc query scalars).Aligned (places ++ [c]) places.length c w ∧
      exactAt uc query scalars places.length c = w ∧
      ∀ others, (scoring uc query scalars).Aligned (others ++ [c]) places.length c w →
        BestMatching uc query scalars (others ++ c :: later) := by
  have hlength := h.matching.length
  rw [length_append, length_cons] at hlength
  obtain ⟨q, hq⟩ : ∃ q, query.scalars.length = q + 1 := ⟨places.length + later.length, by omega⟩
  obtain ⟨e, v, he, ha⟩ := h.matching.aligned hq
  have hc : c ≤ e := (placed_of_aligned ha).within c (mem_append_right _ mem_cons_self)
  obtain ⟨w, hw, hothers⟩ := ha.exchange
  have hfill := tables_fill uc query scalars
  have hscore := alignmentScore_placed (placed_of_aligned ha)
  have hle := hw.le_exact hfill (by omega) (by omega)
  obtain ⟨x, hx⟩ : ∃ x : Int, (x : WithBot Int) = exactAt uc query scalars places.length c := by
    rw [← WithBot.ne_bot_iff_exists]
    intro hnone
    rw [hnone, le_bot_iff] at hle
    exact WithBot.coe_ne_bot hle
  obtain ⟨list, hlist⟩ := hfill.attained bonus_lt_streak (by omega) (by omega) hx.symm
  obtain ⟨others, rfl⟩ := exists_eq_concat hlist
  have hplaced := placed_of_aligned (hothers others x hlist)
  have hworse := h.best _ (hplaced.matching hq he)
  rw [hscore, alignmentScore_placed hplaced] at hworse
  rw [← hx, WithBot.coe_le_coe] at hle
  obtain rfl : w = x := by omega
  refine ⟨w, hw, hx.symm, fun others hsame => ?_⟩
  have hplaced := placed_of_aligned (hothers others w hsame)
  rw [sub_add_cancel] at hplaced
  refine ⟨hplaced.matching hq he, fun list hmatching => ?_⟩
  rw [alignmentScore_placed hplaced, ← hscore]
  exact h.best list hmatching

section Last

variable (hq : query.scalars.length = q + 1) (hn : scalars.length = n + 1)
include hq hn

/-- The best matchings are those with the score of the final cell. -/
theorem Matching.best_iff (h : Matching uc query scalars positions) :
    BestMatching uc query scalars positions ↔
      ((alignmentScore uc scalars positions : Int) : WithBot Int) =
        bestAt uc query scalars q n := by
  have hfill := tables_fill uc query scalars
  have hle := h.score_le hq hn
  constructor
  · intro hbest
    refine le_antisymm hle ?_
    have hfinal : bestAt uc query scalars q n ≠ ⊥ := by
      intro hnone
      rw [hnone, le_bot_iff] at hle
      exact WithBot.coe_ne_bot hle
    obtain ⟨p, d, rfl, hne, -, hvalue⟩ := hfill.source (by omega : q < query.scalars.length)
      (by omega) hfinal
    obtain ⟨x, hx⟩ := WithBot.ne_bot_iff_exists.mp hne
    obtain ⟨list, hlist⟩ := hfill.attained bonus_lt_streak (by omega) (by omega) hx.symm
    have hplaced := placed_of_aligned hlist
    have hworse := hbest.best list (hplaced.matching hq (by omega))
    have hgap : scalars.length - p - 1 = d := by omega
    rw [alignmentScore_placed hplaced, hgap] at hworse
    rw [hvalue, ← hx, slope_last hq, ← WithBot.coe_add, WithBot.coe_le_coe]
    exact hworse
  · intro hscore
    refine ⟨h, fun others hothers => ?_⟩
    have hother := hothers.score_le hq hn
    rwa [← hscore, WithBot.coe_le_coe] at hother

theorem Finds.last (h : Finds uc query scalars q scalars.length false p) :
    (∃ places, BestMatching uc query scalars (places ++ [p])) ∧
      ∀ places c, BestMatching uc query scalars (places ++ [c]) → c ≤ p := by
  have hfill := tables_fill uc query scalars
  have hp := h.before
  constructor
  · obtain ⟨x, hx⟩ := WithBot.ne_bot_iff_exists.mp h.scored
    obtain ⟨list, hlist⟩ := hfill.attained bonus_lt_streak (by omega) (by omega) hx.symm
    obtain ⟨places, rfl⟩ := exists_eq_concat hlist
    have hplaced := placed_of_aligned hlist
    refine ⟨places, ((hplaced.matching hq hp).best_iff hq hn).mpr ?_⟩
    obtain ⟨d, rfl⟩ : ∃ d, n = p + d := ⟨n - p, by omega⟩
    have hfalls := hfill.falls_from (by omega : q < query.scalars.length) d (by omega)
      (fun e he => h.later rfl (p + e + 1) (by omega) (by omega))
    have hgap : scalars.length - p - 1 = d := by omega
    rw [alignmentScore_placed hplaced, hgap, hfalls, slope_last hq, ← h.free rfl, ← hx, WithBot.coe_add]
  · intro places c hbest
    by_contra hlt
    have hlength := hbest.matching.length
    rw [length_append, length_singleton] at hlength
    obtain rfl : places.length = q := by omega
    obtain ⟨w, hw, hexact, -⟩ := hbest.exchange
    have hscore := (hbest.matching.best_iff hq hn).mp hbest
    have hplaced := placed_of_aligned hw
    have hc : c < scalars.length := by
      obtain ⟨e, v, he, ha⟩ := hbest.matching.aligned hq
      have hle := (placed_of_aligned ha).within c (mem_append_right _ mem_cons_self)
      omega
    obtain ⟨d, rfl⟩ : ∃ d, n = c + d := ⟨n - c, by omega⟩
    have hgap : scalars.length - c - 1 = d := by omega
    have hfalls := hfill.best_falls (by omega : places.length < query.scalars.length) (p := c) d
      (by omega)
    rw [slope_last hq, ← hscore, alignmentScore_placed hplaced, hgap, WithBot.coe_add, ← hexact] at hfalls
    have hle : bestAt uc query scalars places.length c ≤
        exactAt uc query scalars places.length c := WithBot.le_of_add_le_add_right
          WithBot.coe_ne_bot hfalls
    rcases h.later rfl c (by omega) hc with hnone | hne
    · rw [hnone] at hexact
      exact WithBot.coe_ne_bot hexact.symm
    · exact hne (le_antisymm (hfill.exact_le_best (by omega) hc) hle)

end Last

theorem BestMatching.step {places later : List Nat} {d : Nat}
    (h : BestMatching uc query scalars (places ++ d :: c :: later)) : d < c ∧ ∃ x : Int,
      exactAt uc query scalars places.length d = x ∧
      exactAt uc query scalars (places.length + 1) c =
        ((x + (scoring uc query scalars).join d c : Int) : WithBot Int) := by
  obtain ⟨x, hx, hexact, -⟩ := h.exchange
  rw [show places ++ d :: c :: later = (places ++ [d]) ++ c :: later by simp] at h
  obtain ⟨w, hw, hexact', -⟩ := h.exchange
  rw [length_append, length_singleton] at hw hexact'
  obtain ⟨-, q', p, u, hq', hlt, -, hbefore, rfl⟩ := hw.last (by simp)
  obtain rfl : places.length = q' := Nat.succ.inj hq'
  have hlast := hbefore.getLast
  rw [getLast?_concat] at hlast
  obtain rfl := Option.some.inj hlast
  obtain rfl := aligned_unique hx hbefore
  exact ⟨hlt, x, hexact, hexact'⟩

section Node

variable {w : Nat} {later : List Nat}
  (h : Finds uc query scalars (q + 1) cursor matchRequired (c + 1))
  (h' : Finds uc query scalars q (c + 1) (flagAt uc query scalars (q + 1) (c + 1)) w)
  (hp : c + 1 < scalars.length)
  (hexact : exactAt uc query scalars (q + 1) (c + 1) =
    max (bestAt uc query scalars q c + (boundaryBonus uc scalars (c + 1) : Int))
      (exactAt uc query scalars q c + (scoreMatchConsecutive : Int)))
  (hlength : query.scalars.length = q + 2 + later.length)

section

include hp hlength

theorem beaten_above : (scoring uc query scalars).Beaten q c ↔
    exactAt uc query scalars q c ≠ bestAt uc query scalars q c :=
  (tables_fill uc query scalars).beaten_iff bonus_lt_streak (by omega) (by omega)

theorem beaten_here (hlater : later ≠ []) : (scoring uc query scalars).Beaten (q + 1) (c + 1) ↔
    exactAt uc query scalars (q + 1) (c + 1) ≠ bestAt uc query scalars (q + 1) (c + 1) := by
  have hpos := length_pos_iff.mpr hlater
  exact (tables_fill uc query scalars).beaten_iff bonus_lt_streak (by omega) hp

/-- A place with a gap behind it in a best matching is no worse than its row. -/
theorem BestMatching.gap_step {places : List Nat} {d : Nat} (hd : d < c)
    (hbest : BestMatching uc query scalars (places ++ d :: (c + 1) :: later)) :
    exactAt uc query scalars (q + 1) (c + 1) ≤
        bestAt uc query scalars q c + (boundaryBonus uc scalars (c + 1) : Int) ∧
      (bestAt uc query scalars q c + (boundaryBonus uc scalars (c + 1) : Int) ≤
        exactAt uc query scalars (q + 1) (c + 1) →
          exactAt uc query scalars q d = bestAt uc query scalars q d) := by
  have hfill := tables_fill uc query scalars
  have hlen := hbest.matching.length
  rw [length_append, length_cons, length_cons] at hlen
  obtain rfl : places.length = q := by omega
  obtain ⟨-, x, hx, hstep⟩ := hbest.step
  obtain ⟨k, rfl⟩ : ∃ k, c = d + k := ⟨c - d, by omega⟩
  have hslope : (scoring uc query scalars).slope query.scalars.length scoreGapTrailing
      places.length = scoreGapInner := if_neg (by omega)
  have hjoin : (scoring uc query scalars).join d (d + k + 1) =
      (k : Int) * scoreGapInner + boundaryBonus uc scalars (d + k + 1) := by
    have hgap : ((d + k + 1 - d - 1 : Nat) : Int) = k := by omega
    rw [Scoring.join, if_neg (by omega), hgap, add_comm]
    rfl
  have hfalls := hfill.best_falls (by omega : places.length < query.scalars.length) (p := d) k
    (by omega)
  have hle := hfill.exact_le_best (by omega : places.length < query.scalars.length)
    (by omega : d < scalars.length)
  rw [hslope] at hfalls
  rw [hstep, hjoin, ← add_assoc, WithBot.coe_add, WithBot.coe_add, ← hx]
  constructor
  · exact add_le_add_left (le_trans (add_le_add_left hle _) hfalls) _
  · intro hworse
    have hrow := WithBot.le_of_add_le_add_right WithBot.coe_ne_bot hworse
    exact le_antisymm hle (WithBot.le_of_add_le_add_right WithBot.coe_ne_bot (le_trans hfalls hrow))

end

include h' hp hexact hlength

theorem Finds.direct : ¬ Misleads uc query scalars q w ((c + 1) :: later) := by
  rintro ⟨rest, heq, hbeaten, hbeaten'⟩
  obtain ⟨hc, rfl⟩ := cons_eq_cons.mp heq
  obtain rfl : c = w := Nat.succ.inj hc
  rw [beaten_above hp hlength] at hbeaten
  rw [beaten_here hp hlength (cons_ne_nil _ _)] at hbeaten'
  cases hflag : flagAt uc query scalars (q + 1) (c + 1) with
  | true =>
    refine hbeaten' (le_antisymm ((tables_fill uc query scalars).exact_le_best (by omega) hp) ?_)
    rw [flagAt_iff.mp hflag, hexact]
    exact le_max_right _ _
  | false => exact hbeaten (h'.free hflag)

include h

theorem Finds.latest (hrequired : matchRequired = true → ∃ rest, later = cursor :: rest)
    {places : List Nat} {d : Nat}
    (hbest : BestMatching uc query scalars (places ++ d :: (c + 1) :: later)) :
    d ≤ w ∨ Misleads uc query scalars places.length d ((c + 1) :: later) := by
  have hlen := hbest.matching.length
  rw [length_append, length_cons, length_cons] at hlen
  obtain rfl : places.length = q := by omega
  obtain ⟨hlt, x, hx, hstep⟩ := hbest.step
  by_cases hwd : d ≤ w
  · exact .inl hwd
  refine .inr ?_
  cases hflag : flagAt uc query scalars (places.length + 1) (c + 1) with
  | true =>
    have hnear := h'.required hflag
    omega
  | false =>
    have hne : exactAt uc query scalars places.length d ≠ bestAt uc query scalars places.length d := by
      rcases h'.later hflag d (by omega) (by omega) with hnone | hne
      · rw [hnone] at hx
        exact absurd hx WithBot.bot_ne_coe
      · exact hne
    obtain rfl : d = c := by
      by_contra hfar
      refine hne ((hbest.gap_step hp hlength (by omega)).2 ?_)
      rw [hexact]
      exact le_max_left _ _
    have hjoin : (scoring uc query scalars).join d (d + 1) = scoreMatchConsecutive := if_pos rfl
    have hunset : exactAt uc query scalars (places.length + 1) (d + 1) ≠
        bestAt uc query scalars (places.length + 1) (d + 1) := by
      intro heq
      rw [hstep, hjoin, WithBot.coe_add, ← hx] at heq
      rw [flagAt_iff.mpr heq.symm] at hflag
      cases hflag
    have hreq : matchRequired = true := by
      rw [← Bool.not_eq_false]
      exact fun hfree => hunset (h.free hfree)
    obtain ⟨rest, rfl⟩ := hrequired hreq
    obtain rfl := h.required hreq
    exact ⟨rest, rfl, (beaten_above hp hlength).mpr hne,
      (beaten_here hp hlength (cons_ne_nil _ _)).mpr hunset⟩

theorem Finds.goes_on (hstays : matchRequired = true → ¬ StraysAt uc query scalars q c)
    {front : List Nat} (hfront : front.length = q + 1)
    (hbest : BestMatching uc query scalars (front ++ (c + 1) :: later)) :
    ∃ places, places.length = q ∧ BestMatching uc query scalars (places ++ w :: (c + 1) :: later) := by
  have hfill := tables_fill uc query scalars
  obtain ⟨x, hx⟩ := WithBot.ne_bot_iff_exists.mp h'.scored
  have hw := h'.before
  obtain ⟨list, hlist⟩ := hfill.attained bonus_lt_streak (by omega) (by omega) hx.symm
  obtain ⟨places, rfl⟩ := exists_eq_concat hlist
  have hworth := (h.worth_next (by omega) hp hexact h' hx.le).mpr ⟨hstays, hx⟩
  obtain ⟨y, hy, hvalue, hothers⟩ := hbest.exchange
  rw [hfront] at hvalue hothers
  rw [hvalue, WithBot.coe_inj] at hworth
  have hlen := hlist.length
  rw [length_append, length_singleton] at hlen
  refine ⟨places, by omega, ?_⟩
  have hnext := Scoring.Aligned.next hlist hw (hfill.fits_of_exact (by omega) hp h.scored)
  rw [hworth] at hnext
  have hbest' := hothers (places ++ [w]) hnext
  rwa [append_assoc] at hbest'

/-- Along a best matching without a misleading streak the walk does not stray. -/
theorem Finds.stays (hrequired : matchRequired = true → ∃ rest, later = cursor :: rest)
    {places : List Nat} {d : Nat}
    (hbest : BestMatching uc query scalars (places ++ d :: (c + 1) :: later))
    (hdirect : ¬ Misleads uc query scalars places.length d ((c + 1) :: later)) :
    matchRequired = true → ¬ StraysAt uc query scalars q c := by
  rintro hreq ⟨hbeaten', hbeaten, hlt⟩
  obtain ⟨rest, rfl⟩ := hrequired hreq
  obtain rfl := h.required hreq
  have hlen := hbest.matching.length
  rw [length_append, length_cons, length_cons] at hlen
  obtain rfl : places.length = q := by omega
  obtain ⟨hd, -⟩ := hbest.step
  obtain rfl : d = c := by
    by_contra hfar
    have hle := (hbest.gap_step hp hlength (by omega)).1
    rw [hexact, max_eq_right hlt.le] at hle
    exact absurd hlt (not_lt.mpr hle)
  exact hdirect ⟨rest, rfl, (beaten_above hp hlength).mpr hbeaten,
    (beaten_here hp hlength (cons_ne_nil _ _)).mpr hbeaten'.symm⟩

end Node

variable {later : List Nat}

section

variable (h : Finds uc query scalars q cursor matchRequired p)
  (hlength : query.scalars.length = q + 1 + later.length) (hp : p < scalars.length)
  (hrequired : matchRequired = true → ∃ rest, later = cursor :: rest)
include h hlength hp hrequired

/-- A walk that does not stray traces a best matching; at each of its places it goes on as a
`Traceable` one does. -/
theorem Finds.traces (hstraight : Straight uc query scalars (q + 1) cursor matchRequired)
    {front : List Nat} (hfront : front.length = q)
    (hbest : BestMatching uc query scalars (front ++ p :: later)) :
    ∃ front, front.length = q ∧ BestMatching uc query scalars (front ++ p :: later) ∧
      ∀ places c rest, front ++ p :: later = places ++ c :: rest → places.length < q →
        ¬ Misleads uc query scalars places.length c rest ∧
          ∀ others d, BestMatching uc query scalars (others ++ d :: rest) →
            d ≤ c ∨ Misleads uc query scalars others.length d rest := by
  induction q generalizing cursor matchRequired p later front with
  | zero => exact ⟨front, hfront, hbest, fun _ _ _ _ hlt => absurd hlt (Nat.not_lt_zero _)⟩
  | succ q ih =>
    obtain ⟨c, rfl, hexact, hready⟩ := h.comesFrom (by omega) hp
    obtain ⟨w, h'⟩ := hready.finds (by omega)
    have hw := h'.before
    obtain ⟨hstays, hrest⟩ := hstraight (c + 1) h.found
    have hlength' : query.scalars.length = q + 2 + later.length := by omega
    obtain ⟨front', hfront', hbest'⟩ := h.goes_on h' hp hexact hlength'
      (fun hreq => hstays hreq (Nat.succ_pos q) (Nat.succ_pos c)) hfront hbest
    obtain ⟨front, hlen, htraced, hall⟩ := ih h' (by rw [length_cons]; omega) (by omega)
      (fun _ => ⟨later, rfl⟩) hrest hfront' hbest'
    have hassoc : (front ++ [w]) ++ (c + 1) :: later = front ++ w :: (c + 1) :: later := by simp
    refine ⟨front ++ [w], by simp [hlen], hassoc ▸ htraced, ?_⟩
    intro places d rest heq hlt
    rw [hassoc] at heq
    by_cases hplaces : places.length < q
    · exact hall places d rest heq hplaces
    · obtain ⟨rfl, hrest⟩ := append_inj heq (by omega)
      obtain ⟨rfl, rfl⟩ := cons_eq_cons.mp hrest
      exact ⟨hlen ▸ h'.direct hp hexact hlength',
        fun others d hother => h.latest h' hp hexact hlength' hrequired hother⟩

theorem Traceable.straight (ht : Traceable uc query scalars positions) {places : List Nat}
    (hpositions : positions = places ++ p :: later) :
    Straight uc query scalars (q + 1) cursor matchRequired := by
  induction q generalizing cursor matchRequired p later places with
  | zero =>
    intro c hc
    exact ⟨fun _ hpos => absurd hpos (Nat.lt_irrefl 0), trivial⟩
  | succ q ih =>
    obtain ⟨c, rfl, hexact, hready⟩ := h.comesFrom (by omega) hp
    obtain ⟨w, h'⟩ := hready.finds (by omega)
    have hw := h'.before
    have hlength' : query.scalars.length = q + 2 + later.length := by omega
    have hlen := ht.best.matching.length
    rw [hpositions, length_append, length_cons] at hlen
    have hne : places ≠ [] := by
      rintro rfl
      rw [length_nil] at hlen
      omega
    obtain ⟨before, d, rfl⟩ : ∃ before d, places = before ++ [d] :=
      ⟨_, _, (dropLast_concat_getLast hne).symm⟩
    rw [append_assoc] at hpositions
    have hbest := hpositions ▸ ht.best
    have hdirect := ht.direct _ _ _ hpositions
    have hstays := h.stays h' hp hexact hlength' hrequired hbest hdirect
    obtain ⟨front, hfront, hother⟩ := h.goes_on h' hp hexact hlength' hstays (by
      omega) (by rwa [append_assoc] : BestMatching uc query scalars ((before ++ [d]) ++ _))
    have hle : d ≤ w := (h.latest h' hp hexact hlength' hrequired hbest).resolve_right hdirect
    have hge : w ≤ d := (ht.latest _ _ _ front w hpositions hother).resolve_right
      (hfront ▸ h'.direct hp hexact hlength')
    obtain rfl : d = w := by omega
    have hrest := ih h' (by rw [length_cons]; omega) (by omega) (fun _ => ⟨later, rfl⟩) hpositions
    intro c' hc'
    rw [h.found] at hc'
    cases hc'
    exact ⟨fun hreq _ _ => hstays hreq, hrest⟩

end

theorem straight_iff (hq : query.scalars.length = q + 1) (hn : scalars.length = n + 1)
    (hmatch : ∃ positions, Matching uc query scalars positions) :
    Straight uc query scalars (q + 1) scalars.length false ↔
      ∃ positions, Traceable uc query scalars positions := by
  obtain ⟨list, hlist⟩ := hmatch
  have hfinal : bestAt uc query scalars q n ≠ ⊥ := by
    intro hnone
    have hle := hlist.score_le hq hn
    rw [hnone, le_bot_iff] at hle
    exact WithBot.coe_ne_bot hle
  have hready : Ready uc query scalars q scalars.length false := ⟨n, hn, by omega, hfinal⟩
  obtain ⟨p, hfinds⟩ := hready.finds (by omega)
  obtain ⟨⟨front, hbest⟩, hlast⟩ := hfinds.last hq hn
  have hp := hfinds.before
  -- Nothing has been matched yet.
  have hq' : query.scalars.length = q + 1 + ([] : List Nat).length := hq
  have hnone : false = true → ∃ rest, [] = scalars.length :: rest := by rintro ⟨⟩
  constructor
  · intro hstraight
    have hfront := hbest.matching.length
    rw [length_append, length_singleton] at hfront
    obtain ⟨front, hlen, htraced, hall⟩ := hfinds.traces hq' hp hnone hstraight (by omega) hbest
    have hend {places : List Nat} {c : Nat} {rest : List Nat} (heq : front ++ [p] = places ++ c :: rest)
        (hlong : ¬ places.length < q) : c = p ∧ rest = [] := by
      have hlength := congrArg List.length heq
      simp only [length_append, length_cons, length_nil] at hlength
      obtain ⟨-, hrest⟩ := append_inj heq (by omega)
      obtain ⟨rfl, rfl⟩ := cons_eq_cons.mp hrest
      exact ⟨rfl, rfl⟩
    refine ⟨front ++ [p], htraced, fun places c rest heq => ?_, fun places c rest others d heq hother => ?_⟩
    · by_cases hlt : places.length < q
      · exact (hall places c rest heq hlt).1
      · obtain ⟨rfl, rfl⟩ := hend heq hlt
        rintro ⟨rest, hrest, -⟩
        cases hrest
    · by_cases hlt : places.length < q
      · exact (hall places c rest heq hlt).2 others d hother
      · obtain ⟨rfl, rfl⟩ := hend heq hlt
        exact .inl (hlast others d hother)
  · rintro ⟨positions, ht⟩
    have hlen := ht.best.matching.length
    have hne : positions ≠ [] := by
      rintro rfl
      rw [hq] at hlen
      cases hlen
    obtain ⟨places, c, rfl⟩ : ∃ places c, positions = places ++ [c] :=
      ⟨_, _, (dropLast_concat_getLast hne).symm⟩
    have hle := hlast places c ht.best
    have hge : p ≤ c := (ht.latest places c [] front p rfl hbest).resolve_right (by
      rintro ⟨rest, hrest, -⟩
      cases hrest)
    obtain rfl : c = p := by omega
    exact ht.straight hfinds hq' hp hnone rfl

theorem optimal_iff_straight (uc : UnicodeCase) (query : Query) (scalars : List Scalar)
    (wholeLine : Bool) (hquery : query.scalars ≠ [])
    (hcells : query.scalars.length * scalars.length ≤ exactFuzzyCellLimit)
    (hline : wholeLine = false ∨ query.scalars.length ≠ scalars.length) :
    Optimal uc query scalars wholeLine ↔
      Straight uc query scalars query.scalars.length scalars.length false := by
  obtain ⟨q, hq⟩ : ∃ q, query.scalars.length = q + 1 :=
    ⟨query.scalars.length - 1, by have := length_pos_iff.mpr hquery; omega⟩
  have hcells' : ¬ exactFuzzyCellLimit < query.scalars.length * scalars.length := by omega
  have hline' : ¬ (wholeLine = true ∧ query.scalars.length = scalars.length) := by
    rintro ⟨htrue, heq⟩
    rcases hline with hfalse | hne
    · rw [hfalse] at htrue
      cases htrue
    · exact hne heq
  by_cases hshort : scalars.length < query.scalars.length
  · have hnone : ¬ ∃ positions, Matching uc query scalars positions := by
      rintro ⟨positions, hmatching⟩
      obtain ⟨c, v, hc, haligned⟩ := hmatching.aligned hq
      have hle := aligned_le haligned
      omega
    have hresult : fuzzyAlignment uc query scalars wholeLine = none := if_pos hshort
    rw [hq]
    exact iff_of_true (.of_unmatched hresult hnone) (straight_of_unmatched hq hnone)
  · have hexact : fuzzyAlignment uc query scalars wholeLine =
        exactAlignment uc query scalars := by
      rw [fuzzyAlignment, if_neg hshort, if_neg hcells', if_neg hline']
    obtain ⟨c, hc⟩ : ∃ c, scalars.length = c + 1 := ⟨scalars.length - 1, by omega⟩
    rw [hq]
    exact exactAlignment_optimal_iff hq hc hexact

/-- For every query and candidate that the exact matcher is asked about. -/
theorem fuzzy_optimal_iff (uc : UnicodeCase) (query : Query) (scalars : List Scalar)
    (wholeLine : Bool) (hquery : query.scalars ≠ [])
    (hcells : query.scalars.length * scalars.length ≤ exactFuzzyCellLimit)
    (hline : wholeLine = false ∨ query.scalars.length ≠ scalars.length) :
    Optimal uc query scalars wholeLine ↔
      ((∃ positions, Matching uc query scalars positions) →
        ∃ positions, Traceable uc query scalars positions) := by
  obtain ⟨q, hq⟩ : ∃ q, query.scalars.length = q + 1 :=
    ⟨query.scalars.length - 1, by have := length_pos_iff.mpr hquery; omega⟩
  rw [optimal_iff_straight uc query scalars wholeLine hquery hcells hline, hq]
  by_cases hmatch : ∃ positions, Matching uc query scalars positions
  · obtain ⟨positions, hmatching⟩ := hmatch
    obtain ⟨c, v, hc, -⟩ := hmatching.aligned hq
    obtain ⟨n, hn⟩ : ∃ n, scalars.length = n + 1 := ⟨scalars.length - 1, by omega⟩
    rw [straight_iff hq hn ⟨positions, hmatching⟩]
    exact ⟨fun htraceable _ => htraceable, fun h => h ⟨positions, hmatching⟩⟩
  · exact iff_of_true (straight_of_unmatched hq hmatch) (fun h => absurd h hmatch)

/-- "ab" in "a/b" stands in one way only. -/
theorem matching_slash {positions : List Nat}
    (h : Matching asciiCase ⟨[97, 98], false⟩ [97, 47, 98] positions) : positions = [0, 2] := by
  have hplace (i : Nat) (needle : Scalar) (hneedle : [97, 98][i]? = some needle) (position : Nat)
      (hposition : positions[i]? = some position) : position < 3 ∧
        equalScalar asciiCase ⟨[97, 98], false⟩ needle ([97, 47, 98].getD position 0) = true := by
    obtain ⟨scalar, hscalar, hequal⟩ := h.fits i needle position hneedle hposition
    refine ⟨(List.getElem?_eq_some_iff.mp hscalar).1, ?_⟩
    rwa [List.getD_eq_getElem?_getD, hscalar]
  obtain ⟨a, b, rfl⟩ : ∃ a b, positions = [a, b] := List.length_eq_two.mp h.length
  obtain ⟨ha, ha'⟩ := hplace 0 97 rfl a rfl
  obtain ⟨hb, hb'⟩ := hplace 1 98 rfl b rfl
  interval_cases a <;> interval_cases b <;> first | rfl | exact absurd ha' (by decide) |
    exact absurd hb' (by decide)

theorem fuzzy_optimal_slash : Optimal asciiCase ⟨[97, 98], false⟩ [97, 47, 98] false := by
  refine (fuzzy_optimal_iff asciiCase ⟨[97, 98], false⟩ [97, 47, 98] false (by decide) (by decide)
    (.inl rfl)).mpr ?_
  rintro ⟨positions, hmatching⟩
  obtain rfl := matching_slash hmatching
  have hmisled (q c : Nat) {places later : List Nat} (heq : [0, 2] = places ++ c :: later) :
      ¬ Misleads asciiCase ⟨[97, 98], false⟩ [97, 47, 98] q c later := by
    rintro ⟨rest, rfl, -⟩
    have hlength := congrArg List.length heq
    simp only [length_append, length_cons, length_nil] at hlength
    omega
  refine ⟨[0, 2], ⟨hmatching, ?_⟩, ?_, ?_⟩
  · intro others hother
    rw [matching_slash hother]
  · intro places c later heq
    exact hmisled _ c heq
  · intro places c later others d heq hother
    have hsame := (matching_slash hother.matching).trans heq
    have hlength := congrArg List.length hsame
    simp only [length_append, length_cons] at hlength
    obtain ⟨-, hrest⟩ := append_inj hsame (by omega)
    exact .inl (cons_eq_cons.mp hrest).1.le

/-- "abc" in "/ababc": the result promises the score of the last three scalars and highlights others. -/
theorem fuzzy_misread : ¬ ∀ (uc : UnicodeCase) (query : Query) (scalars : List Scalar)
    (wholeLine : Bool), query.scalars ≠ [] →
    query.scalars.length * scalars.length ≤ exactFuzzyCellLimit →
    (wholeLine = false ∨ query.scalars.length ≠ scalars.length) →
    Optimal uc query scalars wholeLine := by
  intro hclaim
  have hoptimal := hclaim asciiCase ⟨[97, 98, 99], false⟩ [47, 97, 98, 97, 98, 99] false (by decide)
    (by decide) (.inl rfl)
  have hresult : fuzzyAlignment asciiCase ⟨[97, 98, 99], false⟩ [47, 97, 98, 97, 98, 99] false =
      some ⟨[1, 4, 5], ((397 : Int) : WithTop Int), .exact⟩ := by decide +kernel
  have hscore := hoptimal.score _ hresult
  exact absurd hscore (by decide)

end Bbr.Search
