import Bbr.Api.AssignmentRuns
import Bbr.Api.NameDistance
import Bbr.Api.Spellings

/-!
# Names matched by their parts

Two parts are as far apart as their nearest spellings. The parts of a query match those of a name,
if an assignment of distinct parts stays within the budget.
-/
namespace Bbr.Api.MemberSearch
open Bbr.Search (Scalar)
open Bbr.Lib List

variable {query candidate : Text} {budget rows cols limit : Nat}

/-- The least distance of a spelling of one text to a spelling of another. -/
noncomputable def spellingDistance (xs ys : Fin 3 → List Scalar) : Nat :=
  sInf (Set.range (fun p : Fin 3 × Fin 3 => swapDistance (xs p.1) (ys p.2)))

variable (xs ys : Fin 3 → List Scalar)

theorem spellingDistance_isLeast :
    IsLeast (Set.range (fun p : Fin 3 × Fin 3 => swapDistance (xs p.1) (ys p.2)))
      (spellingDistance xs ys) :=
  ⟨Nat.sInf_mem ⟨_, (0, 0), rfl⟩, fun _ h => Nat.sInf_le h⟩

theorem mem_formPairs (p : Fin 3 × Fin 3) : p ∈ formPairs := by
  revert p
  decide

theorem formPairs_foldl (cap : Nat) :
    formPairs.foldl (fun best p => min best (min (swapDistance (xs p.1) (ys p.2)) cap)) cap =
      min (spellingDistance xs ys) cap := by
  refine eq_of_forall_le_iff fun b => ?_
  rw [le_foldl_min, le_min_iff, le_isGLB_iff (spellingDistance_isLeast xs ys).isGLB]
  constructor
  · rintro ⟨hcap, hall⟩
    refine ⟨?_, hcap⟩
    rintro _ ⟨p, rfl⟩
    exact (le_min_iff.mp (hall p (mem_formPairs p))).1
  · rintro ⟨hall, hcap⟩
    exact ⟨hcap, fun p _ => le_min (hall ⟨p, rfl⟩) hcap⟩

theorem formPairs_foldlM {step : Nat → Fin 3 × Fin 3 → Except SearchError Nat} (cap : Nat)
    (h : ∀ best p, step best p = .ok (min best (min (swapDistance (xs p.1) (ys p.2)) cap))) :
    formPairs.foldlM step cap = .ok (min (spellingDistance xs ys) cap) := by
  rw [foldlM_ok formPairs cap (fun best p _ => h best p), formPairs_foldl]

/-- The spellings of the part at an index. -/
def partSpellings (text : Text) (index : Nat) (form : Fin 3) : List Scalar :=
  (text.parts form)[index]?.getD []

theorem partAt_ok (h : Spelled limit query) {index : Nat} (hindex : index < (query.parts 0).length)
    (form : Fin 3) : partAt query form index = .ok (partSpellings query index form) ∧
      (partSpellings query index form).length ≤ limit := by
  have hlt : index < (query.parts form).length := by rw [h.count form]; exact hindex
  have hget : (query.parts form)[index]? = some ((query.parts form)[index]) := getElem?_eq_getElem hlt
  have hspelling : partSpellings query index form = (query.parts form)[index] := by
    rw [partSpellings, hget, Option.getD_some]
  rw [hspelling]
  refine ⟨?_, h.part_le form _ (getElem_mem hlt)⟩
  rw [partAt, hget]

noncomputable def pairCost (query candidate : Text) (row col : Nat) : Nat :=
  spellingDistance (partSpellings query row) (partSpellings candidate col)

section

variable (hquery : Spelled (2 * maxQueryScalars) query)
include hquery

theorem partCost_eq (hcandidate : Spelled limit candidate) (hbudget : budget ≤ 2) {row col : Nat}
    (hrow : row < (query.parts 0).length) (hcol : col < (candidate.parts 0).length) :
    partCost query candidate budget false row col =
      .ok (min (pairCost query candidate row col) (budget + 1)) := by
  have hcells : rowCells = 2 * maxQueryScalars + 3 := by decide
  rw [partCost, if_neg Bool.false_ne_true]
  refine formPairs_foldlM _ _ _ (fun best p => ?_)
  obtain ⟨hpart, hlength⟩ := partAt_ok hquery hrow p.1
  obtain ⟨hother, _⟩ := partAt_ok hcandidate hcol p.2
  simp only [hpart, hother, ok_bind]
  rw [distance_eq _ _ _ (by omega), ok_bind]

theorem partCost_literal (hcandidate : Spelled limit candidate) {row col : Nat}
    (hrow : row < (query.parts 0).length) (hcol : col < (candidate.parts 0).length) :
    partCost query candidate budget true row col =
      .ok (if occursIn (partSpellings query row 0) (partSpellings candidate col 0) then 0
        else budget + 1) := by
  rw [partCost, if_pos rfl, (partAt_ok hquery hrow 0).1, ok_bind, (partAt_ok hcandidate hcol 0).1,
    ok_bind]

theorem formDistance_eq (hbudget : budget ≤ 2) : formDistance query candidate budget =
      .ok (min (spellingDistance query.forms candidate.forms) (budget + 1)) := by
  have hcells : rowCells = 2 * maxQueryScalars + 3 := by decide
  refine formPairs_foldlM _ _ _ (fun best p => ?_)
  have hlength := hquery.form_le p.1
  simp only
  rw [distance_eq _ _ _ (by omega), ok_bind]

end

theorem matrix_get (g : Nat → Nat → Nat) (rows cols row col : Nat) :
    ((((List.range rows).map (fun row =>
      (List.range cols).map (g row)))[row]?.getD [])[col]?).getD 0 =
      if row < rows ∧ col < cols then g row col else 0 := by
  by_cases hrow : row < rows
  · by_cases hcol : col < cols
    · simp [hrow, hcol]
    · simp [hrow, hcol]
  · simp [hrow]

variable {costs : Nat → Nat → Nat} {answer : Option Nat}

theorem AnswersLeast.congr {costs' : Nat → Nat → Nat} (h : AnswersLeast costs rows cols budget answer)
    (heq : ∀ r j, r < rows → j < cols → costs' r j = costs r j) :
    AnswersLeast costs' rows cols budget answer := by
  have hfun : (fun (r : Fin rows) (j : Fin cols) => costs' r j) =
      fun (r : Fin rows) (j : Fin cols) => costs r j := by
    funext r j
    exact heq r j r.isLt j.isLt
  rw [AnswersLeast, hfun]
  exact h

/-- Parts cost at most one more than the budget, and match by the least cost. -/
theorem partMatch_ok {literal : Bool} {g : Nat → Nat → Nat} (hbudget : budget ≤ 2)
    (hrows : query.parts 0 ≠ []) (hg : ∀ row col, g row col ≤ budget + 1)
    (hcost : ∀ row col, row < (query.parts 0).length → col < (candidate.parts 0).length →
      partCost query candidate budget literal row col = .ok (g row col)) :
    ∃ answer, partMatch query candidate budget literal = .ok answer ∧
      AnswersLeast g (query.parts 0).length (candidate.parts 0).length budget answer := by
  have hpos : 0 < (query.parts 0).length := length_pos_iff.mpr hrows
  have hcosts := mapM_map_iff.mpr (fun row hrow => mapM_map_iff.mpr (fun col hcol =>
    hcost row col (mem_range.mp hrow) (mem_range.mp hcol)))
  have hmatrix : ∀ r j, (if r < (query.parts 0).length ∧ j < (candidate.parts 0).length then g r j
      else 0) < 256 := by
    intro r j
    have := hg r j
    split <;> omega
  obtain ⟨answer, hrun, hleast⟩ := @assignmentCost_ok _ _
    (candidate.parts 0).length hmatrix budget (by omega) hpos
  refine ⟨answer, ?_, hleast.congr (fun r j hr hj => (if_pos ⟨hr, hj⟩).symm)⟩
  rw [partMatch]
  split
  · next hnone => rw [← hrun, assignmentCost, if_pos hnone]
  · rw [hcosts, ok_bind]
    simp only [matrix_get]
    exact hrun

/-- The total cost of an assignment of rows to columns. -/
abbrev total (costs : Nat → Nat → Nat) (f : Fin rows ↪ Fin cols) : Nat :=
  assignmentTotal (fun (r : Fin rows) (j : Fin cols) => costs r j) f

theorem total_cap (costs : Nat → Nat → Nat) (f : Fin rows ↪ Fin cols)
    (h : total (fun r j => min (costs r j) (budget + 1)) f ≤ budget) :
    total costs f = total (fun r j => min (costs r j) (budget + 1)) f := by
  refine Finset.sum_congr rfl (fun r _ => ?_)
  have hle : min (costs r (f r)) (budget + 1) ≤ total (fun r j => min (costs r j) (budget + 1)) f :=
    Finset.single_le_sum (f := fun r : Fin rows => min (costs r (f r)) (budget + 1))
      (fun _ _ => Nat.zero_le _) (Finset.mem_univ r)
  simp only
  omega

theorem total_cap_le (costs : Nat → Nat → Nat) (cap : Nat) (f : Fin rows ↪ Fin cols) :
    total (fun r j => min (costs r j) cap) f ≤ total costs f :=
  Finset.sum_le_sum (fun _ _ => Nat.min_le_left _ _)

theorem AnswersLeast.uncap
    (h : AnswersLeast (fun r j => min (costs r j) (budget + 1)) rows cols budget answer) :
    AnswersLeast costs rows cols budget answer := by
  intro n
  rw [h n]
  constructor
  · rintro ⟨hle, ⟨f, rfl⟩, hleast⟩
    refine ⟨hle, ⟨f, total_cap costs f hle⟩, ?_⟩
    rintro _ ⟨g, rfl⟩
    exact Nat.le_trans (hleast ⟨g, rfl⟩) (total_cap_le costs (budget + 1) g)
  rintro ⟨hle, ⟨f, rfl⟩, hleast⟩
  have hcap := total_cap costs f (Nat.le_trans (total_cap_le costs (budget + 1) f) hle)
  refine ⟨hle, ⟨f, hcap.symm⟩, ?_⟩
  rintro _ ⟨g, rfl⟩
  by_cases hg : total (fun r j => min (costs r j) (budget + 1)) g ≤ budget
  · have hleg := hleast ⟨g, rfl⟩
    rwa [show assignmentTotal _ g = _ from total_cap costs g hg] at hleg
  · exact Nat.le_trans hle (Nat.le_of_lt (Nat.lt_of_not_le hg))

/-- There is an answer when some assignment stays within the budget. -/
theorem AnswersLeast.isSome (h : AnswersLeast costs rows cols budget answer) :
    answer.isSome = true ↔ ∃ f : Fin rows ↪ Fin cols, total costs f ≤ budget := by
  constructor
  · intro hsome
    obtain ⟨n, hn⟩ := Option.isSome_iff_exists.mp hsome
    obtain ⟨hle, ⟨f, hf⟩, _⟩ := (h n).mp hn
    exact ⟨f, Nat.le_trans (Nat.le_of_eq hf) hle⟩
  rintro ⟨f, hf⟩
  have hne : (assignmentTotals (fun (r : Fin rows) (j : Fin cols) => costs r j)).Nonempty := ⟨_, f, rfl⟩
  have hleast : sInf (assignmentTotals (fun (r : Fin rows) (j : Fin cols) => costs r j)) ≤ _ :=
    Nat.sInf_le ⟨f, rfl⟩
  have hanswer := (h _).mpr ⟨Nat.le_trans hleast hf, Nat.sInf_mem hne, fun _ hn => Nat.sInf_le hn⟩
  rw [hanswer]
  rfl

section

variable (hquery : Spelled (2 * maxQueryScalars) query) (hcandidate : Spelled limit candidate)
  (hbudget : budget ≤ 2) (hparts : query.parts 0 ≠ [])
include hquery hcandidate hbudget hparts

/-- The parts match by the least total of the distances of their nearest spellings. -/
theorem partMatch_spellings : ∃ answer, partMatch query candidate budget false = .ok answer ∧
      AnswersLeast (pairCost query candidate) (query.parts 0).length (candidate.parts 0).length
        budget answer := by
  obtain ⟨answer, hrun, hleast⟩ := partMatch_ok hbudget hparts
    (fun row col => Nat.min_le_right (pairCost query candidate row col) (budget + 1))
    (fun row col hrow hcol => partCost_eq hquery hcandidate hbudget hrow hcol)
  exact ⟨answer, hrun, hleast.uncap⟩

/-- The parts match literally when each of them occurs in a part of its own. -/
theorem partMatch_literal : ∃ answer, partMatch query candidate budget true = .ok answer ∧
      (answer.isSome = true ↔ ∃ f : Fin (query.parts 0).length ↪ Fin (candidate.parts 0).length,
          ∀ r : Fin (query.parts 0).length,
            partSpellings query r 0 <:+: partSpellings candidate (f r) 0) := by
  obtain ⟨answer, hrun, hleast⟩ := partMatch_ok (g := fun row col =>
      if occursIn (partSpellings query row 0) (partSpellings candidate col 0) then 0
      else budget + 1) hbudget hparts (fun row col => by split <;> omega)
    (fun row col hrow hcol => partCost_literal hquery hcandidate hrow hcol)
  refine ⟨answer, hrun, hleast.isSome.trans (exists_congr (fun f =>
    ⟨fun hle r => ?_, fun hall => ?_⟩))⟩
  · have hone : (if occursIn (partSpellings query r 0) (partSpellings candidate (f r) 0) then 0
        else budget + 1) ≤ budget :=
      Nat.le_trans (Finset.single_le_sum (f := fun r : Fin (query.parts 0).length =>
        if occursIn (partSpellings query r 0) (partSpellings candidate (f r) 0) then 0
        else budget + 1) (fun _ _ => Nat.zero_le _) (Finset.mem_univ r)) hle
    split at hone
    · next hoccurs => simpa [occursIn] using hoccurs
    · omega
  · refine Nat.le_trans (Nat.le_of_eq (Finset.sum_eq_zero (fun r _ => ?_))) (Nat.zero_le budget)
    exact if_pos (by simpa [occursIn] using hall r)

end

variable {fold : Scalar → Scalar} {name field : Bytes}

/-- Texts are compared by their distance within the budget, costs by a cheapest assignment, and the
parts of a name by a cheapest assignment of their distances. -/
theorem matching_optimal (hname : validateName name = .ok ())
    (hquery : prepare fold name = .ok query) (hfield : prepare fold field = .ok candidate)
    (hbudget : budget ≤ 2) :
    (∀ q, (∃ form, q = query.forms form ∨ q ∈ query.parts form) → ∀ c, distance q c budget =
      .ok (if swapDistance q c ≤ budget then swapDistance q c else budget + 1)) ∧
    (∀ costs rows cols, (∀ r j, costs r j < 256) → 0 < rows →
      ∃ answer, assignmentCost costs rows cols budget = .ok answer ∧ ∀ n, answer = some n ↔
        n ≤ budget ∧
        IsLeast (Set.range (fun f : Fin rows ↪ Fin cols => ∑ r : Fin rows, costs r (f r))) n) ∧
    (query.parts 0 ≠ [] → ∃ answer, partMatch query candidate budget false = .ok answer ∧
      (answer.isSome = true ↔
        ∃ f : Fin (query.parts 0).length ↪ Fin (candidate.parts 0).length,
          ∑ r : Fin (query.parts 0).length, spellingDistance (partSpellings query r)
            (partSpellings candidate (f r)) ≤ budget)) := by
  have hspelled := query_spelled hname hquery
  obtain ⟨_, _, hcandidate⟩ := prepare_ok hfield
  have hcells : rowCells = 2 * maxQueryScalars + 3 := by decide
  refine ⟨fun q hq c => ?_, fun costs rows cols hcosts hrows => ?_, fun hparts => ?_⟩
  · have hlength : q.length ≤ 2 * maxQueryScalars := by
      obtain ⟨form, hq⟩ := hq
      cases hq with
      | inl hq => exact hq ▸ hspelled.form_le form
      | inr hq => exact hspelled.part_le form q hq
    rw [distance_eq q c budget (by omega)]
    congr 1
    split <;> omega
  · exact assignmentCost_ok hcosts (by omega) hrows
  · obtain ⟨answer, hrun, hleast⟩ := partMatch_spellings hspelled hcandidate hbudget hparts
    exact ⟨answer, hrun, hleast.isSome⟩

/-- `ada li` against `li ada`: each part belongs to the other place. -/
theorem ada_matching : ∃ query candidate,
    prepare id [0x61, 0x64, 0x61, 0x20, 0x6c, 0x69] = .ok query ∧
    prepare id [0x6c, 0x69, 0x20, 0x61, 0x64, 0x61] = .ok candidate ∧
    partMatch query candidate 0 false = .ok (some 0) ∧
    ∃ f : Fin (query.parts 0).length ↪ Fin (candidate.parts 0).length,
      ∑ r : Fin (query.parts 0).length, spellingDistance (partSpellings query r)
        (partSpellings candidate (f r)) ≤ 0 := by
  obtain ⟨answer, hrun, hassigned⟩ := (@matching_optimal _ _ 0 id [0x61, 0x64, 0x61, 0x20, 0x6c, 0x69]
    [0x6c, 0x69, 0x20, 0x61, 0x64, 0x61] (by decide) rfl rfl (by decide)).2.2 (by decide)
  have hanswer : Except.ok (some 0) = Except.ok answer := Eq.trans (by decide) hrun
  rw [← hanswer] at hrun
  cases hanswer
  exact ⟨_, _, rfl, rfl, hrun, hassigned.mp rfl⟩

/-- The accepted name `...` has no parts, and all of them match nothing of `ada`. -/
theorem dots_unmatched : ¬∀ (name field : Bytes) (query candidate : Text) (budget : Nat),
    validateName name = .ok () → prepare id name = .ok query → prepare id field = .ok candidate →
    budget ≤ 2 → ∃ answer, partMatch query candidate budget false = .ok answer ∧
      (answer.isSome = true ↔
        ∃ f : Fin (query.parts 0).length ↪ Fin (candidate.parts 0).length,
          ∑ r : Fin (query.parts 0).length, spellingDistance (partSpellings query r)
            (partSpellings candidate (f r)) ≤ budget) := by
  intro h
  obtain ⟨answer, hrun, hiff⟩ := h [0x2e, 0x2e, 0x2e] [0x61, 0x64, 0x61] _ _ 0 (by decide) rfl rfl
    (by decide)
  have hnone : answer = none := (Except.ok.inj hrun).symm
  have hsome := hiff.mpr ⟨⟨fun r => r.elim0, fun r => r.elim0⟩, Nat.le_of_eq rfl⟩
  rw [hnone] at hsome
  exact nomatch hsome

end Bbr.Api.MemberSearch
