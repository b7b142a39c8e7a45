import Bbr.Tui.Intraline
import Bbr.Tui.WholeFileLaws
import Mathlib.Tactic.Ring

/-!
# Change blocks are aligned optimally

The removed and the added Lines of a change block are paired by a table over what is left of both
sides. With exact similarities and costs its rows are an alignment of least cost, among those one with
the most identical pairs, and among those one whose first pair comes earliest.
-/
namespace Bbr.Tui

open Bbr.Diff List
open Bbr.Lib

/-- Costs as fractions; the tolerance of the comparison is equality. -/
def exactCosts : MatchCosts ℚ where
  matchingSimilarity := matchingSimilarity
  zero := 0
  plusOne := fun cost => cost + 1
  minus := fun a b => a - b
  atLeastThreshold := fun similarity => decide (1 / 2 ≤ similarity)
  tiny := fun delta => decide (delta = 0)
  negative := fun delta => decide (delta < 0)

/-- Rows that show the Lines of both sides in order, and pair only Lines that are alike. -/
structure Alignment (removed added : List Line) (rows : List LinePair) : Prop where
  left : rows.filterMap LinePair.left = removed
  right : rows.filterMap LinePair.right = added
  shown : ∀ row ∈ rows, row.left.isSome ∨ row.right.isSome
  alike : ∀ row ∈ rows, ∀ old ∈ row.left, ∀ new ∈ row.right,
    1 / 2 ≤ matchingSimilarity old.text new.text

def rowCost : LinePair → ℚ
  | ⟨some old, some new⟩ => 1 - matchingSimilarity old.text new.text
  | ⟨none, none⟩ => 0
  | _ => 1

def totalCost (rows : List LinePair) : ℚ := (rows.map rowCost).sum

def identical : LinePair → Nat
  | ⟨some old, some new⟩ => if old.text = new.text then 1 else 0
  | _ => 0

def identicalPairs (rows : List LinePair) : Nat := (rows.map identical).sum

/-- The places of the first pair, from the places of the first Lines on. -/
def firstPair : Nat → Nat → List LinePair → Option (Nat × Nat)
  | _, _, [] => none
  | i, j, ⟨some _, some _⟩ :: _ => some (i, j)
  | i, j, ⟨some _, none⟩ :: rows => firstPair (i + 1) j rows
  | i, j, ⟨none, some _⟩ :: rows => firstPair i (j + 1) rows
  | i, j, ⟨none, none⟩ :: rows => firstPair i j rows

/-- Lexicographically at most; rows without a pair come last. -/
def NoLater : Option (Nat × Nat) → Option (Nat × Nat) → Prop
  | _, none => True
  | none, some _ => False
  | some (i, j), some (k, l) => i < k ∨ i = k ∧ j ≤ l

/-- The three keys in their order. -/
def NoWorseRows (rows others : List LinePair) : Prop :=
  totalCost rows < totalCost others ∨ totalCost rows = totalCost others ∧
    (identicalPairs others < identicalPairs rows ∨ identicalPairs rows = identicalPairs others ∧
      NoLater (firstPair 0 0 rows) (firstPair 0 0 others))

/-- The keys of a cell are at least as good as those of another. -/
def NoWorse (a b : MatchCell ℚ) : Prop :=
  a.cost < b.cost ∨ a.cost = b.cost ∧ (b.exactPairs < a.exactPairs ∨ a.exactPairs = b.exactPairs ∧
    (a.firstOld < b.firstOld ∨ a.firstOld = b.firstOld ∧ a.firstNew ≤ b.firstNew))

theorem NoWorse.refl (a : MatchCell ℚ) : NoWorse a a :=
  .inr ⟨rfl, .inr ⟨rfl, .inr ⟨rfl, Nat.le_refl _⟩⟩⟩

variable {a b : MatchCell ℚ}

theorem NoWorse.trans {c : MatchCell ℚ} (hab : NoWorse a b) (hbc : NoWorse b c) : NoWorse a c := by
  rcases hab with hab | ⟨hcost, hab⟩
  · rcases hbc with hbc | ⟨hcost', -⟩
    · exact .inl (lt_trans hab hbc)
    · exact .inl (hcost' ▸ hab)
  · rcases hbc with hbc | ⟨hcost', hbc⟩
    · exact .inl (hcost ▸ hbc)
    · exact .inr ⟨hcost.trans hcost', by omega⟩

variable (current candidate : MatchCell ℚ)

theorem chooseMatch_cases :
    (chooseMatch exactCosts current candidate = candidate ∧ NoWorse candidate current) ∨
      (chooseMatch exactCosts current candidate = current ∧ NoWorse current candidate) := by
  unfold chooseMatch
  simp only [exactCosts, sub_neg, sub_eq_zero, Bool.or_eq_true, Bool.and_eq_true, decide_eq_true_eq]
  split
  · next h =>
    refine .inl ⟨rfl, ?_⟩
    rcases h with (h | ⟨hcost, hexact⟩) | ⟨⟨hcost, hexact⟩, hearlier⟩
    · exact .inl h
    · exact .inr ⟨hcost, .inl hexact⟩
    · exact .inr ⟨hcost, .inr ⟨hexact, by omega⟩⟩
  · next h =>
    refine .inr ⟨rfl, ?_⟩
    rcases lt_trichotomy candidate.cost current.cost with hcost | hcost | hcost
    · exact absurd (.inl (.inl hcost)) h
    · refine .inr ⟨hcost.symm, ?_⟩
      by_contra hworse
      exact h (by
        by_cases hexact : candidate.exactPairs > current.exactPairs
        · exact .inl (.inr ⟨hcost, hexact⟩)
        · exact .inr ⟨⟨hcost, by omega⟩, by omega⟩)
    · exact .inl hcost

/-- One pair more, at the places of its Lines. -/
def paired (old new : Line) (i j : Nat) (next : MatchCell ℚ) : MatchCell ℚ where
  cost := next.cost + 1 - matchingSimilarity old.text new.text
  exactPairs := next.exactPairs + if old.text = new.text then 1 else 0
  firstOld := i
  firstNew := j
  operation := .pair

theorem NoWorse.alone (h : NoWorse a b) (operation : MatchOperation) :
    NoWorse (alone exactCosts operation a) (alone exactCosts operation b) := by
  cases h with
  | inl hcost => exact .inl (add_lt_add_left hcost 1)
  | inr h => exact .inr ⟨congrArg (· + 1) h.1, h.2⟩

theorem NoWorse.paired (h : NoWorse a b) (old new : Line) (i j : Nat) :
    NoWorse (paired old new i j a) (paired old new i j b) := by
  cases h with
  | inl hcost => exact .inl (by simp [Tui.paired, hcost])
  | inr h =>
    obtain ⟨hcost, h⟩ := h
    refine .inr ⟨by simp [Tui.paired, hcost], ?_⟩
    cases h with
    | inl hexact => exact .inl (Nat.add_lt_add_right hexact _)
    | inr h => exact .inr ⟨congrArg (· + _) h.1, .inr ⟨rfl, Nat.le_refl j⟩⟩

theorem chooseMatch_current : NoWorse (chooseMatch exactCosts current candidate) current := by
  cases chooseMatch_cases current candidate with
  | inl h => rw [h.1]; exact h.2
  | inr h => rw [h.1]; exact .refl current

theorem chooseMatch_candidate : NoWorse (chooseMatch exactCosts current candidate) candidate := by
  cases chooseMatch_cases current candidate with
  | inl h => rw [h.1]; exact .refl candidate
  | inr h => rw [h.1]; exact h.2

section Cells

variable {removed added : List Line} {old new : Line} {i j : Nat}

theorem cells_right : NoWorse (cells exactCosts removed i (new :: added) j)
    (alone exactCosts .right (cells exactCosts removed i added (j + 1))) := by
  cases removed with
  | nil => exact .refl _
  | cons old removed => exact chooseMatch_candidate _ _

theorem cells_left : NoWorse (cells exactCosts (old :: removed) i added j)
    (alone exactCosts .left (cells exactCosts removed (i + 1) added j)) := by
  cases added with
  | nil => exact .refl _
  | cons new added =>
    refine (chooseMatch_current _ _).trans ?_
    split
    · exact chooseMatch_candidate _ _
    · exact .refl _

theorem cells_pair (h : 1 / 2 ≤ matchingSimilarity old.text new.text) :
    NoWorse (cells exactCosts (old :: removed) i (new :: added) j)
      (paired old new i j (cells exactCosts removed (i + 1) added (j + 1))) := by
  have hscore : exactCosts.atLeastThreshold
      (exactCosts.matchingSimilarity old.text new.text) = true := decide_eq_true h
  refine (chooseMatch_current _ _).trans ?_
  rw [if_pos hscore]
  exact chooseMatch_current _ _

theorem cells_cases (removed added : List Line) (i j : Nat) : (removed = [] ∧ added = []) ∨
      (∃ old olds new news, removed = old :: olds ∧ added = new :: news ∧
        1 / 2 ≤ matchingSimilarity old.text new.text ∧ cells exactCosts removed i added j =
            paired old new i j (cells exactCosts olds (i + 1) news (j + 1))) ∨
      (∃ old olds, removed = old :: olds ∧ cells exactCosts removed i added j =
        alone exactCosts .left (cells exactCosts olds (i + 1) added j)) ∨
      ∃ new news, added = new :: news ∧ cells exactCosts removed i added j =
        alone exactCosts .right (cells exactCosts removed i news (j + 1)) := by
  cases removed with
  | nil =>
    cases added with
    | nil => exact .inl ⟨rfl, rfl⟩
    | cons new news => exact .inr (.inr (.inr ⟨new, news, rfl, rfl⟩))
  | cons old olds =>
    cases added with
    | nil => exact .inr (.inr (.inl ⟨old, olds, rfl, rfl⟩))
    | cons new news =>
      simp only [cells, rowCells]
      split
      · next h =>
        cases chooseMatch_cases _ _ with
        | inl hright => exact .inr (.inr (.inr ⟨new, news, rfl, hright.1⟩))
        | inr hfirst =>
          rw [hfirst.1]
          cases chooseMatch_cases _ _ with
          | inl hleft => exact .inr (.inr (.inl ⟨old, olds, rfl, hleft.1⟩))
          | inr hpair =>
            exact .inr (.inl ⟨old, olds, new, news, rfl, rfl, of_decide_eq_true h, hpair.1⟩)
      · cases chooseMatch_cases _ _ with
        | inl hright => exact .inr (.inr (.inr ⟨new, news, rfl, hright.1⟩))
        | inr hleft => exact .inr (.inr (.inl ⟨old, olds, rfl, hleft.1⟩))

end Cells

/-- The keys of rows whose first Lines are at the places `i` and `j`. -/
def worth : Nat → Nat → List LinePair → MatchCell ℚ
  | _, _, [] => lastCells exactCosts []
  | i, j, ⟨some old, some new⟩ :: rows => paired old new i j (worth (i + 1) (j + 1) rows)
  | i, j, ⟨some _, none⟩ :: rows => alone exactCosts .left (worth (i + 1) j rows)
  | i, j, ⟨none, some _⟩ :: rows => alone exactCosts .right (worth i (j + 1) rows)
  | i, j, ⟨none, none⟩ :: rows => worth i j rows

variable {removed added : List Line} {rows : List LinePair}

theorem Alignment.tail {row : LinePair} (h : Alignment removed added (row :: rows)) :
    Alignment (rows.filterMap LinePair.left) (rows.filterMap LinePair.right) rows where
  left := rfl
  right := rfl
  shown other hother := h.shown other (mem_cons_of_mem row hother)
  alike other hother := h.alike other (mem_cons_of_mem row hother)

theorem cells_noWorse (h : Alignment removed added rows) (i j : Nat) :
    NoWorse (cells exactCosts removed i added j) (worth i j rows) := by
  induction rows generalizing removed added i j with
  | nil =>
    rw [← h.left, ← h.right]
    exact .refl _
  | cons row rows ih =>
    have hnext := ih h.tail
    obtain ⟨left, right⟩ := row
    cases left with
    | none =>
      cases right with
      | none => simpa using h.shown _ mem_cons_self
      | some new =>
        rw [← h.left, ← h.right]
        exact cells_right.trans ((hnext i (j + 1)).alone .right)
    | some old =>
      cases right with
      | none =>
        rw [← h.left, ← h.right]
        exact cells_left.trans ((hnext (i + 1) j).alone .left)
      | some new =>
        have hscore := h.alike _ mem_cons_self old rfl new rfl
        rw [← h.left, ← h.right]
        exact (cells_pair hscore).trans ((hnext (i + 1) (j + 1)).paired old new i j)

/-- The walk reaches the keys of its first cell, through pairs that are alike. -/
theorem emitMatched_worth {fuel : Nat} {i j : Nat} (hfuel : removed.length + added.length ≤ fuel) :
    worth i j (emitMatched exactCosts fuel removed i added j) = cells exactCosts removed i added j ∧
      ∀ row ∈ emitMatched exactCosts fuel removed i added j,
        (row.left.isSome ∨ row.right.isSome) ∧ ∀ old ∈ row.left, ∀ new ∈ row.right,
          1 / 2 ≤ matchingSimilarity old.text new.text := by
  induction fuel generalizing removed added i j with
  | zero =>
    obtain rfl : removed = [] := length_eq_zero_iff.mp (by omega)
    obtain rfl : added = [] := length_eq_zero_iff.mp (by omega)
    simp [emitMatched, worth, cells]
  | succ fuel ih =>
    rcases cells_cases removed added i j with ⟨rfl, rfl⟩ | h | h | h
    · simp [emitMatched, worth, cells]
    · obtain ⟨old, olds, new, news, rfl, rfl, hscore, hcell⟩ := h
      obtain ⟨hworth, hrows⟩ := @ih olds news (i + 1) (j + 1) (by simp at hfuel; omega)
      have hwalk : emitMatched exactCosts (fuel + 1) (old :: olds) i (new :: news) j =
          ⟨some old, some new⟩ :: emitMatched exactCosts fuel olds (i + 1) news (j + 1) := by
        simp only [emitMatched, hcell, paired]
      rw [hwalk, worth, hworth, hcell]
      exact ⟨rfl, forall_mem_cons.mpr ⟨by simpa using hscore, hrows⟩⟩
    · obtain ⟨old, olds, rfl, hcell⟩ := h
      obtain ⟨hworth, hrows⟩ := @ih olds added (i + 1) j (by simp at hfuel; omega)
      have hwalk : emitMatched exactCosts (fuel + 1) (old :: olds) i added j =
          ⟨some old, none⟩ :: emitMatched exactCosts fuel olds (i + 1) added j := by
        simp only [emitMatched, hcell, alone]
      rw [hwalk, worth, hworth, hcell]
      exact ⟨rfl, forall_mem_cons.mpr ⟨by simp, hrows⟩⟩
    · obtain ⟨new, news, rfl, hcell⟩ := h
      obtain ⟨hworth, hrows⟩ := @ih removed news i (j + 1) (by simp at hfuel; omega)
      have hwalk : emitMatched exactCosts (fuel + 1) removed i (new :: news) j =
          ⟨none, some new⟩ :: emitMatched exactCosts fuel removed i news (j + 1) := by
        simp only [emitMatched, hcell, alone]
      rw [hwalk, worth, hworth, hcell]
      exact ⟨rfl, forall_mem_cons.mpr ⟨by simp, hrows⟩⟩

section

variable (i j : Nat) (rows)

theorem worth_cost : (worth i j rows).cost = totalCost rows := by
  induction rows generalizing i j with
  | nil => rfl
  | cons row rows ih =>
    obtain ⟨_ | old, _ | new⟩ := row <;>
      simp [worth, alone, paired, totalCost, rowCost, exactCosts, ih] <;> ring

theorem worth_exactPairs : (worth i j rows).exactPairs = identicalPairs rows := by
  induction rows generalizing i j with
  | nil => rfl
  | cons row rows ih =>
    obtain ⟨_ | old, _ | new⟩ := row <;>
      simp [worth, alone, paired, identicalPairs, identical, ih, Nat.add_comm]

/-- The places of the first pair, the largest ones when there is none. -/
theorem worth_first : ((worth i j rows).firstOld, (worth i j rows).firstNew) =
      (firstPair i j rows).getD (18446744073709551615, 18446744073709551615) := by
  induction rows generalizing i j with
  | nil => rfl
  | cons row rows ih =>
    obtain ⟨_ | old, _ | new⟩ := row <;> simp [worth, alone, paired, firstPair, ih]

end

theorem firstPair_lt {i j k l : Nat} (h : firstPair i j rows = some (k, l)) :
    k < i + (rows.filterMap LinePair.left).length ∧ 0 < (rows.filterMap LinePair.right).length := by
  induction rows generalizing i j with
  | nil => cases h
  | cons row rows ih =>
    obtain ⟨_ | old, _ | new⟩ := row
    · exact ih h
    · exact (ih h).imp id (fun _ => by simp)
    · have := ih h
      simp only [filterMap_cons, length_cons]
      omega
    · cases h
      simp

theorem noWorseRows_of_worth {others : List LinePair} (h : NoWorse (worth 0 0 rows) (worth 0 0 others))
    (hplaces : ∀ k l, firstPair 0 0 others = some (k, l) → k < 18446744073709551615) :
    NoWorseRows rows others := by
  have hrows := worth_first rows 0 0
  have hothers := worth_first others 0 0
  simp only [NoWorse, worth_cost, worth_exactPairs] at h
  refine h.imp id (And.imp id (Or.imp id (And.imp id fun hfirst => ?_)))
  cases hnone : firstPair 0 0 others with
  | none => simp [NoLater]
  | some place =>
    obtain ⟨k, l⟩ := place
    have hk := hplaces k l hnone
    rw [hnone, Option.getD_some, Prod.mk.injEq] at hothers
    cases hsome : firstPair 0 0 rows with
    | none =>
      rw [hsome, Option.getD_none, Prod.mk.injEq] at hrows
      omega
    | some place =>
      rw [hsome, Option.getD_some, Prod.mk.injEq] at hrows
      simp only [NoLater]
      omega

/-- The similarity of two texts is the share that a heaviest common subsequence of their parts,
counted on both sides, has in the weight of all parts; texts without parts are alike. -/
structure CommonShare (oldText newText : Bytes) : Prop where
  comm : matchingSimilarity oldText newText = matchingSimilarity newText oldText
  nonneg : 0 ≤ matchingSimilarity oldText newText
  le_one : matchingSimilarity oldText newText ≤ 1
  empty : oldText = [] → newText = [] → matchingSimilarity oldText newText = 1
  share : oldText ≠ [] ∨ newText ≠ [] → ∃ common : List Bytes,
    common.Sublist (tokenize oldText) ∧ common.Sublist (tokenize newText) ∧
      (∀ other : List Bytes, other.Sublist (tokenize oldText) → other.Sublist (tokenize newText) →
        weight List.length other ≤ weight List.length common) ∧
      matchingSimilarity oldText newText = 2 * (weight List.length common : ℚ) /
        ((weight List.length (tokenize oldText) + weight List.length (tokenize newText) : Nat) : ℚ)

theorem commonShare (oldText newText : Bytes) : CommonShare oldText newText where
  comm := matchingSimilarity_comm oldText newText
  nonneg := matchingSimilarity_nonneg oldText newText
  le_one := matchingSimilarity_le_one oldText newText
  empty hold hnew := by simp [matchingSimilarity, hold, hnew]
  share h := by
    obtain ⟨common, hold, hnew, hweight⟩ :=
      heaviestCommon_attained (w := length) (tokenize oldText) (tokenize newText)
    refine ⟨common, hold, hnew, fun other hother hother' => ?_, ?_⟩
    · rw [hweight]
      exact weight_le_heaviestCommon hother hother'
    · rw [matchingSimilarity_eq h, hweight]

/-- Within the work limit the rows of a change block are a best alignment of its Lines. -/
theorem emitSideBySideChangeBlock_best (removed added : List Line)
    (hwork : removed.length * added.length + lexicalParts removed * lexicalParts added ≤
      sideBySideWorkLimit) :
    Alignment removed added (emitSideBySideChangeBlock exactCosts removed added) ∧
      (∀ others, Alignment removed added others →
        NoWorseRows (emitSideBySideChangeBlock exactCosts removed added) others) ∧
      ∀ oldText newText, CommonShare oldText newText := by
  have hblock : emitSideBySideChangeBlock exactCosts removed added =
      emitMatched exactCosts (removed.length + added.length) removed 0 added 0 := by
    exact if_neg (Nat.not_lt.mpr hwork)
  obtain ⟨hleft, hright⟩ := emitSideBySideChangeBlock_columns exactCosts removed added
  obtain ⟨hworth, hrows⟩ :=
    emitMatched_worth (i := 0) (j := 0) (Nat.le_refl (removed.length + added.length))
  rw [← hblock] at hworth hrows
  refine ⟨⟨hleft, hright, fun row hrow => (hrows row hrow).1, fun row hrow => (hrows row hrow).2⟩,
    fun others hothers => noWorseRows_of_worth ?_ fun k l hfirst => ?_, commonShare⟩
  · rw [hworth]
    exact cells_noWorse hothers 0 0
  · obtain ⟨hk, hadded⟩ := firstPair_lt hfirst
    rw [hothers.left] at hk
    rw [hothers.right] at hadded
    have := Nat.le_mul_of_pos_right removed.length hadded
    simp only [sideBySideWorkLimit] at hwork
    omega

/-- `a b` and `c` are removed; `c`, `a b` and `a d` are added. Only one of the identical pairs fits. -/
theorem emitSideBySideChangeBlock_best_same :
    let old : List Line := [⟨1, 0, .removed, [97, 32, 98], true⟩, ⟨2, 0, .removed, [99], true⟩]
    let new : List Line := [⟨0, 1, .added, [99], true⟩, ⟨0, 2, .added, [97, 32, 98], true⟩,
      ⟨0, 3, .added, [97, 32, 100], true⟩]
    Alignment old new (emitSideBySideChangeBlock exactCosts old new) ∧
      (∀ others, Alignment old new others →
        NoWorseRows (emitSideBySideChangeBlock exactCosts old new) others) ∧
      ∀ oldText newText, CommonShare oldText newText :=
  emitSideBySideChangeBlock_best _ _ (by decide)

end Bbr.Tui
