import Mathlib.Algebra.BigOperators.Ring.Finset
import Mathlib.Algebra.Order.BigOperators.Group.Finset
import Mathlib.Algebra.Order.Ring.Int
import Mathlib.Data.Fintype.BigOperators

/-!
# Assignments and their prices

An assignment gives every row a column of its own. Prices of the rows and columns that together
undercut every cost bound the cost of all assignments from below, and an assignment at those prices
is a cheapest one.
-/
namespace Bbr.Lib

open Finset

variable {ι κ : Type} [Fintype ι]

def assignmentTotal (cost : ι → κ → Nat) (f : ι ↪ κ) : Nat := ∑ i, cost i (f i)

/-- What an assignment can cost. -/
def assignmentTotals (cost : ι → κ → Nat) : Set Nat := Set.range (assignmentTotal cost)

/-- Prices that undercut every cost. A column costs nothing or is a rebate. -/
structure Prices (cost : ι → κ → Nat) where
  row : ι → Int
  col : κ → Int
  undercut : ∀ i j, row i + col j ≤ cost i j
  rebate : ∀ j, col j ≤ 0

variable {cost : ι → κ → Nat} [Fintype κ]

def Prices.worth (prices : Prices cost) : Int := ∑ i, prices.row i + ∑ j, prices.col j

variable (prices : Prices cost)

/-- The prices of the columns of an assignment are the rebates that it gets. -/
theorem Prices.sum_col_le (f : ι ↪ κ) : ∑ j, prices.col j ≤ ∑ i, prices.col (f i) := by
  have hneg : ∑ j ∈ univ.map f, -prices.col j ≤ ∑ j, -prices.col j :=
    sum_le_univ_sum_of_nonneg (fun j => Int.neg_nonneg.mpr (prices.rebate j))
  rw [sum_neg_distrib, sum_neg_distrib, sum_map] at hneg
  omega

theorem Prices.worth_le (f : ι ↪ κ) : prices.worth ≤ assignmentTotal cost f := by
  have hcol := prices.sum_col_le f
  have hpairs : ∑ i, (prices.row i + prices.col (f i)) ≤ ∑ i, (cost i (f i) : Int) :=
    sum_le_sum (fun i _ => prices.undercut i (f i))
  rw [sum_add_distrib] at hpairs
  simp only [worth, assignmentTotal, Nat.cast_sum]
  omega

/-- An assignment at the prices costs what they are worth, if other columns are free. -/
theorem Prices.worth_eq (f : ι ↪ κ) (htight : ∀ i, prices.row i + prices.col (f i) = cost i (f i))
    (hfree : ∀ j, j ∉ Set.range f → prices.col j = 0) : prices.worth = assignmentTotal cost f := by
  have hcol : ∑ j, prices.col j = ∑ i, prices.col (f i) := by
    rw [← sum_map univ f prices.col]
    refine (sum_subset (subset_univ _) (fun j _ hj => hfree j ?_)).symm
    simpa using hj
  simp only [worth, assignmentTotal, Nat.cast_sum, hcol, ← sum_add_distrib]
  exact sum_congr rfl (fun i _ => htight i)

theorem Prices.isLeast (f : ι ↪ κ) (h : prices.worth = assignmentTotal cost f) :
    IsLeast (assignmentTotals cost) (assignmentTotal cost f) := by
  refine ⟨⟨f, rfl⟩, ?_⟩
  rintro _ ⟨g, rfl⟩
  have := prices.worth_le g
  omega

end Bbr.Lib
