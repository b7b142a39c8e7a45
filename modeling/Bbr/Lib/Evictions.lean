import Mathlib.Data.List.Sort
import Mathlib.Algebra.GroupWithZero.Nat

/-!
# Making room

Items have sizes and ranks. As long as they do not fit, the first item of the least rank goes. What
goes ranks no higher than what stays.
-/
namespace Bbr.Lib

open List

variable {α ρ : Type} [LinearOrder ρ]

/-- The place of the best item so far, and of a later one that ranks below it. -/
def leastOf (rank : α → ρ) (best : Nat × α) (entry : α × Nat) : Nat × α :=
  if rank entry.1 < rank best.2 then (entry.2, entry.1) else best

/-- The place of the first item of the least rank; 0 where there is none. -/
def leastIndex (rank : α → ρ) (items : List α) : Nat :=
  match items with
  | [] => 0
  | first :: _ => (items.zipIdx.foldl (leastOf rank) (0, first)).1

variable {rank : α → ρ}

theorem foldl_leastOf (rank : α → ρ) {all : List α} (items : List α) {offset : Nat} (best : Nat × α)
    (hbest : all[best.1]? = some best.2)
    (hitems : ∀ i, items[i]? = none ∨ all[offset + i]? = items[i]?) :
    all[((items.zipIdx offset).foldl (leastOf rank) best).1]? =
        some ((items.zipIdx offset).foldl (leastOf rank) best).2 ∧
      rank ((items.zipIdx offset).foldl (leastOf rank) best).2 ≤ rank best.2 ∧
      ∀ a ∈ items, rank ((items.zipIdx offset).foldl (leastOf rank) best).2 ≤ rank a := by
  induction items generalizing offset best with
  | nil => simpa using hbest
  | cons a items ih =>
    have ha : all[offset]? = some a := by simpa using hitems 0
    have hrest : ∀ i, items[i]? = none ∨ all[offset + 1 + i]? = items[i]? := by
      intro i
      have hi := hitems (i + 1)
      rw [Nat.add_right_comm, Nat.add_assoc]
      simpa using hi
    rw [zipIdx_cons, foldl_cons]
    by_cases hlt : rank a < rank best.2
    · have hstep : leastOf rank best (a, offset) = (offset, a) := if_pos hlt
      obtain ⟨hget, hle, hall⟩ := ih (offset, a) ha hrest
      rw [hstep]
      refine ⟨hget, le_trans hle (le_of_lt hlt), ?_⟩
      intro b hb
      obtain rfl | hb := mem_cons.mp hb
      · exact hle
      · exact hall b hb
    · have hstep : leastOf rank best (a, offset) = best := if_neg hlt
      obtain ⟨hget, hle, hall⟩ := ih best hbest hrest
      rw [hstep]
      refine ⟨hget, hle, ?_⟩
      intro b hb
      obtain rfl | hb := mem_cons.mp hb
      · exact le_trans hle (not_lt.mp hlt)
      · exact hall b hb

theorem leastIndex_spec (rank : α → ρ) {items : List α} (h : items ≠ []) :
    ∃ a, items[leastIndex rank items]? = some a ∧ ∀ b ∈ items, rank a ≤ rank b := by
  obtain ⟨first, rest, rfl⟩ := exists_cons_of_ne_nil h
  have hitems : ∀ i, (first :: rest)[i]? = none ∨ (first :: rest)[0 + i]? = (first :: rest)[i]? := by simp
  have hfold := foldl_leastOf rank (first :: rest) (0, first) rfl hitems
  exact ⟨_, hfold.1, hfold.2.2⟩

/-- Least items go until the sizes fit into the room. -/
def makeRoom (rank : α → ρ) (size : α → Nat) (room : Nat) : Nat → List α → List α
  | 0, items => items
  | fuel + 1, items =>
    if (items.map size).sum ≤ room then items
    else makeRoom rank size room fuel (items.eraseIdx (leastIndex rank items))

variable {size : α → Nat} {room : Nat}

theorem makeRoom_sublist (fuel : Nat) (items : List α) :
    List.Sublist (makeRoom rank size room fuel items) items := by
  induction fuel generalizing items with
  | zero => exact List.Sublist.refl items
  | succ fuel ih =>
    unfold makeRoom
    split
    · exact List.Sublist.refl items
    · exact (ih _).trans (eraseIdx_sublist items _)

theorem makeRoom_fits {fuel : Nat} {items : List α} (h : items.length ≤ fuel) :
    ((makeRoom rank size room fuel items).map size).sum ≤ room := by
  induction fuel generalizing items with
  | zero =>
    obtain rfl := List.eq_nil_of_length_eq_zero (Nat.le_zero.mp h)
    exact Nat.zero_le room
  | succ fuel ih =>
    unfold makeRoom
    split
    · assumption
    rename_i hfull
    have hne : items ≠ [] := by
      rintro rfl
      exact hfull (Nat.zero_le room)
    obtain ⟨a, ha, -⟩ := leastIndex_spec rank hne
    have hlt := (List.getElem?_eq_some_iff.mp ha).1
    apply ih
    rw [List.length_eraseIdx_of_lt hlt]
    omega

theorem makeRoom_least {fuel : Nat} {items : List α} {gone : α} (h : gone ∈ items)
    (hgone : gone ∉ makeRoom rank size room fuel items) :
    ∀ a ∈ makeRoom rank size room fuel items, rank gone ≤ rank a := by
  induction fuel generalizing items with
  | zero => exact absurd h hgone
  | succ fuel ih =>
    unfold makeRoom at hgone ⊢
    split at hgone
    · exact absurd h hgone
    rename_i hfull
    rw [if_neg hfull]
    obtain ⟨least, hleast, hall⟩ := leastIndex_spec rank (ne_nil_of_mem h)
    by_cases hrest : gone ∈ items.eraseIdx (leastIndex rank items)
    · exact ih hrest hgone
    obtain ⟨i, hi⟩ := mem_iff_getElem?.mp h
    have hplace : i = leastIndex rank items := by
      apply Classical.byContradiction
      intro hne
      exact hrest (mem_eraseIdx_iff_getElem?.mpr ⟨i, hne, hi⟩)
    obtain rfl : gone = least := Option.some.inj (hi.symm.trans (hplace ▸ hleast))
    intro a ha
    exact hall a (((makeRoom_sublist fuel _).trans (eraseIdx_sublist items _)).mem ha)

end Bbr.Lib
