import Mathlib.Data.List.Basic
import Mathlib.Algebra.GroupWithZero.Nat

/-!
# Tilings

Ranges that follow one another from a place up to another, and lists that are laid out from blocks, one for
each place of a list.
-/
namespace Bbr.Lib

open List

section Tiles

variable {α β : Type} (lo hi : α → Nat)

def Tiles : Nat → Nat → List α → Prop
  | start, stop, [] => start = stop
  | start, stop, x :: xs => lo x = start ∧ start ≤ hi x ∧ Tiles (hi x) stop xs

variable {lo hi} {start stop k : Nat} {x : α} {xs : List α}

@[simp] theorem tiles_nil : Tiles lo hi start stop [] ↔ start = stop := Iff.rfl

@[simp] theorem tiles_cons :
    Tiles lo hi start stop (x :: xs) ↔ lo x = start ∧ start ≤ hi x ∧ Tiles lo hi (hi x) stop xs :=
  Iff.rfl

section

variable (h : Tiles lo hi start stop xs)
include h

theorem Tiles.le : start ≤ stop := by
  induction xs generalizing start with
  | nil => exact Nat.le_of_eq h
  | cons x xs ih => exact Nat.le_trans h.2.1 (ih h.2.2)

theorem Tiles.within : ∀ x ∈ xs, start ≤ lo x ∧ hi x ≤ stop := by
  induction xs generalizing start with
  | nil => simp
  | cons x xs ih =>
    have hrest := ih h.2.2
    have hle := h.2.2.le
    have hstep := h.2.1
    have hlo := h.1
    intro y hy
    cases mem_cons.mp hy with
    | inl heq => subst heq; omega
    | inr hmem =>
      have hy' := hrest y hmem
      omega

theorem Tiles.countP : xs.countP (fun x => decide (lo x ≤ k) && decide (k < hi x)) =
      if start ≤ k ∧ k < stop then 1 else 0 := by
  induction xs generalizing start with
  | nil =>
    have hstop : start = stop := h
    have hnone : ¬(start ≤ k ∧ k < stop) := by omega
    simp [hnone]
  | cons x xs ih =>
    have hle := h.2.2.le
    have hstep := h.2.1
    have hlo := h.1
    rw [countP_cons, ih h.2.2]
    simp only [Bool.and_eq_true, decide_eq_true_eq]
    split <;> split <;> split <;> omega

theorem Tiles.pairwise (hne : ∀ x ∈ xs, lo x < hi x) : xs.Pairwise (fun a b => lo a < lo b) := by
  induction xs generalizing start with
  | nil => exact .nil
  | cons x xs ih =>
    refine .cons (fun y hy => ?_) (ih h.2.2 (fun y hy => hne y (.tail x hy)))
    have hx := hne x (by simp)
    have hy' := h.2.2.within y hy
    omega

end

end Tiles

section Blocks

variable {α β : Type} {f : Nat → α → List β} {l : List α} {key : β → Nat} {c i : Nat}

theorem mem_flatten_mapIdx {b : β} : b ∈ (l.mapIdx f).flatten ↔ ∃ i a, l[i]? = some a ∧ b ∈ f i a := by
  simp only [List.mem_flatten, List.mem_mapIdx]
  constructor
  · intro h
    obtain ⟨block, ⟨i, hi, heq⟩, hb⟩ := h
    exact ⟨i, l[i], List.getElem?_eq_getElem hi, by rw [heq]; exact hb⟩
  · intro h
    obtain ⟨i, a, ha, hb⟩ := h
    obtain ⟨hi, rfl⟩ := List.getElem?_eq_some_iff.mp ha
    exact ⟨_, ⟨i, hi, rfl⟩, hb⟩

section

variable (h : ∀ i a, ∀ b ∈ f i a, key b = i + c)
include h

theorem le_key_of_mem : ∀ b ∈ (l.mapIdx f).flatten, c ≤ key b := by
  intro b hb
  obtain ⟨i, a, _, hb⟩ := mem_flatten_mapIdx.mp hb
  have hkey := h i a b hb
  omega

theorem key_tail : ∀ i a, ∀ b ∈ f (i + 1) a, key b = i + (c + 1) := by
  intro i a b hb
  have hkey := h (i + 1) a b hb
  omega

theorem pairwise_flatten_mapIdx : (l.mapIdx f).flatten.Pairwise (fun a b => key a ≤ key b) := by
  induction l generalizing f c with
  | nil => simp
  | cons a l ih =>
    rw [mapIdx_cons, flatten_cons, pairwise_append]
    refine ⟨?_, ih (key_tail h), ?_⟩
    · refine pairwise_of_forall_mem_list (fun x hx y hy => ?_)
      exact Nat.le_of_eq ((h 0 a x hx).trans (h 0 a y hy).symm)
    intro x hx y hy
    have hlast := le_key_of_mem (key_tail h) y hy
    have hfirst := h 0 a x hx
    omega

theorem filter_flatten_mapIdx : (l.mapIdx f).flatten.filter (fun b => decide (key b = i + c)) =
      (l[i]?.map (f i)).getD [] := by
  induction l generalizing f c i with
  | nil => simp
  | cons a l ih =>
    rw [mapIdx_cons, flatten_cons, filter_append]
    cases i with
    | zero =>
      have hfirst : (f 0 a).filter (fun b => decide (key b = 0 + c)) = f 0 a :=
        filter_eq_self.mpr (fun b hb => by simp [h 0 a b hb])
      have hlast : ((l.mapIdx (fun i => f (i + 1))).flatten).filter
          (fun b => decide (key b = 0 + c)) = [] := by
        refine filter_eq_nil_iff.mpr (fun b hb => ?_)
        have hkey := le_key_of_mem (key_tail h) b hb
        simp only [decide_eq_true_eq]
        omega
      rw [hfirst, hlast]
      simp
    | succ i =>
      have hfirst : (f 0 a).filter (fun b => decide (key b = i + 1 + c)) = [] := by
        refine filter_eq_nil_iff.mpr (fun b hb => ?_)
        have hkey := h 0 a b hb
        simp only [decide_eq_true_eq]
        omega
      have hrest := @ih (fun i => f (i + 1)) (c + 1) i (key_tail h)
      rw [hfirst, Nat.add_right_comm, Nat.add_assoc i, nil_append, hrest, getElem?_cons_succ]

end

/-- A count over the blocks, when the count in each is told by its element. -/
theorem countP_flatten_mapIdx {p : β → Bool} {count : α → Nat}
    (h : ∀ i a, l[i]? = some a → (f i a).countP p = count a) :
    (l.mapIdx f).flatten.countP p = (l.map count).sum := by
  rw [countP_flatten]
  congr 1
  refine ext_getElem? (fun i => ?_)
  cases ha : l[i]? <;> simp [ha, h i]

end Blocks

end Bbr.Lib
