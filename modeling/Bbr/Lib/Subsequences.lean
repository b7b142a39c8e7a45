import Mathlib.Algebra.BigOperators.Group.List.Basic
import Mathlib.Order.MinMax
import Mathlib.Algebra.GroupWithZero.Nat

/-!
# Heaviest common subsequences

The weight of a heaviest common subsequence of two lists whose elements carry a weight, by the
recursion that takes equal heads together. Equal elements weigh the same, so taking them is never
wrong.
-/
namespace Bbr.Lib

open List

variable {α : Type} (w : α → Nat)

def weight (l : List α) : Nat := (l.map w).sum

variable {c l : List α}

@[simp] theorem weight_nil : weight w [] = 0 := rfl

@[simp] theorem weight_cons (a : α) (l : List α) : weight w (a :: l) = w a + weight w l := by
  simp [weight]

theorem weight_le_of_sublist (h : c.Sublist l) : weight w c ≤ weight w l := by
  induction h with
  | slnil => exact Nat.le_refl _
  | cons a _ ih => rw [weight_cons]; omega
  | cons_cons a _ ih => rw [weight_cons, weight_cons]; omega

/-- What is left of a common subsequence without its first element. -/
theorem sublist_of_ne {a x : α} (h : (x :: c).Sublist (a :: l)) (hne : x ≠ a) :
    (x :: c).Sublist l := (cons_sublist_cons'.mp h).resolve_right fun heq => hne heq.1

/-- `n` is the length of a longest common subsequence. -/
structure LongestCommon (l r : List α) (n : Nat) : Prop where
  attained : ∃ c : List α, c.Sublist l ∧ c.Sublist r ∧ c.length = n
  longest : ∀ c : List α, c.Sublist l → c.Sublist r → c.length ≤ n

@[simp] theorem weight_one (l : List α) : weight (fun _ => 1) l = l.length := by
  induction l with
  | nil => rfl
  | cons a l ih => rw [weight_cons, ih, length_cons, Nat.add_comm]

variable [DecidableEq α]

def heaviestCommon : List α → List α → Nat
  | [], _ => 0
  | _ :: _, [] => 0
  | a :: l, b :: r =>
    if a = b then heaviestCommon l r + w a
    else max (heaviestCommon l (b :: r)) (heaviestCommon (a :: l) r)
termination_by l r => l.length + r.length

@[simp] theorem heaviestCommon_nil (r : List α) : heaviestCommon w [] r = 0 := by
  rw [heaviestCommon]

@[simp] theorem heaviestCommon_nil_right (l : List α) : heaviestCommon w l [] = 0 := by
  cases l <;> rw [heaviestCommon]

theorem heaviestCommon_cons (a b : α) (l r : List α) :
    heaviestCommon w (a :: l) (b :: r) = if a = b then heaviestCommon w l r + w a
      else max (heaviestCommon w l (b :: r)) (heaviestCommon w (a :: l) r) := by
  rw [heaviestCommon]

variable {w}

theorem weight_le_heaviestCommon {r : List α} (hl : c.Sublist l) (hr : c.Sublist r) :
    weight w c ≤ heaviestCommon w l r := by
  induction l, r using heaviestCommon.induct generalizing c with
  | case1 r => simp [eq_nil_of_sublist_nil hl]
  | case2 a l => simp [eq_nil_of_sublist_nil hr]
  | case3 l a r ih =>
    rw [heaviestCommon_cons, if_pos rfl]
    cases c with
    | nil => simp
    | cons x c =>
      by_cases hx : x = a
      · subst hx
        have : weight w c ≤ _ := ih hl.tail hr.tail
        rw [weight_cons]
        omega
      · have := ih (sublist_of_ne hl hx) (sublist_of_ne hr hx)
        omega
  | case4 a l b r hne ihl ihr =>
    rw [heaviestCommon_cons, if_neg hne]
    cases c with
    | nil => simp
    | cons x c =>
      by_cases hx : x = a
      · exact le_max_of_le_right (ihr hl (sublist_of_ne hr (hx ▸ hne)))
      · exact le_max_of_le_left (ihl (sublist_of_ne hl hx) hr)

theorem heaviestCommon_attained (l r : List α) :
    ∃ c, c.Sublist l ∧ c.Sublist r ∧ weight w c = heaviestCommon w l r := by
  induction l, r using heaviestCommon.induct with
  | case1 r | case2 a l => exact ⟨[], nil_sublist _, nil_sublist _, by simp⟩
  | case3 l a r ih =>
    obtain ⟨c, hl, hr, hw⟩ := ih
    refine ⟨a :: c, hl.cons_cons a, hr.cons_cons a, ?_⟩
    rw [heaviestCommon_cons, if_pos rfl, weight_cons, hw, Nat.add_comm]
  | case4 a l b r hne ihl ihr =>
    rw [heaviestCommon_cons, if_neg hne]
    rcases max_choice (heaviestCommon w l (b :: r)) (heaviestCommon w (a :: l) r) with h | h
    · obtain ⟨c, hl, hr, hw⟩ := ihl
      exact ⟨c, hl.cons a, hr, by rw [hw, h]⟩
    · obtain ⟨c, hl, hr, hw⟩ := ihr
      exact ⟨c, hl, hr.cons b, by rw [hw, h]⟩

theorem heaviestCommon_comm (l r : List α) : heaviestCommon w l r = heaviestCommon w r l := by
  obtain ⟨c, hl, hr, hc⟩ := heaviestCommon_attained (w := w) l r
  obtain ⟨d, hr', hl', hd⟩ := heaviestCommon_attained (w := w) r l
  have h₁ : weight w c ≤ heaviestCommon w r l := weight_le_heaviestCommon hr hl
  have h₂ : weight w d ≤ heaviestCommon w l r := weight_le_heaviestCommon hl' hr'
  omega

theorem heaviestCommon_le (l r : List α) : heaviestCommon w l r ≤ weight w l := by
  obtain ⟨c, hl, -, hc⟩ := heaviestCommon_attained (w := w) l r
  have := weight_le_of_sublist w hl
  omega

theorem heaviestCommon_self (l : List α) : heaviestCommon w l l = weight w l :=
  le_antisymm (heaviestCommon_le l l) (weight_le_heaviestCommon (List.Sublist.refl l)
    (List.Sublist.refl l))

/-- A heaviest one is a longest one where all elements weigh the same. -/
theorem longestCommon (l r : List α) : LongestCommon l r (heaviestCommon (fun _ => 1) l r) where
  attained := by simpa only [weight_one] using heaviestCommon_attained (w := fun _ => 1) l r
  longest c hl hr := by simpa only [weight_one] using weight_le_heaviestCommon (w := fun _ => 1) hl hr

end Bbr.Lib
