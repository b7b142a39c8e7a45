import Mathlib.Order.Lattice.Nat

/-!
# Alignments with neighbours swapped

A script reads one list and writes another from left to right. It keeps, replaces, deletes and
inserts an element, and it swaps two neighbours, none of which it touches again. The distance of two
lists is the least price of a script, and the last step of a script gives its recurrence.
-/
namespace Bbr.Lib

open List

variable {α : Type}

/-- A script that has read the first list, has written the second and pays a price. -/
inductive Swaps : List α → List α → Nat → Prop where
  | done : Swaps [] [] 0
  | keep {x y n} (a : α) : Swaps x y n → Swaps (x ++ [a]) (y ++ [a]) n
  | replace {x y n} (a b : α) : Swaps x y n → Swaps (x ++ [a]) (y ++ [b]) (n + 1)
  | delete {x y n} (a : α) : Swaps x y n → Swaps (x ++ [a]) y (n + 1)
  | insert {x y n} (b : α) : Swaps x y n → Swaps x (y ++ [b]) (n + 1)
  | swap {x y n} (a b : α) : Swaps x y n → Swaps (x ++ [b, a]) (y ++ [a, b]) (n + 1)

/-- The least price of a script from one list to the other. -/
noncomputable def swapDistance (x y : List α) : Nat := sInf {n | Swaps x y n}

namespace Swaps

variable {x y : List α} {n : Nat}

theorem deleteAll (x : List α) : Swaps x [] x.length := by
  induction x using reverseRecOn with
  | nil => exact .done
  | append_singleton x a ih => simpa using ih.delete a

theorem insertAll (h : Swaps x [] n) (y : List α) : Swaps x y (n + y.length) := by
  induction y using reverseRecOn with
  | nil => exact h
  | append_singleton y b ih => simpa [Nat.add_assoc] using ih.insert b

theorem length_le (h : Swaps x y n) : x.length ≤ y.length + n ∧ y.length ≤ x.length + n := by
  induction h with
  | done => simp
  | keep a _ ih | replace a b _ ih | delete a _ ih | insert b _ ih | swap a b _ ih => simp; omega

theorem last {a b : α} (h : Swaps (x ++ [a]) (y ++ [b]) n) : (a = b ∧ Swaps x y n) ∨
    (∃ m, n = m + 1 ∧ (Swaps x y m ∨ Swaps x (y ++ [b]) m ∨ Swaps (x ++ [a]) y m ∨
      ∃ x' y', x = x' ++ [b] ∧ y = y' ++ [a] ∧ Swaps x' y' m)) := by
  generalize hu : x ++ [a] = u at h
  generalize hv : y ++ [b] = v at h
  cases h with
  | done => simp at hu
  | keep c h =>
    obtain ⟨rfl, rfl⟩ := append_singleton_inj.mp hu
    obtain ⟨rfl, rfl⟩ := append_singleton_inj.mp hv
    exact .inl ⟨rfl, h⟩
  | @replace x' y' m c d h =>
    obtain ⟨rfl, rfl⟩ := append_singleton_inj.mp hu
    obtain ⟨rfl, rfl⟩ := append_singleton_inj.mp hv
    exact .inr ⟨m, rfl, .inl h⟩
  | @delete x' y' m c h =>
    obtain ⟨rfl, rfl⟩ := append_singleton_inj.mp hu
    exact .inr ⟨m, rfl, .inr (.inl h)⟩
  | @insert x' y' m c h =>
    obtain ⟨rfl, rfl⟩ := append_singleton_inj.mp hv
    exact .inr ⟨m, rfl, .inr (.inr (.inl h))⟩
  | @swap x' y' m c d h =>
    rw [append_cons x' d [c]] at hu
    rw [append_cons y' c [d]] at hv
    obtain ⟨rfl, rfl⟩ := append_singleton_inj.mp hu
    obtain ⟨rfl, rfl⟩ := append_singleton_inj.mp hv
    exact .inr ⟨m, rfl, .inr (.inr (.inr ⟨x', y', rfl, rfl, h⟩))⟩

end Swaps

variable {x y : List α} {n : Nat}

theorem swapDistance_swaps (x y : List α) : Swaps x y (swapDistance x y) :=
  Nat.sInf_mem ⟨_, (Swaps.deleteAll x).insertAll y⟩

theorem swapDistance_le (h : Swaps x y n) : swapDistance x y ≤ n := Nat.sInf_le h

theorem length_le_swapDistance (x y : List α) :
    x.length ≤ y.length + swapDistance x y ∧ y.length ≤ x.length + swapDistance x y :=
  (swapDistance_swaps x y).length_le

theorem swapDistance_le_add (x y : List α) : swapDistance x y ≤ x.length + y.length :=
  swapDistance_le ((Swaps.deleteAll x).insertAll y)

theorem swapDistance_nil_right (x : List α) : swapDistance x [] = x.length := by
  have hle := swapDistance_le (Swaps.deleteAll x)
  have hge := (length_le_swapDistance x []).1
  simp only [length_nil] at hge
  omega

theorem swapDistance_nil_left (y : List α) : swapDistance [] y = y.length := by
  have hle := swapDistance_le (Swaps.done.insertAll y)
  have hge := (length_le_swapDistance [] y).2
  simp only [length_nil] at hge
  omega

theorem swapDistance_delete_le (x y : List α) (a : α) :
    swapDistance (x ++ [a]) y ≤ swapDistance x y + 1 :=
  swapDistance_le ((swapDistance_swaps x y).delete a)

theorem swapDistance_insert_le (x y : List α) (b : α) :
    swapDistance x (y ++ [b]) ≤ swapDistance x y + 1 :=
  swapDistance_le ((swapDistance_swaps x y).insert b)

theorem swapDistance_swap_le (x y : List α) (a b : α) :
    swapDistance (x ++ [b] ++ [a]) (y ++ [a] ++ [b]) ≤ swapDistance x y + 1 := by
  rw [← append_cons, ← append_cons]
  exact swapDistance_le ((swapDistance_swaps x y).swap a b)

variable [DecidableEq α]

theorem swapDistance_replace_le (x y : List α) (a b : α) :
    swapDistance (x ++ [a]) (y ++ [b]) ≤ swapDistance x y + (if a = b then 0 else 1) := by
  by_cases h : a = b
  · subst h
    simpa using swapDistance_le ((swapDistance_swaps x y).keep a)
  · simpa [h] using swapDistance_le ((swapDistance_swaps x y).replace a b)

/-- The price of the last step but a swap. -/
noncomputable def plainStep (x y : List α) (a b : α) : Nat :=
  min (swapDistance x (y ++ [b]) + 1)
    (min (swapDistance (x ++ [a]) y + 1) (swapDistance x y + (if a = b then 0 else 1)))

theorem swapDistance_le_plainStep (x y : List α) (a b : α) :
    swapDistance (x ++ [a]) (y ++ [b]) ≤ plainStep x y a b := by
  have h1 := swapDistance_delete_le x (y ++ [b]) a
  have h2 := swapDistance_insert_le (x ++ [a]) y b
  have h3 := swapDistance_replace_le x y a b
  simp only [plainStep]
  omega

theorem swapDistance_last (x y : List α) (a b : α) :
    swapDistance (x ++ [a]) (y ++ [b]) = plainStep x y a b ∨
    ∃ x' y', x = x' ++ [b] ∧ y = y' ++ [a] ∧
      swapDistance (x ++ [a]) (y ++ [b]) = swapDistance x' y' + 1 := by
  have hle := swapDistance_le_plainStep x y a b
  cases (swapDistance_swaps (x ++ [a]) (y ++ [b])).last with
  | inl h =>
    have := swapDistance_le h.2
    have hplain : plainStep x y a b ≤ swapDistance x y := by simp [plainStep, h.1]
    exact .inl (by omega)
  | inr h =>
    obtain ⟨m, hm, h⟩ := h
    have hif : (if a = b then 0 else 1) ≤ 1 := by split <;> omega
    simp only [plainStep] at hle ⊢
    rcases h with h | h | h | ⟨x', y', rfl, rfl, h⟩
    · have := swapDistance_le h
      exact .inl (by omega)
    · have := swapDistance_le h
      exact .inl (by omega)
    · have := swapDistance_le h
      exact .inl (by omega)
    · have := swapDistance_le h
      have := swapDistance_swap_le x' y' a b
      exact .inr ⟨x', y', rfl, rfl, by omega⟩

theorem swapDistance_plain {x y : List α} {a b : α} (h : ∀ x' y', x = x' ++ [b] → y ≠ y' ++ [a]) :
    swapDistance (x ++ [a]) (y ++ [b]) = plainStep x y a b := by
  cases swapDistance_last x y a b with
  | inl h => exact h
  | inr hs =>
    obtain ⟨x', y', hx, hy, -⟩ := hs
    exact absurd hy (h x' y' hx)

theorem swapDistance_swap (x y : List α) (a b : α) : swapDistance (x ++ [b] ++ [a]) (y ++ [a] ++ [b]) =
      min (plainStep (x ++ [b]) (y ++ [a]) a b) (swapDistance x y + 1) := by
  have hswap := swapDistance_swap_le x y a b
  have hplain := swapDistance_le_plainStep (x ++ [b]) (y ++ [a]) a b
  cases swapDistance_last (x ++ [b]) (y ++ [a]) a b with
  | inl h => omega
  | inr h =>
    obtain ⟨x', y', hx, hy, h⟩ := h
    obtain ⟨rfl, -⟩ := append_singleton_inj.mp hx
    obtain ⟨rfl, -⟩ := append_singleton_inj.mp hy
    omega

end Bbr.Lib
