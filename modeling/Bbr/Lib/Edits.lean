import Mathlib.Data.List.Basic

/-!
# Edit scripts

A script keeps, inserts and deletes elements and so leads from a source list to a target list. Its
image sends the position of a kept element in the source to its position in the target. Positions
are counted from a chosen start on each side.
-/
namespace Bbr.Lib

open List

inductive Edit (α : Type) where
  | keep (a : α)
  | insert (a : α)
  | delete (a : α)
  deriving DecidableEq, Repr

variable {α : Type} {script : List (Edit α)} {o n t t' m m' : Nat}

/-- What the script starts from. -/
def source : List (Edit α) → List α
  | [] => []
  | .keep a :: rest => a :: source rest
  | .insert _ :: rest => source rest
  | .delete a :: rest => a :: source rest

def target : List (Edit α) → List α
  | [] => []
  | .keep a :: rest => a :: target rest
  | .insert a :: rest => a :: target rest
  | .delete _ :: rest => target rest

variable (s s' : List (Edit α))

@[simp] theorem source_append : source (s ++ s') = source s ++ source s' := by
  induction s with
  | nil => rfl
  | cons e s ih => cases e <;> simp [source, ih]

@[simp] theorem target_append : target (s ++ s') = target s ++ target s' := by
  induction s with
  | nil => rfl
  | cons e s ih => cases e <;> simp [target, ih]

/-- Where the source position `t` goes, when the source starts at `o` and the target at `n`. -/
def imageFrom (o n : Nat) : List (Edit α) → Nat → Option Nat
  | [], _ => none
  | .keep _ :: rest, t => if t = o then some n else imageFrom (o + 1) (n + 1) rest t
  | .insert _ :: rest, t => imageFrom o (n + 1) rest t
  | .delete _ :: rest, t => if t = o then none else imageFrom (o + 1) n rest t

section

variable (h : imageFrom o n script t = some m)
include h

theorem imageFrom_bounds :
    (o ≤ t ∧ t < o + (source script).length) ∧ n ≤ m ∧ m < n + (target script).length := by
  induction script generalizing o n with
  | nil => simp [imageFrom] at h
  | cons e rest ih =>
    cases e with
    | keep a =>
      unfold imageFrom at h
      simp only [source, target, length_cons]
      split at h
      · have hm : n = m := Option.some.inj h
        omega
      · have hrest := ih h
        omega
    | insert a =>
      have hrest := ih h
      simp only [source, target, length_cons]
      omega
    | delete a =>
      unfold imageFrom at h
      simp only [source, target, length_cons]
      split at h
      · exact absurd h (by simp)
      · have hrest := ih h
        omega

/-- The element at a position and at its image is one element of both lists. -/
theorem imageFrom_same : ∃ a, (source script)[t - o]? = some a ∧ (target script)[m - n]? = some a := by
  induction script generalizing o n with
  | nil => simp [imageFrom] at h
  | cons e rest ih =>
    cases e with
    | keep a =>
      unfold imageFrom at h
      split at h
      · have hm : n = m := Option.some.inj h
        exact ⟨a, by simp [source, *], by simp [target, hm]⟩
      · obtain ⟨b, hsource, htarget⟩ := ih h
        have hrest := imageFrom_bounds h
        rw [show t - o = t - (o + 1) + 1 by omega, show m - n = m - (n + 1) + 1 by omega]
        exact ⟨b, hsource, htarget⟩
    | insert a =>
      change imageFrom o (n + 1) rest t = some m at h
      obtain ⟨b, hsource, htarget⟩ := ih h
      have hrest := imageFrom_bounds h
      rw [show m - n = m - (n + 1) + 1 by omega]
      exact ⟨b, hsource, htarget⟩
    | delete a =>
      unfold imageFrom at h
      split at h
      · exact absurd h (by simp)
      · obtain ⟨b, hsource, htarget⟩ := ih h
        have hrest := imageFrom_bounds h
        rw [show t - o = t - (o + 1) + 1 by omega]
        exact ⟨b, hsource, htarget⟩

theorem imageFrom_lt (h' : imageFrom o n script t' = some m') (hlt : t < t') : m < m' := by
  induction script generalizing o n with
  | nil => simp [imageFrom] at h
  | cons e rest ih =>
    cases e with
    | keep a =>
      unfold imageFrom at h h'
      split at h
      · have hm : n = m := Option.some.inj h
        rw [if_neg (by omega)] at h'
        have hb := imageFrom_bounds h'
        omega
      · have hb := imageFrom_bounds h
        rw [if_neg (by omega)] at h'
        exact ih h h'
    | insert a => exact ih h h'
    | delete a =>
      unfold imageFrom at h h'
      split at h
      · exact absurd h (by simp)
      · have hb := imageFrom_bounds h
        rw [if_neg (by omega)] at h'
        exact ih h h'

end

theorem imageFrom_append (ht : o + (source s).length ≤ t) : imageFrom o n (s ++ s') t =
      imageFrom (o + (source s).length) (n + (target s).length) s' t := by
  induction s generalizing o n with
  | nil => rfl
  | cons e s ih =>
    cases e with
    | keep a =>
      simp only [source, target, length_cons] at ht ⊢
      have hne : t ≠ o := by omega
      have hrest := ih (o := o + 1) (n := n + 1) (by omega)
      simp only [cons_append, imageFrom, hne, if_false, hrest]
      congr 1 <;> omega
    | insert a =>
      simp only [source, target, length_cons] at ht ⊢
      have hrest := ih (o := o) (n := n + 1) ht
      simp only [cons_append, imageFrom, hrest]
      congr 1
      omega
    | delete a =>
      simp only [source, target, length_cons] at ht ⊢
      have hne : t ≠ o := by omega
      have hrest := ih (o := o + 1) (n := n) (by omega)
      simp only [cons_append, imageFrom, hne, if_false, hrest]
      congr 1
      omega

theorem imageFrom_append_left (ht : t < o + (source s).length) (ho : o ≤ t) :
    imageFrom o n (s ++ s') t = imageFrom o n s t := by
  induction s generalizing o n with
  | nil =>
    simp only [source, length_nil] at ht
    omega
  | cons e s ih =>
    cases e with
    | keep a | delete a =>
      simp only [source, length_cons] at ht
      simp only [cons_append, imageFrom]
      split
      · rfl
      · exact ih (by omega) (by omega)
    | insert a => exact ih ht ho

/-- The positions from `first` to `last` go to consecutive positions from `m` on. -/
def Together (image : Nat → Option Nat) (first last m : Nat) : Prop :=
  ∀ i, first + i ≤ last → image (first + i) = some (m + i)

variable {image : Nat → Option Nat}

theorem Together.head {first last : Nat} (h : Together image first last m) (hle : first ≤ last) :
    image first = some m := h 0 hle

theorem Together.tail {first last : Nat} (h : Together image first last m) :
    Together image (first + 1) last (m + 1) := by
  intro i hi
  have hnext := h (i + 1) (by omega)
  rw [Nat.add_right_comm, Nat.add_assoc first, Nat.add_right_comm m, Nat.add_assoc m]
  exact hnext

theorem Together.cons {image : Nat → Option Nat} {first last m : Nat}
    (h : image first = some m) (ht : Together image (first + 1) last (m + 1)) :
    Together image first last m := by
  intro i hi
  cases i with
  | zero => exact h
  | succ i =>
    have hnext := ht i (by omega)
    rw [Nat.add_right_comm, Nat.add_assoc first, Nat.add_right_comm m, Nat.add_assoc m] at hnext
    exact hnext

theorem Together.unique {first last m' : Nat} (hle : first ≤ last)
    (h : Together image first last m) (h' : Together image first last m') : m = m' :=
  Option.some.inj ((h.head hle).symm.trans (h'.head hle))

end Bbr.Lib
