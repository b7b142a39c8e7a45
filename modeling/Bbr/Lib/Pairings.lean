import Mathlib.Data.List.Forall2

/-!
# Lists paired element by element

What stands at a place of one list has its partner at the same place of the other.
-/
namespace Bbr.Lib

open List

variable {α β : Type} {r : α → β → Prop} {as : List α} {bs : List β} {i : Nat} {a : α} {b : β}

theorem forall₂_at (h : Forall₂ r as bs) (hb : bs[i]? = some b) : ∃ a, as[i]? = some a ∧ r a b := by
  obtain ⟨hi, rfl⟩ := List.getElem?_eq_some_iff.mp hb
  have hi' := h.length_eq ▸ hi
  exact ⟨_, getElem?_eq_getElem hi', h.get hi' hi⟩

theorem forall₂_mem (h : Forall₂ r as bs) (hb : b ∈ bs) : ∃ a ∈ as, r a b := by
  obtain ⟨i, hi⟩ := mem_iff_getElem?.mp hb
  obtain ⟨a, ha, hr⟩ := forall₂_at h hi
  exact ⟨a, mem_of_getElem? ha, hr⟩

theorem forall₂_set (h : Forall₂ r as bs) (ha : as[i]? = some a) (hr : r a b) :
    Forall₂ r as (bs.set i b) := by
  induction h generalizing i with
  | nil => cases ha
  | cons hab hrest ih =>
    cases i with
    | zero =>
      cases ha
      exact .cons hr hrest
    | succ i => exact .cons hab (ih ha)

theorem forall₂_of_map_eq {f : α → β} {as as' : List α} (h : as.map f = as'.map f) :
    Forall₂ (fun a b => f a = f b) as as' := by
  rw [← forall₂_eq_eq_eq] at h
  exact forall₂_map_right_iff.mp (forall₂_map_left_iff.mp h)

end Bbr.Lib
