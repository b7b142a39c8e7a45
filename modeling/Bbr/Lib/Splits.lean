import Mathlib.Data.List.Basic

/-!
# Texts cut at a separator

The pieces of a text are its bytes without the separators, in order. Pieces that have no separator
come back from the text that puts one in front of each.
-/
namespace Bbr.Lib

open List

variable {α : Type} [BEq α]

theorem splitOn_flatten_sublist (a : α) (text : List α) :
    List.Sublist (text.splitOn a).flatten text := by
  induction text with
  | nil => simp
  | cons c text ih =>
    rw [splitOn_cons_eq_if_modifyHead]
    split
    · simpa using ih.cons c
    · obtain ⟨first, pieces, hsplit⟩ := exists_cons_of_ne_nil (splitOn_ne_nil a text)
      rw [hsplit] at ih ⊢
      simpa using ih

theorem mem_of_mem_splitOn {a c : α} {text piece : List α} (hp : piece ∈ text.splitOn a)
    (hc : c ∈ piece) : c ∈ text :=
  (splitOn_flatten_sublist a text).mem (mem_flatten.mpr ⟨piece, hp, hc⟩)

variable [LawfulBEq α]

/-- The text that puts the separator in front of each piece. -/
def led (a : α) (pieces : List (List α)) : List α := pieces.flatMap (fun piece => a :: piece)

theorem splitOn_append_led {a : α} {piece : List α} {pieces : List (List α)}
    (h : ∀ p ∈ piece :: pieces, a ∉ p) : (piece ++ led a pieces).splitOn a = piece :: pieces := by
  induction pieces generalizing piece with
  | nil => simpa [led] using splitOn_eq_singleton (h piece mem_cons_self)
  | cons next pieces ih =>
    have hrest := ih (fun p hp => h p (mem_cons_of_mem _ hp))
    have hsplit := splitOn_append_cons_self_of_not_mem (h piece mem_cons_self) (next ++ led a pieces)
    rw [hrest] at hsplit
    exact hsplit

theorem splitOn_led {a : α} {pieces : List (List α)} (h : ∀ p ∈ pieces, a ∉ p) :
    (led a pieces).splitOn a = [] :: pieces := by
  refine (splitOn_append_led ?_ : ([] ++ led a pieces).splitOn a = [] :: pieces)
  intro p hp
  obtain rfl | hp := mem_cons.mp hp
  · simp
  · exact h p hp

end Bbr.Lib
