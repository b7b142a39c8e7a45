import Mathlib.Data.List.TakeWhile

/-!
# Trimmed lists

A list without what a predicate holds for at its ends.
-/
namespace Bbr.Lib

open List

variable {α : Type} (p : α → Bool)

def trimEnd (l : List α) : List α := (l.reverse.dropWhile p).reverse

def trimBoth (l : List α) : List α := trimEnd p (l.dropWhile p)

variable {p} {l front back : List α}

/-- Neither end is one that is trimmed. -/
structure Trimmed (p : α → Bool) (l : List α) : Prop where
  head : ∀ c, l.head? = some c → p c = false
  last : ∀ c, l.getLast? = some c → p c = false

theorem dropWhile_eq_self (h : ∀ c, l.head? = some c → p c = false) : l.dropWhile p = l := by
  cases l with
  | nil => rfl
  | cons c l => simp [h c rfl]

theorem trimEnd_eq_self (h : ∀ c, l.getLast? = some c → p c = false) : trimEnd p l = l := by
  rw [trimEnd, dropWhile_eq_self, reverse_reverse]
  simpa using h

theorem Trimmed.trimBoth_eq (h : Trimmed p l) : trimBoth p l = l := by
  rw [trimBoth, dropWhile_eq_self h.head, trimEnd_eq_self h.last]

/-- The list does not begin with one that the predicate holds for. -/
def Stops (p : α → Bool) (l : List α) : Prop := ∀ c, l.head? = some c → p c = false

theorem takeWhile_stops (hfront : ∀ c ∈ front, p c = true) (h : Stops p l) :
    (front ++ l).takeWhile p = front := by
  rw [takeWhile_append_of_pos hfront]
  cases l with
  | nil => simp
  | cons c l => simp [h c rfl]

theorem exists_stops (p : α → Bool) (l : List α) :
    ∃ rest, l = l.takeWhile p ++ rest ∧ (∀ c ∈ l.takeWhile p, p c = true) ∧ Stops p rest := by
  refine ⟨l.dropWhile p, takeWhile_append_dropWhile.symm, fun c hc => ?_, fun c hc => ?_⟩
  · exact mem_takeWhile_imp hc
  · have hdrop := head?_dropWhile_not p l
    rw [hc] at hdrop
    exact hdrop

theorem trimEnd_append_all (h : ∀ c ∈ back, p c = true) : trimEnd p (l ++ back) = trimEnd p l := by
  rw [trimEnd, reverse_append, dropWhile_append_of_pos, trimEnd]
  intro c hc
  exact h c (mem_reverse.mp hc)

theorem trimBoth_append_left (h : ∀ c ∈ front, p c = true) :
    trimBoth p (front ++ l) = trimBoth p l := by
  rw [trimBoth, dropWhile_append_of_pos h, trimBoth]

theorem exists_trimEnd (p : α → Bool) (l : List α) :
    ∃ back, l = trimEnd p l ++ back ∧ ∀ c ∈ back, p c = true := by
  refine ⟨(l.reverse.takeWhile p).reverse, ?_, fun c hc => ?_⟩
  · rw [trimEnd, ← reverse_append, takeWhile_append_dropWhile, reverse_reverse]
  · exact mem_takeWhile_imp (mem_reverse.mp hc)

theorem trimEnd_last (p : α → Bool) (l : List α) :
    ∀ c, (trimEnd p l).getLast? = some c → p c = false := by
  intro c hc
  rw [trimEnd, getLast?_reverse] at hc
  have hdrop := head?_dropWhile_not p l.reverse
  rw [hc] at hdrop
  exact hdrop

theorem trimBoth_append_right (h : ∀ c ∈ back, p c = true) : trimBoth p (l ++ back) = trimBoth p l := by
  by_cases hall : ∀ c ∈ l, p c = true
  · have hboth : (l ++ back).dropWhile p = [] := by
      rw [dropWhile_eq_nil_iff]
      intro c hc
      cases mem_append.mp hc with
      | inl hl => exact hall c hl
      | inr hb => exact h c hb
    have hleft : l.dropWhile p = [] := dropWhile_eq_nil_iff.mpr hall
    rw [trimBoth, hboth, trimBoth, hleft]
  · have hne : l.dropWhile p ≠ [] := fun hnil => hall (dropWhile_eq_nil_iff.mp hnil)
    rw [trimBoth, dropWhile_append, if_neg (by simpa using hne), trimEnd_append_all h, trimBoth]

theorem Trimmed.trimBoth_between (h : Trimmed p l) (hfront : ∀ c ∈ front, p c = true)
    (hback : ∀ c ∈ back, p c = true) : trimBoth p (front ++ (l ++ back)) = l := by
  rw [trimBoth_append_left hfront, trimBoth_append_right hback, h.trimBoth_eq]

theorem trimEnd_append_stop {c : α} (h : p c = false) (front back : List α) :
    trimEnd p (front ++ c :: back) = front ++ c :: trimEnd p back := by
  obtain ⟨rest, hrest, hall⟩ := exists_trimEnd p back
  have htext : front ++ c :: back = (front ++ c :: trimEnd p back) ++ rest := by
    rw [append_assoc, cons_append, ← hrest]
  rw [htext, trimEnd_append_all hall, trimEnd_eq_self]
  intro d hd
  have hlast := trimEnd_last p back
  cases hback : trimEnd p back with
  | nil =>
    rw [hback, getLast?_concat] at hd
    cases hd
    exact h
  | cons e rest =>
    apply hlast d
    rw [hback] at hd ⊢
    rw [getLast?_append, getLast?_cons_cons, getLast?_cons] at hd
    rw [getLast?_cons]
    exact hd

theorem trimBoth_stop {c : α} (hfront : ∀ c ∈ front, p c = true) (h : p c = false) (back : List α) :
    trimBoth p (front ++ c :: back) = c :: trimEnd p back := by
  have hdrop : (c :: back).dropWhile p = c :: back := by simp [h]
  rw [trimBoth, dropWhile_append_of_pos hfront, hdrop, ← nil_append (c :: back),
    trimEnd_append_stop h, nil_append]

theorem mem_trimBoth {c : α} (hmem : c ∈ l) (h : p c = false) : c ∈ trimBoth p l := by
  obtain ⟨back, hback, hall⟩ := exists_trimEnd p (l.dropWhile p)
  have hl : l = l.takeWhile p ++ (trimBoth p l ++ back) := by
    rw [trimBoth, ← hback, takeWhile_append_dropWhile]
  rw [hl, mem_append, mem_append] at hmem
  obtain hmem | hmem | hmem := hmem
  · rw [mem_takeWhile_imp hmem] at h
    cases h
  · exact hmem
  · rw [hall c hmem] at h
    cases h

theorem mem_of_trimEnd {c : α} (h : c ∈ trimEnd p l) : c ∈ l := by
  obtain ⟨back, hback, _⟩ := exists_trimEnd p l
  rw [hback]
  exact mem_append_left _ h

theorem mem_trimEnd {c : α} (hmem : c ∈ l) (h : p c = false) : c ∈ trimEnd p l := by
  obtain ⟨back, hback, hall⟩ := exists_trimEnd p l
  rw [hback, mem_append] at hmem
  cases hmem with
  | inl hmem => exact hmem
  | inr hmem =>
    rw [hall c hmem] at h
    cases h

end Bbr.Lib
