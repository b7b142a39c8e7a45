import Mathlib.Data.List.TakeWhile

/-!
# Forward-only cursors

A cursor over a list that is sorted by a key passes the smaller keys and takes those it is asked
for. It never goes back, so it finds all of them unless it was asked for this key or a greater one
before.
-/
namespace Bbr.Lib

open List

variable {α : Type} (key : α → Nat)

/-- What is found for a key, and what is left behind it. -/
def seek (n : Nat) (rest : List α) : List α × List α :=
  let found := rest.dropWhile (fun a => decide (key a < n))
  (found.takeWhile (fun a => decide (key a = n)), found.dropWhile (fun a => decide (key a = n)))

/-- The elements with keys from `m` on. -/
def onward (m : Nat) (l : List α) : List α := l.filter (fun a => decide (m ≤ key a))

variable {key} {l : List α} {m n : Nat}

/-- Where a test that fails once fails on, the elements in front are those that pass. -/
theorem while_eq_filter {p : α → Bool} (h : l.Pairwise (fun a b => p b = true → p a = true)) :
    l.takeWhile p = l.filter p ∧ l.dropWhile p = l.filter (fun a => !p a) := by
  induction l with
  | nil => exact ⟨rfl, rfl⟩
  | cons a l ih =>
    obtain ⟨hfirst, htail⟩ := pairwise_cons.mp h
    by_cases ha : p a = true
    · simp [ha, ih htail]
    · have hnone : ∀ b ∈ l, p b = false := fun b hb =>
        Bool.eq_false_iff.mpr fun hpb => ha (hfirst b hb hpb)
      simpa [ha] using ⟨hnone, (filter_eq_self.mpr fun b hb => by simp [hnone b hb]).symm⟩

theorem dropWhile_sorted (h : l.Pairwise (fun a b => key a ≤ key b)) :
    l.dropWhile (fun a => decide (key a < n)) = l.filter (fun a => decide (n ≤ key a)) := by
  rw [(while_eq_filter (h.imp (by simp; omega))).2]
  exact filter_congr fun a _ => by simp [← decide_not]

theorem while_least (h : l.Pairwise (fun a b => key a ≤ key b)) (hle : ∀ a ∈ l, n ≤ key a) :
    l.takeWhile (fun a => decide (key a = n)) = l.filter (fun a => decide (key a = n)) ∧
      l.dropWhile (fun a => decide (key a = n)) = l.filter (fun a => decide (n + 1 ≤ key a)) := by
  have hsplit := @while_eq_filter _ l (fun a => decide (key a = n)) (h.imp_of_mem fun ha hb hab => by
    have := hle _ ha
    simp
    omega)
  refine ⟨hsplit.1, hsplit.2.trans (filter_congr fun a ha => ?_)⟩
  have := hle a ha
  rw [← decide_not, decide_eq_decide]
  omega

theorem onward_zero (l : List α) : onward key 0 l = l :=
  filter_eq_self.mpr (fun _ _ => decide_eq_true (Nat.zero_le _))

/-- What the cursor finds and where it stands then, for keys from `m` on. -/
theorem seek_onward (h : l.Pairwise (fun a b => key a ≤ key b)) (m n : Nat) :
    seek key n (onward key m l) =
      (if m ≤ n then l.filter (fun a => decide (key a = n)) else [],
        onward key (max m (n + 1)) l) := by
  have hfound : (onward key m l).dropWhile (fun a => decide (key a < n)) = onward key (max m n) l := by
    rw [onward, onward, dropWhile_sorted (h.filter _), filter_filter]
    refine filter_congr (fun a _ => ?_)
    rw [← Bool.decide_and, decide_eq_decide]
    omega
  have hsorted : (onward key (max m n) l).Pairwise (fun a b => key a ≤ key b) := h.filter _
  rw [seek, hfound]
  by_cases hmn : m ≤ n
  · have hle : ∀ a ∈ onward key (max m n) l, n ≤ key a := fun a ha => by
      have := of_decide_eq_true (mem_filter.mp ha).2
      omega
    obtain ⟨htake, hdrop⟩ := while_least hsorted hle
    rw [htake, hdrop, if_pos hmn, onward, onward, filter_filter, filter_filter]
    congr 1
    · refine filter_congr (fun a _ => ?_)
      by_cases ha : key a = n <;> simp [ha, hmn]
    · refine filter_congr (fun a _ => ?_)
      rw [← Bool.decide_and, decide_eq_decide]
      omega
  · have hnone : ∀ a ∈ onward key (max m n) l, ¬decide (key a = n) = true := fun a ha => by
      have := of_decide_eq_true (mem_filter.mp ha).2
      simp
      omega
    rw [if_neg hmn]
    congr 1
    · exact takeWhile_eq_nil_iff.mpr (fun hlt => hnone _ (getElem_mem _))
    · rw [dropWhile_eq_self_iff.mpr (fun hlt => hnone _ (getElem_mem _))]
      congr 1
      omega

end Bbr.Lib
