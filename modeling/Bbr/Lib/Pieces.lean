import Bbr.Lib.Bisection
import Mathlib.Data.List.Destutter
import Mathlib.Data.List.Find

/-!
# Pieces between cuts

A range is cut at some places, and intervals that lie apart are read piece by piece: a cursor that only
drops the intervals that have ended stands at the one that covers the piece.
-/
namespace Bbr.Lib

open List

/-- The places in order, each once. -/
def cutsOf (places : List Nat) : List Nat :=
  (places.mergeSort (fun a b => decide (a ≤ b))).destutter (· ≠ ·)

def pieces : List Nat → List (Nat × Nat)
  | a :: b :: cuts => (a, b) :: pieces (b :: cuts)
  | _ => []

variable {a b : Nat} {l : List Nat}

@[simp] theorem pieces_nil : pieces [] = [] := rfl

@[simp] theorem pieces_single (a : Nat) : pieces [a] = [] := rfl

@[simp] theorem pieces_cons_cons (a b : Nat) (cuts : List Nat) :
    pieces (a :: b :: cuts) = (a, b) :: pieces (b :: cuts) := rfl

theorem mem_destutter' : a ∈ l.destutter' (· ≠ ·) b ↔ a = b ∨ a ∈ l := by
  induction l generalizing b with
  | nil => simp
  | cons c l ih =>
    by_cases h : b = c
    · simp [h, ih]
    · simp [h, ih]

theorem destutter'_sorted (h : (b :: l).Pairwise (· ≤ ·)) :
    (l.destutter' (· ≠ ·) b).Pairwise (· < ·) := by
  have hle := h.sublist (destutter'_sublist (R := (· ≠ ·)) l b)
  have hne := isChain_destutter' (R := (· ≠ ·)) l b
  rw [← isChain_iff_pairwise, isChain_iff_getElem] at hle ⊢
  exact fun i hi => Nat.lt_of_le_of_ne (hle i hi) (isChain_iff_getElem.mp hne i hi)

variable {places : List Nat}

theorem mem_cutsOf : a ∈ cutsOf places ↔ a ∈ places := by
  have hmem : a ∈ places.mergeSort (fun a b => decide (a ≤ b)) ↔ a ∈ places := mem_mergeSort
  rw [← hmem, cutsOf]
  cases places.mergeSort (fun a b => decide (a ≤ b)) with
  | nil => simp
  | cons b l => simp [destutter_cons', mem_destutter']

theorem cutsOf_sorted (places : List Nat) : (cutsOf places).Pairwise (· < ·) := by
  have hsort : (places.mergeSort (fun a b => decide (a ≤ b))).Pairwise
      (fun a b => decide (a ≤ b) = true) :=
    pairwise_mergeSort (by simp; omega) (by simp; omega) places
  rw [cutsOf]
  cases hplaces : places.mergeSort (fun a b => decide (a ≤ b)) with
  | nil => simp
  | cons b l =>
    rw [hplaces] at hsort
    exact destutter'_sorted (hsort.imp (by simp))

variable {cuts : List Nat}

theorem getLastD_greatest {n : Nat} (h : (a :: cuts).Pairwise (· < ·)) (hmem : n ∈ a :: cuts)
    (hle : ∀ c ∈ a :: cuts, c ≤ n) : cuts.getLastD a = n := by
  have hlast := (@getLast?_eq_some_iff_greatest _ _ _ id (a :: cuts) n h).mpr ⟨hmem, hle⟩
  rwa [getLast?_cons, Option.some.injEq, ← getLastD_eq_getLast?] at hlast

theorem cutsOf_range {n : Nat} (hzero : 0 ∈ places) (hn : n ∈ places) (hle : ∀ c ∈ places, c ≤ n) :
    ∃ cuts, cutsOf places = 0 :: cuts ∧ cuts.getLastD 0 = n := by
  have hsorted := cutsOf_sorted places
  have hfirst := mem_cutsOf.mpr hzero
  have hlast := mem_cutsOf.mpr hn
  have hall : ∀ c ∈ cutsOf places, c ≤ n := fun c hc => hle c (mem_cutsOf.mp hc)
  cases hcuts : cutsOf places with
  | nil => simp [hcuts] at hfirst
  | cons a cuts =>
    rw [hcuts] at hsorted hfirst hlast hall
    obtain rfl : a = 0 := by
      cases mem_cons.mp hfirst with
      | inl heq => exact heq.symm
      | inr hmem => exact absurd ((pairwise_cons.mp hsorted).1 0 hmem) (Nat.not_lt_zero a)
    exact ⟨cuts, rfl, getLastD_greatest hsorted hlast hall⟩

theorem pieces_uncut (h : cuts.Pairwise (· < ·)) {piece : Nat × Nat} (hpiece : piece ∈ pieces cuts) :
    piece.1 < piece.2 ∧ piece.1 ∈ cuts ∧ piece.2 ∈ cuts ∧ ∀ c ∈ cuts, c ≤ piece.1 ∨ piece.2 ≤ c := by
  induction cuts with
  | nil => simp at hpiece
  | cons a cuts ih =>
    cases cuts with
    | nil => simp at hpiece
    | cons b cuts =>
      obtain ⟨hfirst, hrest⟩ := pairwise_cons.mp h
      cases mem_cons.mp hpiece with
      | inl heq =>
        subst heq
        refine ⟨hfirst b mem_cons_self, by simp, by simp, fun c hc => ?_⟩
        obtain ⟨hlater, -⟩ := pairwise_cons.mp hrest
        rcases mem_cons.mp hc with rfl | hc
        · exact .inl (Nat.le_refl _)
        · rcases mem_cons.mp hc with rfl | hc
          · exact .inr (Nat.le_refl _)
          · exact .inr (Nat.le_of_lt (hlater c hc))
      | inr hmem =>
        obtain ⟨hlt, hstart, hstop, hcut⟩ := ih hrest hmem
        refine ⟨hlt, mem_cons_of_mem _ hstart, mem_cons_of_mem _ hstop, fun c hc => ?_⟩
        cases mem_cons.mp hc with
        | inl heq => exact .inl (heq ▸ Nat.le_of_lt (hfirst _ hstart))
        | inr hc => exact hcut c hc

variable {β : Type}

theorem flatMap_pieces {f : Nat → β} {g : Nat × Nat → List β} (h : (a :: cuts).Pairwise (· < ·))
    (hg : ∀ piece ∈ pieces (a :: cuts), g piece = (List.range' piece.1 (piece.2 - piece.1)).map f) :
    (pieces (a :: cuts)).flatMap g = (List.range' a (cuts.getLastD a - a)).map f := by
  induction cuts generalizing a with
  | nil => simp
  | cons b cuts ih =>
    obtain ⟨hfirst, hrest⟩ := pairwise_cons.mp h
    have hle : b ≤ cuts.getLastD b := by
      cases mem_cons.mp (getLastD_mem_cons (l := cuts) (a := b)) with
      | inl heq => exact Nat.le_of_eq heq.symm
      | inr hmem => exact Nat.le_of_lt ((pairwise_cons.mp hrest).1 _ hmem)
    have hlt := hfirst b mem_cons_self
    rw [pieces_cons_cons, flatMap_cons, hg (a, b) (by simp),
      ih hrest (fun piece hpiece => hg piece (mem_cons_of_mem _ hpiece)), ← map_append,
      getLastD_cons]
    congr 1
    have hsplit : cuts.getLastD b - a = (b - a) + (cuts.getLastD b - b) := by omega
    rw [hsplit, ← range'_append_1]
    congr 2
    omega

theorem piece_slice (xs : List β) (d : β) (h : b ≤ xs.length) :
    (xs.drop a).take (b - a) = (List.range' a (b - a)).map (fun i => xs.getD i d) := by
  refine ext_getElem (by simp; omega) (fun i hi hj => ?_)
  have hlt : a + i < xs.length := by
    simp at hi
    omega
  simp [hlt]

section Intervals

variable {α : Type} (start stop : α → Nat)

def Apart (l : List α) : Prop := l.Pairwise (fun a b => stop a ≤ start b)

/-- The interval that covers a place. -/
def covering (l : List α) (i : Nat) : Option α :=
  l.find? (fun a => decide (start a ≤ i ∧ i < stop a))

/-- The intervals that have not ended at a place. -/
def ahead (l : List α) (i : Nat) : List α := l.dropWhile (fun a => decide (stop a ≤ i))

variable {start stop} {l : List α} {i j : Nat} {a : α}

theorem ahead_ended (h : stop a ≤ i) : ahead stop (a :: l) i = ahead stop l i :=
  dropWhile_cons_of_pos (decide_eq_true h)

theorem ahead_open (h : ¬stop a ≤ i) : ahead stop (a :: l) i = a :: l :=
  dropWhile_cons_of_neg (by simpa using h)

theorem ahead_cons {rest : List α} (h : ahead stop l i = a :: rest) : a ∈ l ∧ ¬stop a ≤ i := by
  induction l with
  | nil => cases h
  | cons b l ih =>
    by_cases hb : stop b ≤ i
    · rw [ahead_ended hb] at h
      exact ⟨mem_cons_of_mem _ (ih h).1, (ih h).2⟩
    · rw [ahead_open hb] at h
      obtain ⟨rfl, -⟩ := cons.inj h
      exact ⟨mem_cons_self, hb⟩

theorem ahead_ahead (h : i ≤ j) : ahead stop (ahead stop l i) j = ahead stop l j := by
  induction l with
  | nil => rfl
  | cons a l ih =>
    by_cases ha : stop a ≤ i
    · rw [ahead_ended ha, ih, ahead_ended (Nat.le_trans ha h)]
    · rw [ahead_open ha]

/-- The interval that covers a place is the next one that has not ended, if it has begun. -/
theorem covering_eq (h : Apart start stop l) (hpos : ∀ a ∈ l, start a < stop a) :
    covering start stop l i = (ahead stop l i).head?.filter (fun a => decide (start a ≤ i)) := by
  induction l with
  | nil => rfl
  | cons a l ih =>
    obtain ⟨hfirst, hrest⟩ := pairwise_cons.mp h
    by_cases hstop : stop a ≤ i
    · have hnot : ¬(start a ≤ i ∧ i < stop a) := by omega
      rw [covering, find?_cons_of_neg (by simpa using hnot), ahead_ended hstop]
      exact ih hrest (fun b hb => hpos b (mem_cons_of_mem a hb))
    rw [ahead_open hstop]
    by_cases hstart : start a ≤ i
    · rw [covering, find?_cons_of_pos (by simp; omega)]
      simp [Option.filter, hstart]
    have hnone : ∀ b ∈ a :: l, ¬(decide (start b ≤ i ∧ i < stop b)) = true := by
      intro b hb
      rcases mem_cons.mp hb with rfl | hb
      · simp; omega
      · have := hfirst b hb
        simp; omega
    rw [covering, find?_eq_none.mpr hnone]
    simp [Option.filter, hstart]

/-- No interval begins or ends inside the piece, so all its places are covered alike. -/
theorem covering_const {a b : Nat} (hi : a ≤ i ∧ i < b)
    (huncut : ∀ x ∈ l, (start x ≤ a ∨ b ≤ start x) ∧ (stop x ≤ a ∨ b ≤ stop x)) :
    covering start stop l i = covering start stop l a := by
  refine find?_congr (fun x hx => ?_)
  have := huncut x hx
  rw [decide_eq_decide]
  omega

end Intervals

end Bbr.Lib
