import Mathlib.Data.List.Basic
import Mathlib.Algebra.GroupWithZero.Nat

/-!
# Greedy wrapping

A text is a list of glyphs, which no break cuts. A row takes all that fits if nothing else is left,
and else ends with the last space that fits, or before the first glyph that does not. A glyph that is too
wide has a row of its own.
-/
namespace Bbr.Lib.Wrap

open List

structure Glyph where
  size : Nat
  width : Nat
  space : Bool
  deriving DecidableEq, Repr

def totalSize (gs : List Glyph) : Nat := (gs.map Glyph.size).sum

def totalWidth (gs : List Glyph) : Nat := (gs.map Glyph.width).sum

def endsInSpace (gs : List Glyph) : Bool := gs.getLast?.any Glyph.space

def fitting : Nat → List Glyph → Nat
  | _, [] => 0
  | width, g :: gs => if g.width ≤ width then fitting (width - g.width) gs + 1 else 0

/-- How many glyphs there are up to the last space. -/
def spaced : List Glyph → Nat
  | [] => 0
  | g :: gs => if spaced gs ≠ 0 then spaced gs + 1 else if g.space then 1 else 0

def rowLength (width : Nat) (gs : List Glyph) : Nat :=
  if fitting width gs = gs.length then gs.length
  else if spaced (gs.take (fitting width gs)) ≠ 0 then spaced (gs.take (fitting width gs))
  else max (fitting width gs) 1

section Sums

variable (g : Glyph) (gs hs : List Glyph)

@[simp] theorem totalSize_nil : totalSize [] = 0 := rfl

@[simp] theorem totalSize_cons : totalSize (g :: gs) = g.size + totalSize gs := by
  simp [totalSize]

@[simp] theorem totalSize_append : totalSize (gs ++ hs) = totalSize gs + totalSize hs := by
  simp [totalSize]

@[simp] theorem totalWidth_nil : totalWidth [] = 0 := rfl

@[simp] theorem totalWidth_cons : totalWidth (g :: gs) = g.width + totalWidth gs := by
  simp [totalWidth]

@[simp] theorem totalWidth_append : totalWidth (gs ++ hs) = totalWidth gs + totalWidth hs := by
  simp [totalWidth]

@[simp] theorem endsInSpace_append_singleton : endsInSpace (gs ++ [g]) = g.space := by
  simp [endsInSpace]

end Sums

variable {width m n i j : Nat} {g : Glyph} {gs : List Glyph}

theorem fitting_le_length (width : Nat) (gs : List Glyph) : fitting width gs ≤ gs.length := by
  induction gs generalizing width with
  | nil => simp [fitting]
  | cons g gs ih =>
    have hrest := ih (width - g.width)
    simp only [fitting, length_cons]
    split <;> omega

theorem le_fitting_iff (hm : m ≤ gs.length) :
    m ≤ fitting width gs ↔ totalWidth (gs.take m) ≤ width := by
  induction gs generalizing width m with
  | nil => simp [fitting] at hm ⊢; omega
  | cons g gs ih =>
    cases m with
    | zero => simp
    | succ m =>
      have hrest := @ih (width - g.width) m (by simpa using hm)
      by_cases hg : g.width ≤ width
      · simp only [fitting, hg, if_true, take_succ_cons, totalWidth_cons]
        omega
      · simp only [fitting, hg, if_false, take_succ_cons, totalWidth_cons]
        omega

theorem spaced_le_length (gs : List Glyph) : spaced gs ≤ gs.length := by
  induction gs with
  | nil => simp [spaced]
  | cons g gs ih =>
    simp only [spaced, length_cons]
    split
    · omega
    · split <;> omega

theorem le_spaced (hm : m ≤ gs.length) (hspace : endsInSpace (gs.take m) = true) : m ≤ spaced gs := by
  induction gs generalizing m with
  | nil =>
    simp only [length_nil, Nat.le_zero] at hm
    omega
  | cons g gs ih =>
    cases m with
    | zero => simp
    | succ m =>
      cases m with
      | zero =>
        have hg : g.space = true := by simpa [endsInSpace] using hspace
        simp only [spaced, hg, if_true]
        split <;> omega
      | succ m =>
        have hrest : m + 1 ≤ spaced gs := by
          have hm' : m + 1 ≤ gs.length := by simpa using hm
          cases gs with
          | nil => simp at hm'
          | cons h gs => exact ih hm' (by simpa [endsInSpace] using hspace)
        simp only [spaced]
        rw [if_pos (by omega)]
        omega

theorem endsInSpace_spaced (h : spaced gs ≠ 0) : endsInSpace (gs.take (spaced gs)) = true := by
  induction gs with
  | nil => simp [spaced] at h
  | cons g gs ih =>
    by_cases hrest : spaced gs ≠ 0
    · have hne : gs.take (spaced gs) ≠ [] := by
        intro hnil
        have := ih hrest
        simp [hnil, endsInSpace] at this
      have hends := ih hrest
      simp only [spaced, if_pos hrest, take_succ_cons]
      cases htail : gs.take (spaced gs) with
      | nil => exact absurd htail hne
      | cons h tail =>
        rw [htail] at hends
        simpa [endsInSpace] using hends
    · by_cases hg : g.space
      · simp [spaced, if_neg hrest, hg, endsInSpace]
      · simp [spaced, if_neg hrest, hg] at h

theorem endsInSpace_pos (h : endsInSpace (gs.take m) = true) : 0 < m := by
  cases m with
  | zero => simp [endsInSpace] at h
  | succ m => omega

theorem endsInSpace_take (hm : 0 < m) (hle : m ≤ gs.length) :
    endsInSpace (gs.take m) = gs[m - 1]?.any Glyph.space := by
  cases m with
  | zero => omega
  | succ m => simp [endsInSpace, getLast?_take, getElem?_eq_getElem hle]

theorem endsInSpace_drop (hm : 0 < m) (hle : i + m ≤ gs.length) :
    endsInSpace ((gs.drop i).take m) = endsInSpace (gs.take (i + m)) := by
  rw [endsInSpace_take hm (by simp; omega), endsInSpace_take (by omega) hle, getElem?_drop]
  congr 2
  omega

inductive RowEnd (width : Nat) (gs : List Glyph) : Nat → Prop where
  | all (h : fitting width gs = gs.length) : RowEnd width gs gs.length
  | space {n : Nat} (h : fitting width gs < gs.length) (hn : n ≤ fitting width gs)
    (hspace : endsInSpace (gs.take n) = true)
    (hlast : ∀ m ≤ fitting width gs, endsInSpace (gs.take m) = true → m ≤ n) : RowEnd width gs n
  | hard (h : fitting width gs < gs.length)
    (hnone : ∀ m ≤ fitting width gs, endsInSpace (gs.take m) = false) :
    RowEnd width gs (max (fitting width gs) 1)

theorem le_spaced_take (hm : m ≤ n) (hn : n ≤ gs.length)
    (hspace : endsInSpace (gs.take m) = true) : m ≤ spaced (gs.take n) := by
  have htake : endsInSpace ((gs.take n).take m) = true := by
    rwa [take_take, Nat.min_eq_left hm]
  exact le_spaced (by simp; omega) htake

theorem spaced_take_le (n : Nat) (gs : List Glyph) : spaced (gs.take n) ≤ n := by
  have h := spaced_le_length (gs.take n)
  simp only [length_take] at h
  omega

theorem endsInSpace_take_spaced (h : spaced (gs.take n) ≠ 0) :
    endsInSpace (gs.take (spaced (gs.take n))) = true := by
  have hends := endsInSpace_spaced h
  rwa [take_take, Nat.min_eq_left (spaced_take_le n gs)] at hends

theorem rowEnd_rowLength (width : Nat) (gs : List Glyph) : RowEnd width gs (rowLength width gs) := by
  have hfit := fitting_le_length width gs
  by_cases hall : fitting width gs = gs.length
  · rw [rowLength, if_pos hall]
    exact .all hall
  have hlt : fitting width gs < gs.length := by omega
  by_cases hspace : spaced (gs.take (fitting width gs)) = 0
  · rw [rowLength, if_neg hall, if_neg (by simp [hspace])]
    refine .hard hlt (fun m hm => ?_)
    cases hends : endsInSpace (gs.take m) with
    | false => rfl
    | true =>
      have hle := le_spaced_take hm hfit hends
      have hpos := endsInSpace_pos hends
      omega
  · rw [rowLength, if_neg hall, if_pos hspace]
    exact .space hlt (spaced_take_le _ _) (endsInSpace_take_spaced hspace)
      (fun m hm => le_spaced_take hm hfit)

theorem RowEnd.le_length (h : RowEnd width gs n) : n ≤ gs.length := by
  cases h <;> omega

theorem RowEnd.pos (h : RowEnd width gs n) (hne : gs ≠ []) : 0 < n := by
  cases h with
  | all => exact length_pos_of_ne_nil hne
  | space _ _ hspace => exact endsInSpace_pos hspace
  | hard => omega

theorem RowEnd.fits (h : RowEnd width gs n) : n ≤ fitting width gs ∨ n = 1 := by
  cases h <;> omega

@[simp] theorem rowLength_nil : rowLength width [] = 0 := rfl

/-- The first `n` glyphs make a row of the width: they fit or are one glyph, and where a space fits and
something is left, they end with the last such space. -/
structure IsRow (width : Nat) (gs : List Glyph) (n : Nat) : Prop where
  pos : 0 < n
  le : n ≤ gs.length
  fits : totalWidth (gs.take n) ≤ width ∨ n = 1
  breaks : n < gs.length → ∀ m ≤ gs.length, totalWidth (gs.take m) ≤ width →
    endsInSpace (gs.take m) = true → m ≤ n ∧ endsInSpace (gs.take n) = true

theorem RowEnd.isRow (h : RowEnd width gs n) (hne : gs ≠ []) : IsRow width gs n where
  pos := h.pos hne
  le := h.le_length
  fits := h.fits.imp_left (le_fitting_iff h.le_length).mp
  breaks := by
    intro hlt m hm hwidth hspace
    have hfit : m ≤ fitting width gs := (le_fitting_iff hm).mpr hwidth
    cases h with
    | all => omega
    | space _ _ hends hlast => exact ⟨hlast m hfit hspace, hends⟩
    | hard _ hnone => simp [hnone m hfit] at hspace

theorem isRow_rowLength (width : Nat) (hne : gs ≠ []) : IsRow width gs (rowLength width gs) :=
  (rowEnd_rowLength width gs).isRow hne

theorem totalWidth_drop_le (hj : i ≤ j) :
    totalWidth ((gs.drop j).take (i + n - j)) ≤ totalWidth ((gs.drop i).take n) := by
  have hcut : (gs.drop j).take (i + n - j) = ((gs.drop i).take n).drop (j - i) := by
    rw [drop_take, drop_drop]
    congr 1
    · omega
    · congr 1
      omega
  have hsum : totalWidth ((gs.drop i).take n) = totalWidth (((gs.drop i).take n).take (j - i)) +
        totalWidth (((gs.drop i).take n).drop (j - i)) := by
    rw [← totalWidth_append, take_append_drop]
  rw [hcut, hsum]
  omega

variable {w w' n' : Nat}

theorem fitting_mono (hj : i ≤ j) (hw : w ≤ w') (hlen : j ≤ gs.length)
    (hn : n ≤ fitting w (gs.drop i)) : i + n - j ≤ fitting w' (gs.drop j) := by
  have hfit := fitting_le_length w (gs.drop i)
  simp only [length_drop] at hfit
  have hwidth := (le_fitting_iff (by simp; omega)).mp hn
  have hdrop := @totalWidth_drop_le n i j gs hj
  exact (le_fitting_iff (by simp; omega)).mpr (by omega)

/-- Of two rows the wider one that begins no earlier ends no earlier. -/
theorem RowEnd.mono (h : RowEnd w (gs.drop i) n) (h' : RowEnd w' (gs.drop j) n') (hj : i ≤ j)
    (hw : w ≤ w') (hlen : j < gs.length) : i + n ≤ j + n' := by
  have hne : gs.drop j ≠ [] := by simpa using hlen
  have hpos := h'.pos hne
  by_cases hbehind : i + n ≤ j
  · omega
  have hle := h.le_length
  simp only [length_drop] at hle
  cases h.fits with
  | inr hone => omega
  | inl hfit =>
    have hfit' := fitting_mono hj hw (by omega) hfit
    cases h' with
    | all => simp; omega
    | hard => omega
    | space hlt hn' hspace hlast =>
      simp only [length_drop] at hlt
      cases h with
      | all => simp only [length_drop] at hfit' ⊢; omega
      | space _ _ hends =>
        rw [endsInSpace_drop (by omega) (by omega)] at hends
        have hafter : endsInSpace ((gs.drop j).take (i + n - j)) = true := by
          rw [endsInSpace_drop (by omega) (by omega), Nat.add_sub_cancel' (by omega)]
          exact hends
        have hle' := hlast _ hfit' hafter
        omega
      | hard _ hnone =>
        -- the space that ends the wider row is behind all that fits in the other
        refine Nat.le_of_not_lt (fun hbefore => ?_)
        rw [endsInSpace_drop hpos (by omega)] at hspace
        have hafter : endsInSpace ((gs.drop i).take (j + n' - i)) = true := by
          rw [endsInSpace_drop (by omega) (by omega), Nat.add_sub_cancel' (by omega)]
          exact hspace
        rw [hnone _ (by omega)] at hafter
        exact Bool.false_ne_true hafter

end Bbr.Lib.Wrap
