import Bbr.Lib.Subsequences
import Bbr.Tui.WholeFile
import Mathlib.Tactic.FieldSimp
import Mathlib.Tactic.Linarith
import Mathlib.Tactic.Positivity

/-!
# Lexical similarity of two Lines

A Line is split into lexical parts, and the similarity of two Lines is the weight that the parts of a
heaviest common subsequence have among all parts. A part is the byte string that the range of the
source cuts out; fractions are exact.
-/
namespace Bbr.Tui

open Bbr.Lib List

/-- At most `fuel` parts: a maximal run of word or space bytes, or a single other byte. -/
def tokenizeFrom : Nat → Bytes → List Bytes
  | 0, _ => []
  | _, [] => []
  | fuel + 1, b :: text =>
    if classOf b = .other then [b] :: tokenizeFrom fuel text
    else (b :: text.takeWhile (fun d => decide (classOf d = classOf b))) ::
      tokenizeFrom fuel (text.dropWhile (fun d => decide (classOf d = classOf b)))

def tokenize (text : Bytes) : List Bytes := tokenizeFrom text.length text

/-- A row of the table for one old part, from the row of the parts behind it; the cells stand for
what is left of the new parts. -/
def commonRow (old : Bytes) : List Bytes → List Nat → List Nat
  | [], _ => [0]
  | new :: parts, below =>
    let row := commonRow old parts below.tail
    (if old = new then below.tail.headD 0 + old.length else max (below.headD 0) (row.headD 0)) :: row

/-- The last row that `commonTable` fills, weighted by bytes. -/
def commonTable (newParts : List Bytes) : List Bytes → List Nat
  | [] => List.replicate (newParts.length + 1) 0
  | old :: oldParts => commonRow old newParts (commonTable newParts oldParts)

/-- Symmetric similarity for matching changed Lines. -/
def matchingSimilarity (oldText newText : Bytes) : ℚ :=
  if oldText = newText then 1
  else if tokenize oldText = [] ∨ tokenize newText = [] then 0
  else
    let common : ℚ := (commonTable (tokenize newText) (tokenize oldText)).headD 0
    let total : ℚ := (oldText.length + newText.length : Nat)
    2 * common / total

theorem tokenizeFrom_flatten {fuel : Nat} {text : Bytes} (h : text.length ≤ fuel) :
    (tokenizeFrom fuel text).flatten = text := by
  induction fuel generalizing text with
  | zero => simp [tokenizeFrom, length_eq_zero_iff.mp (Nat.le_zero.mp h)]
  | succ fuel ih =>
    cases text with
    | nil => rfl
    | cons b text =>
      rw [length_cons] at h
      rw [tokenizeFrom]
      split
      · simp [@ih text (by omega)]
      · have hlen := (dropWhile_sublist (l := text) (fun d => decide (classOf d = classOf b))).length_le
        rw [flatten_cons, ih (by omega), cons_append, takeWhile_append_dropWhile]

variable (text : Bytes) (newParts : List Bytes)

@[simp] theorem tokenize_flatten : (tokenize text).flatten = text :=
  tokenizeFrom_flatten (Nat.le_refl _)

@[simp] theorem weight_tokenize : weight List.length (tokenize text) = text.length := by
  rw [weight, ← length_flatten, tokenize_flatten]

theorem lexicalPartCount_run (c : ByteClass) (hc : c ≠ .other) (text : Bytes) :
    lexicalPartCount (some c) text =
      lexicalPartCount none (text.dropWhile (fun d => decide (classOf d = c))) := by
  induction text with
  | nil => rfl
  | cons b text ih =>
    by_cases hb : classOf b = c
    · have hskip : classOf b ≠ .other := hb ▸ hc
      simp [lexicalPartCount, hb, hc, ih]
    · have hne : ¬ (c = classOf b) := fun h => hb h.symm
      simp [lexicalPartCount, hb, hne]

theorem lexicalPartCount_other : lexicalPartCount (some .other) text = lexicalPartCount none text := by
  cases text with
  | nil => rfl
  | cons d text =>
    have hskip : ¬ (classOf d ≠ .other ∧ some ByteClass.other = some (classOf d)) := by
      rintro ⟨hne, heq⟩
      exact hne (Option.some.inj heq).symm
    rw [lexicalPartCount, if_neg hskip, lexicalPartCount, if_neg (by simp)]

theorem lexicalPartCount_tokenizeFrom {fuel : Nat} {text : Bytes} (h : text.length ≤ fuel) :
    lexicalPartCount none text = (tokenizeFrom fuel text).length := by
  induction fuel generalizing text with
  | zero => simp [tokenizeFrom, lexicalPartCount, length_eq_zero_iff.mp (Nat.le_zero.mp h)]
  | succ fuel ih =>
    cases text with
    | nil => rfl
    | cons b text =>
      rw [length_cons] at h
      rw [tokenizeFrom, lexicalPartCount, if_neg (by simp)]
      by_cases hb : classOf b = .other
      · rw [if_pos hb, hb, lexicalPartCount_other, ih (by omega), length_cons]
      · have hlen := (dropWhile_sublist (l := text) (fun d => decide (classOf d = classOf b))).length_le
        rw [if_neg hb, lexicalPartCount_run _ hb, ih (by omega), length_cons]

@[simp] theorem length_tokenize : (tokenize text).length = lexicalPartCount none text :=
  (lexicalPartCount_tokenizeFrom (Nat.le_refl _)).symm

/-- A row holds the weights for what is left of the new parts. -/
def commonCells (old : List Bytes) : List Bytes → List Nat
  | [] => [heaviestCommon List.length old []]
  | new :: parts => heaviestCommon List.length old (new :: parts) :: commonCells old parts

theorem commonRow_cells (old : Bytes) (oldParts newParts : List Bytes) :
    commonRow old newParts (commonCells oldParts newParts) =
      commonCells (old :: oldParts) newParts := by
  induction newParts with
  | nil => simp [commonRow, commonCells]
  | cons new parts ih =>
    have hhead : ∀ l, (commonCells l parts).headD 0 = heaviestCommon length l parts := by
      intro l
      cases parts <;> rfl
    simp only [commonRow, commonCells, tail_cons, headD_cons, ih, hhead, heaviestCommon_cons]

theorem commonCells_nil : List.replicate (newParts.length + 1) 0 = commonCells [] newParts := by
  induction newParts with
  | nil => simp [commonCells]
  | cons new parts ih =>
    rw [length_cons, replicate_succ, ih]
    simp [commonCells]

theorem commonTable_cells (oldParts : List Bytes) :
    commonTable newParts oldParts = commonCells oldParts newParts := by
  induction oldParts with
  | nil => exact commonCells_nil newParts
  | cons old oldParts ih => rw [commonTable, ih, commonRow_cells]

/-- The first cell is the weight of a heaviest common subsequence of the parts. -/
theorem commonTable_headD (oldParts : List Bytes) :
    (commonTable newParts oldParts).headD 0 = heaviestCommon List.length oldParts newParts := by
  rw [commonTable_cells]
  cases newParts <;> rfl

/-- The weight of a heaviest common subsequence, counted on both sides, among the weight of all
parts. -/
theorem matchingSimilarity_eq {oldText newText : Bytes} (h : oldText ≠ [] ∨ newText ≠ []) :
    matchingSimilarity oldText newText =
      2 * (heaviestCommon List.length (tokenize oldText) (tokenize newText) : ℚ) /
        ((weight List.length (tokenize oldText) + weight List.length (tokenize newText) : Nat) : ℚ) := by
  unfold matchingSimilarity
  simp only [weight_tokenize, commonTable_headD]
  split
  · next heq =>
    subst heq
    have hpos : (oldText.length : ℚ) ≠ 0 := by
      simpa using h
    rw [heaviestCommon_self, weight_tokenize]
    push_cast
    field_simp
    norm_num
  · split
    · next hnone =>
      rcases hnone with hnone | hnone <;> simp [hnone]
    · rfl

theorem matchingSimilarity_comm (oldText newText : Bytes) :
    matchingSimilarity oldText newText = matchingSimilarity newText oldText := by
  by_cases h : oldText = [] ∧ newText = []
  · rw [h.1, h.2]
  · have h' : oldText ≠ [] ∨ newText ≠ [] := not_and_or.mp h
    rw [matchingSimilarity_eq h', matchingSimilarity_eq h'.symm, heaviestCommon_comm, Nat.add_comm]

theorem matchingSimilarity_nonneg (oldText newText : Bytes) :
    0 ≤ matchingSimilarity oldText newText := by
  unfold matchingSimilarity
  split
  · exact zero_le_one
  · split
    · exact le_refl 0
    · positivity

theorem matchingSimilarity_le_one (oldText newText : Bytes) :
    matchingSimilarity oldText newText ≤ 1 := by
  by_cases h : oldText = [] ∧ newText = []
  · rw [h.1, h.2, matchingSimilarity, if_pos rfl]
  rw [matchingSimilarity_eq (not_and_or.mp h)]
  have hold := heaviestCommon_le (w := length) (tokenize oldText) (tokenize newText)
  have hnew := heaviestCommon_le (w := length) (tokenize newText) (tokenize oldText)
  rw [heaviestCommon_comm] at hnew
  apply div_le_one_of_le₀
  · exact_mod_cast (show 2 * heaviestCommon length (tokenize oldText) (tokenize newText) ≤
      weight length (tokenize oldText) + weight length (tokenize newText) by omega)
  · positivity

end Bbr.Tui
