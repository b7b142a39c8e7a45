import Mathlib.Data.List.Induction
import Mathlib.Tactic.IntervalCases
import Bbr.Http.StdClient

/-!
# Decimal fields

A text of digits alone is the zero-padded form of its number. The standard library's reading also
takes a sign and separators.
-/
namespace Bbr.Http

open List Option

open Bbr.Diff (ascii parseInt parseMagnitude digitValue usizeLimit)

def digit (n : Nat) : UInt8 := (0x30 + n).toUInt8

/-- A number in decimal, with as many digits as the text is long. -/
def padded : Nat → Nat → Bytes
  | 0, _ => []
  | width + 1, n => padded width (n / 10) ++ [digit (n % 10)]

/-- The text is the decimal digits of the number. -/
def DigitsOf (text : Bytes) (n : Nat) : Prop :=
  text ≠ [] ∧ n < 10 ^ text.length ∧ text = padded text.length n

@[simp] theorem length_padded (width n : Nat) : (padded width n).length = width := by
  induction width generalizing n with
  | zero => rfl
  | succ width ih => simp [padded, ih]

variable {n : Nat} {c : UInt8}

theorem digitValue_eq_some : digitValue c = some n ↔ n < 10 ∧ c = digit n := by
  constructor
  · intro h
    rw [digitValue] at h
    split at h
    · next hc =>
      obtain rfl := some.inj h
      have hlow : 48 ≤ c.toNat := by simpa using UInt8.le_iff_toNat_le.mp hc.1
      have hhigh : c.toNat ≤ 57 := by simpa using UInt8.le_iff_toNat_le.mp hc.2
      refine ⟨by omega, UInt8.toNat_inj.mp ?_⟩
      simp [digit]
      omega
    · simp at h
  · intro h
    obtain ⟨hn, rfl⟩ := h
    interval_cases n <;> decide

/-- Adds a digit to the number in front of it. -/
def addDigit (value : Nat) (c : UInt8) : Option Nat :=
  (digitValue c).map (fun digit => value * 10 + digit)

variable {text : Bytes}

theorem foldlM_addDigit :
    text.foldlM addDigit 0 = some n ↔ n < 10 ^ text.length ∧ text = padded text.length n := by
  induction text using reverseRecOn generalizing n with
  | nil => simp [padded, eq_comm]
  | append_singleton text c ih =>
    rw [foldlM_append]
    simp only [foldlM_cons, foldlM_nil, bind_pure, length_append,
      length_singleton, padded, bind_eq_bind, bind_eq_some_iff, ih, addDigit,
      map_eq_some_iff, digitValue_eq_some]
    constructor
    · intro ⟨front, ⟨hfront, htext⟩, last, ⟨hlast, hc⟩, hn⟩
      have hdiv : n / 10 = front := by omega
      have hmod : n % 10 = last := by omega
      rw [hdiv, hmod, ← htext, ← hc, pow_succ]
      exact ⟨by omega, rfl⟩
    · intro ⟨hn, heq⟩
      obtain ⟨htext, hc⟩ := append_inj' heq rfl
      exact ⟨n / 10, ⟨by omega, htext⟩, n % 10, ⟨by omega, by simpa using hc⟩, by omega⟩

def isMark (c : UInt8) : Bool := c == 0x2b || c == 0x2d || c == 0x5f

/-- The text holds a sign or a separator. -/
def Marked (text : Bytes) : Prop := ∃ c ∈ text, isMark c = true

theorem isMark_digit (h : n < 10) : isMark (digit n) = false := by
  interval_cases n <;> decide

theorem mem_padded {width : Nat} (h : c ∈ padded width n) : ∃ d < 10, c = digit d := by
  induction width generalizing n with
  | zero => simp [padded] at h
  | succ width ih =>
    rw [padded, mem_append, mem_singleton] at h
    cases h with
    | inl hfront => exact ih hfront
    | inr hlast => exact ⟨n % 10, Nat.mod_lt n (by omega), hlast⟩

theorem not_marked_padded (width n : Nat) : ¬Marked (padded width n) := by
  intro ⟨c, hc, hmark⟩
  obtain ⟨d, hd, rfl⟩ := mem_padded hc
  rw [isMark_digit hd] at hmark
  exact absurd hmark (by simp)

theorem DigitsOf.not_marked (h : DigitsOf text n) : ¬Marked text := by
  rw [h.2.2]
  exact not_marked_padded _ _

theorem DigitsOf.unique {m : Nat} (hm : DigitsOf text m) (hn : DigitsOf text n) : m = n := by
  have hleft := foldlM_addDigit.mpr hm.2
  have hright := foldlM_addDigit.mpr hn.2
  exact some.inj (hleft.symm.trans hright)

theorem parseMagnitude_eq_some :
    parseMagnitude text = some n ↔ text ≠ [] ∧ text.head? ≠ some 0x5f ∧ text.getLast? ≠ some 0x5f ∧
      (text.filter (fun c => c ≠ 0x5f)).foldlM addDigit 0 = some n := by
  rw [parseMagnitude]
  split
  · next h =>
    simp only [reduceCtorEq, false_iff]
    intro ⟨hne, hhead, hlast, _⟩
    simp_all
  · next h =>
    simp only [not_or, head?_eq_none_iff] at h
    simp only [ne_eq, h, not_false_eq_true, true_and]
    rfl

theorem parseMagnitude_plain (h : 0x5f ∉ text) : parseMagnitude text = some n ↔ DigitsOf text n := by
  have hfilter : text.filter (fun c => c ≠ 0x5f) = text := filter_eq_self.mpr (fun c hc => by
      simp only [decide_eq_true_eq]
      rintro rfl
      exact h hc)
  rw [parseMagnitude_eq_some, hfilter, foldlM_addDigit, DigitsOf]
  constructor
  · intro ⟨hne, _, _, hdigits⟩
    exact ⟨hne, hdigits⟩
  · intro ⟨hne, hdigits⟩
    exact ⟨hne, fun hhead => h (mem_of_head? hhead), fun hlast => h (mem_of_getLast? hlast), hdigits⟩

theorem parseMagnitude_short (h : text.length ≤ 2) :
    parseMagnitude text = some n ↔ DigitsOf text n := by
  by_cases hmem : 0x5f ∈ text
  · constructor
    · intro hread
      obtain ⟨_, hhead, hlast, _⟩ := parseMagnitude_eq_some.mp hread
      match text, h with
      | [], _ => simp at hmem
      | [a], _ => simp_all
      | [a, b], _ =>
        have hends : 0x5f = a ∨ 0x5f = b := by simpa using hmem
        cases hends with
        | inl h => simp [← h] at hhead
        | inr h => simp [← h] at hlast
    · intro hdigits
      exact absurd ⟨0x5f, hmem, by decide⟩ hdigits.not_marked
  · exact parseMagnitude_plain hmem

theorem parseMagnitude_lt (h : parseMagnitude text = some n) :
    n < 10 ^ text.length ∧ (0x5f ∈ text → n < 10 ^ (text.length - 1)) := by
  obtain ⟨_, _, _, hread⟩ := parseMagnitude_eq_some.mp h
  have hlt := (foldlM_addDigit.mp hread).1
  constructor
  · exact lt_of_lt_of_le hlt (Nat.pow_le_pow_right (by omega) (length_filter_le _ _))
  intro hmem
  have hshort : (text.filter (fun c => c ≠ 0x5f)).length < text.length :=
    length_filter_lt_length_iff_exists.mpr ⟨0x5f, hmem, by decide⟩
  exact lt_of_lt_of_le hlt (Nat.pow_le_pow_right (by omega) (by omega))

theorem parseInt_cons {limit : Nat} {rest : Bytes} : parseInt limit (c :: rest) = some n ↔
      if c = 0x2b then parseMagnitude rest = some n ∧ n < limit
      else if c = 0x2d then parseMagnitude rest = some n ∧ n = 0
      else parseMagnitude (c :: rest) = some n ∧ n < limit := by
  by_cases hplus : c = 0x2b
  · simp [hplus, parseInt]
  by_cases hminus : c = 0x2d
  · simp [hminus, parseInt]
  rw [if_neg hplus, if_neg hminus, parseInt]
  · simp
  · intro rest' heq
    exact hplus (cons.inj heq).1
  · intro rest' heq
    exact hminus (cons.inj heq).1

theorem parseInt_plain {limit : Nat} (h : ¬Marked text) :
    parseInt limit text = some n ↔ DigitsOf text n ∧ n < limit := by
  cases text with
  | nil => simp [parseInt, parseMagnitude, DigitsOf]
  | cons c rest =>
    have hplus : c ≠ 0x2b := fun heq => h ⟨c, by simp, by simp [heq, isMark]⟩
    have hminus : c ≠ 0x2d := fun heq => h ⟨c, by simp, by simp [heq, isMark]⟩
    have hplain : 0x5f ∉ c :: rest := fun hmem => h ⟨0x5f, hmem, by decide⟩
    rw [parseInt_cons, if_neg hplus, if_neg hminus, parseMagnitude_plain hplain]

/-- Two characters that are read as the number: its digits, or a sign before one digit. -/
def SpellsTwo (field : Bytes) (n : Nat) : Prop :=
  n < 100 ∧ field = padded 2 n ∨ n < 10 ∧ field = 0x2b :: padded 1 n ∨ n = 0 ∧ field = ascii "-0"

variable {field : Bytes}

theorem SpellsTwo.length (h : SpellsTwo field n) : field.length = 2 := by
  obtain ⟨_, rfl⟩ | ⟨_, rfl⟩ | ⟨_, rfl⟩ := h
  · simp
  · simp
  · rfl

theorem parseInt_two (h : field.length = 2) : parseInt 256 field = some n ↔ SpellsTwo field n := by
  match field, h with
  | [a, b], _ =>
    have hsingle : parseMagnitude [b] = some n ↔ DigitsOf [b] n := parseMagnitude_short (by simp)
    have hpair : parseMagnitude [a, b] = some n ↔ DigitsOf [a, b] n := parseMagnitude_short (by simp)
    rw [parseInt_cons, hsingle, hpair]
    constructor
    · intro hread
      split at hread
      · next ha => exact .inr (.inl ⟨hread.1.2.1, by rw [ha, hread.1.2.2]; rfl⟩)
      split at hread
      · next ha =>
        obtain ⟨hdigit, rfl⟩ := hread
        exact .inr (.inr ⟨rfl, by rw [ha, hdigit.2.2]; rfl⟩)
      · exact .inl ⟨hread.1.2.1, hread.1.2.2⟩
    · intro hspell
      cases hspell with
      | inl hplain =>
        have hdigits : DigitsOf [a, b] n := ⟨by simp, hplain.1, hplain.2⟩
        have ha : isMark a = false := by
          have hno := hdigits.not_marked
          simp only [Marked, not_exists, not_and, Bool.not_eq_true] at hno
          exact hno a (by simp)
        rw [if_neg (by rintro rfl; simp [isMark] at ha), if_neg (by rintro rfl; simp [isMark] at ha)]
        exact ⟨hdigits, by omega⟩
      | inr hsigned =>
        cases hsigned with
        | inl hplus =>
          obtain ⟨rfl, hb⟩ := cons.inj hplus.2
          exact ⟨⟨by simp, hplus.1, hb⟩, by omega⟩
        | inr hminus =>
          obtain ⟨rfl, hb⟩ := cons.inj hminus.2
          exact ⟨⟨by simp, by simp [hminus.1], by rw [hb, hminus.1]; rfl⟩, hminus.1⟩

theorem parseInt_year (h : field.length = 4) (hn : 1970 ≤ n) :
    parseInt 65536 field = some n ↔ DigitsOf field n := by
  cases field with
  | nil => simp at h
  | cons c rest =>
    have hrest : rest.length = 3 := by simpa using h
    constructor
    · intro hread
      rw [parseInt_cons] at hread
      split at hread
      · have hlt := (parseMagnitude_lt hread.1).1
        rw [hrest] at hlt
        omega
      split at hread
      · omega
      have hplain : 0x5f ∉ c :: rest := by
        intro hmem
        have hlt := (parseMagnitude_lt hread.1).2 hmem
        rw [h] at hlt
        omega
      exact (parseMagnitude_plain hplain).mp hread.1
    · intro hdigits
      have hlt := hdigits.2.1
      rw [h] at hlt
      exact (parseInt_plain hdigits.not_marked).mpr ⟨hdigits, by omega⟩

end Bbr.Http
