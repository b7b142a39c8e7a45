import Mathlib.Data.List.TakeWhile
import Bbr.Highlight.Registry
import Bbr.Lib.Results

/-!
# Rules and the names they match

What a valid rule looks like, and which names it matches: the file name, a name that ends in the
compound suffix, a name with the extension, a text that begins with the shebang.
-/
namespace Bbr.Highlight

open List

open Bbr.Diff (ascii)

theorem slash_not_mem_basename (path : Bytes) : slash ∉ basename path := by
  rw [basename, mem_reverse]
  intro hmem
  simpa using mem_takeWhile_imp hmem

variable {name : Bytes}

theorem basename_eq (h : slash ∉ name) : basename name = name := by
  have hkeep : ∀ c ∈ name.reverse, c ≠ slash := by
    intro c hc
    rintro rfl
    exact h (mem_reverse.mp hc)
  have hdrop : name.reverse.dropWhile (fun c => decide (c = slash)) = name.reverse := by
    cases hrev : name.reverse with
    | nil => rfl
    | cons c rest =>
      have hc : c ≠ slash := hkeep c (by simp [hrev])
      simp [hc]
  rw [basename, hdrop, takeWhile_eq_self_iff.mpr, reverse_reverse]
  intro c hc
  exact decide_eq_true (hkeep c hc)

theorem exists_last_dot (h : dot ∈ name) : ∃ stem tail, name = stem ++ dot :: tail ∧ dot ∉ tail := by
  obtain ⟨front, back, heq, hfront⟩ := eq_append_cons_of_mem (mem_reverse.mpr h)
  refine ⟨back.reverse, front.reverse, ?_, by simpa using hfront⟩
  rw [← reverse_reverse name, heq]
  simp

theorem extension_split {stem tail : Bytes} (hslash : slash ∉ stem ++ dot :: tail)
    (hdot : dot ∉ tail) : extension (stem ++ dot :: tail) = if stem = [] then [] else dot :: tail := by
  have hdrop : (stem ++ dot :: tail).reverse.dropWhile (fun c => decide (c ≠ dot)) =
      dot :: stem.reverse := by
    rw [reverse_append, reverse_cons, append_assoc, dropWhile_append_of_pos]
    · simp
    · intro c hc
      simp only [decide_eq_true_eq]
      rintro rfl
      exact hdot (mem_reverse.mp hc)
  rw [extension, basename_eq hslash]
  simp only [hdrop, length_cons, length_reverse]
  cases stem with
  | nil => simp
  | cons c stem => simp

/-- What the validation of a rule asks for. -/
structure ValidRule (kind : RuleKind) (rule : Bytes) : Prop where
  nonempty : rule ≠ []
  plain : hasTerminalControl rule = false
  shape : validRule kind rule = true

theorem validateRuleList_ok {kind : RuleKind} {rules previous : List Bytes}
    (h : validateRuleList kind previous rules = .ok ()) : ∀ rule ∈ rules, ValidRule kind rule := by
  induction rules generalizing previous with
  | nil => simp
  | cons rule rules ih =>
    rw [validateRuleList] at h
    split at h
    · cases h
    rename_i hfilled
    split at h
    · cases h
    rename_i hplain
    split at h
    · cases h
    rename_i hshape
    split at h
    · cases h
    intro other hother
    cases hother with
    | head =>
      simp only [not_or] at hfilled
      exact ⟨hfilled.1, by simpa using hplain, by simpa using hshape⟩
    | tail _ hother => exact ih h other hother

/-- Rules that the validation accepts. -/
structure ValidRules (rules : GrammarMatches) : Prop where
  filenames : ∀ rule ∈ rules.filenames, ValidRule .filename rule
  compoundSuffixes : ∀ rule ∈ rules.compoundSuffixes, ValidRule .compound rule
  extensions : ∀ rule ∈ rules.extensions, ValidRule .extension rule
  shebangs : ∀ rule ∈ rules.shebangs, ValidRule .shebang rule

theorem validateRules_ok {rules : GrammarMatches} (h : validateRules rules = .ok ()) :
    ValidRules rules := by
  obtain ⟨⟨⟩, hfilenames, h⟩ := Lib.bind_ok h
  obtain ⟨⟨⟩, hsuffixes, h⟩ := Lib.bind_ok h
  obtain ⟨⟨⟩, hextensions, h⟩ := Lib.bind_ok h
  obtain ⟨⟨⟩, hshebangs, _⟩ := Lib.bind_ok h
  exact ⟨validateRuleList_ok hfilenames, validateRuleList_ok hsuffixes,
    validateRuleList_ok hextensions, validateRuleList_ok hshebangs⟩

variable {rule : Bytes}

theorem ValidRule.suffix (h : ValidRule .compound rule) :
    ∃ stem tail, stem ≠ [] ∧ rule = stem ++ dot :: tail ∧ dot ∉ tail := by
  have hshape := h.shape
  simp only [validRule, Bool.and_eq_true, decide_eq_true_eq] at hshape
  obtain ⟨rest, rfl⟩ := head?_eq_some_iff.mp hshape.1
  have hcount := hshape.2
  rw [count_cons_self] at hcount
  have hdot : dot ∈ rest := count_pos_iff.mp (by omega)
  obtain ⟨stem, tail, rfl, htail⟩ := exists_last_dot hdot
  exact ⟨dot :: stem, tail, by simp, rfl, htail⟩

theorem ValidRule.extension (h : ValidRule .extension rule) :
    ∃ tail, rule = dot :: tail ∧ dot ∉ tail := by
  have hshape := h.shape
  simp only [validRule, Bool.and_eq_true, decide_eq_true_eq] at hshape
  obtain ⟨rest, rfl⟩ := head?_eq_some_iff.mp hshape.1
  have hcount := hshape.2
  rw [count_cons_self] at hcount
  exact ⟨rest, rfl, count_eq_zero.mp (by omega)⟩

/-- A name that ends in a compound suffix has the extension of the suffix. -/
theorem extension_of_suffix (h : ValidRule .compound rule) (hslash : slash ∉ name)
    (hsuffix : rule <:+ name) : Highlight.extension name = Highlight.extension rule := by
  obtain ⟨stem, tail, hne, rfl, htail⟩ := h.suffix
  obtain ⟨front, rfl⟩ := hsuffix
  have hrule : slash ∉ stem ++ dot :: tail := fun hmem => hslash (mem_append_right _ hmem)
  rw [← append_assoc] at hslash ⊢
  rw [extension_split hslash htail, extension_split hrule htail, if_neg hne, if_neg (by simp [hne])]

theorem extension_of_extension (h : ValidRule .extension rule) (hslash : slash ∉ rule) :
    Highlight.extension (0x78 :: rule) = rule := by
  obtain ⟨tail, rfl, htail⟩ := h.extension
  have hname : slash ∉ [0x78] ++ dot :: tail := by
    rw [mem_append]
    intro hmem
    cases hmem with
    | inl hx => exact absurd hx (by decide)
    | inr hrule => exact hslash hrule
  simpa using extension_split hname htail

end Bbr.Highlight
