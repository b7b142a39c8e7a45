import Mathlib.Data.List.Infix

/-!
# Prefix-free codes

A code is a list of words with labels. Reading letter by letter, what has been seen is the beginning of a
longer word, a whole word with its label, or nothing. When no word is the beginning of another, the three
exclude each other, whatever the order of the list.
-/
namespace Bbr.Lib

variable {σ α : Type}

abbrev Code (σ α : Type) := List (List σ × α)

/-- What the letters seen so far amount to. -/
inductive Reading (α : Type) where
  | dead
  | more
  | word (label : α)

namespace Code

variable {code code' : Code σ α} {seen word : List σ} {label : α}

/-- No word is the beginning of another, and every word has one label. -/
def PrefixFree (code : Code σ α) : Prop :=
  ∀ v ∈ code, ∀ w ∈ code, v.1 <+: w.1 → v = w

/-- A longer word begins with these letters. -/
def Continues (code : Code σ α) (seen : List σ) : Prop :=
  ∃ w ∈ code, seen <+: w.1 ∧ seen ≠ w.1

inductive Reads (code : Code σ α) (seen : List σ) : Reading α → Prop where
  | dead (none : ∀ label, (seen, label) ∉ code) (stops : ¬ Continues code seen) : Reads code seen .dead
  | more (goes : Continues code seen) : Reads code seen .more
  | word {label : α} (mem : (seen, label) ∈ code) : Reads code seen (.word label)

theorem PrefixFree.label_eq (h : PrefixFree code) {label' : α} (hmem : (word, label) ∈ code)
    (hmem' : (word, label') ∈ code) : label = label' := by
  have heq := h _ hmem _ hmem' (List.prefix_refl word)
  exact congrArg Prod.snd heq

theorem PrefixFree.not_continues (h : PrefixFree code) (hmem : (word, label) ∈ code) :
    ¬ Continues code word := by
  intro hgoes
  obtain ⟨w, hw, hpre, hne⟩ := hgoes
  have heq := h _ hmem w hw hpre
  exact hne (congrArg Prod.fst heq)

theorem PrefixFree.reads_unique (h : PrefixFree code) {r r' : Reading α} (hr : Reads code seen r)
    (hr' : Reads code seen r') : r = r' := by
  cases hr with
  | dead hnone hstops =>
    cases hr' with
    | dead => rfl
    | more hgoes => exact absurd hgoes hstops
    | word hmem => exact absurd hmem (hnone _)
  | more hgoes =>
    cases hr' with
    | dead _ hstops => exact absurd hgoes hstops
    | more => rfl
    | word hmem => exact absurd hgoes (h.not_continues hmem)
  | word hmem =>
    cases hr' with
    | dead hnone => exact absurd hmem (hnone _)
    | more hgoes => exact absurd hgoes (h.not_continues hmem)
    | word hmem' => rw [h.label_eq hmem hmem']

theorem Continues.congr (hmem : ∀ w, w ∈ code' ↔ w ∈ code) (h : Continues code' seen) :
    Continues code seen := by
  obtain ⟨w, hw, hpre, hne⟩ := h
  exact ⟨w, (hmem w).mp hw, hpre, hne⟩

theorem Reads.congr (hmem : ∀ w, w ∈ code' ↔ w ∈ code) {r : Reading α} (h : Reads code' seen r) :
    Reads code seen r := by
  cases h with
  | dead hnone hstops =>
    refine .dead (fun label hl => hnone label ((hmem _).mpr hl)) (fun hgoes => hstops ?_)
    exact hgoes.congr (fun w => (hmem w).symm)
  | more hgoes => exact .more (hgoes.congr hmem)
  | word hw => exact .word ((hmem _).mp hw)

/-- On the way through a word nothing is read yet, and at its end the word is. -/
theorem reads_of_append {left : List σ} (hmem : (seen ++ left, label) ∈ code) :
    Reads code seen (if left = [] then .word label else .more) := by
  by_cases hleft : left = []
  · subst hleft
    rw [List.append_nil] at hmem
    exact .word hmem
  · rw [if_neg hleft]
    refine .more ⟨_, hmem, List.prefix_append _ _, ?_⟩
    intro heq
    exact hleft (List.self_eq_append_right.mp heq)

end Code

end Bbr.Lib
