import Bbr.Diff.PrintLaws
import Bbr.Review.Draft

/-!
# Suggestion bodies

A Suggestion is stored as a fenced block. Composer, display and publication read the replacement
code back through one function, which takes the next three backticks for the closing fence.
-/
namespace Bbr.Review

open Bbr.Diff List Option

def fence : Bytes := ascii "```"

def suggestionFence : Bytes := ascii "```suggestion"

/-- The text in front of the closing fence, without the newline before it. -/
def trimContent (content : Bytes) : Bytes :=
  if content.getLast? = some newline then content.dropLast else content

/-- The replacement code inside the fenced block, or nothing when there is none. -/
def suggestionBody (body : Bytes) : Option Bytes := do
  let before ← textBefore suggestionFence body
  let afterFence := body.drop (before.length + suggestionFence.length)
  let fenceLine ← textBefore [newline] afterFence
  let rest := afterFence.drop (fenceLine.length + 1)
  let content ← textBefore fence rest
  return trimContent content

def Comment.suggestion (self : Comment) : Option Bytes := suggestionBody self.body

/-- What the Composer is seeded with when the Draft is edited. -/
def Draft.editableBody (self : Draft) : Bytes :=
  match self.kind with
  | .suggestion => (suggestionBody self.body).getD self.body
  | .comment => self.body

def storedBody (kind : DraftKind) (editable : Bytes) : Bytes :=
  match kind with
  | .suggestion => suggestionFence ++ newline :: (editable ++ newline :: fence)
  | .comment => editable

theorem textBefore_within {stop text : Bytes} (rest : Bytes) (hstop : stop ≠ []) (h : stop <:+: text) :
    ∃ out, textBefore stop (text ++ rest) = some out ∧ out.length + stop.length ≤ text.length := by
  induction text with
  | nil => exact absurd (eq_nil_of_infix_nil h) hstop
  | cons c text ih =>
    by_cases hpre : stop.isPrefixOf (c :: (text ++ rest)) = true
    · refine ⟨[], by simp [textBefore, hpre], ?_⟩
      simpa using h.length_le
    have htail : stop <:+: text := by
      rcases infix_cons_iff.mp h with hp | ht
      · have hlong : stop <+: c :: (text ++ rest) := hp.trans (prefix_append (c :: text) rest)
        exact absurd (List.isPrefixOf_iff_prefix.mpr hlong) hpre
      · exact ht
    obtain ⟨out, hout, hlen⟩ := ih htail
    refine ⟨c :: out, by simp [textBefore, hpre, hout], ?_⟩
    simp only [length_cons]
    omega

/-- Three backticks that start in the text and end behind its newline would hold the newline. -/
theorem not_fence_prefix (c : UInt8) (text rest : Bytes) (h : ¬ fence <:+: c :: text) :
    fence.isPrefixOf (c :: (text ++ newline :: rest)) = false := by
  have hmark : fence = [96, 96, 96] := by decide
  have hline : (96 : UInt8) ≠ newline := by decide
  rw [hmark] at h ⊢
  rw [Bool.eq_false_iff]
  intro hpre
  match text with
  | [] | [d] => simp [isPrefixOf, hline] at hpre
  | d :: e :: text =>
    simp only [cons_append, isPrefixOf, Bool.and_eq_true, beq_iff_eq, and_true] at hpre
    obtain ⟨rfl, rfl, rfl⟩ := hpre
    exact h (List.IsPrefix.isInfix ⟨text, rfl⟩)

theorem textBefore_fence {text : Bytes} (h : ¬ fence <:+: text) :
    textBefore fence (text ++ newline :: fence) = some (text ++ [newline]) := by
  induction text with
  | nil => decide
  | cons c text ih =>
    have hpre := not_fence_prefix c text fence h
    have htail : ¬ fence <:+: text := fun hin => h (hin.trans (suffix_cons c text).isInfix)
    simp [textBefore, hpre, ih htail]

variable (text : Bytes)

@[simp] theorem trimContent_newline : trimContent (text ++ [newline]) = text := by
  simp [trimContent]

theorem trimContent_length (content : Bytes) : (trimContent content).length ≤ content.length := by
  unfold trimContent
  split <;> simp

/-- The parser finds the block of a stored Suggestion at once; only its end is in question. -/
theorem suggestionBody_storedBody : suggestionBody (storedBody .suggestion text) =
      (textBefore fence (text ++ newline :: fence)).map trimContent := by
  have hopen : textBefore suggestionFence (storedBody .suggestion text) = some [] :=
    textBefore_stop _ _ (by decide)
  have hdrop : (storedBody .suggestion text).drop suggestionFence.length =
      newline :: (text ++ newline :: fence) := by
    simp [storedBody]
  have hline : textBefore [newline] (newline :: (text ++ newline :: fence)) = some [] :=
    textBefore_stop [newline] _ (by decide)
  simp only [suggestionBody, hopen, bind_eq_bind, bind_some, length_nil,
    Nat.zero_add, hdrop, hline, drop_succ_cons, drop_zero]
  cases textBefore fence (text ++ newline :: fence) <;> rfl

theorem suggestionBody_eq_iff :
    suggestionBody (storedBody .suggestion text) = some text ↔ ¬ fence <:+: text := by
  rw [suggestionBody_storedBody]
  constructor
  · intro heq hin
    obtain ⟨out, hout, hlen⟩ := textBefore_within (newline :: fence) (by decide) hin
    rw [hout, map_some, some_inj] at heq
    have htrim := trimContent_length out
    have hfence : fence.length = 3 := by decide
    rw [heq] at htrim
    omega
  · intro hfree
    rw [textBefore_fence hfree, map_some, trimContent_newline]

theorem suggestionBody_isSome :
    ∃ content, suggestionBody (storedBody .suggestion text) = some content := by
  rw [suggestionBody_storedBody]
  have hin : fence <:+: text ++ newline :: fence := List.IsSuffix.isInfix ⟨text ++ [newline], by simp⟩
  obtain ⟨out, hout, -⟩ := textBefore_within [] (by decide) hin
  rw [append_nil] at hout
  exact ⟨trimContent out, by rw [hout, map_some]⟩

/-- A Suggestion comes back as it was written, in the Composer and from the published Comment,
exactly when it holds no three backticks in a row. -/
theorem suggestion_roundTrips_iff (draft : Draft) (comment : Comment) (text : Bytes) :
    (Draft.editableBody { draft with kind := .suggestion, body := storedBody .suggestion text } =
        text ∧
      Comment.suggestion { comment with body := storedBody .suggestion text } = some text) ↔
      ¬ fence <:+: text := by
  obtain ⟨content, hcontent⟩ := suggestionBody_isSome text
  have hiff := suggestionBody_eq_iff text
  simp only [hcontent, some_inj] at hiff
  simp only [Draft.editableBody, Comment.suggestion, hcontent, getD_some, some_inj,
    and_self]
  exact hiff

/-- A Suggestion about documentation loses everything from its first inner fence on. -/
theorem inner_fence_truncates :
    Draft.editableBody
      { localId := 1, kind := .suggestion, body := storedBody .suggestion (ascii "a\n```\nb") } =
        ascii "a" ∧
    Comment.suggestion { id := 1, body := storedBody .suggestion (ascii "a\n```\nb") } =
      some (ascii "a") ∧
    ¬ (Draft.editableBody
        { localId := 1, kind := .suggestion, body := storedBody .suggestion (ascii "a\n```\nb") } =
          ascii "a\n```\nb" ∧
      Comment.suggestion { id := 1, body := storedBody .suggestion (ascii "a\n```\nb") } =
        some (ascii "a\n```\nb")) := by
  decide

end Bbr.Review
