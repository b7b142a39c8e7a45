import Bbr.Diff.Numbering
import Bbr.Review.Relocation
import Mathlib.Algebra.Ring.Int.Defs

/-!
# Where line numbers overflow

The resolver adds the start and the count of a Hunk, and one to the line that the last line was mapped to.
The parser bounds neither sum. The mapping without the sums says where each of them leaves 32 bits.
-/
namespace Bbr.Review

open Bbr.Diff Transition

/-- The lines that the Hunk lists end before the line. -/
def passed (line : Nat) (hunk : Hunk) : Bool := decide (hunk.oldStart + hunk.oldCount ≤ line)

/-- How far the Hunks move the lines behind them. -/
def shift (hunks : List Hunk) : Int :=
  (hunks.map (fun hunk => (hunk.newCount : Int) - hunk.oldCount)).sum

/-- The Hunk in which the line is looked up, if there is one. -/
def hunkAt (hunks : List Hunk) (line : Nat) : Option Hunk :=
  (hunks.dropWhile (passed line)).head?.filter (fun hunk => decide (hunk.oldStart ≤ line))

/-- The new number of an old line, in numbers without a bound. -/
def lineOf (hunks : List Hunk) (line : Nat) : Option Nat :=
  match hunkAt hunks line with
  | some hunk => lineInHunk hunk.lines line
  | none => applyDelta line (shift (hunks.takeWhile (passed line)))

/-- The line is looked up in a Hunk that ends behind the 32-bit numbers. -/
def CutOff (hunks : List Hunk) (line : Nat) : Prop :=
  ∃ hunk, hunkAt hunks line = some hunk ∧ u32Limit ≤ hunk.oldStart + hunk.oldCount

/-- From `start` on the lines are mapped to `next` and the numbers behind it, up to a line that is cut
off, or that is mapped although its number would have to be beyond 32 bits. -/
def TrapsFrom (hunks : List Hunk) (start bottom next : Nat) : Prop :=
  ∃ line, start ≤ line ∧ line ≤ bottom ∧
    (∀ i, start + i < line → lineOf hunks (start + i) = some (next + i)) ∧
    (CutOff hunks line ∨ ((lineOf hunks line).isSome = true ∧ u32Limit ≤ next + (line - start)))

variable {hunk : Hunk} {rest hunks : List Hunk} {line : Nat}

variable {file : File}

variable {start bottom next : Nat}

/-- The line numbers of an Anchor are 32-bit numbers. -/
def Anchor.Fits (authored : Anchor) : Prop := ∀ line ∈ authored.line, line < u32Limit

variable {authored : Anchor}

/-- An accepted Anchor has an ascending range, and the resolver finds its ends. -/
theorem Anchor.accepted (h : authored.validateShape = .ok ()) :
    ∃ top bottom, authored.top = some top ∧ authored.line = some bottom ∧
      (authored.startTo.or authored.startFrom).or authored.line = some top ∧ top ≤ bottom := by
  have hascends {first bottom : Nat} (h : (if bottom < first then
      Except.error ShapeError.anchorRangeDescending
      else if bottom - first + 1 > maxAnchorLines then .error .anchorRangeTooLong
      else .ok ()) = .ok ()) : first ≤ bottom := by
    split at h
    · cases h
    · omega
  obtain ⟨path, fromLine, toLine, startFrom, startTo, commit⟩ := authored
  unfold Anchor.validateShape Anchor.top at h
  cases toLine with
  | some line =>
    cases fromLine with
    | some other => simp at h
    | none =>
      cases startFrom with
      | some first => simp at h
      | none =>
        cases startTo with
        | some first => exact ⟨first, line, rfl, rfl, rfl, hascends h⟩
        | none => exact ⟨line, line, rfl, rfl, rfl, Nat.le_refl line⟩
  | none =>
    cases fromLine with
    | none => simp at h
    | some line =>
      cases startTo with
      | some first => simp at h
      | none =>
        cases startFrom with
        | some first => exact ⟨first, line, rfl, rfl, rfl, hascends h⟩
        | none => exact ⟨line, line, rfl, rfl, rfl, Nat.le_refl line⟩

end Bbr.Review
