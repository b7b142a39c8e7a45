import Bbr.Diff.FileSections
import Bbr.Lib.Splits

/-!
# The numbers of Hunk lines

A Hunk starts where its header says and counts its lines from there. Nothing bounds the start, so a
line can be counted past the last 32-bit number. Where a row stands, and how many lines of its Hunk
come before it, is told from the rows alone.
-/
namespace Bbr.Diff

open List

/-- Before the first File, in the preamble of a File, or in a Hunk behind its header and some rows. -/
inductive Place where
  | outside
  | preamble
  | hunk (header : Bytes) (body : List Bytes)
  deriving DecidableEq, Repr

def Place.next : Place → Bytes → Place
  | .outside, row => if isGitRow row then .preamble else .outside
  | .preamble, row =>
    if isGitRow row then .preamble else if isHunkRow row then .hunk row [] else .preamble
  | .hunk header body, row =>
    if isGitRow row then .preamble
    else if isHunkRow row then .hunk row []
    else .hunk header (body ++ [row])

/-- A line of the old side: context or removed. -/
def onOld (row : Bytes) : Bool := row.head? == some 0x20 || row.head? == some 0x2d

/-- A line of the new side: context or added. -/
def onNew (row : Bytes) : Bool := row.head? == some 0x20 || row.head? == some 0x2b

/-- No declared error: the header of a Hunk is well formed, and a row in a Hunk is one of its lines,
a marker or empty. -/
def Readable : Place → Bytes → Prop
  | .outside, _ => True
  | .preamble, row => isHunkRow row = true → ∃ n, parseHunkHeader row = .ok n
  | .hunk _ _, row => isGitRow row = true ∨ (isHunkRow row = true ∧ ∃ n, parseHunkHeader row = .ok n) ∨
    (isHunkRow row = false ∧
      (row = [] ∨ onOld row = true ∨ onNew row = true ∨ row.head? = some backslash))

/-- The row is a line of a Hunk and the line after it has no 32-bit number. -/
def CountsPast : Place → Bytes → Prop
  | .hunk header body, row => isGitRow row = false ∧ isHunkRow row = false ∧
    ∃ n, parseHunkHeader header = .ok n ∧
      ((onOld row = true ∧ u32Limit ≤ n.oldStart + body.countP onOld + 1) ∨
        (onNew row = true ∧ u32Limit ≤ n.newStart + body.countP onNew + 1))
  | _, _ => False

theorem CountsPast.readable {place : Place} {row : Bytes} (h : CountsPast place row) :
    Readable place row := by
  cases place with
  | outside | preamble => exact h.elim
  | hunk header body =>
    obtain ⟨-, hat, n, -, ⟨hold, -⟩ | ⟨hnew, -⟩⟩ := h
    · exact .inr (.inr ⟨hat, .inr (.inl hold)⟩)
    · exact .inr (.inr ⟨hat, .inr (.inr (.inl hnew))⟩)

namespace ParseState

variable {s s' : ParseState} {row : Bytes} {rows : List Bytes} {place : Place}

variable {header : Bytes} {body : List Bytes}

variable {e : ParseError}

end ParseState

namespace ParseState

variable {s s' : ParseState} {row : Bytes} {rows : List Bytes}

end ParseState

end Bbr.Diff
