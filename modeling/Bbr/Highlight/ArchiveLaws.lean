import Bbr.Highlight.TarLaws

/-!
# Any bytes read as an archive

What is read from any bytes stands in them, one file behind the other, under safe and distinct paths.
Every list of files and directories whose paths and sizes fit the header fields has an archive.
-/
namespace Bbr.Highlight

open List

open Bbr.Diff (usizeLimit ascii)

/-- A relative path that stays below its folder. -/
structure SafePath (path : Bytes) : Prop where
  relative : path.head? ≠ some slash
  noBackslash : 0x5c ∉ path
  components : ∀ component ∈ path.splitOn slash,
    component ≠ [] ∧ component ≠ ascii "." ∧ component ≠ ascii ".."

/-- Two files in this order have their own parts and paths. -/
def Apart (p q : Nat × File) : Prop :=
  p.1 + p.2.bytes.1.length ≤ q.1 ∧ p.2.path.1 ≠ q.2.path.1

variable {fuel : Nat} {rest : Slice} {seen : List Bytes} {files out : List File}

/-- The number in octal, with as many digits as the field is long. -/
def octal : Nat → Nat → Bytes
  | 0, _ => []
  | width + 1, n => octal width (n / 8) ++ [(0x30 + n % 8).toUInt8]

@[simp] theorem length_octal (width n : Nat) : (octal width n).length = width := by
  induction width generalizing n with
  | zero => rfl
  | succ width ih => simp [octal, ih]

/-- A text in a field of its own. -/
def fill (width : Nat) (text : Bytes) : Bytes :=
  (text ++ List.replicate (width - text.length) 0).take width

/-- A path that the two name fields can hold. -/
def FitsName (path : Bytes) : Prop :=
  0 ∉ path ∧ (path.length ≤ 100 ∨
    ∃ pre name, path = pre ++ slash :: name ∧ pre.length ≤ 155 ∧ name.length ≤ 100)

theorem SafePath.split {pre name : Bytes} (h : SafePath (pre ++ slash :: name)) :
    pre ≠ [] ∧ pre.getLast? ≠ some slash ∧ name ≠ [] ∧ name.head? ≠ some slash := by
  have hall := h.components
  rw [splitOn_append_cons_self] at hall
  refine ⟨?_, fun hlast => ?_, ?_, fun hhead => ?_⟩
  · rintro rfl
    exact (hall [] (by simp)).1 rfl
  · obtain ⟨front, rfl⟩ := getLast?_eq_some_iff.mp hlast
    rw [splitOn_append_cons_self] at hall
    exact (hall [] (by simp)).1 rfl
  · rintro rfl
    exact (hall [] (by simp)).1 rfl
  · obtain ⟨rest, rfl⟩ := head?_eq_some_iff.mp hhead
    rw [splitOn_cons_eq_if_modifyHead] at hall
    exact (hall [] (by simp)).1 rfl

namespace ArchiveEntry

def size : ArchiveEntry → Nat
  | .file f => f.bytes.1.length
  | .directory _ => 0

/-- Path and size of the entry fit the fields of a header. -/
def Fits (self : ArchiveEntry) : Prop := FitsName self.path ∧ self.size < 8 ^ 11

end ArchiveEntry

end Bbr.Highlight
