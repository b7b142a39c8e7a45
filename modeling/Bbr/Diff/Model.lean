import Bbr.Bitbucket.Types

/-!
# The parsed diff

Files, Hunks and Lines as the parser of a unified diff builds them. A line number of zero stands for
an absent side.
-/
namespace Bbr.Diff

inductive LineKind where
  | context
  | added
  | removed
  deriving DecidableEq, Repr

structure Line where
  oldNo : Nat
  newNo : Nat
  kind : LineKind
  text : Bytes
  inHunk : Bool := true
  deriving DecidableEq, Repr

/-- The new number, unless the side is absent. -/
def Line.newLine (self : Line) : Option Nat := if self.newNo = 0 then none else some self.newNo

/-- A region of change with its context; `header` is the whole `@@` line. -/
structure Hunk where
  oldStart : Nat
  oldCount : Nat
  newStart : Nat
  newCount : Nat
  header : Bytes
  lines : List Line
  deriving DecidableEq, Repr

inductive FileStatus where
  | added
  | modified
  | removed
  | renamed
  deriving DecidableEq, Repr

inductive UnavailableReason where
  | invalidUtf8
  | invalidPath
  | acquisitionFailed
  deriving DecidableEq, Repr

inductive FileContentStatus where
  | text (size : Option Nat)
  | binary (size : Option Nat)
  | unavailable (byteSize : Option Nat) (reason : UnavailableReason)
  deriving DecidableEq, Repr

/-- An absent side has no status. -/
structure FileContent where
  old : Option FileContentStatus := none
  new : Option FileContentStatus := none
  deriving DecidableEq, Repr

structure File where
  oldPath : Bytes
  newPath : Bytes
  status : FileStatus
  hunks : List Hunk
  content : FileContent := ⟨some (.text none), some (.text none)⟩
  deriving DecidableEq, Repr

set_option linter.all false in
structure Diff where
  files : List File
  deriving DecidableEq, Repr

end Bbr.Diff
