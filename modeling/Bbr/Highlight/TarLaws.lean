import Bbr.Highlight.DigestLaws
import Mathlib.Data.List.TakeWhile

/-!
# Ustar archives

What a ustar archive of files and directories is, and that reading one gives its files back.
-/
namespace Bbr.Highlight

open List

open Bbr.Diff (usizeLimit)

/-- The fields of a header, each with its width. -/
structure UstarHeader where
  name : Bytes
  modes : Bytes
  size : Bytes
  mtime : Bytes
  checksum : Bytes
  kind : UInt8
  link : Bytes
  owner : Bytes
  pre : Bytes
  pad : Bytes
  name_length : name.length = 100
  modes_length : modes.length = 24
  size_length : size.length = 12
  mtime_length : mtime.length = 12
  checksum_length : checksum.length = 8
  link_length : link.length = 100
  owner_length : owner.length = 88
  pre_length : pre.length = 155
  pad_length : pad.length = 12

namespace UstarHeader

/-- The fields before the checksum. -/
def before (self : UstarHeader) : Bytes := self.name ++ (self.modes ++ (self.size ++ self.mtime))

/-- The fields after the checksum. -/
def after (self : UstarHeader) : Bytes :=
  self.kind :: (self.link ++ (self.owner ++ (self.pre ++ self.pad)))

def bytes (self : UstarHeader) : Bytes := self.before ++ (self.checksum ++ self.after)

/-- The sum of the bytes of a header with blanks for its checksum. -/
def sum (self : UstarHeader) : Nat :=
  (self.before ++ (List.replicate 8 0x20 ++ self.after)).foldl (fun sum (b : UInt8) => sum + b.toNat) 0

end UstarHeader

/-- A text filled up with zero bytes. -/
def Filled (field text : Bytes) : Prop :=
  0 ∉ text ∧ ∃ n, field = text ++ List.replicate n 0

/-- The two name fields spell a name: all of it in one, or split at a slash. -/
def Spelled (header : UstarHeader) (full : Bytes) : Prop :=
  ∃ name pre, name ≠ [] ∧ Filled header.name name ∧ Filled header.pre pre ∧
    ((pre = [] ∧ full = name) ∨ (pre ≠ [] ∧ pre.getLast? ≠ some slash ∧
      name.head? ≠ some slash ∧ full = pre ++ slash :: name))

inductive ArchiveEntry where
  | file (file : File)
  | directory (path : Bytes)

def ArchiveEntry.path : ArchiveEntry → Bytes
  | .file f => f.path.1
  | .directory path => path

variable {header : UstarHeader} {full rest : Bytes} {size : Nat} {stop : Nat}

namespace UstarHeader

variable (self : UstarHeader)

end UstarHeader

variable {digits : Bytes}

section

variable (hne : digits ≠ []) (h : ∀ d ∈ digits, 0x30 ≤ d ∧ d ≤ 0x37)
include hne h

end

variable {field : Bytes}

variable {entries : List ArchiveEntry}

end Bbr.Highlight
