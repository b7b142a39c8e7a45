import Bbr.Bitbucket.Types

/-!
# Paths in diff headers

Git writes a path with unusual bytes between quotes and escapes them. `normalize` decodes such a
path and accepts only paths that are relative to the repository.
-/
namespace Bbr.Diff

def ascii (s : String) : Bytes := s.toList.map (fun c => c.toNat.toUInt8)

def quote : UInt8 := 0x22
def backslash : UInt8 := 0x5c
def slash : UInt8 := 0x2f

def letterEscape (e : UInt8) : Option UInt8 :=
  if e = 0x61 then some 0x07
  else if e = 0x62 then some 0x08
  else if e = 0x74 then some 0x09
  else if e = 0x6e then some 0x0a
  else if e = 0x76 then some 0x0b
  else if e = 0x66 then some 0x0c
  else if e = 0x72 then some 0x0d
  else if e = backslash then some backslash
  else if e = quote then some quote
  else none

def isOctal (d : UInt8) : Bool := decide (0x30 ≤ d) && decide (d ≤ 0x37)

/-- The byte of three octal digits. -/
def octalByte (d₁ d₂ d₃ : UInt8) : Option UInt8 :=
  let value := (d₁.toNat - 0x30) * 64 + (d₂.toNat - 0x30) * 8 + (d₃.toNat - 0x30)
  if isOctal d₁ && isOctal d₂ && isOctal d₃ && decide (value ≤ 255) then some value.toUInt8 else none

/-- Decode what stands between the quotes. -/
def unescape : Bytes → Option Bytes
  | [] => some []
  | c :: rest =>
    if c ≠ backslash then (unescape rest).map (fun out => c :: out)
    else match rest with
      | [] => none
      | e :: rest => match letterEscape e with
        | some b => (unescape rest).map (fun out => b :: out)
        | none => match rest with
          | d₂ :: d₃ :: rest => match octalByte e d₂ d₃ with
            | some b => (unescape rest).map (fun out => b :: out)
            | none => none
          | _ => none

def isRepositoryRelative (path : Bytes) : Bool :=
  !path.isEmpty && path.head? != some slash && path.getLast? != some slash && !path.contains 0 &&
    (path.splitOn slash).all (fun segment =>
      !segment.isEmpty && segment != ascii "." && segment != ascii "..")

/-- `none` is `InvalidPath`. -/
def normalize (input : Bytes) : Option Bytes :=
  let decoded :=
    if input.head? = some quote then
      if input.length < 2 ∨ input.getLast? ≠ some quote then none
      else if (quote :: ascii "a/").isPrefixOf input || (quote :: ascii "b/").isPrefixOf input then
        unescape (input.drop 3).dropLast
      else unescape (input.drop 1).dropLast
    else some input
  decoded.bind (fun path => if isRepositoryRelative path then some path else none)

end Bbr.Diff
