import Bbr.Diff.Parser

/-!
# Bundles of a UserGrammar

The files of a bundle, read from a folder or from a tar archive, and the canonical text that the
digest of a bundle is taken of.
-/
namespace Bbr.Highlight

open List

open Bbr.Diff (usizeLimit)

/-- Bytes in memory: their number is a machine word. -/
abbrev Slice := { bytes : Bytes // bytes.length < usizeLimit }

namespace Slice

def take (self : Slice) (n : Nat) : Slice :=
  ⟨self.1.take n, by
    have h := self.2
    rw [List.length_take]
    omega⟩

def drop (self : Slice) (n : Nat) : Slice :=
  ⟨self.1.drop n, by
    have h := self.2
    rw [List.length_drop]
    omega⟩

end Slice

structure File where
  path : Slice
  bytes : Slice
  deriving DecidableEq

inductive GrammarError where
  | nonRegularFile | unsafePath | bundleTooLarge | archiveTooLarge | invalidArchive
  | duplicateArchiveEntry | missingManifest | invalidManifest | duplicateManifestField
  | unknownManifestField | invalidDigest | invalidGrammarIdentity | invalidGrammarVersion
  | targetMismatch | treeSitterAbiMismatch | invalidGrammarMatch | duplicateGrammarMatch
  | missingGrammarMatch | undeclaredFile | duplicatePayload | missingPayload
  | payloadDigestMismatch | undeclaredPayloadRole | userGrammarIdentityMismatch | untrustedDigest
  | userGrammarConflict | nativeLibraryLoadFailed | missingLanguageSymbol | invalidLanguageSymbol
  | invalidUserGrammarInstallation | invalidHighlightQuery | invalidLocalsQuery | invalidPredicate
  | missingLocalsQuery
  /-- What the system's files and memory fail with. -/
  | system (code : Nat)
  /-- An optional without a value is unwrapped. -/
  | unwrapped
  deriving DecidableEq, Repr

def slash : UInt8 := 0x2f
def dot : UInt8 := 0x2e

def safePath (path : Bytes) : Bool :=
  path ≠ [] && path.head? ≠ some slash && !path.contains 0x5c &&
    (path.splitOn slash).all (fun component =>
      component ≠ [] && component ≠ [dot] && component ≠ [dot, dot])

def findFile (files : List File) (path : Bytes) : Option File :=
  files.find? (fun file => file.path.1 = path)

def maxFileBytes : Nat := 64 * 1024 * 1024

inductive EntryKind where
  | directory
  | file
  | other
  deriving DecidableEq, Repr

/-- What a walk over a folder comes to. -/
structure FolderEntry where
  kind : EntryKind
  path : Slice
  bytes : Except GrammarError Slice

def readFolder : List FolderEntry → Nat → List File → Except GrammarError (List File)
  | [], _, files => .ok files
  | entry :: rest, totalBytes, files => match entry.kind with
    | .directory => readFolder rest totalBytes files
    | .other => .error .nonRegularFile
    | .file =>
      if !safePath entry.path.1 then .error .unsafePath
      else match entry.bytes with
        | .error e => .error e
        | .ok bytes =>
          if totalBytes + bytes.1.length > maxFileBytes ∨ files.length ≥ 1024 then
            .error .bundleTooLarge
          else readFolder rest (totalBytes + bytes.1.length) (files ++ [⟨entry.path, bytes⟩])

def slice (bytes : Bytes) (start stop : Nat) : Bytes := (bytes.drop start).take (stop - start)

def trim (values : Bytes) (text : Bytes) : Bytes :=
  ((text.dropWhile (· ∈ values)).reverse.dropWhile (· ∈ values)).reverse

def octalDigit (c : UInt8) : Option Nat :=
  if 0x30 ≤ c ∧ c ≤ 0x37 then some (c.toNat - 0x30) else none

/-- Octal digits; underscores may stand between them. -/
def octalMagnitude (text : Bytes) : Option Nat :=
  if text = [] ∨ text.head? = some 0x5f ∨ text.getLast? = some 0x5f then none
  else (text.filter (fun c => c ≠ 0x5f)).foldlM
    (fun value c => (octalDigit c).map (fun digit => value * 8 + digit)) 0

/-- The standard library's reading of a word, with an optional sign. -/
def parseOctal (text : Bytes) : Option Nat :=
  match text with
  | 0x2b :: rest => (octalMagnitude rest).filter (fun value => decide (value < usizeLimit))
  | 0x2d :: rest => (octalMagnitude rest).filter (fun value => decide (value = 0))
  | _ => (octalMagnitude text).filter (fun value => decide (value < usizeLimit))

def parseTarOctal (raw : Bytes) : Option Nat :=
  let value := trim [0x20, 0] raw
  if value = [] then some 0 else parseOctal value

def allZero (bytes : Bytes) : Bool := bytes.all (fun byte => byte = 0)

/-- The sum over a header whose checksum reads as blanks. -/
def tarSum (header : Bytes) : Nat :=
  header.zipIdx.foldl (fun sum p => sum + if 148 ≤ p.2 ∧ p.2 < 156 then 0x20 else p.1.toNat) 0

def validTarChecksum (header : Bytes) : Option Bool :=
  (parseTarOctal (slice header 148 156)).map (fun expected => decide (tarSum header = expected))

/-- Two parts of a path with one separator between them. -/
def joinPath (first second : Bytes) : Bytes :=
  if second = [] then first
  else if first.getLast? = some slash then
    if second.head? = some slash then first ++ second.tail else first ++ second
  else if second.head? = some slash then first ++ second
  else first ++ slash :: second

theorem joinPath_length (first second : Bytes) :
    (joinPath first second).length ≤ first.length + second.length + 1 := by
  unfold joinPath
  split
  · omega
  split
  · split
    · rw [length_append, length_tail]; omega
    · rw [length_append]; omega
  · split
    · rw [length_append]; omega
    · rw [length_append, length_cons]; omega

/-- The part of a field before its first zero byte. -/
def sliceTo (field : Bytes) : Bytes := field.takeWhile (· ≠ 0)

theorem sliceTo_slice_length (header : Bytes) (start stop : Nat) :
    (sliceTo (slice header start stop)).length ≤ stop - start :=
  Nat.le_trans (List.takeWhile_prefix _).length_le (length_take_le _ _)

def tarPath (header : Bytes) : Option Slice :=
  let name := sliceTo (slice header 0 100)
  let pre := sliceTo (slice header 345 500)
  if name = [] then none
  else some ⟨if pre = [] then name else joinPath pre name, by
    have hname : name.length ≤ 100 := sliceTo_slice_length header 0 100
    have hpre : pre.length ≤ 155 := sliceTo_slice_length header 345 500
    have hjoin := joinPath_length pre name
    have hlimit : 256 < usizeLimit := by decide
    split <;> omega⟩

/-- The name of a directory is kept without the slash at its end. -/
def entryName (kind : UInt8) (name : Slice) : Slice :=
  if kind = 0x35 ∧ name.1.getLast? = some slash then name.take (name.1.length - 1) else name

/-- The loop over the headers, on the bytes that are left. -/
def parseEntries : Nat → Slice → List Bytes → List File → Except GrammarError (List File)
  | 0, _, _, _ => .error .invalidArchive
  | fuel + 1, rest, seen, files =>
    if rest.1.length < 512 then .error .invalidArchive
    else
      let header := rest.1.take 512
      if allZero header then
        if rest.1.length < 1024 ∨ !allZero rest.1 then .error .invalidArchive else .ok files
      else if validTarChecksum header ≠ some true then .error .invalidArchive
      else match tarPath header with
        | none => .error .invalidArchive
        | some path =>
          let kind := header.getD 156 0
          let name := entryName kind path
          if !safePath name.1 then .error .unsafePath
          else if seen.contains name.1 then .error .duplicateArchiveEntry
          else match parseTarOctal (slice header 124 136) with
            | none => .error .invalidArchive
            | some size =>
              let data := rest.drop 512
              let next := data.drop ((size + 511) / 512 * 512)
              if data.1.length < size then .error .invalidArchive
              else if kind = 0x35 then
                if size ≠ 0 then .error .invalidArchive
                else parseEntries fuel next (seen ++ [name.1]) files
              else if kind = 0 ∨ kind = 0x30 then
                parseEntries fuel next (seen ++ [name.1]) (files ++ [⟨name, data.take size⟩])
              else .error .nonRegularFile

def parseTar (bytes : Slice) : Except GrammarError (List File) :=
  parseEntries (bytes.1.length + 1) bytes [] []

def order : Bytes → Bytes → Ordering
  | [], [] => .eq
  | [], _ :: _ => .lt
  | _ :: _, [] => .gt
  | a :: as, b :: bs => if a < b then .lt else if b < a then .gt else order as bs

/-- The low bytes of a number, the highest of them first. -/
def bigEndian : Nat → Nat → Bytes
  | 0, _ => []
  | width + 1, n => bigEndian width (n / 256) ++ [(n % 256).toUInt8]

/-- Path and bytes of a file with their lengths in front. -/
def framed (file : File) : Bytes :=
  bigEndian 8 file.path.1.length ++ file.path.1 ++ bigEndian 8 file.bytes.1.length ++ file.bytes.1

def fileRank (files : List File) (file : File) : Nat :=
  files.countP (fun other => order other.path.1 file.path.1 = .lt)

/-- The file that a turn of the loop selects. -/
def selected (files : List File) (turn : Nat) : Option File :=
  (files.filter (fun file => fileRank files file = turn)).getLast?

/-- What the hasher is fed, unless a turn selects no file. -/
def canonicalInput (files : List File) : Option Bytes :=
  ((List.range files.length).mapM (selected files)).map (fun ranked => ranked.flatMap framed)

/-- SHA-256, and digests as hexadecimal text. -/
structure Sha256 (Digest : Type) where
  hash : Bytes → Digest
  hex : Digest → Bytes
  hexToBytes : Bytes → Option Digest

def canonicalDigest {Digest : Type} (sha : Sha256 Digest) (files : List File) : Option Digest :=
  (canonicalInput files).map sha.hash

end Bbr.Highlight
