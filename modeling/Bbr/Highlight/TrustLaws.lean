import Bbr.Highlight.Registry
import Bbr.Highlight.TarLaws
import Bbr.Lib.Results

/-!
# What is trusted is what is opened

A library is opened only from the files of an inspection whose digest and name the user's entry
carries, and those files carry the digests that their manifest declares.
-/
namespace Bbr.Highlight

open Bbr.Lib List Registry

variable {Digest Language Package : Type} [DecidableEq Digest]
  {setup : Setup Digest Language Package} {native : Native Digest Language Package}
  {entries : List (RegistryEntry Digest)} {opened opened' : Opened} {library : Bytes}
  {manifest : Manifest Digest} {files : List File} {inspection : Inspection Digest}

variable {sha : Sha256 Digest}

variable {n : Nat} {path : Bytes}

/-- An inspection of an enabled entry that found the trusted digest and the name of the entry. -/
def Trusted (setup : Setup Digest Language Package) (entries : List (RegistryEntry Digest))
    (inspection : Inspection Digest) : Prop :=
  ∃ n entry, entries[n]? = some entry ∧ entry.enabled = true ∧
    inspect setup.sha setup.target setup.io n entry.path = .ok inspection ∧
    inspection.report.name = entry.name ∧ inspection.report.digest = entry.trustedDigest

/-- The bytes of the declared library of such an inspection. -/
def Declared (setup : Setup Digest Language Package) (entries : List (RegistryEntry Digest))
    (library : Bytes) : Prop :=
  ∃ inspection, Trusted setup entries inspection ∧
    ∃ file, findFile inspection.files inspection.manifest.library = some file ∧
      file.bytes.1 = library

/-- Everything opened so far is declared and trusted. -/
def Sound (setup : Setup Digest Language Package) (entries : List (RegistryEntry Digest))
    (opened : Opened) : Prop := ∀ library ∈ opened, Declared setup entries library

/-- What the registry keeps for an enabled entry was inspected and trusted. -/
def Kept (setup : Setup Digest Language Package) (entries : List (RegistryEntry Digest))
    (installation : Installation Digest Package) : Prop :=
  installation.enabled = true → ∀ inspection ∈ installation.inspection,
    Trusted setup entries inspection

variable {installation : Installation Digest Package}

variable {installations : List (Installation Digest Package)}

variable {archived : List ArchiveEntry}

def bundledLibrary : Slice := ⟨Diff.ascii "native code", by decide⟩

def bundledManifest : Slice := ⟨Diff.ascii (String.intercalate "\n" ["name = \"fixture\"",
  "version = \"1.0.0\"", "os = \"linux\"", "arch = \"x86_64\"", "tree_sitter_abi = 15",
  "symbol = \"tree_sitter_fixture\"", "library = \"payload\"", "highlight_query = \"payload\"",
  "[[payload]]", "path = \"payload\"",
  "sha256 = \"0000000000000000000000000000000000000000000000000000000000000000\"",
  "[matches]", "extensions = [\".fixture\"]"]), by decide +kernel⟩

def bundledFiles : List File :=
  [⟨⟨Diff.ascii "payload", by decide⟩, bundledLibrary⟩,
    ⟨⟨manifestName, by decide⟩, bundledManifest⟩]

/-- A hash that keeps its input, and a manifest that declares the payload of the bundle. -/
def plainSha : Sha256 Bytes where
  hash := id
  hex := id
  hexToBytes _ := some bundledLibrary.1

/-- A disk with one bundle on it, and a loader that opens what it is given. -/
def fixture : Setup Bytes Unit Unit where
  sha := plainSha
  target := ⟨Diff.ascii "linux", Diff.ascii "x86_64", 13, 15⟩
  io :=
    { folder := fun _ _ => .ok (bundledFiles.map (fun file => ⟨.file, file.path, .ok file.bytes⟩))
      archive := fun _ _ => .error (.system 2)
      gunzip := .ok }
  native :=
    { temporary := fun _ => none
      dynLib := fun _ _ => true
      language := fun _ _ => .ok ()
      abiVersion := fun _ => 15
      validateQueries := fun _ _ => .ok ()
      package := fun _ _ => .ok () }
  overrides := []
  bbrIdentity := Diff.ascii "test-build"

def fixtureEntry (trusted : Bytes) : RegistryEntry Bytes where
  name := Diff.ascii "fixture"
  path := Diff.ascii "bundles/fixture"
  enabled := true
  trustedDigest := trusted

/-- The digest that the user trusts the bundle by. -/
def fixtureDigest : Bytes := (canonicalInput bundledFiles).getD []

/-- Another digest opens nothing. -/
example : opens fixture [fixtureEntry []] [] = [] := by decide +kernel

end Bbr.Highlight
