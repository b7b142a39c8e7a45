import Bbr.Highlight.Manifest

/-!
# The registry of UserGrammars

Configured bundles are inspected, compared with what the user trusts, validated and loaded. Every
native library that is opened is recorded with the bytes it was written from.
-/
namespace Bbr.Highlight

open Bbr.Diff (ascii)

structure MatchOverride where
  name : Bytes
  rules : GrammarMatches

def effectiveRules (name : Bytes) (defaults : GrammarMatches) :
    List MatchOverride → Except GrammarError GrammarMatches
  | [] => .ok defaults
  | override :: rest =>
    if override.name ≠ name then effectiveRules name defaults rest
    else do
      validateRules override.rules
      return override.rules

def endsWith (text suffix : Bytes) : Bool := suffix.isSuffixOf text

def firstLine (content : Bytes) : Bytes := content.takeWhile (· ≠ newline)

/-- The kinds of rules in the order in which they are tried. -/
def matchKinds : List RuleKind := [.filename, .compound, .extension, .shebang]

def matchesKind (rules : GrammarMatches) (kind : RuleKind) (path content : Bytes) : Bool :=
  let base := basename path
  match kind with
  | .filename => rules.filenames.any (fun candidate => base = candidate)
  | .compound => rules.compoundSuffixes.any (fun candidate => endsWith base candidate)
  | .extension => rules.extensions.any (fun candidate => extension base = candidate)
  | .shebang => rules.shebangs.any (fun candidate => candidate.isPrefixOf (firstLine content))

def listsOverlap (overlap : Bytes → Bytes → Bool) (left right : List Bytes) : Bool :=
  left.any (fun l => right.any (fun r => overlap l r))

def ruleListsOverlap : List Bytes → List Bytes → Bool := listsOverlap (fun l r => l = r)

def suffixListsOverlap : List Bytes → List Bytes → Bool :=
  listsOverlap (fun l r => endsWith l r || endsWith r l)

def prefixListsOverlap : List Bytes → List Bytes → Bool :=
  listsOverlap (fun l r => r.isPrefixOf l || l.isPrefixOf r)

/-- A name or a suffix on one side that a wider rule on the other side takes. -/
def takesOver (narrow wide : GrammarMatches) : Bool :=
  listsOverlap endsWith narrow.filenames wide.compoundSuffixes ||
    listsOverlap (fun filename ext => extension filename = ext) narrow.filenames wide.extensions

def hasPathRules (rules : GrammarMatches) : Bool :=
  decide (rules.filenames.length + rules.compoundSuffixes.length + rules.extensions.length ≠ 0)

def rulesOverlap (left right : GrammarMatches) : Bool :=
  ruleListsOverlap left.filenames right.filenames ||
    suffixListsOverlap left.compoundSuffixes right.compoundSuffixes ||
    ruleListsOverlap left.extensions right.extensions ||
    prefixListsOverlap left.shebangs right.shebangs ||
    takesOver left right || takesOver right left ||
    listsOverlap (fun suffix ext => extension suffix = ext) left.compoundSuffixes
      right.extensions ||
    listsOverlap (fun suffix ext => extension suffix = ext) right.compoundSuffixes
      left.extensions ||
    (hasPathRules left && !right.shebangs.isEmpty) || (hasPathRules right && !left.shebangs.isEmpty)

structure Report (Digest : Type) where
  name : Bytes
  version : Bytes
  digest : Digest
  rules : GrammarMatches

structure Inspection (Digest : Type) where
  manifest : Manifest Digest
  files : List File
  report : Report Digest

/-- What reading a path for the nth time comes to. -/
structure Io where
  folder : Nat → Bytes → Except GrammarError (List FolderEntry)
  archive : Nat → Bytes → Except GrammarError Slice
  gunzip : Slice → Except GrammarError Slice

def readArchive (io : Io) (n : Nat) (path : Bytes) : Except GrammarError (List File) := do
  let compressed ← io.archive n path
  let tarBytes ← io.gunzip compressed
  if tarBytes.1.length > maxFileBytes then .error .archiveTooLarge
  else parseTar tarBytes

variable {Digest : Type} [DecidableEq Digest]

def readBundle (io : Io) (n : Nat) (path : Bytes) : Except GrammarError (List File) :=
  if endsWith path (ascii ".tar.gz") then readArchive io n path
  else do
    let entries ← io.folder n path
    readFolder entries 0 []

def inspectFiles (sha : Sha256 Digest) (target : Target) (files : List File) :
    Except GrammarError (Inspection Digest) :=
  match findFile files manifestName with
  | none => .error .missingManifest
  | some manifestFile => do
    let manifest ← parseManifest sha manifestFile.bytes.1
    validateManifest target manifest
    validateFiles sha manifest files
    match canonicalDigest sha files with
    | none => .error .unwrapped
    | some digest =>
      return ⟨manifest, files, ⟨manifest.name, manifest.version, digest, manifest.rules⟩⟩

def inspect (sha : Sha256 Digest) (target : Target) (io : Io) (n : Nat) (path : Bytes) :
    Except GrammarError (Inspection Digest) := do
  let files ← readBundle io n path
  inspectFiles sha target files

/-- The loader of native libraries and what is asked of them, by how many were opened before. -/
structure Native (Digest Language Package : Type) where
  temporary : Nat → Option GrammarError
  dynLib : Nat → Bytes → Bool
  language : Nat → Bytes → Except GrammarError Language
  abiVersion : Language → Nat
  validateQueries : Language → Inspection Digest → Except GrammarError Unit
  package : Language → Inspection Digest → Except GrammarError Package

variable {Language Package : Type} (native : Native Digest Language Package)

/-- The native libraries opened so far, as the bytes they were written from. -/
abbrev Opened := List Bytes

/-- Write the declared library to a temporary file, open it and ask it for its language. -/
def openLanguage (inspection : Inspection Digest) (opened : Opened) :
    Opened × Except GrammarError Language :=
  match native.temporary opened.length with
  | some e => (opened, .error e)
  | none => match findFile inspection.files inspection.manifest.library with
    | none => (opened, .error .unwrapped)
    | some file =>
      (opened ++ [file.bytes.1],
        if !native.dynLib opened.length file.bytes.1 then .error .nativeLibraryLoadFailed
        else native.language opened.length inspection.manifest.symbol)

def eqlIgnoreCase (a b : Bytes) : Bool :=
  let lower := fun c : UInt8 => if 0x41 ≤ c ∧ c ≤ 0x5a then c + 0x20 else c
  decide (a.map lower = b.map lower)

def validateLanguage (inspection : Inspection Digest) (language : Language) :
    Except GrammarError Unit :=
  if some (native.abiVersion language) ≠ inspection.manifest.treeSitterAbi then
    .error .treeSitterAbiMismatch
  else native.validateQueries language inspection

def validateTrusted (sha : Sha256 Digest) (inspection : Inspection Digest) (trustedSha256 : Bytes)
    (opened : Opened) : Opened × Except GrammarError Unit :=
  if !eqlIgnoreCase (sha.hex inspection.report.digest) trustedSha256 then
    (opened, .error .untrustedDigest)
  else match openLanguage native inspection opened with
    | (opened, .error e) => (opened, .error e)
    | (opened, .ok language) => (opened, validateLanguage native inspection language)

structure ValidationReceipt (Digest : Type) where
  bundleDigest : Digest
  bbrIdentity : Bytes
  treeSitterIdentity : Nat

def ValidationReceipt.accepts (self : ValidationReceipt Digest) (target : Target) (digest : Digest)
    (bbrIdentity : Bytes) : Bool :=
  decide (self.bundleDigest = digest) && decide (self.bbrIdentity = bbrIdentity) &&
    decide (self.treeSitterIdentity = target.maxAbi)

structure RegistryEntry (Digest : Type) where
  name : Bytes
  path : Bytes
  enabled : Bool
  trustedDigest : Digest
  receipt : Option (ValidationReceipt Digest) := none

structure Installation (Digest Package : Type) where
  name : Bytes
  enabled : Bool
  rules : GrammarMatches := {}
  inspection : Option (Inspection Digest) := none
  loaded : Option Package := none
  loadError : Option GrammarError := none

/-- What a build and its surroundings fix. -/
structure Setup (Digest Language Package : Type) where
  sha : Sha256 Digest
  target : Target
  io : Io
  native : Native Digest Language Package
  overrides : List MatchOverride
  bbrIdentity : Bytes

variable (setup : Setup Digest Language Package)

def needsValidation (entry : RegistryEntry Digest) (inspection : Inspection Digest) : Bool :=
  entry.enabled && !entry.receipt.any
    (fun receipt => receipt.accepts setup.target inspection.report.digest setup.bbrIdentity)

/-- One turn of the loop over the entries. -/
def install (n : Nat) (entry : RegistryEntry Digest) (opened : Opened) :
    Opened × Except GrammarError (Installation Digest Package) :=
  let disabled : Installation Digest Package := { name := entry.name, enabled := false }
  match inspect setup.sha setup.target setup.io n entry.path with
  | .error e => (opened, if entry.enabled then .error e else .ok disabled)
  | .ok inspection =>
    if entry.name ≠ inspection.report.name ∨ entry.trustedDigest ≠ inspection.report.digest then
      (opened,
        if entry.enabled then
          if entry.name ≠ inspection.report.name then .error .userGrammarIdentityMismatch
          else .error .untrustedDigest
        else .ok disabled)
    else match effectiveRules entry.name inspection.report.rules setup.overrides with
      | .error e => (opened, .error e)
      | .ok rules =>
        let installation : Installation Digest Package :=
          { name := entry.name, enabled := entry.enabled, rules, inspection := some inspection }
        if needsValidation setup entry inspection then
          match validateTrusted setup.native setup.sha inspection
            (setup.sha.hex inspection.report.digest) opened with
          | (opened, .error e) => (opened, .error e)
          | (opened, .ok ()) => (opened, .ok installation)
        else (opened, .ok installation)

/-- The loop over the entries; a turn that fails ends it. -/
def installAll : Nat → List (RegistryEntry Digest) → Opened →
    Opened × Except GrammarError (List (Installation Digest Package))
  | _, [], opened => (opened, .ok [])
  | n, entry :: rest, opened => match install setup n entry opened with
    | (opened, .error e) => (opened, .error e)
    | (opened, .ok installation) => match installAll (n + 1) rest opened with
      | (opened, .error e) => (opened, .error e)
      | (opened, .ok installations) => (opened, .ok (installation :: installations))

/-- Two enabled installations whose rules overlap. -/
def conflicting : List (Installation Digest Package) → Bool
  | [] => false
  | left :: rest =>
    (left.enabled && rest.any (fun right => right.enabled && rulesOverlap left.rules right.rules)) ||
      conflicting rest

/-- Load an installation that is not loaded yet. -/
def load (installation : Installation Digest Package) (opened : Opened) :
    Opened × Installation Digest Package × Except GrammarError Package :=
  match installation.loadError with
  | some e => (opened, installation, .error e)
  | none => match installation.inspection with
    | none => (opened, installation, .error .invalidUserGrammarInstallation)
    | some inspection => match installation.loaded with
      | some package => (opened, installation, .ok package)
      | none => match openLanguage setup.native inspection opened with
        | (opened, .error e) => (opened, installation, .error e)
        | (opened, .ok language) =>
          if some (setup.native.abiVersion language) ≠ inspection.manifest.treeSitterAbi then
            (opened, installation, .error .treeSitterAbiMismatch)
          else match setup.native.package language inspection with
            | .error e => (opened, installation, .error e)
            | .ok package => (opened, { installation with loaded := some package }, .ok package)

/-- Load every enabled installation, and keep why one could not be. -/
def loadAll : List (Installation Digest Package) → Opened →
    Opened × List (Installation Digest Package)
  | [], opened => (opened, [])
  | installation :: rest, opened =>
    if installation.enabled then
      match load setup installation opened with
      | (opened, installation, result) =>
        let installation := match result with
          | .error e => { installation with loadError := some e }
          | .ok _ => installation
        let (opened, rest) := loadAll rest opened
        (opened, installation :: rest)
    else
      let (opened, rest) := loadAll rest opened
      (opened, installation :: rest)

def Registry.init (entries : List (RegistryEntry Digest)) :
    Opened × Except GrammarError (List (Installation Digest Package)) :=
  match installAll setup 0 entries [] with
  | (opened, .error e) => (opened, .error e)
  | (opened, .ok installations) =>
    if conflicting installations then (opened, .error .userGrammarConflict)
    else
      let (opened, installations) := loadAll setup installations opened
      (opened, .ok installations)

/-- The installation that a File selects: by the first kind of rule that any of them matches. -/
def select (installations : List (Installation Digest Package)) (path content : Bytes) :
    Option Nat :=
  matchKinds.findSome? (fun kind => installations.findIdx? (fun installation =>
    installation.enabled && matchesKind installation.rules kind path content))

def Registry.grammar (installations : List (Installation Digest Package)) (path content : Bytes)
    (opened : Opened) : Opened × List (Installation Digest Package) ×
      Except GrammarError (Option (Bytes × Package)) :=
  match select installations path content with
  | none => (opened, installations, .ok none)
  | some index => match installations[index]? with
    | none => (opened, installations, .ok none)
    | some installation => match load setup installation opened with
      | (opened, installation, result) =>
        (opened, installations.set index installation,
          result.map (fun package => some (installation.name, package)))

/-- One grammar after the other is asked for. -/
def Registry.grammars : List (Bytes × Bytes) → List (Installation Digest Package) → Opened →
    Opened × List (Installation Digest Package)
  | [], installations, opened => (opened, installations)
  | (path, content) :: rest, installations, opened =>
    match Registry.grammar setup installations path content opened with
    | (opened, installations, _) => Registry.grammars rest installations opened

/-- The libraries that a registry opens: while it is built, and for every File after that. -/
def opens (entries : List (RegistryEntry Digest)) (requests : List (Bytes × Bytes)) : Opened :=
  match Registry.init setup entries with
  | (opened, .error _) => opened
  | (opened, .ok installations) => (Registry.grammars setup requests installations opened).1

end Bbr.Highlight
