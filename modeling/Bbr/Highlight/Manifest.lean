import Bbr.Highlight.Bundle

/-!
# Manifests

The manifest of a bundle names the grammar, its native library and queries, the payloads with their
digests and the Files that the grammar matches.
-/
namespace Bbr.Highlight

open Bbr.Diff (ascii u32Limit usizeLimit)

structure GrammarMatches where
  filenames : List Bytes := []
  compoundSuffixes : List Bytes := []
  extensions : List Bytes := []
  shebangs : List Bytes := []
  deriving DecidableEq, Repr

structure Payload (Digest : Type) where
  path : Bytes
  sha256 : Digest

/-- A payload while its section is read. -/
structure PayloadFields (Digest : Type) where
  path : Option Bytes := none
  sha256 : Option Digest := none

structure Manifest (Digest : Type) where
  name : Bytes := []
  version : Bytes := []
  os : Bytes := []
  arch : Bytes := []
  treeSitterAbi : Option Nat := none
  symbol : Bytes := []
  library : Bytes := []
  highlightQuery : Bytes := []
  localsQuery : Option Bytes := none
  payloads : List (Payload Digest) := []
  rules : GrammarMatches := {}

/-- What the build of the program runs on. -/
structure Target where
  os : Bytes
  arch : Bytes
  minAbi : Nat
  maxAbi : Nat

def manifestName : Bytes := ascii "grammar.toml"

def newline : UInt8 := 0x0a
def doubleQuote : UInt8 := 0x22

def blanks : Bytes := [0x20, 0x09]

def isAlphabetic (b : UInt8) : Bool :=
  decide (0x41 ≤ b ∧ b ≤ 0x5a) || decide (0x61 ≤ b ∧ b ≤ 0x7a)

def isDigit (b : UInt8) : Bool := decide (0x30 ≤ b ∧ b ≤ 0x39)

def isAlphanumeric (b : UInt8) : Bool := isAlphabetic b || isDigit b

/-- The codepoints of a text in UTF-8. -/
def codepoints (text : Bytes) : Option (List Nat) :=
  (String.fromUTF8? ⟨text.toArray⟩).map (fun s => s.toList.map Char.toNat)

def parseString (raw : Bytes) : Except GrammarError Bytes :=
  if raw.length < 2 ∨ raw.head? ≠ some doubleQuote ∨ raw.getLast? ≠ some doubleQuote then
    .error .invalidManifest
  else
    let value := (raw.drop 1).dropLast
    if value.any (fun b => b = 0x5c ∨ b = newline ∨ b = 0x0d) then .error .invalidManifest
    else .ok value

def parseStrings : List Bytes → Except GrammarError (List Bytes)
  | [] => .ok []
  | part :: rest =>
    let value := trim blanks part
    if value = [] then .error .invalidManifest
    else do
      let text ← parseString value
      let texts ← parseStrings rest
      return text :: texts

def parseStringArray (raw : Bytes) (output : List Bytes) : Except GrammarError (List Bytes) :=
  if output ≠ [] ∨ raw.length < 2 ∨ raw.head? ≠ some 0x5b ∨ raw.getLast? ≠ some 0x5d then
    .error .invalidManifest
  else
    let body := trim blanks ((raw.drop 1).dropLast)
    if body = [] then .ok output else parseStrings (body.splitOn 0x2c)

variable {Digest : Type} (sha : Sha256 Digest)

def parseDigest (hex : Bytes) : Except GrammarError Digest :=
  if hex.length ≠ 64 then .error .invalidDigest
  else match sha.hexToBytes hex with
    | some digest => .ok digest
    | none => .error .invalidDigest

/-- Set a field that has no text yet. -/
def setOnce (old value : Bytes) (set : Bytes → Manifest Digest) :
    Except GrammarError (Manifest Digest) :=
  if old ≠ [] then .error .duplicateManifestField else .ok (set value)

def setRootField (manifest : Manifest Digest) (key raw : Bytes) :
    Except GrammarError (Manifest Digest) :=
  if key = ascii "tree_sitter_abi" then
    if manifest.treeSitterAbi ≠ none then .error .duplicateManifestField
    else match Diff.parseInt u32Limit raw with
      | some abi => .ok { manifest with treeSitterAbi := some abi }
      | none => .error .invalidManifest
  else do
    let value ← parseString raw
    if key = ascii "name" then setOnce manifest.name value (fun v => { manifest with name := v })
    else if key = ascii "version" then
      setOnce manifest.version value (fun v => { manifest with version := v })
    else if key = ascii "os" then setOnce manifest.os value (fun v => { manifest with os := v })
    else if key = ascii "arch" then
      setOnce manifest.arch value (fun v => { manifest with arch := v })
    else if key = ascii "symbol" then
      setOnce manifest.symbol value (fun v => { manifest with symbol := v })
    else if key = ascii "library" then
      setOnce manifest.library value (fun v => { manifest with library := v })
    else if key = ascii "highlight_query" then
      setOnce manifest.highlightQuery value (fun v => { manifest with highlightQuery := v })
    else if key = ascii "locals_query" then
      if manifest.localsQuery ≠ none then .error .duplicateManifestField
      else .ok { manifest with localsQuery := some value }
    else .error .unknownManifestField

def setPayloadField (payload : PayloadFields Digest) (key value : Bytes) :
    Except GrammarError (PayloadFields Digest) :=
  if key = ascii "path" then
    if payload.path ≠ none then .error .duplicateManifestField
    else do
      let path ← parseString value
      return { payload with path := some path }
  else if key = ascii "sha256" then
    if payload.sha256.isSome then .error .duplicateManifestField
    else do
      let text ← parseString value
      let digest ← parseDigest sha text
      return { payload with sha256 := some digest }
  else .error .unknownManifestField

def setMatchField (rules : GrammarMatches) (key value : Bytes) :
    Except GrammarError GrammarMatches :=
  if key = ascii "filenames" then do
    let texts ← parseStringArray value rules.filenames
    return { rules with filenames := texts }
  else if key = ascii "compound_suffixes" then do
    let texts ← parseStringArray value rules.compoundSuffixes
    return { rules with compoundSuffixes := texts }
  else if key = ascii "extensions" then do
    let texts ← parseStringArray value rules.extensions
    return { rules with extensions := texts }
  else if key = ascii "shebangs" then do
    let texts ← parseStringArray value rules.shebangs
    return { rules with shebangs := texts }
  else .error .unknownManifestField

inductive Section where
  | root
  | payload
  | matches
  deriving DecidableEq, Repr

structure ManifestParser (Digest : Type) where
  manifest : Manifest Digest := {}
  payloads : List (PayloadFields Digest) := []
  rules : GrammarMatches := {}
  rootFields : List Bytes := []
  matchFields : List Bytes := []
  sect : Section := .root

def parseField (parser : ManifestParser Digest) (key value : Bytes) :
    Except GrammarError (ManifestParser Digest) :=
  match parser.sect with
  | .root =>
    if parser.rootFields.contains key then .error .duplicateManifestField
    else do
      let manifest ← setRootField parser.manifest key value
      return { parser with manifest, rootFields := key :: parser.rootFields }
  | .payload => match parser.payloads.getLast? with
    | none => .error .invalidManifest
    | some payload => do
      let payload ← setPayloadField sha payload key value
      return { parser with payloads := parser.payloads.dropLast ++ [payload] }
  | .matches =>
    if parser.matchFields.contains key then .error .duplicateManifestField
    else do
      let rules ← setMatchField parser.rules key value
      return { parser with rules, matchFields := key :: parser.matchFields }

def parseManifestLine (parser : ManifestParser Digest) (rawLine : Bytes) :
    Except GrammarError (ManifestParser Digest) :=
  let line := trim [0x20, 0x09, 0x0d] rawLine
  if line = [] ∨ line.head? = some 0x23 then .ok parser
  else if line = ascii "[[payload]]" then
    .ok { parser with sect := .payload, payloads := parser.payloads ++ [{}] }
  else if line = ascii "[matches]" then .ok { parser with sect := .matches }
  else if 0x3d ∉ line then .error .invalidManifest
  else
    parseField sha parser (trim blanks (line.takeWhile (· ≠ 0x3d)))
      (trim blanks ((line.dropWhile (· ≠ 0x3d)).drop 1))

def parseManifestLines (parser : ManifestParser Digest) :
    List Bytes → Except GrammarError (ManifestParser Digest)
  | [] => .ok parser
  | line :: rest => do
    let parser ← parseManifestLine sha parser line
    parseManifestLines parser rest

/-- A payload with both of its fields. -/
def finishPayload (payload : PayloadFields Digest) : Except GrammarError (Payload Digest) :=
  match payload.path, payload.sha256 with
  | some path, some sha256 => if path = [] then .error .invalidManifest else .ok ⟨path, sha256⟩
  | _, _ => .error .invalidManifest

def finishPayloads : List (PayloadFields Digest) → Except GrammarError (List (Payload Digest))
  | [] => .ok []
  | payload :: rest => do
    let payload ← finishPayload payload
    let payloads ← finishPayloads rest
    return payload :: payloads

def parseManifest (source : Bytes) : Except GrammarError (Manifest Digest) :=
  if codepoints source = none then .error .invalidManifest
  else do
    let parser ← parseManifestLines sha {} (source.splitOn newline)
    let payloads ← finishPayloads parser.payloads
    return { parser.manifest with payloads, rules := parser.rules }

def validName (name : Bytes) : Bool :=
  name ≠ [] && name.all (fun b => isAlphanumeric b || b = 0x2d || b = 0x5f)

def validSymbol (symbol : Bytes) : Bool :=
  match symbol with
  | [] => false
  | first :: rest =>
    (isAlphabetic first || first = 0x5f) && rest.all (fun b => isAlphanumeric b || b = 0x5f)

/-- A number of a version, without leading zeroes. -/
def versionNumber (text : Bytes) : Bool :=
  !(decide (1 < text.length) && text.head? = some 0x30) &&
    ((Diff.parseMagnitude text).filter (fun n => decide (n < usizeLimit))).isSome

def versionIdentifier (text : Bytes) : Bool :=
  text ≠ [] && text.all (fun b => isAlphanumeric b || b = 0x2d)

/-- The standard library's reading of a semantic version. -/
def semanticVersion (text : Bytes) : Bool :=
  let required := text.takeWhile (fun b => b ≠ 0x2d && b ≠ 0x2b)
  let extra := text.dropWhile (fun b => b ≠ 0x2d && b ≠ 0x2b)
  let numbers := required.splitOn dot
  let pre := if extra.head? = some 0x2d then some (extra.tail.takeWhile (· ≠ 0x2b)) else none
  let build := if 0x2b ∈ extra then some ((extra.dropWhile (· ≠ 0x2b)).drop 1) else none
  decide (numbers.length = 3) && numbers.all versionNumber &&
    pre.all (fun pre => (pre.splitOn dot).all (fun identifier =>
      versionIdentifier identifier && (!identifier.all isDigit || versionNumber identifier))) &&
    build.all (fun build => (build.splitOn dot).all versionIdentifier)

inductive RuleKind where
  | filename
  | compound
  | extension
  | shebang
  deriving DecidableEq, Repr

/-- The last component of a path. -/
def basename (path : Bytes) : Bytes :=
  ((path.reverse.dropWhile (· = slash)).takeWhile (· ≠ slash)).reverse

/-- From the last dot of the last component, unless it begins with it. -/
def extension (path : Bytes) : Bytes :=
  let filename := basename path
  let stem := filename.reverse.dropWhile (· ≠ dot)
  if stem.length ≤ 1 then [] else filename.drop (stem.length - 1)

def terminalControl (codepoint : Nat) : Bool :=
  decide (codepoint ≤ 0x1f) || decide (0x7f ≤ codepoint ∧ codepoint ≤ 0x9f) ||
    decide (0x202a ≤ codepoint ∧ codepoint ≤ 0x202e) ||
    decide (0x2066 ≤ codepoint ∧ codepoint ≤ 0x2069)

def hasTerminalControl (value : Bytes) : Bool :=
  match codepoints value with
  | none => true
  | some points => points.any terminalControl

def validRule (kind : RuleKind) (rule : Bytes) : Bool :=
  match kind with
  | .filename => decide ((basename rule).length = rule.length)
  | .compound => rule.head? = some dot && decide (2 ≤ rule.count dot)
  | .extension => rule.head? = some dot && decide (rule.count dot = 1)
  | .shebang => (ascii "#!").isPrefixOf rule

def validateRuleList (kind : RuleKind) : List Bytes → List Bytes → Except GrammarError Unit
  | _, [] => .ok ()
  | previous, rule :: rest =>
    if rule = [] ∨ codepoints rule = none ∨ 0 ∈ rule then .error .invalidGrammarMatch
    else if hasTerminalControl rule then .error .invalidGrammarMatch
    else if !validRule kind rule then .error .invalidGrammarMatch
    else if previous.contains rule then .error .duplicateGrammarMatch
    else validateRuleList kind (previous ++ [rule]) rest

def validateRules (rules : GrammarMatches) : Except GrammarError Unit := do
  validateRuleList .filename [] rules.filenames
  validateRuleList .compound [] rules.compoundSuffixes
  validateRuleList .extension [] rules.extensions
  validateRuleList .shebang [] rules.shebangs
  if rules.filenames.length + rules.compoundSuffixes.length + rules.extensions.length +
      rules.shebangs.length = 0 then
    .error .missingGrammarMatch
  else .ok ()

def validateManifest (target : Target) (manifest : Manifest Digest) : Except GrammarError Unit :=
  if !validName manifest.name ∨ manifest.version = [] ∨ !validSymbol manifest.symbol then
    .error .invalidGrammarIdentity
  else if !semanticVersion manifest.version then .error .invalidGrammarVersion
  else if manifest.os ≠ target.os ∨ manifest.arch ≠ target.arch then .error .targetMismatch
  else match manifest.treeSitterAbi with
    | none => .error .invalidManifest
    | some abi =>
      if manifest.library = [] ∨ manifest.highlightQuery = [] then .error .invalidManifest
      else if abi < target.minAbi ∨ target.maxAbi < abi then .error .treeSitterAbiMismatch
      else if !safePath manifest.library ∨ !safePath manifest.highlightQuery ∨
          manifest.localsQuery.any (fun path => !safePath path) then .error .unsafePath
      else if manifest.payloads.isEmpty then .error .invalidManifest
      else validateRules manifest.rules

def isPayload (manifest : Manifest Digest) (path : Bytes) : Bool :=
  manifest.payloads.any (fun payload => payload.path = path)

def validatePayloads [DecidableEq Digest] (files : List File) :
    List Bytes → List (Payload Digest) → Except GrammarError Unit
  | _, [] => .ok ()
  | previous, payload :: rest =>
    if !safePath payload.path ∨ payload.path = manifestName then .error .unsafePath
    else if previous.contains payload.path then .error .duplicatePayload
    else match findFile files payload.path with
      | none => .error .missingPayload
      | some file =>
        if sha.hash file.bytes.1 ≠ payload.sha256 then .error .payloadDigestMismatch
        else validatePayloads files (previous ++ [payload.path]) rest

def validateFiles [DecidableEq Digest] (manifest : Manifest Digest) (files : List File) :
    Except GrammarError Unit :=
  if files.length ≠ manifest.payloads.length + 1 then .error .undeclaredFile
  else match validatePayloads sha files [] manifest.payloads with
    | .error e => .error e
    | .ok () =>
      if !isPayload manifest manifest.library ∨ !isPayload manifest manifest.highlightQuery ∨
          manifest.localsQuery.any (fun path => !isPayload manifest path) then
        .error .undeclaredPayloadRole
      else if files.any (fun file =>
          file.path.1 ≠ manifestName && !isPayload manifest file.path.1) then .error .undeclaredFile
      else .ok ()

end Bbr.Highlight
