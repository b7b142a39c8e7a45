import Bbr.Diff.Path
import Bbr.Lib.Trims

/-!
# The credential file

Named profiles in a subset of TOML. Tables and keys that are not known are skipped, values over
several lines included. A file is its source text; where an error stands in it is left out.
-/
namespace Bbr.Bitbucket.Auth

open Bbr.Diff (ascii)
open Bbr.Lib (trimBoth trimEnd)

inductive AuthError where
  | invalidAuthFile
  | invalidProfileName
  | missingUsername
  | missingToken
  | missingWorkspace
  deriving DecidableEq, Repr

structure NamedProfile where
  name : Bytes
  username : Bytes := []
  token : Bytes := []
  workspace : Bytes := []
  deriving DecidableEq, Repr

structure AuthFile where
  activeProfile : Bytes
  profiles : List NamedProfile
  deriving DecidableEq, Repr

def AuthFile.find (self : AuthFile) (name : Bytes) : Option NamedProfile :=
  self.profiles.find? (fun p => p.name == name)

def defaultProfile : Bytes := ascii "default"

def maxProfileNameLen : Nat := 64

def maxAuthFileSize : Nat := 64 * 1024

def isAlphanumeric (c : UInt8) : Bool :=
  decide (0x41 ≤ c ∧ c ≤ 0x5a) || decide (0x61 ≤ c ∧ c ≤ 0x7a) || decide (0x30 ≤ c ∧ c ≤ 0x39)

def isValidProfileName (name : Bytes) : Bool :=
  match name with
  | [] => false
  | first :: rest => decide (name.length ≤ maxProfileNameLen) && isAlphanumeric first &&
      rest.all (fun c => isAlphanumeric c || c == 0x2d || c == 0x5f)

def newline : UInt8 := 0x0a
def carriageReturn : UInt8 := 0x0d
def doubleQuote : UInt8 := 0x22
def singleQuote : UInt8 := 0x27
def backslash : UInt8 := 0x5c
def hash : UInt8 := 0x23
def equals : UInt8 := 0x3d
def openBracket : UInt8 := 0x5b
def closeBracket : UInt8 := 0x5d

def isBlank (c : UInt8) : Bool := c == 0x20 || c == 0x09

def isForbiddenStringByte (c : UInt8) : Bool := (decide (c < 0x20) && c != 0x09) || c == 0x7f

/-- The bytes of a basic string up to its closing quote, which ends the text. -/
def unescape : Bytes → Option Bytes
  | [] => none
  | c :: rest =>
    if c = doubleQuote then if rest = [] then some [] else none
    else if c = backslash then
      match rest with
      | [] => none
      | d :: rest => if d = doubleQuote ∨ d = backslash then (unescape rest).map (d :: ·) else none
    else if isForbiddenStringByte c then none
    else (unescape rest).map (c :: ·)

def parseBasicString (raw : Bytes) : Option Bytes :=
  match raw with
  | [] => none
  | c :: rest => if c = doubleQuote then unescape rest else none

def escapeByte (c : UInt8) : Bytes :=
  if c = doubleQuote then [backslash, doubleQuote]
  else if c = backslash then [backslash, backslash] else [c]

def escapeInto (raw : Bytes) : Except AuthError Bytes :=
  if raw.any isForbiddenStringByte then .error .invalidAuthFile else .ok (raw.flatMap escapeByte)

/-- The text in front of a comment that stands outside a double-quoted string. -/
def beforeComment : Bool → Bool → Bytes → Option Bytes
  | _, _, [] => none
  | true, escaped, c :: rest =>
    (if escaped then beforeComment true false rest
      else if c = backslash then beforeComment true true rest
      else beforeComment (c != doubleQuote) false rest).map (c :: ·)
  | false, _, c :: rest =>
    if c = hash then some []
    else (beforeComment (c == doubleQuote) false rest).map (c :: ·)

def stripTrailingComment (line : Bytes) : Bytes :=
  match beforeComment false false line with
  | some before => trimEnd isBlank before
  | none => line

/-- The delimiters that are open: brackets, and a quote that may go on over lines. -/
structure Open where
  depth : Nat := 0
  quote : Option UInt8 := none
  multiline : Bool := false
  deriving DecidableEq, Repr

def startsTwice (c : UInt8) (rest : Bytes) : Bool := [c, c].isPrefixOf rest

/-- The delimiters of one line. A closing bracket that closes nothing is an error. -/
def scanDelimiters (state : Open) (raw : Bytes) : Option Open :=
  match raw with
  | [] => some state
  | c :: rest =>
    match state.quote with
    | some quote =>
      if quote = doubleQuote ∧ c = backslash then scanDelimiters state (rest.drop 1)
      else if c = quote then
        if !state.multiline then scanDelimiters { state with quote := none } rest
        else if startsTwice quote rest then
          scanDelimiters { state with quote := none, multiline := false }
            ((rest.drop 2).dropWhile (· == quote))
        else scanDelimiters state rest
      else scanDelimiters state rest
    | none =>
      if c = hash then some state
      else if c = doubleQuote ∨ c = singleQuote then
        if startsTwice c rest then
          scanDelimiters { state with quote := some c, multiline := true } (rest.drop 2)
        else scanDelimiters { state with quote := some c, multiline := false } rest
      else if c = openBracket ∨ c = 0x7b then
        scanDelimiters { state with depth := state.depth + 1 } rest
      else if c = closeBracket ∨ c = 0x7d then
        if state.depth = 0 then none else scanDelimiters { state with depth := state.depth - 1 } rest
      else scanDelimiters state rest
termination_by raw.length
decreasing_by
  all_goals simp only [List.length_cons, List.length_drop]
  all_goals try omega
  have := (List.dropWhile_suffix (fun c => c == quote) (l := rest.drop 2)).length_le
  rw [List.length_drop] at this
  omega

/-- The lines behind a value that begins with this text. -/
def skipUnknownValue (state : Open) (raw : Bytes) (lines : List Bytes) : Option (List Bytes) :=
  match scanDelimiters state raw with
  | none => none
  | some state =>
    if state.quote.isSome ∧ !state.multiline then none
    else if state.depth = 0 ∧ state.quote = none then some lines
    else match lines with
      | [] => none
      | next :: lines => skipUnknownValue state next lines

theorem skipUnknownValue_length {state : Open} {raw : Bytes} {lines rest : List Bytes}
    (h : skipUnknownValue state raw lines = some rest) : rest.length ≤ lines.length := by
  induction lines generalizing state raw with
  | nil =>
    rw [skipUnknownValue] at h
    split at h
    · cases h
    split at h
    · cases h
    split at h
    · cases h
      exact Nat.le_refl _
    · cases h
  | cons next lines ih =>
    rw [skipUnknownValue] at h
    split at h
    · cases h
    split at h
    · cases h
    split at h
    · cases h
      exact Nat.le_refl _
    · exact Nat.le_succ_of_le (ih h)

inductive Table where
  | topLevel
  | profile (index : Nat)
  | unknown
  deriving DecidableEq, Repr

/-- What the lines read so far have said. -/
structure State where
  active : Option Bytes := none
  profiles : List NamedProfile := []
  table : Table := .topLevel
  deriving DecidableEq, Repr

def findIndex (profiles : List NamedProfile) (name : Bytes) : Option Nat :=
  profiles.findIdx? (fun p => p.name == name)

def profilesPrefix : Bytes := ascii "profiles."

def keyUsername : Bytes := ascii "username"
def keyToken : Bytes := ascii "token"
def keyWorkspace : Bytes := ascii "workspace"
def keyActive : Bytes := ascii "active_profile"

/-- The table that a header opens; a profile is declared by its header. -/
def openTable (state : State) (header : Bytes) : Except AuthError State :=
  if profilesPrefix.isPrefixOf header then
    let name := trimBoth isBlank (header.drop profilesPrefix.length)
    if !isValidProfileName name then .error .invalidAuthFile
    else match findIndex state.profiles name with
      | some index => .ok { state with table := .profile index }
      | none => .ok { state with
          profiles := state.profiles ++ [{ name := name }]
          table := .profile state.profiles.length }
  else .ok { state with table := .unknown }

def Table.knows (table : Table) (key : Bytes) : Bool :=
  match table with
  | .topLevel => key == keyActive
  | .profile _ => key == keyUsername || key == keyToken || key == keyWorkspace
  | .unknown => false

def NamedProfile.set (p : NamedProfile) (key value : Bytes) : NamedProfile :=
  if key = keyUsername then { p with username := value }
  else if key = keyToken then { p with token := value } else { p with workspace := value }

/-- A known key gets its value, which is not empty. -/
def setKnown (state : State) (key value : Bytes) : Except AuthError State :=
  if value = [] then .error .invalidAuthFile
  else match state.table with
    | .topLevel =>
      if !isValidProfileName value then .error .invalidAuthFile
      else .ok { state with active := some value }
    | .profile index =>
      .ok { state with profiles := state.profiles.modify index (fun p => p.set key value) }
    | .unknown => .ok state

/-- A line without its end, and without blanks around it. -/
def contentOf (raw : Bytes) : Bytes :=
  trimBoth isBlank (if raw.getLast? = some carriageReturn then raw.dropLast else raw)

def parseLines (lines : List Bytes) (state : State) : Except AuthError State :=
  match lines with
  | [] => .ok state
  | raw :: rest =>
    let content := contentOf raw
    let line := stripTrailingComment content
    if line = [] ∨ line.head? = some hash then parseLines rest state
    else if line.head? = some openBracket then
      if line.getLast? ≠ some closeBracket then .error .invalidAuthFile
      else match openTable state (trimBoth isBlank (line.drop 1).dropLast) with
        | .error e => .error e
        | .ok state => parseLines rest state
    else match line.idxOf? equals with
      | none => if state.table = .unknown then parseLines rest state else .error .invalidAuthFile
      | some eq =>
        let key := trimBoth isBlank (line.take eq)
        if key = [] then .error .invalidAuthFile
        else if !state.table.knows key then
          match _h : skipUnknownValue {} (content.drop (eq + 1)) rest with
          | none => .error .invalidAuthFile
          | some after => parseLines after state
        else match parseBasicString (trimBoth isBlank (line.drop (eq + 1))) with
          | none => .error .invalidAuthFile
          | some value => match setKnown state key value with
            | .error e => .error e
            | .ok state => parseLines rest state
termination_by lines.length
decreasing_by
  all_goals simp only [List.length_cons]
  all_goals try omega
  have := skipUnknownValue_length _h
  omega

def parse (source : Bytes) : Except AuthError AuthFile := do
  let state ← parseLines (source.splitOn newline) {}
  return ⟨state.active.getD defaultProfile, state.profiles⟩

def writeField (key value : Bytes) : Except AuthError Bytes :=
  if value = [] then .ok []
  else do
    let escaped ← escapeInto value
    return key ++ ascii " = \"" ++ escaped ++ ascii "\"\n"

def writeProfile (p : NamedProfile) : Except AuthError Bytes :=
  if !isValidProfileName p.name then .error .invalidProfileName
  else do
    let username ← writeField keyUsername p.username
    let token ← writeField keyToken p.token
    let workspace ← writeField keyWorkspace p.workspace
    return ascii "\n[profiles." ++ p.name ++ ascii "]\n" ++ username ++ token ++ workspace

def serialize (activeProfile : Bytes) (profiles : List NamedProfile) : Except AuthError Bytes :=
  if !isValidProfileName activeProfile then .error .invalidProfileName
  else do
    let active ← escapeInto activeProfile
    let tables ← profiles.mapM writeProfile
    return ascii "active_profile = \"" ++ active ++ ascii "\"\n" ++ tables.flatten

/-- The source text on disk, if there is a file. -/
abbrev Disk := Option Bytes

def load (disk : Disk) : Except AuthError (Option AuthFile) :=
  match disk with
  | none => .ok none
  | some source =>
    if maxAuthFileSize < source.length then .error .invalidAuthFile
    else (parse source).map some

def save (activeProfile : Bytes) (profiles : List NamedProfile) : Except AuthError Disk := do
  let source ← serialize activeProfile profiles
  if maxAuthFileSize < source.length then .error .invalidAuthFile
  return some source

structure Credential where
  username : Bytes
  token : Bytes
  workspace : Bytes
  deriving DecidableEq, Repr

def Credential.profile (self : Credential) (name : Bytes) : NamedProfile :=
  ⟨name, self.username, self.token, self.workspace⟩

def AuthFile.others (self : AuthFile) (name : Bytes) : List NamedProfile :=
  self.profiles.filter (fun p => p.name != name)

def upsertProfile (name : Bytes) (creds : Credential) (disk : Disk) : Except AuthError Disk :=
  if !isValidProfileName name then .error .invalidProfileName
  else if creds.username = [] then .error .missingUsername
  else if creds.token = [] then .error .missingToken
  else if creds.workspace = [] then .error .missingWorkspace
  else do
    let loaded ← load disk
    save name (loaded.elim [] (fun file => file.others name) ++ [creds.profile name])

/-- Whether a profile was removed, and the file after it. -/
def removeProfile (name : Bytes) (disk : Disk) : Except AuthError (Bool × Disk) := do
  match ← load disk with
  | none => return (false, disk)
  | some file =>
    let views := file.others name
    if views.length = file.profiles.length then return (false, disk)
    match views with
    | [] => return (true, none)
    | first :: _ =>
      let active := if file.activeProfile = name then first.name else file.activeProfile
      let saved ← save active views
      return (true, saved)

end Bbr.Bitbucket.Auth
