import Bbr.Config.Logging
import Bbr.Tui.Keymap
import Mathlib.Algebra.Group.Nat.Defs

/-!
# The strict configuration

The parser of the whole file, which reports every line it does not understand, and the rewriting of
the theme.
-/
namespace Bbr.Tui.Config

open Bbr.Config
open Bbr.Diff (ascii parseInt)
open Tui.Keymap (Vaxis Override Binding KeymapError)

inductive ThemeId where
  | system | dark | light | catppuccinLatte | catppuccinFrappe | catppuccinMacchiato
  | catppuccinMocha | gruvboxLight | gruvboxDark | solarizedLight | solarizedDark
  deriving DecidableEq, Repr

namespace ThemeId

def name : ThemeId → Bytes
  | system => ascii "system"
  | dark => ascii "dark"
  | light => ascii "light"
  | catppuccinLatte => ascii "catppuccin-latte"
  | catppuccinFrappe => ascii "catppuccin-frappe"
  | catppuccinMacchiato => ascii "catppuccin-macchiato"
  | catppuccinMocha => ascii "catppuccin-mocha"
  | gruvboxLight => ascii "gruvbox-light"
  | gruvboxDark => ascii "gruvbox-dark"
  | solarizedLight => ascii "solarized-light"
  | solarizedDark => ascii "solarized-dark"

def all : List ThemeId := [system, dark, light, catppuccinLatte, catppuccinFrappe,
  catppuccinMacchiato, catppuccinMocha, gruvboxLight, gruvboxDark, solarizedLight, solarizedDark]

def fromName (text : Bytes) : Option ThemeId := all.find? (fun id => id.name == text)

theorem fromName_name (id : ThemeId) : fromName id.name = some id := by cases id <;> decide

end ThemeId

structure Diagnostic where
  line : Nat
  column : Nat
  message : String
  hint : Option String := none
  deriving DecidableEq, Repr

structure Configuration where
  theme : ThemeId
  keymap : List Binding
  highlightMaxFileBytes : Nat
  fileCacheEnabled : Bool
  inactiveFileCacheMaxBytes : Nat
  commentsCollapsedRows : Nat
  mouseEnabled : Bool
  mouseVerticalScrollRows : Nat
  externalEditMaxBytes : Nat

inductive Result where
  | ok (configuration : Configuration)
  | invalid (diagnostics : List Diagnostic)

inductive Section where
  | root | keymap | highlight | filesCache | comments | inputMouse | externalEdit | userGrammar
  | logging | unknown
  deriving DecidableEq, Repr

structure State where
  diagnostics : List Diagnostic := []
  overrides : List Override := []
  overrideLines : List Nat := []
  theme : ThemeId := .system
  themeSeen : Bool := false
  highlightMaxFileBytes : Nat := 2 * 1024 * 1024
  highlightLimitSeen : Bool := false
  fileCacheEnabled : Bool := true
  fileCacheEnabledSeen : Bool := false
  inactiveFileCacheMaxBytes : Nat := 256 * 1024 * 1024
  fileCacheLimitSeen : Bool := false
  commentsCollapsedRows : Nat := 9
  commentsCollapsedSeen : Bool := false
  mouseEnabled : Bool := true
  mouseEnabledSeen : Bool := false
  mouseVerticalScrollRows : Nat := 3
  mouseScrollSeen : Bool := false
  mouseScrollLine : Nat := 1
  externalEditMaxBytes : Nat := 1024 * 1024
  externalEditSeen : Bool := false
  externalEditLine : Nat := 1
  section_ : Section := .root

namespace State

def report (self : State) (line column : Nat) (message : String) (hint : Option String := none) :
    State :=
  { self with diagnostics := self.diagnostics ++ [⟨line, column, message, hint⟩] }

end State

def usizeLimit : Nat := 2 ^ 64

def tablesHint : String := "use [keymap], [highlight], [files.cache], [comments], [input.mouse], or [external_edit]"

def grammarsPrefix : Bytes := ascii "grammars."

def sectionNamed (name : Bytes) : Section :=
  if name = ascii "logging" then .logging
  else if name = ascii "keymap" then .keymap
  else if name = ascii "highlight" then .highlight
  else if name = ascii "files.cache" then .filesCache
  else if name = ascii "comments" then .comments
  else if name = ascii "input.mouse" then .inputMouse
  else if name = ascii "external_edit" then .externalEdit
  else if grammarsPrefix.isPrefixOf name ∧ grammarsPrefix.length < name.length then .userGrammar
  else .unknown

def readHeader (line : Nat) (parser : LineParser) (state : State) : State :=
  match parser.section_ with
  | .error e => { state.report line e.column "malformed table header" tablesHint with
      section_ := .unknown }
  | .ok (name, parser) =>
    let parser := parser.space
    let state := if parser.trailing then state
      else state.report line parser.column "unexpected text after table header"
    let state := { state with section_ := sectionNamed name }
    if state.section_ = .unknown then state.report line 2 "unknown table" tablesHint else state

def overrideMessage : KeymapError → String
  | .unknownAction => "unknown Action name"
  | .unknownKey => "unknown key name"
  | .sequenceTooLong => "key sequence exceeds eight chords"
  | .countConflict => "key sequence cannot begin with a Count digit"
  | _ => "invalid key sequence"

def overrideHint : KeymapError → Option String
  | .unknownAction => some "use an Action name shown in the Keybindings Overlay"
  | _ => none

def readKeymap (vaxis : Vaxis) (line : Nat) (key : Bytes) (parser : LineParser) (state : State) :
    State :=
  match parser.stringArray with
  | .error e => state.report line e.column "expected an array of quoted key chords"
      "use action_name = [\"key\", \"other-key\"] or [] to unbind"
  | .ok (sequences, parser) =>
    let parser := parser.space
    if !parser.trailing then state.report line parser.column "unexpected text after value"
    else if state.overrides.length = 256 then state.report line 1 "more than 256 Keymap entries"
    else if state.overrides.any (fun existing => existing.action == key) then
      state.report line 1 "duplicate Keymap Action" "keep exactly one chord list for each Action"
    else match Keymap.validateOverride vaxis ⟨key, sequences⟩ with
      | .error e => state.report line 1 (overrideMessage e) (overrideHint e)
      | .ok () => { state with
          overrides := state.overrides ++ [⟨key, sequences⟩]
          overrideLines := state.overrideLines ++ [line] }

def grammarKeys : List Bytes :=
  [ascii "filenames", ascii "compound_suffixes", ascii "extensions", ascii "shebangs"]

def readGrammar (line : Nat) (key : Bytes) (parser : LineParser) (state : State) : State :=
  if key ∉ grammarKeys then
    state.report line 1 "unknown UserGrammar key"
      "use filenames, compound_suffixes, extensions, or shebangs"
  else match parser.stringArray with
    | .error e =>
      state.report line e.column "expected a non-empty array of quoted GrammarMatch values"
    | .ok (values, parser) =>
      let state := if values = [] then state.report line 1 "GrammarMatch list cannot be empty"
        else state
      let parser := parser.space
      if parser.trailing then state
      else state.report line parser.column "unexpected text after value"

/-- The text of a value of the open table, or what was expected instead. -/
def readValue (table : Section) (key : Bytes) (parser : LineParser) :
    Except (Nat × String) (Bytes × LineParser) :=
  let expect (message : String) (reading : Except LineFailure (Bytes × LineParser)) :
      Except (Nat × String) (Bytes × LineParser) := reading.mapError (fun e => (e.column, message))
  match table with
  | .highlight | .comments | .externalEdit =>
    expect "expected a non-negative integer byte count" parser.unsigned
  | .filesCache =>
    if key = ascii "enabled" then expect "expected true or false" parser.boolean
    else expect "expected a non-negative integer byte count" parser.unsigned
  | .inputMouse =>
    if key = ascii "enabled" then expect "expected true or false" parser.boolean
    else expect "expected a positive row count" parser.unsigned
  | _ => expect "expected a quoted string value" parser.quoted

def assignRoot (line : Nat) (key value : Bytes) (state : State) : State :=
  if key = ascii "theme" then
    let state := if state.themeSeen then
        state.report line 1 "duplicate 'theme' key" "keep exactly one top-level theme entry"
      else match ThemeId.fromName value with
        | some id => { state with theme := id }
        | none => state.report line 1 "unknown Theme name"
            "use system, dark, light, Catppuccin, Gruvbox, or Solarized"
    { state with themeSeen := true }
  else state.report line 1 "unknown top-level key" "did you mean 'theme'?"

def assignHighlight (line : Nat) (key value : Bytes) (state : State) : State :=
  if key ≠ ascii "max_file_bytes" then
    state.report line 1 "unknown Highlighting key" "use max_file_bytes"
  else if state.highlightLimitSeen then
    state.report line 1 "duplicate 'max_file_bytes' key" "keep exactly one Highlighting limit"
  else match parseInt usizeLimit value with
    | none => { state.report line 1 "Highlighting byte limit is too large" with
        highlightLimitSeen := true }
    | some limit => { state with highlightMaxFileBytes := limit, highlightLimitSeen := true }

def assignFilesCache (line : Nat) (key value : Bytes) (state : State) : State :=
  if key = ascii "enabled" then
    let state := if state.fileCacheEnabledSeen then
        state.report line 1 "duplicate 'enabled' key" "keep exactly one File cache switch"
      else { state with fileCacheEnabled := decide (value = ascii "true") }
    { state with fileCacheEnabledSeen := true }
  else if key = ascii "max_bytes" then
    let state := if state.fileCacheLimitSeen then
        state.report line 1 "duplicate 'max_bytes' key" "keep exactly one File cache budget"
      else match parseInt usizeLimit value with
        | none => state.report line 1 "File cache byte budget is too large"
        | some limit => { state with inactiveFileCacheMaxBytes := limit }
    { state with fileCacheLimitSeen := true }
  else state.report line 1 "unknown File cache key" "use enabled or max_bytes"

def assignComments (line : Nat) (key value : Bytes) (state : State) : State :=
  if key ≠ ascii "collapsed_rows" then
    state.report line 1 "unknown Comments key" "use collapsed_rows"
  else if state.commentsCollapsedSeen then
    state.report line 1 "duplicate 'collapsed_rows' key" "keep exactly one Comment row limit"
  else match parseInt usizeLimit value with
    | none => { state.report line 1 "Comment row limit is too large" with
        commentsCollapsedSeen := true }
    | some rows => { state with commentsCollapsedRows := rows, commentsCollapsedSeen := true }

def assignInputMouse (line : Nat) (key value : Bytes) (state : State) : State :=
  if key = ascii "enabled" then
    let state := if state.mouseEnabledSeen then
        state.report line 1 "duplicate 'enabled' key" "keep exactly one mouse input switch"
      else { state with mouseEnabled := decide (value = ascii "true") }
    { state with mouseEnabledSeen := true }
  else if key = ascii "vertical_scroll_rows" then
    let state := if state.mouseScrollSeen then
        state.report line 1 "duplicate 'vertical_scroll_rows' key"
          "keep exactly one mouse scroll row count"
      else
        let state := { state with mouseScrollLine := line }
        match parseInt usizeLimit value with
        | none => state.report line 1 "mouse scroll row count is too large"
        | some rows => { state with mouseVerticalScrollRows := rows }
    { state with mouseScrollSeen := true }
  else state.report line 1 "unknown Mouse input key" "use enabled or vertical_scroll_rows"

def assignExternalEdit (line : Nat) (key value : Bytes) (state : State) : State :=
  if key ≠ ascii "max_bytes" then
    state.report line 1 "unknown External Edit key" "use max_bytes"
  else if state.externalEditSeen then
    state.report line 1 "duplicate 'max_bytes' key" "keep exactly one External Edit limit"
  else
    let state := { state with externalEditLine := line, externalEditSeen := true }
    match parseInt usizeLimit value with
    | none => state.report line 1 "External Edit byte limit is too large"
    | some limit => { state with externalEditMaxBytes := limit }

def assign (line : Nat) (key value : Bytes) (state : State) : State :=
  match state.section_ with
  | .root => assignRoot line key value state
  | .highlight => assignHighlight line key value state
  | .filesCache => assignFilesCache line key value state
  | .comments => assignComments line key value state
  | .inputMouse => assignInputMouse line key value state
  | .externalEdit => assignExternalEdit line key value state
  | _ => state

def readEntry (vaxis : Vaxis) (line : Nat) (key : Bytes) (parser : LineParser) (state : State) :
    State :=
  if state.section_ = .keymap then readKeymap vaxis line key parser state
  else if state.section_ = .userGrammar then readGrammar line key parser state
  else match readValue state.section_ key parser with
    | .error e => state.report line e.1 e.2
    | .ok (value, parser) =>
      let parser := parser.space
      if !parser.trailing then state.report line parser.column "unexpected text after value"
      else assign line key value state

def readLine (vaxis : Vaxis) (line : Nat) (raw : Bytes) (state : State) : State :=
  let parser := LineParser.space { text := raw }
  if parser.trailing then state
  else if parser.text.head? = some openBracket then readHeader line parser state
  else if state.section_ = .logging then state
  else match parser.key with
    | .error e => state.report line e.column "expected a key"
    | .ok (key, parser) =>
      let parser := parser.space
      match parser.take equals with
      | none => state.report line parser.column "expected '=' after key"
      | some parser => readEntry vaxis line key parser.space state

def readLines (vaxis : Vaxis) : Nat → List Bytes → State → State
  | _, [], state => state
  | line, raw :: lines, state => readLines vaxis (line + 1) lines (readLine vaxis line raw state)

def tooLargeDiagnostics : List Diagnostic :=
  [⟨1, 1, "configuration exceeds 64 KiB", some "remove unused entries or comments"⟩]

def State.start (source : Bytes) : State :=
  match Logging.parse source with
  | .enabled _ => {}
  | .invalid line => State.report {} line 1 "invalid logging setting"
      "use one [logging] table with enabled = true or false"

/-- The checks behind the last line. -/
def State.limits (self : State) : State :=
  let self := if self.mouseVerticalScrollRows = 0 then
      self.report self.mouseScrollLine 1 "mouse vertical scroll rows must be greater than zero"
        "use enabled = false to disable mouse input"
    else self
  if self.externalEditMaxBytes = 0 then
    self.report self.externalEditLine 1 "External Edit max_bytes must be greater than zero"
      "use a positive local returned-file limit"
  else self

def keymapMessage : KeymapError → String
  | .prefixConflict => "a key sequence is the prefix of another binding"
  | .ambiguousContext => "a Keymap chord is ambiguous in one Interaction Context"
  | _ => "Keymap could not be materialized"

def State.configuration (self : State) (keymap : List Binding) : Configuration where
  theme := self.theme
  keymap := keymap
  highlightMaxFileBytes := self.highlightMaxFileBytes
  fileCacheEnabled := self.fileCacheEnabled
  inactiveFileCacheMaxBytes := self.inactiveFileCacheMaxBytes
  commentsCollapsedRows := self.commentsCollapsedRows
  mouseEnabled := self.mouseEnabled
  mouseVerticalScrollRows := self.mouseVerticalScrollRows
  externalEditMaxBytes := self.externalEditMaxBytes

def State.finish (vaxis : Vaxis) (self : State) : Result :=
  match Keymap.fromOverrides vaxis self.overrides with
  | .error e => .invalid (self.report (self.overrideLines.getLast?.getD 1) 1 (keymapMessage e)
      "remove one binding, unbind the conflicting default, or choose distinct prefixes").diagnostics
  | .ok keymap =>
    if self.diagnostics ≠ [] then .invalid self.diagnostics else .ok (self.configuration keymap)

def parse (vaxis : Vaxis) (source : Bytes) : Result :=
  if 64 * 1024 < source.length then .invalid tooLargeDiagnostics
  else ((readLines vaxis 1 (source.splitOn newline) (State.start source)).limits).finish vaxis

/-- The text of a line in front of the value of its theme key, and the value. -/
def themeValue (line : Bytes) : Option (Nat × Bytes) :=
  match (LineParser.space { text := line }).key with
  | .error _ => none
  | .ok (key, parser) =>
    if key ≠ ascii "theme" then none
    else match parser.space.take equals with
      | none => none
      | some parser => match parser.space.quoted with
        | .error _ => none
        | .ok (value, _) => some (parser.space.pos + 1, value)

/-- What to rewrite: a value by its offset and length, or nothing and a line is added there. -/
inductive Spot where
  | value (start length : Nat)
  | insert (start : Nat)
  deriving DecidableEq, Repr

def themeSpot (size lineStart : Nat) : List Bytes → Spot
  | [] => .insert size
  | line :: lines =>
    if size ≤ lineStart then .insert size
    else
      let parser := LineParser.space { text := line }
      if parser.text.head? = some openBracket then .insert lineStart
      else match if parser.trailing then none else themeValue line with
        | some (start, value) => .value (lineStart + start) value.length
        | none => themeSpot size (lineStart + line.length + 1) lines

def rewriteAt (source name : Bytes) : Spot → Bytes
  | .value start length => source.take start ++ name ++ source.drop (start + length)
  | .insert start =>
    let separator :=
      if start = source.length ∧ 0 < source.length ∧ source.getLast? ≠ some newline then [newline]
      else []
    source.take start ++ separator ++ ascii "theme = \"" ++ name ++ ascii "\"\n" ++
      source.drop start

def rewriteTheme (source name : Bytes) : Bytes :=
  rewriteAt source name (themeSpot source.length 0 (source.splitOn newline))

end Bbr.Tui.Config
