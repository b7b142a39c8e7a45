import Bbr.Diff.Parser
import Bbr.Lib.Codes

/-!
# Keymap

The bindings of the viewer and the Resolver that turns key strokes into Actions. The codes of the
keys without a character come from the terminal library.
-/
namespace Bbr.Tui.Keymap

open Bbr.Diff (ascii parseInt)

inductive Action where
  | down | up | left | right | halfPageDown | halfPageUp | pageDown | pageUp | toTop | toBottom
  | center | scrollCursorTop | scrollCursorBottom | cursorViewTop | cursorViewMiddle
  | cursorViewBottom | scrollRowUp | scrollRowDown | selectDown | selectUp | quit | openFileFinder
  | openBufferSearch | openReviewSearch | nextReviewSearchOccurrence
  | previousReviewSearchOccurrence | openSearchOccurrence | nextSearchOccurrence
  | previousSearchOccurrence | openPullRequestPicker | openCommandPalette | openThemeOverlay
  | toggleDiagnosticLogging | refresh | inlineComment | fileComment | reviewComment | suggest
  | reply | editReviewItem | externalEdit | reanchorReviewItem | deleteReviewItem
  | setVerdictApproved | setVerdictChangesRequested | setVerdictNone | submit | recoverSubmission
  | resolveUnpublished | linkExistingComment | help | toggleSelect | clearSelection | toggleLayout
  | cycleScope | selectOldVersion | selectNewVersion | isolate | nextFile | prevFile
  | toggleDisclosure | toggleReviewCard | toggleDirectory | focusFile | confirmPicker | yank
  | focusNextPane
  deriving DecidableEq, Repr

inductive InteractionContext where
  | diff | diffSource | diffDisclosure | diffReviewCard | bufferSearchInput | reviewSearch
  | sidebar | sidebarDirectory | sidebarFile | fileFinder | pullRequestPicker | commandPalette
  | themeOverlay | composer | help | unknownResolution | deleteConfirmation
  deriving DecidableEq, Repr

/-- The Actions under their tag names, in the order of the enumeration. -/
def actionNames : List (String × Action) := [
  ("down", .down), ("up", .up), ("left", .left), ("right", .right),
  ("half_page_down", .halfPageDown), ("half_page_up", .halfPageUp), ("page_down", .pageDown),
  ("page_up", .pageUp), ("to_top", .toTop), ("to_bottom", .toBottom), ("center", .center),
  ("scroll_cursor_top", .scrollCursorTop), ("scroll_cursor_bottom", .scrollCursorBottom),
  ("cursor_view_top", .cursorViewTop), ("cursor_view_middle", .cursorViewMiddle),
  ("cursor_view_bottom", .cursorViewBottom), ("scroll_row_up", .scrollRowUp),
  ("scroll_row_down", .scrollRowDown), ("select_down", .selectDown), ("select_up", .selectUp),
  ("quit", .quit), ("open_file_finder", .openFileFinder),
  ("open_buffer_search", .openBufferSearch), ("open_review_search", .openReviewSearch),
  ("next_review_search_occurrence", .nextReviewSearchOccurrence),
  ("previous_review_search_occurrence", .previousReviewSearchOccurrence),
  ("open_search_occurrence", .openSearchOccurrence),
  ("next_search_occurrence", .nextSearchOccurrence),
  ("previous_search_occurrence", .previousSearchOccurrence),
  ("open_pull_request_picker", .openPullRequestPicker),
  ("open_command_palette", .openCommandPalette), ("open_theme_overlay", .openThemeOverlay),
  ("toggle_diagnostic_logging", .toggleDiagnosticLogging), ("refresh", .refresh),
  ("inline_comment", .inlineComment), ("file_comment", .fileComment),
  ("review_comment", .reviewComment), ("suggest", .suggest), ("reply", .reply),
  ("edit_review_item", .editReviewItem), ("external_edit", .externalEdit),
  ("reanchor_review_item", .reanchorReviewItem), ("delete_review_item", .deleteReviewItem),
  ("set_verdict_approved", .setVerdictApproved),
  ("set_verdict_changes_requested", .setVerdictChangesRequested),
  ("set_verdict_none", .setVerdictNone), ("submit", .submit),
  ("recover_submission", .recoverSubmission), ("resolve_unpublished", .resolveUnpublished),
  ("link_existing_comment", .linkExistingComment), ("help", .help),
  ("toggle_select", .toggleSelect), ("clear_selection", .clearSelection),
  ("toggle_layout", .toggleLayout), ("cycle_scope", .cycleScope),
  ("select_old_version", .selectOldVersion), ("select_new_version", .selectNewVersion),
  ("isolate", .isolate), ("next_file", .nextFile), ("prev_file", .prevFile),
  ("toggle_disclosure", .toggleDisclosure), ("toggle_review_card", .toggleReviewCard),
  ("toggle_directory", .toggleDirectory), ("focus_file", .focusFile),
  ("confirm_picker", .confirmPicker), ("yank", .yank), ("focus_next_pane", .focusNextPane)]

def contexts : List InteractionContext := [
  .diff, .diffSource, .diffDisclosure, .diffReviewCard, .bufferSearchInput, .reviewSearch,
  .sidebar, .sidebarDirectory, .sidebarFile, .fileFinder, .pullRequestPicker, .commandPalette,
  .themeOverlay, .composer, .help, .unknownResolution, .deleteConfirmation]

structure Modifiers where
  shift : Bool := false
  alt : Bool := false
  ctrl : Bool := false
  super : Bool := false
  hyper : Bool := false
  meta_ : Bool := false
  deriving DecidableEq, Repr

structure KeyStroke where
  codepoint : Nat
  text : Option Bytes := none
  mods : Modifiers := {}

structure Stroke where
  cp : Nat
  mods : Modifiers := {}
  deriving DecidableEq, Repr

/-- The codes of the terminal library. -/
structure Vaxis where
  escape : Nat
  enter : Nat
  tab : Nat
  backspace : Nat
  up : Nat
  down : Nat
  left : Nat
  right : Nat
  home : Nat
  end_ : Nat
  pageUp : Nat
  pageDown : Nat
  delete : Nat
  insert : Nat
  f1 : Nat

def KeyStroke.matches (self : KeyStroke) (codepoint : Nat) (modifiers : Modifiers) : Bool :=
  self.codepoint == codepoint && self.mods == modifiers

/-- A bounded sequence of strokes. -/
structure Chord where
  strokes : List Stroke
  nonempty : strokes ≠ []
  bounded : strokes.length ≤ 8
  deriving DecidableEq

namespace Chord

def modified (cp : Nat) (mods : Modifiers) : Chord where
  strokes := [⟨cp, mods⟩]
  nonempty := List.cons_ne_nil _ _
  bounded := by simp

def one (cp : Nat) : Chord := modified cp {}

def two (first second : Nat) : Chord where
  strokes := [⟨first, {}⟩, ⟨second, {}⟩]
  nonempty := List.cons_ne_nil _ _
  bounded := by simp

end Chord

structure Binding where
  chord : Chord
  action : Action
  help : String

def key (c : Char) : Nat := c.toNat

def defaultBindings (vaxis : Vaxis) : List Binding := [
  ⟨.one (key 'j'), .down, "down"⟩,
  ⟨.one vaxis.down, .down, "down"⟩,
  ⟨.one (key 'k'), .up, "up"⟩,
  ⟨.one vaxis.up, .up, "up"⟩,
  ⟨.one (key 'h'), .left, "collapse / parent"⟩,
  ⟨.one vaxis.left, .left, "collapse / parent"⟩,
  ⟨.one (key 'l'), .right, "expand / child"⟩,
  ⟨.one vaxis.right, .right, "expand / child"⟩,
  ⟨.modified (key 'd') { ctrl := true }, .halfPageDown, "half page down"⟩,
  ⟨.one vaxis.pageDown, .halfPageDown, "half page down"⟩,
  ⟨.modified (key 'u') { ctrl := true }, .halfPageUp, "half page up"⟩,
  ⟨.one vaxis.pageUp, .halfPageUp, "half page up"⟩,
  ⟨.modified (key 'f') { ctrl := true }, .pageDown, "page down"⟩,
  ⟨.modified (key 'b') { ctrl := true }, .pageUp, "page up"⟩,
  ⟨.modified (key 'y') { ctrl := true }, .scrollRowUp, "scroll one row up"⟩,
  ⟨.modified (key 'e') { ctrl := true }, .scrollRowDown, "scroll one row down"⟩,
  ⟨.two (key 'g') (key 'g'), .toTop, "go to top"⟩,
  ⟨.one vaxis.home, .toTop, "go to top"⟩,
  ⟨.one (key 'G'), .toBottom, "go to bottom"⟩,
  ⟨.one vaxis.end_, .toBottom, "go to bottom"⟩,
  ⟨.two (key 'z') (key 'z'), .center, "center cursor"⟩,
  ⟨.two (key 'z') (key 't'), .scrollCursorTop, "cursor to viewport top"⟩,
  ⟨.two (key 'z') (key 'b'), .scrollCursorBottom, "cursor to viewport bottom"⟩,
  ⟨.one (key 'H'), .cursorViewTop, "top of viewport"⟩,
  ⟨.one (key 'M'), .cursorViewMiddle, "middle of viewport"⟩,
  ⟨.one (key 'L'), .cursorViewBottom, "bottom of viewport"⟩,
  ⟨.modified vaxis.down { shift := true }, .selectDown, "extend selection down"⟩,
  ⟨.modified vaxis.up { shift := true }, .selectUp, "extend selection up"⟩,
  ⟨.one (key 'q'), .quit, "quit"⟩,
  ⟨.modified (key 'c') { ctrl := true }, .quit, "quit"⟩,
  ⟨.one (key 'F'), .openFileFinder, "open File finder"⟩,
  ⟨.one (key '/'), .openBufferSearch, "search Buffer"⟩,
  ⟨.two (key 'g') (key 'f'), .openReviewSearch, "search Review"⟩,
  ⟨.one vaxis.down, .nextReviewSearchOccurrence, "next Review Search Occurrence"⟩,
  ⟨.modified (key 'n') { ctrl := true }, .nextReviewSearchOccurrence,
    "next Review Search Occurrence"⟩,
  ⟨.one vaxis.up, .previousReviewSearchOccurrence, "previous Review Search Occurrence"⟩,
  ⟨.modified (key 'p') { ctrl := true }, .previousReviewSearchOccurrence,
    "previous Review Search Occurrence"⟩,
  ⟨.one vaxis.enter, .openSearchOccurrence, "open Search Occurrence"⟩,
  ⟨.one (key 'n'), .nextSearchOccurrence, "next Search Occurrence"⟩,
  ⟨.one (key 'N'), .previousSearchOccurrence, "previous Search Occurrence"⟩,
  ⟨.one (key 'p'), .openPullRequestPicker, "open PullRequest Picker"⟩,
  ⟨.modified (key 'p') { ctrl := true }, .openCommandPalette, "open Command Palette"⟩,
  ⟨.one (key 'R'), .refresh, "refresh review"⟩,
  ⟨.one (key 's'), .toggleLayout, "toggle unified / side-by-side"⟩,
  ⟨.one (key 'f'), .cycleScope, "cycle diff scope"⟩,
  ⟨.one (key 'h'), .selectOldVersion, "select old File version"⟩,
  ⟨.one vaxis.left, .selectOldVersion, "select old File version"⟩,
  ⟨.one (key 'l'), .selectNewVersion, "select new File version"⟩,
  ⟨.one vaxis.right, .selectNewVersion, "select new File version"⟩,
  ⟨.one (key 'v'), .toggleSelect, "toggle visual selection"⟩,
  ⟨.one vaxis.escape, .clearSelection, "clear selection"⟩,
  ⟨.one (key 'i'), .inlineComment, "inline comment"⟩,
  ⟨.one (key 'I'), .fileComment, "File-level comment"⟩,
  ⟨.one (key 'C'), .reviewComment, "Review-level comment"⟩,
  ⟨.one (key 'S'), .suggest, "suggestion"⟩,
  ⟨.one (key 'o'), .isolate, "isolate / exit file"⟩,
  ⟨.one (key ']'), .nextFile, "next file"⟩,
  ⟨.one (key '['), .prevFile, "previous file"⟩,
  ⟨.one (key 'r'), .reply, "reply"⟩,
  ⟨.one (key 'e'), .editReviewItem, "edit local Draft"⟩,
  ⟨.modified (key 'e') { ctrl := true }, .externalEdit, "External Edit"⟩,
  ⟨.one (key 'a'), .reanchorReviewItem, "re-anchor local root Draft"⟩,
  ⟨.one (key 'D'), .deleteReviewItem, "delete Comment or Draft"⟩,
  ⟨.two (key 'g') (key 'a'), .setVerdictApproved, "set Reviewer Verdict to Approved"⟩,
  ⟨.two (key 'g') (key 'c'), .setVerdictChangesRequested,
    "set Reviewer Verdict to Changes requested"⟩,
  ⟨.two (key 'g') (key 'n'), .setVerdictNone, "set Reviewer Verdict to No verdict"⟩,
  ⟨.one vaxis.enter, .toggleDisclosure, "toggle disclosure"⟩,
  ⟨.one vaxis.enter, .toggleReviewCard, "toggle ReviewCard"⟩,
  ⟨.one vaxis.enter, .toggleDirectory, "toggle Directory"⟩,
  ⟨.one vaxis.enter, .focusFile, "focus File"⟩,
  ⟨.one vaxis.enter, .confirmPicker, "confirm selection"⟩,
  ⟨.one (key 'X'), .submit, "submit review / show hidden Submission"⟩,
  ⟨.one (key 'Y'), .recoverSubmission, "resume interrupted submission"⟩,
  ⟨.one (key 'U'), .resolveUnpublished, "mark unknown draft unpublished"⟩,
  ⟨.two (key 'g') (key 'C'), .linkExistingComment, "link unknown draft to comment"⟩,
  ⟨.one (key 'y'), .yank, "yank text"⟩,
  ⟨.one (key '?'), .help, "toggle this help"⟩,
  ⟨.one vaxis.tab, .focusNextPane, "switch Pane"⟩]

inductive KeymapError where
  | unknownAction | sequenceTooLong | emptySequence | countConflict | missingKey | unknownKey
  | ambiguousContext | prefixConflict
  deriving DecidableEq, Repr

/-- Whether a name is a modifier, and the modifiers with it. -/
def modifier (name : Bytes) (mods : Modifiers) : Option Modifiers :=
  if name = ascii "shift" then some { mods with shift := true }
  else if name = ascii "alt" ∨ name = ascii "option" then some { mods with alt := true }
  else if name = ascii "ctrl" ∨ name = ascii "control" then some { mods with ctrl := true }
  else if name = ascii "super" ∨ name = ascii "cmd" ∨ name = ascii "command" then
    some { mods with super := true }
  else if name = ascii "hyper" then some { mods with hyper := true }
  else if name = ascii "meta" then some { mods with meta_ := true }
  else none

def dash : UInt8 := 0x2d

def isDigit (b : UInt8) : Bool := decide (0x30 ≤ b) && decide (b ≤ 0x39)

def keyNames (vaxis : Vaxis) : List (String × Nat) := [
  ("space", key ' '), ("enter", vaxis.enter), ("escape", vaxis.escape), ("up", vaxis.up),
  ("down", vaxis.down), ("left", vaxis.left), ("right", vaxis.right), ("home", vaxis.home),
  ("end", vaxis.end_), ("page-up", vaxis.pageUp), ("page-down", vaxis.pageDown),
  ("tab", vaxis.tab), ("backspace", vaxis.backspace), ("delete", vaxis.delete),
  ("insert", vaxis.insert)]

def functionKey (vaxis : Vaxis) (name : Bytes) : Option Nat :=
  match name with
  | 0x66 :: number => match parseInt 256 number with
    | some n => if 1 ≤ n ∧ n ≤ 35 then some (vaxis.f1 + n - 1) else none
    | none => none
  | _ => none

def keyCode (vaxis : Vaxis) (name : Bytes) : Option Nat :=
  match name with
  | [b] => if 0x41 ≤ b ∧ b ≤ 0x5a then none else some b.toNat
  | _ => match (keyNames vaxis).find? (fun entry => name = ascii entry.1) with
    | some entry => some entry.2
    | none => functionKey vaxis name

/-- Take the modifiers off the front; every turn takes at least a dash. -/
def takeModifiers : Nat → Bytes → Modifiers → Bytes × Modifiers
  | 0, rest, mods => (rest, mods)
  | fuel + 1, rest, mods =>
    if dash ∉ rest then (rest, mods)
    else match modifier (rest.takeWhile (· ≠ dash)) mods with
      | some mods => takeModifiers fuel ((rest.dropWhile (· ≠ dash)).drop 1) mods
      | none => (rest, mods)

def parseStroke (vaxis : Vaxis) (text : Bytes) : Except KeymapError Stroke :=
  let (rest, mods) := takeModifiers text.length text {}
  if rest = [] then .error .missingKey
  else match keyCode vaxis rest with
    | some cp => .ok ⟨cp, mods⟩
    | none => .error .unknownKey

def parseTokens (vaxis : Vaxis) : List Bytes → (strokes : List Stroke) → strokes.length ≤ 8 →
    Except KeymapError { strokes : List Stroke // strokes.length ≤ 8 }
  | [], strokes, bounded => .ok ⟨strokes, bounded⟩
  | token :: rest, strokes, bounded =>
    if full : strokes.length = 8 then .error .sequenceTooLong
    else match parseStroke vaxis token with
      | .ok stroke => parseTokens vaxis rest (strokes ++ [stroke]) (by simp; omega)
      | .error e => .error e

def parseSequence (vaxis : Vaxis) (text : Bytes) : Except KeymapError Chord :=
  match parseTokens vaxis ((text.splitOn 0x20).filter (· ≠ [])) [] (by simp) with
  | .error e => .error e
  | .ok ⟨[], _⟩ => .error .emptySequence
  | .ok ⟨first :: strokes, bounded⟩ =>
    if 0x30 ≤ first.cp ∧ first.cp ≤ 0x39 then .error .countConflict
    else .ok ⟨first :: strokes, List.cons_ne_nil _ _, bounded⟩

def actionFromName (name : Bytes) : Option Action :=
  (actionNames.find? (fun entry => name = ascii entry.1)).map Prod.snd

def tagName (action : Action) : String :=
  ((actionNames.find? (fun entry => entry.2 = action)).map Prod.fst).getD ""

def helpFor (vaxis : Vaxis) (action : Action) : String :=
  match (defaultBindings vaxis).find? (fun binding => binding.action = action) with
  | some binding => binding.help
  | none => tagName action

def supportsDiff (action : Action) : Bool :=
  decide (action ∈ [
    .down, .up, .halfPageDown, .halfPageUp, .pageDown, .pageUp, .toTop, .toBottom, .center,
    .scrollCursorTop, .scrollCursorBottom, .cursorViewTop, .cursorViewMiddle, .cursorViewBottom,
    .scrollRowUp, .scrollRowDown, .selectDown, .selectUp, .quit, .openFileFinder,
    .openBufferSearch, .openReviewSearch, .nextSearchOccurrence, .previousSearchOccurrence,
    .openPullRequestPicker, .openCommandPalette, .openThemeOverlay, .refresh, .inlineComment,
    .fileComment, .reviewComment, .suggest, .setVerdictApproved, .setVerdictChangesRequested,
    .setVerdictNone, .yank, .submit, .recoverSubmission, .resolveUnpublished,
    .linkExistingComment, .help, .toggleSelect, .clearSelection, .toggleLayout, .cycleScope,
    .selectOldVersion, .selectNewVersion, .isolate, .nextFile, .prevFile, .focusNextPane])

def supportsContext (action : Action) (context : InteractionContext) : Bool :=
  if action = .toggleDiagnosticLogging then
    decide (context ∈ [.diff, .diffSource, .diffDisclosure, .diffReviewCard, .sidebar,
      .sidebarDirectory, .sidebarFile])
  else match context with
  | .composer => decide (action = .externalEdit)
  | .help | .unknownResolution | .deleteConfirmation | .bufferSearchInput => false
  | .reviewSearch => decide (action ∈ [
    .nextReviewSearchOccurrence, .previousReviewSearchOccurrence, .openSearchOccurrence,
    .halfPageDown, .halfPageUp])
  | .fileFinder | .pullRequestPicker | .commandPalette | .themeOverlay =>
    decide (action ∈ [.up, .down, .confirmPicker, .quit])
  | .sidebarDirectory => decide (action ∈ [
    .down, .up, .left, .right, .toTop, .toBottom, .scrollRowUp, .scrollRowDown, .quit,
    .openFileFinder, .openPullRequestPicker, .openCommandPalette, .openThemeOverlay, .refresh,
    .reviewComment, .setVerdictApproved, .setVerdictChangesRequested, .setVerdictNone, .submit,
    .recoverSubmission, .resolveUnpublished, .linkExistingComment, .help, .toggleLayout,
    .cycleScope, .toggleDirectory, .focusNextPane])
  | .sidebarFile => decide (action ∈ [
    .down, .up, .left, .right, .toTop, .toBottom, .scrollRowUp, .scrollRowDown, .quit,
    .openFileFinder, .openPullRequestPicker, .openCommandPalette, .openThemeOverlay, .refresh,
    .fileComment, .reviewComment, .setVerdictApproved, .setVerdictChangesRequested,
    .setVerdictNone, .submit, .recoverSubmission, .resolveUnpublished, .linkExistingComment,
    .help, .toggleLayout, .cycleScope, .focusFile, .focusNextPane])
  | .sidebar => decide (action ∈ [
    .down, .up, .left, .right, .quit, .openFileFinder, .openPullRequestPicker,
    .openCommandPalette, .openThemeOverlay, .refresh, .reviewComment, .setVerdictApproved,
    .setVerdictChangesRequested, .setVerdictNone, .help, .focusNextPane])
  | .diffDisclosure => decide (action = .toggleDisclosure) || supportsDiff action
  | .diffReviewCard => decide (action ∈ [
    .toggleReviewCard, .reply, .editReviewItem, .reanchorReviewItem, .deleteReviewItem]) ||
    supportsDiff action
  | .diffSource => decide (action ∈ [
    .inlineComment, .suggest, .yank]) || supportsDiff action
  | .diff => supportsDiff action

def contextsOverlap (a b : Action) : Bool :=
  contexts.any (fun context => supportsContext a context && supportsContext b context)

/-- What one pair of bindings is rejected for. -/
def conflict (a b : Binding) : Option KeymapError :=
  if a.chord.strokes = b.chord.strokes ∧ a.action ≠ b.action ∧ contextsOverlap a.action b.action then
    some .ambiguousContext
  else
    let (shorter, longer) :=
      if a.chord.strokes.length < b.chord.strokes.length then (a.chord, b.chord)
      else (b.chord, a.chord)
    if shorter.strokes.length = longer.strokes.length then none
    else if longer.strokes.take shorter.strokes.length = shorter.strokes then some .prefixConflict
    else none

def validateBindings : List Binding → Except KeymapError Unit
  | [] => .ok ()
  | a :: rest => match rest.findSome? (conflict a) with
    | some e => .error e
    | none => validateBindings rest

structure Override where
  action : Bytes
  sequences : List Bytes := []

/-- The bindings of one sequence after the other. -/
def bindSequences (vaxis : Vaxis) (action : Action) :
    List Bytes → Except KeymapError (List Binding)
  | [] => .ok []
  | sequence :: rest => match parseSequence vaxis sequence with
    | .error e => .error e
    | .ok chord => match bindSequences vaxis action rest with
      | .error e => .error e
      | .ok bindings => .ok (⟨chord, action, helpFor vaxis action⟩ :: bindings)

def applyOverrides (vaxis : Vaxis) : List Override → List Binding → Except KeymapError (List Binding)
  | [], bindings => .ok bindings
  | override :: rest, bindings => match actionFromName override.action with
    | none => .error .unknownAction
    | some action => match bindSequences vaxis action override.sequences with
      | .error e => .error e
      | .ok bound =>
        applyOverrides vaxis rest (bindings.filter (fun b => b.action ≠ action) ++ bound)

def fromOverrides (vaxis : Vaxis) (overrides : List Override) : Except KeymapError (List Binding) :=
  match applyOverrides vaxis overrides (defaultBindings vaxis) with
  | .error e => .error e
  | .ok bindings => match validateBindings bindings with
    | .error e => .error e
    | .ok () => .ok bindings

def validateOverride (vaxis : Vaxis) (override : Override) : Except KeymapError Unit :=
  match actionFromName override.action with
  | none => .error .unknownAction
  | some action => match bindSequences vaxis action override.sequences with
    | .error e => .error e
    | .ok _ => .ok ()

structure Resolver where
  leader : Option Nat := none
  pending : List Stroke := []
  deriving DecidableEq, Repr

inductive Result where
  | none
  | digit (value : Nat)
  | action (action : Action)
  deriving DecidableEq, Repr

/-- The digit that the text of a key is. -/
def KeyStroke.countDigit (self : KeyStroke) : Option Nat :=
  match self.text with
  | some [b] => if isDigit b then some (b.toNat - 0x30) else .none
  | _ => .none

inductive Look where
  | skip
  | expects (stroke : Stroke)
  | fires
  deriving DecidableEq

/-- What one binding makes of the next key. -/
def Binding.look (self : Binding) (context : InteractionContext) (pending : List Stroke)
    (key : KeyStroke) : Look :=
  if !supportsContext self.action context then .skip
  else if self.chord.strokes.take pending.length ≠ pending then .skip
  else match self.chord.strokes[pending.length]? with
    | none => .skip
    | some expected =>
      if !key.matches expected.cp expected.mods then .skip
      else if pending.length + 1 = self.chord.strokes.length then .fires
      else .expects expected

/-- The loop over the bindings: the Action that fires, or else the stroke of the last binding that
expects more. -/
def search (context : InteractionContext) (pending : List Stroke) (key : KeyStroke) :
    List Binding → Option Stroke → Option Stroke × Option Action
  | [], matched => (matched, none)
  | binding :: rest, matched => match binding.look context pending key with
    | .skip => search context pending key rest matched
    | .expects stroke => search context pending key rest (some stroke)
    | .fires => (matched, some binding.action)

namespace Resolver

def feed (vaxis : Vaxis) (bindings : List Binding) (self : Resolver) (context : InteractionContext)
    (key : KeyStroke) : Resolver × Result :=
  if 0 < self.pending.length ∧ key.matches vaxis.escape {} then ({}, .none)
  else match if self.pending.length = 0 then key.countDigit else none with
    | some digit => (self, .digit digit)
    | none => match search context self.pending key bindings none with
      | (_, some action) => ({}, .action action)
      | (some stroke, none) =>
        ({ leader := (self.pending ++ [stroke]).head?.map Stroke.cp
           pending := self.pending ++ [stroke] }, .none)
      | (none, none) => ({}, .none)

/-- Feed one key after the other. -/
def run (vaxis : Vaxis) (bindings : List Binding) (self : Resolver) :
    List (InteractionContext × KeyStroke) → Resolver × List Result
  | [] => (self, [])
  | (context, key) :: rest =>
    let (self, result) := self.feed vaxis bindings context key
    let (self, results) := self.run vaxis bindings rest
    (self, result :: results)

end Resolver

end Bbr.Tui.Keymap
