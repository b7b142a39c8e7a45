import Bbr.Config.LineParser
import Bbr.Highlight.Registry
import Bbr.Lib.Trims

/-!
# Overrides of UserGrammars

The reader of the `[grammars.NAME]` tables, which looks for brackets, commas and quotes in the text
of a line.
-/
namespace Bbr.Highlight.GrammarCli

open Bbr.Config
open Bbr.Diff (ascii)
open Bbr.Lib (trimBoth)

inductive OverrideError where
  | streamTooLong
  | invalidUserGrammarConfiguration
  | duplicateUserGrammarConfiguration
  | grammar (e : GrammarError)
  deriving DecidableEq, Repr

def isBlank (c : UInt8) : Bool := c == 0x20 || c == 0x09

def ruleKind (key : Bytes) : Option RuleKind :=
  if key = ascii "filenames" then some .filename
  else if key = ascii "compound_suffixes" then some .compound
  else if key = ascii "extensions" then some .extension
  else if key = ascii "shebangs" then some .shebang
  else none

def rulesOf (rules : GrammarMatches) : RuleKind → List Bytes
  | .filename => rules.filenames
  | .compound => rules.compoundSuffixes
  | .extension => rules.extensions
  | .shebang => rules.shebangs

def setRules (rules : GrammarMatches) (kind : RuleKind) (values : List Bytes) : GrammarMatches :=
  match kind with
  | .filename => { rules with filenames := values }
  | .compound => { rules with compoundSuffixes := values }
  | .extension => { rules with extensions := values }
  | .shebang => { rules with shebangs := values }

@[simp] theorem rulesOf_setRules (rules : GrammarMatches) (kind : RuleKind) (values : List Bytes) :
    rulesOf (setRules rules kind values) kind = values := by
  cases kind <;> rfl

theorem rulesOf_setRules_ne {kind other : RuleKind} (h : other ≠ kind) (rules : GrammarMatches)
    (values : List Bytes) : rulesOf (setRules rules kind values) other = rulesOf rules other := by
  cases kind <;> cases other <;> first | rfl | exact absurd rfl h

theorem rules_ext {a b : GrammarMatches} (h : ∀ kind, rulesOf a kind = rulesOf b kind) : a = b := by
  obtain ⟨_, _, _, _⟩ := a
  have hfilenames := h .filename
  have hsuffixes := h .compound
  have hextensions := h .extension
  have hshebangs := h .shebang
  simp only [rulesOf] at hfilenames hsuffixes hextensions hshebangs
  rw [hfilenames, hsuffixes, hextensions, hshebangs]

/-- The string between the quotes of one part of an array. -/
def partValue (part : Bytes) : Except OverrideError Bytes :=
  let value := trimBoth isBlank part
  if value.length < 2 ∨ value.head? ≠ some quote ∨ value.getLast? ≠ some quote then
    .error .invalidUserGrammarConfiguration
  else .ok (value.drop 1).dropLast

def lastIndexOf (c : UInt8) (raw : Bytes) : Option Nat :=
  (raw.reverse.idxOf? c).map (fun i => raw.length - 1 - i)

def startsComment (text : Bytes) : Bool := text.isEmpty || decide (text.head? = some hash)

def parseRuleArray (raw : Bytes) : Except OverrideError (List Bytes) :=
  match lastIndexOf closeBracket raw with
  | none => .error .invalidUserGrammarConfiguration
  | some close =>
    if raw.length < 5 ∨ raw.head? ≠ some openBracket ∨
        !startsComment (trimBoth isBlank (raw.drop (close + 1))) then
      .error .invalidUserGrammarConfiguration
    else ((trimBoth isBlank ((raw.take close).drop 1)).splitOn comma).mapM partValue

structure State where
  overrides : List MatchOverride := []
  current : Option Nat := none

def header : Bytes := ascii "[grammars."

def readHeader (line : Bytes) (state : State) : Except OverrideError State :=
  match line.idxOf? closeBracket with
  | none => .ok { state with current := none }
  | some close =>
    let text := line.take (close + 1)
    if !startsComment (trimBoth isBlank (line.drop (close + 1))) then
      .error .invalidUserGrammarConfiguration
    else if header.isPrefixOf text ∧ text.getLast? = some closeBracket then
      let name := (text.drop header.length).dropLast
      if state.overrides.any (fun override => override.name == name) then
        .error .duplicateUserGrammarConfiguration
      else .ok ⟨state.overrides ++ [⟨name, {}⟩], some state.overrides.length⟩
    else .ok { state with current := none }

/-- The rule that a line of a table gives. -/
def ruleLine (line : Bytes) : Except OverrideError (RuleKind × List Bytes) :=
  match line.idxOf? equals with
  | none => .error .invalidUserGrammarConfiguration
  | some equal => do
    let values ← parseRuleArray (trimBoth isBlank (line.drop (equal + 1)))
    match ruleKind (trimBoth isBlank (line.take equal)) with
    | none => .error .invalidUserGrammarConfiguration
    | some kind => return (kind, values)

/-- A list of rules is set once. -/
def addRule (rules : GrammarMatches) (kind : RuleKind) (values : List Bytes) :
    Except OverrideError GrammarMatches :=
  if rulesOf rules kind ≠ [] then .error .duplicateUserGrammarConfiguration
  else .ok (setRules rules kind values)

def readLine (raw : Bytes) (state : State) : Except OverrideError State :=
  let line := trimBoth LineParser.isSpace raw
  if line = [] ∨ line.head? = some hash then .ok state
  else if line.head? = some openBracket then readHeader line state
  else match state.current with
    | none => .ok state
    | some index => do
      let (kind, values) ← ruleLine line
      match state.overrides[index]? with
      | none => .ok state
      | some override =>
        let rules ← addRule override.rules kind values
        return { state with overrides := state.overrides.set index ⟨override.name, rules⟩ }

/-- The limit is reached or exceeded. -/
def readLimit : Nat := 64 * 1024

def loadOverrides (source : Bytes) : Except OverrideError (List MatchOverride) :=
  if readLimit ≤ source.length then .error .streamTooLong
  else do
    let state ← (source.splitOn newline).foldlM (fun state raw => readLine raw state) {}
    state.overrides.forM (fun override =>
      match effectiveRules override.name {} [override] with
      | .error e => .error (.grammar e)
      | .ok _ => .ok ())
    return state.overrides

end Bbr.Highlight.GrammarCli
