import Bbr.Config.LineParser

/-!
# The logging switch

The reader of the `[logging]` table, which passes over all other tables.
-/
namespace Bbr.Config.Logging

open Bbr.Diff (ascii)

inductive Result where
  | enabled (value : Bool)
  | invalid (line : Nat)
  deriving DecidableEq, Repr

structure State where
  inLogging : Bool := false
  tableSeen : Bool := false
  keySeen : Bool := false
  enabledValue : Bool := false
  deriving DecidableEq, Repr

/-- One line; none when it is not valid. -/
def readLine (raw : Bytes) (state : State) : Option State :=
  let parser := LineParser.space { text := raw }
  if parser.trailing then some state
  else if parser.text.head? = some openBracket then
    match parser.section_ with
    | .error _ => none
    | .ok (name, parser) =>
      if !parser.space.trailing then none
      else if name = ascii "logging" then
        if state.tableSeen then none else some { state with inLogging := true, tableSeen := true }
      else some { state with inLogging := false }
  else if !state.inLogging then some state
  else match parser.key with
    | .error _ => none
    | .ok (key, parser) =>
      if key ≠ ascii "enabled" ∨ state.keySeen = true then none
      else match parser.space.take equals with
        | none => none
        | some parser => match parser.space.boolean with
          | .error _ => none
          | .ok (value, parser) =>
            if !parser.space.trailing then none
            else some { state with keySeen := true, enabledValue := decide (value = ascii "true") }

def readLines : Nat → List Bytes → State → Result
  | _, [], state => .enabled state.enabledValue
  | line, raw :: lines, state => match readLine raw state with
    | none => .invalid line
    | some state => readLines (line + 1) lines state

def parse (text : Bytes) : Result :=
  if maxBytes < text.length then .invalid 1 else readLines 1 (text.splitOn newline) {}

end Bbr.Config.Logging
