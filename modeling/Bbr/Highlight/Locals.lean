import Bbr.Lib.Pieces
import Bbr.Bitbucket.Types

/-!
# Local bindings

The captures of the locals query come in the order of their starts. A stack holds the open scopes, each
with the definitions that were read while it was on top; a reference is recorded when some scope of the
stack has a definition of its text that has ended.
-/
namespace Bbr.Highlight.Locals

open Bbr

inductive CaptureKind where
  | scope | definition | reference | other
  deriving DecidableEq, Repr

structure Capture where
  kind : CaptureKind
  start : Nat
  stop : Nat
  deriving DecidableEq, Repr

structure Range where
  start : Nat
  stop : Nat
  deriving DecidableEq, Repr

def Capture.range (capture : Capture) : Range := ⟨capture.start, capture.stop⟩

def Capture.text (content : Bytes) (capture : Capture) : Bytes :=
  (content.drop capture.start).take (capture.stop - capture.start)

structure Definition where
  name : Bytes
  stop : Nat
  deriving DecidableEq, Repr

structure Scope where
  stop : Nat
  definitions : List Definition := []
  deriving DecidableEq, Repr

/-- The stack of scopes, the top first, and the ranges that are recorded. -/
structure State where
  scopes : List Scope
  ranges : List Range := []
  deriving DecidableEq, Repr

/-- Drops the scopes that end before a start; the last one stays. -/
def popScopes (start : Nat) : List Scope → List Scope
  | top :: next :: scopes =>
    if top.stop < start then popScopes start (next :: scopes) else top :: next :: scopes
  | scopes => scopes

def define (definition : Definition) : List Scope → List Scope
  | [] => []
  | top :: scopes => { top with definitions := top.definitions ++ [definition] } :: scopes

def appendUniqueRange (ranges : List Range) (range : Range) : List Range :=
  if range ∈ ranges then ranges else ranges ++ [range]

/-- A definition of the text that has ended. -/
def binds (start : Nat) (name : Bytes) (definition : Definition) : Bool :=
  decide (definition.stop ≤ start ∧ name = definition.name)

def step (content : Bytes) (state : State) (capture : Capture) : State :=
  let scopes := popScopes capture.start state.scopes
  match capture.kind with
  | .scope => { state with scopes := { stop := capture.stop } :: scopes }
  | .definition =>
    { scopes := define { name := capture.text content, stop := capture.stop } scopes
      ranges := appendUniqueRange state.ranges capture.range }
  | .reference =>
    { scopes := scopes
      ranges :=
        if scopes.any (fun scope =>
            scope.definitions.any (binds capture.start (capture.text content))) then
          appendUniqueRange state.ranges capture.range
        else state.ranges }
  | .other => { state with scopes := scopes }

/-- The ranges that the accepted captures give. -/
def collectPrepared (content : Bytes) (captures : List Capture) : List Range :=
  (captures.foldl (step content) { scopes := [{ stop := content.length }] }).ranges

end Bbr.Highlight.Locals
