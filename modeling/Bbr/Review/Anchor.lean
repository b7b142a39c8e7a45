import Bbr.Diff.Parser
import Bbr.Review.Comment

/-!
# Local Anchor resolution

The coordinate mapping over a parsed transition Diff, from its old side to its new side. An authored
Anchor is never changed, the result carries projected coordinates.
-/
namespace Bbr.Review

open Bbr.Diff

inductive AnchorState where
  | current
  | moved
  | outdated
  deriving DecidableEq, Repr

structure ResolvedAnchor where
  state : AnchorState
  anchor : Anchor
  deriving DecidableEq, Repr

inductive AnchorResolution where
  | resolved (result : ResolvedAnchor)
  | unavailable
  deriving DecidableEq, Repr

/-- The trap of a line number that leaves 32 bits. -/
inductive LineOverflow where
  | integerOverflow
  deriving DecidableEq, Repr

def lineSum (a b : Nat) : Except LineOverflow Nat :=
  if a + b < u32Limit then .ok (a + b) else .error .integerOverflow

def applyDelta (line : Nat) (delta : Int) : Option Nat :=
  let mapped := (line : Int) + delta
  if mapped < 1 ∨ mapped ≥ u32Limit then none else some mapped.toNat

/-- The new number of an old line among the lines of a Hunk. -/
def lineInHunk (lines : List Line) (target : Nat) : Option Nat :=
  (lines.find? (fun line => line.oldNo = target)).bind Line.newLine

/-- The loop of `mapOldLine`; `delta` is what the Hunks passed so far add. -/
def mapFrom (delta : Int) : List Hunk → Nat → Except LineOverflow (Option Nat)
  | [], target => .ok (applyDelta target delta)
  | hunk :: rest, target =>
    if target < hunk.oldStart then .ok (applyDelta target delta)
    else do
      let oldEnd ← lineSum hunk.oldStart hunk.oldCount
      if target < oldEnd then return lineInHunk hunk.lines target
      else mapFrom (delta + (hunk.newCount - hunk.oldCount)) rest target

def mapOldLine (file : File) (target : Nat) : Except LineOverflow (Option Nat) :=
  mapFrom 0 file.hunks target

/-- The loop of `resolveAgainst` from `lineNo` to `bottom`, with the first and the last mapped line
so far. `none` is an outdated range. The fuel is what is left of the 32-bit line numbers. -/
def mapLines (file : File) (bottom : Nat) :
    Nat → Nat → Option (Nat × Nat) → Except LineOverflow (Option (Nat × Nat))
  | 0, _, _ => .error .integerOverflow
  | fuel + 1, lineNo, mappedSoFar => do
    match ← mapOldLine file lineNo with
    | none => return none
    | some mapped =>
      match mappedSoFar with
      | none =>
        if lineNo = bottom then return some (mapped, mapped)
        else mapLines file bottom fuel (lineNo + 1) (some (mapped, mapped))
      | some (mappedTop, previous) =>
        let expected ← lineSum previous 1
        if mapped ≠ expected then return none
        else if lineNo = bottom then return some (mappedTop, mapped)
        else mapLines file bottom fuel (lineNo + 1) (some (mappedTop, mapped))

def outdatedAt (authored : Anchor) (path : Bytes) : AnchorResolution :=
  .resolved ⟨.outdated, { authored with path := path }⟩

/-- The authored Anchor with its lines replaced on the side it is on. -/
def project (authored : Anchor) (path : Bytes) (mappedTop mappedBottom : Nat) : Anchor :=
  if authored.toLine.isSome then
    { authored with
      path := path
      toLine := some mappedBottom
      startTo := if authored.startTo.isSome then some mappedTop else none }
  else
    { authored with
      path := path
      fromLine := some mappedBottom
      startFrom := if authored.startFrom.isSome then some mappedTop else none }

/-- The path of the File on the new side. -/
def projectedPath (file : File) (path : Bytes) : Bytes :=
  if file.status = .renamed then file.newPath else path

def resolveAgainst (authored : Anchor) (transition : Diff) :
    Except LineOverflow AnchorResolution :=
  match transition.files.find? (fun file => file.oldPath = authored.path) with
  | none => .ok (.resolved ⟨.current, authored⟩)
  | some file =>
    if file.status = .removed then .ok (outdatedAt authored authored.path)
    else
      let path := projectedPath file authored.path
      match (authored.startTo.or authored.startFrom).or authored.line, authored.line with
      | some top, some bottom => do
        match ← mapLines file bottom (u32Limit - top) top none with
        | none => return outdatedAt authored path
        | some (mappedTop, mappedBottom) =>
          if mappedBottom - mappedTop ≠ bottom - top then return outdatedAt authored path
          else
            let state := if path ≠ authored.path ∨ mappedTop ≠ top then .moved else .current
            return .resolved ⟨state, project authored path mappedTop mappedBottom⟩
      | _, _ => .ok .unavailable

end Bbr.Review
