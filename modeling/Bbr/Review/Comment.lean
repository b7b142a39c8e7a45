import Bbr.Bitbucket.Types

/-!
# Comments, Anchors and scopes

The read-side comment model. An `Anchor` is the record the adapter sends and receives; nothing in
the type makes it one-sided, `validateShape` does.
-/
namespace Bbr.Review

open Bbr.Bitbucket

/-- The diff location of a Comment: `fromLine` is an old-file line, `toLine` a new-file line, and
the `start` fields are the top of a multi-line range on the same side. -/
structure Anchor where
  path : Bytes
  fromLine : Option Nat := none
  toLine : Option Nat := none
  startFrom : Option Nat := none
  startTo : Option Nat := none
  commit : Option Bytes := none
  deriving DecidableEq, Repr

inductive ShapeError where
  | anchorSideAmbiguous
  | anchorRangeDescending
  | anchorRangeTooLong
  deriving DecidableEq, Repr

def maxAnchorLines : Nat := 30

/-- The line the Anchor renders against, the new side first. -/
def Anchor.line (self : Anchor) : Option Nat := self.toLine.or self.fromLine

/-- The top line on the side the Anchor is anchored to. -/
def Anchor.top (self : Anchor) : Option Nat :=
  if self.toLine.isSome then self.startTo.or self.toLine
  else if self.fromLine.isSome then self.startFrom.or self.fromLine
  else none

/-- One side only, a matched and ascending range, at most `maxAnchorLines` lines. -/
def Anchor.validateShape (self : Anchor) : Except ShapeError Unit :=
  let newSide := self.toLine.isSome
  let oldSide := self.fromLine.isSome
  if newSide = oldSide then .error .anchorSideAmbiguous
  else if newSide ∧ self.startFrom.isSome then .error .anchorSideAmbiguous
  else if oldSide ∧ self.startTo.isSome then .error .anchorSideAmbiguous
  else
    let bottom := (if newSide then self.toLine else self.fromLine).getD 0
    let first := self.top.getD 0
    if bottom < first then .error .anchorRangeDescending
    else if bottom - first + 1 > maxAnchorLines then .error .anchorRangeTooLong
    else .ok ()

structure FileScope where
  path : Bytes
  sourceCommit : Bytes
  deriving DecidableEq, Repr

/-- Exhaustive scope of a root; Replies carry none and inherit their root's. -/
inductive CommentScope where
  | review
  | file (scope : FileScope)
  | inline (anchor : Anchor)
  deriving DecidableEq, Repr

def CommentScope.isInline : CommentScope → Bool
  | .inline _ => true
  | _ => false

/-- Fallback evidence captured when a local root Draft is authored. -/
structure AnchorSnapshot where
  text : Bytes
  selectionStart : Nat
  selectionLen : Nat
  deriving DecidableEq, Repr

/-- A published Comment as the adapter decodes it. -/
structure Comment where
  id : CommentId
  parentId : Option CommentId := none
  authorUuid : Option Bytes := none
  body : Bytes
  scope : Option CommentScope := none
  anchor : Option Anchor := none
  resolved : Bool := false
  deleted : Bool := false
  deriving DecidableEq, Repr

def Comment.effectiveScope (self : Comment) : CommentScope :=
  match self.scope, self.anchor with
  | some scope, _ => scope
  | none, some anchor => .inline anchor
  | none, none => .review

end Bbr.Review
