import Bbr.Review.Submission

/-!
# The Bitbucket poster

The bridge from a Submission to the REST adapter, as far as Comments are concerned: the lookup that
an ambiguous POST is followed by.
-/
namespace Bbr.Bitbucket

open Bbr.Review

/-- Recovery requires that a matching Comment is of the authenticated author. -/
structure Poster where
  authorUuid : Option Bytes := none
  requireAuthorMatch : Bool := false
  deriving DecidableEq, Repr

/-- The same path and the same span, bottom and top. -/
def anchorsMatch (a b : Anchor) : Bool :=
  a.path == b.path && a.fromLine == b.fromLine && a.toLine == b.toLine &&
    a.startFrom == b.startFrom && a.startTo == b.startTo

def scopesMatch (a b : CommentScope) : Bool :=
  match a, b with
  | .review, .review => true
  | .file a, .file b => a.path == b.path
  | .inline a, .inline b => anchorsMatch a b
  | _, _ => false

namespace Poster

/-- The author policy of the lookup; an unknown author on either side matches nothing. -/
def authorMatches (self : Poster) (c : Comment) : Bool :=
  if self.requireAuthorMatch then
    match self.authorUuid, c.authorUuid with
    | some expected, some actual => expected == actual
    | _, _ => false
  else true

/-- A Comment has the body of a Draft and stands where the Draft would: under its resolved parent,
or in its scope. -/
def standsFor (c : Comment) (d : Draft) (parent : Option CommentId) : Bool :=
  c.body == d.body &&
    match parent with
    | some parentId => c.parentId == some parentId
    | none => c.parentId.isNone && scopesMatch c.effectiveScope d.effectiveScope

/-- `findExisting` over the server's Comments: the first match. -/
def findExisting (self : Poster) (comments : List Comment) (d : Draft)
    (parent : Option CommentId) : CheckOutcome :=
  match comments.find? (fun c => self.authorMatches c && standsFor c d parent) with
  | some c => .found c.id
  | none => .missing

end Poster

end Bbr.Bitbucket
