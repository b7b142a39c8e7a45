import Bbr.Tui.Cards
import Mathlib.Data.List.Sort

/-!
# Weaving cards between the rows

Threads and Drafts are woven into a Buffer as trees of cards, each Reply below the card it replies to.
The order in which rows, Threads and Drafts come is left open. `none` stands for a recursion that does
not end.
-/
namespace Bbr.Tui.Cards

open Bbr.Bitbucket
open Bbr.Review

structure Thread where
  root : Comment
  replies : List Comment := []
  resolved : Bool := false
  rootInputOrder : Nat := 0
  deriving DecidableEq, Repr

def Thread.scope (self : Thread) : CommentScope := self.root.effectiveScope

def Thread.comments (self : Thread) : List Comment := self.root :: self.replies

/-- A Draft is named by its place. -/
inductive ReplyItem where
  | comment (comment : Comment)
  | draft (index : Nat)
  deriving DecidableEq, Repr

inductive DisclosureKey where
  | resolvedThread (id : CommentId)
  | reviewCard (owner : Owner)
  deriving DecidableEq, Repr

/-- The Threads and what else the weave reads. The rows of a ReviewBody between the borders are laid out
for a width. -/
structure BuildOptions where
  threads : List Thread
  drafts : List Draft
  cardWidth : Nat := 80
  collapsedRows : Nat := 9
  expandedDisclosures : List DisclosureKey := []
  draftScopes : List CommentScope := []
  bodyParts : Owner → Nat → List Part := fun _ _ => [.body]

def replyLessThan (drafts : List Draft) (left right : ReplyItem) : Bool :=
  match left, right with
  | .comment _, .draft _ => true
  | .draft i, .draft j => match drafts[i]?, drafts[j]? with
    | some a, some b => decide (a.localId < b.localId)
    | _, _ => false
  | _, .comment _ => false

def parentIndex (threads : List Thread) (drafts : List Draft) : Parent → Option ReplyItem :=
  drafts.zipIdx.foldl (fun parents pair =>
    match pair.1.state with
    | .posted id => match parents (.comment id) with
      | some (.comment comment) =>
        Function.update parents (.draft pair.1.localId) (some (.comment comment))
      | some (.draft index) => Function.update
        (Function.update parents (.draft pair.1.localId) (some (.draft index)))
        (.comment id) (some (.draft index))
      | none => Function.update
        (Function.update parents (.draft pair.1.localId) (some (.draft pair.2)))
        (.comment id) (some (.draft pair.2))
    | _ => Function.update parents (.draft pair.1.localId) (some (.draft pair.2)))
    ((threads.flatMap Thread.comments).foldl (fun parents comment =>
      Function.update parents (.comment comment.id) (some (.comment comment))) (fun _ => none))

namespace BuildOptions

variable (self : BuildOptions)

def parents : Parent → Option ReplyItem := parentIndex self.threads self.drafts

def effectiveParent (parent : Parent) : Parent :=
  match self.parents parent with
  | none => parent
  | some (.comment comment) => .comment comment.id
  | some (.draft index) => match self.drafts[index]? with
    | none => parent
    | some draft => .draft draft.localId

/-- A fetched Reply whose parent is known goes below it. -/
def placedRoot (thread : Thread) : Bool :=
  match thread.root.parentId with
  | none => false
  | some id => (self.parents (.comment id)).isSome

def threadReplies (thread : Thread) : List (Parent × ReplyItem) :=
  (match thread.root.parentId with
    | some id =>
      if self.placedRoot thread then [(self.effectiveParent (.comment id), .comment thread.root)] else []
    | none => []) ++
  thread.replies.map (fun comment =>
    (self.effectiveParent (.comment (comment.parentId.getD thread.root.id)), .comment comment))

/-- A posted Draft whose Comment is fetched is shown as that one. -/
def fetched (draft : Draft) : Bool :=
  match self.parents (.draft draft.localId) with
  | some (.comment _) => true
  | _ => false

def draftReply (pair : Draft × Nat) : Option (Parent × ReplyItem) :=
  pair.1.parent.bind (fun parent =>
    if self.fetched pair.1 then none else some (self.effectiveParent parent, .draft pair.2))

def replyPairs : List (Parent × ReplyItem) :=
  (self.threads.mergeSort (fun a b => decide (a.rootInputOrder ≤ b.rootInputOrder))).flatMap
    self.threadReplies ++ self.drafts.zipIdx.filterMap self.draftReply

def replies (parent : Parent) : List ReplyItem :=
  ((self.replyPairs.filter (fun pair => pair.1 = parent)).map Prod.snd).mergeSort
    (fun a b => !replyLessThan self.drafts b a)

/-- More than the recursion over Replies can go down. -/
def ancestryLimit : Nat := (self.threads.flatMap Thread.comments).length + self.drafts.length

def itemParent (item : ReplyItem) : Parent :=
  match item with
  | .comment comment => .comment comment.id
  | .draft index => .draft ((self.drafts[index]?.map Draft.localId).getD 0)

def maxReplyDepth : Nat → Parent → Nat
  | 0, _ => 0
  | remaining + 1, parent => (self.replies parent).foldl (fun deepest item =>
      max deepest (1 + maxReplyDepth remaining (self.itemParent item))) 0

end BuildOptions

structure Options where
  owner : Owner
  scope : CommentScope
  role : CardRole
  contentWidth : Nat
  depth : Nat
  indent : Nat
  deriving DecidableEq, Repr

def makeRow (options : Options) (part : Part) : ReviewCardRow where
  owner := options.owner
  scope := options.scope
  role := options.role
  part := part
  depth := options.depth
  indent := options.indent

/-- A card that hides two rows at least is collapsed. -/
def projectInto (opts : BuildOptions) (options : Options) : List ReviewCardRow :=
  let body := opts.bodyParts options.owner options.contentWidth
  let collapsible := 0 < opts.collapsedRows ∧ opts.collapsedRows + 1 < body.length
  let expanded := opts.expandedDisclosures.contains (.reviewCard options.owner)
  let visible := if collapsible ∧ expanded = false then opts.collapsedRows else body.length
  makeRow options .header :: (body.take visible).map (makeRow options) ++
    (if visible < body.length then [makeRow options .body] else []) ++
    [makeRow options (if collapsible then .disclosureFooter else .bottom)]

structure Weave where
  rows : List Row := []
  treeStarts : List Nat := []
  cardCount : Nat := 0
  emitted : List Bool
  emittedThreads : List Bool
  cardScope : CommentScope := .review
  deriving DecidableEq, Repr

namespace Weave

variable (opts : BuildOptions)

def start : Weave where
  emitted := opts.drafts.map (fun _ => false)
  emittedThreads := opts.threads.map opts.placedRoot

def append (row : PlainRow) (w : Weave) : Weave := { w with rows := w.rows ++ [.plain row] }

def projectCard (options : Options) (w : Weave) : Weave :=
  { w with
    rows := w.rows ++ (projectInto opts options).map cardRow
    cardCount := w.cardCount + 1 }

def commentOptions (comment : Comment) (depth : Nat) (indentation : CardIndentation) (w : Weave) :
    Options where
  owner := .comment comment.id
  scope := w.cardScope
  role :=
    if comment.deleted then
      (if 0 < depth ∨ comment.parentId.isSome then .deletedReply else .deletedComment)
    else if 0 < depth ∨ comment.parentId.isSome then .commentReply
    else .comment
  contentWidth := cardContentWidth opts.cardWidth (indentation.offset depth)
  depth := depth
  indent := indentation.offset depth

def emitComment (comment : Comment) (depth : Nat) (indentation : CardIndentation) (w : Weave) :
    Weave :=
  projectCard opts (commentOptions opts comment depth indentation w) w

def draftOptions (draft : Draft) (depth : Nat) (indentation : CardIndentation) (w : Weave) :
    Options where
  owner := .draft draft.localId
  scope := w.cardScope
  role :=
    if draft.state = .outcomeUnknown then
      (if draft.parent.isSome then .outcomeUnknownReply else .outcomeUnknown)
    else if draft.parent.isSome then .draftReply
    else .draft
  contentWidth := cardContentWidth opts.cardWidth (indentation.offset depth)
  depth := depth
  indent := indentation.offset depth

/-- A Draft, and what `emitBelow` puts below it. -/
def emitDraftAt (emitBelow : Parent → Nat → CardIndentation → Weave → Option Weave)
    (index depth : Nat) (indentation : CardIndentation) (w : Weave) : Option Weave :=
  if w.emitted[index]? = some false then match opts.drafts[index]? with
    | none => some w
    | some draft => emitBelow (.draft draft.localId) (depth + 1) indentation
        (projectCard opts (draftOptions opts draft depth indentation w)
          { w with emitted := w.emitted.set index true })
  else some w

def emitReply (emitBelow : Parent → Nat → CardIndentation → Weave → Option Weave) (depth : Nat)
    (indentation : CardIndentation) (w : Weave) (item : ReplyItem) : Option Weave :=
  match item with
  | .comment comment => emitBelow (.comment comment.id) (depth + 1) indentation
      (emitComment opts comment depth indentation w)
  | .draft index => emitDraftAt opts emitBelow index depth indentation w

/-- The Replies to a parent, each with its own behind it. -/
def emitRepliesTo : Nat → Parent → Nat → CardIndentation → Weave → Option Weave
  | 0, _, _, _, _ => none
  | fuel + 1, parent, depth, indentation, w =>
    (opts.replies parent).foldlM (emitReply opts (emitRepliesTo fuel) depth indentation) w

/-- Enough for every recursion over Replies, see `emitRepliesTo_spec`. -/
def replyFuel : Nat := opts.ancestryLimit + 1

def emitThreadContent (index : Nat) (w : Weave) : Option Weave :=
  match opts.threads[index]? with
  | none => some w
  | some thread =>
    if w.emittedThreads[index]? ≠ some false then some w
    else
      let indentation := CardIndentation.init opts.cardWidth
        (opts.maxReplyDepth opts.ancestryLimit (.comment thread.root.id))
      (emitRepliesTo opts (replyFuel opts) (.comment thread.root.id) 1 indentation
        (emitComment opts thread.root 0 indentation
          { w with
            emittedThreads := w.emittedThreads.set index true
            cardScope := thread.scope })).map
        (fun w' => { w' with treeStarts := w'.treeStarts ++ [w.rows.length] })

def emitThread (index : Nat) (w : Weave) : Option Weave :=
  match opts.threads[index]? with
  | none => some w
  | some thread =>
    if w.emittedThreads[index]? ≠ some false then some w
    else if thread.resolved ∧
        opts.expandedDisclosures.contains (.resolvedThread thread.root.id) = false then
      some (append (.disclosure .resolvedThread) w)
    else emitThreadContent opts index w

def emitDraft (index : Nat) (w : Weave) : Option Weave :=
  match opts.drafts[index]? with
  | none => some w
  | some draft =>
    if opts.fetched draft then some { w with emitted := w.emitted.set index true }
    else
      let indentation := CardIndentation.init opts.cardWidth
        (opts.maxReplyDepth opts.ancestryLimit (.draft draft.localId))
      (emitDraftAt opts (emitRepliesTo opts (replyFuel opts)) index 0 indentation
        { w with cardScope := (opts.draftScopes[index]?).getD draft.effectiveScope }).map
        (fun w' => if w.rows.length < w'.rows.length then
          { w' with treeStarts := w'.treeStarts ++ [w.rows.length] } else w')

/-- The splits of the text that a Draft was made for come before it. -/
def emitDraftSnapshot (index : Nat) (w : Weave) : Option Weave :=
  emitDraft opts index (((opts.drafts[index]?.bind Draft.snapshot).elim w (fun snapshot =>
    (snapshot.text.splitOn 10).foldl (fun w _ => append .snapshot w) w)))

end Weave

inductive WeaveStep where
  | row (row : PlainRow)
  | thread (index : Nat)
  | threadContent (index : Nat)
  | draft (index : Nat)
  | draftSnapshot (index : Nat)
  | hideThread (index : Nat)
  | hideDraft (index : Nat)
  deriving DecidableEq, Repr

def weaveStep (opts : BuildOptions) (w : Weave) : WeaveStep → Option Weave
  | .row row => some (w.append row)
  | .thread index => w.emitThread opts index
  | .threadContent index => w.emitThreadContent opts index
  | .draft index => w.emitDraft opts index
  | .draftSnapshot index => w.emitDraftSnapshot opts index
  | .hideThread index => some { w with emittedThreads := w.emittedThreads.set index true }
  | .hideDraft index => some { w with emitted := w.emitted.set index true }

structure Buffer where
  rows : List Row
  cards : List Card
  deriving DecidableEq, Repr

/-- The rows of a Buffer without cards are not indexed. -/
def buildWithComments (opts : BuildOptions) (steps : List WeaveStep) : Option Buffer :=
  (steps.foldlM (weaveStep opts) (Weave.start opts)).map (fun w =>
    if w.treeStarts = [] then ⟨w.rows, []⟩
    else ⟨(indexCards w.rows w.treeStarts).1, (indexCards w.rows w.treeStarts).2⟩)

end Bbr.Tui.Cards
