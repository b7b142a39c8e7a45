import Bbr.Lib.Keyed
import Bbr.Review.SubmissionRecord

/-!
# The in-memory Draft store

One function for each operation of the store: its result, and the store after it. Rows are keyed by
Review identity and TempId. The fault flags are the fault injection of the adapter: each makes the next
operation of its kind fail before it reads anything. Allocation is taken to succeed.
-/
namespace Bbr.Review

open Bbr.Bitbucket Bbr.Lib

inductive StoreError where
  | draftLocked
  | draftParentMissing
  | injectedEditFailure
  | injectedReanchorFailure
  | injectedDeleteFailure
  | injectedCheckpointFailure
  | injectedCompletionFailure
  | draftNotEditable
  | draftEditConflict
  | draftNotAnchorable
  | draftCascadeConflict
  | draftNotFound
  | invalidAnchor
  | submissionAlreadyActive
  | emptySubmission
  | draftNotSubmittable
  | invalidSubmissionGraph
  | submissionNotActive
  | invalidSubmissionCheckpoint
  | invalidSubmissionCompletion
  | submissionNotClean
  | invalidUnknownResolution
  deriving DecidableEq, Repr

structure Entry where
  key : RemoteReviewIdentity
  draft : Draft
  deriving DecidableEq, Repr

def Entry.id (e : Entry) : RemoteReviewIdentity × TempId := (e.key, e.draft.localId)

theorem Entry.id_of_localId (e : Entry) {d : Draft} (h : d.localId = e.draft.localId) :
    ({ e with draft := d } : Entry).id = e.id := by
  simp [Entry.id, h]

structure TempCounter where
  key : RemoteReviewIdentity
  nextId : TempId
  deriving DecidableEq, Repr

structure PostedDraft where
  key : RemoteReviewIdentity
  tempId : TempId
  commentId : CommentId
  deriving DecidableEq, Repr

structure RetryCarryover where
  key : RemoteReviewIdentity
  tempId : TempId
  checkpoint : SubmissionRetryCheckpoint
  deriving DecidableEq, Repr

def RetryCarryover.id (c : RetryCarryover) : RemoteReviewIdentity × TempId := (c.key, c.tempId)

structure DraftBodyEdit where
  tempId : TempId
  expectedKind : DraftKind
  expectedParent : Option Parent
  body : Bytes

structure DraftReanchor where
  tempId : TempId
  expectedKind : DraftKind
  anchor : Anchor
  snapshot : Option AnchorSnapshot := none

structure DraftSubtreeDelete where
  rootTempId : TempId
  expectedParent : Option Parent
  cascade : List TempId

structure InMemoryStore where
  entries : Keyed Entry.id := .empty
  activeRun : Option ActiveSubmissionRun := none
  retryCarryovers : Keyed RetryCarryover.id := .empty
  nextOperationId : OperationId := 1
  tempCounters : Keyed TempCounter.key := .empty
  postedDrafts : List PostedDraft := []
  failNextEdit : Bool := false
  failNextReanchor : Bool := false
  failNextDelete : Bool := false
  failNextCheckpoint : Bool := false
  failNextCompletion : Bool := false
  deriving DecidableEq

namespace InMemoryStore

def draftEntry (self : InMemoryStore) (key : RemoteReviewIdentity) (tempId : TempId) :
    Option Draft :=
  (self.entries.lookup (key, tempId)).map Entry.draft

def load (self : InMemoryStore) (key : RemoteReviewIdentity) : List Draft :=
  (self.entries.rows.filter (fun e => decide (e.key = key))).map Entry.draft

/-- Append a Draft that already has its id. -/
def addExisting (review : PendingReview) (d : Draft) : PendingReview :=
  { review with
    drafts := review.drafts ++ [d]
    nextId := if d.localId ≥ review.nextId then d.localId + 1 else review.nextId }

def loadReview (self : InMemoryStore) (key : RemoteReviewIdentity) : PendingReview :=
  (self.load key).foldl addExisting { prId := key.pullRequestId }

def activeSubmission (self : InMemoryStore) : Option ActiveSubmissionRun := self.activeRun

def postedComment (self : InMemoryStore) (key : RemoteReviewIdentity) (tempId : TempId) :
    Option CommentId :=
  (self.postedDrafts.find? (fun p => decide (p.key = key ∧ p.tempId = tempId))).map
    PostedDraft.commentId

/-- The active run of this Review owns the Draft. -/
def ownedByRun (self : InMemoryStore) (key : RemoteReviewIdentity) (tempId : TempId) : Bool :=
  match self.activeRun with
  | none => false
  | some run => decide (run.key = key) && (submissionItemIndex run.items.items tempId).isSome

/-- The walk up the parent chain over the rows of the store, with `hops` checks left. -/
def descendsWithin (self : InMemoryStore) (key : RemoteReviewIdentity) (root : TempId) :
    Nat → TempId → Bool
  | 0, _ => false
  | hops + 1, current =>
    if current = root then true
    else match self.draftEntry key current with
      | none => false
      | some found => match found.parent with
        | some (.draft parentId) => self.descendsWithin key root hops parentId
        | _ => false

def descendsFrom (self : InMemoryStore) (key : RemoteReviewIdentity) (root tempId : TempId) : Bool :=
  self.descendsWithin key root (self.entries.rows.length + 1) tempId

def setDraft (self : InMemoryStore) (key : RemoteReviewIdentity) (tempId : TempId)
    (f : Draft → Draft) (hf : ∀ d, (f d).localId = d.localId) : InMemoryStore :=
  { self with
    entries := self.entries.modify (key, tempId) (fun e => { e with draft := f e.draft })
      (fun e => e.id_of_localId (hf e.draft)) }

def setState (self : InMemoryStore) (key : RemoteReviewIdentity) (tempId : TempId)
    (state : DraftState) : InMemoryStore :=
  self.setDraft key tempId (fun d => d.withState state) (fun _ => rfl)

/-- One past the largest TempId of the Review. -/
def tempIdFloor (self : InMemoryStore) (key : RemoteReviewIdentity) : TempId :=
  (self.load key).foldl (fun floor d => max floor (d.localId + 1)) 1

/-- Pin the reservation counter at or above every id in use. -/
def retainTempIdFloor (self : InMemoryStore) (key : RemoteReviewIdentity) : InMemoryStore :=
  let floor := self.tempIdFloor key
  match self.tempCounters.lookup key with
  | some counter =>
    { self with tempCounters := self.tempCounters.put ⟨key, max counter.nextId floor⟩ }
  | none => { self with tempCounters := self.tempCounters.put ⟨key, floor⟩ }

def reserveTempId (self : InMemoryStore) (key : RemoteReviewIdentity) : TempId × InMemoryStore :=
  match self.tempCounters.lookup key with
  | some counter =>
    (counter.nextId, { self with tempCounters := self.tempCounters.put ⟨key, counter.nextId + 1⟩ })
  | none =>
    let nextId := self.tempIdFloor key
    (nextId, { self with tempCounters := self.tempCounters.put ⟨key, nextId + 1⟩ })

/-- The parent a put stores: a Reply to a removed Draft becomes a Reply to its Comment. -/
def putParent (self : InMemoryStore) (key : RemoteReviewIdentity) (parent : Option Parent) :
    Except StoreError (Option Parent) :=
  match parent with
  | some (.draft p) =>
    if (self.draftEntry key p).isSome then .ok parent
    else match self.postedComment key p with
      | some id => .ok (some (.comment id))
      | none => .error .draftParentMissing
  | _ => .ok parent

def put (self : InMemoryStore) (key : RemoteReviewIdentity) (incoming : Draft) :
    Except StoreError (Option Parent) × InMemoryStore :=
  if (self.draftEntry key incoming.localId).any (fun d => decide (d.state = .outcomeUnknown)) then
    (.error .draftLocked, self)
  else if self.ownedByRun key incoming.localId then (.error .draftLocked, self)
  else match self.putParent key incoming.parent with
    | .error err => (.error err, self)
    | .ok parent =>
      (.ok parent, { self with entries := self.entries.put ⟨key, { incoming with parent := parent }⟩ })

/-- A failed Draft goes back to `draft` when the reviewer changes it. -/
def reopened : DraftState → DraftState
  | .failed _ => .draft
  | state => state

def editDraftBody (self : InMemoryStore) (key : RemoteReviewIdentity) (edit : DraftBodyEdit) :
    Except StoreError Unit × InMemoryStore :=
  if self.failNextEdit then (.error .injectedEditFailure, { self with failNextEdit := false })
  else if self.ownedByRun key edit.tempId then (.error .draftLocked, self)
  else match self.draftEntry key edit.tempId with
    | none => (.error .draftNotFound, self)
    | some d => match d.state with
      | .outcomeUnknown => (.error .draftLocked, self)
      | .submitting | .posted _ => (.error .draftNotEditable, self)
      | .draft | .failed _ =>
        if d.kind ≠ edit.expectedKind then (.error .draftEditConflict, self)
        else if parentEql d.parent edit.expectedParent = false then (.error .draftEditConflict, self)
        else (.ok (), self.setDraft key edit.tempId
          (fun d => { d with body := edit.body, state := reopened d.state }) (fun _ => rfl))

def reanchorDraft (self : InMemoryStore) (key : RemoteReviewIdentity) (reanchor : DraftReanchor) :
    Except StoreError Unit × InMemoryStore :=
  if self.failNextReanchor then
    (.error .injectedReanchorFailure, { self with failNextReanchor := false })
  else match reanchor.anchor.validateShape with
    | .error _ => (.error .invalidAnchor, self)
    | .ok () =>
      if self.ownedByRun key reanchor.tempId then (.error .draftLocked, self)
      else match self.draftEntry key reanchor.tempId with
        | none => (.error .draftNotFound, self)
        | some d => match d.state with
          | .outcomeUnknown => (.error .draftLocked, self)
          | .submitting | .posted _ => (.error .draftNotEditable, self)
          | .draft | .failed _ =>
            if d.kind ≠ reanchor.expectedKind then (.error .draftEditConflict, self)
            else if d.parent.isSome ∨ d.effectiveScope.isInline = false then
              (.error .draftNotAnchorable, self)
            else if d.kind = .suggestion ∧ reanchor.anchor.toLine = none then
              (.error .invalidAnchor, self)
            else (.ok (), self.setDraft key reanchor.tempId
              (fun d => { d with
                scope := some (.inline reanchor.anchor)
                anchor := some reanchor.anchor
                snapshot := reanchor.snapshot
                state := reopened d.state }) (fun _ => rfl))

/-- Non-empty, rooted at the Draft being deleted, free of duplicates. -/
def validCascadeShape (deletion : DraftSubtreeDelete) : Bool :=
  deletion.cascade.head? == some deletion.rootTempId && decide deletion.cascade.Nodup

/-- The first refusal of a cascade member's own state. -/
def cascadeRefusal (self : InMemoryStore) (key : RemoteReviewIdentity) :
    List TempId → Option StoreError
  | [] => none
  | tempId :: rest => match (self.draftEntry key tempId).map Draft.state with
    | some .outcomeUnknown => some .draftLocked
    | some .submitting | some (.posted _) => some .draftNotEditable
    | _ => self.cascadeRefusal key rest

def deleteDraftSubtree (self : InMemoryStore) (key : RemoteReviewIdentity)
    (deletion : DraftSubtreeDelete) : Except StoreError Unit × InMemoryStore :=
  if self.failNextDelete then (.error .injectedDeleteFailure, { self with failNextDelete := false })
  else if validCascadeShape deletion = false then (.error .draftCascadeConflict, self)
  else match self.draftEntry key deletion.rootTempId with
    | none => (.error .draftNotFound, self)
    | some root =>
      if parentEql root.parent deletion.expectedParent = false then (.error .draftEditConflict, self)
      else if ((self.load key).filter
          (fun d => self.descendsFrom key deletion.rootTempId d.localId)).length ≠
            deletion.cascade.length then (.error .draftCascadeConflict, self)
      else if deletion.cascade.any (fun tempId => (self.draftEntry key tempId).isNone ||
          !self.descendsFrom key deletion.rootTempId tempId) then (.error .draftCascadeConflict, self)
      else if deletion.cascade.any (fun tempId => self.ownedByRun key tempId) then
        (.error .draftLocked, self)
      else match self.cascadeRefusal key deletion.cascade with
        | some err => (.error err, self)
        | none =>
          let self := self.retainTempIdFloor key
          let kept := self.entries.filterRows
            (fun e => !(decide (e.key = key) && decide (e.draft.localId ∈ deletion.cascade)))
          (.ok (), { self with entries := kept })

def resolveUnknown (self : InMemoryStore) (key : RemoteReviewIdentity) (tempId : TempId)
    (resolution : UnknownResolution) : Except StoreError Unit × InMemoryStore :=
  if self.ownedByRun key tempId then (.error .draftLocked, self)
  else match self.draftEntry key tempId with
    | none => (.error .draftNotFound, self)
    | some d =>
      if d.state ≠ .outcomeUnknown then (.error .invalidUnknownResolution, self)
      else (.ok (), self.setState key tempId (match resolution with
        | .posted id => .posted id
        | .unpublished => .draft))

/-- The first refusal of a run's participants, each checked against its row and the ones before. -/
def itemRefusal (self : InMemoryStore) (key : RemoteReviewIdentity) (prior : List TempId) :
    List SubmissionRunItem → Option StoreError
  | [] => none
  | item :: rest => match self.draftEntry key item.tempId with
    | none => some .draftNotFound
    | some d =>
      if d.target ≠ .bitbucket then some .draftNotSubmittable
      else if parentEql d.parent item.parent = false then some .invalidSubmissionGraph
      else if item.tempId ∈ prior then some .invalidSubmissionGraph
      else self.itemRefusal key (prior ++ [item.tempId]) rest

/-- The wait a fresh run owes to the last failed run of its first participant. -/
def carriedRetry (self : InMemoryStore) (key : RemoteReviewIdentity) (tempId : TempId) :
    Option SubmissionRetryCheckpoint :=
  match self.retryCarryovers.lookup (key, tempId) with
  | none => none
  | some carry => match carry.checkpoint.serverDelayMs with
    | none => none
    | some delay => some ⟨.post, 0, carry.checkpoint.reason, 0, some delay, delay, true⟩

/-- A carried wait is used once. -/
def takeCarryover (self : InMemoryStore) (key : RemoteReviewIdentity) (tempId : TempId) :
    Keyed RetryCarryover.id :=
  if (self.carriedRetry key tempId).isSome then
    self.retryCarryovers.filterRows (fun c => !decide (c.id = (key, tempId)))
  else self.retryCarryovers

def beginSubmission (self : InMemoryStore) (key : RemoteReviewIdentity) (sourceCommit : Bytes)
    (items : List SubmissionRunItem) : Except StoreError OperationId × InMemoryStore :=
  if self.activeRun.isSome then (.error .submissionAlreadyActive, self)
  else match items.head? with
    | none => (.error .emptySubmission, self)
    | some item => match self.itemRefusal key [] items with
      | some err => (.error err, self)
      | none => match self.draftEntry key item.tempId with
        | none => (.error .draftNotFound, self)
        | some first =>
          if h : (items.map SubmissionRunItem.tempId).Nodup then
            if first.target = .bitbucket ∧ first.state.isPending then
              let run : ActiveSubmissionRun :=
                { operationId := self.nextOperationId, key := key, sourceCommit := sourceCommit
                  currentTempId := some item.tempId, items := ⟨items, h⟩
                  retry := self.carriedRetry key item.tempId }
              (.ok self.nextOperationId,
                { self.setState key item.tempId .submitting with
                  activeRun := some run
                  retryCarryovers := self.takeCarryover key item.tempId
                  nextOperationId := self.nextOperationId + 1 })
            else (.error .draftNotSubmittable, self)
          else (.error .invalidSubmissionGraph, self)

def checkpointSubmissionRetry (self : InMemoryStore) (operationId : OperationId)
    (key : RemoteReviewIdentity) (tempId : TempId) (checkpoint : SubmissionRetryCheckpoint) :
    Except StoreError Unit × InMemoryStore :=
  if self.failNextCheckpoint then
    (.error .injectedCheckpointFailure, { self with failNextCheckpoint := false })
  else match self.activeRun with
    | none => (.error .submissionNotActive, self)
    | some run =>
      if run.operationId ≠ operationId ∨ run.key ≠ key ∨ run.currentTempId ≠ some tempId then
        (.error .invalidSubmissionCheckpoint, self)
      else if checkpoint.effectiveDelayMs ≠
          max checkpoint.localDelayMs (checkpoint.serverDelayMs.getD 0) then
        (.error .invalidSubmissionCheckpoint, self)
      else (.ok (), { self with activeRun := some { run with retry := some checkpoint } })

/-- `next` comes after `completed` among the participants. -/
def comesAfter (items : List SubmissionRunItem) (completed next : TempId) : Bool :=
  match submissionItemIndex items completed, submissionItemIndex items next with
  | some i, some j => decide (i < j)
  | _, _ => false

/-- The retry checkpoint a failed participant leaves to a later run. -/
def carriesOver (outcome : SubmissionOutcome) (retry : Option SubmissionRetryCheckpoint) :
    Option SubmissionRetryCheckpoint :=
  match outcome, retry with
  | .failed _, some checkpoint =>
    if checkpoint.pendingWait = false ∧ checkpoint.serverDelayMs.isSome then some checkpoint
    else none
  | _, _ => none

def leaveCarryover (self : InMemoryStore) (run : ActiveSubmissionRun) (tempId : TempId)
    (outcome : SubmissionOutcome) : Keyed RetryCarryover.id :=
  match carriesOver outcome run.retry with
  | some checkpoint => self.retryCarryovers.put ⟨run.key, tempId, checkpoint⟩
  | none => self.retryCarryovers

def checkpointSubmission (self : InMemoryStore) (operationId : OperationId)
    (key : RemoteReviewIdentity) (completedTempId : TempId) (outcome : SubmissionOutcome)
    (nextTempId : Option TempId) : Except StoreError Unit × InMemoryStore :=
  if self.failNextCheckpoint then
    (.error .injectedCheckpointFailure, { self with failNextCheckpoint := false })
  else match self.activeRun with
    | none => (.error .submissionNotActive, self)
    | some run =>
      if run.operationId ≠ operationId ∨ run.key ≠ key ∨
          run.currentTempId ≠ some completedTempId then (.error .invalidSubmissionCheckpoint, self)
      else if nextTempId = some completedTempId then (.error .invalidSubmissionCheckpoint, self)
      else if nextTempId.any (fun next => !comesAfter run.items.items completedTempId next) then
        (.error .invalidSubmissionCheckpoint, self)
      else match self.draftEntry key completedTempId with
        | none => (.error .draftNotFound, self)
        | some completed =>
          if completed.state ≠ .submitting then (.error .invalidSubmissionCheckpoint, self)
          else
            let retryCarryovers := self.leaveCarryover run completedTempId outcome
            let activeRun := some { run with currentTempId := nextTempId, retry := none }
            match nextTempId with
            | none =>
              (.ok (), { self.setState key completedTempId outcome.draftState with
                activeRun := activeRun, retryCarryovers := retryCarryovers })
            | some next => match self.draftEntry key next with
              | none => (.error .draftNotFound, self)
              | some d =>
                if d.target = .bitbucket ∧ d.state.isPending then
                  (.ok (), { (self.setState key completedTempId outcome.draftState).setState key next
                      .submitting with
                    activeRun := activeRun, retryCarryovers := retryCarryovers })
                else (.error .invalidSubmissionCheckpoint, self)

/-- A row that a clean completion removes: a posted participant. -/
def isRemoved (run : ActiveSubmissionRun) (e : Entry) : Option CommentId :=
  if e.key = run.key ∧ (submissionItemIndex run.items.items e.draft.localId).isSome then
    match e.draft.state with
    | .posted id => some id
    | _ => none
  else none

/-- Replies to the removed Draft attach to its Comment instead. -/
def remapReply (key : RemoteReviewIdentity) (tempId : TempId) (id : CommentId) (e : Entry) : Entry :=
  if e.key = key ∧ e.draft.parent = some (.draft tempId) then
    { e with draft := { e.draft with parent := some (.comment id) } }
  else e

theorem remapReply_id (key : RemoteReviewIdentity) (tempId : TempId) (id : CommentId) (e : Entry) :
    (remapReply key tempId id e).id = e.id := by
  unfold remapReply
  split <;> rfl

/-- One removal: remap the Replies, then take the row out. -/
def removePosted (rows : Keyed Entry.id) (removed : PostedDraft) : Keyed Entry.id :=
  (rows.mapRows (remapReply removed.key removed.tempId removed.commentId)
    (remapReply_id removed.key removed.tempId removed.commentId)).filterRows
      (fun e => !decide (e.id = (removed.key, removed.tempId)))

/-- The removed Drafts and the Comments they were published under, in row order. -/
def removals (run : ActiveSubmissionRun) (rows : List Entry) : List PostedDraft :=
  rows.filterMap (fun e => (isRemoved run e).map (fun id => ⟨e.key, e.draft.localId, id⟩))

/-- The run is still waiting for a participant that is not posted. -/
def notClean (self : InMemoryStore) (run : ActiveSubmissionRun) : Bool :=
  run.items.items.any (fun item => (self.draftEntry run.key item.tempId).any (fun d =>
    match d.state with
    | .posted _ => false
    | _ => true))

def completeSubmission (self : InMemoryStore) (operationId : OperationId)
    (key : RemoteReviewIdentity) (completion : SubmissionCompletion) :
    Except StoreError Unit × InMemoryStore :=
  if self.failNextCompletion then
    (.error .injectedCompletionFailure, { self with failNextCompletion := false })
  else match self.activeRun with
    | none => (.error .submissionNotActive, self)
    | some run =>
      if run.operationId ≠ operationId ∨ run.key ≠ key then
        (.error .invalidSubmissionCompletion, self)
      else match completion with
        | .clean =>
          if run.currentTempId.isSome then (.error .invalidSubmissionCompletion, self)
          else if self.notClean run then (.error .submissionNotClean, self)
          else
            let removed := removals run self.entries.rows
            let self := self.retainTempIdFloor key
            (.ok (), { self with
              postedDrafts := self.postedDrafts ++ removed
              entries := removed.foldl removePosted self.entries
              activeRun := none })
        | .partialCompletion =>
          if run.currentTempId.isSome then (.error .invalidSubmissionCompletion, self)
          else (.ok (), { self with activeRun := none })
        | .aborted restore => match run.currentTempId with
          | none => (.error .invalidSubmissionCompletion, self)
          | some current => match self.draftEntry key current with
            | none => (.error .draftNotFound, self)
            | some d =>
              if d.state ≠ .submitting then (.error .invalidSubmissionCompletion, self)
              else (.ok (), { self.setState key current restore.draftState with activeRun := none })

def abandonSubmission (self : InMemoryStore) (operationId : OperationId)
    (key : RemoteReviewIdentity) : Except StoreError Unit × InMemoryStore :=
  match self.activeRun with
  | none => (.error .submissionNotActive, self)
  | some run =>
    if run.operationId ≠ operationId ∨ run.key ≠ key then (.error .invalidSubmissionCompletion, self)
    else match run.currentTempId with
      | none => (.error .invalidSubmissionCompletion, self)
      | some current => match self.draftEntry key current with
        | none => (.error .draftNotFound, self)
        | some d =>
          if d.state ≠ .submitting then (.error .invalidSubmissionCompletion, self)
          else (.ok (), { self.setState key current .outcomeUnknown with activeRun := none })

end InMemoryStore

end Bbr.Review
