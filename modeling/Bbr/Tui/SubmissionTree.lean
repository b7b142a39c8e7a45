import Bbr.Diff.Print
import Bbr.Tui.DurableSubmission

/-!
# The Submission tree

One item for every participant of a run, drawn from the running Submission or, where the process that
posted is gone, from the stored Drafts. The walks up the parents have no bound of their own: `fuel` is
how many steps each may take, and `none` is one that has not ended. The cursor, the repair notice and
the hidden flag are left out.
-/
namespace Bbr.Tui

open Bbr.Bitbucket Bbr.Review Bbr.Diff

inductive SubmissionItemState where
  | queued
  | posting
  | waitingToRetry
  | checkingPublication
  | persisting
  | posted
  | failed
  | skipped
  | outcomeUnknown
  deriving DecidableEq, Repr

structure SubmissionItemProjection where
  tempId : TempId
  parent : Option Parent
  depth : Nat
  body : Bytes
  context : Bytes
  state : SubmissionItemState
  reason : Option ApiError := none
  postedCommentId : Option CommentId := none
  blockingAncestor : Option TempId := none
  replyDescendants : Nat := 0
  postAttempts : Nat := 0
  publicationChecks : Nat := 0
  retry : Option SubmissionRetryCheckpoint := none
  retryEligible : Bool := false
  repairEligible : Bool := false
  deriving DecidableEq, Repr

structure SubmissionTree where
  key : RemoteReviewIdentity
  operationId : OperationId
  items : List SubmissionItemProjection := []
  omittedDrafts : List TempId := []
  completion : Option SubmissionCompletion := none
  deriving DecidableEq, Repr

def submissionOrderIndex (order : List TempId) (tempId : TempId) : Option Nat :=
  order.findIdx? (fun candidate => candidate == tempId)

def submissionProgressState : SubmissionPhase → SubmissionItemState
  | .postQueued | .postRetryPaused => .queued
  | .awaitingPost => .posting
  | .waitQueued | .awaitingWait | .waitRetryPaused => .waitingToRetry
  | .recoveryCheckQueued | .awaitingRecoveryCheck | .recoveryCheckPaused
  | .recoverySourceChanged | .duplicateQueued | .awaitingDuplicate
  | .duplicateCheckPaused => .checkingPublication
  | .admissionPaused | .persistencePaused | .duplicatePersistencePaused => .persisting

def submissionDescendantCount (drafts : List Draft) (root : TempId) (order : List TempId) : Nat :=
  order.countP (fun tempId => tempId != root && descendsFrom drafts root tempId)

def submissionContext (draft : Draft) : Bytes :=
  match draft.parent with
  | some (.draft tempId) => ascii "Reply to Draft #" ++ Diff.decimal tempId
  | some (.comment commentId) => ascii "Reply to Comment " ++ Diff.decimal commentId
  | none => match draft.effectiveScope with
    | .review => ascii "Review scope"
    | .file file => ascii "File " ++ file.path
    | .inline anchor =>
      ascii "Inline " ++ anchor.path ++ ascii ":" ++ Diff.decimal (anchor.line.getD 0)

namespace SubmissionItemProjection

/-- An item that keeps the Replies below it from being posted. -/
def blocks (self : SubmissionItemProjection) : Bool :=
  decide (self.state = .failed) || decide (self.state = .outcomeUnknown)

end SubmissionItemProjection

namespace SubmissionTree

def findConst (items : List SubmissionItemProjection) (tempId : TempId) :
    Option SubmissionItemProjection := items.find? (fun item => decide (item.tempId = tempId))

def depth (items : List SubmissionItemProjection) : Nat → Option Parent → Option Nat
  | 0, _ => none
  | fuel + 1, current => match current with
    | none => some 0
    | some (.comment _) => some 0
    | some (.draft parentId) => match findConst items parentId with
      | none => some 0
      | some item => (depth items fuel item.parent).map (fun result => result + 1)

def nearestBlockingAncestor (items : List SubmissionItemProjection) :
    Nat → Option Parent → Option (Option TempId)
  | 0, _ => none
  | fuel + 1, current => match current with
    | none => some none
    | some (.comment _) => some none
    | some (.draft tempId) => match findConst items tempId with
      | none => some none
      | some item =>
        if item.blocks then some (some tempId)
        else match item.blockingAncestor with
          | some blocked => some (some blocked)
          | none => nearestBlockingAncestor items fuel item.parent

def newItem (review : PendingReview) (order : List TempId) (tempId : TempId) (draft : Draft)
    (depth : Nat) : SubmissionItemProjection where
  tempId := tempId
  parent := draft.parent
  depth := depth
  body := draft.body
  context := submissionContext draft
  state := .queued
  replyDescendants := submissionDescendantCount review.drafts tempId order

def persistedState : DraftState → SubmissionItemState
  | .draft => .queued
  | .submitting | .outcomeUnknown => .outcomeUnknown
  | .posted _ => .posted
  | .failed _ => .failed

def persistedItem (review : PendingReview) (order : List TempId) (tempId : TempId) (draft : Draft)
    (depth : Nat) : SubmissionItemProjection :=
  { newItem review order tempId draft depth with
    state := persistedState draft.state
    reason := match draft.state with
      | .failed reason => some reason
      | _ => none
    postedCommentId := match draft.state with
      | .posted id => some id
      | _ => none
    retryEligible := decide (persistedState draft.state = .failed)
    repairEligible := decide (persistedState draft.state = .failed) }

/-- One item after the other; the depth of each is counted over those before it. -/
def appendItems (fuel : Nat) (review : PendingReview)
    (make : TempId → Draft → Nat → SubmissionItemProjection) :
    List SubmissionItemProjection → List TempId →
      Option (Except DriverError (List SubmissionItemProjection))
  | items, [] => some (.ok items)
  | items, tempId :: rest => match review.getConst tempId with
    | none => some (.error .draftNotFound)
    | some draft => match depth items fuel draft.parent with
      | none => none
      | some depth => appendItems fuel review make (items ++ [make tempId draft depth]) rest

/-- The items are rewritten in place; each is rewritten among those before it as they are now. -/
def rewrite (f : List SubmissionItemProjection → SubmissionItemProjection →
    Option SubmissionItemProjection) :
    List SubmissionItemProjection → List SubmissionItemProjection →
      Option (List SubmissionItemProjection)
  | done, [] => some done
  | done, item :: rest => match f (done ++ item :: rest) item with
    | none => none
    | some item => rewrite f (done ++ [item]) rest

def statusState : ItemStatus → SubmissionItemState
  | .posted => .posted
  | .failed => .failed
  | .skipped => .skipped
  | .outcomeUnknown => .outcomeUnknown

/-- What `sync` makes of the participant at this position. -/
def syncAt (durable : DurableSubmission) (machineIndex : Nat) (item : SubmissionItemProjection) :
    SubmissionItemProjection :=
  let item := { item with
    reason := none
    postedCommentId := none
    blockingAncestor := none
    postAttempts := durable.machine.attempt machineIndex
    publicationChecks := durable.machine.checkAttempt machineIndex
    retry := none }
  match durable.machine.result machineIndex with
  | some result => { item with
      state := statusState result.status
      reason := result.reason
      postedCommentId := result.id
      retryEligible := item.retryEligible || decide (result.status = .failed)
      repairEligible := item.repairEligible || decide (result.status = .failed) }
  | none =>
    let state := if durable.currentTempId ≠ some item.tempId then .queued
      else submissionProgressState durable.phase
    { item with
      state := state
      postAttempts := if state = .posting then item.postAttempts + 1 else item.postAttempts
      retry := if durable.currentTempId = some item.tempId ∧
          (durable.machine.mustWait = true ∨ durable.pendingWaitRetry.isSome = true) then
        some durable.machine.retryCheckpoint else none }

def syncItem (durable : DurableSubmission) (item : SubmissionItemProjection) :
    SubmissionItemProjection :=
  match submissionOrderIndex durable.machine.order item.tempId with
  | none => item
  | some machineIndex => syncAt durable machineIndex item

def nameBlocker (fuel : Nat) (items : List SubmissionItemProjection)
    (item : SubmissionItemProjection) : Option SubmissionItemProjection :=
  if item.state = .skipped then
    (nearestBlockingAncestor items fuel item.parent).map (fun ancestor =>
      { item with blockingAncestor := ancestor })
  else some item

def sync (fuel : Nat) (self : SubmissionTree) (durable : DurableSubmission) :
    Option SubmissionTree :=
  (rewrite (nameBlocker fuel) [] (self.items.map (syncItem durable))).map (fun items =>
    { self with items := items })

def captureOmittedDrafts (review : PendingReview) (order : List TempId) : List TempId :=
  (review.drafts.filter (fun draft => decide (draft.target = .bitbucket) &&
    (match draft.state with
      | .posted _ => false
      | _ => true) && (submissionOrderIndex order draft.localId).isNone)).map Draft.localId

def create (fuel : Nat) (durable : DurableSubmission) (order : List TempId) :
    Option (Except DriverError SubmissionTree) :=
  match appendItems fuel durable.review (newItem durable.review order) [] order with
  | none => none
  | some (.error err) => some (.error err)
  | some (.ok items) =>
    let tree : SubmissionTree :=
      { key := durable.key, operationId := durable.operationId, items := items
        omittedDrafts := captureOmittedDrafts durable.review order }
    (tree.sync fuel durable).map Except.ok

/-- A queued item below a blocking one is skipped, for the same reason. -/
def skipBlocked (fuel : Nat) (items : List SubmissionItemProjection)
    (item : SubmissionItemProjection) : Option SubmissionItemProjection :=
  if item.state ≠ .queued then some item
  else (nearestBlockingAncestor items fuel item.parent).map (fun found => match found with
    | none => item
    | some ancestor => { item with
        state := .skipped
        blockingAncestor := some ancestor
        reason := match findConst items ancestor with
          | some blocked => blocked.reason
          | none => item.reason })

def createPersisted (fuel : Nat) (key : RemoteReviewIdentity) (operationId : OperationId)
    (review : PendingReview) (runItems : List SubmissionRunItem)
    (completion : SubmissionCompletion) : Option (Except DriverError SubmissionTree) :=
  let order := runItems.map SubmissionRunItem.tempId
  match appendItems fuel review (persistedItem review order) [] order with
  | none => none
  | some (.error err) => some (.error err)
  | some (.ok items) => (rewrite (skipBlocked fuel) [] items).map (fun items =>
      .ok { key := key, operationId := operationId, items := items
            omittedDrafts := captureOmittedDrafts review order, completion := some completion })

end SubmissionTree

end Bbr.Tui
