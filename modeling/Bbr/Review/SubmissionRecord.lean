import Bbr.Review.Draft

/-!
# Durable records of a Submission

The values a store keeps about an active run: its frozen participants, the one in flight and the retry
checkpoint. `RunItems` is the participant list after the check that every store makes when a run begins,
so a list with a repeated TempId is not one.
-/
namespace Bbr.Review

open Bbr.Bitbucket

abbrev OperationId := Nat

/-- Durable identity of a remote Pending Review. -/
structure RemoteReviewIdentity where
  workspace : Bytes
  repository : Bytes
  pullRequestId : Nat
  deriving DecidableEq, Repr

inductive SubmissionRetryPhase where
  | post
  | publicationCheck
  deriving DecidableEq, Repr

inductive SubmissionRetryReason where
  | rateLimited
  | serverError
  | ambiguousPost
  | publicationCheckRateLimited
  | publicationCheckServerError
  | publicationCheckTransport
  deriving DecidableEq, Repr

structure SubmissionRetryCheckpoint where
  phase : SubmissionRetryPhase
  attempt : Nat
  reason : SubmissionRetryReason
  localDelayMs : Nat
  serverDelayMs : Option Nat
  effectiveDelayMs : Nat
  pendingWait : Bool
  deriving DecidableEq, Repr

structure SubmissionRunItem where
  tempId : TempId
  parent : Option Parent
  deriving DecidableEq, Repr

/-- The participants a run froze when it began. -/
structure RunItems where
  items : List SubmissionRunItem
  distinct : (items.map SubmissionRunItem.tempId).Nodup
  deriving DecidableEq, Repr

def submissionItemIndex (items : List SubmissionRunItem) (tempId : TempId) : Option Nat :=
  items.findIdx? (fun item => item.tempId == tempId)

/-- The durable result of one network post. -/
inductive SubmissionOutcome where
  | posted (id : CommentId)
  | failed (reason : ApiError)
  | outcomeUnknown
  deriving DecidableEq, Repr

def SubmissionOutcome.draftState : SubmissionOutcome → DraftState
  | .posted id => .posted id
  | .failed err => .failed err
  | .outcomeUnknown => .outcomeUnknown

/-- The states an aborted participant can be put back into. -/
inductive SubmissionPendingState where
  | draft
  | failed (reason : ApiError)
  | outcomeUnknown
  deriving DecidableEq, Repr

def SubmissionPendingState.draftState : SubmissionPendingState → DraftState
  | .draft => .draft
  | .failed err => .failed err
  | .outcomeUnknown => .outcomeUnknown

inductive SubmissionCompletion where
  | clean
  | partialCompletion
  | aborted (restore : SubmissionPendingState)
  deriving DecidableEq, Repr

inductive UnknownResolution where
  | posted (id : CommentId)
  | unpublished
  deriving DecidableEq, Repr

structure ActiveSubmissionRun where
  operationId : OperationId
  key : RemoteReviewIdentity
  sourceCommit : Bytes
  currentTempId : Option TempId
  items : RunItems
  retry : Option SubmissionRetryCheckpoint := none
  deriving DecidableEq, Repr

end Bbr.Review
