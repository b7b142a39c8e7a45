import Bbr.Review.Store
import Bbr.Review.SubmissionRun

/-!
# The durable Submission

One Submission of the running process with the store that backs it: the machine, the copy of the
review it runs over, the phase of the one effect it waits for and the writes it still owes. Every
function returns its result, the Submission and the store; a failed write leaves both as the writes
before it made them. Locks, projections and allocation are left out, and what the source marks as
unreachable is an error here.
-/
namespace Bbr.Tui

open Bbr.Bitbucket Bbr.Review

/-- A text that fits its fixed buffer. -/
structure BoundedText (capacity : Nat) where
  slice : Bytes
  bounded : slice.length ≤ capacity
  deriving DecidableEq

def BoundedText.init (capacity : Nat) (value : Bytes) : Option (BoundedText capacity) :=
  if h : value.length ≤ capacity then some ⟨value, h⟩ else none

inductive SubmissionPhase where
  | postQueued
  | awaitingPost
  | postRetryPaused
  | waitQueued
  | awaitingWait
  | waitRetryPaused
  | admissionPaused
  | persistencePaused
  | recoveryCheckQueued
  | awaitingRecoveryCheck
  | recoveryCheckPaused
  | recoverySourceChanged
  | duplicateQueued
  | awaitingDuplicate
  | duplicateCheckPaused
  | duplicatePersistencePaused
  deriving DecidableEq, Repr

/-- A POST, or the read that looks for its Comment, with its own copy of the Draft. -/
structure PostDraft where
  operationId : OperationId
  identity : RemoteReviewIdentity
  draft : Draft
  parent : Option CommentId
  dedupe : Bool
  deriving DecidableEq, Repr

def PostDraft.create (key : RemoteReviewIdentity) (draft : Draft) (step : PostStep) : PostDraft where
  operationId := 0
  identity := key
  draft := draft
  parent := step.parent
  dedupe := step.dedupe

structure PostDraftCompleted where
  operationId : OperationId
  identity : RemoteReviewIdentity
  tempId : TempId
  outcome : PostOutcome
  retryAfterMs : Option Nat
  deriving DecidableEq, Repr

structure WaitSubmission where
  operationId : OperationId
  identity : RemoteReviewIdentity
  tempId : TempId
  ms : Nat
  checkpoint : Option SubmissionRetryCheckpoint
  deriving DecidableEq, Repr

inductive DuplicateCheckOutcome where
  | found (id : CommentId)
  | missing
  | rejected (err : ApiError)
  | failed
  deriving DecidableEq, Repr

structure PersistedTransition where
  tempId : TempId
  state : DraftState
  deriving DecidableEq, Repr

/-- The store writes owed for one decided participant. -/
structure PendingPersistence where
  transition : PersistedTransition
  outcome : Option SubmissionOutcome
  next : Option PostStep := none
  completion : Option SubmissionCompletion := none
  retryCheckpoint : Option SubmissionRetryCheckpoint := none
  retryCheckpointDone : Bool := false
  checkpointDone : Bool := false
  deriving DecidableEq, Repr

inductive PendingAdmission where
  | post (completed : PostDraftCompleted)
  | wait (wait : WaitSubmission)
  deriving DecidableEq, Repr

structure PendingDuplicate where
  outcome : DuplicateCheckOutcome
  checkpointDone : Bool := false
  deriving DecidableEq, Repr

structure SubmissionResultProjection where
  key : RemoteReviewIdentity
  completion : SubmissionCompletion
  posted : Nat := 0
  failed : Nat := 0
  skipped : Nat := 0
  outcomeUnknown : Nat := 0
  deriving DecidableEq, Repr

inductive AfterPost where
  | next (command : PostDraft) (transition : PersistedTransition)
  | check (command : PostDraft)
  | wait (wait : WaitSubmission)
  | finished (result : SubmissionResultProjection) (transition : PersistedTransition)
  deriving DecidableEq, Repr

inductive DriverError where
  | store (err : StoreError)
  | graph (err : InitError)
  | draftNotFound
  | invalidSubmissionState
  | invalidRecoveryState
  | noPendingPersistence
  | missingNextSubmissionCommand
  | staleSubmissionWait
  | valueTooLong
  deriving DecidableEq, Repr

structure DurableSubmission where
  key : RemoteReviewIdentity
  operationId : OperationId := 0
  currentTempId : Option TempId := none
  review : PendingReview
  machine : Submission
  phase : SubmissionPhase := .postQueued
  pendingAdmission : Option PendingAdmission := none
  pendingPersistence : Option PendingPersistence := none
  pendingWaitRetry : Option WaitSubmission := none
  postedAny : Bool := false
  runStart : Nat := 0
  recoverySourceCommit : Option (BoundedText 64) := none
  observedSourceCommit : Option (BoundedText 64) := none
  sourceChanged : Bool := false
  recovered : Bool := false
  pendingDuplicate : Option PendingDuplicate := none
  policyCheck : Bool := false
  deriving DecidableEq

/-- The command a begun run starts with. -/
inductive FirstCommand where
  | post (command : PostDraft)
  | wait (wait : WaitSubmission)
  deriving DecidableEq, Repr

structure Started where
  durable : DurableSubmission
  command : FirstCommand
  deriving DecidableEq

namespace DurableSubmission

/-- Which of the three constructors of the machine `create` uses. -/
def startOf (frozenItems : Option RunItems) (selectedRoot : Option TempId) : Start :=
  match frozenItems with
  | some items => .frozen items
  | none => match selectedRoot with
    | some root => .subtree root
    | none => .fresh

def create (store : InMemoryStore) (key : RemoteReviewIdentity) (frozenItems : Option RunItems)
    (selectedRoot : Option TempId) : Except DriverError DurableSubmission :=
  let review := store.loadReview key
  match (startOf frozenItems selectedRoot).begin review with
  | .error err => .error (.graph err)
  | .ok machine => .ok { key := key, review := review, machine := machine }

/-- Ask the machine for its next step. -/
def advance (self : DurableSubmission) : Step × DurableSubmission :=
  ((self.machine.advance self.review).1,
    { self with machine := (self.machine.advance self.review).2 })

def postCommand (self : DurableSubmission) (draft : Draft) (step : PostStep) : PostDraft :=
  { PostDraft.create self.key draft step with operationId := self.operationId }

def waitCommand (self : DurableSubmission) (wait : WaitStep) : WaitSubmission where
  operationId := self.operationId
  identity := self.key
  tempId := wait.tempId
  ms := wait.ms
  checkpoint := some wait.checkpoint

/-- The participants of a run, each frozen with its parent. -/
def participants (review : PendingReview) : List TempId → Option (List SubmissionRunItem)
  | [] => some []
  | tempId :: rest => match review.getConst tempId, participants review rest with
    | some participant, some items => some (⟨tempId, participant.parent⟩ :: items)
    | _, _ => none

/-- A run that has begun waits first if the store carried a delay over from an earlier run. -/
def firstCommand (self : DurableSubmission) (store : InMemoryStore) (command : PostDraft) :
    Except DriverError Started :=
  match store.activeSubmission.bind ActiveSubmissionRun.retry with
  | none => .ok ⟨self, .post command⟩
  | some retry =>
    let asked := { self with machine := self.machine.restoreRetry retry }.advance
    match asked.1 with
    | .wait wait => .ok ⟨{ asked.2 with phase := .waitQueued }, .wait (asked.2.waitCommand wait)⟩
    | _ => .error .invalidSubmissionState

/-- No result means that the review has no remote Draft to post. The store publishes only inside
`beginSubmission`. -/
def begin (store : InMemoryStore) (key : RemoteReviewIdentity) (sourceCommit : Bytes)
    (selectedRoot : Option TempId) : Except DriverError (Option Started) × InMemoryStore :=
  match create store key none selectedRoot with
  | .error err => (.error err, store)
  | .ok created =>
    let asked := created.advance
    match asked.1 with
    | .post post => match asked.2.review.getConst post.tempId with
      | none => (.error .draftNotFound, store)
      | some draft =>
        let remaining := asked.2.machine.order.drop asked.2.machine.idx
        match participants asked.2.review remaining with
        | none => (.error .draftNotFound, store)
        | some items => match store.beginSubmission key sourceCommit items with
          | (.error err, store) => (.error (.store err), store)
          | (.ok operationId, store) =>
            let durable := { asked.2 with
              runStart := asked.2.machine.idx
              operationId := operationId
              currentTempId := some post.tempId }
            match durable.firstCommand store (durable.postCommand draft post) with
            | .error err => (.error err, store)
            | .ok started => (.ok (some started), store)
    | .done => (.ok none, store)
    | _ => (.error .invalidSubmissionState, store)

/-- Without a response checkpoint the last POST is ambiguous: it was intended before the process
disappeared, so recovery reads before it can issue another. -/
def restore (machine : Submission) (retry : Option SubmissionRetryCheckpoint) : Submission :=
  match retry with
  | some checkpoint => machine.restoreRetry checkpoint
  | none => { machine with
      attempts := machine.attempts.set machine.idx 1
      ambiguousLast := machine.ambiguousLast.set machine.idx true }

def recover (store : InMemoryStore) (run : ActiveSubmissionRun) (key : RemoteReviewIdentity) :
    Except DriverError DurableSubmission :=
  match create store key (some run.items) none with
  | .error err => .error err
  | .ok created =>
    let asked := { created with machine := restore created.machine run.retry }.advance
    match asked.1.names with
    | none => .error .invalidRecoveryState
    | some currentTempId =>
      if some currentTempId ≠ run.currentTempId then .error .invalidRecoveryState
      else match BoundedText.init 64 run.sourceCommit with
        | none => .error .valueTooLong
        | some sourceCommit =>
          let durable := { asked.2 with
            operationId := run.operationId
            currentTempId := run.currentTempId
            recoverySourceCommit := some sourceCommit
            recovered := true
            phase := .recoveryCheckQueued }
          match asked.1 with
          | .wait wait =>
            .ok { durable with pendingWaitRetry := some (durable.waitCommand wait) }
          | _ => .ok durable

def materializeCurrentPost (self : DurableSubmission) :
    Except DriverError PostDraft × DurableSubmission :=
  match self.advance.1 with
  | .post post => match self.advance.2.review.getConst post.tempId with
    | none => (.error .draftNotFound, self.advance.2)
    | some draft =>
      (.ok (self.advance.2.postCommand draft post), { self.advance.2 with phase := .postQueued })
  | _ => (.error .invalidSubmissionState, self.advance.2)

def retryPost (self : DurableSubmission) : Except DriverError PostDraft × DurableSubmission :=
  if self.phase ≠ .postRetryPaused then (.error .invalidSubmissionState, self)
  else self.materializeCurrentPost

/-- The read for one step; only a `check` step that the source commit still allows is answered back
to the machine. -/
def duplicateCheck (self : DurableSubmission) (post : PostStep) (isCheck : Bool) :
    Except DriverError PostDraft × DurableSubmission :=
  if self.currentTempId ≠ some post.tempId then (.error .invalidRecoveryState, self)
  else match self.review.getConst post.tempId with
    | none => (.error .draftNotFound, self)
    | some draft =>
      (.ok { self.postCommand draft post with dedupe := true },
        { self with policyCheck := isCheck && !self.sourceChanged, phase := .duplicateQueued })

def materializeDuplicateCheck (self : DurableSubmission) :
    Except DriverError PostDraft × DurableSubmission :=
  match self.advance.1 with
  | .post post => self.advance.2.duplicateCheck post false
  | .check post => self.advance.2.duplicateCheck post true
  | _ => (.error .invalidRecoveryState, self.advance.2)

def recordCheckpoint (self : DurableSubmission) (completedTempId : TempId)
    (outcome : SubmissionOutcome) (nextTempId : Option TempId) : DurableSubmission :=
  let review := self.review.setState completedTempId outcome.draftState
  { self with
    review := match nextTempId with
      | some next => review.setState next .submitting
      | none => review
    currentTempId := nextTempId }

def countStatus (result : SubmissionResultProjection) :
    Option ItemResult → SubmissionResultProjection
  | none => result
  | some item => match item.status with
    | .posted => { result with posted := result.posted + 1 }
    | .failed => { result with failed := result.failed + 1 }
    | .skipped => { result with skipped := result.skipped + 1 }
    | .outcomeUnknown => { result with outcomeUnknown := result.outcomeUnknown + 1 }

def resultProjection (self : DurableSubmission) (completion : SubmissionCompletion) :
    SubmissionResultProjection :=
  self.machine.results.foldl countStatus { key := self.key, completion := completion }

def countState (result : SubmissionResultProjection) (draft : Draft) :
    SubmissionResultProjection :=
  if draft.target ≠ .bitbucket then result
  else match draft.state with
    | .posted _ => { result with posted := result.posted + 1 }
    | .failed _ => { result with failed := result.failed + 1 }
    | .outcomeUnknown | .submitting => { result with outcomeUnknown := result.outcomeUnknown + 1 }
    | .draft => { result with skipped := result.skipped + 1 }

def stateProjection (key : RemoteReviewIdentity) (review : PendingReview)
    (completion : SubmissionCompletion) : SubmissionResultProjection :=
  review.drafts.foldl countState { key := key, completion := completion }

def persistedResultProjection (self : DurableSubmission) (completion : SubmissionCompletion) :
    SubmissionResultProjection :=
  stateProjection self.key self.review completion

/-- The command for the next participant is built before any write. -/
def nextCommand (self : DurableSubmission) (pending : PendingPersistence) :
    Except DriverError (Option PostDraft) :=
  match pending.next with
  | none => .ok none
  | some next => match self.review.getConst next.tempId with
    | none => .error .draftNotFound
    | some draft => .ok (some (self.postCommand draft next))

def persistRetryCheckpoint (self : DurableSubmission) (store : InMemoryStore)
    (pending : PendingPersistence) : Except DriverError PendingPersistence × InMemoryStore :=
  match pending.retryCheckpoint with
  | none => (.ok pending, store)
  | some checkpoint =>
    if pending.retryCheckpointDone then (.ok pending, store)
    else match store.checkpointSubmissionRetry self.operationId self.key pending.transition.tempId
        checkpoint with
      | (.error err, store) => (.error (.store err), store)
      | (.ok (), store) => (.ok { pending with retryCheckpointDone := true }, store)

def persistOutcome (self : DurableSubmission) (store : InMemoryStore)
    (pending : PendingPersistence) :
    Except DriverError PendingPersistence × DurableSubmission × InMemoryStore :=
  match pending.outcome with
  | none => (.ok pending, self, store)
  | some outcome =>
    if pending.checkpointDone then (.ok pending, self, store)
    else
      let next := pending.next.map PostStep.tempId
      match store.checkpointSubmission self.operationId self.key pending.transition.tempId outcome
          next with
      | (.error err, store) => (.error (.store err), self, store)
      | (.ok (), store) =>
        (.ok { pending with checkpointDone := true },
          self.recordCheckpoint pending.transition.tempId outcome next, store)

/-- The run ends, or the next POST is queued. -/
def persistCompletion (self : DurableSubmission) (store : InMemoryStore)
    (pending : PendingPersistence) (command : Option PostDraft) :
    Except DriverError AfterPost × DurableSubmission × InMemoryStore :=
  match pending.completion with
  | some completion => match store.completeSubmission self.operationId self.key completion with
    | (.error err, store) => (.error (.store err), self, store)
    | (.ok (), store) =>
      (.ok (.finished (self.resultProjection completion) pending.transition),
        { self with pendingPersistence := none }, store)
  | none => match command with
    | none => (.error .missingNextSubmissionCommand, self, store)
    | some command =>
      (.ok (.next command pending.transition),
        { self with pendingPersistence := none, phase := .postQueued }, store)

/-- Keep what is still to be written. -/
def owing (self : DurableSubmission) (pending : PendingPersistence) : DurableSubmission :=
  { self with pendingPersistence := some pending }

/-- Make the writes still owed, each at most once over all retries. -/
def retryPersistence (self : DurableSubmission) (store : InMemoryStore) :
    Except DriverError AfterPost × DurableSubmission × InMemoryStore :=
  match self.pendingPersistence with
  | none => (.error .noPendingPersistence, self, store)
  | some pending => match self.nextCommand pending with
    | .error err => (.error err, self, store)
    | .ok command => match self.persistRetryCheckpoint store pending with
      | (.error err, store) => (.error err, self, store)
      | (.ok pending, store) =>
        match (self.owing pending).persistOutcome store pending with
        | (.error err, self, store) => (.error err, self, store)
        | (.ok pending, self, store) => (self.owing pending).persistCompletion store pending command

def outcomeOf : PostOutcome → SubmissionOutcome
  | .posted id => .posted id
  | .rejected err => .failed err
  | .ambiguous => .outcomeUnknown

/-- The server delay that a last attempt leaves behind; only a rejection carries one. -/
def terminalRetry (machine : Submission) : PostOutcome → Option SubmissionRetryCheckpoint
  | .rejected err => machine.terminalServerDelayMs.map (fun serverDelay =>
      ⟨.post, maxAttempts, postReason err, 0, some serverDelay, serverDelay, false⟩)
  | _ => none

/-- The state an aborted participant goes back to, read from the copy of the review. -/
def restoreState : DraftState → Option SubmissionPendingState
  | .draft => some .draft
  | .failed err => some (.failed err)
  | .outcomeUnknown => some .outcomeUnknown
  | .submitting | .posted _ => none

def runCompletion (machine : Submission) : SubmissionCompletion :=
  if machine.isClean then .clean else .partialCompletion

/-- Owe these writes and try them. -/
def persist (self : DurableSubmission) (store : InMemoryStore) (pending : PendingPersistence) :
    Except DriverError AfterPost × DurableSubmission × InMemoryStore :=
  { self.owing pending with phase := .persistencePaused }.retryPersistence store

/-- A wait is stored before it is launched; until then it is paused. -/
def persistWait (self : DurableSubmission) (store : InMemoryStore) (wait : WaitStep) :
    Except DriverError WaitSubmission × DurableSubmission × InMemoryStore :=
  let command := self.waitCommand wait
  match store.checkpointSubmissionRetry self.operationId self.key wait.tempId wait.checkpoint with
  | (.error err, store) => (.error (.store err),
      { self with pendingWaitRetry := some command, phase := .waitRetryPaused }, store)
  | (.ok (), store) =>
    (.ok command, { self with pendingWaitRetry := none, phase := .waitQueued }, store)

/-- The machine has taken the outcome of a POST: store what follows before the next effect. -/
def acceptReported (self : DurableSubmission) (store : InMemoryStore)
    (completed : PostDraftCompleted) :
    Except DriverError AfterPost × DurableSubmission × InMemoryStore :=
  let terminal := terminalRetry self.machine completed.outcome
  let outcome := outcomeOf completed.outcome
  let transition : PersistedTransition := ⟨completed.tempId, outcome.draftState⟩
  let asked := self.advance
  match asked.1 with
  | .post next => asked.2.persist store
      { transition := transition, outcome := some outcome, next := some next
        retryCheckpoint := terminal }
  | .done => asked.2.persist store
      { transition := transition, outcome := some outcome
        completion := some (runCompletion asked.2.machine), retryCheckpoint := terminal }
  | .aborted _ => match asked.2.review.getConst completed.tempId with
    | none => (.error .draftNotFound, asked.2, store)
    | some draft => match restoreState draft.state with
      | none => (.error .invalidSubmissionState, asked.2, store)
      | some restored => asked.2.persist store
          { transition := ⟨completed.tempId, restored.draftState⟩, outcome := none
            completion := some (.aborted restored) }
  | .wait wait => match asked.2.persistWait store wait with
    | (.error err, self, store) => (.error err, self, store)
    | (.ok command, self, store) => (.ok (.wait command), self, store)
  | .check _ => match { asked.2 with phase := .duplicateQueued }.materializeDuplicateCheck with
    | (.error err, self) => (.error err, self, store)
    | (.ok command, self) => (.ok (.check command), self, store)

def reported (self : DurableSubmission) (outcome : PostOutcome) (retryAfterMs : Option Nat) :
    DurableSubmission :=
  { self with machine := self.machine.report outcome retryAfterMs }

def noting (self : DurableSubmission) (outcome : PostOutcome) : DurableSubmission :=
  { self with postedAny := self.postedAny || (match outcome with
      | .posted _ => true
      | _ => false) }

def acceptPost (self : DurableSubmission) (store : InMemoryStore) (completed : PostDraftCompleted) :
    Except DriverError AfterPost × DurableSubmission × InMemoryStore :=
  ((self.noting completed.outcome).reported completed.outcome completed.retryAfterMs).acceptReported
    store completed

/-- The completed wait is stored before the next POST is built. -/
def persistCompletedWait (self : DurableSubmission) (store : InMemoryStore)
    (wait : WaitSubmission) : Except StoreError Unit × InMemoryStore :=
  match wait.checkpoint with
  | none => (.ok (), store)
  | some checkpoint => store.checkpointSubmissionRetry self.operationId self.key wait.tempId
      { checkpoint with pendingWait := false }

def completeWait (self : DurableSubmission) (store : InMemoryStore) (wait : WaitSubmission) :
    Except DriverError PostDraft × DurableSubmission × InMemoryStore :=
  if self.operationId ≠ wait.operationId ∨ self.currentTempId ≠ some wait.tempId ∨
      self.phase ≠ .awaitingWait then (.error .staleSubmissionWait, self, store)
  else match self.persistCompletedWait store wait with
    | (.error err, store) => (.error (.store err), self, store)
    | (.ok (), store) =>
      let waited := { self with
        machine := if self.machine.mustWait then self.machine.completeWait else self.machine }
      (waited.materializeCurrentPost.1, waited.materializeCurrentPost.2, store)

end DurableSubmission

end Bbr.Tui
