import Bbr.Tui.DurableSubmission

/-!
# The Submission driver of Presentation

The part of Presentation that owns a durable Submission: the queue of commands, the commands its
workers have taken, and one handler for each input. A completion is built from the taken command it
answers; one that no longer matches the Submission is dropped. A crash keeps only the store, and the
next process looks for a run to recover. Refusals that only keep a reviewer from starting a run are
left out, so more runs start here than there.
-/
namespace Bbr.Tui

open Bbr.Bitbucket Bbr.Review

structure CheckRecovery where
  operationId : OperationId
  identity : RemoteReviewIdentity
  sourceCommit : BoundedText 64
  deriving DecidableEq

inductive Command where
  | postDraft (command : PostDraft)
  | waitSubmission (wait : WaitSubmission)
  | checkRecovery (check : CheckRecovery)
  | findDuplicate (command : PostDraft)
  deriving DecidableEq

def Command.asPostDraft : Command → Option PostDraft
  | .postDraft command => some command
  | _ => none

def Command.asWaitSubmission : Command → Option WaitSubmission
  | .waitSubmission wait => some wait
  | _ => none

def Command.asCheckRecovery : Command → Option CheckRecovery
  | .checkRecovery check => some check
  | _ => none

def Command.asFindDuplicate : Command → Option PostDraft
  | .findDuplicate command => some command
  | _ => none

def Command.operationId : Command → OperationId
  | .postDraft command => command.operationId
  | .waitSubmission wait => wait.operationId
  | .checkRecovery check => check.operationId
  | .findDuplicate command => command.operationId

inductive RecoveryCheckOutcome where
  | currentSource (source : BoundedText 64)
  | failed
  deriving DecidableEq

structure RecoveryNotice where
  operationId : OperationId
  key : RemoteReviewIdentity
  sourceCommit : BoundedText 64
  currentTempId : Option TempId
  deriving DecidableEq

/-- A reviewer's change to the store, with its own Review; authoring puts Drafts in state `draft`. -/
inductive Edit where
  | put (key : RemoteReviewIdentity) (incoming : Draft)
  | editDraftBody (key : RemoteReviewIdentity) (edit : DraftBodyEdit)
  | reanchorDraft (key : RemoteReviewIdentity) (reanchor : DraftReanchor)
  | deleteDraftSubtree (key : RemoteReviewIdentity) (deletion : DraftSubtreeDelete)
  | resolveUnknown (key : RemoteReviewIdentity) (tempId : TempId) (resolution : UnknownResolution)
  | reserveTempId (key : RemoteReviewIdentity)

def Edit.apply (store : InMemoryStore) : Edit → InMemoryStore
  | .put key incoming => (store.put key (incoming.withState .draft)).2
  | .editDraftBody key edit => (store.editDraftBody key edit).2
  | .reanchorDraft key reanchor => (store.reanchorDraft key reanchor).2
  | .deleteDraftSubtree key deletion => (store.deleteDraftSubtree key deletion).2
  | .resolveUnknown key tempId resolution => (store.resolveUnknown key tempId resolution).2
  | .reserveTempId key => (store.reserveTempId key).2

/-- Everything that can happen to the driver; an index picks one of the commands taken. -/
inductive Input where
  | start (key : RemoteReviewIdentity) (sourceCommit : Bytes) (selectedRoot : Option TempId)
  | take
  | postCompleted (i : Nat) (outcome : PostOutcome) (retryAfterMs : Option Nat)
  | postLaunchFailed (i : Nat)
  | waitCompleted (i : Nat)
  | waitLaunchFailed (i : Nat)
  | recoveryChecked (i : Nat) (outcome : RecoveryCheckOutcome)
  | duplicateChecked (i : Nat) (outcome : DuplicateCheckOutcome) (retryAfterMs : Option Nat)
  | resume
  | recover
  | abandon
  | crash
  | failNextCheckpoint
  | failNextCompletion
  | edit (edit : Edit)

structure Presentation where
  reviews : InMemoryStore
  requireSourceCheck : Bool := false
  durable : Option DurableSubmission := none
  commands : List Command := []
  issued : List Command := []
  recovery : Option RecoveryNotice := none
  submissionResult : Option SubmissionResultProjection := none
  deriving DecidableEq

namespace Presentation

def queue (self : Presentation) (command : Command) : Presentation :=
  { self with commands := self.commands ++ [command] }

def checkRecoveryCommand (durable : DurableSubmission) (sourceCommit : BoundedText 64) : Command :=
  .checkRecovery ⟨durable.operationId, durable.key, sourceCommit⟩

/-- The phase of the Submission once its command is taken. -/
def takenPhase (durable : DurableSubmission) : Command → SubmissionPhase
  | .postDraft post =>
    if durable.operationId = post.operationId ∧ durable.currentTempId = some post.draft.localId ∧
      durable.phase = .postQueued then .awaitingPost else durable.phase
  | .waitSubmission wait =>
    if durable.operationId = wait.operationId ∧ durable.currentTempId = some wait.tempId ∧
      durable.phase = .waitQueued then .awaitingWait else durable.phase
  | .checkRecovery check =>
    if durable.operationId = check.operationId ∧ durable.phase = .recoveryCheckQueued then
      .awaitingRecoveryCheck else durable.phase
  | .findDuplicate check =>
    if durable.operationId = check.operationId ∧ durable.currentTempId = some check.draft.localId ∧
      durable.phase = .duplicateQueued then .awaitingDuplicate else durable.phase

def takeCommand (self : Presentation) : Presentation :=
  match self.commands with
  | [] => self
  | command :: rest =>
    { self with
      commands := rest
      issued := self.issued ++ [command]
      durable := self.durable.map (fun durable =>
        { durable with phase := takenPhase durable command }) }

def consumeCommand (self : Presentation) (i : Nat) : Presentation :=
  { self with issued := self.issued.eraseIdx i }

def removeQueuedSubmissionCommands (self : Presentation) (operationId : OperationId) :
    Presentation :=
  { self with
    commands := self.commands.filter (fun command => decide (command.operationId ≠ operationId)) }

/-- A completion that belongs to the Submission and to the phase it answers. -/
def admits (durable : DurableSubmission) (operationId : OperationId)
    (identity : RemoteReviewIdentity) (tempId : TempId) (phase : SubmissionPhase) : Bool :=
  decide (durable.operationId = operationId ∧ durable.key = identity ∧
    durable.currentTempId = some tempId ∧ durable.phase = phase)

/-- Every worker answers a command it took: the command is consumed, and its completion processed
only if it is admitted. -/
def complete {α : Type} (self : Presentation) (i : Nat) (answers : Command → Option α)
    (admitted : DurableSubmission → α → Bool)
    (process : Presentation → DurableSubmission → α → Presentation) : Presentation :=
  match self.issued[i]?.bind answers with
  | none => self
  | some command => match self.durable with
    | none => self.consumeCommand i
    | some durable =>
      if admitted durable command then process (self.consumeCommand i) durable command
      else self.consumeCommand i

def admitsPost (phase : SubmissionPhase) (durable : DurableSubmission) (command : PostDraft) : Bool :=
  admits durable command.operationId command.identity command.draft.localId phase

def admitsWait (durable : DurableSubmission) (wait : WaitSubmission) : Bool :=
  admits durable wait.operationId wait.identity wait.tempId .awaitingWait

def admitsRecovery (durable : DurableSubmission) (check : CheckRecovery) : Bool :=
  decide (durable.operationId = check.operationId ∧ durable.key = check.identity ∧
    durable.phase = .awaitingRecoveryCheck)

def publishSubmissionProgress (self : Presentation) : AfterPost → Presentation
  | .next command _ => self.queue (.postDraft command)
  | .check command => self.queue (.findDuplicate command)
  | .wait wait => self.queue (.waitSubmission wait)
  | .finished result _ => { self with submissionResult := some result, durable := none }

/-- The Submission and the store after a driver function, and its progress if it succeeded. -/
def publish (self : Presentation)
    (done : Except DriverError AfterPost × DurableSubmission × InMemoryStore) : Presentation :=
  let self := { self with durable := some done.2.1, reviews := done.2.2 }
  match done.1 with
  | .error _ => self
  | .ok progress => self.publishSubmissionProgress progress

def processPostDraft (self : Presentation) (durable : DurableSubmission)
    (completed : PostDraftCompleted) : Presentation :=
  self.publish (durable.acceptPost self.reviews completed)

def processSubmissionWait (self : Presentation) (durable : DurableSubmission)
    (completed : WaitSubmission) : Presentation :=
  match durable.completeWait self.reviews completed with
  | (.error _, durable, reviews) => { self with
      durable := some { durable with
        pendingAdmission := some (.wait completed), phase := .admissionPaused }
      reviews := reviews }
  | (.ok command, durable, reviews) =>
    { self with durable := some durable, reviews := reviews }.queue (.postDraft command)

def queueRecoveryCheck (self : Presentation) (durable : DurableSubmission) : Presentation :=
  match durable.recoverySourceCommit with
  | none => self
  | some sourceCommit =>
    { self with durable := some { durable with phase := .recoveryCheckQueued } }.queue
      (checkRecoveryCommand durable sourceCommit)

def queueDuplicateCheck (self : Presentation) (durable : DurableSubmission) : Presentation :=
  match durable.materializeDuplicateCheck with
  | (.error _, durable) =>
    { self with durable := some { durable with phase := .duplicateCheckPaused } }
  | (.ok command, durable) =>
    { self with durable := some durable }.queue (.findDuplicate command)

/-- Every remote Draft of the review is posted. -/
def allPosted (review : PendingReview) : Bool :=
  review.drafts.all (fun draft => decide (draft.target ≠ .bitbucket) ||
    (match draft.state with
      | .posted _ => true
      | _ => false))

def duplicateOutcome : DuplicateCheckOutcome → Option SubmissionOutcome
  | .found id => some (.posted id)
  | .missing => some .outcomeUnknown
  | .rejected _ | .failed => none

/-- The run ends with what the read found, whatever is left of it. -/
def finishDuplicate (self : Presentation) (durable : DurableSubmission) : Presentation :=
  let completion : SubmissionCompletion :=
    if allPosted durable.review then .clean else .partialCompletion
  match self.reviews.completeSubmission durable.operationId durable.key completion with
  | (.error _, reviews) =>
    { self with
      durable := some { durable with phase := .duplicatePersistencePaused }
      reviews := reviews }
  | (.ok (), reviews) =>
    { self with
      durable := none
      reviews := reviews
      submissionResult := some (durable.persistedResultProjection completion) }

def persistDuplicateResolution (self : Presentation) (durable : DurableSubmission) : Presentation :=
  let self := { self with durable := some durable }
  match durable.pendingDuplicate with
  | none => self
  | some pending => match durable.currentTempId with
    | none => self
    | some tempId => match duplicateOutcome pending.outcome with
      | none => self
      | some outcome =>
        if pending.checkpointDone then self.finishDuplicate durable
        else match self.reviews.checkpointSubmission durable.operationId durable.key tempId outcome
            none with
          | (.error _, reviews) =>
            { self with
              durable := some { durable with phase := .duplicatePersistencePaused }
              reviews := reviews }
          | (.ok (), reviews) =>
            { self with reviews := reviews }.finishDuplicate
              { durable.recordCheckpoint tempId outcome none with
                pendingDuplicate := some { pending with checkpointDone := true } }

def resumePostDraftLaunch (self : Presentation) (durable : DurableSubmission) : Presentation :=
  match durable.retryPost with
  | (.error _, durable) => { self with durable := some durable }
  | (.ok command, durable) => { self with durable := some durable }.queue (.postDraft command)

def resumeSubmissionWaitLaunch (self : Presentation) (durable : DurableSubmission) :
    Presentation :=
  match durable.pendingWaitRetry with
  | none => self
  | some wait =>
    let resumed := { durable with pendingWaitRetry := none, phase := .waitQueued }
    match wait.checkpoint with
    | none => { self with durable := some resumed }.queue (.waitSubmission wait)
    | some checkpoint => match self.reviews.checkpointSubmissionRetry durable.operationId durable.key
        wait.tempId checkpoint with
      | (.error _, reviews) => { self with reviews := reviews }
      | (.ok (), reviews) =>
        { self with durable := some resumed, reviews := reviews }.queue (.waitSubmission wait)

def resumeSubmissionAdmission (self : Presentation) (durable : DurableSubmission) : Presentation :=
  match durable.pendingAdmission with
  | none => self
  | some (.post completed) =>
    self.processPostDraft { durable with pendingAdmission := none, phase := .awaitingPost } completed
  | some (.wait completed) =>
    self.processSubmissionWait { durable with pendingAdmission := none, phase := .awaitingWait }
      completed

def resumeSubmissionPersistence (self : Presentation) (durable : DurableSubmission) :
    Presentation :=
  self.publish (durable.retryPersistence self.reviews)

/-- The repeated `submit` of a Submission that is already active. -/
def resumeActive (self : Presentation) (durable : DurableSubmission) : Presentation :=
  if durable.phase = .postRetryPaused then self.resumePostDraftLaunch durable
  else if durable.phase = .waitRetryPaused then self.resumeSubmissionWaitLaunch durable
  else if durable.pendingAdmission.isSome then self.resumeSubmissionAdmission durable
  else if durable.pendingPersistence.isSome then self.resumeSubmissionPersistence durable
  else self

def startSubmissionSelection (self : Presentation) (key : RemoteReviewIdentity)
    (sourceCommit : Bytes) (selectedRoot : Option TempId) : Presentation :=
  match self.durable with
  | some durable => if selectedRoot.isSome then self else self.resumeActive durable
  | none =>
    if self.requireSourceCheck ∧ BoundedText.init 64 sourceCommit = none then self
    else match DurableSubmission.begin self.reviews key sourceCommit selectedRoot with
      | (.error _, reviews) => { self with reviews := reviews }
      | (.ok none, reviews) => { self with reviews := reviews }
      | (.ok (some started), reviews) =>
        let self := { self with reviews := reviews }
        match self.requireSourceCheck, BoundedText.init 64 sourceCommit with
        | true, some sourceCheck =>
          let durable := { started.durable with
            recoverySourceCommit := some sourceCheck, phase := .recoveryCheckQueued }
          { self with durable := some durable }.queue (checkRecoveryCommand durable sourceCheck)
        | _, _ => match started.command with
          | .post command =>
            { self with durable := some started.durable }.queue (.postDraft command)
          | .wait wait =>
            { self with durable := some started.durable }.queue (.waitSubmission wait)

def resumeDurableSubmission (self : Presentation) : Presentation :=
  match self.durable with
  | none => self
  | some durable =>
    if durable.phase = .recoveryCheckPaused then self.queueRecoveryCheck durable
    else if durable.phase = .duplicateCheckPaused then self.queueDuplicateCheck durable
    else if durable.phase = .duplicatePersistencePaused then self.persistDuplicateResolution durable
    else self.resumeActive durable

def acceptPostDraft (self : Presentation) (i : Nat) (outcome : PostOutcome)
    (retryAfterMs : Option Nat) : Presentation :=
  self.complete i Command.asPostDraft (admitsPost .awaitingPost) (fun self durable command =>
    self.processPostDraft durable
      ⟨command.operationId, command.identity, command.draft.localId, outcome, retryAfterMs⟩)

def acceptPostDraftLaunchFailure (self : Presentation) (i : Nat) : Presentation :=
  self.complete i Command.asPostDraft (admitsPost .awaitingPost) (fun self durable _ =>
    { self with durable := some { durable with phase := .postRetryPaused } })

def acceptSubmissionWait (self : Presentation) (i : Nat) : Presentation :=
  self.complete i Command.asWaitSubmission admitsWait processSubmissionWait

def acceptSubmissionWaitLaunchFailure (self : Presentation) (i : Nat) : Presentation :=
  self.complete i Command.asWaitSubmission admitsWait (fun self durable wait =>
    { self with durable := some { durable with
      pendingWaitRetry := some wait, phase := .waitRetryPaused } })

/-- The source head moved before the first POST of a begun run. The source restores `draft`,
whatever the participant was before. -/
def abortChangedSubmission (self : Presentation) (durable : DurableSubmission) : Presentation :=
  let self := { self with durable := some durable }
  match durable.observedSourceCommit with
  | none => { self with durable := some { durable with phase := .recoveryCheckPaused } }
  | some _ =>
    match self.reviews.completeSubmission durable.operationId durable.key (.aborted .draft) with
    | (.error _, reviews) =>
      { self with
        durable := some { durable with phase := .recoveryCheckPaused }
        reviews := reviews }
    | (.ok (), reviews) =>
      let review := match durable.currentTempId with
        | some tempId => durable.review.setState tempId .draft
        | none => durable.review
      { self with
        durable := none
        reviews := reviews
        submissionResult := some
          ({ durable with review := review }.persistedResultProjection (.aborted .draft)) }

/-- The source head is the one the run began with: do what the machine asks for, but let a recovered
run read before it posts. -/
def continueChecked (self : Presentation) (durable : DurableSubmission) : Presentation :=
  let asked := durable.advance
  match asked.1 with
  | .wait wait =>
    { self with durable := some { asked.2 with phase := .waitQueued } }.queue
      (.waitSubmission (asked.2.waitCommand wait))
  | .post post =>
    if asked.2.recovered then self.queueDuplicateCheck asked.2
    else match asked.2.review.getConst post.tempId with
      | none => { self with durable := some { asked.2 with phase := .recoveryCheckPaused } }
      | some draft =>
        { self with durable := some { asked.2 with phase := .postQueued } }.queue
          (.postDraft (asked.2.postCommand draft post))
  | .check _ => self.queueDuplicateCheck asked.2
  | _ => { self with durable := some { asked.2 with phase := .recoveryCheckPaused } }

def processRecoveryCheck (self : Presentation) (durable : DurableSubmission)
    (outcome : RecoveryCheckOutcome) : Presentation :=
  match outcome with
  | .failed => { self with durable := some { durable with phase := .recoveryCheckPaused } }
  | .currentSource currentSource => match durable.recoverySourceCommit with
    | none => self
    | some recoveredSource =>
      if headChanged recoveredSource.slice currentSource.slice then
        let durable := { durable with observedSourceCommit := some currentSource }
        if durable.recovered then
          self.queueDuplicateCheck
            { durable with sourceChanged := true, phase := .recoverySourceChanged }
        else self.abortChangedSubmission durable
      else self.continueChecked durable

def acceptRecoveryCheck (self : Presentation) (i : Nat) (outcome : RecoveryCheckOutcome) :
    Presentation :=
  self.complete i Command.asCheckRecovery admitsRecovery (fun self durable _ =>
    self.processRecoveryCheck durable outcome)

def checkResult (outcome : DuplicateCheckOutcome) (retryAfterMs : Option Nat) : CheckResult where
  outcome := match outcome with
    | .found id => .found id
    | .missing => .missing
    | .rejected err => .rejected err
    | .failed => .ambiguous
  retryAfterMs := retryAfterMs

/-- The durable outcome of a decided item; a skipped item has none. -/
def resultOutcome (result : ItemResult) : Option SubmissionOutcome :=
  match result.status, result.id, result.reason with
  | .posted, some id, _ => some (.posted id)
  | .failed, _, some reason => some (.failed reason)
  | .outcomeUnknown, _, _ => some .outcomeUnknown
  | _, _, _ => none

/-- The machine has taken the answer of a publication check: do what it asks for next. At the end
the source records the result of the last position it passed, and nothing when that is skipped. -/
def advanceAfterPolicyCheck (self : Presentation) (durable : DurableSubmission) (tempId : TempId) :
    Presentation :=
  let asked := durable.advance
  let self := { self with durable := some asked.2 }
  match asked.1 with
  | .post post => match asked.2.review.getConst post.tempId with
    | none => self
    | some draft =>
      { self with durable := some { asked.2 with phase := .postQueued } }.queue
        (.postDraft (asked.2.postCommand draft post))
  | .check _ => self.queueDuplicateCheck asked.2
  | .wait wait => match asked.2.persistWait self.reviews wait with
    | (.error _, durable, reviews) => { self with durable := some durable, reviews := reviews }
    | (.ok command, durable, reviews) =>
      { self with durable := some durable, reviews := reviews }.queue (.waitSubmission command)
  | .done => match (asked.2.machine.result (asked.2.machine.idx - 1)).bind resultOutcome with
    | none => self
    | some outcome => self.publish (asked.2.persist self.reviews
        { transition := ⟨tempId, outcome.draftState⟩, outcome := some outcome
          completion := some (DurableSubmission.runCompletion asked.2.machine) })
  | .aborted _ => self

def processDuplicateCheck (self : Presentation) (durable : DurableSubmission) (tempId : TempId)
    (outcome : DuplicateCheckOutcome) (retryAfterMs : Option Nat) : Presentation :=
  if durable.policyCheck then
    self.advanceAfterPolicyCheck
      { durable with
        policyCheck := false
        machine := durable.machine.reportCheck (checkResult outcome retryAfterMs) } tempId
  else match duplicateOutcome outcome with
    | none => { self with durable := some { durable with phase := .duplicateCheckPaused } }
    | some _ => self.persistDuplicateResolution
        { durable with
          pendingDuplicate := some { outcome := outcome }, phase := .duplicatePersistencePaused }

def acceptDuplicateCheck (self : Presentation) (i : Nat) (outcome : DuplicateCheckOutcome)
    (retryAfterMs : Option Nat) : Presentation :=
  self.complete i Command.asFindDuplicate (admitsPost .awaitingDuplicate)
    (fun self durable command =>
      self.processDuplicateCheck durable command.draft.localId outcome retryAfterMs)

def discoverRecovery (self : Presentation) : Presentation :=
  match self.reviews.activeSubmission with
  | none => self
  | some run => match BoundedText.init 64 run.sourceCommit with
    | none => self
    | some sourceCommit =>
      { self with recovery := some ⟨run.operationId, run.key, sourceCommit, run.currentTempId⟩ }

def recoveryMatches (notice : RecoveryNotice) (active : ActiveSubmissionRun) : Bool :=
  decide (notice.operationId = active.operationId ∧ notice.key = active.key ∧
    notice.currentTempId = active.currentTempId ∧ notice.sourceCommit.slice = active.sourceCommit)

/-- Every participant of the interrupted run has its outcome: only the completion is left. -/
def completeRecoveredTerminal (self : Presentation) (notice : RecoveryNotice) : Presentation :=
  let review := self.reviews.loadReview notice.key
  let completion : SubmissionCompletion :=
    if allPosted review then .clean else .partialCompletion
  match self.reviews.completeSubmission notice.operationId notice.key completion with
  | (.error _, reviews) => { self with reviews := reviews }
  | (.ok (), reviews) =>
    { self with
      reviews := reviews
      recovery := none
      submissionResult := some (DurableSubmission.stateProjection notice.key review completion) }

def recoverRun (self : Presentation) (notice : RecoveryNotice) : Presentation :=
  match self.reviews.activeSubmission with
  | none => { self with recovery := none }
  | some active =>
    if recoveryMatches notice active = false then self.discoverRecovery
    else if notice.currentTempId = none then self.completeRecoveredTerminal notice
    else match DurableSubmission.recover self.reviews active notice.key with
      | .error _ => self
      | .ok durable =>
        { self with durable := some durable, recovery := none }.queue
          (checkRecoveryCommand durable notice.sourceCommit)

def recoverSubmission (self : Presentation) : Presentation :=
  match self.durable with
  | some durable =>
    if durable.phase = .recoveryCheckPaused then self.queueRecoveryCheck durable
    else if durable.phase = .duplicateCheckPaused then self.queueDuplicateCheck durable
    else if durable.phase = .duplicatePersistencePaused then self.persistDuplicateResolution durable
    else self
  | none => match self.recovery with
    | none => self
    | some notice => self.recoverRun notice

def abandonRecoveredSubmission (self : Presentation) : Presentation :=
  match self.durable with
  | none => self
  | some durable => match durable.currentTempId with
    | none => self
    | some tempId =>
      if durable.recovered = false then self
      else match self.reviews.abandonSubmission durable.operationId durable.key with
        | (.error _, reviews) => { self with reviews := reviews }
        | (.ok (), reviews) =>
          let abandoned := { durable with
            review := durable.review.setState tempId .outcomeUnknown }
          { (self.removeQueuedSubmissionCommands durable.operationId) with
            durable := none
            reviews := reviews
            submissionResult := some (abandoned.persistedResultProjection .partialCompletion) }

/-- A process starts over whatever the store holds. -/
def boot (reviews : InMemoryStore) (requireSourceCheck : Bool) : Presentation :=
  { reviews := reviews, requireSourceCheck := requireSourceCheck : Presentation }.discoverRecovery

def update (self : Presentation) : Input → Presentation
  | .start key sourceCommit selectedRoot =>
    self.startSubmissionSelection key sourceCommit selectedRoot
  | .take => self.takeCommand
  | .postCompleted i outcome retryAfterMs => self.acceptPostDraft i outcome retryAfterMs
  | .postLaunchFailed i => self.acceptPostDraftLaunchFailure i
  | .waitCompleted i => self.acceptSubmissionWait i
  | .waitLaunchFailed i => self.acceptSubmissionWaitLaunchFailure i
  | .recoveryChecked i outcome => self.acceptRecoveryCheck i outcome
  | .duplicateChecked i outcome retryAfterMs => self.acceptDuplicateCheck i outcome retryAfterMs
  | .resume => self.resumeDurableSubmission
  | .recover => self.recoverSubmission
  | .abandon => self.abandonRecoveredSubmission
  | .crash => boot self.reviews self.requireSourceCheck
  | .failNextCheckpoint => { self with reviews := { self.reviews with failNextCheckpoint := true } }
  | .failNextCompletion => { self with reviews := { self.reviews with failNextCompletion := true } }
  | .edit edit => { self with reviews := edit.apply self.reviews }

def Steps (s : Presentation) (e : Input) (t : Presentation) : Prop := s.update e = t

end Presentation

end Bbr.Tui
