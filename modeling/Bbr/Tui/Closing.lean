import Bbr.Tui.History

/-!
# The process dies before the completion

A run ends with one last store write. The process that dies right before it leaves the store as a
refused completion does: the next process finds a run whose participants all have their outcome, and
completes it from the rows alone.
-/
namespace Bbr.Review.InMemoryStore

open Bbr.Bitbucket

variable {st st' : InMemoryStore} {operationId : OperationId} {key : RemoteReviewIdentity}

/-- The next completion is refused. -/
def armed (st : InMemoryStore) : InMemoryStore := { st with failNextCompletion := true }

theorem checkpointSubmissionRetry_armed {tempId : TempId} {checkpoint : SubmissionRetryCheckpoint}
    (h : st.checkpointSubmissionRetry operationId key tempId checkpoint = (.ok (), st')) :
    st.armed.checkpointSubmissionRetry operationId key tempId checkpoint = (.ok (), st'.armed) := by
  unfold checkpointSubmissionRetry at h
  split at h
  · cases h
  rename_i hfault
  split at h
  · cases h
  rename_i run hrun
  split at h
  · cases h
  rename_i hids
  split at h
  · cases h
  rename_i hdelay
  cases h
  have hfault' : ¬ st.armed.failNextCheckpoint = true := hfault
  have hrun' : st.armed.activeRun = some run := hrun
  unfold checkpointSubmissionRetry
  rw [if_neg hfault']
  simp only [hrun', if_neg hids, if_neg hdelay]
  rfl

theorem checkpointSubmission_armed {completed : TempId} {outcome : SubmissionOutcome}
    {next : Option TempId}
    (h : st.checkpointSubmission operationId key completed outcome next = (.ok (), st')) :
    st.armed.checkpointSubmission operationId key completed outcome next = (.ok (), st'.armed) := by
  unfold checkpointSubmission at h
  split at h
  · cases h
  rename_i hfault
  split at h
  · cases h
  rename_i run hrun
  split at h
  · cases h
  rename_i hids
  split at h
  · cases h
  rename_i hne
  split at h
  · cases h
  rename_i hafter
  split at h
  · cases h
  rename_i d hd
  split at h
  · cases h
  rename_i hsub
  have hfault' : ¬ st.armed.failNextCheckpoint = true := hfault
  have hrun' : st.armed.activeRun = some run := hrun
  have hd' : st.armed.draftEntry key completed = some d := hd
  unfold checkpointSubmission
  rw [if_neg hfault']
  simp only [hrun', hd', if_neg hids, if_neg hne, if_neg hafter, if_neg hsub]
  split at h
  · cases h
    rfl
  rename_i n
  split at h
  · cases h
  rename_i dn hdn
  have hdn' : st.armed.draftEntry key n = some dn := hdn
  split at h
  · next hpending =>
    cases h
    simp only [hdn', if_pos hpending]
    rfl
  · cases h

theorem completeSubmission_armed (st : InMemoryStore) (completion : SubmissionCompletion) :
    st.armed.completeSubmission operationId key completion =
      (.error .injectedCompletionFailure, st.spentCompletion) := rfl

theorem completeSubmission_unarmed {completion : SubmissionCompletion}
    (h : st.completeSubmission operationId key completion = (.ok (), st')) :
    st.spentCompletion = st := by
  refine spentCompletion_of_unarmed ?_
  unfold completeSubmission at h
  split at h
  · cases h
  · next hfault => simpa using hfault

end Bbr.Review.InMemoryStore

namespace Bbr.Tui

open Bbr.Bitbucket Bbr.Review Bbr.Lib Submission Presentation InMemoryStore

variable {s t x : Presentation} {d d' : DurableSubmission} {st st' : InMemoryStore} {e : Input}
  {c : SubmissionCompletion}

/-- The same state over a store that refuses the next completion. -/
def Presentation.armed (s : Presentation) : Presentation := { s with reviews := s.reviews.armed }

/-- What decides how the run is completed: the machine that decided its last participant, the copy of
the review after a read, or a source that changed. -/
inductive Chooses (d : DurableSubmission) (c : SubmissionCompletion) : Prop where
  | machine (pending : PendingPersistence) (owed : d.pendingPersistence = some pending)
      (completion : pending.completion = some c)
      (stored : pending.outcome.isSome → pending.checkpointDone = true)
  | copy (phase : d.phase = .duplicatePersistencePaused)
      (completion : c = if allPosted d.review then .clean else .partialCompletion)
  | source (completion : c = .aborted .draft)

/-- From the first state the run of `d` is closed by one completion, which leads to the second. -/
structure Closes (x t : Presentation) (d : DurableSubmission) (c : SubmissionCompletion) : Prop where
  running : x.durable = some d
  written : x.reviews.completeSubmission d.operationId d.key c = (.ok (), t.reviews)
  shown : ∃ result, t.submissionResult = some result ∧ result.completion = c
  chosen : Chooses d c

/-- If the run is over, its completion is all that the first state lacks. -/
def Parts (x t : Presentation) : Prop := t.durable = none → ∃ d c, Closes x t d c

theorem parts_of_running (h : t.durable = some d) : Parts x t := by
  intro hnone
  rw [h] at hnone
  cases hnone

variable {pending pending' : PendingPersistence}

theorem persistRetryCheckpoint_armed (h : d.persistRetryCheckpoint st pending = (.ok pending', st')) :
    d.persistRetryCheckpoint st.armed pending = (.ok pending', st'.armed) := by
  unfold DurableSubmission.persistRetryCheckpoint at h ⊢
  split at h
  · cases h
    rfl
  split at h
  · next hdone =>
    cases h
    exact if_pos hdone
  · next hdone =>
    rw [if_neg hdone]
    split at h
    · cases h
    · next st₁ hw =>
      cases h
      simp only [checkpointSubmissionRetry_armed hw]

theorem persistOutcome_armed (h : d.persistOutcome st pending = (.ok pending', d', st')) :
    d.persistOutcome st.armed pending = (.ok pending', d', st'.armed) ∧
      (pending'.outcome.isSome → pending'.checkpointDone = true) := by
  unfold DurableSubmission.persistOutcome at h ⊢
  split at h
  · next hnone =>
    cases h
    refine ⟨rfl, ?_⟩
    rw [hnone]
    rintro ⟨⟩
  · split at h
    · next hdone =>
      cases h
      exact ⟨if_pos hdone, fun _ => hdone⟩
    rename_i hdone
    rw [if_neg hdone]
    dsimp only at h ⊢
    split at h
    · cases h
    rename_i st₁ hw
    cases h
    simp only [checkpointSubmission_armed hw]
    exact ⟨trivial, fun _ => trivial⟩

theorem persistCompletion_closes {command : Option PostDraft}
    {result : SubmissionResultProjection} {transition : PersistedTransition}
    (h : d.persistCompletion st pending command = (.ok (.finished result transition), d', st')) :
    d.persistCompletion st.armed pending command = (.error (.store .injectedCompletionFailure), d, st) ∧
      ∃ c, pending.completion = some c ∧ result.completion = c ∧
        st.completeSubmission d.operationId d.key c = (.ok (), st') := by
  unfold DurableSubmission.persistCompletion at h ⊢
  split at h
  · next c hc =>
    split at h
    · cases h
    rename_i st₁ hw
    cases h
    refine ⟨?_, c, hc, foldl_countStatus_completion _ _, hw⟩
    simp only [completeSubmission_armed, completeSubmission_unarmed hw]
  · split at h <;> cases h

/-- A driver function that ends the run, and what it leaves when the completion is refused. -/
def Refuses (refused done : Except DriverError AfterPost × DurableSubmission × InMemoryStore) :
    Prop :=
  ∀ result transition d' st', done = (.ok (.finished result transition), d', st') →
    ∃ d₁ st₁ c, refused = (.error (.store .injectedCompletionFailure), d₁, st₁) ∧
      result.completion = c ∧ st₁.completeSubmission d₁.operationId d₁.key c = (.ok (), st') ∧
      Chooses d₁ c

theorem retryPersistence_refuses (d : DurableSubmission) (st : InMemoryStore) :
    Refuses (d.retryPersistence st.armed) (d.retryPersistence st) := by
  intro result transition d' st' h
  unfold DurableSubmission.retryPersistence at h ⊢
  split at h
  · cases h
  rename_i pending hpending
  split at h
  · cases h
  rename_i command hcommand
  split at h
  · cases h
  rename_i pending₁ st₁ hretry
  simp only [persistRetryCheckpoint_armed hretry]
  split at h
  · cases h
  rename_i pending₂ d₂ st₂ houtcome
  obtain ⟨harmed, hstored⟩ := persistOutcome_armed houtcome
  obtain ⟨hrefused, c, hc, hresult, hw⟩ := persistCompletion_closes h
  simp only [harmed, hrefused]
  exact ⟨_, _, c, rfl, hresult, hw, .machine pending₂ rfl hc hstored⟩

theorem acceptReported_refuses (d : DurableSubmission) (st : InMemoryStore)
    (completed : PostDraftCompleted) :
    Refuses (d.acceptReported st.armed completed) (d.acceptReported st completed) := by
  intro result transition d' st' h
  unfold DurableSubmission.acceptReported at h ⊢
  dsimp only at h ⊢
  split at h
  · exact retryPersistence_refuses _ st _ _ _ _ h
  · exact retryPersistence_refuses _ st _ _ _ _ h
  · split at h
    · cases h
    · split at h
      · cases h
      · exact retryPersistence_refuses _ st _ _ _ _ h
  · split at h <;> cases h
  · split at h <;> cases h

theorem parts_publish {s' : Presentation}
    {refused done : Except DriverError AfterPost × DurableSubmission × InMemoryStore}
    (h : Refuses refused done) : Parts (s'.publish refused) (s.publish done) := by
  obtain ⟨answer, d', st'⟩ := done
  cases answer with
  | error err => exact parts_of_running rfl
  | ok progress =>
    cases progress with
    | next command transition | check command | wait wait => exact parts_of_running rfl
    | finished result transition =>
      intro _
      obtain ⟨d₁, st₁, c, rfl, hresult, hw, hchosen⟩ := h result transition d' st' rfl
      exact ⟨d₁, c, rfl, hw, ⟨result, rfl, hresult⟩, hchosen⟩

section

variable (s)

theorem parts_finishDuplicate (d : DurableSubmission) :
    Parts (s.armed.finishDuplicate d) (s.finishDuplicate d) := by
  unfold finishDuplicate
  dsimp only
  rcases hw : s.reviews.completeSubmission d.operationId d.key
    (if allPosted d.review then .clean else .partialCompletion) with ⟨_ | u, st'⟩
  · exact parts_of_running rfl
  intro _
  refine ⟨{ d with phase := .duplicatePersistencePaused }, _, rfl, ?_, ⟨_, rfl,
    foldl_countState_completion _ _⟩, .copy rfl rfl⟩
  change s.reviews.spentCompletion.completeSubmission _ _ _ = _
  rw [completeSubmission_unarmed hw]
  exact hw

theorem parts_persistDuplicateResolution (d : DurableSubmission) :
    Parts (s.armed.persistDuplicateResolution d) (s.persistDuplicateResolution d) := by
  unfold persistDuplicateResolution
  dsimp only
  split
  · exact parts_of_running rfl
  split
  · exact parts_of_running rfl
  rename_i tempId hcurrent
  split
  · exact parts_of_running rfl
  rename_i outcome houtcome
  split
  · exact parts_finishDuplicate { s with durable := some d } d
  rcases hw : s.reviews.checkpointSubmission d.operationId d.key tempId outcome none with
    ⟨_ | u, st'⟩
  · exact parts_of_running rfl
  have hw' : s.armed.reviews.checkpointSubmission d.operationId d.key tempId outcome none =
      (.ok (), st'.armed) := checkpointSubmission_armed hw
  simp only [hw']
  exact parts_finishDuplicate { s with durable := some d, reviews := st' } _

theorem parts_queueDuplicateCheck (s s' : Presentation) (d : DurableSubmission) :
    Parts s' (s.queueDuplicateCheck d) := by
  unfold queueDuplicateCheck
  split
  · exact parts_of_running rfl
  · exact parts_of_running rfl

theorem parts_abortChangedSubmission (d : DurableSubmission) :
    Parts (s.armed.abortChangedSubmission d) (s.abortChangedSubmission d) := by
  unfold abortChangedSubmission
  dsimp only
  split
  · exact parts_of_running rfl
  rcases hw : s.reviews.completeSubmission d.operationId d.key (.aborted .draft) with
    ⟨_ | u, st'⟩
  · exact parts_of_running rfl
  intro _
  refine ⟨{ d with phase := .recoveryCheckPaused }, .aborted .draft, rfl, ?_, ⟨_, rfl,
    foldl_countState_completion _ _⟩, .source rfl⟩
  change s.reviews.spentCompletion.completeSubmission _ _ _ = _
  rw [completeSubmission_unarmed hw]
  exact hw

theorem parts_processRecoveryCheck (d : DurableSubmission)
    (outcome : RecoveryCheckOutcome) (hd : s.durable = some d) :
    Parts (s.armed.processRecoveryCheck d outcome) (s.processRecoveryCheck d outcome) := by
  unfold processRecoveryCheck
  split
  · exact parts_of_running rfl
  split
  · exact parts_of_running hd
  dsimp only
  split
  · split
    · exact parts_queueDuplicateCheck _ _ _
    · exact parts_abortChangedSubmission _ _
  unfold continueChecked
  dsimp only
  split
  · exact parts_of_running rfl
  · split
    · exact parts_queueDuplicateCheck _ _ _
    · split
      · exact parts_of_running rfl
      · exact parts_of_running rfl
  · exact parts_queueDuplicateCheck _ _ _
  · exact parts_of_running rfl

theorem parts_advanceAfterPolicyCheck (d : DurableSubmission) (t : TempId) :
    Parts (s.armed.advanceAfterPolicyCheck d t) (s.advanceAfterPolicyCheck d t) := by
  unfold advanceAfterPolicyCheck
  dsimp only
  split
  · split
    · exact parts_of_running rfl
    · exact parts_of_running rfl
  · exact parts_queueDuplicateCheck _ _ _
  · next wait hwait =>
    rcases d.advance.2.persistWait s.reviews wait with ⟨_ | command, d', st'⟩
    · exact parts_of_running rfl
    · exact parts_of_running rfl
  · split
    · exact parts_of_running rfl
    · exact parts_publish (retryPersistence_refuses _ _)
  · exact parts_of_running rfl

theorem parts_processSubmissionWait (s s' : Presentation) (d : DurableSubmission)
    (wait : WaitSubmission) : Parts s' (s.processSubmissionWait d wait) := by
  unfold processSubmissionWait
  split
  · exact parts_of_running rfl
  · exact parts_of_running rfl

theorem parts_processPostDraft (d : DurableSubmission) (completed : PostDraftCompleted) :
    Parts (s.armed.processPostDraft d completed) (s.processPostDraft d completed) :=
  parts_publish (acceptReported_refuses _ _ _)

end

section

variable (hd : s.durable = some d)
include hd

theorem parts_resumeActive : Parts (s.armed.resumeActive d) (s.resumeActive d) := by
  unfold resumeActive
  split
  · unfold resumePostDraftLaunch
    split
    · exact parts_of_running rfl
    · exact parts_of_running rfl
  split
  · unfold resumeSubmissionWaitLaunch
    split
    · exact parts_of_running hd
    rename_i wait hwait
    split
    · exact parts_of_running rfl
    rename_i checkpoint hcheckpoint
    rcases s.reviews.checkpointSubmissionRetry d.operationId d.key wait.tempId checkpoint with
      ⟨_ | u, st'⟩
    · exact parts_of_running hd
    · exact parts_of_running rfl
  · split
    · unfold resumeSubmissionAdmission
      split
      · exact parts_of_running hd
      · exact parts_processPostDraft _ _ _
      · exact parts_processSubmissionWait _ _ _ _
    · split
      · exact parts_publish (retryPersistence_refuses _ _)
      · exact parts_of_running hd

theorem parts_queueRecoveryCheck (s' : Presentation) : Parts s' (s.queueRecoveryCheck d) := by
  unfold queueRecoveryCheck
  split
  · exact parts_of_running hd
  · exact parts_of_running rfl

theorem parts_complete {α : Type} {answers : Command → Option α}
    {admitted : DurableSubmission → α → Bool}
    {process : Presentation → DurableSubmission → α → Presentation} {i : Nat}
    (h : ∀ a, Parts (process (s.consumeCommand i).armed d a) (process (s.consumeCommand i) d a)) :
    Parts (s.armed.complete i answers admitted process) (s.complete i answers admitted process) := by
  cases ha : s.issued[i]?.bind answers with
  | none =>
    have heq : s.complete i answers admitted process = s := by
      simp only [Presentation.complete, ha]
    rw [heq]
    exact parts_of_running hd
  | some a =>
    by_cases hadm : admitted d a = true
    · rw [complete_admitted ha hd hadm, complete_admitted (s := s.armed) ha hd hadm]
      exact h a
    have hdrop : s.complete i answers admitted process = s.consumeCommand i := by
      refine complete_dropped ha ?_
      rintro _ hd'
      rw [hd] at hd'
      cases hd'
      simpa using hadm
    rw [hdrop]
    exact parts_of_running hd

/-- A run that an input ends has one write left when its completion is refused. -/
theorem parts_update (hcrash : e ≠ .crash) (ha : ¬ AbandonsAt e) :
    Parts (s.armed.update e) (s.update e) := by
  have hsame : ∀ {x s' : Presentation}, s'.durable = s.durable → Parts x s' :=
    fun h => parts_of_running (h.trans hd)
  have hd' : s.armed.durable = some d := hd
  cases e with
  | start key sourceCommit selectedRoot =>
    simp only [update, startSubmissionSelection, hd, hd']
    split
    · exact hsame rfl
    · exact parts_resumeActive hd
  | take =>
    have hrunning : ∃ d', s.takeCommand.durable = some d' := by
      unfold takeCommand
      split
      · exact ⟨d, hd⟩
      · exact ⟨_, congrArg (Option.map _) hd⟩
    obtain ⟨d', hrunning⟩ := hrunning
    exact parts_of_running hrunning
  | postCompleted i outcome retryAfterMs =>
    exact parts_complete hd (fun _ => parts_processPostDraft _ _ _)
  | postLaunchFailed i => exact parts_complete hd (fun _ => parts_of_running rfl)
  | waitCompleted i => exact parts_complete hd (fun _ => parts_processSubmissionWait _ _ _ _)
  | waitLaunchFailed i => exact parts_complete hd (fun _ => parts_of_running rfl)
  | recoveryChecked i outcome =>
    exact parts_complete hd (fun _ => parts_processRecoveryCheck _ _ _ hd)
  | duplicateChecked i outcome retryAfterMs =>
    refine parts_complete hd (fun find => ?_)
    unfold processDuplicateCheck
    split
    · exact parts_advanceAfterPolicyCheck _ _ _
    · split
      · exact parts_of_running rfl
      · exact parts_persistDuplicateResolution _ _
  | resume =>
    simp only [update, resumeDurableSubmission, hd, hd']
    split
    · exact parts_queueRecoveryCheck hd _
    split
    · exact parts_queueDuplicateCheck _ _ _
    · split
      · exact parts_persistDuplicateResolution _ _
      · exact parts_resumeActive hd
  | recover =>
    simp only [update, recoverSubmission, hd, hd']
    split
    · exact parts_queueRecoveryCheck hd _
    split
    · exact parts_queueDuplicateCheck _ _ _
    · split
      · exact parts_persistDuplicateResolution _ _
      · exact hsame rfl
  | abandon => exact absurd trivial ha
  | crash => exact absurd rfl hcrash
  | failNextCheckpoint | failNextCompletion | edit edit => exact hsame rfl

end

end Bbr.Tui
