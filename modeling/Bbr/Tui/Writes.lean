import Bbr.Tui.History
import Bbr.Review.StoreRuns

/-!
# What the driver writes

Every input of the driver reaches the store as a list of store operations. While a Submission runs they
are checkpoints of its run and at most one end of it; only a start begins a run and only the reviewer
edits. What these operations keep of a store, every history of the driver keeps.
-/
namespace Bbr.Tui

open Bbr.Bitbucket Bbr.Review Bbr.Lib Submission Presentation InMemoryStore DurableSubmission

variable {s : Presentation} {d : DurableSubmission} {st mid st' : InMemoryStore} {e : Input}
  {operationId : OperationId} {key : RemoteReviewIdentity} {t : TempId}

/-- Operations on the active run lead from one store to the other. -/
def Writes (st st' : InMemoryStore) : Prop :=
  ∃ ops : List StoreOp, (∀ op ∈ ops, op.OfDriver) ∧ st' = st.after ops

theorem Writes.refl (st : InMemoryStore) : Writes st st := ⟨[], by simp, rfl⟩

theorem Writes.trans (h : Writes st mid) (h' : Writes mid st') : Writes st st' := by
  obtain ⟨ops, hall, rfl⟩ := h
  obtain ⟨ops', hall', rfl⟩ := h'
  refine ⟨ops ++ ops', ?_, (after_append st ops ops').symm⟩
  intro op hop
  rcases List.mem_append.mp hop with hop | hop
  · exact hall op hop
  · exact hall' op hop

theorem Writes.single {op : StoreOp} (hop : op.OfDriver) : Writes st (st.apply op) := by
  refine ⟨[op], ?_, rfl⟩
  intro op' hop'
  rw [List.mem_singleton.mp hop']
  exact hop

variable {result : Except StoreError Unit}

theorem Writes.retry {checkpoint : SubmissionRetryCheckpoint}
    (h : st.checkpointSubmissionRetry operationId key t checkpoint = (result, st')) :
    Writes st st' := by
  have hw : Writes st (st.apply (.checkpointSubmissionRetry operationId key t checkpoint)) :=
    .single trivial
  rwa [show st.apply (.checkpointSubmissionRetry operationId key t checkpoint) = st' from
    congrArg Prod.snd h] at hw

theorem Writes.checkpoint {outcome : SubmissionOutcome} {next : Option TempId}
    (h : st.checkpointSubmission operationId key t outcome next = (result, st')) :
    Writes st st' := by
  have hw : Writes st (st.apply (.checkpointSubmission operationId key t outcome next)) :=
    .single trivial
  rwa [show st.apply (.checkpointSubmission operationId key t outcome next) = st' from
    congrArg Prod.snd h] at hw

theorem Writes.complete {completion : SubmissionCompletion}
    (h : st.completeSubmission operationId key completion = (result, st')) : Writes st st' := by
  have hw : Writes st (st.apply (.completeSubmission operationId key completion)) := .single trivial
  rwa [show st.apply (.completeSubmission operationId key completion) = st' from
    congrArg Prod.snd h] at hw

theorem Writes.abandon (h : st.abandonSubmission operationId key = (result, st')) :
    Writes st st' := by
  have hw : Writes st (st.apply (.abandonSubmission operationId key)) := .single trivial
  rwa [show st.apply (.abandonSubmission operationId key) = st' from congrArg Prod.snd h] at hw

/-- What every operation on the active run keeps, the driver keeps. -/
theorem Writes.keeps (h : Writes st st') (inv : InMemoryStore → Prop)
    (hstep : ∀ {st op}, op.OfDriver → inv st → inv (st.apply op)) (hst : inv st) : inv st' := by
  obtain ⟨ops, hall, rfl⟩ := h
  exact after_keeps StoreOp.OfDriver inv hstep hall hst

section

variable (d) (st)

theorem writes_retryPersistence : Writes st (d.retryPersistence st).2.2 := by
  have hretry : ∀ (d : DurableSubmission) (st : InMemoryStore) (pending : PendingPersistence),
      Writes st (d.persistRetryCheckpoint st pending).2 := by
    intro d st pending
    unfold persistRetryCheckpoint
    split
    · exact .refl st
    split
    · exact .refl st
    · split
      · next hw => exact .retry hw
      · next hw => exact .retry hw
  have houtcome : ∀ (d : DurableSubmission) (st : InMemoryStore) (pending : PendingPersistence),
      Writes st (d.persistOutcome st pending).2.2 := by
    intro d st pending
    unfold persistOutcome
    split
    · exact .refl st
    split
    · exact .refl st
    dsimp only
    split
    · next hw => exact .checkpoint hw
    · next hw => exact .checkpoint hw
  have hcompletion : ∀ (d : DurableSubmission) (st : InMemoryStore) (pending : PendingPersistence)
      (command : Option PostDraft), Writes st (d.persistCompletion st pending command).2.2 := by
    intro d st pending command
    unfold persistCompletion
    split
    · split
      · next hw => exact .complete hw
      · next hw => exact .complete hw
    · split
      · exact .refl st
      · exact .refl st
  unfold retryPersistence
  split
  · exact .refl st
  rename_i pending _
  split
  · exact .refl st
  have h₁ := hretry d st pending
  split
  · next heq => rw [heq] at h₁; exact h₁
  rename_i pending₁ st₁ heq
  rw [heq] at h₁
  have h₂ := houtcome (d.owing pending₁) st₁ pending₁
  split
  · next heq => rw [heq] at h₂; exact h₁.trans h₂
  · next heq =>
    rw [heq] at h₂
    exact (h₁.trans h₂).trans (hcompletion _ _ _ _)

theorem writes_persistWait (wait : WaitStep) : Writes st (d.persistWait st wait).2.2 := by
  unfold persistWait
  split
  · next hw => exact .retry hw
  · next hw => exact .retry hw

theorem writes_acceptReported (completed : PostDraftCompleted) :
    Writes st (d.acceptReported st completed).2.2 := by
  unfold acceptReported
  dsimp only
  split
  · exact writes_retryPersistence _ st
  · exact writes_retryPersistence _ st
  · split
    · exact .refl st
    · split
      · exact .refl st
      · exact writes_retryPersistence _ st
  · next wait _ =>
    have h := writes_persistWait d.advance.2 st wait
    split
    · next heq => rw [heq] at h; exact h
    · next heq => rw [heq] at h; exact h
  · split
    · exact .refl st
    · exact .refl st

theorem writes_completeWait (wait : WaitSubmission) : Writes st (d.completeWait st wait).2.2 := by
  unfold DurableSubmission.completeWait
  split
  · exact .refl st
  have h : Writes st (d.persistCompletedWait st wait).2 := by
    unfold persistCompletedWait
    split
    · exact .refl st
    · exact .retry rfl
  split
  · next heq => rw [heq] at h; exact h
  · next heq => rw [heq] at h; exact h

end

theorem writes_publish {done : Except DriverError AfterPost × DurableSubmission × InMemoryStore}
    (h : Writes s.reviews done.2.2) : Writes s.reviews (s.publish done).reviews := by
  rw [publish_reviews]
  exact h

section

variable (s) (d)

theorem writes_processSubmissionWait (wait : WaitSubmission) :
    Writes s.reviews (s.processSubmissionWait d wait).reviews := by
  have h := writes_completeWait d s.reviews wait
  unfold processSubmissionWait
  split
  · next heq => rw [heq] at h; exact h
  · next heq => rw [heq] at h; exact h

theorem queueDuplicateCheck_reviews : (s.queueDuplicateCheck d).reviews = s.reviews := by
  unfold queueDuplicateCheck
  split <;> rfl

theorem queueRecoveryCheck_reviews : (s.queueRecoveryCheck d).reviews = s.reviews := by
  unfold queueRecoveryCheck
  split <;> rfl

theorem writes_finishDuplicate : Writes s.reviews (s.finishDuplicate d).reviews := by
  unfold finishDuplicate
  dsimp only
  split
  · next hw => exact .complete hw
  · next hw => exact .complete hw

theorem writes_persistDuplicateResolution :
    Writes s.reviews (s.persistDuplicateResolution d).reviews := by
  unfold persistDuplicateResolution
  dsimp only
  split
  · exact .refl _
  split
  · exact .refl _
  split
  · exact .refl _
  split
  · exact writes_finishDuplicate { s with durable := some d } d
  split
  · next hw => exact .checkpoint hw
  · next st' hw =>
    exact (Writes.checkpoint hw).trans
      (writes_finishDuplicate { s with durable := some d, reviews := st' } _)

theorem writes_abortChangedSubmission : Writes s.reviews (s.abortChangedSubmission d).reviews := by
  unfold abortChangedSubmission
  dsimp only
  split
  · exact .refl _
  · split
    · next hw => exact .complete hw
    · next hw => exact .complete hw

theorem writes_processRecoveryCheck (outcome : RecoveryCheckOutcome) :
    Writes s.reviews (s.processRecoveryCheck d outcome).reviews := by
  unfold processRecoveryCheck
  split
  · exact .refl _
  split
  · exact .refl _
  dsimp only
  split
  · split
    · rw [queueDuplicateCheck_reviews]
      exact .refl _
    · exact writes_abortChangedSubmission s _
  unfold continueChecked
  dsimp only
  split
  · exact .refl _
  · split
    · rw [queueDuplicateCheck_reviews]
      exact .refl _
    · split
      · exact .refl _
      · exact .refl _
  · rw [queueDuplicateCheck_reviews]
    exact .refl _
  · exact .refl _

theorem writes_advanceAfterPolicyCheck (t : TempId) :
    Writes s.reviews (s.advanceAfterPolicyCheck d t).reviews := by
  unfold advanceAfterPolicyCheck
  dsimp only
  split
  · split
    · exact .refl _
    · exact .refl _
  · rw [queueDuplicateCheck_reviews]
    exact .refl _
  · next wait _ =>
    have h := writes_persistWait d.advance.2 s.reviews wait
    split
    · next heq => rw [heq] at h; exact h
    · next heq => rw [heq] at h; exact h
  · split
    · exact .refl _
    · exact writes_publish (s := { s with durable := some d.advance.2 }) (writes_retryPersistence _ _)
  · exact .refl _

theorem writes_processDuplicateCheck (t : TempId) (outcome : DuplicateCheckOutcome)
    (retryAfterMs : Option Nat) :
    Writes s.reviews (s.processDuplicateCheck d t outcome retryAfterMs).reviews := by
  unfold processDuplicateCheck
  split
  · exact writes_advanceAfterPolicyCheck _ _ _
  · split
    · exact .refl _
    · exact writes_persistDuplicateResolution _ _

theorem writes_resumeActive : Writes s.reviews (s.resumeActive d).reviews := by
  unfold resumeActive
  split
  · unfold resumePostDraftLaunch
    split
    · exact .refl _
    · exact .refl _
  split
  · unfold resumeSubmissionWaitLaunch
    split
    · exact .refl _
    dsimp only
    split
    · exact .refl _
    · split
      · next hw => exact .retry hw
      · next hw => exact .retry hw
  · split
    · unfold resumeSubmissionAdmission
      split
      · exact .refl _
      · exact writes_publish (writes_acceptReported _ _ _)
      · exact writes_processSubmissionWait _ _ _
    · split
      · exact writes_publish (writes_retryPersistence _ _)
      · exact .refl _

end

theorem writes_complete {α : Type} {answers : Command → Option α}
    {admitted : DurableSubmission → α → Bool}
    {process : Presentation → DurableSubmission → α → Presentation} {i : Nat}
    (h : ∀ (s : Presentation) d a, Writes s.reviews (process s d a).reviews) :
    Writes s.reviews (s.complete i answers admitted process).reviews := by
  unfold Presentation.complete
  split
  · exact .refl _
  split
  · exact .refl _
  · split
    · exact h (s.consumeCommand i) _ _
    · exact .refl _

theorem discoverRecovery_reviews (s : Presentation) : s.discoverRecovery.reviews = s.reviews := by
  unfold discoverRecovery
  split
  · rfl
  · split <;> rfl

theorem writes_recoverRun (s : Presentation) (notice : RecoveryNotice) :
    Writes s.reviews (s.recoverRun notice).reviews := by
  unfold recoverRun
  split
  · exact .refl _
  split
  · rw [discoverRecovery_reviews]
    exact .refl _
  split
  · unfold completeRecoveredTerminal
    dsimp only
    split
    · next hw => exact .complete hw
    · next hw => exact .complete hw
  · split
    · exact .refl _
    · exact .refl _

/-- An input begins a run, arms a fault, edits, or only writes to the active run. -/
theorem update_writes (s : Presentation) (e : Input) :
    (s.durable = none ∧ ∃ key sourceCommit root, e = .start key sourceCommit root) ∨ RefusesAt e ∨
      (∃ edit, e = .edit edit) ∨ Writes s.reviews (s.update e).reviews := by
  by_cases hstart : s.durable = none ∧ ∃ key sourceCommit root, e = .start key sourceCommit root
  · exact .inl hstart
  by_cases hfault : RefusesAt e
  · exact .inr (.inl hfault)
  by_cases hedit : ∃ edit, e = .edit edit
  · exact .inr (.inr (.inl hedit))
  refine .inr (.inr (.inr ?_))
  cases e with
  | start key sourceCommit root =>
    cases hd : s.durable with
    | none => exact absurd ⟨hd, key, sourceCommit, root, rfl⟩ hstart
    | some d =>
      simp only [update, startSubmissionSelection, hd]
      split
      · exact .refl _
      · exact writes_resumeActive s d
  | take =>
    simp only [update, takeCommand]
    split
    · exact .refl _
    · exact .refl _
  | postCompleted i outcome retryAfterMs =>
    exact writes_complete (fun s d a => writes_publish (writes_acceptReported _ _ _))
  | postLaunchFailed i | waitLaunchFailed i => exact writes_complete (fun s d a => .refl _)
  | waitCompleted i => exact writes_complete writes_processSubmissionWait
  | recoveryChecked i outcome =>
    exact writes_complete (fun s d a => writes_processRecoveryCheck s d outcome)
  | duplicateChecked i outcome retryAfterMs =>
    exact writes_complete (fun s d a => writes_processDuplicateCheck s d _ outcome retryAfterMs)
  | resume =>
    simp only [update, resumeDurableSubmission]
    split
    · exact .refl _
    split
    · rw [queueRecoveryCheck_reviews]
      exact .refl _
    split
    · rw [queueDuplicateCheck_reviews]
      exact .refl _
    · split
      · exact writes_persistDuplicateResolution _ _
      · exact writes_resumeActive s _
  | recover =>
    simp only [update, recoverSubmission]
    split
    · split
      · rw [queueRecoveryCheck_reviews]
        exact .refl _
      split
      · rw [queueDuplicateCheck_reviews]
        exact .refl _
      · split
        · exact writes_persistDuplicateResolution _ _
        · exact .refl _
    · split
      · exact .refl _
      · exact writes_recoverRun s _
  | abandon =>
    simp only [update, abandonRecoveredSubmission]
    split
    · exact .refl _
    split
    · exact .refl _
    split
    · exact .refl _
    · split
      · next hw => exact .abandon hw
      · next hw => exact .abandon hw
  | crash =>
    rw [show (s.update .crash).reviews = s.reviews from discoverRecovery_reviews _]
    exact .refl _
  | failNextCheckpoint | failNextCompletion => exact absurd trivial hfault
  | edit edit => exact absurd ⟨edit, rfl⟩ hedit

end Bbr.Tui
