import Bbr.Tui.Vacancy

/-!
# The handlers keep the invariant

What a step may do that leaves the protocol, what a history has to remember of it, and one lemma
for each handler of the driver.
-/
namespace Bbr.Tui

open Bbr.Bitbucket Bbr.Review Bbr.Lib Submission Presentation

/-- The command a completion answers is the one the Submission awaits. -/
structure Admitted (s : Presentation) (i : Nat) (d : DurableSubmission) (command : Command) :
    Prop where
  running : s.durable = some d
  issued : s.issued[i]? = some command
  awaited : Awaited d command

theorem Admitted.active {s : Presentation} {i : Nat} {d : DurableSubmission} {command : Command}
    (h : Admitted s i d command) : s.durable.isSome := by
  rw [h.running]
  rfl

/-- The machine after the answer of a publication check, asked for its next step. -/
def checked (d : DurableSubmission) (outcome : DuplicateCheckOutcome) (retryAfterMs : Option Nat) :
    Step × Submission :=
  (d.machine.reportCheck (checkResult outcome retryAfterMs)).advance d.review

/-- A publication check decides its participant and the machine asks for the next POST. -/
def StrandsAt (s : Presentation) : Input → Prop
  | .duplicateChecked i outcome retryAfterMs => ∃ d find post,
      Admitted s i d (.findDuplicate find) ∧ d.policyCheck = true ∧
      (checked d outcome retryAfterMs).1 = .post post
  | _ => False

/-- A publication check ends the run at a position without a durable outcome. -/
def LosesAt (s : Presentation) : Input → Prop
  | .duplicateChecked i outcome retryAfterMs => ∃ d find,
      Admitted s i d (.findDuplicate find) ∧ d.policyCheck = true ∧
      (checked d outcome retryAfterMs).1 = .done ∧
      ((checked d outcome retryAfterMs).2.result
        ((checked d outcome retryAfterMs).2.idx - 1)).bind resultOutcome = none
  | _ => False

/-- A POST is rejected with an error that aborts the run, and the copy of the review no longer shows
what its participant was. -/
def UnrestoredAt (s : Presentation) : Input → Prop
  | .postCompleted i (.rejected err) _ => ∃ d post dr, Admitted s i d (.postDraft post) ∧
      classifyPolicy err = .abort ∧ d.review.getConst post.draft.localId = some dr ∧
      DurableSubmission.restoreState dr.state = none
  | _ => False

/-- A wait for another read is over. -/
def ResumesWait (s : Presentation) : Prop :=
  ∃ d wait, s.durable = some d ∧ d.pendingAdmission = some (.wait wait) ∧
    d.machine.ambiguous d.machine.idx = true

/-- A wait ends before a read, or a recovered run with a wait finds its source changed. -/
def StallsAt (s : Presentation) : Input → Prop
  | .waitCompleted i => ∃ d wait, Admitted s i d (.waitSubmission wait) ∧
      d.machine.ambiguous d.machine.idx = true
  | .resume => ResumesWait s
  | .start _ _ none => ResumesWait s
  | .recoveryChecked i (.currentSource current) => ∃ d check source,
      Admitted s i d (.checkRecovery check) ∧ d.recoverySourceCommit = some source ∧
      headChanged source.slice current.slice = true ∧ d.machine.mustWait = true
  | _ => False

/-- The reviewer abandons a recovered run. -/
def AbandonsAt : Input → Prop
  | .abandon => True
  | _ => False

/-- The recovered run is abandoned: there was one, and the store has taken it. -/
def Abandons (s : Presentation) (e : Input) : Prop :=
  AbandonsAt e ∧ s.durable ≠ none ∧ s.abandonRecoveredSubmission.durable = none

/-- The store is made to refuse a write. -/
def RefusesAt : Input → Prop
  | .failNextCheckpoint => True
  | .failNextCompletion => True
  | _ => False

/-- Whatever leaves the protocol is permitted. -/
structure Allows (p : Permits) (s : Presentation) (e : Input) : Prop where
  strands : StrandsAt s e → p.strands
  loses : LosesAt s e → p.loses
  unrestored : UnrestoredAt s e → p.unrestored
  stalls : StallsAt s e → p.stalls
  abandons : Abandons s e → p.abandons
  refuses : RefusesAt e → p.refuses

/-- The POST of this Draft goes out. -/
def Launches (s : Presentation) (e : Input) (key : RemoteReviewIdentity) (t : TempId) : Prop :=
  e = .take ∧ ∃ post rest, s.commands = .postDraft post :: rest ∧ post.identity = key ∧
    post.draft.localId = t

/-- The command a completion answers. -/
def answeredBy (s : Presentation) : Input → Option Command
  | .postCompleted i _ _ => (s.issued[i]?.bind Command.asPostDraft).map .postDraft
  | .waitCompleted i => (s.issued[i]?.bind Command.asWaitSubmission).map .waitSubmission
  | .recoveryChecked i _ => (s.issued[i]?.bind Command.asCheckRecovery).map .checkRecovery
  | .duplicateChecked i _ _ => (s.issued[i]?.bind Command.asFindDuplicate).map .findDuplicate
  | _ => none

/-- The phases that wait for the reviewer after a failure. -/
def SubmissionPhase.isPaused : SubmissionPhase → Bool
  | .postRetryPaused | .waitRetryPaused | .admissionPaused | .persistencePaused
  | .recoveryCheckPaused | .duplicateCheckPaused | .duplicatePersistencePaused => true
  | _ => false

def Paused (s : Presentation) : Prop := ∃ d, s.durable = some d ∧ d.phase.isPaused = true

/-- An awaited command is answered, and nothing pauses. -/
def Counts (s : Presentation) (e : Input) : Prop :=
  (∃ d command, s.durable = some d ∧ answeredBy s e = some command ∧ Awaited d command) ∧
    ¬ Paused (s.update e)

/-- Answers that a run of this many participants can take. -/
def runAnswers (participants : Nat) : Nat := itemAnswers * participants + 8

/-- What the memory of a history has to record of a step. -/
structure Recalls (g g' : Memory) (s : Presentation) (e : Input) : Prop where
  cold : ∀ key t, g.cold key t → g'.cold key t ∨ Launches s e key t
  settled : ∀ key t, Settled (s.update e).reviews key t → g'.cold key t ∨ Launches s e key t
  pending : ∀ key t dr, s.reviews.draftEntry key t = some dr → dr.state.isPending = true →
    g'.cold key t ∨ Launches s e key t
  launchFailed : ∀ i d post, e = .postLaunchFailed i → Admitted s i d (.postDraft post) →
    g'.cold d.key post.draft.localId
  misplaced : e = .recover → ∀ run t checkpoint, s.reviews.activeRun = some run →
    run.currentTempId = some t → run.retry = some checkpoint →
    checkpoint.phase = .publicationCheck → run.items.items.head?.map SubmissionRunItem.tempId ≠
      some t → g'.cold run.key t
  intent : s.durable.isSome → ∀ was, g.intent was → g'.intent was
  begins : s.durable = none → s.reviews.activeRun = none → ∀ run t dr,
    (s.update e).reviews.activeRun = some run → run.currentTempId = some t →
    s.reviews.draftEntry run.key t = some dr → dr.state.isPending = true →
    g'.intent ⟨run.key, t, dr.state⟩
  less : s.durable.isSome → ∀ n m, g.left n → m < n → g'.left m
  same : s.durable.isSome → ¬ Counts s e → ∀ n, g.left n → g'.left n
  starts : s.durable = none → ∀ run, (s.update e).reviews.activeRun = some run →
    ∀ n ≤ runAnswers run.items.items.length, g'.left n

variable {p : Permits} {g g' : Memory} {s : Presentation} {d d' : DurableSubmission}
  {st st' : InMemoryStore} {t c : TempId} {dr : Draft} {parent : Option CommentId}
  {queued issued : List Command} {command : Command} {i : Nat} {e : Input}

theorem Recalls.cold' (h : Recalls g g' s e) (he : e ≠ .take) : ∀ key t, g.cold key t → g'.cold key t :=
  fun key t hc => (h.cold key t hc).resolve_right (fun hl => he hl.1)

theorem Recalls.remembers (h : Recalls g g' s e) (he : e ≠ .take) (hd : s.durable = some d) :
    Remembers g g' s.reviews (s.update e).reviews where
  cold := h.cold' he
  settled := fun key t hs => (h.settled key t hs).resolve_right (fun hl => he hl.1)
  pending := fun key t dr hdr hp => (h.pending key t dr hdr hp).resolve_right (fun hl => he hl.1)
  intent := h.intent (by rw [hd]; rfl)

theorem Inv.unmoved {s' : Presentation} (h : Inv p g s') (hd : s'.durable = s.durable)
    (hr : Recalls g g' s e) (he : e ≠ .take) (hsame : ¬ Counts s e) : Inv p g' s' := by
  cases hs : s.durable with
  | none => exact { h with serves := fun d hd' => by rw [hd, hs] at hd'; cases hd' }
  | some d =>
    have hactive : s.durable.isSome := by
      rw [hs]
      rfl
    exact h.remember (hr.cold' he) (hr.intent hactive) (hr.same hactive hsame)

section Complete

variable {α : Type} {answers : Command → Option α} {admitted : DurableSubmission → α → Bool}
  {process : Presentation → DurableSubmission → α → Presentation} {a : α}

theorem complete_admitted (ha : s.issued[i]?.bind answers = some a) (hd : s.durable = some d)
    (hadm : admitted d a = true) :
    s.complete i answers admitted process = process (s.consumeCommand i) d a := by
  simp only [Presentation.complete, ha, hd, hadm, if_true]

theorem complete_dropped (ha : s.issued[i]?.bind answers = some a)
    (hd : ∀ d, s.durable = some d → admitted d a = false) :
    s.complete i answers admitted process = s.consumeCommand i := by
  unfold Presentation.complete
  simp only [ha]
  cases hs : s.durable with
  | none => rfl
  | some d => simp only [hd d hs, Bool.false_eq_true, if_false]

theorem Inv.complete (h : Inv p g s) (hr : Recalls g g' s e) (he : e ≠ .take) (wrap : α → Command)
    (hanswers : ∀ command a, answers command = some a → command = wrap a)
    (hadmitted : ∀ d a, admitted d a = true ↔ Awaited d (wrap a))
    (hby : ∀ command, answeredBy s e = some command →
      ∃ a, s.issued[i]?.bind answers = some a ∧ command = wrap a)
    (hprocess : ∀ d a, Admitted s i d (wrap a) → s.complete i answers admitted process =
      process (s.consumeCommand i) d a → Vacant p d.operationId (s.consumeCommand i) →
      Serves p g d s.reviews [] [wrap a] → Inv p g' (process (s.consumeCommand i) d a)) :
    Inv p g' (s.complete i answers admitted process) := by
  cases ha : s.issued[i]?.bind answers with
  | none =>
    have heq : s.complete i answers admitted process = s := by
      simp only [Presentation.complete, ha]
    rw [heq]
    refine h.unmoved rfl hr he ?_
    rintro ⟨⟨d, command, -, hcommand, -⟩, -⟩
    obtain ⟨a, hsome, -⟩ := hby command hcommand
    rw [ha] at hsome
    cases hsome
  | some a =>
    obtain ⟨command, hi, hcommand⟩ := Option.bind_eq_some_iff.mp ha
    obtain rfl := hanswers command a hcommand
    by_cases hmine : ∃ d, s.durable = some d ∧ admitted d a = true
    · obtain ⟨d, hd, hadm⟩ := hmine
      have hawaited := (hadmitted d a).mp hadm
      obtain ⟨hv, hstanding⟩ := h.answered hd hi hawaited
      have heq : s.complete i answers admitted process = process (s.consumeCommand i) d a :=
        complete_admitted ha hd hadm
      rw [heq]
      exact hprocess d a ⟨hd, hi, hawaited⟩ heq hv { h.serves d hd with standing := hstanding }
    · have hw : ∀ d, s.durable = some d → ¬ Awaited d (wrap a) :=
        fun d hd hawaited => hmine ⟨d, hd, (hadmitted d a).mpr hawaited⟩
      have hdrop : ∀ d, s.durable = some d → admitted d a = false := by
        intro d hd
        cases hadm : admitted d a with
        | false => rfl
        | true => exact absurd ⟨d, hd, hadm⟩ hmine
      rw [complete_dropped ha hdrop]
      refine (h.passed_over hi hw).unmoved (s := s) rfl hr he ?_
      rintro ⟨⟨d, command, hd, hcommand, hawaited⟩, -⟩
      obtain ⟨a', hsome, rfl⟩ := hby command hcommand
      rw [ha] at hsome
      cases hsome
      exact hw d hd hawaited

end Complete

theorem asPostDraft_eq {post : PostDraft} (h : command.asPostDraft = some post) :
    command = .postDraft post := by
  cases command <;> cases h
  rfl

theorem asWaitSubmission_eq {wait : WaitSubmission} (h : command.asWaitSubmission = some wait) :
    command = .waitSubmission wait := by
  cases command <;> cases h
  rfl

theorem asCheckRecovery_eq {check : CheckRecovery} (h : command.asCheckRecovery = some check) :
    command = .checkRecovery check := by
  cases command <;> cases h
  rfl

theorem asFindDuplicate_eq {find : PostDraft} (h : command.asFindDuplicate = some find) :
    command = .findDuplicate find := by
  cases command <;> cases h
  rfl

theorem publish_reviews (s : Presentation)
    (done : Except DriverError AfterPost × DurableSubmission × InMemoryStore) :
    (s.publish done).reviews = done.2.2 := by
  obtain ⟨result, d, st⟩ := done
  cases result with
  | error err => rfl
  | ok progress => cases progress <;> rfl

theorem effectsLeft_eq (h : d.phase ≠ .recoveryCheckQueued ∧ d.phase ≠ .awaitingRecoveryCheck ∧
    d.phase ≠ .recoveryCheckPaused) : effectsLeft d = d.machine.answersLeft := by
  simp [effectsLeft, h.1, h.2.1, h.2.2]

theorem Serves.answersLeft (h : Serves p g d st queued issued) (hphase : d.phase ≠ .recoveryCheckQueued ∧
    d.phase ≠ .awaitingRecoveryCheck ∧ d.phase ≠ .recoveryCheckPaused) :
    g.left d.machine.answersLeft :=
  effectsLeft_eq hphase ▸ h.left

theorem acceptPostDraft_inv {outcome : PostOutcome} {retryAfterMs : Option Nat} (h : Inv p g s)
    (ha : Allows p s (.postCompleted i outcome retryAfterMs))
    (hr : Recalls g g' s (.postCompleted i outcome retryAfterMs)) :
    Inv p g' (s.acceptPostDraft i outcome retryAfterMs) := by
  refine h.complete hr (by simp) .postDraft (fun _ _ => asPostDraft_eq) (fun _ _ => Iff.rfl)
    (fun command hc => by
      obtain ⟨post, hp, rfl⟩ := Option.map_eq_some_iff.mp hc
      exact ⟨post, hp, rfl⟩) ?_
  intro d post hadm heq hv hserves
  obtain ⟨hphase, t, dr, parent, hat, hcar⟩ := hserves.standing.posting hadm.awaited
  have ht : post.draft.localId = t := hcar.localId hat.toInHand
  have hmem := hr.remembers (by simp) hadm.running
  simp only [update, acceptPostDraft] at hmem
  rw [heq] at hmem
  unfold processPostDraft at hmem ⊢
  rw [publish_reviews] at hmem
  refine hv.published ?_
  refine acceptPost_published h.stored hserves.consistent hserves.backed hat
    (hserves.no_admission (by simp [hphase])) (fun n hn => ?_)
    (hserves.no_persistence (by simp [hphase])) hphase ht ?_ hmem
  · exact hr.less hadm.active _ n (hserves.answersLeft (by simp [hphase])) hn
  · rintro err rfl hpolicy hnone
    exact ha.unrestored ⟨d, post, dr, hadm, hpolicy, ht ▸ hat.flight.draft, hnone⟩

theorem acceptPostDraftLaunchFailure_inv (h : Inv p g s)
    (hr : Recalls g g' s (.postLaunchFailed i)) : Inv p g' (s.acceptPostDraftLaunchFailure i) := by
  refine h.complete hr (by simp) .postDraft (fun _ _ => asPostDraft_eq) (fun _ _ => Iff.rfl)
    (by rintro _ ⟨⟩) ?_
  intro d post hadm heq hv hserves
  obtain ⟨hphase, t, dr, parent, hat, hcar⟩ := hserves.standing.posting hadm.awaited
  have ht : post.draft.localId = t := hcar.localId hat.toInHand
  have hmem := hr.remembers (by simp) hadm.running
  refine hv.pausing rfl rfl h.stored
    (.of_core hserves.consistent (hserves.backed.remember hmem.intent) (hserves.no_admission
      (by simp [hphase])) (hserves.no_persistence (by simp [hphase])) rfl rfl rfl ?_ ?_)
  · refine ⟨t, dr, parent, hat.core rfl, ?_, rfl, rfl⟩
    exact ht ▸ hr.launchFailed i d post rfl hadm
  · have hleft := hr.same hadm.active (by rintro ⟨⟨_, _, _, ⟨⟩, _⟩, _⟩) _ hserves.left
    rw [effectsLeft_eq (by simp [hphase])] at hleft
    exact hleft

theorem answersLeft_waited (hin : InHand d t dr parent) (hw : d.machine.mustWait = true) :
    (waited d).machine.answersLeft < d.machine.answersLeft := by
  refine answersLeft_remains hin rfl rfl ?_
  have hwaiting : d.machine.slot.waiting = true := hw
  have hslot : (waited d).machine.slot = { d.machine.slot with waiting := false } := rfl
  rw [hslot]
  simp only [Slot.answersLeft, hwaiting, if_true, Bool.false_eq_true, if_false]
  omega

theorem processSubmissionWait_inv (hv : Vacant p d.operationId s) (hs : Stored p s.reviews)
    (hc : Consistent d) (hb : Backed g d s.reviews) (hin : InHand d t dr parent)
    (hvalid : ValidRetry d.machine.retryCheckpoint) (hphase : d.phase = .awaitingWait)
    (hu : d.sourceChanged = false) (hadm : d.pendingAdmission = none)
    (hper : d.pendingPersistence = none)
    (hready : d.machine.mustWait = true ∨
      (d.machine.mustWait = false ∧ d.machine.ambiguous d.machine.idx = true))
    (hstall : d.machine.ambiguous d.machine.idx = true → p.stalls)
    (hcold : d.machine.slot.ambiguous = false → g'.cold d.key t)
    (hi : ∀ was, g.intent was → g'.intent was)
    (hsame : Paused (s.processSubmissionWait d (waitOf d t)) → g'.left d.machine.answersLeft)
    (hless : d.machine.mustWait = true → g'.left (waited d).machine.answersLeft) :
    Inv p g' (s.processSubmissionWait d (waitOf d t)) := by
  rcases completeWait_cases hs hb hin hvalid hphase with
    ⟨err, st', heq, hrefuse, hs', hb', hop⟩ | ⟨err, st', hamb, heq, hw⟩ |
    ⟨command, st', hamb, heq, hw, hcar, hdedupe⟩
  · -- The store refused: the wait stays to be completed.
    have hpaused : s.processSubmissionWait d (waitOf d t) = { s with
        durable := some { d with
          pendingAdmission := some (.wait (waitOf d t)), phase := .admissionPaused }
        reviews := st' } := by
      simp only [processSubmissionWait, heq]
    have hleft := hsame (by rw [hpaused]; exact ⟨_, rfl, rfl⟩)
    rw [hpaused]
    refine hv.pausing rfl hop hs'
      { consistent := hc.core rfl
        backed := (hb'.remember hi).core rfl
        admission := fun _ => rfl, persistence := absent hper, standing := ?_, left := hleft }
    refine ⟨t, dr, parent, rfl, ?_, rfl, rfl⟩
    rcases hready with hwait | ⟨hno, hyes⟩
    · exact .inl ⟨⟨hin.core rfl, hwait, hvalid, hu⟩, hrefuse, hcold⟩
    · exact .inr ⟨⟨hin.core rfl, hno, hyes, hu⟩, hstall hyes, hvalid⟩
  · -- The machine asks for a read, and the driver pauses for good.
    have hpaused : s.processSubmissionWait d (waitOf d t) = { s with
        durable := some { waited d with
          pendingAdmission := some (.wait (waitOf d t)), phase := .admissionPaused }
        reviews := st' } := by
      simp only [processSubmissionWait, heq]
    have hleft : g'.left (waited d).machine.answersLeft := by
      rcases hready with hwait | ⟨hno, -⟩
      · exact hless hwait
      have hwaited : waited d = d := by
        unfold waited
        rw [← hno]
      rw [hwaited]
      exact hsame (by rw [hpaused]; exact ⟨_, rfl, rfl⟩)
    rw [hpaused]
    refine hv.pausing rfl hw.operations hw.stored
      { consistent := hc.waited.core rfl
        backed := (hw.backed.remember hi).core rfl
        admission := fun _ => rfl, persistence := absent hper, standing := ?_, left := hleft }
    have hin' := hin.waited
    exact ⟨t, dr, parent, rfl, .inr ⟨⟨hin'.core rfl, rfl, hamb, hu⟩, hstall hamb, hvalid⟩, rfl, rfl⟩
  · have hqueued : s.processSubmissionWait d (waitOf d t) = { s with
        durable := some { waited d with phase := .postQueued }
        reviews := st' }.queue (.postDraft command) := by
      simp only [processSubmissionWait, heq]
    have hwait : d.machine.mustWait = true := by
      rcases hready with hwait | ⟨-, hyes⟩
      · exact hwait
      · rw [hamb] at hyes
        cases hyes
    rw [hqueued]
    have hin' := hin.waited
    refine hv.queuing rfl hw.operations hw.stored
      (.of_core hc.waited (hw.backed.remember hi) hadm hper rfl rfl rfl ?_ (hless hwait))
    refine .inl ⟨t, dr, parent, command, ⟨hin'.core rfl, rfl, hamb,
        hu⟩, hcold hamb, ⟨hcar.operation, hcar.identity, hcar.draft, hcar.parent⟩, hdedupe, rfl, rfl⟩

theorem acceptSubmissionWait_inv (h : Inv p g s) (ha : Allows p s (.waitCompleted i))
    (hr : Recalls g g' s (.waitCompleted i)) : Inv p g' (s.acceptSubmissionWait i) := by
  refine h.complete hr (by simp) .waitSubmission (fun _ _ => asWaitSubmission_eq)
    (fun _ _ => Iff.rfl) (fun command hc => by
      obtain ⟨wait, hw, rfl⟩ := Option.map_eq_some_iff.mp hc
      exact ⟨wait, hw, rfl⟩) ?_
  intro d wait hadm heq hv hserves
  obtain ⟨hphase, t, dr, parent, hat, hcold, rfl⟩ := hserves.standing.waiting hadm.awaited
  have hmem := hr.remembers (by simp) hadm.running
  have hleft := hserves.answersLeft (by simp [hphase])
  refine processSubmissionWait_inv hv h.stored hserves.consistent hserves.backed hat.toInHand
    hat.valid hphase hat.unchanged (hserves.no_admission (by simp [hphase]))
    (hserves.no_persistence (by simp [hphase])) (.inl hat.waits)
    (fun hamb => ha.stalls ⟨d, _, hadm, hamb⟩) (fun hclear => hmem.cold _ _ (hcold hclear))
    hmem.intent ?_ ?_
  · intro hpaused
    refine hr.same hadm.active ?_ _ hleft
    rintro ⟨-, hno⟩
    refine hno ?_
    simp only [update, acceptSubmissionWait]
    rw [heq]
    exact hpaused
  · intro hw
    exact hr.less hadm.active _ _ hleft (answersLeft_waited hat.toInHand hw)

theorem acceptSubmissionWaitLaunchFailure_inv (h : Inv p g s)
    (hr : Recalls g g' s (.waitLaunchFailed i)) :
    Inv p g' (s.acceptSubmissionWaitLaunchFailure i) := by
  refine h.complete hr (by simp) .waitSubmission (fun _ _ => asWaitSubmission_eq)
    (fun _ _ => Iff.rfl) (by rintro _ ⟨⟩) ?_
  intro d wait hadm heq hv hserves
  obtain ⟨hphase, t, dr, parent, hat, hcold, rfl⟩ := hserves.standing.waiting hadm.awaited
  have hmem := hr.remembers (by simp) hadm.running
  refine hv.pausing rfl rfl h.stored
    (.of_core hserves.consistent (hserves.backed.remember hmem.intent) (hserves.no_admission
      (by simp [hphase])) (hserves.no_persistence (by simp [hphase])) rfl rfl rfl ?_ ?_)
  · exact ⟨t, dr, parent, hat.core rfl, rfl, fun hclear => .inl (hmem.cold _ _ (hcold hclear)), rfl, rfl⟩
  · have hleft := hr.same hadm.active (by rintro ⟨⟨_, _, _, ⟨⟩, _⟩, _⟩) _ hserves.left
    rw [effectsLeft_eq (by simp [hphase])] at hleft
    exact hleft

end Bbr.Tui
