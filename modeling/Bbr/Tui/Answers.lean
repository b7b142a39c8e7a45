import Bbr.Tui.Persistence

/-!
# The driver takes an answer

A POST, a read or a wait has been answered: the machine decides the item or keeps it open, and the
durable Submission stores what follows before it asks for the next effect.
-/
namespace Bbr.Tui

open Bbr.Bitbucket Bbr.Review Bbr.Lib Submission

variable {p : Permits} {g g' : Memory} {d d' : DurableSubmission} {st st' : InMemoryStore}
  {t c : TempId} {dr : Draft} {parent : Option CommentId} {m m' : Submission}
  {slot slot' : Slot} {outcome : PostOutcome}

theorem Bounded.afterPost (h : Bounded slot) (hready : slot.waiting = false)
    (hclear : slot.ambiguous = false) (hf : slot.afterPost outcome = .remains slot') :
    Bounded slot' ∧ slot'.answersLeft < slot.answersLeft ∧ slot'.ambiguous = !slot'.waiting := by
  have hlt := h.clear hclear
  cases Slot.posting hf with
  | ambiguous =>
    refine ⟨⟨by simp only; omega, by simp [maxAttempts], by rintro ⟨⟩⟩, ?_, ?_⟩
    · simp only [Slot.answersLeft, hready, hclear, Bool.false_eq_true, if_true, if_false]
      split <;> simp only [maxAttempts, itemAnswers] at * <;> omega
    · simp only [hready, Bool.not_false]
  | retried err hp left =>
    refine ⟨⟨by simp only; omega, h.checks, fun _ => left⟩, ?_, rfl⟩
    simp only [Slot.answersLeft, hready, hclear, Bool.false_eq_true, if_true, if_false]
    simp only [maxAttempts, itemAnswers] at hlt ⊢
    omega

theorem Bounded.afterCheck {outcome : CheckOutcome} (h : Bounded slot)
    (hready : slot.waiting = false) (hunsure : slot.ambiguous = true)
    (hf : slot.afterCheck outcome = .remains slot') :
    Bounded slot' ∧ slot'.answersLeft < slot.answersLeft ∧ slot'.waiting = true := by
  cases Slot.checking hf with
  | missing left =>
    refine ⟨⟨h.attempts, by simp [maxAttempts], fun _ => left⟩, ?_, rfl⟩
    have hchecks := h.checks
    simp only [Slot.answersLeft, hready, hunsure, Bool.false_eq_true, if_true, if_false]
    rw [if_pos left]
    simp only [maxAttempts, itemAnswers] at left hchecks ⊢
    omega
  | unread _ _ _ left =>
    refine ⟨⟨h.attempts, left, h.clear⟩, ?_, rfl⟩
    simp only [Slot.answersLeft, hready, hunsure, Bool.false_eq_true, if_true, if_false]
    simp only [maxAttempts] at left
    omega

theorem Bounded.afterWait (h : Bounded slot) : Bounded { slot with waiting := false } :=
  ⟨h.attempts, h.checks, h.clear⟩

theorem Bounded.answersLeft_pos (h : Bounded slot) : 0 < slot.answersLeft := by
  obtain ⟨ha, hc, hclear⟩ := h
  unfold Slot.answersLeft
  cases hamb : slot.ambiguous with
  | true =>
    simp only [maxAttempts] at hc
    simp only [if_true]
    omega
  | false =>
    have := hclear hamb
    simp only [maxAttempts] at this
    simp only [itemAnswers, Bool.false_eq_true, if_false]
    omega

theorem answersLeft_inHand (h : InHand d t dr parent) : d.machine.answersLeft =
      itemAnswers * (d.machine.order.length - d.machine.idx - 1) + d.machine.slot.answersLeft := by
  unfold answersLeft
  rw [if_neg]
  rintro (hab | hle)
  · rw [h.unaborted] at hab
    cases hab
  · have := h.idx_lt
    omega

theorem Fresh.answersLeft_le (h : Fresh m) :
    m.answersLeft ≤ itemAnswers * (m.order.length - m.idx) := by
  unfold answersLeft
  have hfull : Slot.untried.answersLeft = itemAnswers := rfl
  rw [h.slot, hfull]
  split
  · exact Nat.zero_le _
  · simp only [itemAnswers]
    omega

theorem answersLeft_settled (hin : InHand d t dr parent) (hb : Bounded d.machine.slot)
    (horder : m'.order = d.machine.order) (hidx : m'.idx = d.machine.idx + 1) (hf : Fresh m')
    (hm : Moved d.review m' m) : m.answersLeft < d.machine.answersLeft := by
  have hle := (hf.moved hm).answersLeft_le
  have hpos := hb.answersLeft_pos
  have hmove := hm.idx_le
  rw [answersLeft_inHand hin]
  rw [hm.order, horder] at hle
  simp only [itemAnswers] at hle ⊢
  omega

theorem answersLeft_remains (hin : InHand d t dr parent)
    (horder : m.order = d.machine.order) (hidx : m.idx = d.machine.idx)
    (hlt : m.slot.answersLeft < d.machine.slot.answersLeft) :
    m.answersLeft < d.machine.answersLeft := by
  rw [answersLeft_inHand hin]
  unfold answersLeft
  rw [horder, hidx]
  split <;> omega

theorem report_retry (retryAfterMs : Option Nat) (hs : m.Sized)
    (hat : m.order[m.idx]? = some t) (hf : m.slot.afterPost outcome = .remains slot')
    (hready : m.mustWait = false)
    (hwait : slot'.waiting = true) :
    ValidRetry (m.report outcome retryAfterMs).retryCheckpoint ∧
      Definite (m.report outcome retryAfterMs).retryCheckpoint := by
  cases Slot.posting hf with
  | ambiguous =>
    have : m.mustWait = true := hwait
    rw [hready] at this
    cases this
  | retried err hp left =>
    have ha : m.idx < m.attempts.length := hs.attempts ▸ idx_lt hat
    have hleft : ¬ m.attempt m.idx + 1 ≥ maxAttempts := Nat.not_le_of_lt left
    simp only [report, hat, hp, scheduleRetryOrFail, setWait]
    rw [if_neg (by simpa only [attempt, getD_set_self ha] using hleft)]
    simp only [attempt, getD_set_self ha] at hleft ⊢
    refine ⟨⟨rfl, ?_, fun _ _ => ?_, by rintro ⟨⟩⟩, rfl, rfl⟩ <;> simp only <;> omega

/-- A read without an answer waits for another read, a definite `missing` for another POST. -/
theorem reportCheck_retry (hs : m.Sized) (hat : m.order[m.idx]? = some t) {result : CheckResult}
    (hb : Bounded m.slot) (hf : m.slot.afterCheck result.outcome = .remains slot') :
    ValidRetry (m.reportCheck result).retryCheckpoint ∧
      (slot'.ambiguous = false → m.ambiguous m.idx = true →
        Definite (m.reportCheck result).retryCheckpoint) := by
  have hfailed : ∀ reason, m.slot.afterFailedCheck = .remains slot' →
      ValidRetry (m.scheduleCheckRetryOrUnknown m.idx t reason result.retryAfterMs).retryCheckpoint ∧
      (slot'.ambiguous = false → m.ambiguous m.idx = true →
        Definite (m.scheduleCheckRetryOrUnknown m.idx t reason
          result.retryAfterMs).retryCheckpoint) := by
    intro reason hf
    have hget : (m.checkAttempts.set m.idx (m.checkAttempt m.idx + 1)).getD m.idx 0 =
        m.checkAttempt m.idx + 1 := getD_set_self (hs.checkAttempts ▸ idx_lt hat) _ _
    have hslot : m.slot.checks = m.checkAttempt m.idx := rfl
    by_cases hmax : m.checkAttempt m.idx + 1 ≥ maxAttempts
    · simp [Slot.afterFailedCheck, hslot, hmax] at hf
    have hmax' : ¬ (m.checkAttempts.set m.idx (m.checkAttempt m.idx + 1)).getD m.idx 0 ≥
        maxAttempts := by
      rw [hget]
      exact hmax
    simp only [Slot.afterFailedCheck, hslot, hmax, if_false, Fate.remains.injEq] at hf
    subst hf
    simp only [scheduleCheckRetryOrUnknown, setCheckWait]
    rw [if_neg (by simpa only [checkAttempt] using hmax')]
    refine ⟨⟨rfl, hb.attempts, by rintro ⟨⟩, fun _ => ?_⟩, ?_⟩
    · have hone : m.checkAttempt m.idx = 0 ∨ m.checkAttempt m.idx = 1 := by
        simp only [maxAttempts] at hmax
        omega
      rcases hone with h | h
      · exact .inl (congrArg backoffMs (hget.trans (by rw [h])))
      · exact .inr (congrArg backoffMs (hget.trans (by rw [h])))
    · intro hclear hunsure
      have : m.ambiguous m.idx = false := hclear
      rw [hunsure] at this
      cases this
  cases ho : result.outcome with
  | found id => simp [ho, Slot.afterCheck] at hf
  | ambiguous =>
    rw [ho] at hf
    simpa only [reportCheck, hat, ho] using hfailed .publicationCheckTransport hf
  | missing =>
    have hslot : m.slot.attempts = m.attempt m.idx := rfl
    by_cases hmax : m.attempt m.idx ≥ maxAttempts
    · simp [ho, Slot.afterCheck, hslot, hmax] at hf
    simp only [reportCheck, hat, ho, setWait]
    rw [if_neg (by simpa only [attempt] using hmax)]
    simp only [attempt] at hmax ⊢
    refine ⟨⟨rfl, ?_, fun _ _ => ?_, by rintro ⟨⟩⟩, fun _ _ => ⟨rfl, rfl⟩⟩ <;> simp only <;> omega
  | rejected err =>
    cases hp : classifyPolicy err with
    | abort | fail => simp [ho, Slot.afterCheck, hp] at hf
    | retry =>
      rw [ho] at hf
      simp only [Slot.afterCheck, hp] at hf
      simpa only [reportCheck, hat, ho, hp] using hfailed (checkReason err) hf

theorem Backed.advanced (hb : Backed g d st) (horder : m.order = d.machine.order)
    (hready : d.machine.mustWait = false) : Backed g { d with machine := m } st :=
  hb.congr horder rfl rfl rfl rfl rfl rfl (by rw [hready]; rintro ⟨⟩)

theorem persist_published {pending : PendingPersistence} (hs : Stored p st) (hc : Consistent d)
    (hb : Backed g d st) (ho : Owes d pending) (hretry : OwedRetry pending)
    (hu : d.sourceChanged = false) (hadm : d.pendingAdmission = none)
    (hl : g'.left d.machine.answersLeft) (hi : ∀ was, g.intent was → g'.intent was)
    (hpend : ∀ key t ds, st.draftEntry key t = some ds → ds.state.isPending = true →
      g'.cold key t) : Published p g' d st (d.persist st pending) := by
  have hpersisting : Persisting g { d.owing pending with phase := .persistencePaused } st pending :=
    { consistent := hc.core rfl
      backed := hb.core rfl
      phase := rfl
      owed := rfl
      owes := ho.congr pending rfl rfl rfl rfl rfl rfl .persistencePaused
      retry := hretry
      unchanged := hu
      admission := hadm }
  have h := retryPersistence_published hs hpersisting hl hi hpend
  exact { h with same := h.same }

variable {r : ItemResult} {o : SubmissionOutcome}

theorem posted_of_clean {i : Nat} (hclean : m.isClean = true) (hr : m.result i = some r)
    (ho : Presentation.resultOutcome r = some o) : ∃ id, o = .posted id := by
  have hmem : r ∈ m.results.filterMap id := by
    rw [List.mem_filterMap]
    refine ⟨some r, ?_, rfl⟩
    rw [result, List.getD_eq_getElem?_getD] at hr
    cases hget : m.results[i]? with
    | none => simp [hget] at hr
    | some x =>
      simp only [hget, Option.getD_some] at hr
      subst hr
      exact List.mem_of_getElem? hget
  simp only [isClean, Bool.and_eq_true, List.all_eq_true, decide_eq_true_eq] at hclean
  have hposted := hclean.2 r hmem
  cases hid : r.id with
  | none => simp [Presentation.resultOutcome, hposted, hid] at ho
  | some id =>
    simp only [Presentation.resultOutcome, hposted, hid, Option.some.injEq] at ho
    exact ⟨id, ho.symm⟩

/-- The item is decided: its outcome is owed, with the next participant or the end of the run. -/
theorem settled_owes (hc : Consistent d) (hin : InHand d t dr parent)
    (hready : d.machine.mustWait = false) (hel : Elsewhere d.machine m')
    (hidx : m'.idx = d.machine.idx + 1) (hr : m'.result d.machine.idx = some r)
    (hwait : m'.mustWait = d.machine.mustWait) (hab : m'.abortedReason = d.machine.abortedReason)
    (hro : Presentation.resultOutcome r = some o) :
    (∃ n parent', (m'.advance d.review).1 = .post ⟨n, parent', false⟩ ∧
      ∀ (tr : PersistedTransition) (retry : Option SubmissionRetryCheckpoint), tr.tempId = t →
      Owes { d with machine := (m'.advance d.review).2 }
        { transition := tr, outcome := some o, next := some ⟨n, parent', false⟩
          retryCheckpoint := retry }) ∨
    ((m'.advance d.review).1 = .done ∧
      ∀ (tr : PersistedTransition) (retry : Option SubmissionRetryCheckpoint) (o' : SubmissionOutcome),
      tr.tempId = t → ((m'.advance d.review).2.isClean = true → ∃ id, o' = .posted id) →
      Owes { d with machine := (m'.advance d.review).2 }
        { transition := tr, outcome := some o'
          completion := some (DurableSubmission.runCompletion (m'.advance d.review).2)
          retryCheckpoint := retry }) := by
  have hfresh := fresh_of_settled hc.quiet hready hel hidx hwait
  have hab' : m'.abortedReason = none := hab.trans hin.unaborted
  obtain ⟨hm, -⟩ := advance_spec d.review m' hel.sized.results
  have hmem := hin.mem hc
  have hres : (m'.advance d.review).2.result d.machine.idx = some r := by
    rw [hm.outside _ (.inl (by omega))]
    exact hr
  have horder : (m'.advance d.review).2.order = d.machine.order := hm.order.trans hel.order
  have hle := hm.idx_le
  rcases @fresh_advance d.review m' hfresh hab' hel.sized.results with
    ⟨n, dn, parent', hstep, hfl⟩ | ⟨hstep, hover⟩
  · refine .inl ⟨n, parent', hstep, fun tr retry htr => ?_⟩
    refine .next t o n dn parent' htr rfl rfl rfl rfl hin.current ?_ hfl
      (hm.abortedReason.trans hab') (hfresh.moved hm)
    refine ⟨d.machine.idx, r, hc.started, ?_, ?_, hres, hro⟩
    · simp only
      omega
    · simp only [horder]
      exact hin.flight.at_idx
  · refine .inr ⟨hstep, fun tr retry o' htr hclean => ?_⟩
    refine .last t o' htr rfl rfl rfl ?_ hin.current hover (hm.abortedReason.trans hab') hclean
      (by rintro ⟨⟩)
    simp only [participantIds, horder]
    exact hmem

theorem afterPost_settled {status : ItemStatus} {id : Option CommentId} {reason : Option ApiError}
    (hf : slot.afterPost outcome = .settled status id reason) :
    Presentation.resultOutcome ⟨t, status, id, reason⟩ =
      some (DurableSubmission.outcomeOf outcome) ∧ (status = .posted → id.isSome = true) := by
  cases Slot.posting hf with
  | posted cid => exact ⟨rfl, fun _ => rfl⟩
  | failed err => exact ⟨rfl, by rintro ⟨⟩⟩

theorem afterPost_aborts {err : ApiError} (hf : slot.afterPost outcome = .aborts err) :
    outcome = .rejected err ∧ classifyPolicy err = .abort := by
  cases Slot.posting hf with
  | aborts _ hp => exact ⟨rfl, hp⟩

theorem terminalRetry_owed (m : Submission) (outcome : PostOutcome) (tr : PersistedTransition)
    (o : Option SubmissionOutcome) (next : Option PostStep) (k : Option SubmissionCompletion) :
    OwedRetry { transition := tr, outcome := o, next := next, completion := k
                retryCheckpoint := DurableSubmission.terminalRetry m outcome } where
  valid := by
    intro checkpoint hcp
    cases outcome with
    | posted id | ambiguous => cases hcp
    | rejected err =>
      obtain ⟨delay, -, rfl⟩ := Option.map_eq_some_iff.mp hcp
      refine ⟨⟨?_, Nat.le_refl _, by rintro - ⟨⟩, by rintro ⟨⟩⟩, rfl, rfl⟩
      exact (Nat.zero_max delay).symm
  first := by rintro ⟨⟩

theorem settled_of_definite (hs : Stored p st) (hb : Backed g d st)
    (hcur : d.currentTempId = some t) {checkpoint : SubmissionRetryCheckpoint}
    (hretry : ∀ run, st.activeRun = some run → run.retry = some checkpoint)
    (hdef : Definite checkpoint) : Settled st d.key t where
  known := by
    intro ds hds hunknown
    obtain ⟨ds', hds', hsub⟩ := hb.submitting hs hcur
    rw [hds] at hds'
    cases hds'
    rw [hunknown] at hsub
    cases hsub
  recorded := fun run hrun _ _ => ⟨checkpoint, hretry run hrun, hdef⟩

theorem persistWait_published (hs : Stored p st) (hc : Consistent d) (hb : Backed g d st)
    (hat : AtWait d t dr parent)
    (hdef : d.machine.slot.ambiguous = false → Definite d.machine.retryCheckpoint)
    (hadm : d.pendingAdmission = none) (hper : d.pendingPersistence = none)
    (hl : g'.left d.machine.answersLeft) (hi : ∀ was, g.intent was → g'.intent was) {ms : Nat}
    (hms : ms = d.machine.retryCheckpoint.effectiveDelayMs)
    (hset : ∀ key x, Settled (d.persistWait st ⟨ms, t, d.machine.retryCheckpoint⟩).2.2 key x →
      g'.cold key x) :
    Published p g' d st ((d.persistWait st ⟨ms, t, d.machine.retryCheckpoint⟩).1.map AfterPost.wait,
        (d.persistWait st ⟨ms, t, d.machine.retryCheckpoint⟩).2) := by
  subst hms
  unfold DurableSubmission.persistWait at hset ⊢
  rcases hw : st.checkpointSubmissionRetry d.operationId d.key t d.machine.retryCheckpoint with
    ⟨result, st'⟩
  obtain ⟨hs', hb', hop, -, href, hretry⟩ := checkpointRetry_written hs hb hat.current hat.valid
    (fun _ => hat.waits) hw
  have hcongr : ∀ phase pending, Consistent
      { d with pendingWaitRetry := pending, phase := phase } := fun _ _ =>
    hc.core rfl
  have hbacked : ∀ phase pending, Backed g'
      { d with pendingWaitRetry := pending, phase := phase } st' := fun _ _ =>
    (hb'.remember hi).core rfl
  cases result with
  | error err =>
    refine .pausing hs' hop ⟨rfl, rfl⟩
      { consistent := hcongr _ _, backed := hbacked _ _, admission := ?_, persistence := ?_
        standing := ?_, left := hl }
    · rw [hadm]; rintro ⟨⟩
    · rw [hper]; rintro ⟨⟩
    · exact ⟨t, dr, parent, hat.core rfl, rfl, fun hclear => .inr (hdef hclear), rfl, rfl⟩
  | ok u =>
    simp only [hw, Except.map] at hset ⊢
    refine
      { stored := hs', operations := hop, paused := by rintro _ ⟨⟩, next := by rintro _ _ ⟨⟩
        check := by rintro _ ⟨⟩, wait := ?_, finished := by rintro _ _ ⟨⟩, same := ⟨rfl, rfl⟩ }
    rintro _ ⟨⟩
    refine
      { consistent := hcongr _ _, backed := hbacked _ _, admission := ?_, persistence := ?_
        standing := ?_, left := hl }
    · rw [hadm]; rintro ⟨⟩
    · rw [hper]; rintro ⟨⟩
    · refine ⟨t, dr, parent, hat.core rfl, fun hclear => ?_, rfl, rfl⟩
      exact hset d.key t (settled_of_definite hs' hb' hat.current (hretry rfl) (hdef hclear))

theorem materializeDuplicateCheck_ready (hin : InHand d t dr parent)
    (hready : d.machine.mustWait = false) :
    ∃ command, Carries d dr parent command ∧ d.materializeDuplicateCheck = (.ok command, { d with
        policyCheck := d.machine.ambiguous d.machine.idx && !d.sourceChanged
        phase := .duplicateQueued }) := by
  unfold DurableSubmission.materializeDuplicateCheck
  rw [hin.advance, stepFor, if_neg (by rw [hready]; simp)]
  cases hamb : d.machine.ambiguous d.machine.idx with
  | true =>
    refine ⟨{ d.postCommand dr ⟨t, parent, true⟩ with dedupe := true },
      ⟨rfl, rfl, ⟨dr.state, rfl⟩, rfl⟩, ?_⟩
    simp [DurableSubmission.duplicateCheck, hin.current, hin.flight.draft]
  | false =>
    refine ⟨{ d.postCommand dr ⟨t, parent, false⟩ with dedupe := true },
      ⟨rfl, rfl, ⟨dr.state, rfl⟩, rfl⟩, ?_⟩
    simp [DurableSubmission.duplicateCheck, hin.current, hin.flight.draft]

theorem materializeDuplicateCheck_waiting (hin : InHand d t dr parent)
    (hwait : d.machine.mustWait = true) :
    d.materializeDuplicateCheck = (.error .invalidRecoveryState, d) := by
  unfold DurableSubmission.materializeDuplicateCheck
  rw [hin.advance, stepFor, if_pos hwait]

theorem serves_reading (hc : Consistent d) (hb : Backed g d st) (hin : InHand d t dr parent)
    (hready : d.machine.mustWait = false) {command : PostDraft}
    (hcarries : Carries d dr parent command)
    (hrec : (d.machine.ambiguous d.machine.idx && !d.sourceChanged) = false → d.recovered = true)
    (hadm : d.pendingAdmission = none) (hper : d.pendingPersistence = none)
    (hl : g.left d.machine.answersLeft) :
    Serves p g { d with
        policyCheck := d.machine.ambiguous d.machine.idx && !d.sourceChanged
        phase := .duplicateQueued } st [.findDuplicate command] [] where
  consistent := hc.core rfl
  backed := hb.core rfl
  admission := by rw [hadm]; rintro ⟨⟩
  persistence := by rw [hper]; rintro ⟨⟩
  standing := by
    refine ⟨t, dr, parent, command, ⟨hin.core rfl, hready, rfl, hrec⟩,
      ⟨hcarries.operation, hcarries.identity, hcarries.draft, hcarries.parent⟩, rfl, rfl⟩
  left := hl

variable {completed : PostDraftCompleted}

theorem acceptReported_wait {wait : WaitStep}
    (h : d.advance = (.wait wait, d)) : d.acceptReported st completed =
      ((d.persistWait st wait).1.map AfterPost.wait, (d.persistWait st wait).2) := by
  unfold DurableSubmission.acceptReported
  simp only [h]
  rcases d.persistWait st wait with ⟨result | result, d', st'⟩ <;> rfl

theorem acceptReported_check {step : PostStep} {command : PostDraft} (h : d.advance = (.check step, d))
    (hm : { d with phase := .duplicateQueued }.materializeDuplicateCheck = (.ok command, d')) :
    d.acceptReported st completed = (.ok (.check command), d', st) := by
  unfold DurableSubmission.acceptReported
  simp only [h, hm]

section Reported

variable (hs : Stored p st) (hc : Consistent d) (hb : Backed g d st) (hat : AtPost d t dr parent)
  (hadm : d.pendingAdmission = none) (hl : ∀ n, n < d.machine.answersLeft → g'.left n)
include hs hc hb hat hadm hl

section

variable (hr : Remembers g g' st
  ((d.reported completed.outcome completed.retryAfterMs).acceptReported st completed).2.2)
include hr

/-- A decided participant: its outcome is stored, with the next one or the end of the run. -/
theorem reported_settled (ht : completed.tempId = t) {status : ItemStatus} {id : Option CommentId}
    {reason : Option ApiError}
    (hfate : d.machine.slot.afterPost completed.outcome = .settled status id reason) :
    Published p g' d st
      ((d.reported completed.outcome completed.retryAfterMs).acceptReported st completed) := by
  have hin := hat.toInHand
  obtain ⟨hel, hlands⟩ := report_lands hc.sized hin.flight.at_idx completed.outcome
    completed.retryAfterMs
  rw [hfate] at hlands
  obtain ⟨hidx, hres, hwait, hab⟩ := hlands
  obtain ⟨hro, hshape⟩ := afterPost_settled (t := t) hfate
  obtain ⟨hc', -⟩ := hc.settled hin hat.ready hel hidx hres hshape hwait
  obtain ⟨hm, -⟩ := advance_spec d.review _ hel.sized.results
  have hb' := hb.advanced (hm.order.trans hel.order) hat.ready
  have hless := answersLeft_settled hin hc.bounded hel.order hidx
    (fresh_of_settled hc.quiet hat.ready hel hidx hwait) hm
  rcases settled_owes hc hin hat.ready hel hidx hres hwait hab hro with
    ⟨n, parent', hstep, howes⟩ | ⟨hstep, howes⟩
  · simp only [DurableSubmission.acceptReported, advance_fst, advance_snd,
      DurableSubmission.reported, hstep]
    exact (persist_published hs hc' hb' (howes _ _ ht) (terminalRetry_owed _ _ _ _ _ _)
      hat.unchanged hadm (hl _ hless) hr.intent hr.pending).of_same rfl rfl
  · simp only [DurableSubmission.acceptReported, advance_fst, advance_snd,
      DurableSubmission.reported, hstep]
    refine (persist_published hs hc' hb' (howes _ _ _ ht fun hclean => ?_)
      (terminalRetry_owed _ _ _ _ _ _) hat.unchanged hadm (hl _ hless) hr.intent
      hr.pending).of_same rfl rfl
    exact posted_of_clean hclean ((hm.outside _ (.inl (by omega))).trans hres) hro

variable (hper : d.pendingPersistence = none)
include hper

/-- An aborted run: the copy of the review says what the participant goes back to. -/
theorem reported_aborts (hphase : d.phase = .awaitingPost) (ht : completed.tempId = t)
    (hunr : ∀ err, completed.outcome = .rejected err → classifyPolicy err = .abort →
      DurableSubmission.restoreState dr.state = none → p.unrestored) {err : ApiError}
    (hfate : d.machine.slot.afterPost completed.outcome = .aborts err) :
    Published p g' d st
      ((d.reported completed.outcome completed.retryAfterMs).acceptReported st completed) := by
  have hin := hat.toInHand
  obtain ⟨hel, hlands⟩ := report_lands hc.sized hin.flight.at_idx completed.outcome
    completed.retryAfterMs
  rw [hfate] at hlands
  obtain ⟨hidx, hres, hslot, hab⟩ := hlands
  obtain ⟨hout, hpolicy⟩ := afterPost_aborts hfate
  have hc' := hc.remains hel hidx hres (hslot ▸ hc.bounded)
  have hb' := hb.advanced hel.order hat.ready
  have hadv : (d.machine.report completed.outcome completed.retryAfterMs).advance d.review =
      (.aborted err, d.machine.report completed.outcome completed.retryAfterMs) := by
    simp only [Submission.advance, hab]
  have hzero : (d.machine.report completed.outcome completed.retryAfterMs).answersLeft = 0 := by
    simp [answersLeft, hab]
  have hless : 0 < d.machine.answersLeft := by
    rw [answersLeft_inHand hin]
    have := hc.bounded.answersLeft_pos
    omega
  have hdraft : d.review.getConst completed.tempId = some dr := ht ▸ hin.flight.draft
  simp only [DurableSubmission.acceptReported, advance_fst, advance_snd,
    DurableSubmission.reported, hadv, hdraft]
  cases hstate : DurableSubmission.restoreState dr.state with
  | none =>
    refine .pausing hs rfl ⟨rfl, rfl⟩
      { consistent := hc', backed := hb'.remember hr.intent, admission := ?_, persistence := ?_
        standing := ?_, left := ?_ }
    · rw [hadm]; rintro ⟨⟩
    · rw [hper]; rintro ⟨⟩
    · unfold Standing
      rw [hphase]
      exact .inr ⟨hunr err hout hpolicy hstate, by rw [hab]; rfl, rfl, rfl⟩
    · simp only [effectsLeft, hphase, hzero]
      exact hl 0 hless
  | some restored =>
    refine (persist_published hs hc' hb' (.restored t dr restored ht rfl rfl rfl hin.current
      hin.flight.draft hstate rfl) ⟨by rintro _ ⟨⟩, by rintro ⟨⟩⟩ hat.unchanged hadm ?_ hr.intent
      hr.pending).of_same rfl rfl
    simp only [hzero]
    exact hl 0 hless

theorem reported_remains {slot' : Slot}
    (hfate : d.machine.slot.afterPost completed.outcome = .remains slot') :
    Published p g' d st
      ((d.reported completed.outcome completed.retryAfterMs).acceptReported st completed) := by
  have hin := hat.toInHand
  obtain ⟨hel, hlands⟩ := report_lands hc.sized hin.flight.at_idx completed.outcome
    completed.retryAfterMs
  rw [hfate] at hlands
  obtain ⟨hidx, hres, hslot, hab⟩ := hlands
  obtain ⟨hbound, hless, hunsure⟩ := hc.bounded.afterPost hat.ready hat.clear hfate
  have hc' := hc.remains hel hidx hres (hslot ▸ hbound)
  have hb' := hb.advanced hel.order hat.ready
  have hin' : InHand { d with
      machine := d.machine.report completed.outcome completed.retryAfterMs } t dr parent :=
    ⟨hin.current, hin.flight.congr hel.order hres hidx, hab.trans hin.unaborted⟩
  have hleft := hl _ (answersLeft_remains hin hel.order hidx (hslot ▸ hless))
  have hwaiting : (d.machine.report completed.outcome completed.retryAfterMs).mustWait =
      slot'.waiting := congrArg Slot.waiting hslot
  have hamb : (d.machine.report completed.outcome completed.retryAfterMs).ambiguous
      (d.machine.report completed.outcome completed.retryAfterMs).idx = !slot'.waiting :=
    (congrArg Slot.ambiguous hslot).trans hunsure
  have hadv := hin'.advance
  cases hwait : slot'.waiting with
  | true =>
    -- The same POST is tried again after its delay.
    rw [hwait] at hwaiting hamb
    obtain ⟨hvalid, hdef⟩ := report_retry completed.retryAfterMs hc.sized
      hin.flight.at_idx hfate hat.ready hwait
    rw [stepFor, if_pos hwaiting] at hadv
    have hset := hr.settled
    unfold DurableSubmission.reported at hset ⊢
    rw [acceptReported_wait hadv] at hset ⊢
    exact (persistWait_published hs hc' hb' ⟨hin', hwaiting, hvalid, hat.unchanged⟩ (fun _ => hdef)
      hadm hper hleft hr.intent rfl hset).of_same rfl rfl
  | false =>
    -- Whether a Comment exists is unknown: read before anything else.
    rw [hwait, Bool.not_false] at hamb
    rw [hwait] at hwaiting
    rw [stepFor, if_neg (by simp [hwaiting]), if_pos hamb] at hadv
    have hin₂ : InHand { d with
        machine := d.machine.report completed.outcome completed.retryAfterMs
        phase := .duplicateQueued } t dr parent := hin'.core rfl
    obtain ⟨command, hcarries, hm⟩ := materializeDuplicateCheck_ready hin₂ hwaiting
    unfold DurableSubmission.reported
    rw [acceptReported_check hadv hm]
    refine
      { stored := hs, operations := rfl, paused := by rintro _ ⟨⟩, next := by rintro _ _ ⟨⟩
        check := ?_, wait := by rintro _ ⟨⟩, finished := by rintro _ _ ⟨⟩, same := ⟨rfl, rfl⟩ }
    rintro _ ⟨⟩
    refine serves_reading hc' (hb'.remember hr.intent) hin' hwaiting
      ⟨hcarries.operation, hcarries.identity, hcarries.draft, hcarries.parent⟩ ?_ hadm hper hleft
    simp only [hamb, hat.unchanged]
    rintro ⟨⟩

end

theorem acceptPost_published (hper : d.pendingPersistence = none) (hphase : d.phase = .awaitingPost)
    (ht : completed.tempId = t)
    (hunr : ∀ err, completed.outcome = .rejected err → classifyPolicy err = .abort →
      DurableSubmission.restoreState dr.state = none → p.unrestored)
    (hr : Remembers g g' st (d.acceptPost st completed).2.2) :
    Published p g' d st (d.acceptPost st completed) := by
  have hc' : Consistent (d.noting completed.outcome) := hc.core rfl
  have hb' : Backed g (d.noting completed.outcome) st := hb.core rfl
  have hat' : AtPost (d.noting completed.outcome) t dr parent := hat.core rfl
  cases hfate : d.machine.slot.afterPost completed.outcome with
  | settled status id reason =>
    have h := reported_settled hs hc' hb' hat' hadm hl hr ht hfate
    exact { h with same := h.same }
  | aborts err =>
    have h := reported_aborts hs hc' hb' hat' hadm hl hr hper hphase ht hunr hfate
    exact { h with same := h.same }
  | remains slot' =>
    have h := reported_remains hs hc' hb' hat' hadm hl hr hper hfate
    exact { h with same := h.same }

end Reported

/-- The Submission once its wait is over. -/
def waited (d : DurableSubmission) : DurableSubmission :=
  { d with machine := { d.machine with mustWait := false } }

theorem waited_machine (d : DurableSubmission) :
    { d with machine := if d.machine.mustWait then d.machine.completeWait else d.machine } =
      waited d := by
  unfold waited
  cases hw : d.machine.mustWait with
  | true => rfl
  | false =>
    have heq : { d.machine with mustWait := false } = d.machine := by rw [← hw]
    simp only [heq, Bool.false_eq_true, if_false]

theorem InHand.waited (hin : InHand d t dr parent) : InHand (waited d) t dr parent :=
  ⟨hin.current, hin.flight.congr rfl rfl rfl, hin.unaborted⟩

theorem Consistent.waited (hc : Consistent d) : Consistent (waited d) :=
  hc.remains (completeWait_lands 0 hc.sized).1 rfl rfl hc.bounded.afterWait

/-- A completed wait that is recorded is no longer pending. -/
structure Waited (p : Permits) (g : Memory) (d : DurableSubmission) (st st' : InMemoryStore) :
    Prop where
  stored : Stored p st'
  backed : Backed g (waited d) st'
  operations : st'.nextOperationId = st.nextOperationId

/-- The end of a wait is refused, or the machine asks for a POST; before a read the driver has no
way on. -/
theorem completeWait_cases (hs : Stored p st) (hb : Backed g d st)
    (hin : InHand d t dr parent) (hv : ValidRetry d.machine.retryCheckpoint)
    (hphase : d.phase = .awaitingWait) :
    (∃ err st', d.completeWait st (waitOf d t) = (.error err, d, st') ∧ p.refuses ∧
      Stored p st' ∧ Backed g d st' ∧ st'.nextOperationId = st.nextOperationId) ∨
    (∃ err st', d.machine.ambiguous d.machine.idx = true ∧
      d.completeWait st (waitOf d t) = (.error err, waited d, st') ∧ Waited p g d st st') ∨
    ∃ command st', d.machine.ambiguous d.machine.idx = false ∧
      d.completeWait st (waitOf d t) = (.ok command, { waited d with phase := .postQueued }, st') ∧
      Waited p g d st st' ∧ Carries d dr parent command ∧ command.dedupe = false := by
  have hlive : ¬ (d.operationId ≠ (waitOf d t).operationId ∨
      d.currentTempId ≠ some (waitOf d t).tempId ∨ d.phase ≠ .awaitingWait) := by
    rintro (h | h | h)
    · exact h rfl
    · exact h hin.current
    · exact h hphase
  have hv' : ValidRetry { d.machine.retryCheckpoint with pendingWait := false } :=
    ⟨hv.delay, hv.attempts, by rintro - ⟨⟩, hv.reads⟩
  rcases hw : st.checkpointSubmissionRetry d.operationId d.key t
    { d.machine.retryCheckpoint with pendingWait := false } with ⟨result, st'⟩
  obtain ⟨hs', hb', hop, -, href, hretry⟩ := checkpointRetry_written hs hb hin.current hv'
    (by rintro ⟨-, ⟨⟩⟩) hw
  have hpersist : d.persistCompletedWait st (waitOf d t) = (result, st') := hw
  unfold DurableSubmission.completeWait
  rw [if_neg hlive]
  cases result with
  | error err =>
    refine .inl ⟨.store err, st', ?_, href err rfl, hs', hb', hop⟩
    simp only [hpersist]
  | ok u =>
    have hback : Backed g (waited d) st' := by
      refine ⟨hb'.run, hb'.mirrors, ?_, hb'.shows⟩
      intro run cp hrun hcp hdef
      rw [hretry rfl run hrun] at hcp
      cases hcp
      cases hdef.2
    have hadv := hin.waited.advance
    simp only [hpersist, waited_machine]
    unfold DurableSubmission.materializeCurrentPost
    rw [hadv, stepFor, if_neg (by simp [waited])]
    cases hamb : d.machine.ambiguous d.machine.idx with
    | true =>
      rw [if_pos (show (waited d).machine.ambiguous (waited d).machine.idx = true from hamb)]
      exact .inr (.inl ⟨_, st', rfl, rfl, hs', hback, hop⟩)
    | false =>
      have hclear : (waited d).machine.ambiguous (waited d).machine.idx = false := hamb
      rw [if_neg (by rw [hclear]; exact Bool.false_ne_true)]
      have hdraft := hin.waited.flight.draft
      simp only [hdraft]
      exact .inr (.inr ⟨_, st', trivial, rfl, ⟨hs', hback, hop⟩, ⟨rfl, rfl, ⟨dr.state, rfl⟩, rfl⟩,
        rfl⟩)

end Bbr.Tui
