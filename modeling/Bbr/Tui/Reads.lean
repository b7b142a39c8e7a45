import Bbr.Tui.Handlers

/-!
# The handlers of reads keep the invariant

The source check that precedes the effects of a run, the read that looks for a Comment, and what
the driver makes of their answers.
-/
namespace Bbr.Tui

open Bbr.Bitbucket Bbr.Review Bbr.Lib Submission Presentation DurableSubmission

variable {p : Permits} {g g' : Memory} {s : Presentation} {d d' : DurableSubmission}
  {st st' : InMemoryStore} {t c : TempId} {dr : Draft} {parent : Option CommentId} {i : Nat}

theorem queueDuplicateCheck_inv (hv : Vacant p d.operationId s) (hs : Stored p s.reviews)
    (hc : Consistent d) (hb : Backed g d s.reviews) (hin : InHand d t dr parent)
    (hadm : d.pendingAdmission = none) (hper : d.pendingPersistence = none)
    (hrec : (d.machine.ambiguous d.machine.idx && !d.sourceChanged) = false → d.recovered = true)
    (hwait : d.machine.mustWait = true → p.stalls ∧ d.sourceChanged = true)
    (hl : g.left d.machine.answersLeft) : Inv p g (s.queueDuplicateCheck d) := by
  unfold queueDuplicateCheck
  cases hw : d.machine.mustWait with
  | true =>
    obtain ⟨hstall, hchanged⟩ := hwait hw
    rw [materializeDuplicateCheck_waiting hin hw]
    refine hv.pausing rfl rfl hs (.of_core hc hb hadm hper rfl rfl rfl ?_ hl)
    exact ⟨t, dr, parent, hin.core rfl, hc.changed hchanged, fun _ => ⟨hstall, hchanged⟩, rfl, rfl⟩
  | false =>
    obtain ⟨command, hcarries, hm⟩ := materializeDuplicateCheck_ready hin hw
    rw [hm]
    exact hv.queuing rfl rfl hs (serves_reading hc hb hin hw hcarries hrec hadm hper hl)

variable {source : BoundedText 64}

section

variable (hv : Vacant p d.operationId s) (hc : Consistent d) (hre : Rechecks g d source)
  (hadm : d.pendingAdmission = none) (hper : d.pendingPersistence = none)
include hv hc hre hadm hper

theorem continueChecked_inv
    (hs : Stored p s.reviews) (hb : Backed g d s.reviews) (hl : g.left d.machine.answersLeft) :
    Inv p g (s.continueChecked d) := by
  obtain ⟨t, dr, parent, hin, hwaits, hbegun⟩ := hre.inHand
  have hread : (d.machine.ambiguous d.machine.idx = true ∨ d.recovered = true) →
      (d.machine.ambiguous d.machine.idx && !d.sourceChanged) = false → d.recovered = true := by
    rintro (hamb | hrec) hnot
    · simp [hamb, hre.unchanged] at hnot
    · exact hrec
  unfold continueChecked
  rw [hin.advance]
  cases hw : d.machine.mustWait with
  | true =>
    rw [stepFor, if_pos hw]
    refine hv.queuing rfl rfl hs (.of_core hc hb hadm hper rfl rfl rfl ?_ hl)
    exact ⟨t, dr, parent, ⟨hin.core rfl, hw, hre.valid hw, hre.unchanged⟩, hwaits hw, rfl, rfl⟩
  | false =>
    have hno : d.machine.mustWait = true → p.stalls ∧ d.sourceChanged = true := by
      rw [hw]
      rintro ⟨⟩
    cases hamb : d.machine.ambiguous d.machine.idx with
    | true =>
      rw [stepFor, if_neg (by simp [hw]), if_pos hamb]
      exact queueDuplicateCheck_inv hv hs hc hb hin hadm hper (hread (.inl hamb)) hno hl
    | false =>
      rw [stepFor, if_neg (by simp [hw]), if_neg (by simp [hamb])]
      dsimp only
      by_cases hrec : d.recovered = true
      · rw [if_pos hrec]
        exact queueDuplicateCheck_inv hv hs hc hb hin hadm hper (hread (.inr hrec)) hno hl
      rw [if_neg hrec]
      simp only [hin.flight.draft]
      refine hv.queuing rfl rfl hs (.of_core hc hb hadm hper rfl rfl rfl ?_ hl)
      refine .inl ⟨t, dr, parent, _, ⟨hin.core rfl, hw, hamb,
        hre.unchanged⟩, (hbegun (by simpa using hrec)).2, ⟨rfl, rfl, ⟨dr.state, rfl⟩, rfl⟩, rfl,
        rfl, rfl⟩

/-- A source check that failed, or whose abort was refused, is tried again. -/
theorem recoveryPaused_inv (hs : Stored p st) (hop : st.nextOperationId = s.reviews.nextOperationId)
    (hb : Backed g d st)
    (hl : g.left (d.machine.answersLeft + 1)) : Inv p g { s with
      durable := some { d with phase := .recoveryCheckPaused }, reviews := st } := by
  obtain ⟨t, dr, parent, hin, hwaits, hbegun⟩ := hre.inHand
  refine hv.pausing rfl hop hs (.of_core hc hb hadm hper rfl rfl rfl ?_ hl)
  exact ⟨source, ⟨hre.source, ⟨t, dr, parent, hin.core rfl, hwaits,
    hbegun⟩, hre.valid, hre.unchanged⟩, rfl, rfl⟩

end

theorem abortChangedSubmission_unseen (h : d.observedSourceCommit = none) : s.abortChangedSubmission d =
      { s with durable := some { d with phase := .recoveryCheckPaused } } := by
  unfold abortChangedSubmission
  split
  · rfl
  · next observed hobs => rw [h] at hobs; cases hobs

theorem abortChangedSubmission_error (h : d.observedSourceCommit.isSome) {err : StoreError}
    (hw : s.reviews.completeSubmission d.operationId d.key (.aborted .draft) = (.error err, st')) :
    s.abortChangedSubmission d = { s with
      durable := some { d with phase := .recoveryCheckPaused }, reviews := st' } := by
  unfold abortChangedSubmission
  split
  · next hobs => rw [hobs] at h; cases h
  · simp only [hw]

theorem foldl_countStatus_completion (results : List (Option ItemResult))
    (result : SubmissionResultProjection) :
    (results.foldl countStatus result).completion = result.completion := by
  induction results generalizing result with
  | nil => rfl
  | cons r rest ih =>
    rw [List.foldl_cons, ih]
    cases r with
    | none => rfl
    | some item =>
      unfold countStatus
      dsimp only
      split <;> rfl

theorem foldl_countState_completion (drafts : List Draft) (result : SubmissionResultProjection) :
    (drafts.foldl countState result).completion = result.completion := by
  induction drafts generalizing result with
  | nil => rfl
  | cons d rest ih =>
    rw [List.foldl_cons, ih]
    unfold countState
    split
    · rfl
    · split <;> rfl

theorem abortChangedSubmission_ok (h : d.observedSourceCommit.isSome)
    (hw : s.reviews.completeSubmission d.operationId d.key (.aborted .draft) = (.ok (), st')) :
    ∃ result, result.completion = .aborted .draft ∧ s.abortChangedSubmission d = { s with
      durable := none, reviews := st', submissionResult := some result } := by
  unfold abortChangedSubmission
  split
  · next hobs => rw [hobs] at h; cases h
  · simp only [hw]
    exact ⟨_, foldl_countState_completion _ _, rfl⟩

theorem abortChangedSubmission_inv (hv : Vacant p d.operationId s)
    (hs : Stored p s.reviews) (hc : Consistent d) (hb : Backed g d s.reviews)
    (hre : Rechecks g d source) (hadm : d.pendingAdmission = none)
    (hper : d.pendingPersistence = none)
    (hl : Paused (s.abortChangedSubmission d) → g.left (d.machine.answersLeft + 1)) :
    Inv p g (s.abortChangedSubmission d) := by
  cases hobs : d.observedSourceCommit.isSome with
  | false =>
    rw [abortChangedSubmission_unseen (by simpa using hobs)] at hl ⊢
    exact recoveryPaused_inv hv hc hre hadm hper hs rfl hb (hl ⟨_, rfl, rfl⟩)
  | true =>
    obtain ⟨t, dr, parent, hin, -⟩ := hre.inHand
    rcases hw : s.reviews.completeSubmission d.operationId d.key (.aborted .draft) with
      ⟨result, st'⟩
    obtain ⟨hs', hop, herr, hok⟩ := completion_written hs hb (fun run hrun hcur => by
      obtain ⟨ds, hds, hsub⟩ := hb.submitting hs hin.current
      exact ⟨t, ds, hcur.trans hin.current, hds, hsub⟩) hw
    cases result with
    | error err =>
      obtain ⟨-, hb', -⟩ := herr err rfl
      rw [abortChangedSubmission_error hobs hw] at hl ⊢
      exact recoveryPaused_inv hv hc hre hadm hper hs' hop hb' (hl ⟨_, rfl, rfl⟩)
    | ok u =>
      obtain ⟨shown, -, heq⟩ := abortChangedSubmission_ok hobs hw
      rw [heq]
      exact hv.ended hop hs' _

theorem processRecoveryCheck_current {current : BoundedText 64}
    (h : d.recoverySourceCommit = some source) :
    s.processRecoveryCheck d (.currentSource current) =
      if headChanged source.slice current.slice then
        if d.recovered then s.queueDuplicateCheck { d with
          observedSourceCommit := some current, sourceChanged := true
          phase := .recoverySourceChanged }
        else s.abortChangedSubmission { d with observedSourceCommit := some current }
      else s.continueChecked d := by
  unfold processRecoveryCheck
  dsimp only
  split
  · next hnone => rw [h] at hnone; cases hnone
  rename_i found hfound
  rw [h] at hfound
  cases hfound
  rfl

variable {outcome : RecoveryCheckOutcome}

/-- The source is the one the run began with, or the run is aborted, or read to its end. -/
theorem processRecoveryCheck_inv (hv : Vacant p d.operationId s) (hs : Stored p s.reviews)
    (hc : Consistent d) (hb : Backed g d s.reviews) (hre : Rechecks g d source)
    (hadm : d.pendingAdmission = none) (hper : d.pendingPersistence = none)
    (hstall : ∀ current, outcome = .currentSource current →
      headChanged source.slice current.slice = true → d.machine.mustWait = true → p.stalls)
    (hpaused : Paused (s.processRecoveryCheck d outcome) → g.left (d.machine.answersLeft + 1))
    (hl : g.left d.machine.answersLeft) : Inv p g (s.processRecoveryCheck d outcome) := by
  cases outcome with
  | failed => exact recoveryPaused_inv hv hc hre hadm hper hs rfl hb (hpaused ⟨_, rfl, rfl⟩)
  | currentSource current =>
    rw [processRecoveryCheck_current hre.source] at hpaused ⊢
    by_cases hchanged : headChanged source.slice current.slice = true
    · rw [if_pos hchanged] at hpaused ⊢
      obtain ⟨t, dr, parent, hin, hwaits, hbegun⟩ := hre.inHand
      by_cases hrec : d.recovered = true
      · rw [if_pos hrec]
        refine queueDuplicateCheck_inv hv hs (hc.congr rfl rfl rfl rfl fun _ => hrec)
          (hb.congr rfl rfl rfl rfl rfl rfl rfl id) ⟨hin.current, hin.flight, hin.unaborted⟩ hadm
          hper (fun _ => hrec) (fun hw => ⟨hstall current rfl hchanged hw, rfl⟩) hl
      · rw [if_neg hrec] at hpaused ⊢
        have hre' : Rechecks g { d with observedSourceCommit := some current } source :=
          ⟨hre.source, ⟨t, dr, parent, hin.core rfl, hwaits, hbegun⟩, hre.valid, hre.unchanged⟩
        exact abortChangedSubmission_inv hv hs (hc.core rfl) (hb.core rfl) hre' hadm hper hpaused
    · rw [if_neg hchanged]
      exact continueChecked_inv hv hc hre hadm hper hs hb hl

theorem acceptRecoveryCheck_inv (h : Inv p g s) (ha : Allows p s (.recoveryChecked i outcome))
    (hr : Recalls g g' s (.recoveryChecked i outcome)) :
    Inv p g' (s.acceptRecoveryCheck i outcome) := by
  refine h.complete hr (by simp) .checkRecovery (fun _ _ => asCheckRecovery_eq)
    (fun _ _ => by simp [admitsRecovery, Awaited]) (fun command hc => by
      obtain ⟨check, hw, rfl⟩ := Option.map_eq_some_iff.mp hc
      exact ⟨check, hw, rfl⟩) ?_
  intro d check hadm heq hv hserves
  obtain ⟨-, -, hphase⟩ := hadm.awaited
  have hstanding := hserves.standing
  rw [Standing, hphase] at hstanding
  obtain ⟨source, hre, -⟩ := hstanding
  have hmem := hr.remembers (by simp) hadm.running
  have hleft := hserves.left
  have heffects : effectsLeft d = d.machine.answersLeft + 1 := by simp [effectsLeft, hphase]
  rw [heffects] at hleft
  refine processRecoveryCheck_inv hv h.stored hserves.consistent
    (hserves.backed.remember hmem.intent) (hre.remember hmem.cold)
    (hserves.no_admission (by simp [hphase])) (hserves.no_persistence (by simp [hphase])) ?_ ?_
    (hr.less hadm.active _ _ hleft (Nat.lt_succ_self _))
  · rintro current rfl hchanged hw
    exact ha.stalls ⟨d, check, source, hadm, hre.source, hchanged, hw⟩
  intro hpaused
  refine hr.same hadm.active ?_ _ hleft
  rintro ⟨-, hno⟩
  refine hno ?_
  simp only [update, acceptRecoveryCheck]
  rw [heq]
  exact hpaused

theorem allPosted_iff {review : PendingReview} : allPosted review = true ↔
    ∀ draft ∈ review.drafts, draft.target = .bitbucket → ∃ id, draft.state = .posted id := by
  rw [allPosted, List.all_eq_true]
  constructor
  · intro h draft hmem htarget
    have := h draft hmem
    cases hstate : draft.state with
    | posted id => exact ⟨id, rfl⟩
    | _ => simp [htarget, hstate] at this
  · intro h draft hmem
    by_cases htarget : draft.target = .bitbucket
    · obtain ⟨id, hid⟩ := h draft hmem htarget
      simp [hid]
    · simp [htarget]

variable {outcome : SubmissionOutcome} {pending : PendingDuplicate}

theorem finishDuplicate_inv
    (hv : Vacant p d.operationId s) (hs : Stored p s.reviews) (hc : Consistent d)
    (hb : Backed g d s.reviews) (hcur : d.currentTempId = none)
    (hpend : d.pendingDuplicate = some pending)
    (hout : duplicateOutcome pending.outcome = some outcome) (hrec : d.recovered = true)
    (hadm : d.pendingAdmission = none) (hper : d.pendingPersistence = none)
    (hl : Paused (s.finishDuplicate d) → g.left d.machine.answersLeft) :
    Inv p g (s.finishDuplicate d) := by
  unfold finishDuplicate at hl ⊢
  dsimp only at hl ⊢
  rcases hw : s.reviews.completeSubmission d.operationId d.key
    (if allPosted d.review then .clean else .partialCompletion) with ⟨result, st'⟩
  obtain ⟨hs', hop, herr, hok⟩ := completion_written hs hb (fun run hrun hrc => by
    split
    · next hall =>
      refine ⟨hrc.trans hcur, hb.notClean hcur hrun ?_⟩
      intro x hx
      obtain ⟨dx, hdx, htarget⟩ := hc.remote x hx
      obtain ⟨id, hid⟩ := allPosted_iff.mp hall dx (findDraft_mem hdx) htarget
      exact ⟨dx, id, hdx, hid⟩
    · exact hrc.trans hcur) hw
  rw [hw] at hl
  cases result with
  | error err =>
    obtain ⟨hrefuse, hb', -⟩ := herr err rfl
    refine hv.pausing rfl hop hs' (.of_core hc hb' hadm hper rfl rfl rfl ?_ (hl ⟨_, rfl, rfl⟩))
    exact ⟨hrefuse, pending, outcome, hpend, hout, hrec, absent hcur, rfl, rfl⟩
  | ok u => exact hv.ended hop hs' _

theorem persistDuplicateResolution_idle (h : d.currentTempId = none) :
    s.persistDuplicateResolution d = { s with durable := some d } := by
  unfold persistDuplicateResolution
  split
  · rfl
  · split
    · rfl
    · next x hx => rw [h] at hx; cases hx

theorem persistDuplicateResolution_todo
    (hpend : d.pendingDuplicate = some pending) (hcur : d.currentTempId = some t)
    (hout : duplicateOutcome pending.outcome = some outcome) (htodo : pending.checkpointDone = false) :
    s.persistDuplicateResolution d =
      match s.reviews.checkpointSubmission d.operationId d.key t outcome none with
      | (.error _, reviews) => { s with
          durable := some { d with phase := .duplicatePersistencePaused }, reviews := reviews }
      | (.ok (), reviews) => { s with durable := some d, reviews := reviews }.finishDuplicate
          { d.recordCheckpoint t outcome none with
            pendingDuplicate := some { pending with checkpointDone := true } } := by
  unfold persistDuplicateResolution
  split
  · next hnone => rw [hpend] at hnone; cases hnone
  rename_i found hfound
  rw [hpend] at hfound
  cases hfound
  split
  · next hnone => rw [hcur] at hnone; cases hnone
  rename_i x hx
  rw [hcur] at hx
  cases hx
  rw [show duplicateOutcome pending.outcome = some outcome from hout]
  exact if_neg (by simp [htodo])

theorem persistDuplicateResolution_inv
    (hv : Vacant p d.operationId s) (hs : Stored p s.reviews) (hc : Consistent d)
    (hb : Backed g d s.reviews) (hphase : d.phase = .duplicatePersistencePaused)
    (hpend : d.pendingDuplicate = some pending)
    (hout : duplicateOutcome pending.outcome = some outcome) (hrec : d.recovered = true)
    (hcur : d.currentTempId.isSome → pending.checkpointDone = false ∧
      ∃ t dr parent, InHand d t dr parent)
    (hrefuse : d.currentTempId = none → p.refuses)
    (hadm : d.pendingAdmission = none) (hper : d.pendingPersistence = none)
    (hl : Paused (s.persistDuplicateResolution d) → g.left d.machine.answersLeft) :
    Inv p g (s.persistDuplicateResolution d) := by
  cases hx : d.currentTempId with
  | none =>
    rw [persistDuplicateResolution_idle hx] at hl ⊢
    refine hv.pausing rfl rfl hs
      { consistent := hc, backed := hb, admission := absent hadm, persistence := absent hper
        standing := ?_, left := ?_ }
    · rw [Standing, hphase]
      exact ⟨hrefuse hx, pending, outcome, hpend, hout, hrec, absent hx, rfl, rfl⟩
    · rw [effectsLeft_eq (by simp [hphase])]
      exact hl ⟨_, rfl, by rw [hphase]; rfl⟩
  | some x =>
    obtain ⟨htodo, t, dr, parent, hin⟩ := hcur (by rw [hx]; rfl)
    have hxt : x = t := Option.some.inj (hx.symm.trans hin.current)
    subst hxt
    rw [persistDuplicateResolution_todo hpend hx hout htodo] at hl ⊢
    rcases hw : s.reviews.checkpointSubmission d.operationId d.key x outcome none with ⟨result, st'⟩
    obtain ⟨hs', hop, herr, hok⟩ := checkpoint_written g hs hb hc hx (by rintro _ ⟨⟩) hw
    rw [hw] at hl
    cases result with
    | error err =>
      obtain ⟨hrefuse', hb', -⟩ := herr err rfl
      refine hv.pausing rfl hop hs' (.of_core hc hb' hadm hper rfl rfl rfl ?_ (hl ⟨_, rfl, rfl⟩))
      exact ⟨hrefuse', pending, outcome, hpend, hout, hrec, fun _ => ⟨htodo, x, dr, parent,
        (hin.core rfl)⟩, rfl, rfl⟩
    | ok u =>
      obtain ⟨hb', hc', -⟩ := hok rfl
      have hv' : Vacant p d.operationId { s with durable := some d, reviews := st' } :=
        ⟨hv.commands, fun command hmem => ⟨(hv.issued command hmem).1,
          lt_of_lt_of_eq (hv.issued command hmem).2 hop.symm⟩, hv.owned, hv.recovery⟩
      exact finishDuplicate_inv (d := { d.recordCheckpoint x outcome none with
          pendingDuplicate := some { pending with checkpointDone := true } }) hv' hs'
        (hc'.core rfl)
        (hb'.core rfl) rfl rfl hout hrec hadm hper hl

variable {slot : Slot}

theorem afterCheck_settled {outcome : CheckOutcome} {status : ItemStatus} {id : Option CommentId}
    {reason : Option ApiError} (hf : slot.afterCheck outcome = .settled status id reason) :
    (∃ o, resultOutcome ⟨t, status, id, reason⟩ = some o) ∧ (status = .posted → id.isSome = true) := by
  cases Slot.checking hf with
  | found cid => exact ⟨⟨_, rfl⟩, fun _ => rfl⟩
  | unknown => exact ⟨⟨_, rfl⟩, by rintro ⟨⟩⟩

theorem afterCheck_ne_aborts {outcome : CheckOutcome} {err : ApiError} :
    slot.afterCheck outcome ≠ .aborts err := by
  intro hf
  cases Slot.checking hf

theorem advanceAfterPolicyCheck_wait {wait : WaitStep} (h : d.advance = (.wait wait, d)) :
    s.advanceAfterPolicyCheck d t = ({ s with durable := some d } : Presentation).publish
      ((d.persistWait s.reviews wait).1.map AfterPost.wait, (d.persistWait s.reviews wait).2) := by
  unfold advanceAfterPolicyCheck
  simp only [h]
  rcases d.persistWait s.reviews wait with ⟨result | result, d', st'⟩ <;> rfl

variable {retryAfterMs : Option Nat}

theorem advanceAfterPolicyCheck_inv {outcome : DuplicateCheckOutcome}
    (hv : Vacant p d.operationId s) (hs : Stored p s.reviews) (hc : Consistent d)
    (hb : Backed g d s.reviews) (hat : AtCheck d t dr parent)
    (hphase : d.phase = .awaitingDuplicate) (hpolicy : d.policyCheck = false)
    (hadm : d.pendingAdmission = none) (hper : d.pendingPersistence = none)
    (hstrand : ∀ post, (checked d outcome retryAfterMs).1 = .post post → p.strands)
    (hlose : (checked d outcome retryAfterMs).1 = .done → ((checked d outcome retryAfterMs).2.result
        ((checked d outcome retryAfterMs).2.idx - 1)).bind resultOutcome = none → p.loses)
    (hr : Remembers g g' s.reviews (s.advanceAfterPolicyCheck
      { d with machine := d.machine.reportCheck (checkResult outcome retryAfterMs) } t).reviews)
    (hl : ∀ n, n < d.machine.answersLeft → g'.left n) :
    Inv p g' (s.advanceAfterPolicyCheck
      { d with machine := d.machine.reportCheck (checkResult outcome retryAfterMs) } t) := by
  have hin := hat.toInHand
  obtain ⟨hel, hlands⟩ := reportCheck_lands hc.sized hin.flight.at_idx
    (checkResult outcome retryAfterMs)
  have hv' : ∀ d', Vacant p d.operationId { s with durable := some d' } := fun _ =>
    ⟨hv.commands, hv.issued, hv.owned, hv.recovery⟩
  cases hfate : d.machine.slot.afterCheck (checkResult outcome retryAfterMs).outcome with
  | aborts err => exact absurd hfate afterCheck_ne_aborts
  | settled status cid reason =>
    rw [hfate] at hlands
    obtain ⟨hidx, hres, hwait, hab⟩ := hlands
    obtain ⟨⟨o, hro⟩, hshape⟩ := afterCheck_settled (t := t) hfate
    obtain ⟨hc', -⟩ := hc.settled hin hat.ready hel hidx hres hshape hwait
    obtain ⟨hm, hstops⟩ := advance_spec d.review _ hel.sized.results
    have hb' := hb.advanced (hm.order.trans hel.order) hat.ready
    have hless := answersLeft_settled hin hc.bounded hel.order hidx
      (fresh_of_settled hc.quiet hat.ready hel hidx hwait) hm
    rcases settled_owes hc hin hat.ready hel hidx hres hwait hab hro with
      ⟨n, parent', hstep, -⟩ | ⟨hstep, howes⟩
    · -- The next POST goes out, but the store still has the old participant in flight.
      rw [hstep] at hstops
      obtain ⟨-, -, -, -, dn, hfl⟩ := hstops
      have hne : n ≠ t := by
        rintro rfl
        have hsame := hc.index_eq (hm.order.trans hel.order ▸ hfl.at_idx) hin.flight.at_idx
        have := hm.idx_le
        omega
      have hdn : d.review.getConst n = some dn := hfl.draft
      simp only [advanceAfterPolicyCheck, advance_fst, advance_snd, hstep, hdn]
      refine hv.queuing rfl rfl hs
        (.of_core hc' (hb'.remember hr.intent) hadm hper rfl rfl rfl ?_ (hl _ hless))
      refine .inr ⟨hstrand _ hstep, ?_⟩
      intro command hmem
      rw [List.mem_singleton.mp hmem]
      refine ⟨_, rfl, rfl, ?_⟩
      rw [hin.current]
      intro heq
      exact hne ((Option.some.inj heq).trans (findDraft_localId hdn)).symm
    · cases hlast : ((checked d outcome retryAfterMs).2.result
        ((checked d outcome retryAfterMs).2.idx - 1)).bind resultOutcome with
      | none =>
        have hlost := hlose hstep hlast
        unfold checked at hlast
        simp only [advanceAfterPolicyCheck, advance_fst, advance_snd, hstep, hlast]
        refine hv.pausing rfl rfl hs
          { consistent := hc', backed := hb'.remember hr.intent, admission := absent hadm, persistence := absent hper
            standing := ?_, left := ?_ }
        · rw [Standing, hphase]
          exact .inr ⟨hlost, hpolicy, rfl, rfl⟩
        · rw [effectsLeft_eq (by simp [hphase])]
          exact hl _ hless
      | some last =>
        obtain ⟨r, hr', hlast'⟩ := Option.bind_eq_some_iff.mp hlast
        have hpublished := persist_published hs hc' hb' (howes ⟨t, last.draftState⟩ none last rfl
          fun hclean => posted_of_clean hclean hr' hlast') ⟨by rintro _ ⟨⟩, by rintro ⟨⟩⟩
          hat.unchanged hadm (hl _ hless) hr.intent hr.pending
        unfold checked at hlast
        simp only [advanceAfterPolicyCheck, advance_fst, advance_snd, hstep, hlast]
        exact (hv' _).published (hpublished.of_same rfl rfl)
  | remains slot' =>
    rw [hfate] at hlands
    obtain ⟨hidx, hres, hslot, hab⟩ := hlands
    obtain ⟨hbound, hless, hwait⟩ := hc.bounded.afterCheck hat.ready hat.unsure hfate
    obtain ⟨hvalid, hdef⟩ := reportCheck_retry hc.sized hin.flight.at_idx hc.bounded hfate
    have hc' := hc.remains hel hidx hres (hslot ▸ hbound)
    have hb' := hb.advanced hel.order hat.ready
    have hin' : InHand { d with
        machine := d.machine.reportCheck (checkResult outcome retryAfterMs) } t dr parent :=
      ⟨hin.current, hin.flight.congr hel.order hres hidx, hab.trans hin.unaborted⟩
    have hleft := hl _ (answersLeft_remains hin hel.order hidx (hslot ▸ hless))
    have hwaiting : (d.machine.reportCheck (checkResult outcome retryAfterMs)).mustWait = true :=
      (congrArg Slot.waiting hslot).trans hwait
    have hadv := hin'.advance
    rw [stepFor, if_pos hwaiting] at hadv
    have hset := hr.settled
    rw [advanceAfterPolicyCheck_wait hadv, publish_reviews] at hset
    rw [advanceAfterPolicyCheck_wait hadv]
    refine (hv' _).published ((persistWait_published hs hc' hb' ⟨hin', hwaiting, hvalid,
      hat.unchanged⟩ (fun hclear => hdef (hslot ▸ hclear) hat.unsure) hadm hper hleft hr.intent rfl
      hset).of_same rfl rfl)

theorem acceptDuplicateCheck_inv {outcome : DuplicateCheckOutcome} (h : Inv p g s)
    (ha : Allows p s (.duplicateChecked i outcome retryAfterMs))
    (hr : Recalls g g' s (.duplicateChecked i outcome retryAfterMs)) :
    Inv p g' (s.acceptDuplicateCheck i outcome retryAfterMs) := by
  refine h.complete hr (by simp) .findDuplicate (fun _ _ => asFindDuplicate_eq)
    (fun _ _ => Iff.rfl) (fun command hc => by
      obtain ⟨find, hf, rfl⟩ := Option.map_eq_some_iff.mp hc
      exact ⟨find, hf, rfl⟩) ?_
  intro d find hadm heq hv hserves
  obtain ⟨-, -, hcurrent, hphase⟩ := of_decide_eq_true hadm.awaited
  have hstanding := hserves.standing
  rw [Standing, hphase] at hstanding
  rcases hstanding with ⟨t, dr, parent, command, hat, hcar, -, hone⟩ | ⟨-, -, -, hnone⟩
  swap
  · cases hnone
  obtain rfl : find = command := by simpa using hone
  have ht : find.draft.localId = t := hcar.localId hat.toInHand
  have hmem := hr.remembers (by simp) hadm.running
  have hno_adm := hserves.no_admission (by simp [hphase])
  have hno_per := hserves.no_persistence (by simp [hphase])
  have hleft := hserves.answersLeft (by simp [hphase])
  have hpaused : Paused ((s.consumeCommand i).processDuplicateCheck d find.draft.localId outcome
      retryAfterMs) → g'.left d.machine.answersLeft := by
    intro hpaused
    refine hr.same hadm.active ?_ _ hleft
    rintro ⟨-, hno⟩
    refine hno ?_
    simp only [update, acceptDuplicateCheck]
    rw [heq]
    exact hpaused
  simp only [update, acceptDuplicateCheck] at hmem
  rw [heq] at hmem
  unfold processDuplicateCheck at hmem hpaused ⊢
  by_cases hpolicy : d.policyCheck = true
  · -- The machine asked for this read.
    rw [if_pos hpolicy] at hmem ⊢
    have hboth : d.machine.slot.ambiguous = true ∧ d.sourceChanged = false := by
      have := hat.policy
      rw [hpolicy] at this
      simpa using this.symm
    subst ht
    exact advanceAfterPolicyCheck_inv (d := { d with policyCheck := false }) hv h.stored
      (hserves.consistent.core rfl) (hserves.backed.core rfl)
      ⟨hat.core rfl, hat.ready, hboth.1, hboth.2⟩ hphase rfl hno_adm
      hno_per (fun post hpost => ha.strands ⟨d, find, post, hadm, hpolicy, hpost⟩)
      (fun hdone hlast => ha.loses ⟨d, find, hadm, hpolicy, hdone, hlast⟩) hmem
      (fun n hn => hr.less hadm.active _ n hleft hn)
  · -- The read of a recovered run ends it.
    have hnot : d.policyCheck = false := by simpa using hpolicy
    rw [if_neg hpolicy] at hpaused ⊢
    cases hout : duplicateOutcome outcome with
    | none =>
      simp only [hout] at hpaused ⊢
      refine hv.pausing rfl rfl h.stored (.of_core hserves.consistent
          (hserves.backed.remember hmem.intent) hno_adm hno_per rfl rfl rfl ?_ (hpaused ⟨_, rfl, rfl⟩))
      refine ⟨t, dr, parent, hat.core rfl, hat.recovers hnot, ?_, rfl, rfl⟩
      intro hw
      have : d.machine.mustWait = true := hw
      rw [hat.ready] at this
      cases this
    | some o =>
      simp only [hout] at hpaused ⊢
      exact persistDuplicateResolution_inv (d := { d with
          pendingDuplicate := some { outcome := outcome }, phase := .duplicatePersistencePaused })
        hv h.stored (hserves.consistent.core rfl)
        ((hserves.backed.remember hmem.intent).core rfl) rfl rfl hout
        (hat.recovers hnot) (fun _ => ⟨rfl, t, dr, parent, hat.core rfl⟩)
        (fun hnone => by rw [show d.currentTempId = none from hnone] at hcurrent; cases hcurrent)
        hno_adm hno_per hpaused

end Bbr.Tui
