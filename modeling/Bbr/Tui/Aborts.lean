import Bbr.Tui.History

/-!
# Aborted runs

A POST that is rejected with an authorization failure aborts its run. The participant goes back to the
state that the copy of the review shows, and only the first participant of a run that this process
began is still shown as it was: later and recovered ones are shown as submitting. A source that
changed before the first POST restores `draft`, whatever the participant was.
-/
namespace Bbr.Tui

open Bbr.Bitbucket Bbr.Review Bbr.Lib Submission Presentation InMemoryStore Option DurableSubmission

variable {s : Presentation} {d : DurableSubmission} {before st st' : InMemoryStore} {t : TempId}
  {dr : Draft} {err : ApiError}

/-- The store when it last had no active run. -/
def lastIdle (before : InMemoryStore) (s : Presentation) : InMemoryStore :=
  if s.reviews.activeRun.isNone then s.reviews else before

/-- A history that carries the store from before the intent of any participant. -/
def Observes (a : InMemoryStore × Presentation) (e : Input) (b : InMemoryStore × Presentation) :
    Prop := b = (lastIdle a.1 a.2, a.2.update e)

/-- What the participants were in this store. -/
def intents (before : InMemoryStore) : Memory where
  cold := fun _ _ => True
  intent := fun was => ∃ d₀, before.draftEntry was.key was.tempId = some d₀ ∧ d₀.state = was.state
  left := fun _ => True

/-- Every way to leave the protocol. -/
def anything : Permits := ⟨True, True, True, True, True, True⟩

theorem allows_anything (s : Presentation) (e : Input) : Allows anything s e :=
  ⟨fun _ => trivial, fun _ => trivial, fun _ => trivial, fun _ => trivial, fun _ => trivial,
    fun _ => trivial⟩

theorem Inv.active {p : Permits} {g : Memory} (h : Inv p g s) (hd : s.durable.isSome) :
    s.reviews.activeRun.isSome := by
  obtain ⟨d, hd⟩ := isSome_iff_exists.mp hd
  obtain ⟨run, hrun, -⟩ := (h.serves d hd).backed.run
  rw [hrun.active]
  rfl

theorem recalls_intents {p : Permits} (e : Input) (h : Inv p (intents before) s) :
    Recalls (intents before) (intents (lastIdle before s)) s e where
  cold := fun _ _ _ => .inl trivial
  settled := fun _ _ _ => .inl trivial
  pending := fun _ _ _ _ _ => .inl trivial
  launchFailed := fun _ _ _ _ _ => trivial
  misplaced := fun _ _ _ _ _ _ _ _ _ => trivial
  intent := by
    intro hd was hwas
    obtain ⟨run, hrun⟩ := isSome_iff_exists.mp (h.active hd)
    have hsame : lastIdle before s = before := by simp [lastIdle, hrun]
    rw [hsame]
    exact hwas
  begins := by
    intro _ hidle run t dr _ _ hdr _
    have hsame : lastIdle before s = s.reviews := by simp [lastIdle, hidle]
    rw [hsame]
    exact ⟨dr, hdr, rfl⟩
  less := fun _ _ _ _ _ => trivial
  same := fun _ _ _ _ => trivial
  starts := fun _ _ _ _ _ => trivial

theorem inv_observed {requireSourceCheck : Bool} {es : List Input} (hst : Idle st)
    (h : Run Observes (st, boot st requireSourceCheck) es (before, s)) :
    Inv anything (intents before) s := by
  refine h.invariant (fun a => Inv anything (intents a.1) a.2) ?_ (boot_inv (hst.stored (.inl trivial)))
  rintro ⟨before, s⟩ e _ rfl hinv
  exact hinv.update (allows_anything s e) (recalls_intents e hinv)

/-- The run is closed as aborted: its participant is back in the pending state it had before its
intent was stored, and every other Draft is as it was. -/
structure Reverted (before : InMemoryStore) (s s' : Presentation) (key : RemoteReviewIdentity)
    (t : TempId) : Prop where
  closed : s'.durable = none ∧ s'.reviews.activeRun = none
  aborted : ∃ result restored, s'.submissionResult = some result ∧
    result.completion = .aborted restored
  restored : ∃ d₀ d', before.draftEntry key t = some d₀ ∧ d₀.state.isPending = true ∧
    s'.reviews.draftEntry key t = some d' ∧ d'.state = d₀.state
  others : ∀ key' x, (key', x) ≠ (key, t) → s'.reviews.draftEntry key' x =
    s.reviews.draftEntry key' x

variable {restored : SubmissionPendingState}

theorem aborted_rows {key : RemoteReviewIdentity} {operationId : OperationId} {ds : Draft}
    {run : ActiveSubmissionRun}
    (hw : st.completeSubmission operationId key (.aborted restored) = (.ok (), st'))
    (hrun : st.activeRun = some run) (hcur : run.currentTempId = some t)
    (hds : st.draftEntry key t = some ds) :
    st'.activeRun = none ∧ st'.draftEntry key t = some (ds.withState restored.draftState) ∧
      ∀ key' x, (key', x) ≠ (key, t) → st'.draftEntry key' x = st.draftEntry key' x := by
  obtain ⟨run', hruns, hdone, current, d', hcurrent, -, -, hentries⟩ := completeSubmission_ok hw
  have hsame : run' = run := some.inj (hruns.active.symm.trans hrun)
  subst hsame
  have ht : current = t := some.inj (hcurrent.symm.trans hcur)
  subst ht
  have hrows : ∀ key' x, st'.draftEntry key' x =
      (st.setState key current restored.draftState).draftEntry key' x := by
    intro key' x
    simp only [draftEntry, hentries]
  refine ⟨hdone.idle, ?_, ?_⟩
  · rw [hrows, draftEntry_setState, if_pos ⟨rfl, rfl⟩, hds]
    rfl
  intro key' x hne
  rw [hrows, draftEntry_setState, if_neg]
  rintro ⟨rfl, rfl⟩
  exact hne rfl

theorem persist_aborted (transition : PersistedTransition)
    (hw : st.completeSubmission d.operationId d.key (.aborted restored) = (.ok (), st')) :
    let done := d.persist st { transition := transition, outcome := none
                               completion := some (.aborted restored) }
    done.1 = .ok (.finished (d.resultProjection (.aborted restored)) transition) ∧ done.2.2 = st' := by
  simp only [persist, retryPersistence, owing, nextCommand, persistRetryCheckpoint, persistOutcome,
    persistCompletion, hw, and_true]
  rfl

variable {done : Except DriverError AfterPost × DurableSubmission × InMemoryStore}

theorem publish_finished {result : SubmissionResultProjection} {transition : PersistedTransition}
    (h : done.1 = .ok (.finished result transition)) :
    s.publish done = { s with
      durable := none, reviews := done.2.2, submissionResult := some result } := by
  simp only [publish, h, publishSubmissionProgress]

theorem publish_error {err : DriverError} (h : done.1 = .error err) :
    s.publish done = { s with durable := some done.2.1, reviews := done.2.2 } := by
  simp only [publish, h]

variable {parent : Option CommentId}

theorem advance_rejected (retryAfterMs : Option Nat)
    (hs : d.machine.Sized) (hin : InHand d t dr parent) (hp : classifyPolicy err = .abort) :
    (d.machine.report (.rejected err) retryAfterMs).advance d.review =
      (.aborted err, d.machine.report (.rejected err) retryAfterMs) := by
  obtain ⟨-, hlands⟩ := report_lands hs hin.flight.at_idx (.rejected err) retryAfterMs
  have hfate : d.machine.slot.afterPost (.rejected err) = .aborts err := by
    simp only [Slot.afterPost, hp]
  rw [hfate] at hlands
  obtain ⟨-, -, -, hab⟩ := hlands
  simp only [Submission.advance, hab]

variable {completed : PostDraftCompleted}

theorem acceptReported_unrestored (st : InMemoryStore)
    (hadv : d.advance = (.aborted err, d)) (hdr : d.review.getConst completed.tempId = some dr)
    (hnone : restoreState dr.state = none) :
    d.acceptReported st completed = (.error .invalidSubmissionState, d, st) := by
  simp only [acceptReported, hadv, hdr, hnone]

theorem acceptReported_restored
    (hadv : d.advance = (.aborted err, d)) (hdr : d.review.getConst completed.tempId = some dr)
    (hsome : restoreState dr.state = some restored) :
    d.acceptReported st completed = d.persist st
      { transition := ⟨completed.tempId, restored.draftState⟩, outcome := none
        completion := some (.aborted restored) } := by
  simp only [acceptReported, hadv, hdr, hsome]

theorem restoreState_pending (h : dr.state.isPending = true) :
    ∃ restored, restoreState dr.state = some restored ∧ restored.draftState = dr.state := by
  cases hs : dr.state with
  | draft => exact ⟨.draft, rfl, rfl⟩
  | failed err => exact ⟨.failed err, rfl, rfl⟩
  | _ => rw [hs] at h; cases h

section

variable (hs : Stored anything s.reviews) (hb : Backed (intents before) d s.reviews)
  (hin : InHand d t dr parent) (hw : s.reviews.failNextCompletion = false)
  {s₀ : Presentation} (hs₀ : s₀.reviews = s.reviews)
include hs hb hin hw hs₀

/-- The run is closed exactly when its participant is the first one of a run that this process began. -/
theorem reverts_iff (hc : Consistent d) (hp : classifyPolicy err = .abort)
    (hout : completed.outcome = .rejected err) (ht : completed.tempId = t) :
    Reverted before s₀ (s.processPostDraft d completed) d.key t ↔ AtFirst d t := by
  obtain ⟨run, hruns, hcur, -⟩ := hb.run
  obtain ⟨ds, hds, hsub⟩ := hb.submitting hs hin.current
  -- The machine aborts over the Submission that has noted the answer.
  have hadv : ((d.noting completed.outcome).reported completed.outcome
      completed.retryAfterMs).advance = (.aborted err,
        (d.noting completed.outcome).reported completed.outcome completed.retryAfterMs) := by
    have := advance_rejected completed.retryAfterMs hc.sized hin hp
    rw [← hout] at this
    simp only [DurableSubmission.advance, DurableSubmission.reported, DurableSubmission.noting, this]
  have hdr : ((d.noting completed.outcome).reported completed.outcome
      completed.retryAfterMs).review.getConst completed.tempId = some dr := ht ▸ hin.flight.draft
  constructor
  · intro hrev
    by_contra hlater
    -- The copy shows the participant as submitting, and the run stays open.
    obtain ⟨dr', ds', hdr', hds', hcase⟩ := hb.mirrors t (hin.mem hc)
    have hstate : dr.state = .submitting := by
      rw [hin.flight.draft] at hdr'
      cases hdr'
      rw [hds] at hds'
      cases hds'
      rcases hcase with heq | ⟨hfirst, -⟩
      · rw [← heq]
        exact hsub
      · exact absurd hfirst hlater
    have hlost := acceptReported_unrestored s.reviews hadv hdr (by rw [hstate]; rfl)
    have hnone := hrev.closed.1
    unfold processPostDraft acceptPost at hnone
    rw [hlost, publish_error rfl] at hnone
    cases hnone
  · intro hfirst
    obtain ⟨hpending, d₀, hd₀, hstate₀⟩ := hb.shows t dr hfirst hin.flight.draft
    obtain ⟨restored, hrestore, hback⟩ := restoreState_pending hpending
    have haccepts : (s.reviews.completeSubmission d.operationId d.key (.aborted restored)).1 =
        .ok () := completeSubmission_accepts hw hruns ⟨t, ds, hcur.trans hin.current, hds, hsub⟩
    rcases hwrite : s.reviews.completeSubmission d.operationId d.key (.aborted restored) with
      ⟨result, st'⟩
    rw [hwrite] at haccepts
    obtain rfl : result = .ok () := haccepts
    obtain ⟨hidle, hrow, hothers⟩ := aborted_rows hwrite hruns.active (hcur.trans hin.current) hds
    obtain ⟨hdone, hst⟩ := persist_aborted (d := (d.noting completed.outcome).reported
      completed.outcome completed.retryAfterMs) ⟨completed.tempId, restored.draftState⟩ hwrite
    unfold processPostDraft acceptPost
    rw [acceptReported_restored hadv hdr hrestore, publish_finished hdone, hst]
    exact
      { closed := ⟨rfl, hidle⟩
        aborted := ⟨_, restored, rfl, foldl_countStatus_completion _ _⟩
        restored := ⟨d₀, _, hd₀, by rw [hstate₀]; exact hpending, hrow, hback.trans hstate₀.symm⟩
        others := by rw [hs₀]; exact hothers }

theorem sourceChange_reverts_iff {current : BoundedText 64}
    (hobs : d.observedSourceCommit = some current) :
    Reverted before s₀ (s.abortChangedSubmission d) d.key t ↔
      ∃ d₀, before.draftEntry d.key t = some d₀ ∧ d₀.state = .draft := by
  obtain ⟨run, hruns, hcur, -⟩ := hb.run
  obtain ⟨ds, hds, hsub⟩ := hb.submitting hs hin.current
  have haccepts : (s.reviews.completeSubmission d.operationId d.key (.aborted .draft)).1 = .ok () :=
    completeSubmission_accepts hw hruns ⟨t, ds, hcur.trans hin.current, hds, hsub⟩
  rcases hwrite : s.reviews.completeSubmission d.operationId d.key (.aborted .draft) with
    ⟨result, st'⟩
  rw [hwrite] at haccepts
  obtain rfl : result = .ok () := haccepts
  obtain ⟨hidle, hrow, hothers⟩ := aborted_rows hwrite hruns.active (hcur.trans hin.current) hds
  obtain ⟨shown, hshown, heq⟩ := abortChangedSubmission_ok (s := s) (by rw [hobs]; rfl) hwrite
  rw [heq]
  constructor
  · intro hrev
    obtain ⟨d₀, d', hd₀, -, hd', hstate⟩ := hrev.restored
    rw [hrow] at hd'
    cases hd'
    exact ⟨d₀, hd₀, hstate.symm⟩
  · rintro ⟨d₀, hd₀, hstate⟩
    exact
      { closed := ⟨rfl, hidle⟩
        aborted := ⟨shown, .draft, rfl, hshown⟩
        restored := ⟨d₀, _, hd₀, by rw [hstate]; rfl, hrow, hstate.symm⟩
        others := by rw [hs₀]; exact hothers }

end

/-- An authorization failure reverts exactly the first participant of a run that this process began,
and a changed source exactly a participant that was a plain draft. -/
theorem aborts_revert (st : InMemoryStore) (requireSourceCheck : Bool) (es : List Input)
    (before : InMemoryStore) (s : Presentation) (hst : Idle st)
    (h : Run Observes (st, boot st requireSourceCheck) es (before, s))
    (hw : s.reviews.failNextCompletion = false) :
    (∀ i d post err retryAfterMs, Admitted s i d (.postDraft post) → classifyPolicy err = .abort →
      (Reverted before s (s.update (.postCompleted i (.rejected err) retryAfterMs)) d.key
        post.draft.localId ↔ AtFirst d post.draft.localId)) ∧
    ∀ i d check source current t, Admitted s i d (.checkRecovery check) → d.recovered = false →
      d.recoverySourceCommit = some source → headChanged source.slice current.slice = true →
      d.currentTempId = some t →
      (Reverted before s (s.update (.recoveryChecked i (.currentSource current))) d.key t ↔
        ∃ d₀, before.draftEntry d.key t = some d₀ ∧ d₀.state = .draft) := by
  have hinv := inv_observed hst h
  constructor
  · intro i d post err retryAfterMs hadm hp
    obtain ⟨hv, hstanding⟩ := hinv.answered hadm.running hadm.issued hadm.awaited
    have hserves := hinv.serves d hadm.running
    obtain ⟨hphase, t, dr, parent, hat, hcar⟩ := hstanding.posting hadm.awaited
    have ht := hcar.localId hat.toInHand
    have hadmits : admitsPost .awaitingPost d post = true := hadm.awaited
    have hanswers : s.issued[i]?.bind Command.asPostDraft = some post := by
      rw [hadm.issued]
      rfl
    have heq : s.update (.postCompleted i (.rejected err) retryAfterMs) =
        (s.consumeCommand i).processPostDraft d ⟨post.operationId, post.identity,
          post.draft.localId, .rejected err, retryAfterMs⟩ := by
      simp only [update, acceptPostDraft]
      exact complete_admitted hanswers hadm.running hadmits
    rw [heq, ht]
    exact reverts_iff (s := s.consumeCommand i) hinv.stored hserves.backed hat.toInHand hw rfl
      hserves.consistent hp rfl rfl
  · intro i d check source current t hadm hrec hsource hchanged hcur
    obtain ⟨hv, hstanding⟩ := hinv.answered hadm.running hadm.issued hadm.awaited
    have hserves := hinv.serves d hadm.running
    obtain ⟨-, -, hphase⟩ := hadm.awaited
    rw [Standing, hphase] at hstanding
    obtain ⟨source', hre, -⟩ := hstanding
    obtain ⟨t', dr, parent, hin, -⟩ := hre.inHand
    have ht : t' = t := some.inj (hin.current.symm.trans hcur)
    subst ht
    have hadmits : admitsRecovery d check = true := decide_eq_true hadm.awaited
    have hanswers : s.issued[i]?.bind Command.asCheckRecovery = some check := by
      rw [hadm.issued]
      rfl
    have heq : s.update (.recoveryChecked i (.currentSource current)) =
        (s.consumeCommand i).processRecoveryCheck d (.currentSource current) := by
      simp only [update, acceptRecoveryCheck]
      exact complete_admitted hanswers hadm.running hadmits
    rw [heq, processRecoveryCheck_current hsource, if_pos hchanged, if_neg (by simp [hrec])]
    exact sourceChange_reverts_iff (s := s.consumeCommand i)
      (d := { d with observedSourceCommit := some current }) hinv.stored
      (hserves.backed.core rfl) (hin.core rfl) hw rfl rfl

/-- A Draft that failed before, then one that is new. -/
def failedThenNew : InMemoryStore :=
  holding ⟨[], [], 1⟩ [{ localId := 1, state := .failed .badRequest }, { localId := 2 }]

/-- The first participant is rejected and goes back to its failure. -/
theorem aborts_revert_first :
    Reverted failedThenNew (replay (boot failedThenNew false) [.start ⟨[], [], 1⟩ [] none, .take])
      (replay (boot failedThenNew false) [.start ⟨[], [], 1⟩ [] none, .take,
        .postCompleted 0 (.rejected .unauthorized) none]) ⟨[], [], 1⟩ 1 := by
  have hidle : Idle failedThenNew := Idle.of_rows rfl (by decide)
  have hall := (aborts_revert failedThenNew false [.start ⟨[], [], 1⟩ [] none, .take] failedThenNew
    _ hidle (.cons rfl (.cons rfl (.nil _))) (by decide)).1
  have hout := hall 0 ((replay (boot failedThenNew false)
      [.start ⟨[], [], 1⟩ [] none, .take]).durable.get (by decide))
    ⟨1, ⟨[], [], 1⟩, { localId := 1, state := .failed .badRequest }, none, false⟩ .unauthorized none
    ⟨(some_get _).symm, by decide, by decide⟩ rfl
  exact hout.mpr ⟨by decide, by decide, by decide⟩

/-- The second participant is rejected, and the run stays open. -/
theorem later_abort_unreverted : ¬ ∀ (st : InMemoryStore) (requireSourceCheck : Bool)
    (es : List Input) (before : InMemoryStore) (s : Presentation), Idle st →
    Run Observes (st, boot st requireSourceCheck) es (before, s) →
    s.reviews.failNextCompletion = false → ∀ i d post err retryAfterMs,
      Admitted s i d (.postDraft post) → classifyPolicy err = .abort →
      Reverted before s (s.update (.postCompleted i (.rejected err) retryAfterMs)) d.key
        post.draft.localId := by
  intro hclaim
  have hrev := hclaim failedThenNew false [.start ⟨[], [], 1⟩ [] none, .take,
    .postCompleted 0 (.posted 7) none, .take] failedThenNew _ (Idle.of_rows rfl (by decide))
    (.cons rfl (.cons rfl (.cons rfl (.cons rfl (.nil _))))) (by decide) 0
    ((replay (boot failedThenNew false) [.start ⟨[], [], 1⟩ [] none, .take,
      .postCompleted 0 (.posted 7) none, .take]).durable.get (by decide))
    ⟨1, ⟨[], [], 1⟩, { localId := 2 }, none, false⟩ .unauthorized none
    ⟨(some_get _).symm, by decide, by decide⟩ rfl
  have hopen : (replay (boot failedThenNew false) [.start ⟨[], [], 1⟩ [] none, .take,
      .postCompleted 0 (.posted 7) none, .take,
      .postCompleted 0 (.rejected .unauthorized) none]).durable ≠ none := by decide
  exact hopen hrev.closed.1

end Bbr.Tui
