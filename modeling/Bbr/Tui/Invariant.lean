import Bbr.Tui.Starting

/-!
# The driver keeps its invariant

The reviewer's inputs: resuming a paused Submission, starting, recovering and abandoning a run, taking the
next command, a crash and an edit. With the completions before them this covers every input, so the
invariant holds in every state that a history reaches.
-/
namespace Bbr.Tui

open Bbr.Bitbucket Bbr.Review Bbr.Lib Submission Presentation InMemoryStore List

variable {p : Permits} {g g' : Memory} {s : Presentation} {d d' : DurableSubmission}
  {st st' : InMemoryStore} {t c : TempId} {dr : Draft} {parent : Option CommentId}
  {queued issued : List Command} {e : Input}

/-! ## Resuming -/

theorem Standing.paused (h : Standing p g d queued issued) (hp : d.phase.isPaused = true) :
    queued = [] ∧ issued = [] := by
  rcases h.out with hnone | ⟨c, -, -, -, hphase⟩ | ⟨c, -, -, haw⟩ | ⟨-, hphase, -⟩
  · exact hnone
  · rcases hphase with hphase | hphase | hphase | hphase <;> (rw [hphase] at hp; cases hp)
  · cases c with
    | checkRecovery check => rw [haw.2.2] at hp; cases hp
    | _ => rw [(of_decide_eq_true haw).2.2.2] at hp; cases hp
  · rw [hphase] at hp
    cases hp

theorem Inv.paused (h : Inv p g s) (hd : s.durable = some d) (hp : d.phase.isPaused = true) :
    Vacant p d.operationId s ∧ Serves p g d s.reviews [] [] := by
  have hserves := h.serves d hd
  obtain ⟨hq, hi⟩ := hserves.standing.paused hp
  refine ⟨h.vacant hd hq hi (fun _ hm => hm), ?_⟩
  rw [hq, hi] at hserves
  exact hserves

theorem resumePostDraftLaunch_inv (hv : Vacant p d.operationId s) (hs : Stored p s.reviews)
    (h : Serves p g d s.reviews [] []) (hphase : d.phase = .postRetryPaused) :
    Inv p g (s.resumePostDraftLaunch d) := by
  have hstanding := h.standing
  rw [Standing, hphase] at hstanding
  obtain ⟨t, dr, parent, hat, hcold, -⟩ := hstanding
  have hretry : d.retryPost = (.ok (d.postCommand dr ⟨t, parent, false⟩),
      { d with phase := .postQueued }) := by
    unfold DurableSubmission.retryPost DurableSubmission.materializeCurrentPost
    rw [if_neg (by simp [hphase]), hat.toInHand.advance, stepFor, if_neg (by simp [hat.ready]),
      if_neg (by simp [hat.clear])]
    simp only [hat.flight.draft]
  unfold resumePostDraftLaunch
  rw [hretry]
  refine hv.queuing rfl rfl hs
    (.of_core h.consistent h.backed (h.no_admission (by simp [hphase])) (h.no_persistence
      (by simp [hphase])) rfl rfl rfl ?_ ?_)
  · exact .inl ⟨t, dr, parent, _, hat.core rfl, hcold, ⟨rfl, rfl, ⟨dr.state, rfl⟩, rfl⟩, rfl, rfl, rfl⟩
  · exact h.answersLeft (by simp [hphase])

variable {wait : WaitSubmission} {checkpoint : SubmissionRetryCheckpoint}

section

variable (hwait : d.pendingWaitRetry = some wait) (hcp : wait.checkpoint = some checkpoint)
include hwait hcp

theorem resumeSubmissionWaitLaunch_error {err : StoreError}
    (hw : s.reviews.checkpointSubmissionRetry d.operationId d.key wait.tempId checkpoint =
      (.error err, st')) : s.resumeSubmissionWaitLaunch d = { s with reviews := st' } := by
  unfold resumeSubmissionWaitLaunch
  split
  · next hnone => rw [hwait] at hnone; cases hnone
  rename_i x hx
  rw [hwait] at hx
  cases hx
  simp only [hcp, hw]

theorem resumeSubmissionWaitLaunch_ok
    (hw : s.reviews.checkpointSubmissionRetry d.operationId d.key wait.tempId checkpoint =
      (.ok (), st')) :
    s.resumeSubmissionWaitLaunch d = ({ s with
      durable := some { d with pendingWaitRetry := none, phase := .waitQueued }
      reviews := st' } : Presentation).queue (.waitSubmission wait) := by
  unfold resumeSubmissionWaitLaunch
  split
  · next hnone => rw [hwait] at hnone; cases hnone
  rename_i x hx
  rw [hwait] at hx
  cases hx
  simp only [hcp, hw]

end

section

variable (hv : Vacant p d.operationId s) (hs : Stored p s.reviews)
  (h : Serves p g d s.reviews [] [])
include hv hs h

theorem resumeSubmissionWaitLaunch_inv (hd : s.durable = some d) (hphase : d.phase = .waitRetryPaused)
    (hset : ∀ key x, Settled (s.resumeSubmissionWaitLaunch d).reviews key x → g.cold key x) :
    Inv p g (s.resumeSubmissionWaitLaunch d) := by
  have hstanding := h.standing
  rw [Standing, hphase] at hstanding
  obtain ⟨t, dr, parent, hat, hwait, hcold, -⟩ := hstanding
  have hleft := h.answersLeft (by simp [hphase])
  have hadm := h.no_admission (by simp [hphase])
  have hper := h.no_persistence (by simp [hphase])
  rcases hw : s.reviews.checkpointSubmissionRetry d.operationId d.key t
    d.machine.retryCheckpoint with ⟨result, st'⟩
  obtain ⟨hs', hb', hop, -, href, hretry⟩ := checkpointRetry_written hs h.backed hat.current
    hat.valid (fun _ => hat.waits) hw
  have hw' : s.reviews.checkpointSubmissionRetry d.operationId d.key (waitOf d t).tempId
    d.machine.retryCheckpoint = (result, st') := hw
  have hcp : (waitOf d t).checkpoint = some d.machine.retryCheckpoint := rfl
  cases result with
  | error err =>
    rw [resumeSubmissionWaitLaunch_error hwait hcp hw']
    have heq : ({ s with reviews := st' } : Presentation) =
        { s with durable := some d, reviews := st' } := by rw [← hd]
    rw [heq]
    exact hv.pausing rfl hop hs' { h with backed := hb' }
  | ok u =>
    rw [resumeSubmissionWaitLaunch_ok hwait hcp hw'] at hset ⊢
    refine hv.queuing rfl hop hs' (.of_core h.consistent hb' hadm hper rfl rfl rfl ?_ hleft)
    refine ⟨t, dr, parent, hat.core rfl, ?_, rfl, rfl⟩
    intro hclear
    rcases hcold hclear with hc | hdef
    · exact hc
    · exact hset d.key t (settled_of_definite hs' hb' hat.current (hretry rfl) hdef)

/-- A wait that the store did not let complete, or that ended before a read, completes again. -/
theorem resumeSubmissionAdmission_inv (hsome : d.pendingAdmission.isSome)
    (hstall : ∀ wait, d.pendingAdmission = some (.wait wait) →
      d.machine.ambiguous d.machine.idx = true → p.stalls)
    (hc : ∀ key x, g.cold key x → g'.cold key x) (hi : ∀ was, g.intent was → g'.intent was)
    (hsame : ∀ n, g.left n → g'.left n) (hless : ∀ n m, g.left n → m < n → g'.left m) :
    Inv p g' (s.resumeSubmissionAdmission d) := by
  have hphase := h.admission hsome
  have hstanding := h.standing
  rw [Standing, hphase] at hstanding
  obtain ⟨t, dr, parent, hpend, hcase, -⟩ := hstanding
  have hleft := h.answersLeft (by simp [hphase])
  have heq : s.resumeSubmissionAdmission d = s.processSubmissionWait
      { d with pendingAdmission := none, phase := .awaitingWait } (waitOf d t) := by
    unfold resumeSubmissionAdmission
    split
    · next hnone => rw [hpend] at hnone; cases hnone
    · next completed hx => rw [hpend] at hx; cases hx
    rename_i completed hx
    rw [hpend] at hx
    cases hx
    rfl
  have hin : InHand d t dr parent := by
    rcases hcase with ⟨hat, -⟩ | ⟨hat, -⟩
    · exact hat.toInHand
    · exact hat.toInHand
  have hvalid : ValidRetry d.machine.retryCheckpoint := by
    rcases hcase with ⟨hat, -⟩ | ⟨-, -, hvalid⟩
    · exact hat.valid
    · exact hvalid
  rw [heq]
  refine processSubmissionWait_inv (g := g) (d := { d with
      pendingAdmission := none, phase := .awaitingWait }) hv hs
    (h.consistent.core rfl)
    (h.backed.core rfl) (hin.core rfl) hvalid
    rfl ?_ rfl (h.no_persistence (by simp [hphase])) ?_ (hstall _ hpend) ?_ hi
    (fun _ => hsame _ hleft) ?_
  · rcases hcase with ⟨hat, -⟩ | ⟨hat, -⟩
    · exact hat.unchanged
    · exact hat.unchanged
  · rcases hcase with ⟨hat, -⟩ | ⟨hat, -⟩
    · exact .inl hat.waits
    · exact .inr ⟨hat.ready, hat.unsure⟩
  · intro hclear
    rcases hcase with ⟨-, -, hcold⟩ | ⟨hat, -⟩
    · exact hc _ _ (hcold hclear)
    · have hunsure : d.machine.slot.ambiguous = true := hat.unsure
      rw [show d.machine.slot.ambiguous = false from hclear] at hunsure
      cases hunsure
  · intro hw
    have hlt : (waited d).machine.answersLeft < d.machine.answersLeft := answersLeft_waited hin hw
    exact hless _ _ hleft hlt

theorem resumeSubmissionPersistence_inv (hsome : d.pendingPersistence.isSome)
    (hpend : ∀ key t ds, s.reviews.draftEntry key t = some ds → ds.state.isPending = true →
      g.cold key t) : Inv p g (s.resumeSubmissionPersistence d) := by
  have hphase := h.persistence hsome
  have hstanding := h.standing
  rw [Standing, hphase] at hstanding
  obtain ⟨-, pending, hpending, howes, hretry, hu, -⟩ := hstanding
  have hleft := h.answersLeft (by simp [hphase])
  have hpersisting : Persisting g d s.reviews pending :=
    { consistent := h.consistent, backed := h.backed, phase := hphase, owed := hpending
      owes := howes, retry := hretry, unchanged := hu
      admission := h.no_admission (by simp [hphase]) }
  exact hv.published (retryPersistence_published hs hpersisting hleft (fun _ hi => hi) hpend)

end

theorem Recalls.unanswered (hr : Recalls g g' s e) (hno : answeredBy s e = none)
    (hd : s.durable = some d) : ∀ n, g.left n → g'.left n := by
  refine hr.same (by rw [hd]; rfl) ?_
  rintro ⟨⟨d, command, -, hsome, -⟩, -⟩
  rw [hno] at hsome
  cases hsome

section Resuming

variable (h : Inv p g s) (hr : Recalls g g' s e) (he : e ≠ .take) (hno : answeredBy s e = none)
  (hd : s.durable = some d)

include h hr he hno hd

theorem paused_serves (hp : d.phase.isPaused = true) :
    Vacant p d.operationId s ∧ Serves p g' d s.reviews [] [] := by
  obtain ⟨hv, hserves⟩ := h.paused hd hp
  exact ⟨hv, hserves.remember (hr.cold' he) (hr.intent (by rw [hd]; rfl)) (hr.unanswered hno hd)⟩

theorem resumeActive_inv (hu : s.update e = s.resumeActive d) (hstall : ResumesWait s → p.stalls) :
    Inv p g' (s.resumeActive d) := by
  have hmem := hr.remembers he hd
  rw [hu] at hmem
  unfold resumeActive at hmem ⊢
  by_cases hpost : d.phase = .postRetryPaused
  · rw [if_pos hpost]
    obtain ⟨hv, hserves⟩ := paused_serves h hr he hno hd (by rw [hpost]; rfl)
    exact resumePostDraftLaunch_inv hv h.stored hserves hpost
  rw [if_neg hpost] at hmem ⊢
  by_cases hwait : d.phase = .waitRetryPaused
  · rw [if_pos hwait] at hmem ⊢
    obtain ⟨hv, hserves⟩ := paused_serves h hr he hno hd (by rw [hwait]; rfl)
    exact resumeSubmissionWaitLaunch_inv hv h.stored hserves hd hwait hmem.settled
  rw [if_neg hwait] at hmem ⊢
  by_cases hadm : d.pendingAdmission.isSome = true
  · rw [if_pos hadm]
    have hphase := (h.serves d hd).admission hadm
    obtain ⟨hv, hserves⟩ := h.paused hd (by rw [hphase]; rfl)
    exact resumeSubmissionAdmission_inv hv h.stored hserves hadm
      (fun wait hw hamb => hstall ⟨d, wait, hd, hw, hamb⟩) (hr.cold' he) hmem.intent
      (hr.unanswered hno hd) (hr.less (by rw [hd]; rfl))
  rw [if_neg hadm] at hmem ⊢
  by_cases hper : d.pendingPersistence.isSome = true
  · rw [if_pos hper]
    have hphase := (h.serves d hd).persistence hper
    obtain ⟨hv, hserves⟩ := paused_serves h hr he hno hd (by rw [hphase]; rfl)
    exact resumeSubmissionPersistence_inv hv h.stored hserves hper hmem.pending
  rw [if_neg hper]
  exact h.remember (hr.cold' he) hmem.intent (hr.unanswered hno hd)

/-- A paused source check or read goes out again, and an interrupted end is tried again. -/
theorem resumeRead_inv {rest : Presentation} (hrest : d.phase ≠ .recoveryCheckPaused →
    d.phase ≠ .duplicateCheckPaused → d.phase ≠ .duplicatePersistencePaused → Inv p g' rest) :
    Inv p g' (if d.phase = .recoveryCheckPaused then s.queueRecoveryCheck d
      else if d.phase = .duplicateCheckPaused then s.queueDuplicateCheck d
      else if d.phase = .duplicatePersistencePaused then s.persistDuplicateResolution d
      else rest) := by
  by_cases hphase : d.phase = .recoveryCheckPaused ∨ d.phase = .duplicateCheckPaused ∨
    d.phase = .duplicatePersistencePaused
  case neg =>
    rw [not_or, not_or] at hphase
    obtain ⟨hone, htwo, hthree⟩ := hphase
    rw [if_neg hone, if_neg htwo, if_neg hthree]
    exact hrest hone htwo hthree
  obtain ⟨hv, hserves⟩ := paused_serves h hr he hno hd (by
    rcases hphase with hp | hp | hp <;> rw [hp] <;> rfl)
  have hadm := hserves.no_admission (by rcases hphase with hp | hp | hp <;> simp [hp])
  have hper := hserves.no_persistence (by rcases hphase with hp | hp | hp <;> simp [hp])
  have hstanding := hserves.standing
  unfold Standing at hstanding
  rcases hphase with hphase | hphase | hphase
  · rw [if_pos hphase]
    rw [hphase] at hstanding
    obtain ⟨source, hre, -⟩ := hstanding
    have heq : s.queueRecoveryCheck d = ({ s with
        durable := some { d with phase := .recoveryCheckQueued } } : Presentation).queue
        (checkRecoveryCommand d source) := by
      unfold queueRecoveryCheck
      split
      · next hnone => rw [hre.source] at hnone; cases hnone
      rename_i x hx
      rw [hre.source] at hx
      cases hx
      rfl
    rw [heq]
    obtain ⟨hsource, ⟨t, dr, parent, hin, hrest⟩, hvalid, hun⟩ := hre
    have hleft : g'.left (effectsLeft { d with phase := .recoveryCheckQueued }) := by
      have := hserves.left
      simpa [effectsLeft, hphase] using this
    exact hv.queuing rfl rfl h.stored
      { consistent := hserves.consistent.core rfl
        backed := hserves.backed.core rfl
        admission := absent hadm, persistence := absent hper
        standing := ⟨source, ⟨hsource, ⟨t, dr, parent, hin.core rfl, hrest⟩, hvalid, hun⟩, rfl, rfl⟩
        left := hleft }
  · rw [if_neg (by simp [hphase]), if_pos hphase]
    rw [hphase] at hstanding
    obtain ⟨t, dr, parent, hin, hrec, hwait, -⟩ := hstanding
    have hleft := hserves.answersLeft (by simp [hphase])
    exact queueDuplicateCheck_inv hv h.stored hserves.consistent hserves.backed hin hadm hper
      (fun _ => hrec) hwait hleft
  · rw [if_neg (by simp [hphase]), if_neg (by simp [hphase]), if_pos hphase]
    rw [hphase] at hstanding
    obtain ⟨hrefuse, pending, outcome, hpend, hout, hrec, hcur, -⟩ := hstanding
    have hleft := hserves.answersLeft (by simp [hphase])
    exact persistDuplicateResolution_inv hv h.stored hserves.consistent hserves.backed hphase hpend
      hout hrec hcur (fun _ => hrefuse) hadm hper (fun _ => hleft)

end Resuming

theorem resumeDurableSubmission_inv (h : Inv p g s) (ha : Allows p s .resume)
    (hr : Recalls g g' s .resume) : Inv p g' s.resumeDurableSubmission := by
  cases hd : s.durable with
  | none =>
    have heq : s.resumeDurableSubmission = s := by simp only [resumeDurableSubmission, hd]
    rw [heq]
    exact h.unmoved rfl hr (by simp) (fun hcounts => by
      obtain ⟨⟨d, command, hsome, -⟩, -⟩ := hcounts
      rw [hd] at hsome
      cases hsome)
  | some d =>
    have heq : s.resumeDurableSubmission =
        if d.phase = .recoveryCheckPaused then s.queueRecoveryCheck d
        else if d.phase = .duplicateCheckPaused then s.queueDuplicateCheck d
        else if d.phase = .duplicatePersistencePaused then s.persistDuplicateResolution d
        else s.resumeActive d := by
      simp only [resumeDurableSubmission, hd]
    rw [heq]
    refine resumeRead_inv h hr (by simp) rfl hd fun hone htwo hthree => ?_
    rw [if_neg hone, if_neg htwo, if_neg hthree] at heq
    exact resumeActive_inv h hr (by simp) rfl hd heq ha.stalls

/-! ## Starting -/

theorem Inv.unstarted (h : Inv p g s) (hr : Recalls g g' s e) (he : e ≠ .take)
    (hd : s.durable = none) : Inv p g' s := by
  refine h.unmoved rfl hr he ?_
  rintro ⟨⟨d, command, hsome, -⟩, -⟩
  rw [hd] at hsome
  cases hsome

/-- With no Submission running, none of the commands still issued has a new operation id. -/
theorem Inv.vacant_of_idle (h : Inv p g s) (hd : s.durable = none) (hrec : s.recovery = none)
    {operationId : OperationId} (hop : s.reviews.nextOperationId ≤ operationId)
    (hle : s.reviews.nextOperationId ≤ st'.nextOperationId) :
    Vacant p operationId { s with reviews := st' } where
  commands := h.rest hd
  issued := by
    intro command hmem
    have hlt := h.fresh command (mem_append_right _ hmem)
    exact ⟨Nat.ne_of_lt (Nat.lt_of_lt_of_le hlt hop), Nat.lt_of_lt_of_le hlt hle⟩
  owned := by
    refine h.owned.imp id ?_
    intro hmine
    cases hissued : s.issued with
    | nil => rfl
    | cons command rest =>
      obtain ⟨d, hsome, -⟩ := hmine command (by rw [hissued]; exact mem_cons_self)
      rw [hd] at hsome
      cases hsome
  recovery := hrec

variable {started : Started}

theorem Begins.recalled (hb : Begins p s.reviews st' started t dr parent) (hr : Recalls g g' s e)
    (he : e ≠ .take) (hd : s.durable = none) (hst : (s.update e).reviews = st') :
    g'.cold started.durable.key t ∧ Backed g' started.durable st' ∧
      (∀ n ≤ started.durable.machine.answersLeft + 1, g'.left n) := by
  obtain ⟨run, hruns, hcur, hids⟩ :=
    (hb.backed ⟨fun _ _ => True, fun _ => True, fun _ => True⟩ trivial).run
  have hactive : (s.update e).reviews.activeRun = some run := by rw [hst]; exact hruns.active
  refine ⟨(hr.pending _ _ _ hb.shown hb.pending).resolve_right (fun hl => he hl.1),
    hb.backed g' (hruns.key ▸ hr.begins hd hb.idle run t dr hactive (hcur.trans hb.inHand.current)
      (hruns.key ▸ hb.shown) hb.pending), ?_⟩
  intro n hn
  refine hr.starts hd run hactive n (Nat.le_trans hn ?_)
  have hlen := congrArg length hids
  rw [length_map] at hlen
  rw [hlen]
  exact hb.left

theorem started_inv (sourceCommit : Bytes) (hb : Begins p s.reviews st' started t dr parent)
    (h : Inv p g s) (hd : s.durable = none) (hcold : g'.cold started.durable.key t)
    (hbacked : Backed g' started.durable st')
    (hleft : ∀ n ≤ started.durable.machine.answersLeft + 1, g'.left n) :
    Inv p g' (match s.requireSourceCheck, BoundedText.init 64 sourceCommit with
      | true, some sourceCheck =>
        { s with
          reviews := st'
          durable := some { started.durable with
            recoverySourceCommit := some sourceCheck, phase := .recoveryCheckQueued }
          }.queue (checkRecoveryCommand { started.durable with
            recoverySourceCommit := some sourceCheck, phase := .recoveryCheckQueued } sourceCheck)
      | _, _ => match started.command with
        | .post command =>
          { s with reviews := st', durable := some started.durable }.queue (.postDraft command)
        | .wait wait =>
          { s with reviews := st', durable := some started.durable }.queue (.waitSubmission wait)) := by
  have hrec : s.recovery = none := by
    cases hrec : s.recovery with
    | none => rfl
    | some notice =>
      have := (h.notice notice hrec).2.2
      rw [hb.idle] at this
      cases this
  have hv : Vacant p started.durable.operationId { s with reviews := st' } :=
    h.vacant_of_idle hd hrec (Nat.le_of_eq hb.operation.symm) hb.operations
  have hin := hb.inHand
  split
  · next sourceCheck _ _ =>
    refine hv.queuing (d := started.durable) rfl rfl hb.stored
      { consistent := hb.consistent.core rfl
        backed := hbacked.core rfl
        admission := absent hb.admission, persistence := absent hb.persistence
        standing := ⟨sourceCheck, ⟨rfl, ⟨t, dr, parent, hin.core rfl,
          fun _ _ => hcold, fun _ => ⟨hb.clear, hcold⟩⟩, hb.valid, hb.unchanged⟩, rfl, rfl⟩
        left := hleft _ (Nat.le_refl _) }
  · have hopens := hb.opens
    split
    · next command hcommand =>
      rw [hcommand] at hopens
      obtain ⟨hphase, hready, hcar, hdedupe⟩ := hopens
      refine hv.queuing (d := started.durable) rfl rfl hb.stored
        { consistent := hb.consistent, backed := hbacked, admission := absent hb.admission
          persistence := absent hb.persistence, standing := ?_, left := ?_ }
      · rw [Standing, hphase]
        exact .inl ⟨t, dr, parent, command, ⟨hin, hready, hb.clear, hb.unchanged⟩, hcold, hcar,
          hdedupe, rfl, rfl⟩
      · rw [effectsLeft_eq (by simp [hphase])]
        exact hleft _ (Nat.le_succ _)
    · next wait hcommand =>
      rw [hcommand] at hopens
      obtain ⟨hphase, hwait, rfl⟩ := hopens
      refine hv.queuing (d := started.durable) rfl rfl hb.stored
        { consistent := hb.consistent, backed := hbacked, admission := absent hb.admission
          persistence := absent hb.persistence, standing := ?_, left := ?_ }
      · rw [Standing, hphase]
        exact ⟨t, dr, parent, ⟨hin, hwait, hb.valid hwait, hb.unchanged⟩, fun _ => hcold, rfl, rfl⟩
      · rw [effectsLeft_eq (by simp [hphase])]
        exact hleft _ (Nat.le_succ _)

section

variable (h : Inv p g s)
include h

theorem startSubmissionSelection_inv {key : RemoteReviewIdentity} {sourceCommit : Bytes}
    {selectedRoot : Option TempId} (ha : Allows p s (.start key sourceCommit selectedRoot))
    (hr : Recalls g g' s (.start key sourceCommit selectedRoot)) :
    Inv p g' (s.startSubmissionSelection key sourceCommit selectedRoot) := by
  cases hd : s.durable with
  | some d =>
    cases hroot : selectedRoot with
    | some root =>
      have heq : s.startSubmissionSelection key sourceCommit (some root) = s := by
        simp [startSubmissionSelection, hd]
      rw [heq]
      exact h.remember (hr.cold' (by simp)) (hr.intent (by rw [hd]; rfl)) (hr.unanswered rfl hd)
    | none =>
      subst hroot
      have heq : s.startSubmissionSelection key sourceCommit none = s.resumeActive d := by
        simp [startSubmissionSelection, hd]
      rw [heq]
      exact resumeActive_inv h hr (by simp) rfl hd heq ha.stalls
  | none =>
    by_cases hlong : s.requireSourceCheck = true ∧ BoundedText.init 64 sourceCommit = none
    · have heq : s.startSubmissionSelection key sourceCommit selectedRoot = s := by
        simp only [startSubmissionSelection, hd, if_pos hlong]
      rw [heq]
      exact h.unstarted hr (by simp) hd
    rcases begin_cases h.stored key sourceCommit selectedRoot with
      ⟨started, st', t, dr, parent, hbegin, hb⟩ | ⟨result, hbegin, hnot⟩
    · have hst : (s.update (.start key sourceCommit selectedRoot)).reviews = st' := by
        simp only [update, startSubmissionSelection, hd, if_neg hlong, hbegin]
        split
        · rfl
        · split <;> rfl
      obtain ⟨hcold, hbacked, hleft⟩ := hb.recalled hr (by simp) hd hst
      have hinv := started_inv sourceCommit hb h hd hcold hbacked hleft
      simp only [startSubmissionSelection, hd, if_neg hlong, hbegin]
      exact hinv
    · have heq : s.startSubmissionSelection key sourceCommit selectedRoot = s := by
        simp only [startSubmissionSelection, hd, if_neg hlong, hbegin]
        rcases result with err | _ | started
        · rw [← hd]
        · rw [← hd]
        · exact absurd rfl (hnot started)
      rw [heq]
      exact h.unstarted hr (by simp) hd

/-! ## Recovering and abandoning -/

theorem Inv.restored (st' : InMemoryStore) (hs : Stored p st')
    (hb : ∀ d, Backed g d s.reviews → Backed g d st')
    (hop : st'.nextOperationId = s.reviews.nextOperationId)
    (hactive : st'.activeRun = s.reviews.activeRun) : Inv p g { s with reviews := st' } where
  stored := hs
  fresh := by
    intro command hmem
    rw [hop]
    exact h.fresh command hmem
  serves := fun d hd =>
    let hserves := h.serves d hd
    { consistent := hserves.consistent, backed := hb d hserves.backed
      admission := hserves.admission, persistence := hserves.persistence
      standing := hserves.standing, left := hserves.left }
  rest := h.rest
  owned := h.owned
  notice := fun notice hn => by rw [hactive]; exact h.notice notice hn

theorem discoverRecovery_inv (hd : s.durable = none) (hissued : s.issued = []) :
    Inv p g s.discoverRecovery := by
  unfold discoverRecovery
  split
  · exact h
  rename_i run hrun
  split
  · exact h
  · exact { h with notice := fun notice _ => ⟨hd, hissued, by
      rw [show s.reviews.activeRun = some run from hrun]; rfl⟩ }

variable {notice : RecoveryNotice}

theorem completeRecoveredTerminal_inv (hn : s.recovery = some notice) :
    Inv p g (s.completeRecoveredTerminal notice) := by
  obtain ⟨hd, hissued, -⟩ := h.notice notice hn
  have hcommands := h.rest hd
  unfold completeRecoveredTerminal
  dsimp only
  split
  · next err st' hw =>
    have hst := completeSubmission_error hw
    subst hst
    exact h.restored _ h.stored.spentCompletion (fun d hb => hb.spentCompletion) rfl rfl
  rename_i st' hw
  obtain ⟨run, hruns, hdone, hcompletes⟩ := completeSubmission_ok hw
  have hs' : Stored p st' := h.stored.idle (h.stored.sound.completedAs hruns hdone hcompletes)
    hdone.idle hdone.faults
  exact
    { stored := hs'
      fresh := by
        intro command hmem
        simp only [hcommands, hissued, append_nil] at hmem
        cases hmem
      serves := by
        intro d hsome
        rw [show s.durable = some d from hsome] at hd
        cases hd
      rest := fun _ => hcommands
      owned := by
        refine .inr ?_
        rw [show s.issued = [] from hissued]
        rintro _ ⟨⟩
      notice := by rintro _ ⟨⟩ }

theorem recoverRun_inv (hr : Recalls g g' s .recover) (hn : s.recovery = some notice)
    (hd : s.durable = none) (hu : s.update .recover = s.recoverRun notice) :
    Inv p g' (s.recoverRun notice) := by
  have hkept := h.unstarted hr (by simp) hd
  obtain ⟨-, hissued, -⟩ := h.notice notice hn
  unfold recoverRun at hu ⊢
  split
  · exact { hkept with notice := by rintro _ ⟨⟩ }
  rename_i run hrun
  have hactive : s.reviews.activeRun = some run := hrun
  simp only [hrun] at hu
  split
  · exact discoverRecovery_inv hkept hd hissued
  rename_i hmatch
  rw [if_neg hmatch] at hu
  obtain ⟨-, hkey, -, hsource⟩ : notice.operationId = run.operationId ∧ notice.key = run.key ∧
      notice.currentTempId = run.currentTempId ∧
      notice.sourceCommit.slice = run.sourceCommit := by
    simpa [recoveryMatches] using hmatch
  split
  · exact completeRecoveredTerminal_inv hkept hn
  rename_i hcurrent
  rw [if_neg hcurrent] at hu
  split
  · exact hkept
  rename_i d hok
  simp only [hok] at hu
  have hsame : (s.update .recover).reviews = s.reviews := by rw [hu]; rfl
  rw [hkey] at hok
  obtain ⟨source, hrecovers⟩ := recover_ok (g := g') h.stored hactive
    (fun key t hset => (hr.settled key t (by rw [hsame]; exact hset)).resolve_right
      (fun hl => by cases hl.1))
    (fun t checkpoint => hr.misplaced rfl run t checkpoint hactive) hok
  have htext : source = notice.sourceCommit := by
    have heq : source.slice = notice.sourceCommit.slice := hrecovers.source.trans hsource.symm
    cases source
    cases hns : notice.sourceCommit
    rw [hns] at heq
    cases heq
    rfl
  subst htext
  have hv : Vacant p d.operationId { s with recovery := none } :=
    ⟨h.rest hd, by rw [hissued]; rintro _ ⟨⟩, .inr hissued, rfl⟩
  refine hv.queuing (d := d) rfl rfl h.stored
    { consistent := hrecovers.consistent, backed := hrecovers.backed
      admission := absent hrecovers.admission
      persistence := absent hrecovers.persistence, standing := ?_, left := ?_ }
  · unfold Standing
    rw [hrecovers.phase]
    exact ⟨_, hrecovers.rechecks, rfl, rfl⟩
  · exact hr.starts hd run (by rw [hsame]; exact hactive) _ hrecovers.left

theorem recoverSubmission_inv (hr : Recalls g g' s .recover) : Inv p g' s.recoverSubmission := by
  cases hd : s.durable with
  | none =>
    cases hn : s.recovery with
    | none =>
      have heq : s.recoverSubmission = s := by simp only [recoverSubmission, hd, hn]
      rw [heq]
      exact h.unstarted hr (by simp) hd
    | some notice =>
      have heq : s.recoverSubmission = s.recoverRun notice := by
        simp only [recoverSubmission, hd, hn]
      rw [heq]
      exact recoverRun_inv h hr hn hd heq
  | some d =>
    have heq : s.recoverSubmission =
        if d.phase = .recoveryCheckPaused then s.queueRecoveryCheck d
        else if d.phase = .duplicateCheckPaused then s.queueDuplicateCheck d
        else if d.phase = .duplicatePersistencePaused then s.persistDuplicateResolution d
        else s := by
      simp only [recoverSubmission, hd]
    rw [heq]
    exact resumeRead_inv h hr (by simp) rfl hd fun _ _ _ =>
      h.remember (hr.cold' (by simp)) (hr.intent (by rw [hd]; rfl)) (hr.unanswered rfl hd)

theorem abandonRecoveredSubmission_inv (ha : Allows p s .abandon) (hr : Recalls g g' s .abandon) :
    Inv p g' s.abandonRecoveredSubmission := by
  cases hd : s.durable with
  | none =>
    have heq : s.abandonRecoveredSubmission = s := by simp only [abandonRecoveredSubmission, hd]
    rw [heq]
    exact h.unstarted hr (by simp) hd
  | some d =>
    have hkept : Inv p g' s :=
      h.remember (hr.cold' (by simp)) (hr.intent (by rw [hd]; rfl)) (hr.unanswered rfl hd)
    unfold abandonRecoveredSubmission
    simp only [hd]
    split
    · exact hkept
    rename_i tempId hcurrent
    split
    · exact hkept
    rename_i hrecovered
    split
    · next err st' hw =>
      have hst := abandonSubmission_error hw
      subst hst
      rw [← hd]
      exact hkept
    · next st' hw =>
      obtain ⟨run, current, ds, hruns, hdone, hcur, hds, -, hentries⟩ := abandonSubmission_ok hw
      have hs' : Stored p st' := h.stored.idle
        (h.stored.sound.settled hruns hcur (by simp) hdone.idle hentries) hdone.idle hdone.faults
      have hsome : s.durable ≠ none := by simp [hd]
      have habandoned : s.abandonRecoveredSubmission.durable = none := by
        unfold abandonRecoveredSubmission
        simp [hd, hcurrent, hrecovered, hw]
      have hnone : s.commands.filter (fun command =>
          decide (command.operationId ≠ d.operationId)) = [] := by
        refine filter_eq_nil_iff.mpr ?_
        intro command hmem
        simpa using (h.serves d hd).standing.operation command (mem_append_left _ hmem)
      exact
        { stored := hs'
          fresh := by
            intro command hmem
            rw [hdone.operations]
            refine h.fresh command ?_
            rcases mem_append.mp hmem with hq | hi
            · exact mem_append_left _ (mem_of_mem_filter hq)
            · exact mem_append_right _ hi
          serves := by rintro _ ⟨⟩
          rest := fun _ => hnone
          owned := .inl (ha.abandons ⟨trivial, hsome, habandoned⟩)
          notice := by
            intro notice hn
            have := (h.notice notice hn).1
            rw [hd] at this
            cases this }

end

/-! ## Taking a command -/

theorem takenPhase_cases (d : DurableSubmission) (command : Command) : takenPhase d command = d.phase ∨
      (d.phase = .postQueued ∧ takenPhase d command = .awaitingPost) ∨
      (d.phase = .waitQueued ∧ takenPhase d command = .awaitingWait) ∨
      (d.phase = .recoveryCheckQueued ∧ takenPhase d command = .awaitingRecoveryCheck) ∨
      (d.phase = .duplicateQueued ∧ takenPhase d command = .awaitingDuplicate) := by
  cases command with
  | postDraft post =>
    dsimp only [takenPhase]
    split
    · next hall => exact .inr (.inl ⟨hall.2.2, rfl⟩)
    · exact .inl rfl
  | waitSubmission wait =>
    dsimp only [takenPhase]
    split
    · next hall => exact .inr (.inr (.inl ⟨hall.2.2, rfl⟩))
    · exact .inl rfl
  | checkRecovery check =>
    dsimp only [takenPhase]
    split
    · next hall => exact .inr (.inr (.inr (.inl ⟨hall.2, rfl⟩)))
    · exact .inl rfl
  | findDuplicate find =>
    dsimp only [takenPhase]
    split
    · next hall => exact .inr (.inr (.inr (.inr ⟨hall.2.2, rfl⟩)))
    · exact .inl rfl

theorem effectsLeft_taken (d : DurableSubmission) (command : Command) :
    effectsLeft { d with phase := takenPhase d command } = effectsLeft d := by
  rcases takenPhase_cases d command with heq | ⟨hp, heq⟩ | ⟨hp, heq⟩ | ⟨hp, heq⟩ | ⟨hp, heq⟩
  · simp only [heq]
  · simp [effectsLeft, heq, hp]
  · simp [effectsLeft, heq, hp]
  · simp [effectsLeft, heq, hp]
  · simp [effectsLeft, heq, hp]

/-- The command that is taken becomes the one the Submission awaits. -/
theorem Standing.taken {command : Command} {rest : List Command} (g' : Memory)
    (h : Standing p g d (command :: rest) issued)
    (hcold : ∀ key x, g.cold key x → (∀ post, command = .postDraft post →
      ¬ (post.identity = key ∧ post.draft.localId = x)) → g'.cold key x) :
    Standing p g' { d with phase := takenPhase d command } rest (issued ++ [command]) := by
  have hqueued : d.phase = .postQueued ∨ d.phase = .waitQueued ∨ d.phase = .recoveryCheckQueued ∨
      d.phase = .duplicateQueued := by
    rcases h.out with ⟨hq, -⟩ | ⟨c, -, -, -, hphase⟩ | ⟨c, hq, -⟩ | ⟨-, hphase, -⟩
    · cases hq
    · exact hphase
    · cases hq
    · exact .inl hphase
  unfold Standing at h
  rcases hqueued with hphase | hphase | hphase | hphase <;> rw [hphase] at h
  · rcases h with ⟨t, dr, parent, post, hat, -, hcar, hdedupe, hq, rfl⟩ | ⟨hp, hstray⟩
    · cases hq
      have hlocal := hcar.localId hat.toInHand
      have htaken : takenPhase d (.postDraft post) = .awaitingPost :=
        if_pos ⟨hcar.operation.symm, hlocal ▸ hat.current, hphase⟩
      rw [htaken]
      exact .inl ⟨t, dr, parent, post, hat.core rfl, ⟨hcar.operation, hcar.identity, hcar.draft, hcar.parent⟩,
        hdedupe, rfl, rfl⟩
    · obtain ⟨post, hpost, hop, hne⟩ := hstray command (by simp)
      subst hpost
      have htaken : takenPhase d (.postDraft post) = .postQueued :=
        (if_neg (fun hall => hne hall.2.1)).trans hphase
      rw [htaken]
      refine .inr ⟨hp, ?_⟩
      intro c hc
      refine hstray c ?_
      simp only [mem_append, mem_cons, not_mem_nil, or_false] at hc ⊢
      tauto
  · obtain ⟨t, dr, parent, hat, hc, hq, rfl⟩ := h
    cases hq
    have htaken : takenPhase d (.waitSubmission (waitOf d t)) = .awaitingWait :=
      if_pos ⟨rfl, hat.current, hphase⟩
    rw [htaken]
    exact ⟨t, dr, parent, hat.core rfl, fun hclear => hcold _ _ (hc hclear) (by rintro _ ⟨⟩), rfl, rfl⟩
  · obtain ⟨source, hre, hq, rfl⟩ := h
    cases hq
    have htaken : takenPhase d (checkRecoveryCommand d source) = .awaitingRecoveryCheck :=
      if_pos ⟨rfl, hphase⟩
    rw [htaken]
    obtain ⟨hsource, ⟨t, dr, parent, hin, hw, hb⟩, hvalid, hu⟩ := hre
    have hkeep : g.cold d.key t → g'.cold d.key t := fun hc => hcold _ _ hc (by rintro _ ⟨⟩)
    exact ⟨source, ⟨hsource, ⟨t, dr, parent, hin.core rfl,
      fun h₁ h₂ => hkeep (hw h₁ h₂), fun h₁ => ⟨(hb h₁).1, hkeep (hb h₁).2⟩⟩, hvalid, hu⟩, rfl, rfl⟩
  · obtain ⟨t, dr, parent, find, hat, hcar, hq, rfl⟩ := h
    cases hq
    have hlocal := hcar.localId hat.toInHand
    have htaken : takenPhase d (.findDuplicate find) = .awaitingDuplicate :=
      if_pos ⟨hcar.operation.symm, hlocal ▸ hat.current, hphase⟩
    rw [htaken]
    exact .inl ⟨t, dr, parent, find, ⟨hat.core rfl, hat.ready,
      hat.policy, hat.recovers⟩, ⟨hcar.operation, hcar.identity, hcar.draft, hcar.parent⟩, rfl,
      rfl⟩

theorem takeCommand_inv (h : Inv p g s) (hr : Recalls g g' s .take) : Inv p g' s.takeCommand := by
  cases hq : s.commands with
  | nil =>
    have heq : s.takeCommand = s := by simp only [takeCommand, hq]
    rw [heq]
    have hcold : ∀ key x, g.cold key x → g'.cold key x := by
      intro key x hc
      refine (hr.cold key x hc).resolve_right ?_
      rintro ⟨-, post, rest, hcommands, -⟩
      rw [hq] at hcommands
      cases hcommands
    cases hd : s.durable with
    | none => exact { h with serves := fun d hs => by rw [hd] at hs; cases hs }
    | some d => exact h.remember hcold (hr.intent (by rw [hd]; rfl)) (hr.unanswered rfl hd)
  | cons command rest =>
    cases hd : s.durable with
    | none =>
      have := h.rest hd
      rw [hq] at this
      cases this
    | some d =>
      have hserves := h.serves d hd
      have hstanding := hserves.standing
      rw [hq] at hstanding
      have hop := hstanding.operation command (by simp)
      have heq : s.takeCommand = { s with
          commands := rest, issued := s.issued ++ [command]
          durable := some { d with phase := takenPhase d command } } := by
        simp only [takeCommand, hq, hd, Option.map_some]
      have htaken := Standing.taken g' hstanding (fun key x hc hnot =>
        (hr.cold key x hc).resolve_right (by
          rintro ⟨-, post, rest', hcommands, hkey, ht⟩
          rw [hq] at hcommands
          cases hcommands
          exact hnot post rfl ⟨hkey, ht⟩))
      rw [heq]
      exact
        { stored := h.stored
          fresh := by
            intro c hc
            refine h.fresh c ?_
            rw [hq]
            simp only [mem_append, mem_cons, not_mem_nil, or_false] at hc ⊢
            tauto
          serves := by
            rintro _ ⟨⟩
            have hown : own { d with phase := takenPhase d command } (s.issued ++ [command]) =
                own d s.issued ++ [command] := by
              simp [own, hop]
            rw [hown]
            have hstays {phase : SubmissionPhase} (hpaused : phase.isPaused = true)
                (hphase : d.phase = phase) : takenPhase d command = phase := by
              rcases takenPhase_cases d command with hp | ⟨hp, -⟩ | ⟨hp, -⟩ | ⟨hp, -⟩ | ⟨hp, -⟩
              · exact hp.trans hphase
              all_goals rw [← hphase, hp] at hpaused; cases hpaused
            refine
              { consistent := hserves.consistent.core rfl
                backed := (hserves.backed.remember (hr.intent (by rw [hd]; rfl))).core rfl
                admission := fun hsome => hstays rfl (hserves.admission hsome)
                persistence := fun hsome => hstays rfl (hserves.persistence hsome)
                standing := htaken, left := ?_ }
            rw [effectsLeft_taken]
            exact hr.unanswered rfl hd _ hserves.left
          rest := by rintro ⟨⟩
          owned := by
            refine h.owned.imp id ?_
            intro hmine c hc
            refine ⟨_, rfl, ?_⟩
            rcases mem_append.mp hc with hm | hm
            · obtain ⟨d', hd', hown⟩ := hmine c hm
              rw [hd] at hd'
              cases hd'
              exact hown
            · rw [mem_singleton.mp hm]
              exact hop
          notice := by
            intro notice hn
            have := (h.notice notice hn).1
            rw [hd] at this
            cases this }

theorem Stored.edited (h : Stored p st) (he : st.Edited st') : Stored p st' :=
  h.of_sound (h.sound.edited he) (by rw [he.active]; exact h.retries)
    ⟨by rw [he.faults.1]; exact id, by rw [he.faults.2]; exact id⟩

theorem Backed.edited (h : Backed g d st) (he : st.Edited st') : Backed g d st' where
  run := by
    obtain ⟨run, hrun, hrest⟩ := h.run
    exact ⟨run, ⟨he.active.trans hrun.active, hrun.operationId, hrun.key⟩, hrest⟩
  mirrors := by
    intro x hx
    obtain ⟨run, hrun, -, hids⟩ := h.run
    have howned := (ownedByRun_iff hrun.active d.key x).mpr ⟨hrun.key, hids ▸ hx⟩
    obtain ⟨dx, ds, hdx, hds, hcase⟩ := h.mirrors x hx
    exact ⟨dx, ds, hdx, (he.owned _ _ howned).trans hds, hcase⟩
  spent := by rw [he.active]; exact h.spent
  shows := h.shows

theorem edited_apply (edit : Edit) (st : InMemoryStore) : st.Edited (edit.apply st) := by
  cases edit with
  | put key incoming => exact put_edited st key (incoming.withState .draft) (by simp)
  | editDraftBody key edit => exact editDraftBody_edited st key edit
  | reanchorDraft key reanchor => exact reanchorDraft_edited st key reanchor
  | deleteDraftSubtree key deletion => exact deleteDraftSubtree_edited st key deletion
  | resolveUnknown key tempId resolution => exact resolveUnknown_edited st key tempId resolution
  | reserveTempId key => exact reserveTempId_edited st key

theorem boot_inv {requireSourceCheck : Bool} (hs : Stored p st) :
    Inv p g (boot st requireSourceCheck) := by
  refine discoverRecovery_inv ?_ rfl rfl
  exact
    { stored := hs, fresh := by rintro _ ⟨⟩, serves := by rintro _ ⟨⟩, rest := fun _ => rfl
      owned := .inr (by rintro _ ⟨⟩), notice := by rintro _ ⟨⟩ }

theorem Inv.kept (h : Inv p g s) (hr : Recalls g g' s e) (he : e ≠ .take)
    (hno : answeredBy s e = none) : Inv p g' s := by
  cases hd : s.durable with
  | none => exact h.unstarted hr he hd
  | some d => exact h.remember (hr.cold' he) (hr.intent (by rw [hd]; rfl)) (hr.unanswered hno hd)

/-- Every input keeps the invariant, if what leaves the protocol is permitted and the memory records
what it has to. -/
theorem Inv.update (h : Inv p g s) (ha : Allows p s e) (hr : Recalls g g' s e) :
    Inv p g' (s.update e) := by
  cases e with
  | start key sourceCommit selectedRoot => exact startSubmissionSelection_inv h ha hr
  | take => exact takeCommand_inv h hr
  | postCompleted i outcome retryAfterMs => exact acceptPostDraft_inv h ha hr
  | postLaunchFailed i => exact acceptPostDraftLaunchFailure_inv h hr
  | waitCompleted i => exact acceptSubmissionWait_inv h ha hr
  | waitLaunchFailed i => exact acceptSubmissionWaitLaunchFailure_inv h hr
  | recoveryChecked i outcome => exact acceptRecoveryCheck_inv h ha hr
  | duplicateChecked i outcome retryAfterMs => exact acceptDuplicateCheck_inv h ha hr
  | resume => exact resumeDurableSubmission_inv h ha hr
  | recover => exact recoverSubmission_inv h hr
  | abandon => exact abandonRecoveredSubmission_inv h ha hr
  | crash => exact boot_inv h.stored
  | failNextCheckpoint | failNextCompletion =>
    have hk := h.kept hr (by simp) rfl
    exact hk.restored _
      ⟨hk.stored.sound.congr rfl rfl (.inl rfl), hk.stored.retries, .inl (ha.refuses trivial)⟩
      (fun d hb => hb.of_rows rfl rfl) rfl rfl
  | edit edit =>
    have hk := h.kept hr (by simp) rfl
    have he := edited_apply edit s.reviews
    exact hk.restored _ (hk.stored.edited he) (fun d hb => hb.edited he) he.operations he.active

end Bbr.Tui
