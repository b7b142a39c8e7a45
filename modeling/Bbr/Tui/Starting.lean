import Bbr.Tui.Reads

/-!
# A run begins or is recovered

Both lay out a machine over the loaded review, ask it for its first step and stand there: a begun run
with nothing tried, a recovered one with what the stored run says about its participant in flight.
-/
namespace Bbr.Tui

open Bbr.Bitbucket Bbr.Review Bbr.Lib Submission Presentation InMemoryStore List Option DurableSubmission

variable {p : Permits} {g g' : Memory} {s : Presentation} {d d' : DurableSubmission}
  {st st' : InMemoryStore} {t c : TempId} {dr : Draft} {parent : Option CommentId}
  {m : Submission} {b : Bool} {order : List TempId}

variable {review : PendingReview}

theorem initialResult_outcome {r : ItemResult} {o : SubmissionOutcome}
    (h : initialResult review b t = some r) (ho : resultOutcome r = some o) :
    ∃ dr, review.getConst t = some dr ∧ dr.state = o.draftState := by
  unfold initialResult at h
  split at h
  · cases h
  rename_i dr hdr
  refine ⟨dr, hdr, ?_⟩
  split at h
  · next id hstate =>
    cases h
    cases ho
    exact hstate
  · next reason hstate =>
    split at h
    · cases h
      cases ho
      exact hstate
    · cases h
  · next hstate =>
    cases h
    cases ho
    exact hstate
  · cases h
  · cases h

theorem initialResult_open (h : initialResult review b t = none)
    (hdr : review.getConst t = some dr) : dr.state ≠ .outcomeUnknown := by
  intro hstate
  simp [initialResult, hdr, hstate] at h

/-- A machine over a fresh layout, with budgets at its first position only, and its first step. -/
theorem consistent_started (hnodup : order.Nodup) (hsized : m.Sized) (hidx : m.idx = 0)
    (hresults : m.results = (initOrder d.review order b).results) (horder : m.order = order)
    (hquiet : Quiet m) (hbounded : Bounded m.slot)
    (hmachine : d.machine = (m.advance d.review).2) (hstart : d.runStart ≤ d.machine.idx)
    (hremote : ∀ t ∈ participantIds d, ∃ dr, d.review.getConst t = some dr ∧ dr.target = .bitbucket)
    (hchanged : d.sourceChanged = false) : Consistent d := by
  obtain ⟨hm, -⟩ := advance_spec d.review m hsized.results
  rw [← hmachine] at hm
  have horder' : d.machine.order = order := hm.order.trans horder
  have hinit : ∀ i, m.result i = (order[i]?).bind (initialResult d.review b) := by
    intro i
    rw [result_congr hresults, initOrder_result]
  have hsized' : d.machine.Sized := ⟨by rw [hm.attempts, hm.order]; exact hsized.attempts,
      by rw [hm.checkAttempts, hm.order]; exact hsized.checkAttempts,
      by rw [hm.ambiguousLast, hm.order]; exact hsized.ambiguousLast,
      by rw [hm.results_length, hm.order]; exact hsized.results⟩
  have hquiet' : Quiet d.machine := by
    intro i hi
    rw [moved_attempt hm, moved_checkAttempt hm, moved_ambiguous hm]
    exact hquiet i (by omega)
  -- Every result is an initial one, or of a position that was walked over.
  have hresult : ∀ i r, d.machine.result i = some r → ∃ tid, order[i]? = some tid ∧
      (initialResult d.review b tid = some r ∨
        ∃ dd, d.review.getConst tid = some dd ∧ Passing d.review tid dd r) := by
    intro i r hr
    cases hmi : m.result i with
    | none =>
      obtain ⟨tid, dd, ht, hdd, -, hpass⟩ := hm.fresh i r hr hmi
      exact ⟨tid, horder ▸ ht, .inr ⟨dd, hdd, hpass⟩⟩
    | some r' =>
      rw [hm.kept i r' hmi] at hr
      cases hr
      rw [hinit] at hmi
      obtain ⟨tid, ht, hres⟩ := bind_eq_some_iff.mp hmi
      exact ⟨tid, ht, .inl hres⟩
  refine
    { sized := hsized', nodup := by rw [horder']; exact hnodup, quiet := hquiet', bounded := ?_
      started := hstart, remote := hremote, decided := ?_, shaped := ?_, opens := ?_, ledger := ?_
      changed := by rw [hchanged]; rintro ⟨⟩ }
  · by_cases hzero : d.machine.idx = m.idx
    · have : d.machine.slot = m.slot := by
        simp only [slot, hzero, moved_attempt hm, moved_checkAttempt hm, moved_ambiguous hm,
          hm.mustWait]
      rw [this]
      exact hbounded
    · have hle := hm.idx_le
      obtain ⟨h₁, h₂, h₃⟩ := hquiet d.machine.idx (by omega)
      constructor
      · simp only [slot, moved_attempt hm, h₁, maxAttempts]
        omega
      · simp only [slot, moved_checkAttempt hm, h₂, maxAttempts]
        omega
      · intro _
        simp only [slot, moved_attempt hm, h₁, maxAttempts]
        omega
  · intro i hle hlt hlen
    by_contra hnone
    have hn : d.machine.result i = none := by simpa using hnone
    obtain ⟨tid, htid⟩ : ∃ tid, d.machine.order[i]? = some tid := ⟨_, getElem?_eq_getElem hlen⟩
    obtain ⟨dd, hdd, htarget⟩ := hremote tid (mem_participantIds hle htid)
    have := hm.passed i (by omega) hlt hn tid dd (hm.order ▸ htid) hdd
    rw [htarget] at this
    cases this
  · intro i r hr hposted
    obtain ⟨tid, -, hinit' | ⟨dd, -, hpass⟩⟩ := hresult i r hr
    · exact (initialResult_tempId hinit').2.mp hposted
    · cases hpass with
      | posted id state => rfl
      | skipped reason => cases hposted
  · intro _ i tid dd ht hn hdd
    have hmi : m.result i = none := by
      cases hmi : m.result i with
      | none => rfl
      | some r =>
        rw [hm.kept i r hmi] at hn
        cases hn
    rw [hinit, ← horder', ht] at hmi
    exact initialResult_open hmi hdd
  · intro c _ i tid r o _ ht hr ho _
    rw [horder'] at ht
    obtain ⟨tid', ht', hcase⟩ := hresult i r hr
    rw [ht] at ht'
    cases ht'
    rcases hcase with hinit' | ⟨dd, hdd, hpass⟩
    · exact initialResult_outcome hinit' ho
    cases hpass with
    | posted id state =>
      cases ho
      exact ⟨dd, hdd, state⟩
    | skipped reason => cases ho

/-- The item in flight as a retry checkpoint records it. -/
def slotOf (checkpoint : SubmissionRetryCheckpoint) : Slot where
  attempts := checkpoint.attempt
  checks := if checkpoint.phase = .publicationCheck then
    (if checkpoint.localDelayMs = backoffMs 1 then 1 else 2) else 0
  ambiguous := checkpoint.phase = .publicationCheck || !checkpoint.pendingWait
  waiting := checkpoint.pendingWait

variable {checkpoint : SubmissionRetryCheckpoint}

theorem slotOf_bounded (h : ValidRetry checkpoint) : Bounded (slotOf checkpoint) where
  attempts := h.attempts
  checks := by
    simp only [slotOf, maxAttempts]
    split
    · split <;> omega
    · omega
  clear := by
    intro hclear
    simp only [slotOf, Bool.or_eq_false_iff, decide_eq_false_iff_not, Bool.not_eq_false'] at hclear
    refine h.post ?_ hclear.2
    cases hp : checkpoint.phase with
    | post => rfl
    | publicationCheck => exact absurd hp hclear.1

theorem restoreRetry_lands (hs : m.Sized) (hat : m.order[m.idx]? = some t)
    (checkpoint : SubmissionRetryCheckpoint) :
    Elsewhere m (m.restoreRetry checkpoint) ∧ (m.restoreRetry checkpoint).slot = slotOf checkpoint := by
  obtain ⟨ha, hc, hb, -⟩ := hs.bounds hat
  refine ⟨elsewhere_update hs _ rfl, ?_⟩
  simp only [slot, restoreRetry, attempt, checkAttempt, ambiguous, getD_set_self ha,
    getD_set_self hc, getD_set_self hb, slotOf]

variable {key : RemoteReviewIdentity}

theorem carriedRetry_valid (h : st.carriedRetry key t = some checkpoint) :
    ValidRetry checkpoint ∧ checkpoint.phase = .post ∧ checkpoint.pendingWait = true ∧
      checkpoint.attempt = 0 := by
  unfold InMemoryStore.carriedRetry at h
  split at h
  · cases h
  split at h
  · cases h
  rename_i delay _
  cases h
  refine ⟨⟨(Nat.zero_max delay).symm, Nat.zero_le _, fun _ _ => by simp [maxAttempts],
    by rintro ⟨⟩⟩, rfl, rfl, rfl⟩

variable {items : List SubmissionRunItem}

theorem participants_tempIds {ids : List TempId} (h : participants review ids = some items) :
    items.map SubmissionRunItem.tempId = ids := by
  induction ids generalizing items with
  | nil =>
    cases h
    rfl
  | cons tid rest ih =>
    unfold participants at h
    split at h
    · next items' _ hrest =>
      cases h
      rw [map_cons, ih hrest]
    · cases h

/-- The first command of a begun run. -/
def Opens (d : DurableSubmission) (t : TempId) (dr : Draft) (parent : Option CommentId) :
    FirstCommand → Prop
  | .post command => d.phase = .postQueued ∧ d.machine.mustWait = false ∧
      Carries d dr parent command ∧ command.dedupe = false
  | .wait wait => d.phase = .waitQueued ∧ d.machine.mustWait = true ∧ wait = waitOf d t

/-- A run that has just begun: its first participant was pending and is in flight, untried. -/
structure Begins (p : Permits) (st st' : InMemoryStore) (started : Started) (t : TempId)
    (dr : Draft) (parent : Option CommentId) : Prop where
  idle : st.activeRun = none
  inHand : InHand started.durable t dr parent
  consistent : Consistent started.durable
  stored : Stored p st'
  operations : st.nextOperationId ≤ st'.nextOperationId
  operation : started.durable.operationId = st.nextOperationId
  backed : ∀ g : Memory, g.intent ⟨started.durable.key, t, dr.state⟩ →
    Backed g started.durable st'
  first : AtFirst started.durable t
  shown : st.draftEntry started.durable.key t = some dr
  pending : dr.state.isPending = true
  unchanged : started.durable.sourceChanged = false
  admission : started.durable.pendingAdmission = none
  persistence : started.durable.pendingPersistence = none
  clear : started.durable.machine.slot.ambiguous = false
  valid : started.durable.machine.mustWait = true →
    ValidRetry started.durable.machine.retryCheckpoint
  left : started.durable.machine.answersLeft + 1 ≤
    runAnswers (participantIds started.durable).length
  opens : Opens started.durable t dr parent started.command

/-- The Submission as `begin` makes it, before its first command. -/
def begunOf (st : InMemoryStore) (key : RemoteReviewIdentity) (operationId : OperationId)
    (m : Submission) (t : TempId) : DurableSubmission :=
  { key := key, review := st.loadReview key, machine := m, runStart := m.idx
    operationId := operationId, currentTempId := some t }

theorem fresh_initOrder (review : PendingReview) : Fresh (initOrder review order b) :=
  ⟨rfl, fun i _ => ⟨initOrder_attempt review order b i, initOrder_checkAttempt review order b i,
    initOrder_ambiguous review order b i⟩⟩

variable {run : ActiveSubmissionRun} {operationId : OperationId} {sourceCommit : Bytes}

/-- The store mirrors the review a run begins with; only the first participant has moved. -/
theorem begun_backed (hbegun : st.Begun key sourceCommit items operationId run t st')
    (hkey : d.key = key) (hop : d.operationId = operationId)
    (hreview : d.review = st.loadReview key) (hitems : items.map SubmissionRunItem.tempId =
      participantIds d) (hfirst : AtFirst d t) (hshown : st.draftEntry key t = some dr)
    (hpending : dr.state.isPending = true) (hi : g.intent ⟨d.key, t, dr.state⟩)
    (hspent : ∀ checkpoint, run.retry = some checkpoint → d.machine.mustWait = true) :
    Backed g d st' where
  run := ⟨run, ⟨hbegun.active, hbegun.fresh.2.trans hop.symm, hbegun.of_key.trans hkey.symm⟩,
    hbegun.current.trans hfirst.2.1.symm, by rw [hbegun.frozen]; exact hitems⟩
  mirrors := by
    intro x hx
    rw [← hitems, List.mem_map] at hx
    obtain ⟨item, hitem, rfl⟩ := hx
    obtain ⟨dx, hdx, -⟩ := hbegun.participants item hitem
    have hcopy : d.review.getConst item.tempId = some dx := by
      rw [hreview, getConst_loadReview]
      exact hdx
    by_cases hx : item.tempId = t
    · have hsame : dx = dr := some.inj ((hx ▸ hdx).symm.trans hshown)
      subst hsame
      refine ⟨dx, dx.withState .submitting, hcopy, ?_, .inr ⟨hx ▸ hfirst, hx ▸ hi, hpending, rfl⟩⟩
      rw [hkey, hbegun.rows, if_pos ⟨rfl, hx⟩, hshown]
      rfl
    · refine ⟨dx, dx, hcopy, ?_, .inl rfl⟩
      rw [hkey, hbegun.rows, if_neg (fun hand => hx hand.2)]
      exact hdx
  spent := by
    intro run' checkpoint hrun hretry _
    rw [hbegun.active] at hrun
    cases hrun
    exact hspent checkpoint hretry
  shows := by
    rintro x dx ⟨-, hcur, -⟩ hdx
    have hx : t = x := some.inj (hfirst.2.1.symm.trans hcur)
    subst hx
    rw [hreview, getConst_loadReview, hshown] at hdx
    cases hdx
    exact ⟨hpending, hi⟩

theorem begun_stored (hs : Stored p st)
    (hbegun : st.Begun key sourceCommit items operationId run t st') : Stored p st' := by
  refine hs.of_sound (hs.sound.begun hbegun) ?_
    ⟨by rw [hbegun.faults.1]; exact id, by rw [hbegun.faults.2]; exact id⟩
  rw [hbegun.active]
  rintro _ checkpoint ⟨⟩ hretry
  rw [hbegun.retry] at hretry
  exact (carriedRetry_valid hretry).1

variable {command : PostDraft}

theorem firstCommand_post (h : st.activeSubmission.bind ActiveSubmissionRun.retry = none) :
    d.firstCommand st command = .ok ⟨d, .post command⟩ := by
  unfold firstCommand
  simp only [h]

theorem firstCommand_wait {retry : SubmissionRetryCheckpoint} {wait : WaitStep}
    (h : st.activeSubmission.bind ActiveSubmissionRun.retry = some retry)
    (hadv : { d with machine := d.machine.restoreRetry retry }.advance =
      (.wait wait, { d with machine := d.machine.restoreRetry retry })) :
    d.firstCommand st command = .ok
      ⟨{ d with machine := d.machine.restoreRetry retry, phase := .waitQueued },
        .wait ({ d with machine := d.machine.restoreRetry retry }.waitCommand wait)⟩ := by
  unfold firstCommand
  simp only [h, hadv]

theorem firstCommand_begins (hs : Stored p st) {start : Start}
    {s₀ : Submission} {post : PostStep} (hbegin : start.begin (st.loadReview key) = .ok s₀)
    (hstep : (s₀.advance (st.loadReview key)).1 = .post post)
    (hshown : (st.loadReview key).getConst post.tempId = some dr)
    (hitems : items.map SubmissionRunItem.tempId = (s₀.advance (st.loadReview key)).2.order.drop
      (s₀.advance (st.loadReview key)).2.idx)
    (hbegun : st.Begun key sourceCommit items operationId run post.tempId st') :
    ∃ started, (begunOf st key operationId (s₀.advance (st.loadReview key)).2
        post.tempId).firstCommand st' ((begunOf st key operationId
          (s₀.advance (st.loadReview key)).2 post.tempId).postCommand dr post) = .ok started ∧
      Begins p st st' started post.tempId dr post.parent := by
  obtain ⟨order, rfl⟩ := begin_eq_initOrder hbegin
  have hnodup := begin_nodup (loadReview_distinct st key) hbegin
  have hsized := initOrder_sized (st.loadReview key) order start.settlesFailures
  have hfresh : Fresh (initOrder (st.loadReview key) order start.settlesFailures) :=
    fresh_initOrder (st.loadReview key)
  obtain ⟨hm, hstops⟩ := advance_spec (st.loadReview key) _ hsized.results
  rw [hstep] at hstops
  obtain ⟨hab, hready, hamb, hdedupe, dn, hfl⟩ := hstops
  have hdn : dn = dr := some.inj (hfl.draft.symm.trans hshown)
  subst hdn
  have hfresh' := hfresh.moved hm
  generalize hn : ((initOrder (st.loadReview key) order start.settlesFailures).advance
    (st.loadReview key)).2 = n at hm hfresh' hready hamb hfl hab hitems
  -- The Submission before its first command.
  have hin : InHand (begunOf st key operationId n post.tempId) post.tempId dn post.parent :=
    ⟨rfl, hfl, hab⟩
  have hfirst : AtFirst (begunOf st key operationId n post.tempId) post.tempId := by
    refine ⟨rfl, rfl, ?_⟩
    rw [head?_drop]
    exact hfl.at_idx
  have hremote : ∀ x ∈ participantIds (begunOf st key operationId n post.tempId),
      ∃ dx, (st.loadReview key).getConst x = some dx ∧ dx.target = .bitbucket := by
    intro x hx
    have hx' : x ∈ items.map SubmissionRunItem.tempId := hitems ▸ hx
    obtain ⟨item, hitem, rfl⟩ := mem_map.mp hx'
    obtain ⟨dx, hdx, htarget, -⟩ := hbegun.participants item hitem
    exact ⟨dx, by rw [getConst_loadReview]; exact hdx, htarget⟩
  have hc : Consistent (begunOf st key operationId n post.tempId) :=
    consistent_started hnodup hsized rfl rfl rfl hfresh.quiet (by rw [hfresh.slot]; exact
      bounded_untried) hn.symm (Nat.le_refl _) hremote rfl
  have hstored := begun_stored hs hbegun
  obtain ⟨ds, hds, hpending⟩ := hbegun.pending
  have hds' : ds = dn := by
    rw [getConst_loadReview, hds] at hshown
    exact some.inj hshown
  subst hds'
  have hactive : st'.activeSubmission.bind ActiveSubmissionRun.retry = run.retry := by
    simp only [InMemoryStore.activeSubmission, hbegun.active, bind_some]
  have hcount : itemAnswers * (n.order.length - n.idx) + 8 =
      runAnswers (participantIds (begunOf st key operationId n post.tempId)).length := by
    simp only [runAnswers, participantIds, begunOf, length_drop]
  cases hretry : run.retry with
  | none =>
    refine ⟨_, firstCommand_post (hactive.trans hretry),
      { idle := hbegun.idle, inHand := hin, consistent := hc, stored := hstored
        operations := by rw [hbegun.operations]; exact Nat.le_succ _
        operation := hbegun.fresh.1
        backed := fun g hi => begun_backed hbegun rfl rfl rfl hitems hfirst hds hpending hi
          (by rw [hretry]; rintro _ ⟨⟩)
        first := hfirst, shown := hds, pending := hpending, unchanged := rfl, admission := rfl
        persistence := rfl, clear := hamb
        valid := fun hw => by rw [show n.mustWait = true from hw] at hready; cases hready
        left := ?_
        opens := ⟨rfl, hready, ⟨rfl, rfl, ⟨ds.state, rfl⟩, rfl⟩, hdedupe⟩ }⟩
    have := hfresh'.answersLeft_le
    simp only [begunOf] at hcount ⊢
    omega
  | some retry =>
    obtain ⟨hvalid, hphase, hpend, hattempt⟩ := carriedRetry_valid (hbegun.retry ▸ hretry)
    -- The delay of an earlier run is waited out before anything is tried.
    obtain ⟨hel, hslot⟩ := restoreRetry_lands hc.sized hfl.at_idx retry
    have hc' := hc.remains hel rfl rfl (hslot ▸ slotOf_bounded hvalid)
    have hin' : InHand { begunOf st key operationId n post.tempId with
        machine := n.restoreRetry retry } post.tempId ds post.parent :=
      ⟨rfl, hfl.congr rfl rfl rfl, hab⟩
    have hwait : (n.restoreRetry retry).mustWait = true := hpend
    have hclear : (slotOf retry).ambiguous = false := by simp [slotOf, hphase, hpend]
    have hadv := hin'.advance
    rw [stepFor, if_pos hwait] at hadv
    refine ⟨_, firstCommand_wait (hactive.trans hretry) hadv,
      { idle := hbegun.idle, inHand := ⟨rfl, hin'.flight, hab⟩
        consistent := hc'.core rfl, stored := hstored
        operations := by rw [hbegun.operations]; exact Nat.le_succ _
        operation := hbegun.fresh.1
        backed := fun g hi => begun_backed hbegun rfl rfl rfl hitems ⟨rfl, rfl, hfirst.2.2⟩ hds
          hpending hi (fun _ _ => hwait)
        first := ⟨rfl, rfl, hfirst.2.2⟩, shown := hds, pending := hpending, unchanged := rfl
        admission := rfl, persistence := rfl, clear := ?_, valid := fun _ => hvalid, left := ?_
        opens := ⟨rfl, hwait, rfl⟩ }⟩
    · exact (congrArg Slot.ambiguous hslot).trans hclear
    have hcost : (slotOf retry).answersLeft = 21 := by
      unfold Slot.answersLeft
      rw [hclear]
      simp [slotOf, hpend, hattempt, itemAnswers]
    have hleft : (n.restoreRetry retry).answersLeft =
        itemAnswers * (n.order.length - n.idx - 1) + (n.restoreRetry retry).slot.answersLeft :=
      answersLeft_inHand hin'
    have hlt : n.idx < n.order.length := hin'.idx_lt
    have hbound : (n.restoreRetry retry).answersLeft + 1 ≤
        itemAnswers * (n.order.length - n.idx) + 8 := by
      rw [hleft, show (n.restoreRetry retry).slot = slotOf retry from hslot, hcost]
      simp only [itemAnswers]
      omega
    exact Nat.le_trans hbound (Nat.le_of_eq hcount)

theorem begin_cases (hs : Stored p st) (key : RemoteReviewIdentity) (sourceCommit : Bytes)
    (selectedRoot : Option TempId) :
    (∃ started st' t dr parent, begin st key sourceCommit selectedRoot =
        (.ok (some started), st') ∧ Begins p st st' started t dr parent) ∨
      ∃ result, begin st key sourceCommit selectedRoot = (result, st) ∧
        ∀ started, result ≠ .ok (some started) := by
  cases hcreate : (startOf none selectedRoot).begin (st.loadReview key) with
  | error err =>
    refine .inr ⟨.error (.graph err), ?_, by simp⟩
    simp only [begin, create, hcreate]
  | ok s₀ =>
    have hcreated : create st key none selectedRoot =
        .ok { key := key, review := st.loadReview key, machine := s₀ } := by
      simp only [create, hcreate]
    unfold begin
    simp only [hcreated, advance_fst, advance_snd]
    cases hstep : (s₀.advance (st.loadReview key)).1 with
    | check post | wait wait | done | aborted err => exact .inr ⟨_, rfl, by simp⟩
    | post post =>
      dsimp only
      cases hdraft : (st.loadReview key).getConst post.tempId with
      | none => exact .inr ⟨_, rfl, by simp⟩
      | some draft =>
        cases hitems : participants (st.loadReview key) ((s₀.advance (st.loadReview key)).2.order.drop
            (s₀.advance (st.loadReview key)).2.idx) with
        | none => exact .inr ⟨_, rfl, by simp⟩
        | some items =>
          dsimp only
          rcases hw : st.beginSubmission key sourceCommit items with ⟨err | operationId, st'⟩
          · have hsame := beginSubmission_error hw
            subst hsame
            exact .inr ⟨_, rfl, by simp⟩
          obtain ⟨run, first, hbegun⟩ := beginSubmission_ok hw
          have hids := participants_tempIds hitems
          -- The first participant is the one the machine asked for.
          have hfirst : first = post.tempId := by
            obtain ⟨item, hhead, rfl⟩ := hbegun.head
            obtain ⟨order, rfl⟩ := begin_eq_initOrder hcreate
            obtain ⟨-, hstops⟩ := advance_spec (st.loadReview key) _
              (initOrder_sized (st.loadReview key) order _).results
            rw [hstep] at hstops
            obtain ⟨-, -, -, -, dn, hfl⟩ := hstops
            have hmap := congrArg head? hids
            rw [head?_map, hhead, head?_drop, hfl.at_idx] at hmap
            exact some.inj hmap
          subst hfirst
          obtain ⟨started, hfirst, hbegins⟩ := firstCommand_begins hs hcreate hstep hdraft hids hbegun
          refine .inl ⟨started, st', post.tempId, draft, post.parent, ?_, hbegins⟩
          unfold begunOf at hfirst
          dsimp only at hfirst ⊢
          rw [hfirst]

theorem stops_names {step : Step} (h : Stops review m step) (hn : step.names = some c) :
    m.abortedReason = none ∧ ∃ dr parent, InFlight review m c dr parent := by
  cases step with
  | done | aborted err => cases hn
  | post effect | check effect =>
    obtain ⟨hab, -, -, -, dr, hfl⟩ := h
    cases hn
    exact ⟨hab, dr, _, hfl⟩
  | wait effect =>
    obtain ⟨hab, -, -, -, dr, parent, hfl⟩ := h
    cases hn
    exact ⟨hab, dr, parent, hfl⟩

theorem restore_lands (hf : Fresh m) (hs : m.Sized) (hat : m.order[m.idx]? = some t)
    {retry : Option SubmissionRetryCheckpoint}
    (hv : ∀ checkpoint, retry = some checkpoint → ValidRetry checkpoint) :
    Elsewhere m (restore m retry) ∧ Bounded (restore m retry).slot := by
  cases retry with
  | some checkpoint =>
    obtain ⟨hel, hslot⟩ := restoreRetry_lands hs hat checkpoint
    exact ⟨hel, hslot ▸ slotOf_bounded (hv checkpoint rfl)⟩
  | none =>
    obtain ⟨ha, -, hb, -⟩ := hs.bounds hat
    obtain ⟨-, hc, -⟩ := hf.2 m.idx (Nat.le_refl _)
    refine ⟨elsewhere_update hs _ rfl, ?_⟩
    have hslot : (restore m none).slot = ⟨1, m.checkAttempt m.idx, true, m.mustWait⟩ := by
      simp only [slot, restore, attempt, checkAttempt, ambiguous, getD_set_self ha, getD_set_self hb]
    rw [hslot, hc]
    constructor <;> simp [maxAttempts]

theorem slot_answersLeft_le {slot : Slot} : slot.answersLeft ≤ itemAnswers + 7 := by
  have hwait : (if slot.waiting = true then 1 else 0) ≤ 1 := by split <;> omega
  have hpost : (if slot.attempts < maxAttempts then 21 - 7 * slot.attempts else 0) ≤ 21 := by
    split <;> omega
  unfold Slot.answersLeft
  simp only [itemAnswers]
  by_cases hamb : slot.ambiguous = true
  · rw [if_pos hamb]
    omega
  · rw [if_neg hamb]
    omega

/-- A recovered Submission: it reads the source first. -/
structure Recovers (g : Memory) (run : ActiveSubmissionRun) (st : InMemoryStore)
    (d : DurableSubmission) (source : BoundedText 64) : Prop where
  consistent : Consistent d
  backed : Backed g d st
  rechecks : Rechecks g d source
  phase : d.phase = .recoveryCheckQueued
  recovered : d.recovered = true
  operation : d.operationId = run.operationId
  key : d.key = run.key
  source : source.slice = run.sourceCommit
  admission : d.pendingAdmission = none
  persistence : d.pendingPersistence = none
  left : effectsLeft d ≤ runAnswers run.items.items.length

/-- The Submission that recovery makes of a machine. -/
def recoveredOf (st : InMemoryStore) (run : ActiveSubmissionRun) (source : BoundedText 64)
    (m : Submission) (wait : Option WaitSubmission) : DurableSubmission :=
  { key := run.key, review := st.loadReview run.key, machine := m, operationId := run.operationId
    currentTempId := run.currentTempId, recoverySourceCommit := some source, recovered := true
    phase := .recoveryCheckQueued, pendingWaitRetry := wait }

theorem recover_shape (h : recover st run run.key = .ok d) :
    ∃ s₀ source wait c, Start.begin (.frozen run.items) (st.loadReview run.key) = .ok s₀ ∧
      ((restore s₀ run.retry).advance (st.loadReview run.key)).1.names = some c ∧
      run.currentTempId = some c ∧ source.slice = run.sourceCommit ∧
      d = recoveredOf st run source
        ((restore s₀ run.retry).advance (st.loadReview run.key)).2 wait := by
  unfold recover create at h
  dsimp only [startOf] at h
  cases hbegin : Start.begin (.frozen run.items) (st.loadReview run.key) with
  | error err =>
    rw [hbegin] at h
    cases h
  | ok s₀ =>
    rw [hbegin] at h
    dsimp only [advance_fst, advance_snd] at h
    split at h
    · cases h
    rename_i c hnames
    split at h
    · cases h
    rename_i hcur
    split at h
    · cases h
    rename_i source hsource
    have hslice : source.slice = run.sourceCommit := by
      unfold BoundedText.init at hsource
      split at hsource
      · cases hsource
        rfl
      · cases hsource
    have hcur' : run.currentTempId = some c := by simpa using Eq.symm (by simpa using hcur)
    split at h
    · cases h
      exact ⟨s₀, source, _, c, rfl, hnames, hcur', hslice, rfl⟩
    · cases h
      exact ⟨s₀, source, none, c, rfl, hnames, hcur', hslice, rfl⟩

theorem restore_frame (m : Submission) (retry : Option SubmissionRetryCheckpoint) :
    (restore m retry).idx = m.idx ∧ (restore m retry).order = m.order ∧
      (restore m retry).results = m.results ∧
      ((restore m retry).mustWait = true → m.mustWait = false →
        ∃ checkpoint, retry = some checkpoint ∧ checkpoint.pendingWait = true ∧
          (restore m retry).retryCheckpoint = checkpoint) := by
  cases retry with
  | none =>
    refine ⟨rfl, rfl, rfl, fun hw hno => ?_⟩
    have : m.mustWait = true := hw
    rw [hno] at this
    cases this
  | some checkpoint => exact ⟨rfl, rfl, rfl, fun hw _ => ⟨checkpoint, rfl, hw, rfl⟩⟩

theorem restored_ambiguous (hs : m.Sized) (hat : m.order[m.idx]? = some t)
    (hphase : checkpoint.phase = .publicationCheck) {m' : Submission}
    (hm : Moved review (restore m (some checkpoint)) m') (hidx : m'.idx = m.idx) :
    m'.slot.ambiguous = true := by
  have hambiguous := congrArg Slot.ambiguous (restoreRetry_lands hs hat checkpoint).2
  simp only [slotOf, hphase, decide_true, Bool.true_or] at hambiguous
  simp only [slot, moved_ambiguous hm, hidx]
  exact hambiguous

section Recovered

variable {source : BoundedText 64} {wait : Option WaitSubmission}

theorem recovered_entry (hs : Stored p st) (hrun : st.activeRun = some run)
    (ht : t ∈ run.items.items.map SubmissionRunItem.tempId) :
    ∃ dr, st.draftEntry run.key t = some dr ∧ dr.target = .bitbucket ∧
      (st.loadReview run.key).getConst t = some dr := by
  obtain ⟨item, hitem, rfl⟩ := mem_map.mp ht
  obtain ⟨dr, hdr, htarget, -⟩ := hs.sound.participants run hrun item hitem
  exact ⟨dr, hdr, htarget, (getConst_loadReview st run.key item.tempId).trans hdr⟩

variable (horder : m.order = run.items.items.map SubmissionRunItem.tempId)
include horder

theorem recovered_backed (hs : Stored p st) (hrun : st.activeRun = some run)
    (hwaits : ∀ checkpoint, run.retry = some checkpoint → Definite checkpoint → m.mustWait = true) :
    Backed g (recoveredOf st run source m wait) st := by
  refine ⟨⟨run, ⟨hrun, rfl, rfl⟩, rfl, horder.symm⟩, ?_, ?_, by rintro _ _ ⟨⟨⟩, _⟩⟩
  · intro x hx
    have hmem : x ∈ m.order := hx
    obtain ⟨dx, hdx, -, hget⟩ := recovered_entry hs hrun (horder ▸ hmem)
    exact ⟨dx, dx, hget, hdx, .inl rfl⟩
  · intro run' checkpoint hrun' hcp hdef
    rw [hrun] at hrun'
    cases hrun'
    exact hwaits checkpoint hcp hdef

theorem recovered_left (hin : InHand (recoveredOf st run source m wait) c dr parent) :
    effectsLeft (recoveredOf st run source m wait) ≤ runAnswers run.items.items.length := by
  have hleft := answersLeft_inHand hin
  have hlt := hin.idx_lt
  have hslot := @slot_answersLeft_le m.slot
  have hlen : m.order.length = run.items.items.length := by rw [horder, length_map]
  have heffects : effectsLeft (recoveredOf st run source m wait) = m.answersLeft + 1 := rfl
  simp only [recoveredOf, hlen, itemAnswers] at hleft hlt hslot
  simp only [runAnswers, itemAnswers]
  omega

end Recovered

theorem recover_ok (hs : Stored p st) (hrun : st.activeRun = some run)
    (hsettled : ∀ key t, Settled st key t → g.cold key t)
    (hmisplaced : ∀ t checkpoint, run.currentTempId = some t → run.retry = some checkpoint →
      checkpoint.phase = .publicationCheck →
      run.items.items.head?.map SubmissionRunItem.tempId ≠ some t → g.cold run.key t)
    (h : recover st run run.key = .ok d) :
    ∃ source, Recovers g run st d source := by
  obtain ⟨s₀, source, wait, c, hbegin, hnames, hcur, hslice, rfl⟩ := recover_shape h
  have hs₀ : s₀ = initOrder (st.loadReview run.key)
      (run.items.items.map SubmissionRunItem.tempId) true := initFrozen_eq hbegin
  have hsized : s₀.Sized := hs₀ ▸ initOrder_sized _ _ _
  have hfresh : Fresh s₀ := hs₀ ▸ fresh_initOrder _
  have hzero : s₀.idx = 0 := by rw [hs₀]; rfl
  have horder₀ : s₀.order = run.items.items.map SubmissionRunItem.tempId := by rw [hs₀]; rfl
  have hnodup : s₀.order.Nodup := horder₀ ▸ run.items.distinct
  have hretry := fun checkpoint => hs.retries run checkpoint hrun
  obtain ⟨hidx, horder, hresults, hwaits⟩ := restore_frame s₀ run.retry
  obtain ⟨hm, hstops⟩ := advance_spec (st.loadReview run.key)
    (restore s₀ run.retry) (by rw [hresults, horder]; exact hsized.results)
  obtain ⟨hab, dr, parent, hfl⟩ := stops_names hstops hnames
  generalize hadv : ((restore s₀ run.retry).advance (st.loadReview run.key)).2 = m at hm hab hfl ⊢
  have hn : m.order = s₀.order := hm.order.trans horder
  -- The participant in flight is somewhere in the order, so there is a first one.
  obtain ⟨first, hat⟩ : ∃ first, s₀.order[s₀.idx]? = some first := by
    have hlt := idx_lt hfl.at_idx
    rw [hn] at hlt
    exact ⟨_, getElem?_eq_getElem (by omega)⟩
  obtain ⟨hel, hbound⟩ := restore_lands hfresh hsized hat hretry
  have hquiet := quiet_of_remains hfresh.quiet hel hidx
  have hbacked : Backed g (recoveredOf st run source m wait) st := by
    refine recovered_backed (hn.trans horder₀) hs hrun (fun checkpoint hcp hdef => ?_)
    rw [hm.mustWait, hcp]
    exact hdef.2
  have hin : InHand (recoveredOf st run source m wait) c dr parent := ⟨hcur, hfl, hab⟩
  refine ⟨source,
    { consistent := ?_, backed := hbacked, phase := rfl, recovered := rfl, operation := rfl
      key := rfl, source := hslice, admission := rfl, persistence := rfl
      rechecks := ⟨rfl, ⟨c, dr, parent, hin, ?_, by rintro ⟨⟩⟩, ?_, rfl⟩
      left := recovered_left (hn.trans horder₀) hin }⟩
  · refine consistent_started (b := true) hnodup hel.sized (hidx.trans hzero) ?_ horder hquiet hbound
      hadv.symm (Nat.zero_le _) (fun x hx => ?_) rfl
    · rw [hresults, hs₀]
      rfl
    · have hmem : x ∈ m.order := hx
      obtain ⟨dx, -, htarget, hget⟩ := recovered_entry hs hrun ((hn.trans horder₀) ▸ hmem)
      exact ⟨dx, hget, htarget⟩
  · intro hw hclear
    obtain ⟨checkpoint, hcp, hpend, -⟩ := hwaits (hm.mustWait.symm.trans hw) hfresh.1
    cases hphase : checkpoint.phase with
    | post =>
      -- The last POST was answered, and the wait for another one is recorded.
      refine hsettled run.key c (settled_of_definite hs hbacked hcur (fun run' hrun' => ?_)
        ⟨hphase, hpend⟩)
      rw [hrun] at hrun'
      cases hrun'
      exact hcp
    | publicationCheck =>
      refine hmisplaced c checkpoint hcur hcp hphase ?_
      rw [← head?_map, ← horder₀]
      intro hhead
      have hc₀ : s₀.order[0]? = some c := by rw [← head?_eq_getElem?]; exact hhead
      have hpos : m.idx = 0 :=
        (getElem?_inj (hn ▸ idx_lt hfl.at_idx) hnodup).mp ((hn ▸ hfl.at_idx).trans hc₀.symm)
      -- At the first position the restored ambiguity is in place.
      have hclear' : m.slot.ambiguous = false := hclear
      rw [restored_ambiguous hsized hat hphase (hcp ▸ hm) (hpos.trans hzero.symm)] at hclear'
      cases hclear'
  · intro hw
    obtain ⟨checkpoint, hcp, -, hkept⟩ := hwaits (hm.mustWait.symm.trans hw) hfresh.1
    have hsame : m.retryCheckpoint = checkpoint := hm.retryCheckpoint.trans hkept
    exact hsame ▸ hretry checkpoint hcp

end Bbr.Tui
