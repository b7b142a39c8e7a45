import Bbr.Tui.Standing

/-!
# The durable Submission keeps its standing

How each function of `DurableSubmission` moves the Submission and the store: the machine takes an
answer, the outcome is checkpointed, and the Submission stands at its next effect.
-/
namespace Bbr.Tui

open Bbr.Bitbucket Bbr.Review Bbr.Lib Submission List DurableSubmission InMemoryStore

variable {p : Permits} {g g' : Memory} {d d' : DurableSubmission} {st st' : InMemoryStore}
  {t c : TempId} {dr : Draft} {parent : Option CommentId} {m' : Submission}

/-! ## Small facts -/

@[simp] theorem advance_fst (d : DurableSubmission) :
    d.advance.1 = (d.machine.advance d.review).1 := rfl

@[simp] theorem advance_snd (d : DurableSubmission) :
    d.advance.2 = { d with machine := (d.machine.advance d.review).2 } := rfl

/-- The step a Draft in flight asks for. -/
def stepFor (m : Submission) (t : TempId) (parent : Option CommentId) : Step :=
  if m.mustWait then .wait ⟨m.retryCheckpoint.effectiveDelayMs, t, m.retryCheckpoint⟩
  else if m.ambiguous m.idx then .check ⟨t, parent, true⟩
  else .post ⟨t, parent, false⟩

section

variable (h : InHand d t dr parent)
include h

theorem InHand.machine_advance : d.machine.advance d.review = (stepFor d.machine t parent, d.machine) :=
  advance_inFlight h.flight h.unaborted

theorem InHand.advance : d.advance = (stepFor d.machine t parent, d) := by
  rw [DurableSubmission.advance, h.machine_advance]

theorem InHand.localId : dr.localId = t := findDraft_localId h.flight.draft

theorem InHand.idx_lt : d.machine.idx < d.machine.order.length := Submission.idx_lt h.flight.at_idx

end

variable {i : Nat}

theorem mem_participantIds (hle : d.runStart ≤ i) (h : d.machine.order[i]? = some t) :
    t ∈ participantIds d := by
  rw [participantIds, mem_iff_getElem?]
  refine ⟨i - d.runStart, ?_⟩
  rw [getElem?_drop, ← h]
  congr 1
  omega

theorem exists_index (h : t ∈ participantIds d) :
    ∃ i, d.runStart ≤ i ∧ d.machine.order[i]? = some t := by
  obtain ⟨i, hi⟩ := mem_iff_getElem?.mp h
  rw [participantIds, getElem?_drop] at hi
  exact ⟨d.runStart + i, by omega, hi⟩

theorem InHand.mem (h : InHand d t dr parent) (hc : Consistent d) : t ∈ participantIds d :=
  mem_participantIds hc.started h.flight.at_idx

theorem Consistent.index_eq (hc : Consistent d) {j : Nat} (hi : d.machine.order[i]? = some t)
    (hj : d.machine.order[j]? = some t) : i = j :=
  (List.getElem?_inj (List.getElem?_eq_some_iff.mp hi).1 hc.nodup).mp (hi.trans hj.symm)

theorem Consistent.congr (h : Consistent d) (hm : d'.machine = d.machine)
    (hr : d'.review = d.review) (hs : d'.runStart = d.runStart)
    (hc : d'.currentTempId = d.currentTempId)
    (hch : d'.sourceChanged = true → d'.recovered = true) : Consistent d' := by
  obtain ⟨h₁, h₂, h₃, h₄, h₅, h₆, h₇, h₈, h₉, h₁₀, -⟩ := h
  rw [participantIds, ← hm, ← hr, ← hs] at h₆
  rw [← hm, ← hr, ← hc] at h₉
  rw [← hm, ← hr, ← hs, ← hc] at h₁₀
  rw [← hm] at h₁ h₂ h₃ h₄ h₅ h₇ h₈
  rw [← hs] at h₅ h₇
  exact ⟨h₁, h₂, h₃, h₄, h₅, h₆, h₇, h₈, h₉, h₁₀, hch⟩

theorem Backed.congr (h : Backed g d st) (ho : d'.machine.order = d.machine.order)
    (hr : d'.review = d.review) (hs : d'.runStart = d.runStart)
    (hc : d'.currentTempId = d.currentTempId) (hop : d'.operationId = d.operationId)
    (hk : d'.key = d.key) (hrec : d'.recovered = d.recovered)
    (hw : d.machine.mustWait = true → d'.machine.mustWait = true) : Backed g d' st := by
  have hids : participantIds d' = participantIds d := by rw [participantIds, ho, hs]; rfl
  have hfirst : ∀ t, AtFirst d' t → AtFirst d t := by
    rintro t ⟨h₁, h₂, h₃⟩
    exact ⟨hrec ▸ h₁, hc ▸ h₂, ho ▸ hs ▸ h₃⟩
  refine ⟨?_, ?_, fun run cp hrun hcp hdef => hw (h.spent run cp hrun hcp hdef),
    fun t dr hf hdr => hk ▸ h.shows t dr (hfirst t hf) (hr ▸ hdr)⟩
  · rw [hids, hop, hk, hc]
    exact h.run
  intro t ht
  rw [hids] at ht
  obtain ⟨dr, ds, hdr, hds, hrel⟩ := h.mirrors t ht
  refine ⟨dr, ds, by rw [hr]; exact hdr, by rw [hk]; exact hds, ?_⟩
  rcases hrel with heq | ⟨hfirst, hrest⟩
  · exact .inl heq
  · refine .inr ⟨?_, hk ▸ hrest⟩
    obtain ⟨h₁, h₂, h₃⟩ := hfirst
    exact ⟨by rw [hrec]; exact h₁, by rw [hc]; exact h₂, by rw [ho, hs]; exact h₃⟩

/-- The Submission apart from its phase and from what it has paused. -/
def core (d : DurableSubmission) : DurableSubmission :=
  { d with
    phase := .postQueued, pendingAdmission := none, pendingPersistence := none
    pendingWaitRetry := none, pendingDuplicate := none, postedAny := false
    recoverySourceCommit := none, observedSourceCommit := none, policyCheck := false }

theorem core_eq (h : core d' = core d) : d'.key = d.key ∧ d'.operationId = d.operationId ∧
    d'.currentTempId = d.currentTempId ∧ d'.review = d.review ∧ d'.machine = d.machine ∧
    d'.runStart = d.runStart ∧ d'.sourceChanged = d.sourceChanged ∧ d'.recovered = d.recovered := by
  simpa [core] using h

theorem Consistent.core (h : Consistent d) (hcore : core d' = core d) : Consistent d' := by
  obtain ⟨-, -, hc, hr, hm, hs, hch, hrec⟩ := core_eq hcore
  exact h.congr hm hr hs hc (by rw [hch, hrec]; exact h.changed)

theorem Backed.core (h : Backed g d st) (hcore : core d' = core d) : Backed g d' st := by
  obtain ⟨hk, hop, hc, hr, hm, hs, -, hrec⟩ := core_eq hcore
  exact h.congr (by rw [hm]) hr hs hc hop hk hrec (by rw [hm]; exact id)

theorem InHand.core (h : InHand d t dr parent) (hcore : core d' = core d) :
    InHand d' t dr parent := by
  obtain ⟨-, -, hc, hr, hm, -⟩ := core_eq hcore
  exact ⟨by rw [hc]; exact h.current, by rw [hm, hr]; exact h.flight, by rw [hm]; exact h.unaborted⟩

theorem AtPost.core (h : AtPost d t dr parent) (hcore : core d' = core d) :
    AtPost d' t dr parent := by
  obtain ⟨-, -, -, -, hm, -, hu, -⟩ := core_eq hcore
  exact ⟨h.toInHand.core hcore, by rw [hm]; exact h.ready, by rw [hm]; exact h.clear,
    by rw [hu]; exact h.unchanged⟩

theorem AtWait.core (h : AtWait d t dr parent) (hcore : core d' = core d) :
    AtWait d' t dr parent := by
  obtain ⟨-, -, -, -, hm, -, hu, -⟩ := core_eq hcore
  exact ⟨h.toInHand.core hcore, by rw [hm]; exact h.waits, by rw [hm]; exact h.valid,
    by rw [hu]; exact h.unchanged⟩

theorem Backed.remember (h : Backed g d st) (hi : ∀ was, g.intent was → g'.intent was) :
    Backed g' d st := by
  refine ⟨h.run, ?_, h.spent, fun t dr hf hdr => (h.shows t dr hf hdr).imp id (hi _)⟩
  intro t ht
  obtain ⟨dr, ds, hdr, hds, hrel⟩ := h.mirrors t ht
  refine ⟨dr, ds, hdr, hds, hrel.imp id ?_⟩
  rintro ⟨h₁, h₂, h₃⟩
  exact ⟨h₁, hi _ h₂, h₃⟩

/-- A store with the same rows and the same run backs as well, whatever its faults. -/
theorem Backed.of_rows (h : Backed g d st) (hrows : st'.draftEntry = st.draftEntry)
    (hactive : st'.activeRun = st.activeRun) : Backed g d st' where
  run := by
    obtain ⟨run, ⟨hrun, hop, hk⟩, hrest⟩ := h.run
    exact ⟨run, ⟨hactive.trans hrun, hop, hk⟩, hrest⟩
  mirrors := by
    intro t ht
    obtain ⟨dr, ds, hdr, hds, hrel⟩ := h.mirrors t ht
    exact ⟨dr, ds, hdr, by rw [hrows]; exact hds, hrel⟩
  spent := by
    rw [hactive]
    exact h.spent
  shows := h.shows

variable {run : ActiveSubmissionRun}

theorem Backed.retried (h : Backed g d st)
    {retry : SubmissionRetryCheckpoint} (hrun : st.activeRun = some run)
    (hrows : st'.draftEntry = st.draftEntry)
    (hactive : st'.activeRun = some { run with retry := some retry })
    (hw : Definite retry → d.machine.mustWait = true) : Backed g d st' where
  run := by
    obtain ⟨run', ⟨hrun', hop, hk⟩, hcur, hids⟩ := h.run
    rw [hrun] at hrun'
    cases hrun'
    exact ⟨_, ⟨hactive, hop, hk⟩, hcur, hids⟩
  mirrors := by
    intro t ht
    obtain ⟨dr, ds, hdr, hds, hrel⟩ := h.mirrors t ht
    exact ⟨dr, ds, hdr, by rw [hrows]; exact hds, hrel⟩
  spent := by
    rw [hactive]
    rintro _ checkpoint ⟨⟩ hcp hdef
    cases hcp
    exact hw hdef
  shows := h.shows

theorem Consistent.remains (hc : Consistent d)
    (hel : Elsewhere d.machine m') (hidx : m'.idx = d.machine.idx)
    (hres : m'.results = d.machine.results) (hb : Bounded m'.slot) :
    Consistent { d with machine := m' } where
  sized := hel.sized
  nodup := by rw [hel.order]; exact hc.nodup
  quiet := quiet_of_remains hc.quiet hel hidx
  bounded := hb
  started := by rw [hidx]; exact hc.started
  remote := by
    simp only [participantIds, hel.order]
    exact hc.remote
  decided := by
    intro i hle hlt hlen
    rw [result_congr hres]
    exact hc.decided i hle (hidx ▸ hlt) (hel.order ▸ hlen)
  shaped := by
    intro i r hr
    rw [result_congr hres] at hr
    exact hc.shaped i r hr
  opens := by
    intro hcur i t' dr' ht hn hd
    rw [result_congr hres] at hn
    rw [hel.order] at ht
    exact hc.opens hcur i t' dr' ht hn hd
  ledger := by
    intro c hcur i t' r o hle ht hr
    rw [result_congr hres] at hr
    rw [hel.order] at ht
    exact hc.ledger c hcur i t' r o hle ht hr
  changed := hc.changed

/-- An answer that decides the item; the machine then walks to the next one. -/
theorem Consistent.settled (hc : Consistent d) (hin : InHand d t dr parent)
    (hw : d.machine.mustWait = false) (hel : Elsewhere d.machine m')
    (hidx : m'.idx = d.machine.idx + 1) {r : ItemResult}
    (hr : m'.result d.machine.idx = some r) (hshape : r.status = .posted → r.id.isSome = true)
    (hwait : m'.mustWait = d.machine.mustWait) :
    Consistent { d with machine := (m'.advance d.review).2 } ∧ Fresh (m'.advance d.review).2 := by
  have hfresh := fresh_of_settled hc.quiet hw hel hidx hwait
  obtain ⟨hm, -⟩ := advance_spec d.review m' hel.sized.results
  have horder : (m'.advance d.review).2.order = d.machine.order := hm.order.trans hel.order
  have hfresh' := hfresh.moved hm
  generalize (m'.advance d.review).2 = n at hm horder hfresh'
  have hle := hm.idx_le
  -- Every result of the walked machine is the new one, an old one or one that was walked over.
  have hresult : ∀ i r', n.result i = some r' → (i = d.machine.idx ∧ r' = r) ∨
      d.machine.result i = some r' ∨
      ∃ tid dd, d.machine.order[i]? = some tid ∧ d.review.getConst tid = some dd ∧
        Passing d.review tid dd r' := by
    intro i r' hi
    by_cases hidx' : i = d.machine.idx
    · subst hidx'
      rw [hm.outside _ (.inl (by omega)), hr] at hi
      cases hi
      exact .inl ⟨rfl, rfl⟩
    cases hmi : m'.result i with
    | some r'' =>
      rw [hm.kept i r'' hmi] at hi
      cases hi
      rw [hel.result i hidx'] at hmi
      exact .inr (.inl hmi)
    | none =>
      obtain ⟨tid, dd, ht, hd, -, hpass⟩ := hm.fresh i r' hi hmi
      exact .inr (.inr ⟨tid, dd, hel.order ▸ ht, hd, hpass⟩)
  have hopen : ∀ i, n.result i = none → d.machine.result i = none := by
    intro i hi
    by_cases hidx' : i = d.machine.idx
    · subst hidx'
      exact hin.flight.undecided
    cases hmi : m'.result i with
    | some r'' =>
      rw [hm.kept i r'' hmi] at hi
      cases hi
    | none =>
      rw [hel.result i hidx'] at hmi
      exact hmi
  refine ⟨?_, hfresh'⟩
  refine
    { sized := ⟨?_, ?_, ?_, ?_⟩, nodup := by rw [horder]; exact hc.nodup, quiet := hfresh'.quiet
      bounded := by rw [hfresh'.slot]; exact bounded_untried
      started := by have := hc.started; simp only; omega
      remote := by simp only [participantIds, horder]; exact hc.remote
      decided := ?_, shaped := ?_, opens := ?_, ledger := ?_, changed := hc.changed }
  · simp only [hm.attempts, hm.order]; exact hel.sized.attempts
  · simp only [hm.checkAttempts, hm.order]; exact hel.sized.checkAttempts
  · simp only [hm.ambiguousLast, hm.order]; exact hel.sized.ambiguousLast
  · simp only [hm.results_length, hm.order]; exact hel.sized.results
  · intro i hle' hlt' hlen
    by_contra hnone
    have hn : n.result i = none := by simpa using hnone
    rw [horder] at hlen
    obtain ⟨tid, htid⟩ : ∃ tid, d.machine.order[i]? = some tid := ⟨_, getElem?_eq_getElem hlen⟩
    obtain ⟨dd, hdd, htarget⟩ := hc.remote tid (mem_participantIds hle' htid)
    by_cases hi : i < d.machine.idx
    · have := hc.decided i hle' hi hlen
      rw [hopen i hn] at this
      cases this
    · by_cases hi' : i = d.machine.idx
      · subst hi'
        rw [hm.outside _ (.inl (by omega)), hr] at hn
        cases hn
      · have := hm.passed i (by omega) hlt' hn tid dd (hel.order.symm ▸ htid) hdd
        rw [htarget] at this
        cases this
  · intro i r' hi hposted
    rcases hresult i r' hi with ⟨-, rfl⟩ | hold | ⟨tid, dd, -, -, hpass⟩
    · exact hshape hposted
    · exact hc.shaped i r' hold hposted
    · cases hpass with
      | posted id state => rfl
      | skipped reason => cases hposted
  · intro hcur i t' dr' ht hn hd
    simp only [horder] at ht
    exact hc.opens hcur i t' dr' ht (hopen i hn) hd
  · intro c hcur i t' r' o hle' ht hi ho hne
    simp only [horder] at ht
    rcases hresult i r' hi with ⟨rfl, -⟩ | hold | ⟨tid, dd, htid, hdd, hpass⟩
    · rw [hin.flight.at_idx] at ht
      cases ht
      have := hcur.symm.trans hin.current
      cases this
      exact absurd rfl hne
    · exact hc.ledger c hcur i t' r' o hle' ht hold ho hne
    · rw [htid] at ht
      cases ht
      cases hpass with
      | posted id state =>
        cases ho
        exact ⟨dd, hdd, state⟩
      | skipped reason => cases ho

/-! ## A checkpoint -/

variable {next : Option TempId}

/-- The checkpointed Draft shows its outcome, the next one that it is submitting. -/
theorem getConst_recordCheckpoint (d : DurableSubmission) (o : SubmissionOutcome)
    (hne : next ≠ some c) (x : TempId) : (d.recordCheckpoint c o next).review.getConst x =
      if x = c then (d.review.getConst c).map (fun dr => dr.withState o.draftState)
      else if next = some x then (d.review.getConst x).map (fun dr => dr.withState .submitting)
      else d.review.getConst x := by
  cases next with
  | none => simp [recordCheckpoint]
  | some n =>
    have hnc : n ≠ c := fun h => hne (congrArg some h)
    simp only [recordCheckpoint, PendingReview.getConst_setState, hnc, if_false, Option.some.injEq]
    by_cases hx : x = n
    · subst hx
      simp [hnc]
    · have hx' : ¬ n = x := fun h => hx h.symm
      simp [hx, hx']

variable {o : SubmissionOutcome}

theorem Consistent.checkpointed (hc : Consistent d) (hcur : d.currentTempId = some c)
    (hne : next ≠ some c)
    (hdec : next.isSome → DecidedAs d c o) : Consistent (d.recordCheckpoint c o next) where
  sized := hc.sized
  nodup := hc.nodup
  quiet := hc.quiet
  bounded := hc.bounded
  started := hc.started
  remote := by
    intro x hx
    obtain ⟨dr, hdr, htarget⟩ := hc.remote x hx
    rw [getConst_recordCheckpoint d o hne, hdr]
    split
    · next hxc => subst hxc; rw [hdr]; exact ⟨_, rfl, htarget⟩
    · split
      · exact ⟨_, rfl, htarget⟩
      · exact ⟨dr, rfl, htarget⟩
  decided := hc.decided
  shaped := hc.shaped
  opens := by
    intro hsome i x dr' hx hn hd
    obtain ⟨j, r, -, -, hj, hr, -⟩ := hdec hsome
    rw [getConst_recordCheckpoint d o hne] at hd
    split at hd
    · next hxc =>
      subst hxc
      rw [hc.index_eq hx hj] at hn
      exact absurd (hr.symm.trans hn) (by simp)
    · split at hd
      · obtain ⟨dd, -, rfl⟩ := Option.map_eq_some_iff.mp hd
        simp
      · exact hc.opens (by rw [hcur]; rfl) i x dr' hx hn hd
  ledger := by
    intro n hnext i x r o' hle hx hr ho hxn
    have hsome : next.isSome := Option.isSome_iff_exists.mpr ⟨n, hnext⟩
    obtain ⟨j, r', -, -, hj, hr', ho'⟩ := hdec hsome
    rw [getConst_recordCheckpoint d o hne]
    by_cases hxc : x = c
    · subst hxc
      rw [hc.index_eq hx hj] at hr
      have hrr : r' = r := Option.some.inj (hr'.symm.trans hr)
      subst hrr
      rw [ho'] at ho
      cases ho
      obtain ⟨dr, hdr, -⟩ := hc.remote x (mem_participantIds hle hx)
      rw [if_pos rfl, hdr]
      exact ⟨_, rfl, rfl⟩
    · have hxn' : next ≠ some x := fun h => hxn (by rw [h] at hnext; exact Option.some.inj hnext)
      rw [if_neg hxc, if_neg hxn']
      exact hc.ledger c hcur i x r o' hle hx hr ho hxc
  changed := hc.changed

variable {items : List SubmissionRunItem} {n : TempId}

theorem comesAfter_ne_head (h : comesAfter items c n = true) :
    (items.map SubmissionRunItem.tempId).head? ≠ some n := by
  intro hhead
  cases items with
  | nil => cases hhead
  | cons item rest =>
    have hn : item.tempId = n := Option.some.inj hhead
    have hzero : submissionItemIndex (item :: rest) n = some 0 := by
      simp [submissionItemIndex, findIdx?_cons, hn]
    unfold comesAfter at h
    rw [hzero] at h
    split at h
    · next i j _ hj =>
      cases hj
      simp at h
    · cases h

theorem Backed.checkpointed (hb : Backed g d st) (hcur : d.currentTempId = some c)
    (hrun : st.Runs d.operationId d.key run) (h : st.Checkpointed d.key run c o next st') :
    Backed g' (d.recordCheckpoint c o next) st' := by
  obtain ⟨run', hrun', -, hids⟩ := hb.run
  have hsame : run' = run := Option.some.inj (hrun'.active.symm.trans hrun.active)
  subst hsame
  refine ⟨⟨_, ⟨h.active, hrun.operationId, hrun.key⟩, rfl, hids⟩, ?_, ?_, ?_⟩
  case refine_2 =>
    rw [h.active]
    rintro _ checkpoint ⟨⟩ ⟨⟩
  case refine_3 =>
    -- The next participant is never the first one.
    rintro n dr ⟨-, hcurrent, hhead⟩ -
    refine absurd ?_ (comesAfter_ne_head (h.next_after n hcurrent))
    rw [hids]
    exact hhead
  intro x hx
  obtain ⟨dx, ds, hdx, hds, hrel⟩ := hb.mirrors x hx
  unfold Mirrors
  rw [getConst_recordCheckpoint d o h.next_ne]
  by_cases hxc : x = c
  · -- Both copies take the outcome, whatever the first participant still showed.
    subst hxc
    refine ⟨dx.withState o.draftState, ds.withState o.draftState, by rw [if_pos rfl, hdx]; rfl, ?_,
      .inl ?_⟩
    · exact (h.rows d.key x).trans (by rw [if_pos ⟨rfl, rfl⟩, hds]; rfl)
    · rcases hrel with rfl | ⟨-, -, -, rfl⟩ <;> rfl
  · have heq : ds = dx := by
      rcases hrel with heq | ⟨⟨-, hfirst, -⟩, -⟩
      · exact heq
      · rw [hcur] at hfirst
        exact absurd (Option.some.inj hfirst).symm hxc
    subst heq
    by_cases hxn : next = some x
    · refine ⟨ds.withState .submitting, ds.withState .submitting, ?_, ?_, .inl rfl⟩
      · rw [if_neg hxc, if_pos hxn, hdx]; rfl
      · refine (h.rows d.key x).trans ?_
        rw [if_neg (fun hand => hxc hand.2), if_pos ⟨rfl, hxn.symm⟩, hds]
        rfl
    · refine ⟨ds, ds, ?_, ?_, .inl rfl⟩
      · rw [if_neg hxc, if_neg hxn, hdx]
      · refine (h.rows d.key x).trans ?_
        rw [if_neg (fun hand => hxc hand.2), if_neg (fun hand => hxn hand.2.symm), hds]

theorem inFlight_checkpointed {dn : Draft} (h : InFlight d.review d.machine n dn parent)
    (hne : n ≠ c) (hmem : c ∈ d.machine.order) :
    InFlight (d.recordCheckpoint c o (some n)).review d.machine n (dn.withState .submitting)
      parent := by
  have hne' : some n ≠ some c := fun he => hne (Option.some.inj he)
  refine inFlight_of_review h ?_ rfl rfl (by simp) ?_
  · rw [getConst_recordCheckpoint d o hne', if_neg hne, if_pos rfl, h.draft]
    rfl
  intro x hx
  have hxc : x ≠ c := fun he => hx (he ▸ hmem)
  have hxn : some n ≠ some x := fun he => hx (Option.some.inj he ▸ mem_of_getElem? h.at_idx)
  rw [getConst_recordCheckpoint d o hne', if_neg hxc, if_neg hxn]

/-! ## Store writes under a standing Submission -/

/-- A store that differs only in faults, rows or the current participant's retry checkpoint. -/
theorem Stored.of_sound (h : Stored p st) (hs : st'.Sound)
    (hretry : ∀ run checkpoint, st'.activeRun = some run → run.retry = some checkpoint →
      ValidRetry checkpoint)
    (hfaults : (st'.failNextCheckpoint = true → st.failNextCheckpoint = true) ∧
      (st'.failNextCompletion = true → st.failNextCompletion = true)) : Stored p st' where
  sound := hs
  retries := hretry
  willing := by
    rcases h.willing with hr | ⟨h₁, h₂⟩
    · exact .inl hr
    refine .inr ⟨?_, ?_⟩
    · cases hf : st'.failNextCheckpoint with
      | false => rfl
      | true => rw [hfaults.1 hf] at h₁; cases h₁
    · cases hf : st'.failNextCompletion with
      | false => rfl
      | true => rw [hfaults.2 hf] at h₂; cases h₂

theorem Stored.spentCheckpoint (h : Stored p st) : Stored p st.spentCheckpoint :=
  h.of_sound h.sound.spentCheckpoint h.retries ⟨fun hf => (by cases hf), id⟩

theorem Stored.spentCompletion (h : Stored p st) : Stored p st.spentCompletion :=
  h.of_sound h.sound.spentCompletion h.retries ⟨id, fun hf => (by cases hf)⟩

theorem Stored.idle (h : Stored p st) (hs : st'.Sound) (hidle : st'.activeRun = none)
    (hfaults : st'.failNextCheckpoint = st.failNextCheckpoint ∧
      st'.failNextCompletion = st.failNextCompletion) : Stored p st' := by
  refine h.of_sound hs ?_ ⟨by rw [hfaults.1]; exact id, by rw [hfaults.2]; exact id⟩
  rw [hidle]
  rintro run checkpoint ⟨⟩

theorem Backed.spentCheckpoint (h : Backed g d st) : Backed g d st.spentCheckpoint := h.of_rows rfl rfl

theorem Backed.spentCompletion (h : Backed g d st) : Backed g d st.spentCompletion := h.of_rows rfl rfl

/-- A Submission with a current participant finds it submitting in the store. -/
theorem Backed.submitting (h : Backed g d st) (hs : Stored p st) (hcur : d.currentTempId = some c) :
    ∃ ds, st.draftEntry d.key c = some ds ∧ ds.state = .submitting := by
  obtain ⟨run, hrun, hc, -⟩ := h.run
  obtain ⟨-, ds, hds, hsub⟩ := hs.sound.current run c hrun.active (hc.trans hcur)
  exact ⟨ds, hrun.key ▸ hds, hsub⟩

variable {result : Except StoreError Unit}

/-- Writing a retry checkpoint: refused only if that is permitted, else recorded. -/
theorem checkpointRetry_written (hs : Stored p st) (hb : Backed g d st)
    (hcur : d.currentTempId = some t) {checkpoint : SubmissionRetryCheckpoint}
    (hv : ValidRetry checkpoint) (hw : Definite checkpoint → d.machine.mustWait = true)
    (h : st.checkpointSubmissionRetry d.operationId d.key t checkpoint = (result, st')) :
    Stored p st' ∧ Backed g d st' ∧ st'.nextOperationId = st.nextOperationId ∧
      st'.draftEntry = st.draftEntry ∧ (∀ err, result = .error err → p.refuses) ∧
      (result = .ok () → ∀ run, st'.activeRun = some run → run.retry = some checkpoint) := by
  obtain ⟨run, hrun, hc, hids⟩ := hb.run
  cases result with
  | error err =>
    have hst' := checkpointSubmissionRetry_error h
    subst hst'
    refine ⟨hs.spentCheckpoint, hb.spentCheckpoint, rfl, rfl, ?_, by rintro ⟨⟩⟩
    intro _ _
    rcases hs.willing with hr | ⟨harm, -⟩
    · exact hr
    · have := checkpointSubmissionRetry_accepts harm hrun (hc.trans hcur) hv.delay
      rw [h] at this
      cases this
  | ok u =>
    obtain ⟨run', hrun', -, hst'⟩ := checkpointSubmissionRetry_ok h
    have hsame : run' = run := Option.some.inj (hrun'.active.symm.trans hrun.active)
    subst hsame
    subst hst'
    refine ⟨?_, ?_, rfl, rfl, by rintro _ ⟨⟩, ?_⟩
    · refine hs.of_sound ?_ ?_ ⟨id, id⟩
      · exact hs.sound.congr rfl rfl (.inr ⟨run', some checkpoint, hrun.active, rfl⟩)
      · rintro _ cp ⟨⟩ hcp
        cases hcp
        exact hv
    · exact hb.retried hrun.active rfl rfl hw
    · rintro - _ ⟨⟩
      rfl

theorem comesAfter_of_index {j : Nat} {a b : TempId}
    (hnodup : (items.map SubmissionRunItem.tempId).Nodup)
    (ha : (items.map SubmissionRunItem.tempId)[i]? = some a)
    (hb : (items.map SubmissionRunItem.tempId)[j]? = some b) (hlt : i < j) :
    comesAfter items a b = true := by
  have hindex : ∀ {k : Nat} {x : TempId}, (items.map SubmissionRunItem.tempId)[k]? = some x →
      submissionItemIndex items x = some k := by
    intro k x hk
    rw [getElem?_map, Option.map_eq_some_iff] at hk
    obtain ⟨item, hitem, hx⟩ := hk
    rw [submissionItemIndex, findIdx?_eq_some_iff_getElem]
    obtain ⟨hlen, hget⟩ := List.getElem?_eq_some_iff.mp hitem
    refine ⟨hlen, by simp [hget, hx], ?_⟩
    intro l hl
    have hne : items[l].tempId ≠ x := by
      intro heq
      have hk' : (items.map SubmissionRunItem.tempId)[l]? =
          (items.map SubmissionRunItem.tempId)[k]? := by
        simp [hitem, hx, heq, show l < items.length by omega]
      have := (getElem?_inj (by simp; omega) hnodup).mp hk'
      omega
    simpa using hne
  simp [comesAfter, hindex ha, hindex hb, hlt]

/-- Checkpointing a decided participant with another one next, or none. -/
theorem checkpoint_written (g' : Memory) (hs : Stored p st) (hb : Backed g d st) (hc : Consistent d)
    (hcur : d.currentTempId = some c) (hnext : ∀ n, next = some n → DecidedAs d c o ∧
      ∃ dn parent, InFlight d.review d.machine n dn parent)
    (h : st.checkpointSubmission d.operationId d.key c o next = (result, st')) :
    Stored p st' ∧ st'.nextOperationId = st.nextOperationId ∧
      (∀ err, result = .error err → p.refuses ∧ Backed g d st' ∧ st' = st.spentCheckpoint) ∧
      (result = .ok () → Backed g' (d.recordCheckpoint c o next) st' ∧
        Consistent (d.recordCheckpoint c o next) ∧
        ∃ run, st.Checkpointed d.key run c o next st') := by
  obtain ⟨run, hrun, hrc, hids⟩ := hb.run
  have hlater : ∀ n, next = some n → n ≠ c ∧ comesAfter run.items.items c n = true := by
    intro n hn
    obtain ⟨⟨i, r, hle, hlt, hi, hr, -⟩, dn, parent', hfl⟩ := hnext n hn
    have hne : n ≠ c := by
      rintro rfl
      have := hc.index_eq hi hfl.at_idx
      omega
    refine ⟨hne, comesAfter_of_index run.items.distinct ?_ ?_
      (show i - d.runStart < d.machine.idx - d.runStart by omega)⟩
    · rw [hids, participantIds, getElem?_drop, ← hi]
      congr 1
      omega
    · rw [hids, participantIds, getElem?_drop, ← hfl.at_idx]
      congr 1
      omega
  have hne : next ≠ some c := by
    intro he
    exact (hlater c he).1 rfl
  cases result with
  | error err =>
    have hst' := checkpointSubmission_error h
    subst hst'
    refine ⟨hs.spentCheckpoint, rfl, ?_, by rintro ⟨⟩⟩
    intro _ _
    refine ⟨?_, hb.spentCheckpoint, rfl⟩
    rcases hs.willing with hr | ⟨harm, -⟩
    · exact hr
    have := checkpointSubmission_accepts harm hrun (hrc.trans hcur) o
      (hb.submitting hs hcur) hne (fun n hn => (hlater n hn).2) ?_
    · rw [h] at this
      cases this
    · -- The next participant is remote, open and not the one in flight, so it is pending.
      intro n hn
      obtain ⟨-, dn, parent', hfl⟩ := hnext n hn
      have hmem := mem_participantIds hc.started hfl.at_idx
      obtain ⟨dr, ds, hdr, hds, hrel⟩ := hb.mirrors n hmem
      have hdn : dr = dn := Option.some.inj (hdr.symm.trans hfl.draft)
      subst hdn
      have heq : ds = dr := by
        rcases hrel with heq | ⟨⟨-, hfirst, -⟩, -⟩
        · exact heq
        · rw [hcur] at hfirst
          exact absurd (Option.some.inj hfirst).symm (hlater n hn).1
      subst heq
      obtain ⟨dr', hdr', htarget⟩ := hc.remote n hmem
      rw [hdr] at hdr'
      cases hdr'
      refine ⟨ds, hds, htarget, ?_⟩
      have hunknown := hc.opens (by rw [hcur]; rfl) _ n ds hfl.at_idx hfl.undecided hdr
      cases hstate : ds.state with
      | draft => rfl
      | failed reason => rfl
      | posted id => exact absurd hstate (hfl.unposted id)
      | outcomeUnknown => exact absurd hstate hunknown
      | submitting =>
        obtain ⟨run', hrun', -, ht⟩ := hs.sound.submitting d.key n ds hds hstate
        rw [hrun.active] at hrun'
        cases hrun'
        rw [hrc, hcur] at ht
        exact absurd (Option.some.inj ht).symm (hlater n hn).1
  | ok u =>
    obtain ⟨run', hrun', hcp⟩ := checkpointSubmission_ok h
    have hsame : run' = run := Option.some.inj (hrun'.active.symm.trans hrun.active)
    subst hsame
    refine ⟨?_, hcp.operations, by rintro _ ⟨⟩, fun _ => ⟨?_, ?_, run', hcp⟩⟩
    · refine hs.of_sound (hs.sound.checkpointed hrun hcp) ?_
        ⟨by rw [hcp.faults.1]; exact id, by rw [hcp.faults.2]; exact id⟩
      rw [hcp.active]
      rintro _ cp ⟨⟩ hcp'
      cases hcp'
    · exact hb.checkpointed hcur hrun hcp
    · refine hc.checkpointed hcur hne ?_
      intro hsome
      obtain ⟨n, hn⟩ := Option.isSome_iff_exists.mp hsome
      exact (hnext n hn).1

variable {completion : SubmissionCompletion}

/-- Completing the run: refused only if that is permitted, else it is over. -/
theorem completion_written (hs : Stored p st) (hb : Backed g d st)
    (haccept : ∀ run, st.Runs d.operationId d.key run → run.currentTempId = d.currentTempId →
      st.Completable d.key run completion)
    (h : st.completeSubmission d.operationId d.key completion = (result, st')) :
    Stored p st' ∧ st'.nextOperationId = st.nextOperationId ∧
      (∀ err, result = .error err → p.refuses ∧ Backed g d st' ∧ st' = st.spentCompletion) ∧
      (result = .ok () → st'.activeRun = none ∧ ∃ run, st.Runs d.operationId d.key run ∧
        st.CompletesAs d.key run st' completion) := by
  obtain ⟨run, hrun, hrc, hids⟩ := hb.run
  cases result with
  | error err =>
    have hst' := completeSubmission_error h
    subst hst'
    refine ⟨hs.spentCompletion, rfl, ?_, by rintro ⟨⟩⟩
    intro _ _
    refine ⟨?_, hb.spentCompletion, rfl⟩
    rcases hs.willing with hr | ⟨-, harm⟩
    · exact hr
    · have := completeSubmission_accepts harm hrun (haccept run hrun hrc)
      rw [h] at this
      cases this
  | ok u =>
    obtain ⟨run', hrun', hdone, heff⟩ := completeSubmission_ok h
    refine ⟨?_, hdone.operations, by rintro _ ⟨⟩, fun _ => ⟨hdone.idle, run', hrun', heff⟩⟩
    exact hs.idle (hs.sound.completedAs hrun' hdone heff) hdone.idle hdone.faults

/-! ## Owed writes -/

/-- A Submission that still owes the store the outcome of a decided participant. -/
structure Persisting (g : Memory) (d : DurableSubmission) (st : InMemoryStore)
    (pending : PendingPersistence) : Prop where
  consistent : Consistent d
  backed : Backed g d st
  phase : d.phase = .persistencePaused
  owed : d.pendingPersistence = some pending
  owes : Owes d pending
  retry : OwedRetry pending
  unchanged : d.sourceChanged = false
  admission : d.pendingAdmission = none

variable {pending : PendingPersistence}

theorem Persisting.serves (h : Persisting g d st pending)
    (hr : p.refuses) (hl : g.left d.machine.answersLeft) : Serves p g d st [] [] where
  consistent := h.consistent
  backed := h.backed
  admission := by rw [h.admission]; rintro ⟨⟩
  persistence := fun _ => h.phase
  standing := by
    rw [Standing, h.phase]
    exact ⟨hr, pending, h.owed, h.owes, h.retry, h.unchanged, rfl, rfl⟩
  left := by simpa [effectsLeft, h.phase] using hl

theorem Persisting.remember (h : Persisting g d st pending)
    (hi : ∀ was, g.intent was → g'.intent was) : Persisting g' d st pending :=
  { h with backed := h.backed.remember hi }

theorem Owes.congr (h : Owes d pending) (pending' : PendingPersistence)
    (ht : pending'.transition = pending.transition) (ho : pending'.outcome = pending.outcome)
    (hn : pending'.next = pending.next) (hc : pending'.completion = pending.completion)
    (hd : pending'.checkpointDone = pending.checkpointDone)
    (hr : pending'.retryCheckpoint = pending.retryCheckpoint) (phase : SubmissionPhase) :
    Owes { d with phase := phase, pendingPersistence := some pending' } pending' := by
  cases h with
  | next c o t dr parent transition outcome next completion todo current decided flight unaborted
      fresh =>
    exact .next c o t dr parent (by rw [ht]; exact transition) (ho.trans outcome) (hn.trans next)
      (hc.trans completion) (hd.trans todo) current decided flight unaborted fresh
  | last c o transition outcome next completion member current passed unaborted clean posted =>
    refine .last c o (by rw [ht]; exact transition) (ho.trans outcome) (hn.trans next)
      (hc.trans completion) member ?_ passed unaborted clean ?_
    · rw [hd]; exact current
    · rw [hd]; exact posted
  | restored c dr restored transition outcome next completion current shown state checkpoint =>
    exact .restored c dr restored (by rw [ht]; exact transition) (ho.trans outcome)
      (hn.trans next) (hc.trans completion) current shown state (hr.trans checkpoint)

/-- Until its outcome is stored, the decided participant is the current one. -/
theorem Owes.current (h : Owes d pending) (htodo : pending.checkpointDone = false) :
    d.currentTempId = some pending.transition.tempId := by
  cases h with
  | next c o t dr parent transition _ _ _ _ current => rw [transition]; exact current
  | last c o transition _ _ _ _ current =>
    rw [transition, current, htodo]
    rfl
  | restored c dr restored transition _ _ _ current => rw [transition]; exact current

theorem Persisting.recorded {pending' : PendingPersistence} (h : Persisting g d st pending)
    (howes : Owes (d.owing pending') pending') (hretry : OwedRetry pending') :
    Persisting g (d.owing pending') st pending' where
  consistent := h.consistent.core rfl
  backed := h.backed.core rfl
  phase := h.phase
  owed := rfl
  owes := howes
  retry := hretry
  unchanged := h.unchanged
  admission := h.admission

theorem persistRetryCheckpoint_written (hs : Stored p st)
    (h : Persisting g d st pending) {result : Except DriverError PendingPersistence}
    (hres : d.persistRetryCheckpoint st pending = (result, st')) :
    Stored p st' ∧ st'.nextOperationId = st.nextOperationId ∧ st'.draftEntry = st.draftEntry ∧
      Persisting g d st' pending ∧ (∀ err, result = .error err → p.refuses) ∧
      (∀ pending', result = .ok pending' → Persisting g (d.owing pending') st' pending' ∧
        pending'.next = pending.next ∧
        (pending'.retryCheckpoint.isSome → pending'.retryCheckpointDone = true)) := by
  have hkeep : Persisting g (d.owing pending) st pending :=
    h.recorded (h.owes.congr pending rfl rfl rfl rfl rfl rfl d.phase) h.retry
  unfold persistRetryCheckpoint at hres
  split at hres
  · next hnone =>
    cases hres
    refine ⟨hs, rfl, rfl, h, by rintro _ ⟨⟩, ?_⟩
    rintro _ ⟨⟩
    exact ⟨hkeep, rfl, by rw [hnone]; rintro ⟨⟩⟩
  · next checkpoint hcp =>
    split at hres
    · next hdone =>
      cases hres
      refine ⟨hs, rfl, rfl, h, by rintro _ ⟨⟩, ?_⟩
      rintro _ ⟨⟩
      exact ⟨hkeep, rfl, fun _ => hdone⟩
    · next hnot =>
      have htodo : pending.checkpointDone = false := by
        cases hd : pending.checkpointDone with
        | false => rfl
        | true => exact absurd (h.retry.first hd (by rw [hcp]; rfl)) hnot
      have hcur := h.owes.current htodo
      have hdef : Definite checkpoint → d.machine.mustWait = true := by
        rintro ⟨-, hwait⟩
        rw [(h.retry.valid checkpoint hcp).2.2] at hwait
        cases hwait
      split at hres
      · next err st₁ hw =>
        cases hres
        obtain ⟨hs', hb', hop, hrows, href, -⟩ := checkpointRetry_written hs h.backed hcur
          (h.retry.valid checkpoint hcp).1 hdef hw
        exact ⟨hs', hop, hrows, { h with backed := hb' }, fun _ _ => href err rfl, by rintro _ ⟨⟩⟩
      · next st₁ hw =>
        cases hres
        obtain ⟨hs', hb', hop, hrows, -, -⟩ := checkpointRetry_written hs h.backed hcur
          (h.retry.valid checkpoint hcp).1 hdef hw
        have h' : Persisting g d st' pending := { h with backed := hb' }
        refine ⟨hs', hop, hrows, h', by rintro _ ⟨⟩, ?_⟩
        rintro _ ⟨⟩
        refine ⟨h'.recorded (h.owes.congr { pending with retryCheckpointDone := true } rfl rfl rfl rfl rfl rfl
          d.phase) ?_, rfl, fun _ => rfl⟩
        exact ⟨h.retry.valid, fun _ _ => rfl⟩

/-- The outcome is stored and the next participant is submitting: its POST may go out. -/
structure Handed (g : Memory) (d d' : DurableSubmission) (st st' : InMemoryStore) (n : TempId)
    (parent : Option CommentId) : Prop where
  consistent : Consistent d'
  backed : Backed g d' st'
  atPost : ∃ dn, d.review.getConst n = some dn ∧ AtPost d' n (dn.withState .submitting) parent
  pending : ∃ ds, st.draftEntry d.key n = some ds ∧ ds.state.isPending = true

theorem Persisting.checkpointed (h : Persisting g d st pending) (g' : Memory) (hs : Stored p st)
    (hnext : pending.next = some ⟨n, parent, false⟩) (ho : pending.outcome = some o)
    (hres : st.checkpointSubmission d.operationId d.key pending.transition.tempId o (some n) =
      (result, st')) :
    Stored p st' ∧ st'.nextOperationId = st.nextOperationId ∧
      (∀ err, result = .error err → p.refuses ∧ Persisting g d st' pending) ∧
      (result = .ok () → pending.completion = none ∧
        Handed g' d (d.recordCheckpoint pending.transition.tempId o (some n)) st st' n parent) := by
  cases h.owes with
  | last c o' transition outcome next _ _ _ _ _ _ _ => rw [hnext] at next; cases next
  | restored c dr' restored transition outcome next _ _ _ _ _ => rw [hnext] at next; cases next
  | next c o' t dn parent' transition outcome next completion todo current decided flight unaborted
      fresh =>
    rw [hnext] at next
    cases next
    rw [ho] at outcome
    cases outcome
    subst transition
    obtain ⟨hs', hop, herr, hok⟩ := checkpoint_written g' hs h.backed h.consistent current
      (fun m hm => by cases hm; exact ⟨decided, dn, parent, flight⟩) hres
    refine ⟨hs', hop, ?_, ?_⟩
    · intro err he
      obtain ⟨hr, hb', -⟩ := herr err he
      exact ⟨hr, { h with backed := hb' }⟩
    intro he
    obtain ⟨hb', hc', run, hcp⟩ := hok he
    obtain ⟨i, r, hle, hlt, hi, -⟩ := decided
    have hne : n ≠ pending.transition.tempId := fun heq => hcp.next_ne (congrArg some heq)
    obtain ⟨ds, hds, -, hpend⟩ := hcp.next_pending n rfl
    refine ⟨completion, hc', hb', ⟨dn, flight.draft, ?_⟩, ds, hds, hpend⟩
    exact
      { current := rfl
        flight := inFlight_checkpointed flight hne (mem_of_getElem? hi)
        unaborted := unaborted
        ready := fresh.1
        clear := (fresh.2 _ (Nat.le_refl _)).2.2
        unchanged := h.unchanged }

/-- A participant that is posted according to the copy is posted in the store. -/
theorem Backed.notClean (hb : Backed g d st) (hcur : d.currentTempId = none)
    (hrun : st.Runs d.operationId d.key run)
    (hposted : ∀ t ∈ participantIds d, ∃ dr id, d.review.getConst t = some dr ∧
      dr.state = .posted id) : st.notClean run = false := by
  obtain ⟨run', hrun', -, hids⟩ := hb.run
  have hsame : run' = run := Option.some.inj (hrun'.active.symm.trans hrun.active)
  subst hsame
  rw [notClean, any_eq_false]
  intro item hitem
  have hmem : item.tempId ∈ participantIds d := hids ▸ mem_map_of_mem hitem
  obtain ⟨dr, id, hdr, hstate⟩ := hposted item.tempId hmem
  obtain ⟨dr', ds, hdr', hds, hrel⟩ := hb.mirrors item.tempId hmem
  rw [hdr] at hdr'
  cases hdr'
  have heq : ds = dr := by
    rcases hrel with heq | ⟨⟨-, hfirst, -⟩, -⟩
    · exact heq
    · rw [hcur] at hfirst
      cases hfirst
  subst heq
  rw [hrun.key, hds]
  simp [hstate]

theorem clean_posted (hc : Consistent d) (hover : d.machine.order.length ≤ d.machine.idx)
    (hclean : d.machine.isClean = true) (hle : d.runStart ≤ i) (ht : d.machine.order[i]? = some t) :
    ∃ r id, d.machine.result i = some r ∧ Presentation.resultOutcome r = some (.posted id) := by
  have hlen : i < d.machine.order.length := (List.getElem?_eq_some_iff.mp ht).1
  have hsome := hc.decided i hle (by omega) hlen
  obtain ⟨r, hr⟩ := Option.isSome_iff_exists.mp hsome
  have hmem : r ∈ d.machine.results.filterMap id := by
    rw [mem_filterMap]
    refine ⟨some r, ?_, rfl⟩
    have hlen' : i < d.machine.results.length := by rw [hc.sized.results]; exact hlen
    have hget : d.machine.results.getD i none = some r := hr
    rw [getD_eq_getElem?_getD, getElem?_eq_getElem hlen', Option.getD_some] at hget
    rw [← hget]
    exact getElem_mem hlen'
  simp only [isClean, Bool.and_eq_true, all_eq_true, decide_eq_true_eq] at hclean
  have hposted := hclean.2 r hmem
  obtain ⟨id, hid⟩ := Option.isSome_iff_exists.mp (hc.shaped i r hr hposted)
  refine ⟨r, id, hr, ?_⟩
  simp [Presentation.resultOutcome, hposted, hid]

theorem Persisting.ended (h : Persisting g d st pending)
    (g' : Memory) (hs : Stored p st) (hnext : pending.next = none)
    (ho : pending.outcome = some o) (htodo : pending.checkpointDone = false)
    (hdone : pending.retryCheckpoint.isSome → pending.retryCheckpointDone = true)
    (hres : st.checkpointSubmission d.operationId d.key pending.transition.tempId o none =
      (result, st')) :
    Stored p st' ∧ st'.nextOperationId = st.nextOperationId ∧
      (∀ err, result = .error err → p.refuses ∧ Persisting g d st' pending) ∧
      (result = .ok () → Persisting g' ((d.recordCheckpoint pending.transition.tempId o none).owing
          { pending with checkpointDone := true }) st' { pending with checkpointDone := true }) := by
  cases h.owes with
  | next c o' t dn parent' transition outcome next _ _ _ _ _ _ _ =>
    rw [hnext] at next
    cases next
  | restored c dr' restored transition outcome next _ _ _ _ _ => rw [ho] at outcome; cases outcome
  | last c o' transition outcome next completion member current passed unaborted clean posted =>
    rw [ho] at outcome
    cases outcome
    rw [htodo] at current
    have hcur : d.currentTempId = some c := current
    subst transition
    obtain ⟨hs', hop, herr, hok⟩ := checkpoint_written g' hs h.backed h.consistent hcur
      (fun m hm => by cases hm) hres
    refine ⟨hs', hop, ?_, ?_⟩
    · intro err he
      obtain ⟨hr, hb', -⟩ := herr err he
      exact ⟨hr, { h with backed := hb' }⟩
    intro he
    obtain ⟨hb', hc', run, hcp⟩ := hok he
    refine
      { consistent := hc'.core rfl
        backed := hb'.core rfl
        phase := h.phase
        owed := rfl
        owes := ?_
        retry := ⟨h.retry.valid, fun _ => hdone⟩
        unchanged := h.unchanged
        admission := h.admission }
    · refine .last pending.transition.tempId o rfl ho hnext completion member rfl passed unaborted
        clean ?_
      -- All results are posted, and the copy shows them: by the ledger, or as just recorded.
      rintro - hclean x hx
      obtain ⟨i, hle, hi⟩ := exists_index hx
      obtain ⟨r, id, hr, hro⟩ := clean_posted h.consistent passed hclean hle hi
      obtain ⟨dx, hdx, -⟩ := h.consistent.remote x hx
      have hget := getConst_recordCheckpoint d o hcp.next_ne x
      by_cases hxc : x = pending.transition.tempId
      · obtain ⟨id', rfl⟩ := clean hclean
        have hdc : d.review.getConst pending.transition.tempId = some dx := hxc ▸ hdx
        rw [if_pos hxc, hdc] at hget
        exact ⟨dx.withState (.posted id'), id', hget, rfl⟩
      · obtain ⟨dr', hdr', hstate⟩ := h.consistent.ledger _ hcur i x r _ hle hi hr hro hxc
        rw [if_neg hxc, if_neg (by simp), hdr'] at hget
        exact ⟨dr', id, hget, hstate⟩

/-- The store takes the completion of a run whose outcomes are all written. -/
theorem Persisting.completable (hs : Stored p st) (h : Persisting g d st pending)
    (hk : pending.completion = some completion)
    (hdone : pending.outcome.isSome → pending.checkpointDone = true) :
    ∀ run, st.Runs d.operationId d.key run → run.currentTempId = d.currentTempId →
      st.Completable d.key run completion := by
  intro run hrun hrc
  cases h.owes with
  | next c o t dn parent transition outcome next completion' todo current decided flight unaborted
      fresh =>
    rw [hk] at completion'
    cases completion'
  | last c o transition outcome next completion' member current passed unaborted clean posted =>
    rw [hk] at completion'
    cases completion'
    have hd := hdone (by rw [outcome]; rfl)
    rw [hd] at current
    have hcur : d.currentTempId = none := current
    unfold runCompletion
    split
    · next hclean => exact ⟨hrc.trans hcur, h.backed.notClean hcur hrun (posted hd hclean)⟩
    · exact hrc.trans hcur
  | restored c dr restored transition outcome next completion' current shown state checkpoint =>
    rw [hk] at completion'
    cases completion'
    obtain ⟨ds, hds, hsub⟩ := h.backed.submitting hs current
    exact ⟨c, ds, hrc.trans current, hds, hsub⟩

theorem nextCommand_ok (h : Owes d pending) :
    (pending.next = none ∧ d.nextCommand pending = .ok none ∧ pending.completion.isSome) ∨
      ∃ n parent dn o, pending.next = some ⟨n, parent, false⟩ ∧ d.review.getConst n = some dn ∧
        pending.outcome = some o ∧ pending.checkpointDone = false ∧
        d.nextCommand pending = .ok (some (d.postCommand dn ⟨n, parent, false⟩)) := by
  cases h with
  | next c o t dn parent transition outcome next completion todo current decided flight _ _ =>
    refine .inr ⟨t, parent, dn, o, next, flight.draft, outcome, todo, ?_⟩
    simp only [nextCommand, next, flight.draft]
  | last c o transition outcome next completion _ _ _ _ _ _ =>
    exact .inl ⟨next, by simp only [nextCommand, next], by rw [completion]; rfl⟩
  | restored c dr restored transition outcome next completion _ _ _ _ =>
    exact .inl ⟨next, by simp only [nextCommand, next], by rw [completion]; rfl⟩

theorem Published.pausing {err : DriverError} (hs : Stored p st')
    (hop : st'.nextOperationId = st.nextOperationId)
    (hd : d'.operationId = d.operationId ∧ d'.key = d.key) (h : Serves p g d' st' [] []) :
    Published p g d st (.error err, d', st') where
  stored := hs
  operations := hop
  paused := fun _ _ => h
  next := by rintro _ _ ⟨⟩
  check := by rintro _ ⟨⟩
  wait := by rintro _ ⟨⟩
  finished := by rintro _ _ ⟨⟩
  same := hd

theorem Published.of_same {done : Except DriverError AfterPost × DurableSubmission × InMemoryStore}
    (h : Published p g d st done) (hop : d.operationId = d'.operationId) (hk : d.key = d'.key) :
    Published p g d' st done :=
  { h with same := ⟨h.same.1.trans hop, h.same.2.trans hk⟩ }

theorem persistCompletion_published (hs : Stored p st')
    (h : Persisting g d' st' pending) (hop : st'.nextOperationId = st.nextOperationId)
    (hd : d'.operationId = d.operationId ∧ d'.key = d.key) (hk : pending.completion.isSome)
    (hdone : pending.outcome.isSome → pending.checkpointDone = true)
    (hi : ∀ was, g.intent was → g'.intent was) (hl : g'.left d'.machine.answersLeft)
    (command : Option PostDraft) :
    Published p g' d st (d'.persistCompletion st' pending command) := by
  obtain ⟨completion, hk⟩ := Option.isSome_iff_exists.mp hk
  simp only [persistCompletion, hk]
  generalize hw : st'.completeSubmission d'.operationId d'.key completion = out
  obtain ⟨result, st₂⟩ := out
  obtain ⟨hs₂, hop₂, herr, hok⟩ := completion_written hs h.backed (h.completable hs hk hdone) hw
  cases result with
  | error err =>
    obtain ⟨hr, hb₂, -⟩ := herr err rfl
    have h₂ : Persisting g d' st₂ pending := { h with backed := hb₂ }
    exact .pausing hs₂ (hop₂.trans hop) hd ((h₂.remember hi).serves hr hl)
  | ok u =>
    exact
      { stored := hs₂
        operations := hop₂.trans hop
        paused := by rintro _ ⟨⟩
        next := by rintro _ _ ⟨⟩
        check := by rintro _ ⟨⟩
        wait := by rintro _ ⟨⟩
        finished := fun _ _ _ => (hok rfl).1
        same := hd }

theorem persistOutcome_none (ho : pending.outcome = none) :
    d.persistOutcome st pending = (.ok pending, d, st) := by
  simp only [persistOutcome, ho]

theorem persistOutcome_done (hdone : pending.checkpointDone = true) :
    d.persistOutcome st pending = (.ok pending, d, st) := by
  unfold persistOutcome
  split
  · rfl
  · rw [if_pos hdone]

theorem persistOutcome_error
    {err : StoreError} (ho : pending.outcome = some o) (htodo : pending.checkpointDone = false)
    (hw : st.checkpointSubmission d.operationId d.key pending.transition.tempId o
      (pending.next.map PostStep.tempId) = (.error err, st')) :
    d.persistOutcome st pending = (.error (.store err), d, st') := by
  simp only [persistOutcome, ho, htodo, Bool.false_eq_true, if_false, hw]

theorem persistOutcome_ok (ho : pending.outcome = some o) (htodo : pending.checkpointDone = false)
    (hw : st.checkpointSubmission d.operationId d.key pending.transition.tempId o
      (pending.next.map PostStep.tempId) = (.ok (), st')) :
    d.persistOutcome st pending = (.ok { pending with checkpointDone := true },
      d.recordCheckpoint pending.transition.tempId o (pending.next.map PostStep.tempId), st') := by
  simp only [persistOutcome, ho, htodo, Bool.false_eq_true, if_false, hw]

/-- What the outcome's write leaves at the end of a run. -/
theorem persistOutcome_written (hs : Stored p st) (h : Persisting g (d.owing pending) st pending)
    (hnext : pending.next = none)
    (hretried : pending.retryCheckpoint.isSome → pending.retryCheckpointDone = true)
    {result : Except DriverError PendingPersistence}
    (hres : (d.owing pending).persistOutcome st pending = (result, d', st')) :
    Stored p st' ∧ st'.nextOperationId = st.nextOperationId ∧
      (d'.operationId = d.operationId ∧ d'.key = d.key) ∧
      d'.machine.answersLeft = d.machine.answersLeft ∧
      (∀ err, result = .error err → p.refuses ∧ Persisting g d' st' pending) ∧
      (∀ pending', result = .ok pending' → Persisting g (d'.owing pending') st' pending' ∧
        pending'.completion = pending.completion ∧
        (pending'.outcome.isSome → pending'.checkpointDone = true)) := by
  cases ho : pending.outcome with
  | none =>
    rw [persistOutcome_none ho] at hres
    cases hres
    refine ⟨hs, rfl, ⟨rfl, rfl⟩, rfl, by rintro _ ⟨⟩, ?_⟩
    rintro _ ⟨⟩
    exact ⟨h, rfl, by rw [ho]; rintro ⟨⟩⟩
  | some o =>
    by_cases hdone : pending.checkpointDone = true
    · rw [persistOutcome_done hdone] at hres
      cases hres
      refine ⟨hs, rfl, ⟨rfl, rfl⟩, rfl, by rintro _ ⟨⟩, ?_⟩
      rintro _ ⟨⟩
      exact ⟨h, rfl, fun _ => hdone⟩
    have htodo : pending.checkpointDone = false := by simpa using hdone
    rcases hw : st.checkpointSubmission d.operationId d.key pending.transition.tempId o none
      with ⟨r, st₁⟩
    obtain ⟨hs₁, hop, herr, hok⟩ := h.ended g hs hnext ho htodo hretried hw
    have hmap : pending.next.map PostStep.tempId = none := by rw [hnext]; rfl
    rw [← hmap] at hw
    cases r with
    | error err =>
      rw [persistOutcome_error (d := d.owing pending) ho htodo hw] at hres
      cases hres
      exact ⟨hs₁, hop, ⟨rfl, rfl⟩, rfl, fun _ _ => herr err rfl, by rintro _ ⟨⟩⟩
    | ok u =>
      rw [persistOutcome_ok (d := d.owing pending) ho htodo hw, hmap] at hres
      cases hres
      refine ⟨hs₁, hop, ⟨rfl, rfl⟩, rfl, by rintro _ ⟨⟩, ?_⟩
      rintro _ ⟨⟩
      exact ⟨hok rfl, rfl, fun _ => rfl⟩

/-- Retrying the owed writes ends the run, queues the next POST or pauses again. -/
theorem retryPersistence_published (hs : Stored p st)
    (h : Persisting g d st pending) (hl : g'.left d.machine.answersLeft)
    (hi : ∀ was, g.intent was → g'.intent was)
    (hpend : ∀ key t ds, st.draftEntry key t = some ds → ds.state.isPending = true →
      g'.cold key t) : Published p g' d st (d.retryPersistence st) := by
  have hadm := h.admission
  simp only [retryPersistence, h.owed]
  generalize hw₁ : d.persistRetryCheckpoint st pending = out₁
  obtain ⟨r₁, st₁⟩ := out₁
  obtain ⟨hs₁, hop₁, hrows₁, h₁, href₁, hok₁⟩ := persistRetryCheckpoint_written hs h hw₁
  have hpause₁ : ∀ err, r₁ = .error err → Published p g' d st (.error err, d, st₁) := by
    intro err he
    exact .pausing hs₁ hop₁ ⟨rfl, rfl⟩ ((h₁.remember hi).serves (href₁ err he) hl)
  rcases nextCommand_ok h.owes with ⟨hnext, hcmd, hk⟩ | ⟨n, parent, dn, o, hnext, hdn, ho, htodo, hcmd⟩
  · -- The run ends.
    simp only [hcmd]
    cases r₁ with
    | error err => exact hpause₁ err rfl
    | ok pending₁ =>
      obtain ⟨h₁', hnext₁, hdone₁⟩ := hok₁ pending₁ rfl
      rw [hnext] at hnext₁
      have hk₁ : pending₁.completion.isSome := by
        rcases nextCommand_ok h₁'.owes with ⟨-, -, hk₁⟩ | ⟨_, _, _, _, hn, -⟩
        · exact hk₁
        · rw [hnext₁] at hn; cases hn
      rcases hw₂ : (d.owing pending₁).persistOutcome st₁ pending₁ with ⟨r₂, d₂, st₂⟩
      simp only [hw₂]
      obtain ⟨hs₂, hop₂, hd₂, hl₂, herr₂, hok₂⟩ := persistOutcome_written hs₁ h₁' hnext₁ hdone₁ hw₂
      have hop := hop₂.trans hop₁
      cases r₂ with
      | error err =>
        obtain ⟨hr, h₂⟩ := herr₂ err rfl
        exact .pausing hs₂ hop hd₂ ((h₂.remember hi).serves hr (hl₂ ▸ hl))
      | ok pending₂ =>
        obtain ⟨h₂, hk₂, hdone₂⟩ := hok₂ pending₂ rfl
        exact persistCompletion_published (d := d) hs₂ h₂ hop hd₂ (hk₂ ▸ hk₁) hdone₂ hi (hl₂ ▸ hl) none
  · -- The next participant takes over.
    simp only [hcmd]
    cases r₁ with
    | error err => exact hpause₁ err rfl
    | ok pending₁ =>
      obtain ⟨h₁', hnext₁, hdone₁⟩ := hok₁ pending₁ rfl
      rw [hnext] at hnext₁
      rcases nextCommand_ok h₁'.owes with ⟨hn, -⟩ | ⟨n', parent', dn', o', hn, hdn', ho₁, htodo₁, -⟩
      · rw [hnext₁] at hn; cases hn
      rw [hnext₁] at hn
      cases hn
      have hmap : pending₁.next.map PostStep.tempId = some n := by rw [hnext₁]; rfl
      rcases hw₂ : st₁.checkpointSubmission d.operationId d.key pending₁.transition.tempId o'
        (some n) with ⟨r₂, st₂⟩
      obtain ⟨hs₂, hop₂, herr₂, hok₂⟩ := h₁'.checkpointed g' hs₁ hnext₁ ho₁ hw₂
      rw [← hmap] at hw₂
      cases r₂ with
      | error err =>
        obtain ⟨hr, h₂⟩ := herr₂ err rfl
        simp only [persistOutcome_error (d := d.owing pending₁) ho₁ htodo₁ hw₂]
        exact .pausing hs₂ (hop₂.trans hop₁) ⟨rfl, rfl⟩ ((h₂.remember hi).serves hr hl)
      | ok u =>
        obtain ⟨hk₂, hhand⟩ := hok₂ rfl
        obtain ⟨dn₂, hdn₂, hat⟩ := hhand.atPost
        obtain ⟨ds, hds, hpending⟩ := hhand.pending
        rw [hrows₁] at hds
        have hsame : dn₂ = dn := Option.some.inj (hdn₂.symm.trans hdn)
        subst hsame
        simp only [persistOutcome_ok (d := d.owing pending₁) ho₁ htodo₁ hw₂, hmap,
          persistCompletion, hk₂]
        refine
          { stored := hs₂
            operations := hop₂.trans hop₁
            paused := by rintro _ ⟨⟩
            next := ?_
            check := by rintro _ ⟨⟩
            wait := by rintro _ ⟨⟩
            finished := by rintro _ _ ⟨⟩
            same := ⟨rfl, rfl⟩ }
        rintro _ _ ⟨⟩
        refine
          { consistent := hhand.consistent.core rfl
            backed := hhand.backed.core rfl
            admission := ?_
            persistence := by rintro ⟨⟩
            standing := ?_
            left := hl }
        · intro hsome
          have : d.pendingAdmission.isSome := hsome
          rw [hadm] at this
          cases this
        · refine .inl ⟨n, dn₂.withState .submitting, parent, _, ?_, hpend _ _ ds hds hpending, ?_,
            rfl, rfl, rfl⟩
          · exact hat.core rfl
          · exact ⟨rfl, rfl, ⟨dn₂.state, rfl⟩, rfl⟩

end Bbr.Tui
