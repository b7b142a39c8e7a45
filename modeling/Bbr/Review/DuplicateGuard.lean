import Bbr.Review.SubmissionRun

/-!
# A run never publishes a Draft twice

Four facts about every run of the machine: a decided Draft is left alone, an ambiguous POST is followed
by reads until one finds nothing, no Draft is posted more than `maxAttempts` times, and local, published
and unknown Drafts are never posted at all.
-/
namespace Bbr.Review

open Bbr.Bitbucket Bbr.Lib

/-- A `.post` step for this Draft was answered. -/
def Event.isPost (tid : TempId) : Event → Bool
  | ⟨.post effect, _⟩ => effect.tempId == tid
  | _ => false

/-- A `.check` step for this Draft was answered. -/
def Event.isCheck (tid : TempId) : Event → Bool
  | ⟨.check effect, _⟩ => effect.tempId == tid
  | _ => false

/-- A publication check for this Draft answered that no Comment exists. -/
def Event.isMissing (tid : TempId) : Event → Bool
  | ⟨.check effect, .reportCheck ⟨.missing, _⟩⟩ => effect.tempId == tid
  | _ => false

namespace Submission

variable {review : PendingReview} {start s m t : Submission} {tid : TempId} {d : Draft}
  {parent : Option CommentId} {e : Event} {fate : Fate}

/-- The Draft is decided, or in flight with an ambiguous POST not yet cleared. -/
def Unsure (s : Submission) (tid : TempId) : Prop :=
  Decided s tid ∨ (s.order[s.idx]? = some tid ∧ s.ambiguous s.idx = true)

theorem Good.ambiguous_inFlight (hg : Good review start s) (h : s.ambiguous s.idx = true) :
    ∃ tid d parent, InFlight review s tid d parent := by
  rcases hg.engaged with hslot | hfl
  · have : s.slot.ambiguous = true := h
    rw [hslot] at this
    cases this
  · exact hfl

theorem Unsure.advance (h : Unsure s tid) (hg : Good review start s) :
    Unsure (s.advance review).2 tid := by
  rcases h with hd | ⟨hat, ha⟩
  · exact .inl (hd.advance hg)
  have hstay : (s.advance review).2 = s := by
    obtain ⟨tid', d, parent, hfl⟩ := hg.ambiguous_inFlight ha
    cases hab : s.abortedReason with
    | some err => simp [Submission.advance, hab]
    | none => rw [advance_inFlight hfl hab]
  rw [hstay]
  exact .inr ⟨hat, ha⟩

theorem Unsure.step (h : Exchanges review s e t) (hg : Good review start s)
    (hclear : e.isMissing tid = false) (hu : Unsure s tid) : Unsure t tid := by
  obtain ⟨tid', d, parent, fate, hx⟩ := exchange h hg
  rcases hu.advance hg with hd | ⟨hat, ha⟩
  · exact .inl (hd.step hg h)
  have htid : tid' = tid := by
    have := hx.inFlight.at_idx
    rw [hat] at this
    exact (Option.some.inj this).symm
  subst htid
  have ha' : (s.advance review).2.slot.ambiguous = true := ha
  have hlands := hx.lands
  have hkind := hx.kind
  cases fate with
  | settled status id reason =>
    obtain ⟨-, hres, -⟩ := hlands
    exact .inl ⟨_, _, hx.elsewhere.order ▸ hat, hres⟩
  | aborts err =>
    obtain ⟨hidx, -, hs, -⟩ := hlands
    refine .inr ⟨by rw [hidx, hx.elsewhere.order]; exact hat, ?_⟩
    rw [← hs] at ha'
    exact ha'
  | remains slot =>
    obtain ⟨hidx, -, hs, -⟩ := hlands
    refine .inr ⟨by rw [hidx, hx.elsewhere.order]; exact hat, ?_⟩
    have hslot : slot.ambiguous = true := by
      cases hkind.remains with
      | ambiguousPost => rfl
      | failedCheck => rfl
      | wait => exact ha'
      | rejectedPost err retryAfterMs policy ready clear => rw [ha'] at clear; cases clear
      | missing retryAfterMs => simp [Event.isMissing] at hclear
    rw [← hs] at hslot
    exact hslot

theorem Unsure.names (hg : Good review start s) (hnodup : start.order.Nodup)
    (h : Unsure s tid) (hn : (s.advance review).1.names = some tid) :
    (∃ effect, (s.advance review).1 = .check effect) ∨
      ∃ effect, (s.advance review).1 = .wait effect := by
  rcases h.advance hg with hd | ⟨-, ha⟩
  · exact absurd hn (hd.not_named hg hnodup)
  have hstops := (advance_spec review s hg.sized.results).2
  cases hstep : (s.advance review).1 with
  | check effect => exact .inl ⟨effect, rfl⟩
  | wait effect => exact .inr ⟨effect, rfl⟩
  | done | aborted err => rw [hstep] at hn; cases hn
  | post effect =>
    rw [hstep] at hstops
    obtain ⟨-, -, hc, -⟩ := hstops
    rw [ha] at hc
    cases hc

def slotAt (s : Submission) (i : Nat) : Slot :=
  ⟨s.attempt i, s.checkAttempt i, s.ambiguous i, false⟩

/-- Every counted answer is paid for out of what the budgets of its Draft leave. -/
structure Pays (counted : TempId → Event → Bool) (left : Slot → Nat) : Prop where
  waiting : ∀ slot waiting, left { slot with waiting := waiting } = left slot
  names : ∀ {slot tid other parent e fate}, Kind slot tid parent e fate → counted other e = true →
    other = tid
  last : ∀ {slot tid parent e fate}, Kind slot tid parent e fate → slot.Within →
    counted tid e = true → 0 < left slot
  retries : ∀ {slot tid parent e slot'}, Retries slot tid parent e slot' → slot.Within →
    (if counted tid e then 1 else 0) + left slot' ≤ left slot

/-- What a position has left; a decided one, and every one after an abort, has nothing. -/
def budget (left : Slot → Nat) (i : Nat) (s : Submission) : Nat :=
  if (s.result i).isSome || s.abortedReason.isSome then 0 else left (s.slotAt i)

variable {slot : Slot} {other : TempId} {counted : TempId → Event → Bool} {left : Slot → Nat}

theorem budget_advance (i : Nat) (hg : Good review start s) :
    budget left i (s.advance review).2 ≤ budget left i s := by
  have hm := (advance_spec review s hg.sized.results).1
  have hslot : (s.advance review).2.slotAt i = s.slotAt i := by
    simp only [slotAt, attempt, checkAttempt, ambiguous, hm.attempts, hm.checkAttempts,
      hm.ambiguousLast]
  unfold budget
  rw [hm.abortedReason, hslot]
  cases hr : s.result i with
  | none =>
    cases s.abortedReason <;> simp only [Option.isSome, Bool.or_false, Bool.or_true, if_true]
    · split <;> simp
    · exact Nat.le_refl 0
  | some r => simp [hm.kept i r hr]

/-- One exchange pays for itself out of what the position has left. -/
theorem budget_step (hp : Pays counted left) {i : Nat} (h : Exchanges review s e t)
    (hg : Good review start s) (hnodup : start.order.Nodup) (hi : start.order[i]? = some other) :
    (if counted other e then 1 else 0) + budget left i t ≤ budget left i s := by
  have hle : budget left i (s.advance review).2 ≤ budget left i s := budget_advance i hg
  obtain ⟨tid, d, parent, fate, hx⟩ := exchange h hg
  refine Nat.le_trans ?_ hle
  generalize (s.advance review).2 = m at hx
  have hm : m.order = start.order := hx.good.order
  by_cases hidx : i = m.idx
  · subst hidx
    have htid : other = tid := by
      have := hx.inFlight.at_idx
      rw [hm, hi] at this
      exact Option.some.inj this
    subst htid
    have hopen := hx.inFlight.undecided
    have hleft : budget left m.idx m = left m.slot := by
      simp only [budget, hopen, hx.active, Option.isSome_none, Bool.or_false, Bool.false_eq_true,
        if_false]
      exact (hp.waiting (m.slotAt m.idx) m.mustWait).symm
    have hover : budget left m.idx t = 0 →
        (if counted other e then 1 else 0) + budget left m.idx t ≤ budget left m.idx m := by
      intro hzero
      rw [hzero, hleft]
      split
      · next hcounted => exact hp.last hx.kind hx.good.within hcounted
      · exact Nat.zero_le _
    have hlands := hx.lands
    have hkind := hx.kind
    cases fate with
    | settled status id reason =>
      obtain ⟨-, hres, -⟩ := hlands
      exact hover (by simp [budget, hres])
    | aborts err =>
      obtain ⟨-, -, -, hab⟩ := hlands
      exact hover (by simp [budget, hab])
    | remains slot =>
      obtain ⟨htidx, hresults, hts, hab⟩ := hlands
      have hright : budget left m.idx t = left slot := by
        simp only [budget, result_congr hresults, hopen, hab, hx.active, Option.isSome_none,
          Bool.or_false, Bool.false_eq_true, if_false]
        rw [← hts, ← htidx]
        exact (hp.waiting (t.slotAt t.idx) t.mustWait).symm
      rw [hright, hleft]
      exact hp.retries hkind.remains hx.good.within
  · have hnot : counted other e = false := by
      cases hc : counted other e with
      | false => rfl
      | true =>
        have htid := hp.names hx.kind hc
        subst htid
        have hat := hx.inFlight.at_idx
        rw [hm] at hat
        exact absurd ((List.getElem?_inj (List.getElem?_eq_some_iff.mp hi).1 hnodup).mp
          (hi.trans hat.symm)) hidx
    have hres := hx.elsewhere.result i hidx
    have hslot : t.slotAt i = m.slotAt i := by
      simp only [slotAt, hx.elsewhere.attempt i hidx, hx.elsewhere.checkAttempt i hidx,
        hx.elsewhere.ambiguous i hidx]
    simp only [hnot, Bool.false_eq_true, if_false, Nat.zero_add, budget, hres, hslot, hx.active]
    cases m.result i <;> cases t.abortedReason <;> simp

/-- No more answers are counted for one Draft than the budgets at the start allow. -/
theorem counted_le {s₀ : Submission} {es : List Event} {n : Nat} (hp : Pays counted left)
    (hg : Good review s₀ s₀) (hnodup : s₀.order.Nodup) (h : Run (Exchanges review) s₀ es s)
    (hstart : ∀ i, left (s₀.slotAt i) ≤ n) (tid : TempId) : es.countP (counted tid) ≤ n := by
  by_cases hmem : tid ∈ s₀.order
  · obtain ⟨i, hi⟩ := List.mem_iff_getElem?.mp hmem
    have hcount := h.countP_le (Good review s₀) (budget left i) (counted tid)
      (fun hst hg => ⟨hg.step hst, budget_step hp hst hg hnodup hi⟩) hg
    have hbudget : budget left i s₀ ≤ n := by
      unfold budget
      split
      · exact Nat.zero_le _
      · exact hstart i
    omega
  · have hnone : ∀ e ∈ es, counted tid e = false := by
      refine h.forall_labels (Good review s₀) (fun e => counted tid e = false) ?_ hg
      intro s e t hst hg
      refine ⟨?_, hg.step hst⟩
      obtain ⟨tid', d, parent, fate, hx⟩ := exchange hst hg
      cases hc : counted tid e with
      | false => rfl
      | true =>
        have htid := hp.names hx.kind hc
        subst htid
        have hat := hx.inFlight.at_idx
        rw [hx.good.order] at hat
        exact absurd (List.mem_of_getElem? hat) hmem
    rw [List.countP_eq_zero.mpr (fun e he => by simp [hnone e he])]
    exact Nat.zero_le _

theorem pays_posts : Pays Event.isPost (fun slot => maxAttempts - slot.attempts) where
  waiting := fun _ _ => rfl
  names := by
    intro slot tid other parent e fate h hpost
    cases h with
    | post outcome retryAfterMs hw ha => exact (of_decide_eq_true hpost).symm
    | check | wait => cases hpost
  last := by
    intro slot tid parent e fate h hs hpost
    cases h with
    | post outcome retryAfterMs hw ha => exact Nat.sub_pos_of_lt (hs.clear ha)
    | check | wait => cases hpost
  retries := by
    intro slot tid parent e slot' h hs
    cases h with
    | ambiguousPost _ _ clear | rejectedPost _ _ _ _ clear =>
      have := hs.clear clear
      simp only [Event.isPost, beq_self_eq_true, if_true]
      omega
    | failedCheck | missing | wait => simp [Event.isPost]

/-- Each POST that stays open pays for as many reads as one ambiguity allows. -/
theorem pays_reads : Pays Event.isCheck (fun slot => maxAttempts * (maxAttempts - slot.attempts) +
    if slot.ambiguous then maxAttempts - slot.checks else 0) where
  waiting := fun _ _ => rfl
  names := by
    intro slot tid other parent e fate h hcheck
    cases h with
    | check result hw ha => exact (of_decide_eq_true hcheck).symm
    | post | wait => cases hcheck
  last := by
    intro slot tid parent e fate h hs hcheck
    cases h with
    | check result hw ha =>
      have := hs.checks
      rw [if_pos ha]
      omega
    | post | wait => cases hcheck
  retries := by
    intro slot tid parent e slot' h hs
    have hchecks := hs.checks
    have hclear := hs.clear
    cases h with
    | ambiguousPost _ _ clear | rejectedPost _ _ _ _ clear =>
      simp [Event.isCheck, clear, maxAttempts] at *
      omega
    | failedCheck _ _ _ _ unsure | missing _ _ unsure =>
      simp [Event.isCheck, unsure, maxAttempts] at *
      omega
    | wait => simp [Event.isCheck]

/-- At most `maxAttempts` POSTs of one Draft are answered in a run. -/
theorem posts_le {s₀ : Submission} {es : List Event} (hg : Good review s₀ s₀)
    (hnodup : s₀.order.Nodup) (h : Run (Exchanges review) s₀ es s) (tid : TempId) :
    es.countP (Event.isPost tid) ≤ maxAttempts :=
  counted_le pays_posts hg hnodup h (fun _ => Nat.sub_le _ _) tid

theorem post_open {order : List TempId} {b : Bool} {effect : PostStep}
    (hg : Good review (initOrder review order b) s) (h : (s.advance review).1 = .post effect) :
    ∃ d, review.getConst effect.tempId = some d ∧ d.target ≠ .localOnly ∧
      (∀ id, d.state ≠ .posted id) ∧ d.state ≠ .outcomeUnknown := by
  obtain ⟨d, parent, hfl⟩ := names_inFlight hg effect.tempId (by rw [h]; rfl)
  refine ⟨d, hfl.draft, hfl.remote, hfl.unposted, ?_⟩
  intro hstate
  have hopen := hfl.undecided
  rw [hg.advance.ahead _ (Nat.le_refl _), initOrder_result] at hopen
  have hat := hfl.at_idx
  rw [hg.advance.order, initOrder_order] at hat
  rw [hat] at hopen
  simp [initialResult, hfl.draft, hstate] at hopen

/-- Submission never double-publishes. -/
theorem never_publishes_twice (review : PendingReview) (start : Start) {s₀ : Submission}
    (hd : review.DistinctTempIds) (hbegin : start.begin review = .ok s₀) :
    (∀ es s es' s' tid, Run (Exchanges review) s₀ es s → Decided (s.advance review).2 tid →
      Run (Exchanges review) s es' s' → (s'.advance review).1.names ≠ some tid) ∧
    (∀ es s effect retryAfterMs t es' s', Run (Exchanges review) s₀ es s →
      Exchanges review s ⟨.post effect, .report .ambiguous retryAfterMs⟩ t →
      Run (Exchanges review) t es' s' → (∀ e ∈ es', e.isMissing effect.tempId = false) →
      (s'.advance review).1.names = some effect.tempId →
      (∃ check, (s'.advance review).1 = .check check) ∨
        ∃ wait, (s'.advance review).1 = .wait wait) ∧
    (∀ es s tid, Run (Exchanges review) s₀ es s →
      es.countP (Event.isPost tid) ≤ maxAttempts) ∧
    (∀ es s d, Run (Exchanges review) s₀ es s → d ∈ review.drafts →
      (d.target = .localOnly ∨ (∃ id, d.state = .posted id) ∨ d.state = .outcomeUnknown) →
      ∀ effect, (s.advance review).1 = .post effect → effect.tempId ≠ d.localId) := by
  have hnodup := begin_nodup hd hbegin
  have hg₀ := good_begin hbegin
  refine ⟨?_, ?_, ?_, ?_⟩
  · intro es s es' s' tid hrun hdec hrun'
    have hg := hg₀.run hrun
    exact (hdec.run hg hrun').not_named (hg.run hrun') hnodup
  · intro es s effect retryAfterMs t es' s' hrun hpost hrun' hclear hnamed
    have hg := hg₀.run hrun
    have hgt := hg.step hpost
    have hunsure : Unsure t effect.tempId := by
      obtain ⟨tid, d, parent, fate, hx⟩ := exchange hpost hg
      generalize hev : (⟨.post effect, .report .ambiguous retryAfterMs⟩ : Event) = e at hx
      have hlands := hx.lands
      cases hx.kind with
      | check result hw ha => cases hev
      | wait ms checkpoint hw => cases hev
      | post outcome ra hw ha =>
        cases hev
        obtain ⟨hidx, -, hslot, -⟩ := hlands
        refine .inr ⟨by rw [hidx, hx.elsewhere.order]; exact hx.inFlight.at_idx, ?_⟩
        have : t.slot.ambiguous = true := by rw [hslot]
        exact this
    have hend := (hrun'.preserves (fun s => Good review s₀ s ∧ Unsure s effect.tempId)
      (fun e => e.isMissing effect.tempId = false)
      (fun hst hc hi => ⟨hi.1.step hst, hi.2.step hst hi.1 hc⟩) hclear ⟨hgt, hunsure⟩)
    exact hend.2.names hend.1 hnodup hnamed
  · intro es s tid hrun
    exact posts_le hg₀ hnodup hrun tid
  · intro es s d hrun hmem hnever effect hpost heq
    obtain ⟨order, rfl⟩ := begin_eq_initOrder hbegin
    obtain ⟨d', hget, hremote, hun, hunknown⟩ := post_open (hg₀.run hrun) hpost
    have hd' : review.getConst d.localId = some d := findDraft_eq_of_mem hd hmem
    rw [heq, hd'] at hget
    cases hget
    rcases hnever with h | ⟨id, h⟩ | h
    · exact hremote h
    · exact hun id h
    · exact hunknown h

/-- A root that is posted ambiguously, found missing and posted again, next to a local note. -/
def retriedRoot : PendingReview :=
  { drafts := [{ localId := 1 }, { localId := 2, target := .localOnly }] }

def retriedRootEvents : List Event :=
  [⟨.post ⟨1, none, false⟩, .report .ambiguous none⟩,
   ⟨.check ⟨1, none, true⟩, .reportCheck ⟨.missing, none⟩⟩,
   ⟨.wait ⟨1000, 1, ⟨.post, 1, .ambiguousPost, 1000, none, 1000, true⟩⟩, .completeWait⟩,
   ⟨.post ⟨1, none, false⟩, .report (.posted 7) none⟩]

theorem never_publishes_twice_retriedRoot :
    (∃ s, Run (Exchanges retriedRoot) (init retriedRoot) retriedRootEvents s ∧
      Decided (s.advance retriedRoot).2 1 ∧ (s.advance retriedRoot).1.names ≠ some 1) ∧
    (∃ t, Exchanges retriedRoot (init retriedRoot)
        ⟨.post ⟨1, none, false⟩, .report .ambiguous none⟩ t ∧
      ((∃ check, (t.advance retriedRoot).1 = .check check) ∨
        ∃ wait, (t.advance retriedRoot).1 = .wait wait)) ∧
    retriedRootEvents.countP (Event.isPost 1) ≤ maxAttempts ∧
    (∀ effect, ((init retriedRoot).advance retriedRoot).1 = .post effect → effect.tempId ≠ 2) := by
  obtain ⟨hdecided, hunsure, hbudget, hnever⟩ :=
    never_publishes_twice retriedRoot .fresh (by decide) rfl
  have hrun := (replay_iff (t := (replay retriedRoot (init retriedRoot) retriedRootEvents).get
    (by decide))).mp (Option.some_get _).symm
  have hpost := (exchange?_iff (t := (exchange? retriedRoot (init retriedRoot)
    ⟨.post ⟨1, none, false⟩, .report .ambiguous none⟩).get (by decide))).mp (Option.some_get _).symm
  have hdec : Decided (((replay retriedRoot (init retriedRoot) retriedRootEvents).get
      (by decide)).advance retriedRoot).2 1 := ⟨0, ⟨1, .posted, some 7, none⟩, by decide, by decide⟩
  refine ⟨⟨_, hrun, hdec, hdecided _ _ [] _ 1 hrun hdec (.nil _)⟩,
    ⟨_, hpost, hunsure [] _ _ none _ [] _ (.nil _) hpost (.nil _) (by simp) (by decide)⟩,
    hbudget _ _ 1 hrun, ?_⟩
  exact hnever [] _ { localId := 2, target := .localOnly } (.nil _) (by decide) (.inl rfl)

/-- No Draft is read more often than each of its POSTs may be. -/
theorem reads_bounded (review : PendingReview) (start : Start) {s₀ : Submission}
    (hd : review.DistinctTempIds) (hbegin : start.begin review = .ok s₀) (es : List Event)
    (s : Submission) (tid : TempId) (h : Run (Exchanges review) s₀ es s) :
    es.countP (Event.isCheck tid) ≤ maxAttempts * maxAttempts := by
  refine counted_le pays_reads (good_begin hbegin) (begin_nodup hd hbegin) h (fun i => ?_) tid
  obtain ⟨order, rfl⟩ := begin_eq_initOrder hbegin
  simp [slotAt]

/-- The retried root is read once. -/
theorem reads_bounded_retriedRoot :
    retriedRootEvents.countP (Event.isCheck 1) = 1 ∧ 1 ≤ maxAttempts * maxAttempts := by
  have hrun := (replay_iff (t := (replay retriedRoot (init retriedRoot) retriedRootEvents).get
    (by decide))).mp (Option.some_get _).symm
  exact ⟨by decide, reads_bounded retriedRoot .fresh (by decide) rfl _ _ 1 hrun⟩

/-- The exchange is about the Draft at this position. -/
def About (order : List TempId) (e : Event) (i : Nat) : Prop :=
  ∃ tid, order[i]? = some tid ∧ e.step.names = some tid

/-- An exchange is about a position from the current one on, which the machine does not leave
behind itself. -/
theorem about_step (h : Exchanges review s e t) (hg : Good review start s)
    (hnodup : start.order.Nodup) :
    ∃ i, About start.order e i ∧ s.idx ≤ i ∧ i ≤ t.idx ∧ ∀ j, About start.order e j → j = i := by
  have hmove := (advance_spec review s hg.sized.results).1.idx_le
  obtain ⟨tid, d, parent, fate, hx⟩ := exchange h hg
  have hat : start.order[(s.advance review).2.idx]? = some tid := hx.good.order ▸ hx.inFlight.at_idx
  have hnames : e.step.names = some tid := by cases hx.kind <;> rfl
  have hidx : (s.advance review).2.idx ≤ t.idx := by
    have hlands := hx.lands
    cases fate with
    | settled status id reason => exact Nat.le_of_succ_le (Nat.le_of_eq hlands.1.symm)
    | aborts err | remains slot => exact Nat.le_of_eq hlands.1.symm
  refine ⟨_, ⟨tid, hat, hnames⟩, hmove, hidx, ?_⟩
  rintro j ⟨tid', hat', hnames'⟩
  rw [hnames, Option.some.injEq] at hnames'
  subst hnames'
  exact (List.getElem?_inj (List.getElem?_eq_some_iff.mp hat').1 hnodup).mp (hat'.trans hat.symm)

/-- The exchanges of a run go through the Drafts in the order of the Submission, and never back. -/
theorem exchanges_in_order (review : PendingReview) (start : Start) {s₀ : Submission}
    (hd : review.DistinctTempIds) (hbegin : start.begin review = .ok s₀) (es : List Event)
    (s : Submission) (h : Run (Exchanges review) s₀ es s) :
    (∀ e ∈ es, ∃ i, About s₀.order e i) ∧
      es.Pairwise (fun a b => ∀ i j, About s₀.order a i → About s₀.order b j → i ≤ j) := by
  have hnodup := begin_nodup hd hbegin
  have hrun := h.recorded (fun es s => Good review s₀ s ∧
    (∀ e ∈ es, (∃ i, About s₀.order e i) ∧ ∀ i, About s₀.order e i → i ≤ s.idx) ∧
    es.Pairwise (fun a b => ∀ i j, About s₀.order a i → About s₀.order b j → i ≤ j)) ?_
    ⟨good_begin hbegin, by simp, .nil⟩
  · exact ⟨fun e he => (hrun.2.1 e he).1, hrun.2.2⟩
  · rintro fs s e t hst ⟨hg, hpast, hpairs⟩
    obtain ⟨i, habout, hfrom, hto, honly⟩ := about_step hst hg hnodup
    refine ⟨hg.step hst, ?_, List.pairwise_append.mpr ⟨hpairs, List.pairwise_singleton _ e, ?_⟩⟩
    · intro a ha
      rcases List.mem_append.mp ha with ha | ha
      · exact ⟨(hpast a ha).1, fun j hj =>
          Nat.le_trans ((hpast a ha).2 j hj) (Nat.le_trans hfrom hto)⟩
      · rw [List.mem_singleton.mp ha]
        exact ⟨⟨i, habout⟩, fun j hj => honly j hj ▸ hto⟩
    · intro a ha b hb j k hj hk
      rw [List.mem_singleton.mp hb] at hk
      rw [honly k hk]
      exact Nat.le_trans ((hpast a ha).2 j hj) hfrom

/-- A remote root and a Reply to it. -/
def retriedThread : PendingReview :=
  { drafts := [{ localId := 1 }, { localId := 2, parent := some (.draft 1) }] }

def retriedThreadEvents : List Event :=
  retriedRootEvents ++ [⟨.post ⟨2, some 7, false⟩, .report (.posted 8) none⟩]

/-- Four exchanges about the root, then one about its Reply. -/
theorem exchanges_in_order_retriedThread :
    retriedThreadEvents.map (fun e => e.step.names) = [some 1, some 1, some 1, some 1, some 2] ∧
    (∀ e ∈ retriedThreadEvents, ∃ i, About (init retriedThread).order e i) ∧
    retriedThreadEvents.Pairwise (fun a b => ∀ i j, About (init retriedThread).order a i →
      About (init retriedThread).order b j → i ≤ j) := by
  have hrun := (replay_iff (t := (replay retriedThread (init retriedThread) retriedThreadEvents).get
    (by decide))).mp (Option.some_get _).symm
  exact ⟨by decide, exchanges_in_order retriedThread .fresh (by decide) rfl _ _ hrun⟩

end Submission

end Bbr.Review
