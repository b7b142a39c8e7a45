import Bbr.Review.SubmissionItem

/-!
# Runs of a Submission

The driver protocol: ask for a step, perform it, feed the matching kind of answer back. A run is any
finite sequence of such exchanges from one of the three constructors. `Good` is the invariant of every
run and `exchange` says what one exchange does under it; the results about whole runs are inductions
over `exchange`.
-/
namespace Bbr.Review

open Bbr.Bitbucket Bbr.Lib List

inductive Answer where
  | report (outcome : PostOutcome) (retryAfterMs : Option Nat)
  | reportCheck (result : CheckResult)
  | completeWait
  deriving DecidableEq, Repr

/-- One exchange between the machine and its driver. -/
structure Event where
  step : Step
  answer : Answer
  deriving DecidableEq, Repr

def Step.names : Step → Option TempId
  | .post effect => some effect.tempId
  | .check effect => some effect.tempId
  | .wait effect => some effect.tempId
  | .done => none
  | .aborted _ => none

/-- The three ways of starting a Submission. -/
inductive Start where
  | fresh
  | subtree (root : TempId)
  | frozen (items : RunItems)

def Start.begin (start : Start) (review : PendingReview) : Except InitError Submission :=
  match start with
  | .fresh => .ok (Submission.init review)
  | .subtree root => Submission.initSubtree review root
  | .frozen items => Submission.initFrozen review items.items

/-- Only a recovered run takes a stored failure as the outcome of this run. -/
def Start.settlesFailures : Start → Bool
  | .frozen _ => true
  | _ => false

namespace Submission

/-- Each kind of step takes its own kind of answer; the two terminal steps take none. -/
def answer (self : Submission) : Step → Answer → Option Submission
  | .post _, .report outcome retryAfterMs => some (self.report outcome retryAfterMs)
  | .check _, .reportCheck result => some (self.reportCheck result)
  | .wait _, .completeWait => some self.completeWait
  | _, _ => none

/-- The machine `s` asked for `e.step`, was answered `e.answer` and became `t`. -/
def Exchanges (review : PendingReview) (s : Submission) (e : Event) (t : Submission) : Prop :=
  (s.advance review).1 = e.step ∧ (s.advance review).2.answer e.step e.answer = some t

def exchange? (review : PendingReview) (s : Submission) (e : Event) : Option Submission :=
  if (s.advance review).1 = e.step then (s.advance review).2.answer e.step e.answer else none

def replay (review : PendingReview) (s : Submission) : List Event → Option Submission
  | [] => some s
  | e :: rest => match exchange? review s e with
    | none => none
    | some t => replay review t rest

variable {review : PendingReview} {s t : Submission}

theorem exchange?_iff {e : Event} : exchange? review s e = some t ↔ Exchanges review s e t := by
  unfold exchange? Exchanges
  split
  · next h => simp [h]
  · next h => simp [h]

theorem replay_iff {es : List Event} : replay review s es = some t ↔ Run (Exchanges review) s es t := by
  induction es generalizing s with
  | nil => simp [replay]
  | cons e rest ih =>
    rw [Run.cons_iff]
    cases hx : exchange? review s e with
    | none =>
      simp only [replay, hx, reduceCtorEq, false_iff]
      rintro ⟨m, hm, -⟩
      rw [exchange?_iff.mpr hm] at hx
      cases hx
    | some m =>
      simp only [replay, hx, ih]
      constructor
      · intro h; exact ⟨m, exchange?_iff.mp hx, h⟩
      rintro ⟨m', hm', h⟩
      rw [exchange?_iff.mpr hm'] at hx
      cases hx
      exact h

def Decided (s : Submission) (tid : TempId) : Prop :=
  ∃ i r, s.order[i]? = some tid ∧ s.result i = some r

theorem selectSubtree_sublist (review : PendingReview) (root : TempId) (all order : List TempId)
    (h : selectSubtree review root all = .ok order) : order.Sublist all := by
  induction all generalizing order with
  | nil =>
    simp only [selectSubtree, Except.ok.injEq] at h
    subst h
    exact List.Sublist.refl []
  | cons tid rest ih =>
    simp only [selectSubtree] at h
    split at h
    · exact (ih order h).cons tid
    split at h
    · exact (ih order h).cons tid
    split at h
    · cases h
    split at h
    · exact (ih order h).cons tid
    · split at h
      · next hrest => cases h; exact (ih _ hrest).cons_cons tid
      · cases h
    · split at h
      · next hrest => cases h; exact (ih _ hrest).cons_cons tid
      · cases h
    · cases h
    · cases h

section

variable (review) (items : List SubmissionRunItem) (order : List TempId)
  (h : frozenOrder review items = .ok order)
include h

theorem frozenOrder_eq : order = items.map SubmissionRunItem.tempId := by
  induction items generalizing order with
  | nil => simpa [frozenOrder] using h.symm
  | cons item rest ih =>
    simp only [frozenOrder] at h
    split at h
    · cases h
    split at h
    · cases h
    · split at h
      · next hrest => cases h; rw [map_cons, ← ih _ hrest]
      · cases h

theorem frozenOrder_mem : ∀ tid ∈ order, (review.getConst tid).isSome := by
  induction items generalizing order with
  | nil =>
    simp only [frozenOrder, Except.ok.injEq] at h
    subst h
    simp
  | cons item rest ih =>
    simp only [frozenOrder] at h
    split at h
    · cases h
    rename_i d hd
    split at h
    · cases h
    split at h
    · next hrest =>
      cases h
      intro tid hmem
      rcases mem_cons.mp hmem with rfl | hmem
      · simp [hd]
      · exact ih _ hrest tid hmem
    · cases h

end

theorem initFrozen_eq {items : List SubmissionRunItem} (h : initFrozen review items = .ok s) :
    s = initOrder review (items.map SubmissionRunItem.tempId) true := by
  simp only [initFrozen] at h
  split at h
  · next horder => cases h; rw [frozenOrder_eq review items _ horder]
  · cases h

theorem initSubtree_eq {root : TempId} (h : initSubtree review root = .ok s) :
    ∃ order, selectSubtree review root review.topologicalOrder = .ok order ∧
      s = initOrder review order false := by
  simp only [initSubtree] at h
  split at h
  · cases h
  split at h
  · cases h
  split at h
  · split at h
    · cases h
    rename_i order horder
    split at h
    · cases h
    · cases h; exact ⟨order, horder, rfl⟩
  · split at h
    · cases h
    rename_i order horder
    split at h
    · cases h
    · cases h; exact ⟨order, horder, rfl⟩
  · cases h

variable {start : Start}

theorem begin_eq_initOrder (h : start.begin review = .ok s) :
    ∃ order, s = initOrder review order start.settlesFailures := by
  cases start with
  | fresh => cases h; exact ⟨_, rfl⟩
  | frozen items => exact ⟨_, initFrozen_eq h⟩
  | subtree root =>
    obtain ⟨order, _, hs⟩ := initSubtree_eq h
    exact ⟨order, hs⟩

theorem begin_nodup (hd : review.DistinctTempIds) (h : start.begin review = .ok s) :
    s.order.Nodup := by
  have hall := review.topologicalOrder_nodup hd
  cases start with
  | fresh => cases h; exact hall
  | frozen items =>
    rw [initFrozen_eq h]
    exact items.distinct
  | subtree root =>
    obtain ⟨order, horder, rfl⟩ := initSubtree_eq h
    exact hall.sublist (selectSubtree_sublist review root _ _ horder)

variable {tid : TempId}

theorem begin_mem (h : start.begin review = .ok s) (hmem : tid ∈ s.order) :
    (review.getConst tid).isSome := by
  cases start with
  | fresh => cases h; exact (review.mem_topologicalOrder tid).mp hmem
  | subtree root =>
    obtain ⟨order, horder, rfl⟩ := initSubtree_eq h
    have hsub := selectSubtree_sublist review root _ _ horder
    exact (review.mem_topologicalOrder tid).mp (hsub.subset hmem)
  | frozen items =>
    simp only [Start.begin, initFrozen] at h
    split at h
    · next order horder => cases h; exact frozenOrder_mem review items.items order horder tid hmem
    · cases h

theorem begin_length_le (hd : review.DistinctTempIds) (h : start.begin review = .ok s) :
    s.order.length ≤ review.drafts.length := by
  have hsub : s.order ⊆ review.drafts.map Draft.localId := by
    intro tid hmem
    exact findDraft_isSome.mp (begin_mem h hmem)
  simpa using (subperm_of_subset (begin_nodup hd h) hsub).length_le

section

variable (review) (order : List TempId) (b : Bool)

@[simp] theorem initOrder_order : (initOrder review order b).order = order := rfl
@[simp] theorem initOrder_idx : (initOrder review order b).idx = 0 := rfl
@[simp] theorem initOrder_mustWait : (initOrder review order b).mustWait = false := rfl
@[simp] theorem initOrder_abortedReason : (initOrder review order b).abortedReason = none := rfl

end

theorem getD_map_const {α β : Type} (l : List α) (i : Nat) (b : β) :
    (l.map (fun _ => b)).getD i b = b := by
  rw [getD_eq_getElem?_getD, getElem?_map]
  cases l[i]? <;> rfl

section

variable (review) (order : List TempId) (b : Bool)

@[simp] theorem initOrder_attempt (i : Nat) :
    (initOrder review order b).attempt i = 0 := getD_map_const order i 0
@[simp] theorem initOrder_checkAttempt (i : Nat) :
    (initOrder review order b).checkAttempt i = 0 := getD_map_const order i 0
@[simp] theorem initOrder_ambiguous (i : Nat) :
    (initOrder review order b).ambiguous i = false := getD_map_const order i false

/-- A position starts with what its Draft's durable state settles. -/
theorem initOrder_result (i : Nat) :
    (initOrder review order b).result i = (order[i]?).bind (initialResult review b) := by
  simp only [result, initOrder, getD_eq_getElem?_getD, getElem?_map]
  cases order[i]? <;> rfl

theorem initOrder_sized : (initOrder review order b).Sized := by
  constructor <;> simp [initOrder]

end

theorem initialResult_tempId {b : Bool} {r : ItemResult} (h : initialResult review b tid = some r) :
    r.tempId = tid ∧ (r.status = .posted ↔ r.id.isSome = true) := by
  unfold initialResult at h
  split at h
  · cases h
  split at h
  · cases h; simp
  · split at h
    · cases h; simp
    · cases h
  · cases h; simp
  · cases h
  · cases h

/-- What every state of a run from `start` satisfies. `engaged` is the key: a budget, a pending wait
or an ambiguity exists only for a Draft in flight, so `advance` stays where it is. -/
structure Good (review : PendingReview) (start s : Submission) : Prop where
  order : s.order = start.order
  sized : s.Sized
  idx_le : s.idx ≤ s.order.length
  ahead : ∀ i, s.idx ≤ i → s.result i = start.result i
  kept : ∀ i r, start.result i = some r → s.result i = some r
  quiet : ∀ i, s.idx < i → s.attempt i = 0 ∧ s.checkAttempt i = 0 ∧ s.ambiguous i = false
  engaged : s.slot = .untried ∨ ∃ tid d parent, InFlight review s tid d parent
  within : s.slot.Within
  passed : ∀ i tid d, i < s.idx → s.result i = none → s.order[i]? = some tid →
    review.getConst tid = some d → d.target = .localOnly
  named : ∀ i r, s.result i = some r → s.order[i]? = some r.tempId
  shaped : ∀ i r, s.result i = some r → (r.status = .posted ↔ r.id.isSome = true)
  earned : ∀ i r, s.result i = some r → start.result i = some r ∨
    ∃ d, review.getConst r.tempId = some d ∧ d.target ≠ .localOnly

theorem good_initOrder (review : PendingReview) (order : List TempId) (b : Bool) :
    Good review (initOrder review order b) (initOrder review order b) where
  order := rfl
  sized := initOrder_sized review order b
  idx_le := Nat.zero_le _
  ahead := fun _ _ => rfl
  kept := fun _ _ h => h
  quiet := fun i _ => by simp
  engaged := by simp [slot, Slot.untried]
  within := by
    have : (initOrder review order b).slot = .untried := by simp [slot, Slot.untried]
    rw [this]
    exact Slot.untried_within
  passed := fun i _ _ hi => absurd hi (Nat.not_lt_zero i)
  named := by
    intro i r hr
    rw [initOrder_result] at hr
    cases ho : order[i]? with
    | none => simp [ho] at hr
    | some tid =>
      have := (initialResult_tempId (by simpa [ho] using hr)).1
      rw [initOrder_order, ho, this]
  shaped := by
    intro i r hr
    rw [initOrder_result] at hr
    cases ho : order[i]? with
    | none => simp [ho] at hr
    | some tid => exact (initialResult_tempId (by simpa [ho] using hr)).2
  earned := fun _ _ h => .inl h

theorem good_begin (h : start.begin review = .ok s) : Good review s s := by
  obtain ⟨order, rfl⟩ := begin_eq_initOrder h
  exact good_initOrder review order _

variable {review : PendingReview} {start s m t : Submission} {tid : TempId} {d : Draft}
  {parent : Option CommentId} {e : Event} {fate : Fate}

/-- `advance` leaves budgets alone and only walks when the item in flight is untried. -/
theorem Good.advance (h : Good review start s) : Good review start (s.advance review).2 := by
  obtain ⟨hm, -⟩ := advance_spec review s h.sized.results
  by_cases hstay : (s.advance review).2 = s
  · rw [hstay]; exact h
  have huntried : s.slot = .untried ∨ s.abortedReason.isSome := by
    rcases h.engaged with hslot | ⟨tid, d, parent, hfl⟩
    · exact .inl hslot
    · cases hab : s.abortedReason with
      | none => exact absurd (by rw [advance_inFlight hfl hab]) hstay
      | some e => exact .inr rfl
  have hslot : s.slot = .untried := by
    rcases huntried with hslot | hab
    · exact hslot
    · obtain ⟨e, he⟩ := Option.isSome_iff_exists.mp hab
      exact absurd (by simp [Submission.advance, he]) hstay
  generalize (s.advance review).2 = m at *
  have hattempt : ∀ i, m.attempt i = s.attempt i := fun i => by simp [attempt, hm.attempts]
  have hcheck : ∀ i, m.checkAttempt i = s.checkAttempt i := fun i => by
    simp [checkAttempt, hm.checkAttempts]
  have hamb : ∀ i, m.ambiguous i = s.ambiguous i := fun i => by simp [ambiguous, hm.ambiguousLast]
  simp only [slot, Slot.untried, Slot.mk.injEq] at hslot
  have hle := hm.idx_le
  have hquiet : ∀ i, s.idx ≤ i → s.attempt i = 0 ∧ s.checkAttempt i = 0 ∧ s.ambiguous i = false := by
    intro i hi
    rcases Nat.lt_or_eq_of_le hi with hlt | rfl
    · exact h.quiet i hlt
    · exact ⟨hslot.1, hslot.2.1, hslot.2.2.1⟩
  have hmslot : m.slot = .untried := by
    obtain ⟨h₁, h₂, h₃⟩ := hquiet m.idx hle
    simp only [slot, hattempt, hcheck, hamb, hm.mustWait, h₁, h₂, h₃, hslot.2.2.2, Slot.untried]
  refine
    { order := hm.order.trans h.order
      sized := ⟨?_, ?_, ?_, ?_⟩
      idx_le := ?_, ahead := ?_, kept := ?_, quiet := ?_, engaged := .inl hmslot
      within := hmslot ▸ Slot.untried_within, passed := ?_, named := ?_, shaped := ?_,
      earned := ?_ }
  · rw [hm.attempts, hm.order]; exact h.sized.attempts
  · rw [hm.checkAttempts, hm.order]; exact h.sized.checkAttempts
  · rw [hm.ambiguousLast, hm.order]; exact h.sized.ambiguousLast
  · rw [hm.results_length, hm.order]; exact h.sized.results
  · have hb := hm.bounded
    have hidx := h.idx_le
    rw [hm.order]
    omega
  · intro i hi
    rw [hm.outside i (.inr hi), h.ahead i (by omega)]
  · intro i r hr
    exact hm.kept i r (h.kept i r hr)
  · intro i hi
    rw [hattempt, hcheck, hamb]
    exact hquiet i (by omega)
  · intro i tid d hi hn ht hd
    rw [hm.order] at ht
    by_cases hlt : i < s.idx
    · exact h.passed i tid d hlt (by rw [← hm.outside i (.inl hlt)]; exact hn) ht hd
    · exact hm.passed i (by omega) hi hn tid d ht hd
  · intro i r hr
    rw [hm.order]
    cases hs : s.result i with
    | some r' =>
      have := hm.kept i r' hs
      rw [hr] at this
      cases this
      exact h.named i r hs
    | none =>
      obtain ⟨tid, d, ht, -, -, hpass⟩ := hm.fresh i r hr hs
      cases hpass <;> exact ht
  · intro i r hr
    cases hs : s.result i with
    | some r' =>
      have := hm.kept i r' hs
      rw [hr] at this
      cases this
      exact h.shaped i r hs
    | none =>
      obtain ⟨tid, d, -, -, -, hpass⟩ := hm.fresh i r hr hs
      cases hpass <;> simp
  · intro i r hr
    cases hs : s.result i with
    | some r' =>
      have := hm.kept i r' hs
      rw [hr] at this
      cases this
      exact h.earned i r hs
    | none =>
      obtain ⟨tid, d, -, hd, htarget, hpass⟩ := hm.fresh i r hr hs
      cases hpass <;> exact .inr ⟨d, hd, htarget⟩

/-- Which answer an event gives to an item in flight, and the fate it decides. -/
inductive Kind (slot : Slot) (tid : TempId) (parent : Option CommentId) : Event → Fate → Prop where
  | post (outcome : PostOutcome) (retryAfterMs : Option Nat) (ready : slot.waiting = false)
      (clear : slot.ambiguous = false) :
      Kind slot tid parent ⟨.post ⟨tid, parent, false⟩, .report outcome retryAfterMs⟩
        (slot.afterPost outcome)
  | check (result : CheckResult) (ready : slot.waiting = false) (unsure : slot.ambiguous = true) :
      Kind slot tid parent ⟨.check ⟨tid, parent, true⟩, .reportCheck result⟩
        (slot.afterCheck result.outcome)
  | wait (ms : Nat) (checkpoint : SubmissionRetryCheckpoint) (waiting : slot.waiting = true) :
      Kind slot tid parent ⟨.wait ⟨ms, tid, checkpoint⟩, .completeWait⟩ slot.afterWait

/-- One exchange: `m` is the machine when it asked, `t` the machine after the answer. -/
structure Exchange (review : PendingReview) (start m : Submission) (tid : TempId) (d : Draft)
    (parent : Option CommentId) (e : Event) (fate : Fate) (t : Submission) : Prop where
  good : Good review start m
  active : m.abortedReason = none
  inFlight : InFlight review m tid d parent
  elsewhere : Elsewhere m t
  lands : Lands tid m t fate
  kind : Kind m.slot tid parent e fate

theorem Sized.advance (hs : s.Sized) : (s.advance review).2.Sized := by
  have hm := (advance_spec review s hs.results).1
  constructor
  · rw [hm.attempts, hm.order]
    exact hs.attempts
  · rw [hm.checkAttempts, hm.order]
    exact hs.checkAttempts
  · rw [hm.ambiguousLast, hm.order]
    exact hs.ambiguousLast
  · rw [hm.results_length, hm.order]
    exact hs.results

/-- Whatever the machine went through: an answer lands on a Draft in flight. -/
theorem exchange_lands (h : Exchanges review s e t) (hs : s.Sized) :
    ∃ tid d parent fate, (s.advance review).2.abortedReason = none ∧
      InFlight review (s.advance review).2 tid d parent ∧ Elsewhere (s.advance review).2 t ∧
      Lands tid (s.advance review).2 t fate ∧ Kind (s.advance review).2.slot tid parent e fate := by
  obtain ⟨hstep, hanswer⟩ := h
  have hsized : (s.advance review).2.Sized := hs.advance
  have hstops := (advance_spec review s hs.results).2
  obtain ⟨step, answer⟩ := e
  rw [hstep] at hstops
  cases step with
  | aborted e | done => cases hanswer
  | post effect =>
    obtain ⟨tid, parent, dedupe⟩ := effect
    obtain ⟨hab, hw, ha, hdup, d, hfl⟩ := hstops
    cases answer with
    | report outcome retryAfterMs =>
      cases hanswer
      subst hdup
      obtain ⟨hel, hl⟩ := report_lands hsized hfl.at_idx outcome retryAfterMs
      exact ⟨tid, d, parent, _, hab, hfl, hel, hl, .post outcome retryAfterMs hw ha⟩
    | reportCheck result | completeWait => cases hanswer
  | check effect =>
    obtain ⟨tid, parent, dedupe⟩ := effect
    obtain ⟨hab, hw, ha, hdup, d, hfl⟩ := hstops
    cases answer with
    | report outcome retryAfterMs | completeWait => cases hanswer
    | reportCheck result =>
      cases hanswer
      subst hdup
      obtain ⟨hel, hl⟩ := reportCheck_lands hsized hfl.at_idx result
      exact ⟨tid, d, parent, _, hab, hfl, hel, hl, .check result hw ha⟩
  | wait effect =>
    obtain ⟨ms, tid, checkpoint⟩ := effect
    obtain ⟨hab, hw, -, -, d, parent, hfl⟩ := hstops
    cases answer with
    | report outcome retryAfterMs | reportCheck result => cases hanswer
    | completeWait =>
      cases hanswer
      obtain ⟨hel, hl⟩ := completeWait_lands tid hsized
      exact ⟨tid, d, parent, _, hab, hfl, hel, hl, .wait ms checkpoint hw⟩

/-- The inversion lemma of one exchange. -/
theorem exchange (h : Exchanges review s e t) (hg : Good review start s) :
    ∃ tid d parent fate, Exchange review start (s.advance review).2 tid d parent e fate t := by
  obtain ⟨tid, d, parent, fate, hab, hfl, hel, hl, hk⟩ := exchange_lands h hg.sized
  exact ⟨tid, d, parent, fate, hg.advance, hab, hfl, hel, hl, hk⟩

variable {slot : Slot}

/-- Whoever asks is in the position to: no answer settles an item that still waits, and only a
posted item gets an id. -/
theorem Kind.settled {status : ItemStatus} {id : Option CommentId} {reason : Option ApiError}
    (h : Kind slot tid parent e (.settled status id reason)) :
    slot.waiting = false ∧ (status = .posted ↔ id.isSome = true) ∧ status ≠ .skipped := by
  generalize hf : Fate.settled status id reason = fate at h
  cases h with
  | wait ms checkpoint hw => cases hf
  | post outcome retryAfterMs hw ha => cases Slot.posting hf.symm <;> simp [hw]
  | check result hw ha => generalize result.outcome = o at hf; cases Slot.checking hf.symm <;> simp [hw]

/-- The five ways an item stays open. -/
inductive Retries (slot : Slot) (tid : TempId) (parent : Option CommentId) : Event → Slot → Prop where
  | ambiguousPost (retryAfterMs : Option Nat) (ready : slot.waiting = false)
      (clear : slot.ambiguous = false) :
      Retries slot tid parent ⟨.post ⟨tid, parent, false⟩, .report .ambiguous retryAfterMs⟩
        ⟨slot.attempts + 1, 0, true, false⟩
  | rejectedPost (err : ApiError) (retryAfterMs : Option Nat) (policy : classifyPolicy err = .retry)
      (ready : slot.waiting = false) (clear : slot.ambiguous = false)
      (left : slot.attempts + 1 < maxAttempts) :
      Retries slot tid parent ⟨.post ⟨tid, parent, false⟩, .report (.rejected err) retryAfterMs⟩
        ⟨slot.attempts + 1, slot.checks, false, true⟩
  | failedCheck (result : CheckResult) (unfound : ∀ id, result.outcome ≠ .found id)
      (unsettled : result.outcome ≠ .missing)
      (ready : slot.waiting = false) (unsure : slot.ambiguous = true)
      (left : slot.checks + 1 < maxAttempts) :
      Retries slot tid parent ⟨.check ⟨tid, parent, true⟩, .reportCheck result⟩
        ⟨slot.attempts, slot.checks + 1, true, true⟩
  | missing (retryAfterMs : Option Nat) (ready : slot.waiting = false)
      (unsure : slot.ambiguous = true) (left : slot.attempts < maxAttempts) :
      Retries slot tid parent ⟨.check ⟨tid, parent, true⟩, .reportCheck ⟨.missing, retryAfterMs⟩⟩
        ⟨slot.attempts, 0, false, true⟩
  | wait (ms : Nat) (checkpoint : SubmissionRetryCheckpoint) (waiting : slot.waiting = true) :
      Retries slot tid parent ⟨.wait ⟨ms, tid, checkpoint⟩, .completeWait⟩
        ⟨slot.attempts, slot.checks, slot.ambiguous, false⟩

theorem Kind.remains {slot' : Slot} (h : Kind slot tid parent e (.remains slot')) :
    Retries slot tid parent e slot' := by
  generalize hf : Fate.remains slot' = fate at h
  cases h with
  | wait ms checkpoint hw => cases hf; exact .wait ms checkpoint hw
  | post outcome retryAfterMs hw ha =>
    cases Slot.posting hf.symm with
    | ambiguous => rw [hw]; exact .ambiguousPost retryAfterMs hw ha
    | retried err hp left => exact .rejectedPost err retryAfterMs hp hw ha left
  | check result hw ha =>
    obtain ⟨outcome, retryAfterMs⟩ := result
    cases Slot.checking hf.symm with
    | missing left => exact .missing retryAfterMs hw ha left
    | unread _ hu hm left => rw [ha]; exact .failedCheck ⟨outcome, retryAfterMs⟩ hu hm hw ha left

theorem Kind.within (h : Kind slot tid parent e fate) (hs : slot.Within) : fate.Within := by
  cases h with
  | post outcome retryAfterMs hw ha => exact Slot.afterPost_within slot outcome hs ha
  | check result hw ha => exact Slot.afterCheck_within slot result.outcome hs
  | wait ms checkpoint hw => exact Slot.afterWait_within slot hs

theorem result_congr (h : t.results = m.results) (i : Nat) : t.result i = m.result i := by
  simp only [result, h]

/-- A Draft in flight stays in flight as long as order, results and position stay. -/
theorem InFlight.congr (h : InFlight review m tid d parent) (horder : t.order = m.order)
    (hresults : t.results = m.results) (hidx : t.idx = m.idx) :
    InFlight review t tid d parent := by
  refine ⟨?_, ?_, h.draft, h.remote, h.unposted, ?_⟩
  · rw [horder, hidx]; exact h.at_idx
  · rw [result_congr hresults, hidx]; exact h.undecided
  · rw [← h.parent]
    simp only [resolveParent, position, horder, result_congr hresults]

namespace Exchange

theorem good_of_same (h : Exchange review start m tid d parent e fate t) (hidx : t.idx = m.idx)
    (hresults : t.results = m.results) (hwithin : t.slot.Within) : Good review start t where
  order := h.elsewhere.order.trans h.good.order
  sized := h.elsewhere.sized
  idx_le := by rw [hidx, h.elsewhere.order]; exact h.good.idx_le
  ahead := fun i hi => by rw [result_congr hresults]; exact h.good.ahead i (hidx ▸ hi)
  kept := fun i r hr => by rw [result_congr hresults]; exact h.good.kept i r hr
  quiet := by
    intro i hi
    have hne : i ≠ m.idx := by omega
    rw [h.elsewhere.attempt i hne, h.elsewhere.checkAttempt i hne, h.elsewhere.ambiguous i hne]
    exact h.good.quiet i (hidx ▸ hi)
  engaged := .inr ⟨tid, d, parent, h.inFlight.congr h.elsewhere.order hresults hidx⟩
  within := hwithin
  passed := by
    intro i tid d hi hn ht hd
    rw [result_congr hresults] at hn
    rw [h.elsewhere.order] at ht
    exact h.good.passed i tid d (hidx ▸ hi) hn ht hd
  named := by
    intro i r hr
    rw [result_congr hresults] at hr
    rw [h.elsewhere.order]
    exact h.good.named i r hr
  shaped := by
    intro i r hr
    rw [result_congr hresults] at hr
    exact h.good.shaped i r hr
  earned := by
    intro i r hr
    rw [result_congr hresults] at hr
    exact h.good.earned i r hr

theorem result_kept (h : Exchange review start m tid d parent e fate t) (i : Nat) (r : ItemResult)
    (hr : m.result i = some r) : t.result i = some r := by
  have hne : i ≠ m.idx := by
    rintro rfl
    have := h.inFlight.undecided
    rw [hr] at this
    cases this
  rw [h.elsewhere.result i hne, hr]

theorem good_of_settled {status : ItemStatus} {id : Option CommentId} {reason : Option ApiError}
    (h : Exchange review start m tid d parent e (.settled status id reason) t) :
    Good review start t := by
  obtain ⟨hidx, hres, hwait, -⟩ := h.lands
  obtain ⟨hw, hshape, -⟩ := h.kind.settled
  have hlt := idx_lt h.inFlight.at_idx
  have hother : ∀ i, i ≠ m.idx → t.result i = m.result i := h.elsewhere.result
  have hquiet : ∀ i, m.idx < i → t.attempt i = 0 ∧ t.checkAttempt i = 0 ∧ t.ambiguous i = false := by
    intro i hi
    have hne : i ≠ m.idx := by omega
    rw [h.elsewhere.attempt i hne, h.elsewhere.checkAttempt i hne, h.elsewhere.ambiguous i hne]
    exact h.good.quiet i hi
  have hslot : t.slot = .untried := by
    obtain ⟨h₁, h₂, h₃⟩ := hquiet t.idx (by omega)
    have h₄ : t.mustWait = false := hwait.trans hw
    simp only [slot, h₁, h₂, h₃, h₄, Slot.untried]
  refine
    { order := h.elsewhere.order.trans h.good.order, sized := h.elsewhere.sized
      idx_le := by rw [hidx, h.elsewhere.order]; exact hlt
      ahead := ?_, kept := fun i r hr => h.result_kept i r (h.good.kept i r hr)
      quiet := fun i hi => hquiet i (by omega), engaged := .inl hslot
      within := hslot ▸ Slot.untried_within, passed := ?_, named := ?_, shaped := ?_,
      earned := ?_ }
  · intro i hi
    rw [hother i (by omega), h.good.ahead i (by omega)]
  · intro i tid' d' hi hn ht hd
    by_cases hii : i = m.idx
    · subst hii; rw [hres] at hn; cases hn
    · rw [hother i hii] at hn
      rw [h.elsewhere.order] at ht
      exact h.good.passed i tid' d' (by omega) hn ht hd
  · intro i r hr
    rw [h.elsewhere.order]
    by_cases hii : i = m.idx
    · subst hii
      rw [hres] at hr
      cases hr
      exact h.inFlight.at_idx
    · rw [hother i hii] at hr
      exact h.good.named i r hr
  · intro i r hr
    by_cases hii : i = m.idx
    · subst hii
      rw [hres] at hr
      cases hr
      exact hshape
    · rw [hother i hii] at hr
      exact h.good.shaped i r hr
  · intro i r hr
    by_cases hii : i = m.idx
    · subst hii
      rw [hres] at hr
      cases hr
      exact .inr ⟨d, h.inFlight.draft, h.inFlight.remote⟩
    · rw [hother i hii] at hr
      exact h.good.earned i r hr

theorem good_after (h : Exchange review start m tid d parent e fate t) : Good review start t := by
  cases fate with
  | settled status id reason => exact h.good_of_settled
  | aborts err =>
    obtain ⟨hidx, hresults, hslot, -⟩ := h.lands
    exact h.good_of_same hidx hresults (hslot ▸ h.good.within)
  | remains slot =>
    obtain ⟨hidx, hresults, hslot, -⟩ := h.lands
    have hwithin : slot.Within := h.kind.within h.good.within
    exact h.good_of_same hidx hresults (hslot ▸ hwithin)

end Exchange

theorem Good.step (h : Exchanges review s e t) (hg : Good review start s) : Good review start t := by
  obtain ⟨tid, d, parent, fate, hx⟩ := exchange h hg
  exact hx.good_after

variable {es : List Event}

section

variable (hg : Good review start s)
include hg

theorem Good.run (h : Run (Exchanges review) s es t) : Good review start t :=
  h.invariant (Good review start) Good.step hg

theorem Decided.advance (h : Decided s tid) : Decided (s.advance review).2 tid := by
  obtain ⟨i, r, ht, hr⟩ := h
  have hm := (advance_spec review s hg.sized.results).1
  exact ⟨i, r, hm.order ▸ ht, hm.kept i r hr⟩

theorem Decided.step (h : Exchanges review s e t) (hd : Decided (s.advance review).2 tid) :
    Decided t tid := by
  obtain ⟨tid', d, parent, fate, hx⟩ := exchange h hg
  obtain ⟨i, r, ht, hr⟩ := hd
  exact ⟨i, r, hx.elsewhere.order ▸ ht, hx.result_kept i r hr⟩

theorem Decided.run (h : Run (Exchanges review) s es t)
    (hd : Decided (s.advance review).2 tid) : Decided (t.advance review).2 tid := by
  refine (h.invariant (fun s => Good review start s ∧ Decided (s.advance review).2 tid) ?_ ⟨hg, hd⟩).2
  rintro s e t hst ⟨hg, hd⟩
  have hg' := hg.step hst
  exact ⟨hg', (hd.step hg hst).advance hg'⟩

theorem names_inFlight (tid : TempId) (h : (s.advance review).1.names = some tid) :
    ∃ d parent, InFlight review (s.advance review).2 tid d parent := by
  have hstops := (advance_spec review s hg.sized.results).2
  cases hstep : (s.advance review).1 with
  | done | aborted err => rw [hstep] at h; cases h
  | post effect | check effect =>
    rw [hstep] at h hstops
    cases h
    obtain ⟨-, -, -, -, d, hfl⟩ := hstops
    exact ⟨d, _, hfl⟩
  | wait effect =>
    rw [hstep] at h hstops
    cases h
    obtain ⟨-, -, -, -, d, parent, hfl⟩ := hstops
    exact ⟨d, parent, hfl⟩

/-- At the end of a run every remote Draft of the order has its result. -/
theorem Good.at_done (hdone : (s.advance review).1 = .done)
    (hmem : tid ∈ start.order) (hd : review.getConst tid = some d) (hremote : d.target = .bitbucket) :
    ∃ i r, start.order[i]? = some tid ∧ (s.advance review).2.result i = some r ∧ r.tempId = tid := by
  have hg' := hg.advance
  have hstops := (advance_spec review s hg.sized.results).2
  rw [hdone] at hstops
  obtain ⟨-, hend⟩ := hstops
  generalize (s.advance review).2 = m at *
  obtain ⟨i, hi⟩ := List.mem_iff_getElem?.mp hmem
  have hat : m.order[i]? = some tid := by rw [hg'.order]; exact hi
  have hlt : i < m.idx := Nat.lt_of_lt_of_le (List.getElem?_eq_some_iff.mp hat).1 hend
  cases hr : m.result i with
  | none =>
    have := hg'.passed i tid d hlt hr hat hd
    rw [hremote] at this
    cases this
  | some r =>
    have hname := hg'.named i r hr
    rw [hat] at hname
    exact ⟨i, r, hi, hr, (Option.some.inj hname).symm⟩

end

/-- In an order without repetitions the Draft in flight is not decided. -/
theorem InFlight.not_decided (h : InFlight review m tid d parent) (hnodup : m.order.Nodup) :
    ¬ Decided m tid := by
  rintro ⟨i, r, ht, hr⟩
  have hidx : i = m.idx :=
    (List.getElem?_inj (List.getElem?_eq_some_iff.mp ht).1 hnodup).mp (ht.trans h.at_idx.symm)
  have hopen := h.undecided
  rw [← hidx, hr] at hopen
  cases hopen

theorem Decided.not_named (hg : Good review start s) (hnodup : start.order.Nodup)
    (hd : Decided (s.advance review).2 tid) : (s.advance review).1.names ≠ some tid := by
  intro hn
  obtain ⟨d, parent, hfl⟩ := names_inFlight hg tid hn
  exact hfl.not_decided (by rw [hg.advance.order]; exact hnodup) hd

end Submission

end Bbr.Review
