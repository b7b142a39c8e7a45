import Bbr.Review.SubmissionStep

/-!
# The life of one item

An abstract view of a Submission: the item in flight is a `Slot` of two budgets and two flags, and an
answer sends it to a `Fate`. `report_lands`, `reportCheck_lands` and `completeWait_lands` say that the
machine's three report functions do exactly this at `idx` and nothing elsewhere.
-/
namespace Bbr.Review

open Bbr.Bitbucket

structure Slot where
  attempts : Nat
  checks : Nat
  ambiguous : Bool
  waiting : Bool
  deriving DecidableEq, Repr

/-- What an answer makes of the item in flight. -/
inductive Fate where
  | remains (slot : Slot)
  | settled (status : ItemStatus) (id : Option CommentId) (reason : Option ApiError)
  | aborts (reason : ApiError)
  deriving DecidableEq, Repr

namespace Slot

/-- An item nothing has been tried for. -/
def untried : Slot := ⟨0, 0, false, false⟩

def afterPost (slot : Slot) : PostOutcome → Fate
  | .posted id => .settled .posted (some id) none
  | .ambiguous => .remains { slot with attempts := slot.attempts + 1, checks := 0, ambiguous := true }
  | .rejected err => match classifyPolicy err with
    | .abort => .aborts err
    | .fail => .settled .failed none (some err)
    | .retry =>
      if slot.attempts + 1 ≥ maxAttempts then .settled .failed none (some err)
      else .remains
        { slot with attempts := slot.attempts + 1, ambiguous := false, waiting := true }

def afterFailedCheck (slot : Slot) : Fate :=
  if slot.checks + 1 ≥ maxAttempts then .settled .outcomeUnknown none none
  else .remains { slot with checks := slot.checks + 1, waiting := true }

def afterCheck (slot : Slot) : CheckOutcome → Fate
  | .found id => .settled .posted (some id) none
  | .missing =>
    if slot.attempts ≥ maxAttempts then .settled .outcomeUnknown none none
    else .remains { slot with checks := 0, ambiguous := false, waiting := true }
  | .ambiguous => slot.afterFailedCheck
  | .rejected err => match classifyPolicy err with
    | .retry => slot.afterFailedCheck
    | .abort | .fail => .settled .outcomeUnknown none none

def afterWait (slot : Slot) : Fate := .remains { slot with waiting := false }

/-- What the budgets of an item can be between two answers: a POST is only tried below the limit,
and an ambiguous one has been counted. -/
structure Within (slot : Slot) : Prop where
  attempts : slot.attempts ≤ maxAttempts
  checks : slot.checks < maxAttempts
  clear : slot.ambiguous = false → slot.attempts < maxAttempts
  tried : slot.ambiguous = true → 0 < slot.attempts

theorem untried_within : untried.Within := by
  constructor <;> simp [untried, maxAttempts]

end Slot

/-- A fate that leaves the item open leaves its budgets within bounds. -/
def Fate.Within : Fate → Prop
  | .remains slot => slot.Within
  | _ => True

namespace Slot

/-- What an answer to a POST can do. -/
inductive Posting (slot : Slot) : PostOutcome → Fate → Prop where
  | posted (id : CommentId) : Posting slot (.posted id) (.settled .posted (some id) none)
  | ambiguous : Posting slot .ambiguous
      (.remains { slot with attempts := slot.attempts + 1, checks := 0, ambiguous := true })
  | aborts (err : ApiError) (policy : classifyPolicy err = .abort) :
      Posting slot (.rejected err) (.aborts err)
  | failed (err : ApiError) : Posting slot (.rejected err) (.settled .failed none (some err))
  | retried (err : ApiError) (policy : classifyPolicy err = .retry)
      (left : slot.attempts + 1 < maxAttempts) : Posting slot (.rejected err)
      (.remains { slot with attempts := slot.attempts + 1, ambiguous := false, waiting := true })

/-- What an answer to a read can do. -/
inductive Checking (slot : Slot) : CheckOutcome → Fate → Prop where
  | found (id : CommentId) : Checking slot (.found id) (.settled .posted (some id) none)
  | unknown (outcome : CheckOutcome) (unfound : ∀ id, outcome ≠ .found id) :
      Checking slot outcome (.settled .outcomeUnknown none none)
  | missing (left : slot.attempts < maxAttempts) : Checking slot .missing
      (.remains { slot with checks := 0, ambiguous := false, waiting := true })
  | unread (outcome : CheckOutcome) (unfound : ∀ id, outcome ≠ .found id)
      (unsettled : outcome ≠ .missing) (left : slot.checks + 1 < maxAttempts) :
      Checking slot outcome (.remains { slot with checks := slot.checks + 1, waiting := true })

variable {slot : Slot} {fate : Fate}

theorem posting {outcome : PostOutcome} (hf : slot.afterPost outcome = fate) :
    slot.Posting outcome fate := by
  subst hf
  cases outcome with
  | posted id => exact .posted id
  | ambiguous => exact .ambiguous
  | rejected err =>
    cases hp : classifyPolicy err with
    | abort => simpa only [afterPost, hp] using .aborts err hp
    | fail => simpa only [afterPost, hp] using .failed err
    | retry =>
      simp only [afterPost, hp]
      split
      · exact .failed err
      · next hmax => exact .retried err hp (Nat.lt_of_not_le hmax)

theorem checking_unread {outcome : CheckOutcome} (hu : ∀ id, outcome ≠ .found id)
    (hm : outcome ≠ .missing) : slot.Checking outcome slot.afterFailedCheck := by
  unfold afterFailedCheck
  split
  · exact .unknown _ hu
  · next hmax => exact .unread _ hu hm (Nat.lt_of_not_le hmax)

theorem checking {outcome : CheckOutcome} (hf : slot.afterCheck outcome = fate) :
    slot.Checking outcome fate := by
  subst hf
  cases outcome with
  | found id => exact .found id
  | ambiguous => exact checking_unread (by simp) (by simp)
  | missing =>
    simp only [afterCheck]
    split
    · exact .unknown _ (by simp)
    · next hmax => exact .missing (Nat.lt_of_not_le hmax)
  | rejected err =>
    cases hp : classifyPolicy err with
    | abort | fail => simpa only [afterCheck, hp] using .unknown _ (by simp)
    | retry => simpa only [afterCheck, hp] using checking_unread (by simp) (by simp)

variable (slot)

theorem afterPost_within (outcome : PostOutcome) (h : slot.Within)
    (hclear : slot.ambiguous = false) : Fate.Within (slot.afterPost outcome) := by
  have hlt := h.clear hclear
  have hchk := h.checks
  generalize hf : slot.afterPost outcome = fate
  cases posting hf with
  | posted | aborts | failed => trivial
  | ambiguous => constructor <;> simp [maxAttempts] at *; omega
  | retried err hp left => constructor <;> simp [maxAttempts] at * <;> omega

theorem afterCheck_within (outcome : CheckOutcome) (h : slot.Within) :
    Fate.Within (slot.afterCheck outcome) := by
  generalize hf : slot.afterCheck outcome = fate
  cases checking hf with
  | found | unknown => trivial
  | missing left => constructor <;> simp [maxAttempts] at * <;> omega
  | unread _ _ _ left => exact ⟨h.attempts, left, h.clear, h.tried⟩

theorem afterWait_within (h : slot.Within) : Fate.Within slot.afterWait :=
  ⟨h.attempts, h.checks, h.clear, h.tried⟩

end Slot

namespace Submission

def slot (s : Submission) : Slot :=
  ⟨s.attempt s.idx, s.checkAttempt s.idx, s.ambiguous s.idx, s.mustWait⟩

/-- All four arrays have one entry for each position. -/
structure Sized (s : Submission) : Prop where
  attempts : s.attempts.length = s.order.length
  checkAttempts : s.checkAttempts.length = s.order.length
  ambiguousLast : s.ambiguousLast.length = s.order.length
  results : s.results.length = s.order.length

/-- Only the position in flight may differ. -/
structure Elsewhere (m t : Submission) : Prop where
  order : t.order = m.order
  sized : t.Sized
  attempt : ∀ i, i ≠ m.idx → t.attempt i = m.attempt i
  checkAttempt : ∀ i, i ≠ m.idx → t.checkAttempt i = m.checkAttempt i
  ambiguous : ∀ i, i ≠ m.idx → t.ambiguous i = m.ambiguous i
  result : ∀ i, i ≠ m.idx → t.result i = m.result i

/-- `t` is what an answer with this fate makes of `m`, whose position in flight names `tid`. -/
def Lands (tid : TempId) (m t : Submission) : Fate → Prop
  | .remains slot => t.idx = m.idx ∧ t.results = m.results ∧ t.slot = slot ∧
      t.abortedReason = m.abortedReason
  | .settled status id reason => t.idx = m.idx + 1 ∧
      t.result m.idx = some ⟨tid, status, id, reason⟩ ∧ t.mustWait = m.mustWait ∧
      t.abortedReason = m.abortedReason
  | .aborts err => t.idx = m.idx ∧ t.results = m.results ∧ t.slot = m.slot ∧
      t.abortedReason = some err

variable {m : Submission} {tid : TempId}

/-- One entry of an array may have been written. -/
inductive Touched {α : Type} (i : Nat) (l : List α) : List α → Prop where
  | same : Touched i l l
  | set (v : α) : Touched i l (l.set i v)

theorem Touched.length {α : Type} {i : Nat} {l l' : List α} (h : Touched i l l') :
    l'.length = l.length := by
  cases h <;> simp

theorem Touched.getD {α : Type} {i j : Nat} {l l' : List α} (h : Touched i l l') (hj : j ≠ i)
    (a : α) : l'.getD j a = l.getD j a := by
  cases h <;> simp [List.getD_eq_getElem?_getD, hj.symm]

/-- The array updates of the report functions, at the position in flight. -/
theorem elsewhere_update (hs : m.Sized) (t : Submission) (horder : t.order = m.order)
    (hattempts : Touched m.idx m.attempts t.attempts := by constructor)
    (hchecks : Touched m.idx m.checkAttempts t.checkAttempts := by constructor)
    (hambiguous : Touched m.idx m.ambiguousLast t.ambiguousLast := by constructor)
    (hresults : Touched m.idx m.results t.results := by constructor) :
    Elsewhere m t := by
  exact ⟨horder,
    ⟨by rw [hattempts.length, hs.attempts, horder], by rw [hchecks.length, hs.checkAttempts, horder],
      by rw [hambiguous.length, hs.ambiguousLast, horder],
      by rw [hresults.length, hs.results, horder]⟩,
    fun i hi => hattempts.getD hi 0, fun i hi => hchecks.getD hi 0,
    fun i hi => hambiguous.getD hi false, fun i hi => hresults.getD hi none⟩

theorem getD_set_self {α : Type} {l : List α} {i : Nat} (h : i < l.length) (a d : α) :
    (l.set i a).getD i d = a := by
  rw [getD_set, if_pos ⟨rfl, h⟩]

theorem idx_lt (hat : m.order[m.idx]? = some tid) : m.idx < m.order.length :=
  (List.getElem?_eq_some_iff.mp hat).1

theorem Sized.bounds (hs : m.Sized) (hat : m.order[m.idx]? = some tid) :
    m.idx < m.attempts.length ∧ m.idx < m.checkAttempts.length ∧ m.idx < m.ambiguousLast.length ∧
      m.idx < m.results.length := by
  have hlt := idx_lt hat
  exact ⟨hs.attempts ▸ hlt, hs.checkAttempts ▸ hlt, hs.ambiguousLast ▸ hlt, hs.results ▸ hlt⟩

section

variable (hs : m.Sized) (hat : m.order[m.idx]? = some tid)
include hs hat

/-- `report` does to the item in flight what `afterPost` says, and nothing elsewhere. -/
theorem report_lands (outcome : PostOutcome) (retryAfterMs : Option Nat) :
    Elsewhere m (m.report outcome retryAfterMs) ∧
      Lands tid m (m.report outcome retryAfterMs) (m.slot.afterPost outcome) := by
  obtain ⟨ha, hc, hb, hr⟩ := hs.bounds hat
  cases outcome with
  | posted id =>
    simp only [report, hat, Slot.afterPost]
    exact ⟨elsewhere_update hs _ rfl, rfl, getD_set_self hr _ _, rfl, rfl⟩
  | ambiguous =>
    simp only [report, hat, Slot.afterPost]
    refine ⟨elsewhere_update hs _ rfl, rfl, rfl, ?_, rfl⟩
    simp only [slot, attempt, checkAttempt, ambiguous, getD_set_self ha, getD_set_self hc,
      getD_set_self hb]
  | rejected err =>
    cases hp : classifyPolicy err with
    | abort =>
      simp only [report, hat, Slot.afterPost, hp]
      exact ⟨elsewhere_update hs _ rfl, rfl, rfl, rfl, rfl⟩
    | fail =>
      simp only [report, hat, Slot.afterPost, hp]
      exact ⟨elsewhere_update hs _ rfl, rfl, getD_set_self hr _ _, rfl, rfl⟩
    | retry =>
      have hget : (m.attempts.set m.idx (m.attempt m.idx + 1)).getD m.idx 0 = m.attempt m.idx + 1 :=
        getD_set_self ha _ _
      have hslot : m.slot.attempts = m.attempt m.idx := rfl
      simp only [report, hat, Slot.afterPost, hp, scheduleRetryOrFail, hslot, setWait]
      by_cases hmax : m.attempt m.idx + 1 ≥ maxAttempts
      · rw [if_pos hmax, if_pos (by simpa only [attempt, getD_set_self ha] using hmax)]
        exact ⟨elsewhere_update hs _ rfl, rfl, getD_set_self hr _ _, rfl, rfl⟩
      rw [if_neg hmax, if_neg (by simpa only [attempt, getD_set_self ha] using hmax)]
      refine ⟨elsewhere_update hs _ rfl, rfl, rfl, ?_, rfl⟩
      simp only [slot, attempt, checkAttempt, ambiguous, getD_set_self hb]
      simpa only [attempt, Slot.mk.injEq, and_true] using hget

theorem scheduleCheckRetryOrUnknown_lands (reason : SubmissionRetryReason) (retryAfterMs : Option Nat) :
    Elsewhere m (m.scheduleCheckRetryOrUnknown m.idx tid reason retryAfterMs) ∧
      Lands tid m (m.scheduleCheckRetryOrUnknown m.idx tid reason retryAfterMs)
        m.slot.afterFailedCheck := by
  obtain ⟨-, hc, -, hr⟩ := hs.bounds hat
  have hget : (m.checkAttempts.set m.idx (m.checkAttempt m.idx + 1)).getD m.idx 0 =
      m.checkAttempt m.idx + 1 := getD_set_self hc _ _
  have hslot : m.slot.checks = m.checkAttempt m.idx := rfl
  simp only [scheduleCheckRetryOrUnknown, Slot.afterFailedCheck, hslot, setCheckWait]
  by_cases hmax : m.checkAttempt m.idx + 1 ≥ maxAttempts
  · rw [if_pos hmax, if_pos (by simpa only [checkAttempt, getD_set_self hc] using hmax)]
    exact ⟨elsewhere_update hs _ rfl, rfl, getD_set_self hr _ _, rfl, rfl⟩
  · rw [if_neg hmax, if_neg (by simpa only [checkAttempt, getD_set_self hc] using hmax)]
    refine ⟨elsewhere_update hs _ rfl, rfl, rfl, ?_, rfl⟩
    simpa [slot, attempt, checkAttempt, ambiguous] using hget

/-- `reportCheck` does to the item in flight what `afterCheck` says, and nothing elsewhere. -/
theorem reportCheck_lands (result : CheckResult) : Elsewhere m (m.reportCheck result) ∧
      Lands tid m (m.reportCheck result) (m.slot.afterCheck result.outcome) := by
  obtain ⟨-, hc, hb, hr⟩ := hs.bounds hat
  cases ho : result.outcome with
  | found id =>
    simp only [reportCheck, hat, ho, Slot.afterCheck]
    exact ⟨elsewhere_update hs _ rfl, rfl, getD_set_self hr _ _, rfl, rfl⟩
  | ambiguous =>
    have := scheduleCheckRetryOrUnknown_lands hs hat .publicationCheckTransport result.retryAfterMs
    simpa only [reportCheck, hat, ho, Slot.afterCheck] using this
  | missing =>
    have hslot : m.slot.attempts = m.attempt m.idx := rfl
    simp only [reportCheck, hat, ho, Slot.afterCheck, hslot]
    by_cases hmax : m.attempt m.idx ≥ maxAttempts
    · rw [if_pos hmax, if_pos (by simpa only [attempt] using hmax)]
      exact ⟨elsewhere_update hs _ rfl, rfl, getD_set_self hr _ _, rfl, rfl⟩
    · rw [if_neg hmax, if_neg (by simpa only [attempt] using hmax)]
      refine ⟨elsewhere_update hs _ rfl, rfl, rfl, ?_, rfl⟩
      simp only [slot, setWait, attempt, checkAttempt, ambiguous, getD_set_self hb, getD_set_self hc]
  | rejected err =>
    cases hp : classifyPolicy err with
    | retry =>
      have := scheduleCheckRetryOrUnknown_lands hs hat (checkReason err) result.retryAfterMs
      simpa only [reportCheck, hat, ho, hp, Slot.afterCheck] using this
    | abort | fail =>
      simp only [reportCheck, hat, ho, hp, Slot.afterCheck]
      exact ⟨elsewhere_update hs _ rfl, rfl, getD_set_self hr _ _, rfl, rfl⟩

end

theorem completeWait_lands (tid : TempId) (hs : m.Sized) :
    Elsewhere m m.completeWait ∧ Lands tid m m.completeWait m.slot.afterWait :=
  ⟨elsewhere_update hs _ rfl, rfl, rfl, rfl, rfl⟩

end Submission

end Bbr.Review
