import Bbr.Review.Submission
import Bbr.Lib.Runs

/-!
# What one call of the Submission machine can do

Small equations for the position arrays, and one inversion lemma for `advance`: how far it moves, which
results it adds on the way and what it knows about the position it stops at. Later modules use
`advance_spec` and the `report` equations and never unfold the machine.
-/
namespace Bbr.Review

open Bbr.Bitbucket List

namespace Submission

theorem getD_set {α : Type} (l : List α) (i j : Nat) (a d : α) :
    (l.set i a).getD j d = if i = j ∧ i < l.length then a else l.getD j d := by
  by_cases hij : i = j
  · subst hij
    by_cases hi : i < l.length
    · simp [hi]
    · simp [hi]
  · simp [hij]

variable (s : Submission) (review : PendingReview)

theorem result_setResult (i j : Nat) (r : ItemResult) :
    (s.setResult i r).result j = if i = j ∧ i < s.results.length then some r else s.result j :=
  getD_set s.results i j (some r) none

@[simp] theorem settle_order (i : Nat) (r : ItemResult) : (s.settle i r).order = s.order := rfl
@[simp] theorem settle_results_length (i : Nat) (r : ItemResult) :
    (s.settle i r).results.length = s.results.length := by simp [settle, setResult]

theorem settle_result (i j : Nat) (r : ItemResult) :
    (s.settle i r).result j = if i = j ∧ i < s.results.length then some r else s.result j :=
  result_setResult s i j r

/-- A result `advance` itself records: durable evidence of an earlier run, or a blocked parent. -/
inductive Passing (review : PendingReview) (tid : TempId) (d : Draft) : ItemResult → Prop where
  | posted (id : CommentId) (state : d.state = .posted id) :
      Passing review tid d { tempId := tid, status := .posted, id := some id }
  | skipped (reason : Option ApiError) :
      Passing review tid d { tempId := tid, status := .skipped, reason := reason }

/-- `Moved review s t`: `advance` may have walked from `s` to `t`. Only `idx` and the results of the
positions walked over differ. -/
structure Moved (review : PendingReview) (s t : Submission) : Prop where
  order : t.order = s.order
  attempts : t.attempts = s.attempts
  checkAttempts : t.checkAttempts = s.checkAttempts
  ambiguousLast : t.ambiguousLast = s.ambiguousLast
  mustWait : t.mustWait = s.mustWait
  retryCheckpoint : t.retryCheckpoint = s.retryCheckpoint
  terminal : t.terminalServerDelayMs = s.terminalServerDelayMs
  abortedReason : t.abortedReason = s.abortedReason
  results_length : t.results.length = s.results.length
  idx_le : s.idx ≤ t.idx
  outside : ∀ i, i < s.idx ∨ t.idx ≤ i → t.result i = s.result i
  kept : ∀ i r, s.result i = some r → t.result i = some r
  fresh : ∀ i r, t.result i = some r → s.result i = none →
    ∃ tid d, s.order[i]? = some tid ∧ review.getConst tid = some d ∧
      d.target ≠ .localOnly ∧ Passing review tid d r
  passed : ∀ i, s.idx ≤ i → i < t.idx → t.result i = none →
    ∀ tid d, s.order[i]? = some tid → review.getConst tid = some d → d.target = .localOnly
  bounded : t.idx ≤ max s.idx s.order.length

theorem Moved.refl (s : Submission) : Moved review s s where
  order := rfl
  attempts := rfl
  checkAttempts := rfl
  ambiguousLast := rfl
  mustWait := rfl
  retryCheckpoint := rfl
  terminal := rfl
  abortedReason := rfl
  results_length := rfl
  idx_le := Nat.le_refl _
  outside := fun _ _ => rfl
  kept := fun _ _ h => h
  fresh := fun i r h hn => by rw [h] at hn; cases hn
  passed := fun i h h' => absurd h' (by omega)
  bounded := by omega

theorem Moved.cons {review : PendingReview} {s m t : Submission} {tid : TempId}
    (h : Moved review m t) (hlt : s.order[s.idx]? = some tid) (hidx : m.idx = s.idx + 1)
    (hsame : m.order = s.order ∧ m.attempts = s.attempts ∧ m.checkAttempts = s.checkAttempts ∧
      m.ambiguousLast = s.ambiguousLast ∧ m.mustWait = s.mustWait ∧
      m.retryCheckpoint = s.retryCheckpoint ∧
      m.terminalServerDelayMs = s.terminalServerDelayMs ∧ m.abortedReason = s.abortedReason ∧
      m.results.length = s.results.length)
    (hother : ∀ i, i ≠ s.idx → m.result i = s.result i)
    (hkept : ∀ r, s.result s.idx = some r → m.result s.idx = some r)
    (hfresh : ∀ r, m.result s.idx = some r → s.result s.idx = none →
      ∃ d, review.getConst tid = some d ∧ d.target ≠ .localOnly ∧ Passing review tid d r)
    (hpassed : m.result s.idx = none → ∀ d, review.getConst tid = some d → d.target = .localOnly) :
    Moved review s t := by
  obtain ⟨horder, hatt, hchk, hamb, hwait, hretry, hterm, habort, hlen⟩ := hsame
  have hslen : s.idx < s.order.length := (List.getElem?_eq_some_iff.mp hlt).1
  have hat : t.result s.idx = m.result s.idx := h.outside _ (Or.inl (by omega))
  refine
    { order := h.order.trans horder, attempts := h.attempts.trans hatt,
      checkAttempts := h.checkAttempts.trans hchk, ambiguousLast := h.ambiguousLast.trans hamb,
      mustWait := h.mustWait.trans hwait, retryCheckpoint := h.retryCheckpoint.trans hretry,
      terminal := h.terminal.trans hterm, abortedReason := h.abortedReason.trans habort,
      results_length := h.results_length.trans hlen,
      idx_le := by have := h.idx_le; omega, outside := ?_, kept := ?_, fresh := ?_, passed := ?_,
      bounded := by have := h.bounded; rw [horder] at this; omega }
  · intro i hi
    have hne : i ≠ s.idx := by have := h.idx_le; omega
    rw [h.outside i (by omega), hother i hne]
  · intro i r hr
    refine h.kept i r ?_
    by_cases hi : i = s.idx
    · subst hi; exact hkept r hr
    · rw [hother i hi]; exact hr
  · intro i r hr hn
    by_cases hi : i = s.idx
    · subst hi
      rw [hat] at hr
      obtain ⟨d, hd⟩ := hfresh r hr hn
      exact ⟨tid, d, hlt, hd⟩
    · rw [← hother i hi] at hn
      obtain ⟨tid', d, hrest⟩ := h.fresh i r hr hn
      exact ⟨tid', d, horder ▸ hrest⟩
  · intro i hle hlt' hn tid' d htid hd
    by_cases hi : i = s.idx
    · subst hi
      rw [hat] at hn
      rw [hlt] at htid
      cases htid
      exact hpassed hn d hd
    · exact h.passed i (by omega) hlt' hn tid' d (horder ▸ htid) hd

/-- The position in flight names this Draft, which is still open, remote and unblocked. -/
structure InFlight (review : PendingReview) (s : Submission) (tid : TempId) (d : Draft)
    (parent : Option CommentId) : Prop where
  at_idx : s.order[s.idx]? = some tid
  undecided : s.result s.idx = none
  draft : review.getConst tid = some d
  remote : d.target ≠ .localOnly
  unposted : ∀ id, d.state ≠ .posted id
  parent : s.resolveParent review d = .ok parent

/-- What `advance` knows when it stops. -/
def Stops (review : PendingReview) (t : Submission) : Step → Prop
  | .aborted e => t.abortedReason = some e
  | .done => t.abortedReason = none ∧ t.order.length ≤ t.idx
  | .post p => t.abortedReason = none ∧ t.mustWait = false ∧ t.ambiguous t.idx = false ∧
      p.dedupe = false ∧ ∃ d, InFlight review t p.tempId d p.parent
  | .check p => t.abortedReason = none ∧ t.mustWait = false ∧ t.ambiguous t.idx = true ∧
      p.dedupe = true ∧ ∃ d, InFlight review t p.tempId d p.parent
  | .wait w => t.abortedReason = none ∧ t.mustWait = true ∧ w.checkpoint = t.retryCheckpoint ∧
      w.ms = t.retryCheckpoint.effectiveDelayMs ∧ ∃ d parent, InFlight review t w.tempId d parent

section

variable {review s} {t : Submission} {tid : TempId} {d : Draft} {parent : Option CommentId}

/-- A position that is only walked over: `hpassed` says why it may stay open. -/
theorem Moved.walked (h : Moved review { s with idx := s.idx + 1 } t) (hat : s.order[s.idx]? = some tid)
    (hpassed : s.result s.idx = none → ∀ d, review.getConst tid = some d → d.target = .localOnly) :
    Moved review s t := by
  refine h.cons hat rfl ⟨rfl, rfl, rfl, rfl, rfl, rfl, rfl, rfl, rfl⟩ (fun _ _ => rfl)
    (fun _ h => h) ?_ hpassed
  intro r hr hn
  exact absurd (hr.symm.trans hn) (by simp)

/-- A position that `advance` settles on the way. -/
theorem Moved.settled {r : ItemResult} (h : Moved review (s.settle s.idx r) t)
    (hat : s.order[s.idx]? = some tid) (hlt : s.idx < s.results.length)
    (hopen : s.result s.idx = none) (hd : review.getConst tid = some d)
    (htarget : d.target ≠ .localOnly) (hpass : Passing review tid d r) : Moved review s t := by
  have hres : (s.settle s.idx r).result s.idx = some r := by
    rw [settle_result, if_pos ⟨rfl, hlt⟩]
  refine h.cons hat rfl ⟨rfl, rfl, rfl, rfl, rfl, rfl, rfl, rfl, by simp⟩ ?_ ?_ ?_ ?_
  · intro i hi
    rw [settle_result, if_neg]
    intro hand; exact hi hand.1.symm
  · intro r' hr'
    exact absurd (hr'.symm.trans hopen) (by simp)
  · intro r' hr' _
    rw [hres] at hr'
    cases hr'
    exact ⟨d, hd, htarget, hpass⟩
  · intro hn
    exact absurd (hres.symm.trans hn) (by simp)

/-- The Draft at the position is open: `advance` stops there. -/
theorem stops_inFlight (hab : s.abortedReason = none) (hfl : InFlight review s tid d parent)
    {out : Step × Submission} (hout : out = if s.mustWait then
        (.wait ⟨s.retryCheckpoint.effectiveDelayMs, tid, s.retryCheckpoint⟩, s)
      else if s.ambiguous s.idx then (.check ⟨tid, parent, true⟩, s)
      else (.post ⟨tid, parent, false⟩, s)) :
    Moved review s out.2 ∧ Stops review out.2 out.1 := by
  subst hout
  by_cases hw : s.mustWait
  · rw [if_pos hw]
    exact ⟨.refl review s, hab, hw, rfl, rfl, d, parent, hfl⟩
  rw [if_neg hw]
  have hw' : s.mustWait = false := by simpa using hw
  by_cases ha : s.ambiguous s.idx
  · rw [if_pos ha]
    exact ⟨.refl review s, hab, hw', ha, rfl, d, hfl⟩
  · rw [if_neg ha]
    have ha' : s.ambiguous s.idx = false := by simpa using ha
    exact ⟨.refl review s, hab, hw', ha', rfl, d, hfl⟩

end

theorem drop_eq_cons {α : Type} {l rest : List α} {i : Nat} {a : α} (h : l.drop i = a :: rest) :
    l[i]? = some a ∧ l.drop (i + 1) = rest := by
  constructor
  · have := congrArg head? h
    simpa [head?_drop] using this
  · have := congrArg tail h
    simpa [tail_drop] using this

theorem advanceFrom_spec (rest : List TempId) (s : Submission) (hrest : s.order.drop s.idx = rest)
    (hab : s.abortedReason = none) (hlen : s.results.length = s.order.length) :
    Moved review s (advanceFrom review rest s).2 ∧
      Stops review (advanceFrom review rest s).2 (advanceFrom review rest s).1 := by
  induction rest generalizing s with
  | nil =>
    refine ⟨Moved.refl review s, hab, ?_⟩
    exact List.drop_eq_nil_iff.mp hrest
  | cons tid rest ih =>
    obtain ⟨hat, hdrop⟩ := drop_eq_cons hrest
    have hlt : s.idx < s.order.length := (List.getElem?_eq_some_iff.mp hat).1
    unfold advanceFrom
    by_cases hdec : (s.result s.idx).isSome
    · simp only [hdec, if_true]
      exact (ih { s with idx := s.idx + 1 } hdrop hab hlen).imp_left
        (·.walked hat fun hn => by simp [hn] at hdec)
    have hopen : s.result s.idx = none := by simpa using hdec
    simp only [hopen, Option.isSome_none, Bool.false_eq_true, if_false]
    cases hd : review.getConst tid with
    | none =>
      exact (ih { s with idx := s.idx + 1 } hdrop hab hlen).imp_left
        (·.walked hat fun _ d h => by rw [hd] at h; cases h)
    | some d =>
      by_cases hlocal : d.target = .localOnly
      · simp only [hlocal, if_true]
        refine (ih { s with idx := s.idx + 1 } hdrop hab hlen).imp_left (·.walked hat fun _ d' h => ?_)
        rw [hd] at h
        cases h
        exact hlocal
      simp only [hlocal, if_false]
      have hsettle : ∀ r, Passing review tid d r →
          Moved review s (advanceFrom review rest (s.settle s.idx r)).2 ∧
          Stops review (advanceFrom review rest (s.settle s.idx r)).2
            (advanceFrom review rest (s.settle s.idx r)).1 := fun r hpass =>
        (ih (s.settle s.idx r) hdrop hab (by simpa using hlen)).imp_left
          (·.settled hat (hlen ▸ hlt) hopen hd hlocal hpass)
      by_cases hposted : ∃ id, d.state = .posted id
      · obtain ⟨id, hid⟩ := hposted
        simp only [hid]
        exact hsettle _ (.posted id hid)
      have hun : ∀ id, d.state ≠ .posted id := fun id h => hposted ⟨id, h⟩
      cases hp : s.resolveParent review d with
      | blocked =>
        have := hsettle _ (.skipped (s.parentReason review d))
        cases hst : d.state with
        | posted id => exact absurd hst (hun id)
        | _ => simpa only [hp] using this
      | ok parent =>
        have hfl : InFlight review s tid d parent := ⟨hat, hopen, hd, hlocal, hun, hp⟩
        cases hst : d.state with
        | posted id => exact absurd hst (hun id)
        | _ => exact stops_inFlight hab hfl (by cases ha : s.ambiguous s.idx <;> simp)

/-- The inversion lemma of `advance`. -/
theorem advance_spec (s : Submission) (hlen : s.results.length = s.order.length) :
    Moved review s (s.advance review).2 ∧ Stops review (s.advance review).2 (s.advance review).1 := by
  unfold advance
  cases hab : s.abortedReason with
  | some e => exact ⟨Moved.refl review s, hab⟩
  | none => exact advanceFrom_spec review _ s rfl hab hlen

theorem advance_inFlight {review : PendingReview} {s : Submission} {tid : TempId} {d : Draft}
    {parent : Option CommentId} (h : InFlight review s tid d parent)
    (hab : s.abortedReason = none) :
    s.advance review =
      (if s.mustWait then .wait ⟨s.retryCheckpoint.effectiveDelayMs, tid, s.retryCheckpoint⟩
        else if s.ambiguous s.idx then .check ⟨tid, parent, true⟩
        else .post ⟨tid, parent, false⟩, s) := by
  obtain ⟨hlt, hat⟩ := List.getElem?_eq_some_iff.mp h.at_idx
  have hcons : s.order.drop s.idx = tid :: s.order.drop (s.idx + 1) := by
    rw [List.drop_eq_getElem_cons hlt, hat]
  have hun := h.unposted
  simp only [advance, hab, hcons, advanceFrom, h.undecided, Option.isSome_none, Bool.false_eq_true,
    if_false, h.draft, h.remote, h.parent]
  cases hst : d.state with
  | posted id => exact absurd hst (hun id)
  | _ => cases s.mustWait <;> cases ha : s.ambiguous s.idx <;> simp

end Submission

end Bbr.Review
