import Bbr.Review.SubmissionRun

/-!
# What stands behind a result

An outcome carries what its status calls for. A skipped Draft hangs on a Draft that was not posted,
and where that Draft came before it the two share their reason. This holds from every start, a
restored one included.
-/
namespace Bbr.Review

open Bbr.Bitbucket Bbr.Lib

/-- Only a posted item has an id, a failed one has its reason and an unknown one has none. -/
inductive ItemResult.Shaped : ItemResult → Prop where
  | posted (tempId : TempId) (id : CommentId) : Shaped ⟨tempId, .posted, some id, none⟩
  | failed (tempId : TempId) (reason : ApiError) : Shaped ⟨tempId, .failed, none, some reason⟩
  | skipped (tempId : TempId) (reason : Option ApiError) : Shaped ⟨tempId, .skipped, none, reason⟩
  | outcomeUnknown (tempId : TempId) : Shaped ⟨tempId, .outcomeUnknown, none, none⟩

namespace Submission

variable {review : PendingReview} {s t : Submission} {e : Event} {i j : Nat} {tid pid : TempId}
  {r : ItemResult}

/-- Why the Draft at a position was skipped, as far as remote Drafts before it tell. -/
def SkippedBy (review : PendingReview) (s : Submission) (i : Nat) (r : ItemResult) : Prop :=
  ∃ d pid, review.getConst r.tempId = some d ∧ d.parent = some (.draft pid) ∧
    ∀ j < i, s.order[j]? = some pid → ∀ dp, review.getConst pid = some dp →
      dp.target ≠ .localOnly →
        ∃ p, s.result j = some p ∧ p.status ≠ .posted ∧ r.reason = p.reason

structure Explained (review : PendingReview) (s : Submission) : Prop where
  sized : s.Sized
  nodup : s.order.Nodup
  passed : ∀ i tid d, i < s.idx → s.result i = none → s.order[i]? = some tid →
    review.getConst tid = some d → d.target = .localOnly
  named : ∀ i r, s.result i = some r → s.order[i]? = some r.tempId
  shaped : ∀ i r, s.result i = some r → r.Shaped
  skips : ∀ i r, s.result i = some r → r.status = .skipped → SkippedBy review s i r

theorem SkippedBy.mono (h : SkippedBy review s i r) (horder : t.order = s.order)
    (hkept : ∀ j p, s.result j = some p → t.result j = some p) : SkippedBy review t i r := by
  obtain ⟨d, pid, hd, hparent, hbefore⟩ := h
  refine ⟨d, pid, hd, hparent, ?_⟩
  intro j hj hat dp hdp htarget
  rw [horder] at hat
  obtain ⟨p, hp, hrest⟩ := hbefore j hj hat dp hdp htarget
  exact ⟨p, hkept j p hp, hrest⟩

theorem Explained.congr (h : Explained review s) (horder : t.order = s.order) (hsized : t.Sized)
    (hidx : t.idx = s.idx) (hresults : t.results = s.results) : Explained review t where
  sized := hsized
  nodup := horder ▸ h.nodup
  passed := by
    intro i tid d hi hn
    rw [hidx] at hi
    rw [result_congr hresults] at hn
    rw [horder]
    exact h.passed i tid d hi hn
  named := by
    intro i r hr
    rw [result_congr hresults] at hr
    rw [horder]
    exact h.named i r hr
  shaped := by
    intro i r hr
    rw [result_congr hresults] at hr
    exact h.shaped i r hr
  skips := by
    intro i r hr hskip
    rw [result_congr hresults] at hr
    refine (h.skips i r hr hskip).mono horder ?_
    intro j p hp
    rw [result_congr hresults]
    exact hp

/-- The position in hand gets its result, and the others keep theirs. -/
theorem Explained.decide (h : Explained review s) (hat : s.order[s.idx]? = some r.tempId)
    (hopen : s.result s.idx = none) (horder : t.order = s.order) (hsized : t.Sized)
    (hidx : t.idx = s.idx + 1) (hres : t.result s.idx = some r)
    (hother : ∀ i, i ≠ s.idx → t.result i = s.result i) (hshaped : r.Shaped)
    (hskip : r.status = .skipped → SkippedBy review s s.idx r) : Explained review t := by
  have hkept : ∀ j p, s.result j = some p → t.result j = some p := by
    intro j p hp
    have hne : j ≠ s.idx := by
      rintro rfl
      rw [hopen] at hp
      cases hp
    rw [hother j hne]
    exact hp
  constructor
  · exact hsized
  · exact horder ▸ h.nodup
  · intro i tid d hi hn hget
    have hne : i ≠ s.idx := by
      rintro rfl
      rw [hres] at hn
      cases hn
    rw [hother i hne] at hn
    rw [horder] at hget
    exact h.passed i tid d (by omega) hn hget
  · intro i r' hr'
    rw [horder]
    by_cases hne : i = s.idx
    · subst hne
      rw [hres] at hr'
      cases hr'
      exact hat
    · rw [hother i hne] at hr'
      exact h.named i r' hr'
  · intro i r' hr'
    by_cases hne : i = s.idx
    · subst hne
      rw [hres] at hr'
      cases hr'
      exact hshaped
    · rw [hother i hne] at hr'
      exact h.shaped i r' hr'
  · intro i r' hr' hskipped
    by_cases hne : i = s.idx
    · subst hne
      rw [hres] at hr'
      cases hr'
      exact (hskip hskipped).mono horder hkept
    · rw [hother i hne] at hr'
      exact (h.skips i r' hr' hskipped).mono horder hkept

theorem position_eq (h : s.order.Nodup) (hat : s.order[j]? = some pid) : s.position pid = some j := by
  obtain ⟨hlt, hget⟩ := List.getElem?_eq_some_iff.mp hat
  unfold position
  rw [List.findIdx?_eq_some_iff_getElem]
  refine ⟨hlt, by simpa using hget, ?_⟩
  intro k hk heq
  have hsame : s.order[k] = s.order[j] := by
    rw [hget]
    simpa using heq
  have := (List.Nodup.getElem_inj_iff h).mp hsame
  omega

theorem Explained.blocked (h : Explained review s) {d : Draft} (hd : review.getConst tid = some d)
    (hblocked : s.resolveParent review d = .blocked) :
    SkippedBy review s s.idx ⟨tid, .skipped, none, s.parentReason review d⟩ := by
  unfold resolveParent at hblocked
  split at hblocked
  · cases hblocked
  · cases hblocked
  rename_i pid hparent
  refine ⟨d, pid, hd, hparent, ?_⟩
  intro j hj hat dp hdp htarget
  have hpos := position_eq h.nodup hat
  cases hres : s.result j with
  | none => exact absurd (h.passed j pid dp hj hres hat hdp) htarget
  | some p =>
    refine ⟨p, rfl, ?_, ?_⟩
    · intro hposted
      simp only [hpos, hres, hposted, if_true] at hblocked
      cases hblocked
    · simp [parentReason, hparent, hpos, hres]

theorem advanceFrom_explained (rest : List TempId) (h : Explained review s)
    (hrest : s.order.drop s.idx = rest) : Explained review (advanceFrom review rest s).2 := by
  induction rest generalizing s with
  | nil => exact h
  | cons tid rest ih =>
    obtain ⟨hat, hdrop⟩ := drop_eq_cons hrest
    have hskip : (s.result s.idx = none → ∀ d, review.getConst tid = some d →
        d.target = .localOnly) → Explained review { s with idx := s.idx + 1 } := by
      intro hlocal
      refine ⟨⟨h.sized.attempts, h.sized.checkAttempts, h.sized.ambiguousLast, h.sized.results⟩,
        h.nodup, ?_, h.named, h.shaped, h.skips⟩
      intro i tid' d hi hn hget hd
      by_cases hne : i = s.idx
      · subst hne
        cases hat.symm.trans hget
        exact hlocal hn d hd
      · have hlt : i < s.idx + 1 := hi
        exact h.passed i tid' d (by omega) hn hget hd
    have hsettle : ∀ r : ItemResult, r.tempId = tid → s.result s.idx = none → r.Shaped →
        (r.status = .skipped → SkippedBy review s s.idx r) → Explained review (s.settle s.idx r) := by
      intro r htid hopen hshaped hskipped
      have hlt : s.idx < s.results.length := by
        rw [h.sized.results]
        exact (List.getElem?_eq_some_iff.mp hat).1
      refine h.decide (r := r) (by rw [htid]; exact hat) hopen rfl ?_ rfl ?_ ?_ hshaped hskipped
      · refine ⟨h.sized.attempts, h.sized.checkAttempts, h.sized.ambiguousLast, ?_⟩
        simpa using h.sized.results
      · rw [settle_result, if_pos ⟨rfl, hlt⟩]
      · intro i hi
        rw [settle_result, if_neg (fun hand => hi hand.1.symm)]
    unfold advanceFrom
    by_cases hdec : (s.result s.idx).isSome
    · rw [if_pos hdec]
      exact ih (hskip (fun hn => by simp [hn] at hdec)) hdrop
    have hopen : s.result s.idx = none := by simpa using hdec
    rw [if_neg hdec]
    cases hd : review.getConst tid with
    | none => exact ih (hskip (fun _ d hd' => by rw [hd] at hd'; cases hd')) hdrop
    | some d =>
      by_cases hlocal : d.target = .localOnly
      · simp only [hlocal, if_true]
        refine ih (hskip (fun _ d' hd' => ?_)) hdrop
        rw [hd] at hd'
        cases hd'
        exact hlocal
      simp only [hlocal, if_false]
      have hposted : ∀ id, Explained review (advanceFrom review rest (s.settle s.idx
          { tempId := tid, status := .posted, id := some id })).2 :=
        fun id => ih (hsettle _ rfl hopen (.posted tid id) (fun hs => by cases hs)) hdrop
      cases hp : s.resolveParent review d with
      | blocked =>
        have hskipped := ih (hsettle _ rfl hopen (.skipped tid _) (fun _ => h.blocked hd hp)) hdrop
        cases d.state with
        | posted id => exact hposted id
        | _ => exact hskipped
      | ok parent =>
        cases d.state with
        | posted id => exact hposted id
        | _ =>
          dsimp only
          split
          · exact h
          · split <;> exact h

theorem Explained.advance (h : Explained review s) : Explained review (s.advance review).2 := by
  unfold Submission.advance
  cases s.abortedReason with
  | some e => exact h
  | none => exact advanceFrom_explained _ h rfl

theorem Kind.shaped {slot : Slot} {status : ItemStatus} {parent id : Option CommentId}
    {reason : Option ApiError} (h : Kind slot tid parent e (.settled status id reason)) :
    (⟨tid, status, id, reason⟩ : ItemResult).Shaped := by
  generalize hf : Fate.settled status id reason = fate at h
  cases h with
  | wait ms checkpoint hw => cases hf
  | post outcome retryAfterMs hw ha => cases Slot.posting hf.symm <;> constructor
  | check result hw ha =>
    generalize result.outcome = o at hf
    cases Slot.checking hf.symm <;> constructor

theorem Explained.step (h : Explained review s) (hstep : Exchanges review s e t) :
    Explained review t := by
  obtain ⟨tid, d, parent, fate, -, hfl, hel, hl, hk⟩ := exchange_lands hstep h.sized
  have hm := h.advance
  cases fate with
  | remains slot | aborts err => exact hm.congr hel.order hel.sized hl.1 hl.2.1
  | settled status id reason =>
    exact hm.decide (r := ⟨tid, status, id, reason⟩) hfl.at_idx hfl.undecided hel.order hel.sized
      hl.1 hl.2.1 hel.result hk.shaped (fun hs => absurd hs hk.settled.2.2)

theorem Explained.run {es : List Event} (h : Explained review s)
    (hrun : Run (Exchanges review) s es t) : Explained review t :=
  hrun.invariant (Explained review) (fun hstep hs => hs.step hstep) h

theorem initialResult_shaped {b : Bool} (h : initialResult review b tid = some r) :
    r.tempId = tid ∧ r.Shaped ∧ r.status ≠ .skipped := by
  unfold initialResult at h
  split at h
  · cases h
  split at h
  · cases h; exact ⟨rfl, .posted _ _, by simp⟩
  · split at h
    · cases h; exact ⟨rfl, .failed _ _, by simp⟩
    · cases h
  · cases h; exact ⟨rfl, .outcomeUnknown _, by simp⟩
  · cases h
  · cases h

theorem explained_initOrder (review : PendingReview) {order : List TempId} (horder : order.Nodup)
    (b : Bool) : Explained review (initOrder review order b) := by
  have hinit : ∀ i r, (initOrder review order b).result i = some r →
      order[i]? = some r.tempId ∧ r.Shaped ∧ r.status ≠ .skipped := by
    intro i r hr
    rw [initOrder_result, Option.bind_eq_some_iff] at hr
    obtain ⟨tid, hat, hr⟩ := hr
    obtain ⟨rfl, hshaped, hnot⟩ := initialResult_shaped hr
    exact ⟨hat, hshaped, hnot⟩
  exact {
    sized := initOrder_sized review order b
    nodup := horder
    passed := fun i _ _ hi => absurd hi (Nat.not_lt_zero i)
    named := fun i r hr => (hinit i r hr).1
    shaped := fun i r hr => (hinit i r hr).2.1
    skips := fun i r hr hskip => absurd hskip (hinit i r hr).2.2 }

end Submission

end Bbr.Review
