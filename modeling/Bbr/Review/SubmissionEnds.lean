import Bbr.Review.DuplicateGuard

/-!
# Every Submission ends and decides everything

The measure counts, for the item in flight, how many answers its two budgets still allow: an ambiguous
POST buys a fresh read budget and a read that finds nothing returns to POST, but each POST is paid for
seven answers in advance. Positions not yet reached count a full item each.
-/
namespace Bbr.Review

open Bbr.Bitbucket Bbr.Lib List

def Step.isFinal : Step → Bool
  | .done => true
  | .aborted _ => true
  | _ => false

/-- The answer a driver gives to a step, from one outcome of each kind. -/
def answerFor (post : PostResult) (check : CheckResult) : Step → Answer
  | .post _ => .report post.outcome post.retryAfterMs
  | .check _ => .reportCheck check
  | _ => .completeWait

/-- Answers an untried item can still take. -/
def itemAnswers : Nat := 20

/-- Answers the item in flight can still take. -/
def Slot.answersLeft (slot : Slot) : Nat :=
  (if slot.waiting then 1 else 0) +
    if slot.ambiguous then
      5 - 2 * slot.checks + if slot.attempts < maxAttempts then 21 - 7 * slot.attempts else 0
    else itemAnswers - 7 * slot.attempts

namespace Submission

variable {review : PendingReview} {start s m t : Submission} {tid : TempId} {d : Draft}
  {parent : Option CommentId} {e : Event} {es : List Event} {order : List TempId} {b : Bool}

theorem answersLeft_pos (slot : Slot) (h : slot.Within) : 0 < slot.answersLeft := by
  obtain ⟨ha, hc, hclear, -⟩ := h
  unfold Slot.answersLeft
  cases hamb : slot.ambiguous with
  | true => simp [maxAttempts] at *; omega
  | false =>
    have := hclear hamb
    simp [maxAttempts, itemAnswers] at *
    omega

theorem Retries.answersLeft_lt {slot slot' : Slot} (h : Retries slot tid parent e slot')
    (hw : slot.Within) : slot'.answersLeft < slot.answersLeft := by
  obtain ⟨ha, hc, hclear, htried⟩ := hw
  cases h with
  | ambiguousPost retryAfterMs ready clear =>
    have hlt := hclear clear
    simp only [Slot.answersLeft, ready, clear, Bool.false_eq_true, if_true, if_false]
    by_cases hmore : slot.attempts + 1 < maxAttempts
    · rw [if_pos hmore]
      simp only [itemAnswers, maxAttempts] at *
      omega
    · rw [if_neg hmore]
      simp only [itemAnswers, maxAttempts] at *
      omega
  | rejectedPost err retryAfterMs policy ready clear left =>
    simp only [Slot.answersLeft, ready, clear, Bool.false_eq_true, if_true, if_false, itemAnswers,
      maxAttempts] at *
    omega
  | failedCheck result unfound unsettled ready unsure left =>
    simp only [Slot.answersLeft, ready, unsure, Bool.false_eq_true, if_true, if_false]
    simp only [maxAttempts] at left
    omega
  | missing retryAfterMs ready unsure left =>
    simp only [Slot.answersLeft, ready, unsure, left, Bool.false_eq_true, if_true, if_false,
      itemAnswers]
    simp only [maxAttempts] at hc left
    omega
  | wait ms checkpoint waiting =>
    simp only [Slot.answersLeft, waiting]
    simp

/-- Answers the whole machine can still take. -/
def answersLeft (s : Submission) : Nat :=
  if s.abortedReason.isSome ∨ s.order.length ≤ s.idx then 0
  else itemAnswers * (s.order.length - s.idx - 1) + s.slot.answersLeft

theorem answersLeft_advance (hg : Good review start s) :
    (s.advance review).2.answersLeft ≤ s.answersLeft := by
  have hm := (advance_spec review s hg.sized.results).1
  by_cases hstay : (s.advance review).2.idx = s.idx
  · have hslot : (s.advance review).2.slot = s.slot := by
      simp only [slot, attempt, checkAttempt, ambiguous, hstay, hm.attempts, hm.checkAttempts,
        hm.ambiguousLast, hm.mustWait]
    simp only [answersLeft, hslot, hstay, hm.order, hm.abortedReason]
    exact Nat.le_refl _
  · have huntried : s.slot = .untried := by
      rcases hg.engaged with h | ⟨tid, d, parent, hfl⟩
      · exact h
      · cases hab : s.abortedReason with
        | none => exact absurd (by rw [advance_inFlight hfl hab]) hstay
        | some err => exact absurd (by simp [Submission.advance, hab]) hstay
    have hle := hm.idx_le
    have hmslot : (s.advance review).2.slot = .untried := by
      have hq := hg.quiet (s.advance review).2.idx (by omega)
      have hw : s.mustWait = false := by
        have : s.slot.waiting = false := by rw [huntried]; rfl
        exact this
      simp only [slot, attempt, checkAttempt, ambiguous, hm.attempts, hm.checkAttempts,
        hm.ambiguousLast, hm.mustWait, hw] at hq ⊢
      rw [hq.1, hq.2.1, hq.2.2]
      rfl
    have hfull : Slot.untried.answersLeft = itemAnswers := rfl
    simp only [answersLeft, hmslot, huntried, hfull, hm.order, hm.abortedReason]
    split
    · omega
    rename_i h
    have h' : ¬ (s.abortedReason.isSome = true ∨ s.order.length ≤ s.idx) := by
      rintro (h' | h')
      · exact h (.inl h')
      · exact h (.inr (by omega))
    rw [if_neg h']
    simp only [itemAnswers]
    omega

theorem answersLeft_step (h : Exchanges review s e t) (hg : Good review start s) :
    t.answersLeft < s.answersLeft := by
  refine Nat.lt_of_lt_of_le ?_ (answersLeft_advance hg)
  obtain ⟨tid, d, parent, fate, hx⟩ := exchange h hg
  generalize (s.advance review).2 = m at hx
  have hlt := idx_lt hx.inFlight.at_idx
  have hpos := answersLeft_pos m.slot hx.good.within
  have hm : m.answersLeft = itemAnswers * (m.order.length - m.idx - 1) + m.slot.answersLeft := by
    unfold answersLeft
    rw [if_neg]
    rintro (hab | hle)
    · rw [hx.active] at hab; cases hab
    · omega
  have hlands := hx.lands
  have hkind := hx.kind
  have horder := hx.elsewhere.order
  cases fate with
  | aborts err =>
    obtain ⟨-, -, -, hab⟩ := hlands
    have : t.answersLeft = 0 := by simp [answersLeft, hab]
    omega
  | remains slot =>
    obtain ⟨hidx, -, hslot, hab⟩ := hlands
    have hless := hkind.remains.answersLeft_lt hx.good.within
    have ht : t.answersLeft = itemAnswers * (m.order.length - m.idx - 1) + slot.answersLeft := by
      unfold answersLeft
      rw [horder, hidx, hslot, hab, if_neg]
      rintro (hab' | hle)
      · rw [hx.active] at hab'; cases hab'
      · omega
    omega
  | settled status id reason =>
    obtain ⟨hidx, -, hwait, hab⟩ := hlands
    obtain ⟨hw, -, -⟩ := hkind.settled
    have hslot : t.slot = .untried := by
      obtain ⟨h₁, h₂, h₃⟩ := hx.good.quiet (m.idx + 1) (by omega)
      have hne : m.idx + 1 ≠ m.idx := by omega
      have hw' : t.mustWait = false := hwait.trans hw
      simp only [slot, hidx, hx.elsewhere.attempt _ hne, hx.elsewhere.checkAttempt _ hne,
        hx.elsewhere.ambiguous _ hne, h₁, h₂, h₃, hw', Slot.untried]
    have hfull : Slot.untried.answersLeft = itemAnswers := rfl
    rw [hm]
    unfold answersLeft
    rw [hslot, hfull, horder, hidx]
    simp only [itemAnswers]
    split <;> omega

/-- No run is longer than twenty answers for each Draft of the review. -/
theorem run_length_le {start : Start} {s₀ : Submission} (hd : review.DistinctTempIds)
    (hbegin : start.begin review = .ok s₀) (h : Run (Exchanges review) s₀ es s) :
    es.length ≤ itemAnswers * review.drafts.length := by
  have hlen := h.length_le (Good review s₀) answersLeft
    (fun hst hg => ⟨hg.step hst, answersLeft_step hst hg⟩) (good_begin hbegin)
  have hn := begin_length_le hd hbegin
  have hstart : s₀.answersLeft ≤ itemAnswers * s₀.order.length := by
    obtain ⟨order, rfl⟩ := begin_eq_initOrder hbegin
    have hslot : (initOrder review order start.settlesFailures).slot = .untried := by
      simp [slot, Slot.untried]
    have hfull : Slot.untried.answersLeft = itemAnswers := rfl
    simp only [answersLeft, hslot, hfull, initOrder_idx, initOrder_order, itemAnswers]
    split <;> omega
  have hmul := Nat.mul_le_mul_left itemAnswers hn
  omega

theorem answerable (post : PostResult) (check : CheckResult)
    (h : (s.advance review).1.isFinal = false) :
    ∃ t, Exchanges review s ⟨(s.advance review).1, answerFor post check (s.advance review).1⟩ t := by
  cases hstep : (s.advance review).1 with
  | done | aborted err => rw [hstep] at h; cases h
  | post effect | check effect | wait effect => exact ⟨_, hstep, rfl⟩

theorem driver_ends {start : Start} {s₀ : Submission} (hbegin : start.begin review = .ok s₀)
    (posts : Nat → PostResult) (checks : Nat → CheckResult) :
    ∃ es s, Run (Exchanges review) s₀ es s ∧ (s.advance review).1.isFinal = true ∧
      ∀ k (hk : k < es.length), (es.get ⟨k, hk⟩).answer =
        answerFor (posts k) (checks k) (es.get ⟨k, hk⟩).step := by
  have hmove : ∀ s n, Good review s₀ s → ¬ (s.advance review).1.isFinal = true →
      ∃ e t, e.answer = answerFor (posts n) (checks n) e.step ∧ Exchanges review s e t := by
    intro s n _ hopen
    obtain ⟨t, ht⟩ := answerable (posts n) (checks n) (by simpa using hopen)
    exact ⟨_, t, rfl, ht⟩
  obtain ⟨es, s, hrun, -, hfinal, hchosen⟩ :=
    Run.reaches_final (Good review s₀) (fun s => (s.advance review).1.isFinal = true) answersLeft
      (fun k (e : Event) => e.answer = answerFor (posts k) (checks k) e.step)
      (fun hst hg => ⟨hg.step hst, answersLeft_step hst hg⟩) hmove 0 (good_begin hbegin)
  exact ⟨es, s, hrun, hfinal, fun k hk => by simpa using hchosen k hk⟩

theorem foldl_countResult (rs : List ItemResult) (sum : Summary) :
    (rs.foldl countResult sum).items = sum.items ++ rs ∧
      (rs.foldl countResult sum).posted + (rs.foldl countResult sum).failed +
          (rs.foldl countResult sum).skipped + (rs.foldl countResult sum).outcomeUnknown =
        sum.posted + sum.failed + sum.skipped + sum.outcomeUnknown + rs.length := by
  induction rs generalizing sum with
  | nil => simp
  | cons r rest ih =>
    obtain ⟨hitems, hcount⟩ := ih (countResult sum r)
    simp only [foldl_cons, length_cons]
    refine ⟨?_, ?_⟩
    · rw [hitems]
      cases hs : r.status <;> simp [countResult, hs]
    · rw [hcount]
      cases hs : r.status <;> simp [countResult, hs] <;> omega

theorem summary_items (s : Submission) : s.summary.items = s.results.filterMap id := by
  exact (foldl_countResult (s.results.filterMap id)
    { items := [], aborted := s.abortedReason }).1.trans (nil_append _)

theorem summary_counts (s : Submission) :
    s.summary.posted + s.summary.failed + s.summary.skipped + s.summary.outcomeUnknown =
      s.summary.items.length := by
  rw [summary_items]
  exact (foldl_countResult (s.results.filterMap id)
    { items := [], aborted := s.abortedReason }).2.trans (Nat.zero_add _)

theorem mem_summary_items (s : Submission) (r : ItemResult) :
    r ∈ s.summary.items ↔ ∃ i, s.result i = some r := by
  rw [summary_items, mem_filterMap]
  constructor
  · rintro ⟨o, ho, rfl⟩
    obtain ⟨i, hi⟩ := mem_iff_getElem?.mp ho
    exact ⟨i, by simp [result, hi]⟩
  rintro ⟨i, hi⟩
  refine ⟨some r, ?_, rfl⟩
  simp only [result, getD_eq_getElem?_getD] at hi
  cases ho : s.results[i]? with
  | none => simp [ho] at hi
  | some o =>
    simp only [ho, Option.getD_some] at hi
    subst hi
    exact mem_of_getElem? ho

theorem filterMap_tempIds_sublist (os : List TempId) (rs : List (Option ItemResult))
    (h : ∀ (i : Nat) (r : ItemResult), rs[i]? = some (some r) → os[i]? = some r.tempId) :
    ((rs.filterMap id).map ItemResult.tempId).Sublist os := by
  induction rs generalizing os with
  | nil => simp
  | cons o rest ih =>
    cases os with
    | nil =>
      have hnone : ∀ o' ∈ o :: rest, o' = none := by
        intro o' ho'
        obtain ⟨i, hi⟩ := mem_iff_getElem?.mp ho'
        cases o' with
        | none => rfl
        | some r => have := h i r hi; simp at this
      rw [filterMap_eq_nil_iff.mpr (fun o' ho' => by rw [hnone o' ho']; rfl)]
      exact List.Sublist.refl []
    | cons tid os =>
      have hrest := ih os (fun i r hi => by simpa using h (i + 1) r (by simpa using hi))
      cases o with
      | none => exact hrest.cons tid
      | some r =>
        have htid : tid = r.tempId := by simpa using h 0 r rfl
        subst htid
        exact hrest.cons_cons r.tempId

theorem items_nodup (hg : Good review start s) (hnodup : start.order.Nodup) :
    (s.summary.items.map ItemResult.tempId).Nodup := by
  rw [summary_items]
  refine List.Nodup.sublist (filterMap_tempIds_sublist s.order s.results ?_) (hg.order ▸ hnodup)
  intro i r hi
  exact hg.named i r (by simp [result, hi])

/-- Every remote Draft of the order is published. -/
def AllPosted (review : PendingReview) (s : Submission) : Prop :=
  ∀ tid ∈ s.order, ∀ d, review.getConst tid = some d → d.target = .bitbucket →
    ∃ r ∈ s.summary.items, r.tempId = tid ∧ r.status = .posted ∧ r.id.isSome = true

/-- No local Draft of the order starts with a stored outcome other than `posted`. -/
def LocalsUnsettled (review : PendingReview) (start : Submission) : Prop :=
  ∀ i r d, start.result i = some r → review.getConst r.tempId = some d → d.target = .localOnly →
    r.status = .posted

theorem decided_at_done (hg : Good review start s) (hdone : (s.advance review).1 = .done)
    (hmem : tid ∈ start.order) (hd : review.getConst tid = some d) (hremote : d.target = .bitbucket) :
    ∃ r ∈ (s.advance review).2.summary.items, r.tempId = tid := by
  obtain ⟨i, r, -, hr, hname⟩ := hg.at_done hdone hmem hd hremote
  exact ⟨r, (mem_summary_items _ r).mpr ⟨i, hr⟩, hname⟩

/-- Where no local Draft carries an old outcome, clean means published. -/
theorem isClean_iff_allPosted (hg : Good review start s) (hnodup : start.order.Nodup)
    (hmem : ∀ tid ∈ start.order, (review.getConst tid).isSome)
    (hlocal : LocalsUnsettled review start) (hdone : (s.advance review).1 = .done) :
    (s.advance review).2.isClean = true ↔ AllPosted review (s.advance review).2 := by
  have hg' := hg.advance
  have hab : (s.advance review).2.abortedReason = none := by
    have hstops := (advance_spec review s hg.sized.results).2
    rw [hdone] at hstops
    exact hstops.1
  have hclean : (s.advance review).2.isClean = true ↔
      ∀ r ∈ (s.advance review).2.summary.items, r.status = .posted := by
    simp only [isClean, hab, Option.isNone_none, Bool.true_and, summary_items, all_eq_true,
      decide_eq_true_eq]
  rw [hclean]
  constructor
  · intro hall tid htid d hd hremote
    obtain ⟨r, hr, rfl⟩ := decided_at_done hg hdone (hg'.order ▸ htid) hd hremote
    obtain ⟨i, hi⟩ := (mem_summary_items _ r).mp hr
    exact ⟨r, hr, rfl, hall r hr, (hg'.shaped i r hi).mp (hall r hr)⟩
  intro hall r hr
  obtain ⟨i, hi⟩ := (mem_summary_items _ r).mp hr
  have hat := hg'.named i r hi
  have htid : r.tempId ∈ (s.advance review).2.order := mem_of_getElem? hat
  obtain ⟨d, hd⟩ := Option.isSome_iff_exists.mp (hmem r.tempId (hg'.order ▸ htid))
  cases htarget : d.target with
  | bitbucket =>
    obtain ⟨r', hr', htempId, hposted, -⟩ := hall r.tempId htid d hd htarget
    have hsame : r' = r := inj_on_of_nodup_map (items_nodup hg' hnodup) hr' hr htempId
    rw [← hsame]
    exact hposted
  | localOnly =>
    rcases hg'.earned i r hi with hstart | ⟨d', hd', hremote⟩
    · exact hlocal i r d hstart hd htarget
    · rw [hd] at hd'
      cases hd'
      exact absurd htarget hremote

/-- A Submission always finishes and decides everything. -/
theorem submission_ends (review : PendingReview) (start : Start) {s₀ : Submission}
    (hd : review.DistinctTempIds) (hbegin : start.begin review = .ok s₀) (hlocal : LocalsUnsettled review s₀) :
    (∀ es s, Run (Exchanges review) s₀ es s → es.length ≤ itemAnswers * review.drafts.length) ∧
    (∀ (posts : Nat → PostResult) (checks : Nat → CheckResult), ∃ es s,
      Run (Exchanges review) s₀ es s ∧ (s.advance review).1.isFinal = true ∧
      ∀ k (hk : k < es.length), (es.get ⟨k, hk⟩).answer =
        answerFor (posts k) (checks k) (es.get ⟨k, hk⟩).step) ∧
    ∀ es s, Run (Exchanges review) s₀ es s → (s.advance review).1 = .done →
      (∀ tid ∈ s₀.order, ∀ d, review.getConst tid = some d → d.target = .bitbucket →
        ((s.advance review).2.summary.items.map ItemResult.tempId).count tid = 1) ∧
      (s.advance review).2.summary.posted + (s.advance review).2.summary.failed +
          (s.advance review).2.summary.skipped + (s.advance review).2.summary.outcomeUnknown =
        (s.advance review).2.summary.items.length ∧
      ((s.advance review).2.isClean = true ↔ AllPosted review (s.advance review).2) := by
  have hg₀ := good_begin hbegin
  have hnodup := begin_nodup hd hbegin
  refine ⟨fun es s hrun => run_length_le hd hbegin hrun, driver_ends hbegin, ?_⟩
  intro es s hrun hdone
  have hg := hg₀.run hrun
  refine ⟨?_, summary_counts _, ?_⟩
  · intro tid hmem d hdraft hremote
    obtain ⟨r, hr, rfl⟩ := decided_at_done hg hdone hmem hdraft hremote
    exact count_eq_one_of_mem (items_nodup hg.advance hnodup) (mem_map_of_mem hr)
  · exact isClean_iff_allPosted hg hnodup (fun tid htid => begin_mem hbegin htid) hlocal hdone

/-- The retried root ends clean after four answers. -/
theorem submission_ends_retriedRoot :
    retriedRootEvents.length ≤ itemAnswers * 2 ∧
    ∃ s, Run (Exchanges retriedRoot) (init retriedRoot) retriedRootEvents s ∧
      (s.advance retriedRoot).1 = .done ∧
      ((s.advance retriedRoot).2.isClean = true ↔ AllPosted retriedRoot (s.advance retriedRoot).2) ∧
      (s.advance retriedRoot).2.isClean = true := by
  have hrun := (replay_iff (t := (replay retriedRoot (init retriedRoot) retriedRootEvents).get
    (by decide))).mp (Option.some_get _).symm
  have hlocal : LocalsUnsettled retriedRoot (init retriedRoot) := by
    intro i r d hr
    match i with
    | 0 => cases hr
    | 1 => cases hr
    | _ + 2 => cases hr
  obtain ⟨hbound, -, hend⟩ :=
    submission_ends retriedRoot .fresh (by decide) rfl hlocal
  exact ⟨hbound _ _ hrun, _, hrun, by decide, (hend _ _ hrun (by decide)).2.2, by decide⟩

/-- A local note stored with an unknown outcome, and nothing to publish. -/
def unknownNote : PendingReview :=
  { drafts := [{ localId := 1, target := .localOnly, state := .outcomeUnknown }] }

theorem unknownNote_not_clean :
    ¬ ∀ (review : PendingReview) (start : Start) (s₀ s : Submission) (es : List Event),
      review.DistinctTempIds → start.begin review = .ok s₀ → Run (Exchanges review) s₀ es s →
      (s.advance review).1 = .done →
      ((s.advance review).2.isClean = true ↔ AllPosted review (s.advance review).2) := by
  intro hclaim
  have hiff := hclaim unknownNote .fresh _ _ [] (by decide) rfl (.nil _) (by decide)
  have hposted : AllPosted unknownNote ((init unknownNote).advance unknownNote).2 := by
    intro tid htid d hd hremote
    have htid' : tid = 1 := by simpa using (show tid ∈ [1] from htid)
    subst htid'
    cases hd
    cases hremote
  have hclean := hiff.mpr hposted
  revert hclean
  decide

end Submission

end Bbr.Review
