import Bbr.Review.SubmissionRun

/-!
# Replies follow their parents

Where a CommentId can come from: the durable `posted` state of a Draft, or an answer of this run.
A step for a Reply to a Draft carries such an id, whatever the parent graph looks like, and a Reply
without one is passed over as `skipped`.
-/
namespace Bbr.Review

open Bbr.Bitbucket Bbr.Lib List Option

/-- The POST or read a step asks for. -/
def Step.effect : Step → Option PostStep
  | .post effect => some effect
  | .check effect => some effect
  | _ => none

/-- The Draft and the id an answer publishes it under. -/
def Event.publication : Event → Option (TempId × CommentId)
  | ⟨.post effect, .report (.posted id) _⟩ => some (effect.tempId, id)
  | ⟨.check effect, .reportCheck ⟨.found id, _⟩⟩ => some (effect.tempId, id)
  | _ => none

/-- The Draft is published under this id: before the run, or by one of its answers. -/
def PostedUnder (review : PendingReview) (es : List Event) (tid : TempId) (id : CommentId) : Prop :=
  (∃ d, review.getConst tid = some d ∧ d.state = .posted id) ∨
    ∃ e ∈ es, e.publication = some (tid, id)

theorem PostedUnder.append {review : PendingReview} {es : List Event} {tid : TempId}
    {id : CommentId} (h : PostedUnder review es tid id) (fs : List Event) :
    PostedUnder review (es ++ fs) tid id := by
  rcases h with h | ⟨e, he, hp⟩
  · exact .inl h
  · exact .inr ⟨e, mem_append_left fs he, hp⟩

namespace Submission

variable {review : PendingReview} {start s m t : Submission} {tid : TempId} {d : Draft}
  {parent : Option CommentId} {e : Event} {es : List Event} {fate : Fate} {order : List TempId}
  {b : Bool}

/-- A result of a run: it was there at the start, its Draft was passed over, or an answer for this
very Draft gave it. -/
def Sourced (start : Submission) (es : List Event) (i : Nat) (r : ItemResult) : Prop :=
  start.result i = some r ∨ r.status = .skipped ∨
    ∃ e ∈ es, (∃ effect, e.step.effect = some effect ∧ effect.tempId = r.tempId) ∧
      ∀ id, r.id = some id → e.publication = some (r.tempId, id)

variable {i : Nat} {r : ItemResult}

theorem Sourced.append (h : Sourced start es i r) (fs : List Event) : Sourced start (es ++ fs) i r := by
  rcases h with h | h | ⟨e, he, hr⟩
  · exact .inl h
  · exact .inr (.inl h)
  · exact .inr (.inr ⟨e, mem_append_left fs he, hr⟩)

/-- A durably posted Draft is settled from the start, so `advance` never records one itself. -/
theorem Passing.is_skipped (h : Passing review tid d r) (hd : review.getConst tid = some d)
    (hat : order[i]? = some tid) (hopen : (initOrder review order b).result i = none) :
    r.status = .skipped := by
  cases h with
  | skipped reason => rfl
  | posted id hstate =>
    rw [initOrder_result, hat] at hopen
    simp [initialResult, hd, hstate] at hopen

theorem sourced_advance (hg : Good review (initOrder review order b) s)
    (h : ∀ i r, s.result i = some r → Sourced (initOrder review order b) es i r) (i : Nat)
    (r : ItemResult) (hr : (s.advance review).2.result i = some r) :
    Sourced (initOrder review order b) es i r := by
  have hm := (advance_spec review s hg.sized.results).1
  cases hs : s.result i with
  | some r' =>
    have := hm.kept i r' hs
    rw [hr] at this
    cases this
    exact h i r hs
  | none =>
    obtain ⟨tid, d, hat, hd, -, hpass⟩ := hm.fresh i r hr hs
    have hopen : (initOrder review order b).result i = none := by
      cases ho : (initOrder review order b).result i with
      | none => rfl
      | some r' => rw [hg.kept i r' ho] at hs; cases hs
    rw [hg.order] at hat
    exact .inr (.inl (hpass.is_skipped hd hat hopen))

variable {slot : Slot}

/-- The answer that settles an item is one for its Draft, and gives the id it is published under. -/
theorem Kind.publication {status : ItemStatus} {id : Option CommentId} {reason : Option ApiError}
    (h : Kind slot tid parent e (.settled status id reason)) :
    (∃ effect, e.step.effect = some effect ∧ effect.tempId = tid) ∧
      ∀ c, id = some c → e.publication = some (tid, c) := by
  generalize hf : Fate.settled status id reason = fate at h
  cases h with
  | wait ms checkpoint hw => cases hf
  | post outcome retryAfterMs hw ha =>
    refine ⟨⟨_, rfl, rfl⟩, fun c hc => ?_⟩
    subst hc
    cases Slot.posting hf.symm
    rfl
  | check result hw ha =>
    refine ⟨⟨_, rfl, rfl⟩, fun c hc => ?_⟩
    subst hc
    obtain ⟨outcome, retryAfterMs⟩ := result
    cases Slot.checking hf.symm
    rfl

theorem sourced_step (h : Exchanges review s e t) (hg : Good review (initOrder review order b) s)
    (hs : ∀ i r, s.result i = some r → Sourced (initOrder review order b) es i r) (i : Nat)
    (r : ItemResult) (hr : t.result i = some r) :
    Sourced (initOrder review order b) (es ++ [e]) i r := by
  obtain ⟨tid, d, parent, fate, hx⟩ := exchange h hg
  have hadvance := sourced_advance hg hs
  generalize (s.advance review).2 = m at hx hadvance
  have hsame : t.result i = m.result i → Sourced (initOrder review order b) (es ++ [e]) i r :=
    fun heq => (hadvance i r (heq ▸ hr)).append [e]
  by_cases hidx : i = m.idx
  · have hlands := hx.lands
    have hkind := hx.kind
    cases fate with
    | remains slot | aborts err => exact hsame (result_congr hlands.2.1 i)
    | settled status id reason =>
      obtain ⟨-, hres, -⟩ := hlands
      rw [hidx, hres] at hr
      cases hr
      obtain ⟨heffect, hpub⟩ := hkind.publication
      exact .inr (.inr ⟨e, by simp, heffect, hpub⟩)
  · exact hsame (hx.elsewhere.result i hidx)

theorem sourced_run (h : Run (Exchanges review) (initOrder review order b) es s) :
    Good review (initOrder review order b) s ∧
      ∀ i r, s.result i = some r → Sourced (initOrder review order b) es i r := by
  refine h.recorded (fun es s => Good review (initOrder review order b) s ∧
      ∀ i r, s.result i = some r → Sourced (initOrder review order b) es i r) ?_
    ⟨good_initOrder review order b, fun i r hr => .inl hr⟩
  intro es s e t hst hi
  exact ⟨hi.1.step hst, sourced_step hst hi.1 hi.2⟩

/-- `parent` is what a Reply of `d` is to be posted against after the answers `es`. -/
def ParentCarried (review : PendingReview) (es : List Event) (d : Draft)
    (parent : Option CommentId) : Prop :=
  match d.parent with
  | none => parent = none
  | some (.comment id) => parent = some id
  | some (.draft p) => ∃ id, parent = some id ∧ PostedUnder review es p id

theorem Sourced.postedUnder (h : Sourced (initOrder review order b) es i r)
    (hposted : r.status = .posted) (id : CommentId) (hid : r.id = some id) :
    PostedUnder review es r.tempId id := by
  rcases h with h | h | ⟨e, he, -, hpub⟩
  · rw [initOrder_result] at h
    cases hat : order[i]? with
    | none => simp [hat] at h
    | some tid =>
      simp only [hat, bind_some, initialResult] at h
      split at h
      · cases h
      rename_i d hd
      split at h
      · next c hstate => cases h; cases hid; exact .inl ⟨d, hd, hstate⟩
      · split at h
        · cases h; cases hid
        · cases h
      · cases h; cases hid
      · cases h
      · cases h
  · rw [hposted] at h; cases h
  · exact .inr ⟨e, he, hpub id hid⟩

theorem resolveParent_carried (hg : Good review (initOrder review order b) s)
    (hs : ∀ i r, s.result i = some r → Sourced (initOrder review order b) es i r)
    (h : s.resolveParent review d = .ok parent) : ParentCarried review es d parent := by
  unfold resolveParent at h
  unfold ParentCarried
  cases hp : d.parent with
  | none => simp only [hp] at h; cases h; rfl
  | some p =>
    cases p with
    | comment id => simp only [hp] at h; cases h; rfl
    | draft p =>
      simp only [hp] at h
      split at h
      · next i hi =>
        split at h
        · cases h
        rename_i r hr
        split at h
        · next hposted =>
          cases h
          have hid := (hg.shaped i r hr).mp hposted
          obtain ⟨id, hid⟩ := isSome_iff_exists.mp hid
          have hat : s.order[i]? = some p := by
            have hfind := findIdx?_eq_some_iff_getElem.mp hi
            obtain ⟨hlt, heq, -⟩ := hfind
            rw [getElem?_eq_getElem hlt]
            simpa using heq
          have htid : r.tempId = p := by
            have := hg.named i r hr
            rw [hat] at this
            exact (some.inj this).symm
          exact ⟨id, hid, htid ▸ (hs i r hr).postedUnder hposted id hid⟩
        · cases h
      · split at h
        · cases h
        rename_i dp hdp
        split at h
        · next id hstate => cases h; exact ⟨id, rfl, .inl ⟨dp, hdp, hstate⟩⟩
        · cases h

theorem ParentCarried.append (h : ParentCarried review es d parent) (fs : List Event) :
    ParentCarried review (es ++ fs) d parent := by
  unfold ParentCarried at *
  split at h
  · exact h
  · exact h
  · obtain ⟨id, hid, hp⟩ := h
    exact ⟨id, hid, hp.append fs⟩

variable {effect : PostStep}

theorem effect_inFlight (hg : Good review start s) (h : (s.advance review).1.effect = some effect) :
    ∃ d, InFlight review (s.advance review).2 effect.tempId d effect.parent := by
  have hstops := (advance_spec review s hg.sized.results).2
  cases hstep : (s.advance review).1 with
  | done | aborted err | wait wait => rw [hstep] at h; cases h
  | post effect' | check effect' =>
    rw [hstep] at h hstops
    cases h
    obtain ⟨-, -, -, -, d, hfl⟩ := hstops
    exact ⟨d, hfl⟩

/-- Every POST and every read of a run carries the parent its Draft asks for. -/
theorem effect_carried (h : Run (Exchanges review) (initOrder review order b) es s)
    (he : (s.advance review).1.effect = some effect) :
    ∃ d, review.getConst effect.tempId = some d ∧ ParentCarried review es d effect.parent := by
  obtain ⟨hg, hs⟩ := sourced_run h
  obtain ⟨d, hfl⟩ := effect_inFlight hg he
  exact ⟨d, hfl.draft, resolveParent_carried hg.advance (sourced_advance hg hs) hfl.parent⟩

theorem effect_carried_before (h : Run (Exchanges review) (initOrder review order b) es s) :
    ∀ e ∈ es, ∀ effect, e.step.effect = some effect →
      ∃ d, review.getConst effect.tempId = some d ∧ ParentCarried review es d effect.parent := by
  intro e he effect heffect
  obtain ⟨before, after, rfl⟩ := append_of_mem he
  obtain ⟨m, hm, hrest⟩ := Run.append_iff.mp h
  obtain ⟨t, ht, -⟩ := Run.cons_iff.mp hrest
  obtain ⟨d, hd, hc⟩ := effect_carried hm (ht.1 ▸ heffect)
  exact ⟨d, hd, hc.append (e :: after)⟩

variable {p : TempId} {id : CommentId}

theorem Kind.settled_of_publication (h : Kind slot tid parent e fate)
    (hp : e.publication = some (p, id)) : p = tid ∧ fate = .settled .posted (some id) none := by
  cases h with
  | wait ms checkpoint hw => cases hp
  | post outcome retryAfterMs hw ha =>
    cases outcome with
    | posted id => cases hp; exact ⟨rfl, rfl⟩
    | rejected err | ambiguous => cases hp
  | check result hw ha =>
    obtain ⟨outcome, retryAfterMs⟩ := result
    cases outcome with
    | found id => cases hp; exact ⟨rfl, rfl⟩
    | missing | rejected err | ambiguous => cases hp

/-- What the answers so far have published: Drafts without a durable id, each decided and once. -/
structure PublishedOnce (review : PendingReview) (start : Submission) (es : List Event)
    (s : Submission) : Prop where
  good : Good review start s
  decided : ∀ e ∈ es, ∀ p id, e.publication = some (p, id) → Decided s p
  unposted : ∀ e ∈ es, ∀ p id, e.publication = some (p, id) →
    ∀ d, review.getConst p = some d → ∀ id, d.state ≠ .posted id
  once : ∀ e ∈ es, ∀ e' ∈ es, ∀ p id id', e.publication = some (p, id) →
    e'.publication = some (p, id') → id = id'

theorem PublishedOnce.step (h : Exchanges review s e t) (hnodup : start.order.Nodup)
    (hp : PublishedOnce review start es s) : PublishedOnce review start (es ++ [e]) t := by
  obtain ⟨tid, d, parent, fate, hx⟩ := exchange h hp.good
  have hkept : ∀ p, Decided s p → Decided t p := fun p hd => (hd.advance hp.good).step hp.good h
  -- The answer cannot publish a Draft that an earlier one did: that Draft is decided.
  have hfresh : ∀ e' ∈ es, ∀ p id id', e'.publication = some (p, id) →
      e.publication ≠ some (p, id') := by
    intro e' he' p id id' hpub hpub'
    obtain ⟨rfl, -⟩ := hx.kind.settled_of_publication hpub'
    refine hx.inFlight.not_decided (by rw [hx.good.order]; exact hnodup) ?_
    exact (hp.decided e' he' p id hpub).advance hp.good
  refine ⟨hx.good_after, ?_, ?_, ?_⟩
  · intro e' he' p id hpub
    rcases mem_append.mp he' with he' | he'
    · exact hkept p (hp.decided e' he' p id hpub)
    rw [mem_singleton] at he'
    subst he'
    obtain ⟨rfl, rfl⟩ := hx.kind.settled_of_publication hpub
    obtain ⟨-, hres, -⟩ := hx.lands
    exact ⟨_, _, hx.elsewhere.order ▸ hx.inFlight.at_idx, hres⟩
  · intro e' he' p id hpub d' hd'
    rcases mem_append.mp he' with he' | he'
    · exact hp.unposted e' he' p id hpub d' hd'
    rw [mem_singleton] at he'
    subst he'
    obtain ⟨rfl, -⟩ := hx.kind.settled_of_publication hpub
    have := hx.inFlight.draft
    rw [hd'] at this
    cases this
    exact hx.inFlight.unposted
  · intro e₁ he₁ e₂ he₂ p id id' h₁ h₂
    rcases mem_append.mp he₁ with hold₁ | hnew₁ <;>
      rcases mem_append.mp he₂ with hold₂ | hnew₂
    · exact hp.once e₁ hold₁ e₂ hold₂ p id id' h₁ h₂
    · rw [mem_singleton] at hnew₂
      subst hnew₂
      exact absurd h₂ (hfresh e₁ hold₁ p id id' h₁)
    · rw [mem_singleton] at hnew₁
      subst hnew₁
      exact absurd h₁ (hfresh e₂ hold₂ p id' id h₂)
    · rw [mem_singleton] at hnew₁ hnew₂
      rw [hnew₁] at h₁
      rw [hnew₂, h₁] at h₂
      cases h₂
      rfl

theorem publishedOnce_run (h : Run (Exchanges review) start es s) (hg : Good review start start)
    (hnodup : start.order.Nodup) : PublishedOnce review start es s := by
  refine h.recorded (PublishedOnce review start) (fun hst hi => hi.step hst hnodup) ?_
  refine ⟨hg, ?_, ?_, ?_⟩ <;> intro e he <;> cases he

theorem PublishedOnce.unique (h : PublishedOnce review start es s) {id' : CommentId}
    (hp : PostedUnder review es tid id) (hp' : PostedUnder review es tid id') : id = id' := by
  rcases hp with ⟨d, hd, hstate⟩ | ⟨e, he, hpub⟩ <;>
    rcases hp' with ⟨d', hd', hstate'⟩ | ⟨e', he', hpub'⟩
  · rw [hd] at hd'
    cases hd'
    rw [hstate] at hstate'
    cases hstate'
    rfl
  · exact absurd hstate (h.unposted e' he' tid id' hpub' d hd id)
  · exact absurd hstate' (h.unposted e he tid id hpub d' hd' id')
  · exact h.once e he e' he' tid id id' hpub hpub'

theorem ParentCarried.postedUnder (h : ParentCarried review es d parent)
    (hp : d.parent = some (.draft p)) : ∃ id, parent = some id ∧ PostedUnder review es p id := by
  simpa only [ParentCarried, hp] using h

/-- When `advance` says done, a remote Draft of the order whose parent is unpublished is skipped. -/
theorem skipped_at_done (h : Run (Exchanges review) (initOrder review order b) es s)
    (hd : review.getConst tid = some d) (hparent : d.parent = some (.draft p))
    (hun : ∀ id, ¬ PostedUnder review es p id) (hdone : (s.advance review).1 = .done)
    (hmem : tid ∈ order) (hremote : d.target = .bitbucket)
    (hopen : ¬ Decided (initOrder review order b) tid) :
    ∃ i r, order[i]? = some tid ∧ (s.advance review).2.result i = some r ∧ r.status = .skipped := by
  obtain ⟨hg, hs⟩ := sourced_run h
  obtain ⟨i, r, hi, hr, hname⟩ := hg.at_done hdone hmem hd hremote
  refine ⟨i, r, hi, hr, ?_⟩
  rcases sourced_advance hg hs i r hr with hstart | hskip | ⟨e, he, ⟨effect, heffect, htid⟩, -⟩
  · exact absurd ⟨i, r, hi, hstart⟩ hopen
  · exact hskip
  obtain ⟨d', hd', hc⟩ := effect_carried_before h e he effect heffect
  rw [htid, hname, hd] at hd'
  cases hd'
  obtain ⟨id, -, hp⟩ := hc.postedUnder hparent
  exact absurd hp (hun id)

/-- Replies are published under their parents only. -/
theorem replies_follow_parents (review : PendingReview) (start : Start) {s₀ : Submission}
    (hbegin : start.begin review = .ok s₀) :
    ∀ es s, Run (Exchanges review) s₀ es s →
      (∀ effect, (s.advance review).1.effect = some effect →
        ∃ d, review.getConst effect.tempId = some d ∧ ParentCarried review es d effect.parent) ∧
      (review.DistinctTempIds → ∀ tid id id', PostedUnder review es tid id →
        PostedUnder review es tid id' → id = id') ∧
      ∀ tid d p, review.getConst tid = some d → d.parent = some (.draft p) →
        (∀ id, ¬ PostedUnder review es p id) →
        (∀ e ∈ es, ∀ effect, e.step.effect = some effect → effect.tempId ≠ tid) ∧
        (∀ effect, (s.advance review).1.effect = some effect → effect.tempId ≠ tid) ∧
        ((s.advance review).1 = .done → tid ∈ s₀.order → d.target = .bitbucket → ¬ Decided s₀ tid →
          ∃ i r, s₀.order[i]? = some tid ∧ (s.advance review).2.result i = some r ∧
            r.status = .skipped) := by
  obtain ⟨order, rfl⟩ := begin_eq_initOrder hbegin
  intro es s hrun
  refine ⟨fun effect he => effect_carried hrun he, ?_, ?_⟩
  · intro hdistinct tid id id' hp hp'
    have hnodup := begin_nodup hdistinct hbegin
    exact (publishedOnce_run hrun (good_begin hbegin) hnodup).unique hp hp'
  · intro tid d p hd hparent hun
    have hcontra : ∀ effect : PostStep, effect.tempId = tid →
        ¬ ∃ d, review.getConst effect.tempId = some d ∧ ParentCarried review es d effect.parent := by
      rintro effect rfl ⟨d', hd', hc⟩
      rw [hd] at hd'
      cases hd'
      obtain ⟨id, -, hp⟩ := hc.postedUnder hparent
      exact hun id hp
    refine ⟨?_, ?_, ?_⟩
    · intro e he effect heffect htid
      exact hcontra effect htid (effect_carried_before hrun e he effect heffect)
    · intro effect heffect htid
      exact hcontra effect htid (effect_carried hrun heffect)
    · intro hdone hmem hremote hopen
      exact skipped_at_done hrun hd hparent hun hdone hmem hremote hopen

/-- A root and a Reply to it. -/
def rootAndReply (state : DraftState) : PendingReview :=
  { drafts := [{ localId := 1 }, { localId := 2, parent := some (.draft 1), state := state }] }

def rootPosted : List Event := [⟨.post ⟨1, none, false⟩, .report (.posted 7) none⟩]

def rootRejected : List Event := [⟨.post ⟨1, none, false⟩, .report (.rejected .badRequest) none⟩]

theorem root_unpublished (state : DraftState) (id : CommentId) :
    ¬ PostedUnder (rootAndReply state) rootRejected 1 id := by
  rintro (⟨d, hd, hstate⟩ | ⟨e, he, hp⟩)
  · cases hd
    cases hstate
  · rw [rootRejected, mem_singleton] at he
    subst he
    cases hp

/-- The Reply carries the id of its posted root, and is skipped below a rejected one. -/
theorem replies_follow_parents_rootAndReply :
    (∃ s, Run (Exchanges (rootAndReply .draft)) (init (rootAndReply .draft)) rootPosted s ∧
      (s.advance (rootAndReply .draft)).1.effect = some ⟨2, some 7, false⟩ ∧
      ∃ d, (rootAndReply .draft).getConst 2 = some d ∧
        ParentCarried (rootAndReply .draft) rootPosted d (some 7)) ∧
    ∃ s, Run (Exchanges (rootAndReply .draft)) (init (rootAndReply .draft)) rootRejected s ∧
      ∃ i r, (init (rootAndReply .draft)).order[i]? = some 2 ∧
        (s.advance (rootAndReply .draft)).2.result i = some r ∧ r.status = .skipped := by
  have hrun := (replay_iff (t := (replay (rootAndReply .draft) (init (rootAndReply .draft))
    rootPosted).get (by decide))).mp (some_get _).symm
  have hrun' := (replay_iff (t := (replay (rootAndReply .draft) (init (rootAndReply .draft))
    rootRejected).get (by decide))).mp (some_get _).symm
  have hposted := replies_follow_parents (rootAndReply .draft) .fresh rfl _ _ hrun
  have hrejected :=
    replies_follow_parents (rootAndReply .draft) .fresh rfl _ _ hrun'
  refine ⟨⟨_, hrun, by decide, hposted.1 ⟨2, some 7, false⟩ (by decide)⟩, ⟨_, hrun', ?_⟩⟩
  refine (hrejected.2.2 2 _ 1 rfl rfl (root_unpublished .draft)).2.2 (by decide) (by decide) rfl ?_
  rintro ⟨i, r, hi, hr⟩
  match i with
  | 0 => cases hr
  | 1 => cases hr
  | _ + 2 => cases hi

/-- A Reply published by an earlier run stays published when its root fails now. -/
theorem published_reply_not_skipped :
    ¬ ∀ (review : PendingReview) (start : Start) (s₀ s : Submission) (es : List Event) (tid : TempId)
      (d : Draft) (p : TempId), start.begin review = .ok s₀ → Run (Exchanges review) s₀ es s →
      review.getConst tid = some d → d.target = .bitbucket → d.parent = some (.draft p) →
      (∀ id, ¬ PostedUnder review es p id) → (s.advance review).1 = .done → tid ∈ s₀.order →
      ∃ i r, s₀.order[i]? = some tid ∧ (s.advance review).2.result i = some r ∧
        r.status = .skipped := by
  intro hclaim
  have hrun := (replay_iff (t := (replay (rootAndReply (.posted 41))
    (init (rootAndReply (.posted 41))) rootRejected).get (by decide))).mp (some_get _).symm
  obtain ⟨i, r, hi, hr, hskip⟩ := hclaim (rootAndReply (.posted 41)) .fresh _ _ rootRejected 2 _ 1
    rfl hrun rfl rfl rfl (root_unpublished (.posted 41)) (by decide) (by decide)
  match i with
  | 0 => cases hi
  | 1 => cases hr; cases hskip
  | _ + 2 => cases hi

end Submission

end Bbr.Review
