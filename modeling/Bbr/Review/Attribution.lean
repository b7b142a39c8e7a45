import Bbr.Bitbucket.Poster
import Bbr.Review.ReplyParents

/-!
# Which Draft a Comment is attributed to

A Submission next to the Comments on the server. A POST may create a Comment, a check is answered by
the lookup over the Comments of that moment, and Comments of others arrive at any time. The server
lists a Comment in a form of its own. The lookup does not know which Comments other Drafts already
own, so a Draft can be given the Comment of another one.
-/
namespace Bbr.Review

open Bbr.Bitbucket Bbr.Lib List Option Poster Submission

/-- The answer tells nothing about a Comment: a failed or lost POST, a failed read, a timer. -/
def Event.silent (e : Event) : Bool :=
  match e.answer with
  | .report (.posted _) _ => false
  | .reportCheck ⟨.found _, _⟩ => false
  | .reportCheck ⟨.missing, _⟩ => false
  | _ => true

namespace Submission

/-- The CommentId recorded at a position. -/
def outcomeId (s : Submission) (i : Nat) : Option CommentId := (s.result i).bind ItemResult.id

/-- A run starts with a begun machine, or with a recovered one that was given its retry point. -/
inductive StartsAs (begun : Submission) : Submission → Prop where
  | begun : StartsAs begun begun
  | restored (checkpoint : SubmissionRetryCheckpoint) :
    StartsAs begun (begun.restoreRetry checkpoint)
  | interrupted : StartsAs begun { begun with
      attempts := begun.attempts.set begun.idx 1
      ambiguousLast := begun.ambiguousLast.set begun.idx true }

/-- No two Drafts are recorded under one Comment. -/
def Attributed (s : Submission) : Prop :=
  ∀ i j r r' id, s.result i = some r → s.result j = some r' → r.id = some id → r'.id = some id →
    r.tempId = r'.tempId

variable {review : PendingReview} {s m t : Submission} {tid : TempId} {d : Draft}
  {parent : Option CommentId} {e : Event} {order : List TempId} {b : Bool}

/-- The bookkeeping every machine of a run satisfies, recovered ones included. -/
structure Tracked (review : PendingReview) (order : List TempId) (b : Bool) (s : Submission) :
    Prop where
  ordered : s.order = order
  sized : s.Sized
  kept : ∀ i r, (initOrder review order b).result i = some r → s.result i = some r
  named : ∀ i r, s.result i = some r → s.order[i]? = some r.tempId

theorem Tracked.of_start {s₀ : Submission} (h : StartsAs (initOrder review order b) s₀) :
    Tracked review order b s₀ := by
  have hg := good_initOrder review order b
  have hsized := hg.sized
  cases h with
  | begun => exact ⟨rfl, hsized, fun _ _ h => h, hg.named⟩
  | restored checkpoint =>
    refine ⟨rfl, ⟨?_, ?_, ?_, hsized.results⟩, fun _ _ h => h, hg.named⟩
    · exact (length_set ..).trans hsized.attempts
    · exact (length_set ..).trans hsized.checkAttempts
    · exact (length_set ..).trans hsized.ambiguousLast
  | interrupted =>
    refine ⟨rfl, ⟨?_, hsized.checkAttempts, ?_, hsized.results⟩, fun _ _ h => h, hg.named⟩
    · exact (length_set ..).trans hsized.attempts
    · exact (length_set ..).trans hsized.ambiguousLast

/-- Walking on records no Comment: the Drafts it passes are skipped. -/
theorem Tracked.advance (h : Tracked review order b s) : Tracked review order b (s.advance review).2 ∧
      ∀ i, (s.advance review).2.outcomeId i = s.outcomeId i := by
  have hm := (advance_spec review s h.sized.results).1
  have hfresh (i : Nat) (r : ItemResult) (hr : (s.advance review).2.result i = some r)
      (hn : s.result i = none) : s.order[i]? = some r.tempId ∧ r.id = none := by
    obtain ⟨tid, d, hat, hd, -, hpass⟩ := hm.fresh i r hr hn
    have hopen : (initOrder review order b).result i = none := by
      cases ho : (initOrder review order b).result i with
      | none => rfl
      | some r' =>
        have hs := h.kept i r' ho
        rw [hn] at hs
        cases hs
    have hat' : order[i]? = some tid := h.ordered ▸ hat
    have hskip := hpass.is_skipped hd hat' hopen
    cases hpass with
    | posted id hst => cases hskip
    | skipped reason => exact ⟨hat, rfl⟩
  constructor
  · constructor
    · exact hm.order.trans h.ordered
    · exact h.sized.advance
    · intro i r hr
      exact hm.kept i r (h.kept i r hr)
    intro i r hr
    rw [hm.order]
    cases hs : s.result i with
    | some r' =>
      have hr' := hm.kept i r' hs
      obtain rfl : r = r' := some.inj (hr.symm.trans hr')
      exact h.named i r hs
    | none => exact (hfresh i r hr hs).1
  · intro i
    unfold outcomeId
    cases hs : s.result i with
    | some r => rw [hm.kept i r hs]
    | none =>
      cases hr : (s.advance review).2.result i with
      | none => rfl
      | some r => exact (hfresh i r hr hs).2

variable {slot : Slot}

theorem Kind.publication_eq {status : ItemStatus} {id : Option CommentId}
    {reason : Option ApiError} (h : Kind slot tid parent e (.settled status id reason)) :
    e.publication.map Prod.snd = id := by
  cases hid : id with
  | some c =>
    rw [h.publication.2 c hid]
    rfl
  | none =>
    cases hp : e.publication with
    | none => rfl
    | some pub =>
      have hsettled := (h.settled_of_publication hp).2
      rw [hid] at hsettled
      cases hsettled

/-- An exchange for the Draft in flight: it records the Comment its answer publishes, and nothing
else. -/
structure Records (s : Submission) (e : Event) (t : Submission) (i : Nat) : Prop where
  undecided : s.outcomeId i = none
  here : t.outcomeId i = e.publication.map Prod.snd
  elsewhere : ∀ j, j ≠ i → t.outcomeId j = s.outcomeId j

theorem records (h : Exchanges review s e t) (ht : Tracked review order b s) :
    Tracked review order b t ∧ ∃ i, Records s e t i := by
  obtain ⟨htm, hsame⟩ := ht.advance
  obtain ⟨tid, d, parent, fate, -, hfl, hel, hl, hk⟩ := exchange_lands h ht.sized
  generalize (s.advance review).2 = m at *
  have hopen : m.outcomeId m.idx = none := by
    unfold outcomeId
    rw [hfl.undecided]
    rfl
  have hkept (i : Nat) (r : ItemResult) (hr : m.result i = some r) : t.result i = some r := by
    have hne : i ≠ m.idx := by
      rintro rfl
      rw [hfl.undecided] at hr
      cases hr
    rw [hel.result i hne, hr]
  have hhere : t.outcomeId m.idx = e.publication.map Prod.snd ∧
      ∀ r, t.result m.idx = some r → r.tempId = tid := by
    cases fate with
    | settled status id reason =>
      obtain ⟨-, hres, -⟩ := hl
      rw [hk.publication_eq]
      unfold outcomeId
      rw [hres]
      refine ⟨rfl, ?_⟩
      intro r hr
      cases hr
      rfl
    | remains slot | aborts err =>
      have hres := (result_congr hl.2.1 m.idx).trans hfl.undecided
      have hnone : e.publication = none := by
        cases hp : e.publication with
        | none => rfl
        | some pub => cases (hk.settled_of_publication hp).2
      unfold outcomeId
      rw [hres, hnone]
      refine ⟨rfl, ?_⟩
      rintro r ⟨⟩
  constructor
  · constructor
    · exact hel.order.trans htm.ordered
    · exact hel.sized
    · intro i r hr
      exact hkept i r (htm.kept i r hr)
    intro i r hr
    rw [hel.order]
    by_cases hi : i = m.idx
    · subst hi
      rw [hhere.2 r hr]
      exact hfl.at_idx
    · rw [hel.result i hi] at hr
      exact htm.named i r hr
  · refine ⟨m.idx, ?_⟩
    constructor
    · rw [← hsame]
      exact hopen
    · exact hhere.1
    · intro j hj
      rw [← hsame]
      unfold outcomeId
      rw [hel.result j hj]

end Submission

/-- A machine and the Comments the server lists, in the order of the list. -/
structure World where
  machine : Submission
  comments : List Comment

inductive WorldEvent where
  | exchanged (e : Event)
  | arrived (c : Comment)

/-- The Comment is one the server has not listed before. -/
def FreshIn (id : CommentId) (comments : List Comment) : Prop := id ∉ comments.map Comment.id

instance (id : CommentId) (comments : List Comment) : Decidable (FreshIn id comments) :=
  inferInstanceAs (Decidable (id ∉ comments.map Comment.id))

/-- One step of the whole: an answered POST or one that landed unanswered puts a Comment somewhere
in the list, in the form in which the server lists it, a publication check reads the list, and
Comments of others arrive. -/
inductive WorldStep (review : PendingReview) (poster : Poster) :
    World → WorldEvent → World → Prop where
  | published {s t : Submission} {effect : PostStep} {c : Comment} {retryAfterMs : Option Nat}
    {before after : List Comment} :
    Submission.Exchanges review s ⟨.post effect, .report (.posted c.id) retryAfterMs⟩ t →
    FreshIn c.id (before ++ after) →
    WorldStep review poster ⟨s, before ++ after⟩
      (.exchanged ⟨.post effect, .report (.posted c.id) retryAfterMs⟩) ⟨t, before ++ c :: after⟩
  | landed {s t : Submission} {effect : PostStep} {c : Comment} {retryAfterMs : Option Nat}
    {before after : List Comment} :
    Submission.Exchanges review s ⟨.post effect, .report .ambiguous retryAfterMs⟩ t →
    FreshIn c.id (before ++ after) →
    WorldStep review poster ⟨s, before ++ after⟩
      (.exchanged ⟨.post effect, .report .ambiguous retryAfterMs⟩) ⟨t, before ++ c :: after⟩
  | read {s t : Submission} {effect : PostStep} {d : Draft} {retryAfterMs : Option Nat}
    {comments : List Comment} :
    review.getConst effect.tempId = some d →
    Submission.Exchanges review s ⟨.check effect,
      .reportCheck ⟨poster.findExisting comments d effect.parent, retryAfterMs⟩⟩ t →
    WorldStep review poster ⟨s, comments⟩
      (.exchanged ⟨.check effect,
        .reportCheck ⟨poster.findExisting comments d effect.parent, retryAfterMs⟩⟩) ⟨t, comments⟩
  | silent {s t : Submission} {e : Event} {comments : List Comment} :
    Submission.Exchanges review s e t → e.silent = true →
    WorldStep review poster ⟨s, comments⟩ (.exchanged e) ⟨t, comments⟩
  | arrived {s : Submission} {c : Comment} {before after : List Comment} :
    FreshIn c.id (before ++ after) →
    WorldStep review poster ⟨s, before ++ after⟩ (.arrived c) ⟨s, before ++ c :: after⟩

/-- Every recorded Comment is in the list. -/
def Consistent (w : World) : Prop :=
  ∀ i id, w.machine.outcomeId i = some id → id ∈ w.comments.map Comment.id

/-- A publication check reads the list while a Comment of the list that would be taken for its Draft
is recorded already, and so is every Comment before that one which would be taken as well. -/
def Mistakable (review : PendingReview) (poster : Poster) (w : World) : WorldEvent → Prop
  | .exchanged ⟨.check effect, answer⟩ =>
    Event.silent ⟨.check effect, answer⟩ = false ∧
      ∃ d i c before after, review.getConst effect.tempId = some d ∧
        w.machine.outcomeId i = some c.id ∧ w.comments = before ++ c :: after ∧
        poster.authorMatches c = true ∧ Poster.standsFor c d effect.parent = true ∧
        ∀ x ∈ before, poster.authorMatches x = true → Poster.standsFor x d effect.parent = true →
          ∃ j, w.machine.outcomeId j = some x.id
  | _ => False

/-- After the step no two Drafts share a Comment, and a check has recorded no Comment that another
Draft already had. -/
structure KeepsApart (w : World) (e : WorldEvent) (w' : World) : Prop where
  attributed : w'.machine.Attributed
  unclaimed : ∀ effect id retryAfterMs,
    e = .exchanged ⟨.check effect, .reportCheck ⟨.found id, retryAfterMs⟩⟩ →
    ∀ i, w.machine.outcomeId i ≠ some id

/-- A step at which no publication check can mistake the Comment of another Draft. -/
def Unmistakable (review : PendingReview) (poster : Poster) (w : World) (e : WorldEvent)
    (w' : World) : Prop := WorldStep review poster w e w' ∧ ¬ Mistakable review poster w e

namespace Submission

variable {review : PendingReview} {poster : Poster} {s t : Submission} {tid : TempId} {d : Draft}
  {parent : Option CommentId} {e : Event} {order : List TempId} {b : Bool} {i : Nat}
  {comments comments' : List Comment}

theorem outcomeId_some {id : CommentId} (h : s.outcomeId i = some id) :
    ∃ r, s.result i = some r ∧ r.id = some id := bind_eq_some_iff.mp h

theorem Tracked.attributed_iff (h : Tracked review order b s) (hnodup : order.Nodup) :
    s.Attributed ↔ ∀ i j id, s.outcomeId i = some id → s.outcomeId j = some id → i = j := by
  constructor
  · intro ha i j id hi hj
    obtain ⟨r, hr, hrid⟩ := outcomeId_some hi
    obtain ⟨r', hr', hrid'⟩ := outcomeId_some hj
    have hat := h.named i r hr
    have hat' := h.named j r' hr'
    rw [← ha i j r r' id hr hr' hrid hrid', ← hat] at hat'
    rw [h.ordered] at hat hat'
    exact (List.getElem?_inj (List.getElem?_eq_some_iff.mp hat).1 hnodup).mp hat'.symm
  · intro hpos i j r r' id hr hr' hrid hrid'
    have hi : s.outcomeId i = some id := by
      unfold outcomeId
      rw [hr]
      exact hrid
    have hj : s.outcomeId j = some id := by
      unfold outcomeId
      rw [hr']
      exact hrid'
    obtain rfl := hpos i j id hi hj
    obtain rfl : r = r' := some.inj (hr.symm.trans hr')
    rfl

/-- The answer claims a Comment that is recorded already. -/
def Claims (s : Submission) (e : Event) : Prop :=
  ∃ p id, e.publication = some (p, id) ∧ ∃ j, s.outcomeId j = some id

theorem Records.attributed_iff (hr : Records s e t i)
    (hs : Tracked review order b s) (ht : Tracked review order b t) (hnodup : order.Nodup)
    (ha : s.Attributed) : t.Attributed ↔ ¬ s.Claims e := by
  rw [ht.attributed_iff hnodup]
  rw [hs.attributed_iff hnodup] at ha
  constructor
  · rintro h ⟨p, id, hp, j, hj⟩
    have hne : j ≠ i := by
      rintro rfl
      rw [hr.undecided] at hj
      cases hj
    have hi : t.outcomeId i = some id := by
      rw [hr.here, hp]
      rfl
    exact hne (h j i id ((hr.elsewhere j hne).trans hj) hi)
  · intro hno j k id hj hk
    have hnew (l : Nat) (hl : t.outcomeId i = some id) (hlid : t.outcomeId l = some id) : l = i := by
      by_cases hne : l = i
      · exact hne
      rw [hr.elsewhere l hne] at hlid
      rw [hr.here, map_eq_some_iff] at hl
      obtain ⟨⟨p, id'⟩, hp, rfl⟩ := hl
      exact absurd ⟨p, id', hp, l, hlid⟩ hno
    by_cases hji : j = i
    · rw [hji] at hj ⊢
      exact (hnew k hj hk).symm
    by_cases hki : k = i
    · rw [hki] at hk ⊢
      exact hnew j hk hj
    · exact ha j k id ((hr.elsewhere j hji).symm.trans hj) ((hr.elsewhere k hki).symm.trans hk)

theorem Records.consistent (hr : Records s e t i)
    (hc : Consistent ⟨s, comments⟩) (hsub : ∀ c ∈ comments, c ∈ comments')
    (hnew : ∀ p id, e.publication = some (p, id) → id ∈ comments'.map Comment.id) :
    Consistent ⟨t, comments'⟩ := by
  intro j id hj
  by_cases hji : j = i
  · subst hji
    rw [hr.here, map_eq_some_iff] at hj
    obtain ⟨⟨p, id'⟩, hp, rfl⟩ := hj
    exact hnew p id' hp
  · rw [hr.elsewhere j hji] at hj
    obtain ⟨c, hm, hid⟩ := List.mem_map.mp (hc j id hj)
    exact List.mem_map.mpr ⟨c, hsub c hm, hid⟩

end Submission

variable {before after : List Comment} {c : Comment}

theorem mem_insert {x : Comment} (h : x ∈ before ++ after) : x ∈ before ++ c :: after := by
  rw [mem_append] at h ⊢
  exact h.imp_right (mem_cons_of_mem c)

variable {w : World} {i : Nat} {id : CommentId} {review : PendingReview} {poster : Poster}
  {order : List TempId} {b : Bool} {s : Submission} {effect : PostStep} {comments : List Comment}
  {d : Draft} {retryAfterMs : Option Nat}

/-- What the lookup finds is recorded already exactly when the check can be mistaken. -/
theorem claims_iff (hd : review.getConst effect.tempId = some d) : s.Claims ⟨.check effect,
        .reportCheck ⟨poster.findExisting comments d effect.parent, retryAfterMs⟩⟩ ↔
      Mistakable review poster ⟨s, comments⟩ (.exchanged ⟨.check effect,
        .reportCheck ⟨poster.findExisting comments d effect.parent, retryAfterMs⟩⟩) := by
  unfold findExisting
  cases hf : comments.find? (fun c => poster.authorMatches c && standsFor c d effect.parent) with
  | none =>
    constructor
    · rintro ⟨p, id, hp, -⟩
      cases hp
    rintro ⟨-, d₀, i, c, before, after, hd₀, -, hlist, hauthor, hstands, -⟩
    obtain rfl : d = d₀ := some.inj (hd.symm.trans hd₀)
    change comments = before ++ c :: after at hlist
    have hm : c ∈ comments := hlist ▸ mem_append_right _ mem_cons_self
    exact absurd (by simp [hauthor, hstands]) (find?_eq_none.mp hf c hm)
  | some c =>
    constructor
    · rintro ⟨p, id, hp, j, hj⟩
      cases hp
      obtain ⟨hmatch, before, after, hlist, hbefore⟩ := find?_eq_some_iff_append.mp hf
      rw [Bool.and_eq_true] at hmatch
      refine ⟨rfl, d, j, c, before, after, hd, hj, hlist, hmatch.1, hmatch.2, ?_⟩
      intro x hx hauthor hplace
      have hnot := hbefore x hx
      simp [hauthor, hplace] at hnot
    · rintro ⟨-, d₀, i, c', before, after, hd₀, hid, hlist, hauthor, hstands, hbefore⟩
      obtain rfl : d = d₀ := some.inj (hd.symm.trans hd₀)
      refine ⟨effect.tempId, c.id, rfl, ?_⟩
      change comments = before ++ c' :: after at hlist
      rw [hlist, find?_append] at hf
      cases hb : before.find? (fun c => poster.authorMatches c && standsFor c d effect.parent) with
      | some x =>
        rw [hb] at hf
        obtain rfl : x = c := some.inj hf
        have hx := find?_some hb
        rw [Bool.and_eq_true] at hx
        exact hbefore x (mem_of_find?_eq_some hb) hx.1 hx.2
      | none =>
        rw [hb] at hf
        simp only [none_or, find?_cons, hauthor, hstands, Bool.and_self, some.injEq] at hf
        exact ⟨i, hf ▸ hid⟩

/-- What holds of every world of a run in which no Comment was mistaken. -/
structure Accounted (review : PendingReview) (order : List TempId) (b : Bool) (w : World) : Prop where
  tracked : w.machine.Tracked review order b
  consistent : Consistent w
  attributed : w.machine.Attributed

variable {e : Event}

theorem Event.silent_publication (h : e.silent = true) : e.publication = none := by
  obtain ⟨step, answer⟩ := e
  cases step <;> cases answer <;> try rfl
  case post.report outcome retryAfterMs => cases outcome <;> first | rfl | cases h
  case check.reportCheck result =>
    obtain ⟨outcome, retryAfterMs⟩ := result
    cases outcome <;> first | rfl | cases h

theorem silent_not_mistakable (h : e.silent = true) (w : World) :
    ¬ Mistakable review poster w (.exchanged e) := by
  obtain ⟨step, answer⟩ := e
  cases step with
  | check effect =>
    intro hm
    rw [hm.1] at h
    cases h
  | post effect | wait effect | done | aborted reason => exact fun hm => hm

theorem findExisting_found {p : TempId} (h : Event.publication ⟨.check effect, .reportCheck
      ⟨poster.findExisting comments d effect.parent, retryAfterMs⟩⟩ = some (p, id)) :
    id ∈ comments.map Comment.id := by
  unfold findExisting at h
  cases hf : comments.find? (fun c => poster.authorMatches c && standsFor c d effect.parent) with
  | none =>
    rw [hf] at h
    cases h
  | some c =>
    rw [hf] at h
    cases h
    exact mem_map_of_mem (mem_of_find?_eq_some hf)

/-- A step that publishes no recorded Comment keeps the Drafts apart. -/
theorem keepsApart_of {t : Submission} {comments' : List Comment} (h : t.Attributed ↔ ¬ s.Claims e) :
    KeepsApart ⟨s, comments⟩ (.exchanged e) ⟨t, comments'⟩ ↔ ¬ s.Claims e := by
  constructor
  · intro hk
    exact h.mp hk.attributed
  intro hno
  refine ⟨h.mpr hno, ?_⟩
  intro effect id retryAfterMs he i hi
  cases he
  exact hno ⟨effect.tempId, id, rfl, i, hi⟩

theorem Accounted.step {w' : World} {e : WorldEvent} (ha : Accounted review order b w)
    (hnodup : order.Nodup) (h : WorldStep review poster w e w') :
    (KeepsApart w e w' ↔ ¬ Mistakable review poster w e) ∧
      (KeepsApart w e w' → Accounted review order b w') := by
  obtain ⟨hs, hc, hatt⟩ := ha
  cases h with
  | @published s t effect c retryAfterMs before after hx hf =>
    obtain ⟨ht, i, hr⟩ := records hx hs
    have hiff := hr.attributed_iff hs ht hnodup hatt
    have hno : ¬ s.Claims ⟨.post effect, .report (.posted c.id) retryAfterMs⟩ := by
      rintro ⟨p, id', hp, j, hj⟩
      cases hp
      exact hf (hc j c.id hj)
    have hcons : Consistent ⟨t, before ++ c :: after⟩ := by
      apply hr.consistent hc (fun c hm => mem_insert hm)
      intro p id' hp
      cases hp
      exact mem_map_of_mem (mem_append_right _ mem_cons_self)
    rw [keepsApart_of hiff]
    exact ⟨⟨fun _ hm => hm, fun _ => hno⟩, fun hk => ⟨ht, hcons, hiff.mpr hk⟩⟩
  | @landed s t effect c retryAfterMs before after hx hf =>
    obtain ⟨ht, i, hr⟩ := records hx hs
    have hiff := hr.attributed_iff hs ht hnodup hatt
    have hno : ¬ s.Claims ⟨.post effect, .report .ambiguous retryAfterMs⟩ := by
      rintro ⟨p, id', hp, -⟩
      cases hp
    have hcons : Consistent ⟨t, before ++ c :: after⟩ := by
      apply hr.consistent hc (fun c hm => mem_insert hm)
      intro p id' hp
      cases hp
    rw [keepsApart_of hiff]
    exact ⟨⟨fun _ hm => hm, fun _ => hno⟩, fun hk => ⟨ht, hcons, hiff.mpr hk⟩⟩
  | @read s t effect d retryAfterMs comments hd hx =>
    obtain ⟨ht, i, hr⟩ := records hx hs
    have hiff := hr.attributed_iff hs ht hnodup hatt
    have hcons : Consistent ⟨t, comments⟩ := by
      apply hr.consistent hc (fun c hm => hm)
      intro p id' hp
      exact findExisting_found hp
    rw [keepsApart_of hiff]
    exact ⟨not_congr (claims_iff hd), fun hk => ⟨ht, hcons, hiff.mpr hk⟩⟩
  | @silent s t e comments hx hsilent =>
    obtain ⟨ht, i, hr⟩ := records hx hs
    have hiff := hr.attributed_iff hs ht hnodup hatt
    have hpub := Event.silent_publication hsilent
    have hno : ¬ s.Claims e := by
      rintro ⟨p, id', hp, -⟩
      rw [hpub] at hp
      cases hp
    have hcons : Consistent ⟨t, comments⟩ := by
      apply hr.consistent hc (fun c hm => hm)
      intro p id' hp
      rw [hpub] at hp
      cases hp
    rw [keepsApart_of hiff]
    exact ⟨⟨fun _ => silent_not_mistakable hsilent _, fun _ => hno⟩, fun hk => ⟨ht, hcons, hiff.mpr hk⟩⟩
  | @arrived s c before after hf =>
    have hcons : Consistent ⟨s, before ++ c :: after⟩ := by
      intro i id hi
      obtain ⟨c', hm, hid⟩ := List.mem_map.mp (hc i id hi)
      exact List.mem_map.mpr ⟨c', mem_insert hm, hid⟩
    refine ⟨⟨fun _ hm => hm, fun _ => ⟨hatt, ?_⟩⟩, fun _ => ⟨hs, hcons, hatt⟩⟩
    rintro effect id retryAfterMs ⟨⟩

/-- A run in which no check can be mistaken attributes every Comment to one Draft, and the next
step keeps it so exactly when it is such a step, too. -/
theorem check_attributes_once {review : PendingReview} (start : Start) {begun s₀ : Submission}
    (poster : Poster) {comments : List Comment} (hd : review.DistinctTempIds)
    (hbegin : start.begin review = .ok begun) (hs : Submission.StartsAs begun s₀)
    (hc : Consistent ⟨s₀, comments⟩) (ha : s₀.Attributed) {es : List WorldEvent} {w : World}
    (hrun : Run (Unmistakable review poster) ⟨s₀, comments⟩ es w) :
    w.machine.Attributed ∧ ∀ e w', WorldStep review poster w e w' →
      (KeepsApart w e w' ↔ ¬ Mistakable review poster w e) := by
  have hnodup := begin_nodup hd hbegin
  obtain ⟨order, rfl⟩ := begin_eq_initOrder hbegin
  have hstart : Accounted review order start.settlesFailures ⟨s₀, comments⟩ :=
    ⟨.of_start hs, hc, ha⟩
  have hend := hrun.invariant (Accounted review order start.settlesFailures)
    (fun hst hw => (hw.step hnodup hst.1).2 ((hw.step hnodup hst.1).1.mpr hst.2)) hstart
  exact ⟨hend.attributed, fun e w' hst => (hend.step hnodup hst).1⟩

/-- Two roots of the review as a whole. -/
def twoRoots (first second : Bytes) : PendingReview :=
  { drafts := [{ localId := 1, body := first }, { localId := 2, body := second }] }

/-- The first root is posted as Comment 7, then the POST of the second gets no answer. -/
def firstPosted (review : PendingReview) : Submission :=
  (Submission.replay review (.init review)
    [⟨.post ⟨1, none, false⟩, .report (.posted 7) none⟩]).getD (.init review)

def secondUnanswered (review : PendingReview) : Submission :=
  (Submission.replay review (firstPosted review)
    [⟨.post ⟨2, none, false⟩, .report .ambiguous none⟩]).getD (.init review)

def secondFound (review : PendingReview) (id : CommentId) : Submission :=
  (Submission.replay review (secondUnanswered review)
    [⟨.check ⟨2, none, true⟩, .reportCheck ⟨.found id, none⟩⟩]).getD (.init review)

theorem result_blank (h : s.results = [none, none]) (i : Nat) : s.result i = none := by
  unfold result
  rw [h]
  match i with
  | 0 => rfl
  | 1 => rfl
  | i + 2 => rfl

theorem blank_consistent (h : s.results = [none, none]) : Consistent ⟨s, []⟩ := by
  intro i id hid
  obtain ⟨r, hr, -⟩ := outcomeId_some hid
  rw [result_blank h] at hr
  cases hr

theorem blank_attributed (h : s.results = [none, none]) : s.Attributed := by
  intro i j r r' id hr
  rw [result_blank h] at hr
  cases hr

/-- The roots as the server lists them. -/
def firstComment (body : Bytes) : Comment where
  id := 7
  body := body
  scope := some .review

def secondComment (body : Bytes) : Comment where
  id := 8
  body := body
  scope := some .review

theorem firstPosted_step (first second : Bytes)
    (hx : exchange? (twoRoots first second) (.init (twoRoots first second))
      ⟨.post ⟨1, none, false⟩, .report (.posted 7) none⟩ = some (firstPosted (twoRoots first second))) :
    WorldStep (twoRoots first second) {} ⟨.init (twoRoots first second), []⟩
      (.exchanged ⟨.post ⟨1, none, false⟩, .report (.posted 7) none⟩)
      ⟨firstPosted (twoRoots first second), [firstComment first]⟩ := by
  have hfresh : FreshIn (firstComment first).id ([] ++ []) := not_mem_nil
  exact .published (c := firstComment first) (exchange?_iff.mp hx) hfresh

/-- The POST of the second root landed, and the check finds its own Comment. -/
theorem check_attributes_once_distinctBodies :
    (secondFound (twoRoots [0x61] [0x62]) 8).Attributed := by
  have hblank : (init (twoRoots [0x61] [0x62])).results = [none, none] := by decide
  have hfirst := firstPosted_step [0x61] [0x62] (by decide)
  have hlanded : WorldStep (twoRoots [0x61] [0x62]) {}
      ⟨firstPosted (twoRoots [0x61] [0x62]), [firstComment [0x61]]⟩
      (.exchanged ⟨.post ⟨2, none, false⟩, .report .ambiguous none⟩)
      ⟨secondUnanswered (twoRoots [0x61] [0x62]), [firstComment [0x61], secondComment [0x62]]⟩ := by
    change WorldStep _ _ ⟨_, [firstComment [0x61]] ++ []⟩ _
      ⟨_, [firstComment [0x61]] ++ secondComment [0x62] :: []⟩
    exact .landed (c := secondComment [0x62]) (exchange?_iff.mp (by decide)) (by decide)
  have hread : WorldStep (twoRoots [0x61] [0x62]) {}
      ⟨secondUnanswered (twoRoots [0x61] [0x62]), [firstComment [0x61], secondComment [0x62]]⟩
      (.exchanged ⟨.check ⟨2, none, true⟩, .reportCheck ⟨.found 8, none⟩⟩)
      ⟨secondFound (twoRoots [0x61] [0x62]) 8, [firstComment [0x61], secondComment [0x62]]⟩ :=
    have hd : (twoRoots [0x61] [0x62]).getConst (PostStep.tempId ⟨2, none, true⟩) =
      some { localId := 2, body := [0x62] } := rfl
    .read hd (exchange?_iff.mp (by decide))
  have hown : ¬ Mistakable (twoRoots [0x61] [0x62]) {}
      ⟨secondUnanswered (twoRoots [0x61] [0x62]), [firstComment [0x61], secondComment [0x62]]⟩
      (.exchanged ⟨.check ⟨2, none, true⟩, .reportCheck ⟨.found 8, none⟩⟩) := by
    rintro ⟨-, d, i, c, before, after, hd, hid, hlist, -, hstands, -⟩
    cases hd
    change [firstComment [0x61], secondComment [0x62]] = before ++ c :: after at hlist
    have hm : c ∈ [firstComment [0x61], secondComment [0x62]] :=
      hlist ▸ mem_append_right _ mem_cons_self
    obtain ⟨r, hr, hrid⟩ := outcomeId_some hid
    obtain rfl | hm := mem_cons.mp hm
    · exact absurd hstands (by decide)
    obtain rfl := mem_singleton.mp hm
    match i with
    | 0 => cases hr; cases hrid
    | 1 => cases hr
    | i + 2 => cases hr
  have hrun : Run (Unmistakable (twoRoots [0x61] [0x62]) {}) _ _ _ :=
    .cons ⟨hfirst, fun hm => hm⟩ (.cons ⟨hlanded, fun hm => hm⟩ (.single ⟨hread, hown⟩))
  exact (check_attributes_once .fresh {} (by decide) rfl .begun (blank_consistent hblank)
    (blank_attributed hblank) hrun).1

/-- The POST of the second root was lost, and the check takes the Comment of its twin. -/
theorem check_attributes_once_equalBodies :
    ¬ ∀ (review : PendingReview) (start : Start) (begun s₀ : Submission) (poster : Poster)
      (comments : List Comment), review.DistinctTempIds → start.begin review = .ok begun →
      Submission.StartsAs begun s₀ → Consistent ⟨s₀, comments⟩ → s₀.Attributed →
      ∀ es w, Run (WorldStep review poster) ⟨s₀, comments⟩ es w → w.machine.Attributed := by
  intro h
  have hblank : (init (twoRoots [0x61] [0x61])).results = [none, none] := by decide
  have hfirst := firstPosted_step [0x61] [0x61] (by decide)
  have hlost : WorldStep (twoRoots [0x61] [0x61]) {}
      ⟨firstPosted (twoRoots [0x61] [0x61]), [firstComment [0x61]]⟩
      (.exchanged ⟨.post ⟨2, none, false⟩, .report .ambiguous none⟩)
      ⟨secondUnanswered (twoRoots [0x61] [0x61]), [firstComment [0x61]]⟩ :=
    WorldStep.silent (exchange?_iff.mp (by decide)) rfl
  have hread : WorldStep (twoRoots [0x61] [0x61]) {}
      ⟨secondUnanswered (twoRoots [0x61] [0x61]), [firstComment [0x61]]⟩
      (.exchanged ⟨.check ⟨2, none, true⟩, .reportCheck ⟨.found 7, none⟩⟩)
      ⟨secondFound (twoRoots [0x61] [0x61]) 7, [firstComment [0x61]]⟩ :=
    have hd : (twoRoots [0x61] [0x61]).getConst (PostStep.tempId ⟨2, none, true⟩) =
      some { localId := 2, body := [0x61] } := rfl
    .read hd (exchange?_iff.mp (by decide))
  have hend := h _ .fresh _ _ {} [] (by decide) rfl .begun (blank_consistent hblank)
    (blank_attributed hblank) _ _ (.cons hfirst (.cons hlost (.single hread)))
  have hshared := hend 0 1 ⟨1, .posted, some 7, none⟩ ⟨2, .posted, some 7, none⟩ 7
    (by decide) (by decide) rfl rfl
  exact absurd hshared (by decide)

end Bbr.Review
