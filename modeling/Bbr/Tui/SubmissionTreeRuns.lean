import Bbr.Tui.Presentation
import Bbr.Tui.SubmissionTreeLaws

/-!
# The Submission tree shows the run

Where every parent that takes part stands before its Replies, the tree is drawn and every `sync` of a
run ends with what the machine has decided.
-/
namespace Bbr.Tui

open Bbr.Bitbucket Bbr.Review Bbr.Lib Submission List SubmissionItemProjection

namespace SubmissionTree

variable {items items' : List SubmissionItemProjection} {item : SubmissionItemProjection}
  {review : PendingReview} {order : List TempId} {tree : SubmissionTree} {d : DurableSubmission}
  {m s : Submission} {i : Nat} {t : TempId} {r : ItemResult}

theorem submissionOrderIndex_eq (h : m.order.Nodup) (hat : m.order[i]? = some t) :
    submissionOrderIndex m.order t = some i := position_eq h hat

theorem syncItem_eq (h : d.machine.order.Nodup) (hat : d.machine.order[i]? = some item.tempId) :
    syncItem d item = syncAt d i item := by
  unfold syncItem
  rw [submissionOrderIndex_eq h hat]

theorem syncItem_bare (d : DurableSubmission) (item : SubmissionItemProjection) :
    bare (syncItem d item) = bare item ∧ (syncItem d item).depth = item.depth := by
  unfold syncItem
  split
  · exact ⟨rfl, rfl⟩
  · unfold syncAt
    split <;> exact ⟨rfl, rfl⟩

theorem syncAt_decided (item : SubmissionItemProjection) (hr : d.machine.result i = some r) :
    (syncAt d i item).state = statusState r.status ∧ (syncAt d i item).reason = r.reason ∧
      (syncAt d i item).postedCommentId = r.id ∧ (syncAt d i item).blockingAncestor = none := by
  unfold syncAt
  rw [hr]
  exact ⟨rfl, rfl, rfl, rfl⟩

theorem progressState_undecided (phase : SubmissionPhase) (status : ItemStatus) :
    submissionProgressState phase ≠ statusState status := by
  cases phase <;> cases status <;> simp [submissionProgressState, statusState]

theorem syncAt_undecided (item : SubmissionItemProjection) (hr : d.machine.result i = none) :
    (∀ status, (syncAt d i item).state ≠ statusState status) ∧
      ((syncAt d i item).state ≠ .queued → d.currentTempId = some item.tempId) ∧
      (syncAt d i item).blockingAncestor = none := by
  unfold syncAt
  rw [hr]
  by_cases hcurrent : d.currentTempId = some item.tempId
  · simp only [hcurrent, ne_eq, not_true_eq_false, if_false]
    exact ⟨progressState_undecided d.phase, fun _ => trivial, trivial⟩
  · simp only [ne_eq, hcurrent, not_false_eq_true, if_true]
    refine ⟨fun status => ?_, fun h => absurd trivial h, trivial⟩
    cases status <;> simp [statusState]

/-- The tree has one item for each participant, hung on its parent. -/
structure Follows (review : PendingReview) (order : List TempId)
    (items : List SubmissionItemProjection) : Prop where
  bare : items.map bare = orderLinks review order
  deeper : DeeperByOne items

theorem Follows.tempIds (h : Follows review order items) : items.map tempId = order := by
  have hids := congrArg (map Link.id) h.bare
  rw [orderLinks_ids, map_map] at hids
  exact hids

theorem Follows.mem (h : Follows review order items) (hitem : item ∈ items) : item.tempId ∈ order := by
  rw [← h.tempIds]
  exact mem_map_of_mem hitem

theorem Follows.congr (h : Follows review order items)
    (hsame : items'.map (fun item => (SubmissionTree.bare item, item.depth)) =
      items.map (fun item => (SubmissionTree.bare item, item.depth))) :
    Follows review order items' := by
  have hbare := congrArg (map Prod.fst) hsame
  rw [map_map, map_map] at hbare
  have hpair := forall₂_of_map_eq hsame.symm
  refine ⟨hbare.trans h.bare, ?_⟩
  intro i j item other hi hj hji hparent
  obtain ⟨item', hi', hitem⟩ := forall₂_at hpair hi
  obtain ⟨other', hj', hother⟩ := forall₂_at hpair hj
  rw [Prod.mk.injEq] at hitem hother
  have hparent' : item'.parent = some (.draft other'.tempId) := by
    have hid : other'.tempId = other.tempId := congrArg Link.id hother.1
    rw [← parentDraft_eq_some, hid]
    exact (congrArg Link.up hitem.1).trans (parentDraft_eq_some.mpr hparent)
  rw [← hitem.2, ← hother.2]
  exact h.deeper i j item' other' hi' hj' hji hparent'

/-- The tree shows what the machine has decided, and where the rest stands. -/
structure Shows (d : DurableSubmission) (items : List SubmissionItemProjection) : Prop where
  decided : ∀ item ∈ items, ∀ i, d.machine.order[i]? = some item.tempId →
    (∀ status, item.state = statusState status ↔
      ∃ r, d.machine.result i = some r ∧ r.status = status) ∧
    ∀ r, d.machine.result i = some r → item.postedCommentId = r.id ∧ item.reason = r.reason
  current : ∀ item ∈ items, ∀ i, d.machine.order[i]? = some item.tempId →
    d.machine.result i = none → item.state ≠ .queued → d.currentTempId = some item.tempId
  blocker : ∀ item ∈ items, item.state = .skipped → NearestStop (items.map SubmissionItemProjection.link)
    (parentDraft item.parent) item.blockingAncestor
  deeper : DeeperByOne items

theorem ParentsFirst.of_follows (hfirst : ParentsFirst (orderLinks review order))
    (h : Follows review order items) :
    ParentsFirst (items.map link) := by
  refine hfirst.congr ?_
  rw [← h.bare, map_map, map_map]
  rfl

variable {R : SubmissionItemProjection → SubmissionItemProjection → Prop}

theorem Follows.forall₂ (h : Follows review order items) (hpass : List.Forall₂ R items items')
    (hkeeps : ∀ item item', R item item' →
      SubmissionTree.bare item' = SubmissionTree.bare item ∧ item'.depth = item.depth) :
    Follows review order items' := by
  apply h.congr
  clear h
  induction hpass with
  | nil => rfl
  | cons hr _ ih =>
    obtain ⟨hbare, hdepth⟩ := hkeeps _ _ hr
    rw [map_cons, map_cons, ih, hbare, hdepth]

theorem Follows.synced (h : Follows review order items) (d : DurableSubmission) :
    Follows review order (items.map (syncItem d)) := by
  apply h.congr
  rw [map_map]
  apply map_congr_left
  intro item _
  obtain ⟨hbare, hdepth⟩ := syncItem_bare d item
  rw [Function.comp_apply, hbare, hdepth]

theorem forall₂_map_link (hpass : List.Forall₂ R items items')
    (hkeeps : ∀ item item', R item item' → item'.link = item.link) :
    items'.map link = items.map link := by
  induction hpass with
  | nil => rfl
  | cons hr _ ih => rw [map_cons, map_cons, ih, hkeeps _ _ hr]

/-- A `sync` ends: the machine's outcomes, then the blocking ancestors. -/
theorem sync_ends (h : Follows review order tree.items) (hfirst : ParentsFirst (orderLinks review order))
    (hnodup : d.machine.order.Nodup) (hsub : ∀ t ∈ order, t ∈ d.machine.order) :
    ∃ items', (∃ fuel, ∀ more, fuel ≤ more → tree.sync more d = some { tree with items := items' }) ∧
      List.Forall₂ (Named ((tree.items.map (syncItem d)).map link))
        (tree.items.map (syncItem d)) items' := by
  have hin : InPass ((tree.items.map (syncItem d)).map link) (tree.items.map (syncItem d)) := by
    refine ⟨rfl, ?_⟩
    intro synced hsynced ancestor hnamed
    obtain ⟨item, hitem, rfl⟩ := mem_map.mp hsynced
    obtain ⟨i, hat⟩ := mem_iff_getElem?.mp (hsub item.tempId (h.mem hitem))
    rw [syncItem_eq hnodup hat] at hnamed
    cases hr : d.machine.result i with
    | none => rw [(syncAt_undecided item hr).2.2] at hnamed; cases hnamed
    | some r => rw [(syncAt_decided item hr).2.2.2] at hnamed; cases hnamed
  obtain ⟨items', ⟨fuel, hfuel⟩, hnamed⟩ :=
    nameBlocker_ends hin (ParentsFirst.of_follows hfirst (h.synced d))
  refine ⟨items', ⟨fuel, fun more hmore => ?_⟩, hnamed⟩
  unfold sync
  rw [hfuel more hmore]
  rfl

theorem named_keeps {links : List (Link TempId)} {item' : SubmissionItemProjection}
    (h : Named links item item') : item'.link = item.link ∧
      SubmissionTree.bare item' = SubmissionTree.bare item ∧ item'.depth = item.depth := by
  obtain ⟨ancestor, rfl, -, -⟩ := h
  exact ⟨rfl, rfl, rfl⟩

theorem sync_shows (h : Follows review order items) (hnodup : d.machine.order.Nodup)
    (hnamed : List.Forall₂ (Named ((items.map (syncItem d)).map link))
      (items.map (syncItem d)) items') :
    Follows review order items' ∧ Shows d items' := by
  have hfollows := (h.synced d).forall₂ hnamed (fun _ _ hn => (named_keeps hn).2)
  have hlinks := forall₂_map_link hnamed (fun _ _ hn => (named_keeps hn).1)
  have hfrom : ∀ item' ∈ items', ∃ item, (∃ ancestor, item' = { syncItem d item with
      blockingAncestor := ancestor } ∧ (item'.state = .skipped → NearestStop
        (items'.map link) (parentDraft item'.parent) ancestor)) ∧
      item'.tempId = item.tempId := by
    intro item' hmem
    obtain ⟨k, hk⟩ := mem_iff_getElem?.mp hmem
    obtain ⟨synced, hsynced, ancestor, rfl, hnear, -⟩ := forall₂_at hnamed hk
    rw [getElem?_map] at hsynced
    obtain ⟨item, -, rfl⟩ := Option.map_eq_some_iff.mp hsynced
    refine ⟨item, ⟨ancestor, rfl, fun hskipped => ?_⟩, congrArg Link.id (syncItem_bare d item).1⟩
    rw [hlinks]
    exact hnear hskipped
  refine ⟨hfollows, ?_, ?_, ?_, hfollows.deeper⟩
  · intro item' hmem i hat
    obtain ⟨item, ⟨ancestor, rfl, -⟩, hid⟩ := hfrom item' hmem
    rw [hid] at hat
    rw [syncItem_eq hnodup hat]
    cases hr : d.machine.result i with
    | none =>
      refine ⟨fun status => ?_, fun r hr' => by cases hr'⟩
      constructor
      · intro hstate
        exact absurd hstate ((syncAt_undecided item hr).1 status)
      · rintro ⟨r, hr', -⟩
        cases hr'
    | some r =>
      obtain ⟨hstate, hreason, hid', -⟩ := syncAt_decided item hr
      refine ⟨fun status => ?_, fun r' hr' => by cases hr'; exact ⟨hid', hreason⟩⟩
      constructor
      · intro hstatus
        refine ⟨r, rfl, ?_⟩
        cases hs : r.status <;> cases status <;> simp_all [statusState]
      · rintro ⟨r', hr', rfl⟩
        cases hr'
        exact hstate
  · intro item' hmem i hat hr hstate
    obtain ⟨item, ⟨ancestor, rfl, -⟩, hid⟩ := hfrom item' hmem
    rw [hid] at hat ⊢
    rw [syncItem_eq hnodup hat] at hstate
    exact (syncAt_undecided item hr).2.1 hstate
  · intro item' hmem hskipped
    obtain ⟨item, ⟨ancestor, heq, hnear⟩, -⟩ := hfrom item' hmem
    have hblocking : item'.blockingAncestor = ancestor := by rw [heq]
    rw [hblocking]
    exact hnear hskipped

end SubmissionTree

end Bbr.Tui
