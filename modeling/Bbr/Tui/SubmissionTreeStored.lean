import Bbr.Review.Attribution
import Bbr.Tui.SubmissionTreeRuns

/-!
# The stored Drafts show the run

At the end of a run the stored Drafts give the tree of the last `sync`, as long as every skipped Draft
is stored as a plain one and hangs on a participant. With it, what a tree shows over a whole run.
-/
namespace Bbr.Tui

open Bbr.Bitbucket Bbr.Diff Bbr.Review Bbr.Lib Submission List Option SubmissionItemProjection

namespace SubmissionTree

variable {items items' : List SubmissionItemProjection} {item : SubmissionItemProjection}
  {review : PendingReview} {order : List TempId} {tree : SubmissionTree} {d : DurableSubmission}
  {m s : Submission} {i : Nat} {t : TempId} {r : ItemResult}

/-- What `checkpointSubmission` writes for a decided participant; a skipped one is not written. -/
def record (review : PendingReview) (entry : TempId × Option ItemResult) : PendingReview :=
  match entry.2.bind Presentation.resultOutcome with
  | some outcome => review.setState entry.1 outcome.draftState
  | none => review

/-- The Drafts as they are stored when every outcome has been written. -/
def recorded (review : PendingReview) (m : Submission) : PendingReview :=
  (m.order.zip m.results).foldl record review

def withOutcome (result : Option ItemResult) (draft : Draft) : Draft :=
  match result.bind Presentation.resultOutcome with
  | some outcome => draft.withState outcome.draftState
  | none => draft

theorem withOutcome_parent (result : Option ItemResult) (draft : Draft) :
    (withOutcome result draft).parent = draft.parent := by
  unfold withOutcome
  split <;> rfl

theorem getConst_record (review : PendingReview) (entry : TempId × Option ItemResult) (t : TempId) :
    (record review entry).getConst t =
      if t = entry.1 then (review.getConst t).map (withOutcome entry.2) else review.getConst t := by
  unfold record withOutcome
  cases entry.2.bind Presentation.resultOutcome with
  | none => simp
  | some outcome =>
    rw [PendingReview.getConst_setState]
    split
    · next h => rw [h]
    · rfl

theorem foldl_record {entries : List (TempId × Option ItemResult)}
    (hnodup : (entries.map Prod.fst).Nodup) (review : PendingReview) (t : TempId) :
    (entries.foldl record review).getConst t = (review.getConst t).map (fun draft =>
      withOutcome ((entries.find? (fun entry => decide (entry.1 = t))).bind Prod.snd) draft) := by
  induction entries generalizing review with
  | nil => simp [withOutcome]
  | cons entry rest ih =>
    rw [map_cons, nodup_cons] at hnodup
    rw [foldl_cons, ih hnodup.2, getConst_record]
    by_cases ht : entry.1 = t
    · have hnone : rest.find? (fun entry => decide (entry.1 = t)) = none := by
        rw [find?_eq_none]
        intro other hother heq
        exact hnodup.1 (mem_map.mpr ⟨other, hother, (of_decide_eq_true heq).trans ht.symm⟩)
      rw [if_pos ht.symm, hnone, find?_cons_of_pos (by simpa using ht), Option.map_map]
      rfl
    · rw [if_neg (fun h => ht h.symm), find?_cons_of_neg (by simpa using ht)]

theorem zip_find {results : List (Option ItemResult)} (hnodup : order.Nodup)
    (hlen : results.length = order.length) (hat : order[i]? = some t) :
    ((order.zip results).find? (fun entry => decide (entry.1 = t))).bind Prod.snd =
      results.getD i none := by
  induction order generalizing results i with
  | nil => cases hat
  | cons first rest ih =>
    cases results with
    | nil => cases hlen
    | cons result results =>
      rw [nodup_cons] at hnodup
      cases i with
      | zero =>
        cases hat
        simp
      | succ i =>
        have hne : first ≠ t := by
          rintro rfl
          exact hnodup.1 (mem_of_getElem? hat)
        rw [zip_cons_cons, find?_cons_of_neg (by simpa using hne)]
        exact ih hnodup.2 (Nat.succ.inj hlen) hat

theorem getConst_recorded (hsized : m.Sized) (hnodup : m.order.Nodup) (hat : m.order[i]? = some t) :
    (recorded review m).getConst t = (review.getConst t).map (withOutcome (m.result i)) := by
  have hfst : ((m.order.zip m.results).map Prod.fst).Nodup := by
    rw [map_fst_zip (Nat.le_of_eq hsized.results.symm)]
    exact hnodup
  unfold recorded
  rw [foldl_record hfst, zip_find hnodup hsized.results hat]
  rfl

/-- What a tree shows of an item besides its place. -/
def outcome (item : SubmissionItemProjection) :
    TempId × SubmissionItemState × Option ApiError × Option CommentId × Option TempId :=
  (item.tempId, item.state, item.reason, item.postedCommentId, item.blockingAncestor)

/-- Every participant is remote, and one that was skipped is stored as a plain Draft below another
participant. -/
structure SkipsPlain (review : PendingReview) (m : Submission) (order : List TempId) : Prop where
  remote : ∀ t ∈ order, ∀ draft, review.getConst t = some draft → draft.target = .bitbucket
  plain : ∀ t ∈ order, ∀ i r draft, m.order[i]? = some t → m.result i = some r →
    r.status = .skipped → review.getConst t = some draft →
      draft.state = .draft ∧ ∃ pid ∈ order, draft.parent = some (.draft pid)

def statusStops : ItemStatus → Bool
  | .failed | .outcomeUnknown => true
  | .posted | .skipped => false

theorem map_eq_of_at {α β γ : Type} {f : α → γ} {g : β → γ} {l : List α} {l' : List β}
    (hlen : l.length = l'.length)
    (h : ∀ (k : Nat) (a : α) (b : β), l[k]? = some a → l'[k]? = some b → f a = g b) :
    l.map f = l'.map g := by
  refine ext_getElem (by simpa using hlen) fun k hk hk' => ?_
  rw [getElem_map, getElem_map]
  exact h k _ _ (getElem?_eq_getElem _) (getElem?_eq_getElem _)

/-- The stored Draft of a participant shows its outcome, unless it was skipped. -/
theorem persistedItem_shows (review : PendingReview) (m : Submission) (order : List TempId)
    {draft : Draft} (hs : r.Shaped)
    (hplain : r.status = .skipped → draft.state = .draft) (t : TempId) (n : Nat) :
    let item := persistedItem (recorded review m) order t (withOutcome (some r) draft) n
    item.tempId = t ∧ item.postedCommentId = r.id ∧ item.blockingAncestor = none ∧
      item.blocks = statusStops r.status ∧ (r.status = .skipped → item.state = .queued) ∧
      (r.status ≠ .skipped →
        item.state = statusState r.status ∧ item.state ≠ .queued ∧ item.reason = r.reason) := by
  cases hs with
  | posted | failed => simp [persistedItem, withOutcome, Presentation.resultOutcome, persistedState,
      SubmissionOutcome.draftState, statusState, statusStops, newItem, blocks]
  | outcomeUnknown => simp [persistedItem, withOutcome, Presentation.resultOutcome, persistedState,
      SubmissionOutcome.draftState, statusState, statusStops, newItem, blocks]
  | skipped => simp [persistedItem, withOutcome, Presentation.resultOutcome, persistedState, hplain,
      statusStops, newItem, blocks]

theorem syncAt_blocks (item : SubmissionItemProjection) (hr : d.machine.result i = some r) :
    (syncAt d i item).blocks = statusStops r.status := by
  unfold blocks
  rw [(syncAt_decided item hr).1]
  cases r.status <;> rfl

theorem reasonOf_self (hids : (items.map tempId).Nodup) (hitem : item ∈ items) :
    reasonOf items item.tempId = item.reason := by
  unfold reasonOf findConst
  cases hfind : items.find? (fun other => decide (other.tempId = item.tempId)) with
  | none => exact absurd (decide_eq_true rfl) (find?_eq_none.mp hfind item hitem)
  | some found =>
    have hsame : found.tempId = item.tempId := by simpa using find?_some hfind
    rw [inj_on_of_nodup_map hids (mem_of_find?_eq_some hfind) hitem hsame]
    rfl

section End

variable {k : Nat} (he : Explained review d.machine) (hend : d.machine.order.length ≤ d.machine.idx)
  (hin : ∀ t ∈ d.machine.order, (review.getConst t).isSome)
  (hplain : SkipsPlain review d.machine (d.machine.order.drop k)) {l : Nat}

include he hend hin hplain

theorem participant (hat : (d.machine.order.drop k)[l]? = some t) :
    d.machine.order[k + l]? = some t ∧ ∃ r draft, d.machine.result (k + l) = some r ∧
      r.tempId = t ∧ r.Shaped ∧ review.getConst t = some draft := by
  have hmem : t ∈ d.machine.order.drop k := mem_of_getElem? hat
  rw [getElem?_drop] at hat
  obtain ⟨draft, hdraft⟩ := isSome_iff_exists.mp (hin t (mem_of_getElem? hat))
  have hlt : k + l < d.machine.idx := Nat.lt_of_lt_of_le (List.getElem?_eq_some_iff.mp hat).1 hend
  refine ⟨hat, ?_⟩
  cases hr : d.machine.result (k + l) with
  | none =>
    have hlocal := he.passed (k + l) t draft hlt hr hat hdraft
    rw [hplain.remote t hmem draft hdraft] at hlocal
    cases hlocal
  | some r =>
    have hnamed := he.named (k + l) r hr
    rw [hat] at hnamed
    exact ⟨r, draft, rfl, (some.inj hnamed).symm, he.shaped _ r hr, hdraft⟩

theorem synced_link (hfollows : Follows review (d.machine.order.drop k) items)
    (hitem : items[l]? = some item) : ∃ r draft, d.machine.order[k + l]? = some item.tempId ∧
      d.machine.result (k + l) = some r ∧ r.Shaped ∧ review.getConst item.tempId = some draft ∧
      parentDraft item.parent = parentDraft draft.parent ∧
      (syncItem d item).link = ⟨item.tempId, parentDraft draft.parent, statusStops r.status⟩ := by
  have hat : (d.machine.order.drop k)[l]? = some item.tempId := by
    rw [← hfollows.tempIds, getElem?_map, hitem]
    rfl
  obtain ⟨hat', r, draft, hr, -, hshaped, hdraft⟩ := participant he hend hin hplain hat
  have hparent : parentDraft item.parent = parentDraft draft.parent := by
    have hbare := congrArg (fun links => links[l]?) hfollows.bare
    simp only [orderLinks, getElem?_map, hitem, hat, map_some, hdraft, bind_some] at hbare
    exact congrArg Link.up (some.inj hbare)
  refine ⟨r, draft, hat', hr, hshaped, hdraft, hparent, ?_⟩
  have hbare := (syncItem_bare d item).1
  have hblocks : (syncItem d item).blocks = statusStops r.status := by
    rw [syncItem_eq he.nodup hat', syncAt_blocks item hr]
  unfold link
  rw [hblocks]
  have hid : (syncItem d item).tempId = item.tempId := congrArg Link.id hbare
  have hup : parentDraft (syncItem d item).parent = parentDraft item.parent := congrArg Link.up hbare
  rw [hid, hup, hparent]

theorem participant_stored (hat : (d.machine.order.drop k)[l]? = some t) : ∃ r draft,
    d.machine.result (k + l) = some r ∧ r.Shaped ∧ review.getConst t = some draft ∧
      (recorded review d.machine).getConst t = some (withOutcome (some r) draft) ∧
      (r.status = .skipped → draft.state = .draft) := by
  obtain ⟨hat', r, draft, hr, -, hshaped, hdraft⟩ := participant he hend hin hplain hat
  refine ⟨r, draft, hr, hshaped, hdraft, ?_, fun hskipped =>
    (hplain.plain t (mem_of_getElem? hat) _ r draft hat' hr hskipped hdraft).1⟩
  rw [getConst_recorded he.sized he.nodup hat', hdraft, hr]
  rfl

theorem recorded_links : orderLinks (recorded review d.machine) (d.machine.order.drop k) =
    orderLinks review (d.machine.order.drop k) := by
  apply map_eq_of_at rfl
  intro l t t' ht ht'
  cases ht.symm.trans ht'
  obtain ⟨r, draft, -, -, hdraft, hrecorded, -⟩ := participant_stored he hend hin hplain ht
  rw [hrecorded, hdraft, bind_some, bind_some, withOutcome_parent]

section

variable {drawn : List SubmissionItemProjection} (hdrawn : Drawn (recorded review d.machine)
  (persistedItem (recorded review d.machine) (d.machine.order.drop k)) (d.machine.order.drop k) drawn)
include hdrawn

/-- A drawn item with its participant. -/
theorem drawn_at (hitem : drawn[l]? = some item) :
    ∃ r draft n, (d.machine.order.drop k)[l]? = some item.tempId ∧
      d.machine.result (k + l) = some r ∧ r.Shaped ∧ review.getConst item.tempId = some draft ∧
      (r.status = .skipped → draft.state = .draft) ∧
      item = persistedItem (recorded review d.machine) (d.machine.order.drop k) item.tempId
        (withOutcome (some r) draft) n := by
  obtain ⟨t, draft', n, hat, hdraft', rfl, -⟩ := hdrawn.made hitem
  obtain ⟨r, draft, hr, hshaped, hdraft, hrecorded, hstate⟩ := participant_stored he hend hin hplain hat
  cases hdraft'.symm.trans hrecorded
  exact ⟨r, draft, n, hat, hr, hshaped, hdraft, hstate, rfl⟩

variable (hfollows : Follows review (d.machine.order.drop k) items)
include hfollows

omit he hend hin hplain in
theorem drawn_length : drawn.length = items.length := by
  rw [hdrawn.length, ← hfollows.tempIds, length_map]

theorem drawn_links : drawn.map link = (items.map (syncItem d)).map link := by
  rw [List.map_map]
  apply map_eq_of_at (drawn_length hdrawn hfollows)
  intro l item other hitem hother
  obtain ⟨r, draft, n, hat, hr, hshaped, hdraft, hstate, hitemEq⟩ :=
    drawn_at he hend hin hplain hdrawn hitem
  obtain ⟨r', draft', hat', hr', -, hdraft', -, hlink⟩ := synced_link he hend hin hplain hfollows hother
  rw [getElem?_drop] at hat
  have hid : item.tempId = other.tempId := some.inj (hat.symm.trans hat')
  rw [hid] at hdraft hitemEq
  cases hr.symm.trans hr'
  cases hdraft.symm.trans hdraft'
  obtain ⟨-, -, -, hblocks, -⟩ := persistedItem_shows review d.machine (d.machine.order.drop k)
    hshaped hstate other.tempId n
  rw [Function.comp_apply, hlink, hitemEq, link, hblocks]
  congr 1
  exact congrArg parentDraft (withOutcome_parent (some r) draft)

end

section

variable (hfirst : ParentsFirst (orderLinks review (d.machine.order.drop k)))
  (hfollows : Follows review (d.machine.order.drop k) items)
include hfirst hfollows

/-- A skipped participant hangs below a blocking one that has its reason, by induction on its
place. -/
theorem skipped_below (hitem : items[l]? = some item) (hr : d.machine.result (k + l) = some r)
    (hskipped : r.status = .skipped) : ∃ ancestor, NearestStop ((items.map (syncItem d)).map link)
        (parentDraft item.parent) (some ancestor) ∧
      ∃ j blocker q, items[j]? = some blocker ∧ blocker.tempId = ancestor ∧
        d.machine.result (k + j) = some q ∧ statusStops q.status = true ∧ r.reason = q.reason := by
  induction l using Nat.strongRecOn generalizing item r with
  | _ l ih =>
    obtain ⟨r', draft, hat, hr', -, hdraft, hparent, -⟩ := synced_link he hend hin hplain hfollows hitem
    cases hr.symm.trans hr'
    have hmem : item.tempId ∈ d.machine.order.drop k := hfollows.mem (mem_of_getElem? hitem)
    obtain ⟨-, pid, hpid, hpd⟩ := hplain.plain item.tempId hmem (k + l) r draft hat hr hskipped hdraft
    obtain ⟨j, hj⟩ := mem_iff_getElem?.mp hpid
    rw [hparent, hpd]
    -- The parent is an item of its own.
    obtain ⟨other, hother, rfl⟩ : ∃ other, items[j]? = some other ∧ other.tempId = pid := by
      rw [← hfollows.tempIds, getElem?_map] at hj
      exact map_eq_some_iff.mp hj
    obtain ⟨q, otherDraft, hatj, hq, hqs, hotherDraft, hotherParent, hotherLink⟩ :=
      synced_link he hend hin hplain hfollows hother
    have hlinks := ParentsFirst.of_follows hfirst (hfollows.synced d)
    have hfind : findLink ((items.map (syncItem d)).map link) other.tempId =
        some (syncItem d other).link := by
      have hid : (syncItem d other).link.id = other.tempId := congrArg Link.id (syncItem_bare d other).1
      rw [← hid]
      exact findLink_of_mem hlinks.nodup (mem_map_of_mem (mem_map_of_mem (mem_of_getElem? hother)))
    have hjl : j < l := by
      have horder : ∀ {i : Nat} {one : SubmissionItemProjection}, items[i]? = some one →
          (orderLinks review (d.machine.order.drop k))[i]? = some (bare one) := by
        intro i one hone
        rw [← hfollows.bare, getElem?_map, hone]
        rfl
      exact hfirst.before l j _ _ (horder hitem) (horder hother) (hparent.trans (by rw [hpd]; rfl))
    have hremote : otherDraft.target ≠ .localOnly := by
      rw [hplain.remote other.tempId hpid otherDraft hotherDraft]
      decide
    obtain ⟨d', pid', hd', hparent', hbefore⟩ := he.skips (k + l) r hr hskipped
    have hrid : r.tempId = item.tempId := by
      have := he.named (k + l) r hr
      rw [hat] at this
      exact (some.inj this).symm
    rw [hrid] at hd'
    cases hdraft.symm.trans hd'
    cases hpd.symm.trans hparent'
    obtain ⟨p, hp, hposted, hreason⟩ := hbefore (k + j) (by omega) hatj otherDraft hotherDraft hremote
    cases hq.symm.trans hp
    cases hstops : statusStops q.status with
    | true =>
      exact ⟨other.tempId, .here hfind (by rw [hotherLink]; exact hstops), j, other, q, hother, rfl, hq,
        hstops, hreason⟩
    | false =>
      have hqskipped : q.status = .skipped := by
        cases hqstatus : q.status with
        | posted => exact absurd hqstatus hposted
        | skipped => rfl
        | failed | outcomeUnknown => rw [hqstatus] at hstops; cases hstops
      obtain ⟨ancestor, hnear, i, blocker, b, hblocker, hid, hb, hbstops, hbreason⟩ :=
        ih j hjl hother hq hqskipped
      refine ⟨ancestor, .above hfind (by rw [hotherLink]; exact hstops) ?_, i, blocker, b, hblocker,
        hid, hb, hbstops, hreason.trans hbreason⟩
      rw [hotherLink, ← hotherParent]
      exact hnear

section

variable {drawn : List SubmissionItemProjection} (hdrawn : Drawn (recorded review d.machine)
  (persistedItem (recorded review d.machine) (d.machine.order.drop k)) (d.machine.order.drop k) drawn)
include hdrawn

theorem drawn_ids : (drawn.map tempId).Nodup := by
  have hnodup := (ParentsFirst.of_follows hfirst (hfollows.synced d)).nodup
  rw [← drawn_links he hend hin hplain hdrawn hfollows, List.map_map] at hnodup
  exact hnodup

/-- The second pass over a drawn item gives what the last `sync` shows of it. -/
theorem outcome_alike {stored shown other : SubmissionItemProjection}
    (hitem : drawn[l]? = some item) (hother : items[l]? = some other)
    (hskip : Skipped ((items.map (syncItem d)).map link) (reasonOf drawn) item stored)
    (hname : Named ((items.map (syncItem d)).map link) (syncItem d other) shown) :
    outcome stored = outcome shown := by
  obtain ⟨ancestor, rfl, hnear, hkept⟩ := hname
  obtain ⟨r, draft, n, hat, hr, hshaped, -, hstate, hitemEq⟩ := drawn_at he hend hin hplain hdrawn hitem
  obtain ⟨-, -, hatM, -⟩ := synced_link he hend hin hplain hfollows hother
  have hsame : item.tempId = other.tempId := by
    rw [getElem?_drop] at hat
    exact some.inj (hat.symm.trans hatM)
  obtain ⟨hid, hposted, hnone, -, hqueued, hdecided⟩ := persistedItem_shows review d.machine
    (d.machine.order.drop k) hshaped hstate item.tempId n
  rw [← hitemEq] at hposted hnone hqueued hdecided
  obtain ⟨hsState, hsReason, hsId, hsNone⟩ := syncAt_decided other hr
  rw [← syncItem_eq he.nodup hatM] at hsState hsReason hsId hsNone
  have hsTemp : (syncItem d other).tempId = other.tempId := congrArg Link.id (syncItem_bare d other).1
  by_cases hskipped : r.status = .skipped
  · -- Both name the blocking participant that it hangs below, and its reason.
    have hup := congrArg Link.up (syncItem_bare d other).1
    obtain ⟨above, habove, j, blocker, q, hblocker, rfl, hq, hqstops, hreason⟩ :=
      skipped_below he hend hin hplain hfirst hfollows hother hr hskipped
    have hsynced := hnear (by rw [hsState, hskipped]; rfl)
    rw [show parentDraft (syncItem d other).parent = parentDraft other.parent from hup] at hsynced
    obtain rfl := hsynced.unique habove
    obtain ⟨found, hfound, rfl⟩ := hskip.2 (hqueued hskipped)
    have hlinkAt := congrArg (fun links => links[l]?) (drawn_links he hend hin hplain hdrawn hfollows)
    simp only [getElem?_map, hitem, hother, map_some] at hlinkAt
    rw [show parentDraft item.parent = parentDraft other.parent from
      (congrArg Link.up (some.inj hlinkAt)).trans hup] at hfound
    obtain rfl := hfound.unique habove
    have hjlt := (List.getElem?_eq_some_iff.mp hblocker).1
    rw [← drawn_length hdrawn hfollows] at hjlt
    have hblocked := List.getElem?_eq_getElem hjlt
    obtain ⟨q', draft', n', hat', hq', hqshaped, -, hqstate, hblockedEq⟩ :=
      drawn_at he hend hin hplain hdrawn hblocked
    obtain ⟨-, -, hatB, -⟩ := synced_link he hend hin hplain hfollows hblocker
    rw [getElem?_drop] at hat'
    cases hq.symm.trans hq'
    obtain ⟨-, -, -, -, -, hqdecided⟩ := persistedItem_shows review d.machine
      (d.machine.order.drop k) hqshaped hqstate drawn[j].tempId n'
    rw [← hblockedEq] at hqdecided
    have hqnot : q.status ≠ .skipped := by
      intro hq
      rw [hq] at hqstops
      cases hqstops
    have hblockedReason := reasonOf_self (drawn_ids he hend hin hplain hfirst hfollows hdrawn)
      (List.mem_of_getElem? hblocked)
    rw [some.inj (hat'.symm.trans hatB), (hqdecided hqnot).2.2] at hblockedReason
    simp [outcome, hsame, hposted, hblockedReason, hsTemp, hsState, hsReason, hsId, hskipped,
      statusState, hreason]
  · obtain ⟨hpState, hpQueued, hpReason⟩ := hdecided hskipped
    have hsNot : (syncItem d other).state ≠ .skipped := by
      rw [hsState]
      cases hs : r.status with
      | skipped => exact absurd hs hskipped
      | posted | failed | outcomeUnknown => simp [statusState]
    rw [hkept hsNot, hsNone, hskip.1 hpQueued]
    simp [outcome, hsame, hposted, hnone, hpState, hpReason, hsTemp, hsState, hsReason, hsId]

end

theorem stored_alike (hnamed : List.Forall₂ (Named ((items.map (syncItem d)).map link))
      (items.map (syncItem d)) items') (key : RemoteReviewIdentity) (operationId : OperationId)
    {runItems : List SubmissionRunItem}
    (hrun : runItems.map SubmissionRunItem.tempId = d.machine.order.drop k)
    (completion : SubmissionCompletion) :
    ∃ fuel persisted, createPersisted fuel key operationId (recorded review d.machine) runItems
      completion = some (.ok persisted) ∧ persisted.items.map outcome = items'.map outcome := by
  obtain ⟨drawn, ⟨fuel, hfuel⟩, hdrawn⟩ := appendItems_ends
    (persistedItem_makes (recorded review d.machine) (d.machine.order.drop k))
    (by rw [recorded_links he hend hin hplain]; exact hfirst)
    (fun t ht => by
      obtain ⟨l, hl⟩ := mem_iff_getElem?.mp ht
      obtain ⟨r, draft, -, -, -, hrecorded, -⟩ := participant_stored he hend hin hplain hl
      rw [hrecorded]
      rfl)
  have hids := drawn_ids he hend hin hplain hfirst hfollows hdrawn
  have hinPass : InPass ((items.map (syncItem d)).map link) drawn := by
    refine ⟨drawn_links he hend hin hplain hdrawn hfollows, ?_⟩
    intro item hitem ancestor hnames
    obtain ⟨l, hl⟩ := mem_iff_getElem?.mp hitem
    obtain ⟨r, draft, n, -, -, -, -, -, heq⟩ := drawn_at he hend hin hplain hdrawn hl
    rw [heq] at hnames
    cases hnames
  obtain ⟨final, ⟨fuel', hfuel'⟩, hskips⟩ := skipBlocked_ends hinPass
    (ParentsFirst.of_follows hfirst (hfollows.synced d))
    (fun item hitem _ => (reasonOf_self hids hitem).symm)
  refine ⟨max fuel fuel', { key := key, operationId := operationId, items := final
                            omittedDrafts := captureOmittedDrafts (recorded review d.machine)
                              (d.machine.order.drop k)
                            completion := some completion }, ?_, ?_⟩
  · unfold createPersisted
    rw [hrun]
    dsimp only
    rw [hfuel (max fuel fuel') (by omega)]
    dsimp only
    rw [hfuel' (max fuel fuel') (by omega)]
    rfl
  · apply map_eq_of_at (hskips.length_eq.symm.trans
      ((drawn_length hdrawn hfollows).trans ((length_map _).symm.trans hnamed.length_eq)))
    intro l stored shown hstoredAt hshownAt
    obtain ⟨item, hitem, hskip⟩ := forall₂_at hskips hstoredAt
    obtain ⟨synced, hsynced, hname⟩ := forall₂_at hnamed hshownAt
    rw [getElem?_map] at hsynced
    obtain ⟨other, hother, rfl⟩ := map_eq_some_iff.mp hsynced
    exact outcome_alike he hend hin hplain hfirst hfollows hdrawn hitem hother hskip hname

end

end End

/-- A run starts with its outcomes explained, over Drafts that are there. -/
theorem explained_start {start : Start} {begun : Submission} (hd : review.DistinctTempIds)
    (hbegin : start.begin review = .ok begun) (hstart : StartsAs begun m) :
    Explained review m ∧ ∀ t ∈ m.order, (review.getConst t).isSome := by
  have hnodup := begin_nodup hd hbegin
  have hmem : ∀ t ∈ begun.order, (review.getConst t).isSome := fun t ht => begin_mem hbegin ht
  obtain ⟨order, rfl⟩ := begin_eq_initOrder hbegin
  have hbegun := explained_initOrder review hnodup start.settlesFailures
  have hsized := (Tracked.of_start hstart).sized
  cases hstart with
  | begun => exact ⟨hbegun, hmem⟩
  | restored checkpoint | interrupted => exact ⟨hbegun.congr rfl hsized rfl rfl, hmem⟩

theorem order_kept {es : List Event} (he : Explained review m)
    (hrun : Run (Exchanges review) m es s) : s.order = m.order := by
  have hall : Explained review s ∧ s.order = m.order := by
    apply hrun.invariant (fun s => Explained review s ∧ s.order = m.order) ?_ ⟨he, rfl⟩
    rintro a e b hstep ⟨ha, horder⟩
    obtain ⟨tid, d, parent, fate, -, -, hel, -, -⟩ := exchange_lands hstep ha.sized
    have hmoved := (advance_spec review a ha.sized.results).1
    exact ⟨ha.step hstep, hel.order.trans (hmoved.order.trans horder)⟩
  exact hall.2

/-- One `sync` of a run over this order, however long its walks are. -/
def Syncs (order : List TempId) (tree : SubmissionTree) (d : DurableSubmission)
    (tree' : SubmissionTree) : Prop :=
  d.machine.order = order ∧ ∃ fuel, tree.sync fuel d = some tree'

variable
  {f : List SubmissionItemProjection → SubmissionItemProjection → Option SubmissionItemProjection}
  {done rest : List SubmissionItemProjection}

/-- What every rewrite of an item keeps is kept by the whole pass. -/
theorem rewrite_keeps {β : Type} {key : SubmissionItemProjection → β}
    (hf : ∀ items item item', f items item = some item' → key item' = key item)
    {out : List SubmissionItemProjection} (h : rewrite f done rest = some out) :
    out.map key = (done ++ rest).map key := by
  induction rest generalizing done with
  | nil =>
    cases h
    rw [append_nil]
  | cons item rest ih =>
    unfold rewrite at h
    cases hitem : f (done ++ item :: rest) item with
    | none => rw [hitem] at h; cases h
    | some item' =>
      rw [hitem] at h
      rw [ih h]
      simp [hf _ _ _ hitem]

variable {fuel : Nat}

theorem nameBlocker_keeps {item' : SubmissionItemProjection}
    (h : nameBlocker fuel items item = some item') :
    bare item' = bare item ∧ item'.depth = item.depth := by
  unfold nameBlocker at h
  split at h
  · obtain ⟨ancestor, -, rfl⟩ := map_eq_some_iff.mp h
    exact ⟨rfl, rfl⟩
  · cases h
    exact ⟨rfl, rfl⟩

theorem Follows.sync {tree' : SubmissionTree} (h : Follows review order tree.items)
    (hsync : tree.sync fuel d = some tree') : Follows review order tree'.items := by
  obtain ⟨out, hout, rfl⟩ := map_eq_some_iff.mp hsync
  apply (h.synced d).congr
  apply rewrite_keeps ?_ hout
  intro items item item' hitem
  obtain ⟨hbare, hdepth⟩ := nameBlocker_keeps hitem
  rw [hbare, hdepth]

theorem create_ends (hfirst : ParentsFirst (orderLinks d.review order))
    (hin : ∀ t ∈ order, (d.review.getConst t).isSome) (hnodup : d.machine.order.Nodup)
    (hsub : ∀ t ∈ order, t ∈ d.machine.order) :
    ∃ tree fuel, create fuel d order = some (.ok tree) ∧ Follows d.review order tree.items := by
  obtain ⟨items, ⟨fuel, hfuel⟩, hdrawn⟩ := appendItems_ends (newItem_makes d.review order) hfirst hin
  let drawn : SubmissionTree :=
    { key := d.key, operationId := d.operationId, items := items
      omittedDrafts := captureOmittedDrafts d.review order }
  have hfollows : Follows d.review order drawn.items := ⟨hdrawn.bare (newItem_makes d.review order),
      hdrawn.deeperByOne (newItem_makes d.review order) hfirst⟩
  obtain ⟨items', ⟨fuel', hfuel'⟩, hnamed⟩ := sync_ends hfollows hfirst hnodup hsub
  refine ⟨{ drawn with items := items' }, max fuel fuel', ?_, (sync_shows hfollows hnodup hnamed).1⟩
  unfold create
  rw [hfuel (max fuel fuel') (by omega)]
  dsimp only
  rw [hfuel' (max fuel fuel') (by omega)]
  rfl

/-- Where parents stand before their Replies, the tree is drawn, and every `sync` of the run ends with
what the machine has decided. When it is done, the stored Drafts show the same outcomes, as long as
every skipped Draft is stored as a plain one and hangs on a participant. -/
theorem tree_shows_run {start : Start} {begun : Submission} (hd : review.DistinctTempIds)
    (hbegin : start.begin review = .ok begun) (hstart : StartsAs begun m) (k : Nat)
    (hfirst : ParentsFirst (orderLinks review (m.order.drop k))) (hreview : d.review = review)
    (horder : d.machine.order = m.order) :
    ∃ tree fuel, create fuel d (m.order.drop k) = some (.ok tree) ∧
      ∀ es s ds tree', Run (Exchanges review) m es s → Run (Syncs m.order) tree ds tree' →
        ∀ e : DurableSubmission, (e.machine = s ∨ e.machine = (s.advance review).2) →
          ∃ shown, (∃ fuel, tree'.sync fuel e = some shown) ∧
            shown.items.map SubmissionItemProjection.tempId = m.order.drop k ∧
            Shows e shown.items ∧
            (e.machine = (s.advance review).2 → (s.advance review).1 = .done →
              SkipsPlain review e.machine (m.order.drop k) →
              ∀ key operationId (runItems : List SubmissionRunItem) completion,
                runItems.map SubmissionRunItem.tempId = m.order.drop k →
                ∃ fuel persisted, createPersisted fuel key operationId (recorded review e.machine)
                  runItems completion = some (.ok persisted) ∧
                  persisted.items.map outcome = shown.items.map outcome) := by
  obtain ⟨he, hin⟩ := explained_start hd hbegin hstart
  have hsub : ∀ t ∈ m.order.drop k, t ∈ m.order := fun t ht => mem_of_mem_drop ht
  subst hreview
  obtain ⟨tree, fuel, hcreate, hfollows⟩ := create_ends hfirst (fun t ht => hin t (hsub t ht))
    (horder ▸ he.nodup) (fun t ht => horder ▸ hsub t ht)
  refine ⟨tree, fuel, hcreate, ?_⟩
  intro es s ds tree' hrun hsyncs e hmachine
  have hes := he.run hrun
  have hsOrder := order_kept he hrun
  -- The machine between two exchanges, before or after it was asked.
  have hasked : Explained d.review e.machine ∧ e.machine.order = m.order := by
    obtain h | h := hmachine
    · rw [h]
      exact ⟨hes, hsOrder⟩
    · rw [h]
      exact ⟨hes.advance, (advance_spec d.review s hes.sized.results).1.order.trans hsOrder⟩
  obtain ⟨heE, heOrder⟩ := hasked
  have hfollows' : Follows d.review (m.order.drop k) tree'.items := by
    apply hsyncs.invariant (fun tree => Follows d.review (m.order.drop k) tree.items) ?_ hfollows
    rintro tree d' tree' ⟨-, fuel, hsync⟩ h
    exact h.sync hsync
  obtain ⟨items', ⟨fuel', hfuel'⟩, hnamed⟩ := sync_ends hfollows' hfirst heE.nodup
    (fun t ht => heOrder ▸ hsub t ht)
  obtain ⟨hshownFollows, hshows⟩ := sync_shows hfollows' heE.nodup hnamed
  refine ⟨{ tree' with items := items' }, ⟨fuel', hfuel' fuel' (Nat.le_refl _)⟩,
    hshownFollows.tempIds, hshows, ?_⟩
  intro hadvanced hdone hplain key operationId runItems completion hitems
  have hstops := (advance_spec d.review s hes.sized.results).2
  rw [hdone, ← hadvanced] at hstops
  rw [← heOrder] at hfirst hfollows' hplain hitems
  exact stored_alike heE hstops.2 (fun t ht => hin t (heOrder ▸ ht)) hplain hfirst hfollows' hnamed
    key operationId hitems completion

def shownKey : RemoteReviewIdentity := ⟨ascii "w", ascii "r", 1⟩

/-- A Draft and its Reply. -/
def answered : PendingReview :=
  { drafts := [{ localId := 1 }, { localId := 2, parent := some (.draft 1) }] }

def refusal : List Event := [⟨.post ⟨1, none, false⟩, .report (.rejected .badRequest) none⟩]

def refused : Submission :=
  (((init answered).advance answered).2.report (.rejected .badRequest) none).advance answered |>.2

/-- The Draft is refused and its Reply skipped; the stored Drafts show the same. -/
theorem tree_shows_run_refused :
    let durable : DurableSubmission :=
      { key := shownKey, review := answered, machine := init answered }
    ∃ tree fuel shown fuel' persisted fuel'', create fuel durable [1, 2] = some (.ok tree) ∧
      tree.sync fuel' { durable with machine := refused } = some shown ∧
      createPersisted fuel'' shownKey 0 (recorded answered refused) [⟨1, none⟩, ⟨2, some (.draft 1)⟩]
        .partialCompletion = some (.ok persisted) ∧
      persisted.items.map outcome = shown.items.map outcome := by
  intro durable
  have hrun : Run (Exchanges answered) (init answered) refusal
      (((init answered).advance answered).2.report (.rejected .badRequest) none) :=
    replay_iff.mp (by decide)
  have hfirst : ParentsFirst (orderLinks answered ((init answered).order.drop 0)) := by
    refine ⟨by decide, ?_⟩
    intro i j link other hi hj hup
    match i, j with
    | 0, _ => cases hi; cases hup
    | 1, 0 => decide
    | 1, 1 => cases hi; cases hj; cases hup
    | 1, j + 2 => cases hj
    | i + 2, _ => cases hi
  have hplain : SkipsPlain answered refused ((init answered).order.drop 0) := by
    have hin : ∀ t ∈ (init answered).order.drop 0, t = 1 ∨ t = 2 := by decide
    refine ⟨?_, ?_⟩
    · intro t ht draft hdraft
      obtain rfl | rfl := hin t ht <;> (cases hdraft; rfl)
    · intro t ht i r draft hat hr hskipped hdraft
      match i with
      | 0 => cases hr; cases hskipped
      | 1 => cases hat; cases hdraft; exact ⟨rfl, 1, by decide, rfl⟩
      | i + 2 => cases hat
  have hbegin : Start.fresh.begin answered = .ok (init answered) := rfl
  have hreview : durable.review = answered := rfl
  have horder : durable.machine.order = (init answered).order := rfl
  obtain ⟨tree, fuel, hcreate, hshows⟩ :=
    tree_shows_run (by decide) hbegin .begun 0 hfirst hreview horder
  obtain ⟨shown, ⟨fuel', hsync⟩, -, -, hstored⟩ :=
    hshows _ _ [] tree hrun (.nil tree) { durable with machine := refused } (.inr rfl)
  obtain ⟨fuel'', persisted, hcreated, hsame⟩ := hstored rfl (by decide) hplain shownKey 0
    [⟨1, none⟩, ⟨2, some (.draft 1)⟩] .partialCompletion (by decide)
  exact ⟨tree, fuel, shown, fuel', persisted, fuel'', hcreate, hsync, hcreated, hsame⟩

/-- A walk that only meets items that neither block nor name a blocker, round and round. -/
theorem nearest_never_ends {ring : List TempId} (h : ∀ tempId ∈ ring, ∃ item next,
      findConst items tempId = some item ∧ item.blocks = false ∧ item.blockingAncestor = none ∧
        item.parent = some (.draft next) ∧ next ∈ ring) (fuel : Nat) {tempId : TempId}
    (hid : tempId ∈ ring) : nearestBlockingAncestor items fuel (some (.draft tempId)) = none := by
  induction fuel generalizing tempId with
  | zero => rfl
  | succ fuel ih =>
    obtain ⟨item, next, hfind, hblocks, hnone, hparent, hnext⟩ := h tempId hid
    unfold nearestBlockingAncestor
    simp only [hfind, hblocks, hnone, hparent, Bool.false_eq_true, if_false]
    exact ih hnext

theorem nameBlocker_stuck (hskipped : item.state = .skipped)
    (hnone : nearestBlockingAncestor items fuel item.parent = none) :
    nameBlocker fuel items item = none := by
  unfold nameBlocker
  rw [if_pos hskipped, hnone]
  rfl

theorem rewrite_stuck (h : f (done ++ item :: rest) item = none) :
    rewrite f done (item :: rest) = none := by
  unfold rewrite
  rw [h]

def looped : PendingReview :=
  { drafts := [{ localId := 1, parent := some (.draft 2) }, { localId := 2, parent := some (.draft 1) },
      { localId := 3 }] }

/-- The store takes each Draft, the first one again when it has become a Reply. -/
def loopedStore : InMemoryStore :=
  [{ localId := 1 }, { localId := 2, parent := some (.draft 1) },
    { localId := 1, parent := some (.draft 2) }, { localId := 3 }].foldl
      (fun store draft => (store.put shownKey draft).2) {}

def loopedRun : Submission :=
  ((init looped).advance looped).2.report (.posted 7) none

/-- The end of that run as its tree finds it. -/
def loopedEnd : DurableSubmission :=
  { key := shownKey, review := looped, machine := (loopedRun.advance looped).2 }

def loopedItems : List SubmissionItemProjection :=
  [newItem looped [3, 1, 2] 3 { localId := 3 } 0,
    newItem looped [3, 1, 2] 1 { localId := 1, parent := some (.draft 2) } 0,
    newItem looped [3, 1, 2] 2 { localId := 2, parent := some (.draft 1) } 1]

theorem looped_nearest (fuel : Nat) :
    nearestBlockingAncestor (loopedItems.map (syncItem loopedEnd)) fuel (some (.draft 2)) = none := by
  have hring : ∀ tempId ∈ [1, 2], ∃ item next,
      findConst (loopedItems.map (syncItem loopedEnd)) tempId = some item ∧ item.blocks = false ∧
        item.blockingAncestor = none ∧ item.parent = some (.draft next) ∧ next ∈ [1, 2] := by
    intro tempId hid
    obtain rfl | rfl : tempId = 1 ∨ tempId = 2 := by simpa using hid
    · exact ⟨_, 2, rfl, by decide, by decide, by decide, by decide⟩
    · exact ⟨_, 1, rfl, by decide, by decide, by decide, by decide⟩
  exact nearest_never_ends hring fuel (by decide)

/-- The two Drafts that answer each other are skipped and the run is done, but no `sync` of its tree
ends. -/
theorem looped_sync_never_ends :
    (loopedStore.loadReview shownKey).drafts = looped.drafts ∧
    (init looped).order = [3, 1, 2] ∧
    replay looped (init looped) [⟨.post ⟨3, none, false⟩, .report (.posted 7) none⟩] = some loopedRun ∧
    (loopedRun.advance looped).1 = .done ∧
    ∃ tree, create 3 { key := shownKey, review := looped, machine := init looped } [3, 1, 2] =
      some (.ok tree) ∧ ∀ fuel, tree.sync fuel loopedEnd = none := by
  refine ⟨by decide, by decide, by decide, by decide, ?_⟩
  refine ⟨{ key := shownKey, operationId := 0, items := loopedItems }, by decide, ?_⟩
  intro fuel
  -- The posted item stays as it is; the walk up from the next one goes round.
  unfold sync loopedItems
  rw [map_eq_none_iff, map_cons, rewrite, nameBlocker, if_neg (by decide)]
  exact rewrite_stuck (nameBlocker_stuck (by decide) (looped_nearest fuel))

end SubmissionTree

end Bbr.Tui
