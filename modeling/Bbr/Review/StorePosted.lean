import Bbr.Review.StoreRuns
import Bbr.Review.StoreTempIds

/-!
# Posted Drafts and the run

A clean completion removes the posted participants of the run and nothing else. It leaves no posted Draft
of the review behind when every one was a participant, which the writes of the run keep: a row becomes
posted as the outcome of the participant in flight.
-/
namespace Bbr.Review

open Bbr.Bitbucket Bbr.Lib Option

namespace InMemoryStore

variable {st st' : InMemoryStore} {op : StoreOp} {key : RemoteReviewIdentity} {t : TempId}
  {run : ActiveSubmissionRun} {operationId : OperationId}

/-- Every Draft of the run's review that is posted on the remote is a participant of the run. -/
def Together (st : InMemoryStore) : Prop :=
  ∀ run, st.activeRun = some run → ∀ t ds id, st.draftEntry run.key t = some ds →
    ds.target = .bitbucket → ds.state = .posted id →
    t ∈ run.items.items.map SubmissionRunItem.tempId

theorem Together.of_idle (h : st.activeRun = none) : st.Together := by
  intro run hrun
  rw [h] at hrun
  cases hrun

/-- It is enough that the run keeps its participants and that no other row becomes posted. -/
theorem Together.of_rows (h : st.Together)
    (hactive : ∀ run', st'.activeRun = some run' → ∃ run, st.activeRun = some run ∧
      run.key = run'.key ∧ run.items = run'.items)
    (hrows : ∀ run, st'.activeRun = some run → ∀ t ds id, st'.draftEntry run.key t = some ds →
      ds.target = .bitbucket → ds.state = .posted id →
      t ∈ run.items.items.map SubmissionRunItem.tempId ∨ st.draftEntry run.key t = some ds) :
    st'.Together := by
  intro run hrun t ds id hds htarget hstate
  rcases hrows run hrun t ds id hds htarget hstate with hmem | hbefore
  · exact hmem
  obtain ⟨run₀, hrun₀, hkey, hitems⟩ := hactive run hrun
  rw [← hitems]
  rw [← hkey] at hbefore
  exact h run₀ hrun₀ t ds id hbefore htarget hstate

theorem Together.congr (h : st.Together) (hrows : st'.draftEntry = st.draftEntry)
    (hactive : st'.activeRun = st.activeRun) : st'.Together := by
  refine h.of_rows (fun run hrun => ⟨run, hactive ▸ hrun, rfl, rfl⟩) ?_
  intro run _ t ds id hds _ _
  rw [hrows] at hds
  exact .inr hds

theorem Together.begun {sourceCommit : Bytes} {items : List SubmissionRunItem} {first : TempId}
    (h : st.Begun key sourceCommit items operationId run first st')
    (hposted : ∀ t ds id, st.draftEntry key t = some ds → ds.target = .bitbucket →
      ds.state = .posted id → t ∈ items.map SubmissionRunItem.tempId) : st'.Together := by
  intro run' hrun' t ds id hds htarget hstate
  rw [h.active, some.injEq] at hrun'
  subst hrun'
  rw [h.of_key, h.rows] at hds
  rw [h.frozen]
  split at hds
  · obtain ⟨d, -, rfl⟩ := map_eq_some_iff.mp hds
    cases hstate
  · exact hposted t ds id hds htarget hstate

variable {ds : Draft} {id : CommentId}

/-- Only the outcome of the participant in flight makes a row posted while the run goes on. -/
theorem apply_posted (hs : st.Sound) (hop : op.OfDriver) (hrun : (st.apply op).activeRun = some run)
    (hds : (st.apply op).draftEntry run.key t = some ds) (hstate : ds.state = .posted id) :
    t ∈ run.items.items.map SubmissionRunItem.tempId ∨ st.draftEntry run.key t = some ds := by
  have hdid := st.apply_performed op
  generalize st.apply op = st' at hdid hrun hds
  cases hdid with
  | failed =>
    rw [draftEntry_mk_entries st _ (spent_kept st op).1] at hds
    exact .inr hds
  | @checkpointed _ _ completed _ _ run₀ _ hrun₀ hcheck =>
    rw [hcheck.active, some.injEq] at hrun
    subst hrun
    rw [hcheck.rows] at hds
    split at hds
    · next hown =>
      rw [hown.2]
      exact .inl (hs.current run₀ completed hrun₀.active hcheck.current).1
    · split at hds
      · obtain ⟨d, -, rfl⟩ := map_eq_some_iff.mp hds
        cases hstate
      · exact .inr hds
  | retried _ => exact .inr hds
  | completed _ hdone _ | abandoned _ hdone _ _ => rw [hdone.idle] at hrun; cases hrun
  | edited honly _ => cases op <;> first | exact False.elim hop | exact False.elim honly
  | put _ | begun _ => cases hop

theorem Together.apply (h : st.Together) (hs : st.Sound) (hop : op.OfDriver) :
    (st.apply op).Together := by
  refine h.of_rows (fun run' hrun' => apply_same_run hop hrun') ?_
  intro run hrun t ds id hds _ hstate
  exact apply_posted hs hop hrun hds hstate

variable {e : Entry}

theorem mem_removals_of (he : e ∈ st.entries.rows) (hkey : e.key = run.key)
    (hmem : e.draft.localId ∈ run.items.items.map SubmissionRunItem.tempId)
    (hstate : e.draft.state = .posted id) :
    (⟨e.key, e.draft.localId, id⟩ : PostedDraft) ∈ removals run st.entries.rows := by
  have hremoved : isRemoved run e = some id := by
    rw [isRemoved, if_pos ⟨hkey, submissionItemIndex_isSome.mpr hmem⟩, hstate]
  rw [removals, List.mem_filterMap]
  exact ⟨e, he, by rw [hremoved, map_some]⟩

theorem Together.clean (h : st.Together) (hrun : st.Runs operationId key run)
    (hc : st.CompletesAs key run st' .clean) {ds : Draft} {id : CommentId}
    (hds : st'.draftEntry key t = some ds) (htarget : ds.target = .bitbucket) :
    ds.state ≠ .posted id := by
  intro hstate
  rw [draftEntry, hc.2.2, lookup_foldl_removePosted] at hds
  split at hds
  · cases hds
  rename_i hkept
  simp only [map_map, map_eq_some_iff] at hds
  obtain ⟨e, hlookup, rfl⟩ := hds
  rw [Function.comp_apply, remapAll_target] at htarget
  rw [Function.comp_apply, remapAll_state] at hstate
  obtain ⟨hk, ht⟩ := Prod.mk.inj (show e.id = (key, t) from Keyed.lookup_key hlookup)
  have hentry : st.draftEntry run.key t = some e.draft := by
    rw [draftEntry, hrun.key, hlookup, map_some]
  have hmem := h run hrun.active t e.draft id hentry htarget hstate
  refine hkept (List.mem_map.mpr ⟨_, mem_removals_of (Keyed.lookup_mem hlookup)
    (hk.trans hrun.key.symm) (ht ▸ hmem) hstate, ?_⟩)
  rw [← hk, ← ht]

variable {removed : List PostedDraft}

theorem remapAll_comment (h : e.draft.parent = some (.comment id)) :
    (remapAll removed e).draft.parent = some (.comment id) := by
  induction removed generalizing e with
  | nil => exact h
  | cons r rest ih =>
    have hother : remapReply r.key r.tempId r.commentId e = e := by
      rw [remapReply, if_neg]
      rintro ⟨-, hreply⟩
      rw [h] at hreply
      cases hreply
    rw [show remapAll (r :: rest) e = remapAll rest (remapReply r.key r.tempId r.commentId e)
      from rfl, hother]
    exact ih h

/-- A Reply to a removed Draft ends at the Comment that the Draft became. -/
theorem remapAll_reply (hparent : e.draft.parent = some (.draft t))
    (hmem : ∃ r ∈ removed, r.key = e.key ∧ r.tempId = t)
    (hid : ∀ r ∈ removed, r.key = e.key → r.tempId = t → r.commentId = id) :
    (remapAll removed e).draft.parent = some (.comment id) := by
  induction removed generalizing e with
  | nil =>
    obtain ⟨r, hr, -⟩ := hmem
    cases hr
  | cons r rest ih =>
    by_cases hown : r.key = e.key ∧ r.tempId = t
    · have hremap : remapReply r.key r.tempId r.commentId e =
          { e with draft := { e.draft with parent := some (.comment r.commentId) } } := by
        rw [remapReply, if_pos ⟨hown.1.symm, by rw [hparent, hown.2]⟩]
      have hend : (remapAll (r :: rest) e).draft.parent = some (.comment r.commentId) := by
        rw [show remapAll (r :: rest) e = remapAll rest (remapReply r.key r.tempId r.commentId e)
          from rfl, hremap]
        exact remapAll_comment rfl
      rw [hend, hid r List.mem_cons_self hown.1 hown.2]
    · have hremap : remapReply r.key r.tempId r.commentId e = e := by
        rw [remapReply, if_neg]
        rintro ⟨hk, hp⟩
        rw [hparent] at hp
        cases hp
        exact hown ⟨hk.symm, rfl⟩
      rw [show remapAll (r :: rest) e = remapAll rest (remapReply r.key r.tempId r.commentId e)
        from rfl, hremap]
      refine ih hparent ?_ (fun r' hr' => hid r' (List.mem_cons_of_mem _ hr'))
      obtain ⟨r', hr', hk, ht⟩ := hmem
      rcases List.mem_cons.mp hr' with rfl | hr'
      · exact absurd ⟨hk, ht⟩ hown
      · exact ⟨r', hr', hk, ht⟩

/-- A row that a clean completion removes was posted, and the Replies to it hang under its Comment. -/
theorem removed_clean (hc : st.CompletesAs key run st' .clean)
    (hds : st.draftEntry key t = some ds) (hgone : st'.draftEntry key t = none) :
    ∃ id, ds.state = .posted id ∧ ∀ reply dr dr', st.draftEntry key reply = some dr →
      dr.parent = some (.draft t) → st'.draftEntry key reply = some dr' →
      dr'.parent = some (.comment id) := by
  obtain ⟨e, hlookup, rfl⟩ := map_eq_some_iff.mp hds
  have hrow : (key, t) ∈ (removals run st.entries.rows).map (fun r => (r.key, r.tempId)) := by
    rw [draftEntry, hc.2.2, lookup_foldl_removePosted] at hgone
    split at hgone
    · next hin => exact hin
    · rw [hlookup] at hgone
      cases hgone
  obtain ⟨r, hr, heq⟩ := List.mem_map.mp hrow
  obtain ⟨hrk, hrt⟩ := Prod.mk.inj heq
  -- Rows have distinct ids, so every removal of this id carries the same Comment.
  have hall : ∀ r' ∈ removals run st.entries.rows, r'.key = key → r'.tempId = t →
      e.draft.state = .posted r'.commentId := by
    intro r' hr' hk' ht'
    obtain ⟨-, e', he', hid', hstate'⟩ := mem_removals hr'
    have hlookup' : st.entries.lookup (key, t) = some e' := by
      rw [← hk', ← ht', ← hid']
      exact Keyed.lookup_of_mem he'
    rw [hlookup, some.injEq] at hlookup'
    rw [hlookup']
    exact hstate'
  have hstate := hall r hr hrk hrt
  refine ⟨r.commentId, hstate, ?_⟩
  intro reply dr dr' hdr hparent hdr'
  obtain ⟨er, hreply, rfl⟩ := map_eq_some_iff.mp hdr
  obtain ⟨hkr, -⟩ := Prod.mk.inj (show er.id = (key, reply) from Keyed.lookup_key hreply)
  rw [draftEntry, hc.2.2, lookup_foldl_removePosted, hreply] at hdr'
  split at hdr'
  · cases hdr'
  simp only [map_some, some.injEq] at hdr'
  subst hdr'
  refine remapAll_reply hparent ⟨r, hr, hrk.trans hkr.symm, hrt⟩ ?_
  intro r' hr' hk' ht'
  have hsame := hall r' hr' (hk'.trans hkr) ht'
  rw [hstate] at hsame
  exact (DraftState.posted.inj hsame).symm

end InMemoryStore

end Bbr.Review
