import Bbr.Review.StoreOp

/-!
# What store operations leave alone

A failed operation changes nothing, an edit changes one row, and the Drafts a run owns change only
through the operations of that run.
-/
namespace Bbr.Review

open Bbr.Bitbucket Bbr.Lib

/-- The operation is a checkpoint or an end of the run with this id. -/
def StoreOp.OfRun (operationId : OperationId) : StoreOp → Prop
  | .checkpointSubmission id _ _ _ _ => id = operationId
  | .completeSubmission id _ _ => id = operationId
  | .abandonSubmission id _ => id = operationId
  | _ => False

namespace InMemoryStore

variable {st st' : InMemoryStore} {op : StoreOp} {key : RemoteReviewIdentity} {tempId : TempId}

structure Unarmed (st : InMemoryStore) : Prop where
  edit : st.failNextEdit = false
  reanchor : st.failNextReanchor = false
  delete : st.failNextDelete = false
  checkpoint : st.failNextCheckpoint = false
  completion : st.failNextCompletion = false

theorem spent_of_unarmed (h : st.Unarmed) (op : StoreOp) : st.spent op = st := by
  obtain ⟨hedit, hreanchor, hdelete, hcheckpoint, hcompletion⟩ := h
  cases st
  simp only at hedit hreanchor hdelete hcheckpoint hcompletion
  subst hedit hreanchor hdelete hcheckpoint hcompletion
  cases op <;> rfl

/-- One row goes from `d` to `d'`, and nothing else changes. -/
structure RowChanged (st st' : InMemoryStore) (key : RemoteReviewIdentity) (tempId : TempId)
    (d d' : Draft) : Prop where
  before : st.draftEntry key tempId = some d
  now : st'.draftEntry key tempId = some d'
  others : ∀ key' t, ¬ (key' = key ∧ t = tempId) → st'.draftEntry key' t = st.draftEntry key' t
  rest : { st' with entries := st.entries } = st

theorem setDraft_rowChanged {d : Draft} (f : Draft → Draft) (hf : ∀ d, (f d).localId = d.localId)
    (hd : st.draftEntry key tempId = some d) :
    st.RowChanged (st.setDraft key tempId f hf) key tempId d (f d) where
  before := hd
  now := by rw [draftEntry_setDraft, if_pos ⟨rfl, rfl⟩, hd, Option.map_some]
  others := fun key' t hne => by rw [draftEntry_setDraft, if_neg hne]
  rest := rfl

theorem editDraftBody_rowChanged {edit : DraftBodyEdit}
    (h : st.editDraftBody key edit = (.ok (), st')) :
    ∃ d, st.RowChanged st' key edit.tempId d
      { d with body := edit.body, state := reopened d.state } := by
  obtain ⟨d, hd, -, -, rfl⟩ := editDraftBody_ok h
  exact ⟨d, setDraft_rowChanged _ _ hd⟩

theorem reanchorDraft_rowChanged {reanchor : DraftReanchor}
    (h : st.reanchorDraft key reanchor = (.ok (), st')) :
    ∃ d, d.effectiveScope.isInline = true ∧ st.RowChanged st' key reanchor.tempId d
      { d with
        scope := some (.inline reanchor.anchor)
        anchor := some reanchor.anchor
        snapshot := reanchor.snapshot
        state := reopened d.state } := by
  obtain ⟨d, hd, -, -, hinline, -, rfl⟩ := reanchorDraft_ok h
  exact ⟨d, hinline, setDraft_rowChanged _ _ hd⟩

theorem draftEntry_spent (st : InMemoryStore) (op : StoreOp) :
    (st.spent op).draftEntry = st.draftEntry :=
  draftEntry_mk_entries st (st.spent op) (spent_kept st op).1

variable {key' : RemoteReviewIdentity} {t : TempId}

theorem put_owned {incoming : Draft} {stored : Option Parent}
    (h : st.put key incoming = (.ok stored, st')) (howned : st.ownedByRun key' t = true) :
    st'.draftEntry key' t = st.draftEntry key' t := by
  obtain ⟨hfree, -, rfl⟩ := put_ok h
  refine (draftEntry_putRow st key _ key' t).trans (if_neg ?_)
  rintro ⟨rfl, rfl⟩
  rw [hfree] at howned
  cases howned

/-- An operation of another run, or of none, fails or leaves the Drafts of the active run. -/
theorem apply_owned {run : ActiveSubmissionRun} (hrun : st.activeRun = some run)
    (hop : ¬ op.OfRun run.operationId) (howned : st.ownedByRun key' t = true) :
    (st.apply op).draftEntry key' t = st.draftEntry key' t := by
  have hother : ∀ {operationId key r}, st.Runs operationId key r → operationId = run.operationId := by
    intro operationId key r hr
    have hsame := hr.active
    rw [hrun, Option.some.injEq] at hsame
    rw [hsame]
    exact hr.operationId.symm
  have hdid := st.apply_performed op
  generalize st.apply op = st' at hdid ⊢
  cases hdid with
  | failed => rw [draftEntry_spent]
  | put hok => exact put_owned hok howned
  | edited _ hedited => exact hedited.owned key' t howned
  | begun hbegun =>
    rw [hbegun.idle] at hrun
    cases hrun
  | checkpointed hr _ | completed hr _ _ | abandoned hr _ _ _ => exact absurd (hother hr) hop
  | retried _ => rfl

/-- A failed operation changes nothing, a body edit and a new Anchor change one row in what they
name, and a participant of the active run changes only through the operations of that run. -/
theorem perform_frames (hunarmed : st.Unarmed) (op : StoreOp) :
    (∀ err, (st.perform op).1 = .error err → st.apply op = st) ∧
    (∀ key edit, op = .editDraftBody key edit → (st.perform op).1 = .ok .done →
      ∃ d, st.RowChanged (st.apply op) key edit.tempId d
        { d with body := edit.body, state := reopened d.state }) ∧
    (∀ key reanchor, op = .reanchorDraft key reanchor → (st.perform op).1 = .ok .done →
      ∃ d, d.effectiveScope.isInline = true ∧ st.RowChanged (st.apply op) key reanchor.tempId d
        { d with
          scope := some (.inline reanchor.anchor)
          anchor := some reanchor.anchor
          snapshot := reanchor.snapshot
          state := reopened d.state }) ∧
    (∀ run, st.activeRun = some run → ¬ op.OfRun run.operationId →
      ∀ item ∈ run.items.items, (st.apply op).draftEntry run.key item.tempId =
        st.draftEntry run.key item.tempId) := by
  refine ⟨?_, ?_, ?_, ?_⟩
  · intro err herr
    have hresult : st.perform op = (.error err, st.apply op) := Prod.ext herr rfl
    rw [perform_error hresult, spent_of_unarmed hunarmed]
  · rintro key edit rfl hok
    have hresult : st.perform (.editDraftBody key edit) =
        (.ok .done, st.apply (.editDraftBody key edit)) := Prod.ext hok rfl
    obtain ⟨⟨⟩, hedit, -⟩ := returning_ok.mp hresult
    exact editDraftBody_rowChanged hedit
  · rintro key reanchor rfl hok
    have hresult : st.perform (.reanchorDraft key reanchor) =
        (.ok .done, st.apply (.reanchorDraft key reanchor)) := Prod.ext hok rfl
    obtain ⟨⟨⟩, hreanchor, -⟩ := returning_ok.mp hresult
    exact reanchorDraft_rowChanged hreanchor
  · intro run hrun hop item hitem
    exact apply_owned hrun hop ((ownedByRun_iff hrun run.key item.tempId).mpr
      ⟨rfl, List.mem_map_of_mem hitem⟩)

/-- Two Drafts of one Review, the first of them in a run. -/
def oneRunning : InMemoryStore :=
  ({} : InMemoryStore).after [.put ⟨[], [], 7⟩ { localId := 1 }, .put ⟨[], [], 7⟩ { localId := 2 },
    .beginSubmission ⟨[], [], 7⟩ [] [⟨1, none⟩]]

/-- The second Draft is edited, the participant is not. -/
theorem perform_frames_oneRunning :
    (∃ d, oneRunning.RowChanged
      (oneRunning.apply (.editDraftBody ⟨[], [], 7⟩ ⟨2, .comment, none, [65]⟩)) ⟨[], [], 7⟩ 2 d
      { d with body := [65], state := reopened d.state }) ∧
    (oneRunning.apply (.editDraftBody ⟨[], [], 7⟩ ⟨2, .comment, none, [65]⟩)).draftEntry
      ⟨[], [], 7⟩ 1 = oneRunning.draftEntry ⟨[], [], 7⟩ 1 := by
  have hunarmed : oneRunning.Unarmed := ⟨rfl, rfl, rfl, rfl, rfl⟩
  obtain ⟨-, hedit, -, hrun⟩ := perform_frames hunarmed
    (.editDraftBody ⟨[], [], 7⟩ ⟨2, .comment, none, [65]⟩)
  exact ⟨hedit _ _ rfl (by decide), hrun ⟨1, ⟨[], [], 7⟩, [], some 1, ⟨[⟨1, none⟩], by decide⟩, none⟩
    rfl id ⟨1, none⟩ List.mem_cons_self⟩

end InMemoryStore

end Bbr.Review
