import Bbr.Review.StorePosted
import Bbr.Tui.Interrupted
import Bbr.Tui.Writes

/-!
# One representation at rest

While a review has runs, a posted Draft and its remote Comment both stand for one thing; a clean
completion removes the Draft. It removes the participants of that run only, so the law needs that no run
of the history leaves out a Draft that an earlier one has posted.
-/
namespace Bbr.Tui

open Bbr.Bitbucket Bbr.Review Bbr.Lib Submission Presentation InMemoryStore DurableSubmission Option

variable {s t : Presentation} {st st' : InMemoryStore} {e : Input} {key : RemoteReviewIdentity}
  {run : ActiveSubmissionRun} {tempId : TempId}

/-- The participants of the run that a start would begin. -/
def planned (st : InMemoryStore) (key : RemoteReviewIdentity) (selectedRoot : Option TempId) :
    Option (List TempId) :=
  match DurableSubmission.create st key none selectedRoot with
  | .error _ => none
  | .ok created =>
    match created.advance.1 with
    | .post _ => some (created.advance.2.machine.order.drop created.advance.2.machine.idx)
    | _ => none

/-- The run that begins here leaves out a Draft that is posted already. -/
def LeavesOut (s : Presentation) : Input → Prop
  | .start key _ selectedRoot => s.durable = none ∧ s.reviews.activeRun = none ∧
      ∃ ids ∈ planned s.reviews key selectedRoot, ∃ dr ∈ s.reviews.load key,
        dr.target = .bitbucket ∧ isPosted dr.state = true ∧ dr.localId ∉ ids
  | _ => False

/-- The reviewer resolves a Draft that the run has nothing to do with as posted. -/
def ResolvesOutside (s : Presentation) : Input → Prop
  | .edit (.resolveUnknown key tempId (.posted _)) => ∃ run ∈ s.reviews.activeRun, run.key = key ∧
      tempId ∉ run.items.items.map SubmissionRunItem.tempId ∧
        ∃ dr ∈ s.reviews.draftEntry key tempId, dr.target = .bitbucket ∧ dr.state = .outcomeUnknown
  | _ => False

/-- The input ends the active run, and the run is shown as clean. -/
structure EndsClean (s : Presentation) (e : Input) (run : ActiveSubmissionRun) : Prop where
  active : s.reviews.activeRun = some run
  ended : (s.update e).reviews.activeRun = none
  clean : ∃ result ∈ (s.update e).submissionResult, result.completion = .clean

/-- What a clean completion makes of the store before it. -/
structure AtRest (mid st : InMemoryStore) (key : RemoteReviewIdentity) : Prop where
  removed : NothingElseStored mid key → ∀ dr ∈ st.load key, dr.target = .bitbucket →
    isPosted dr.state = false
  replies : ∀ tempId ds, mid.draftEntry key tempId = some ds → st.draftEntry key tempId = none →
    ∃ id, ds.state = .posted id ∧ ∀ reply dr dr', mid.draftEntry key reply = some dr →
      dr.parent = some (.draft tempId) → st.draftEntry key reply = some dr' →
      dr'.parent = some (.comment id)

theorem begin_store (st : InMemoryStore) (key : RemoteReviewIdentity) (sourceCommit : Bytes)
    (selectedRoot : Option TempId) :
    (begin st key sourceCommit selectedRoot).2 = st ∨ ∃ items operationId run first,
        st.Begun key sourceCommit items operationId run first
          (begin st key sourceCommit selectedRoot).2 ∧
        planned st key selectedRoot = some (items.map SubmissionRunItem.tempId) := by
  unfold begin
  split
  · exact .inl rfl
  rename_i created hcreated
  dsimp only
  split
  · next post hpost =>
    split
    · exact .inl rfl
    split
    · exact .inl rfl
    rename_i items hitems
    split
    · next hw => exact .inl (beginSubmission_error hw)
    rename_i operationId st' hw
    obtain ⟨run, first, hbegun⟩ := beginSubmission_ok hw
    have hids := participants_tempIds hitems
    refine .inr ⟨items, operationId, run, first, ?_, ?_⟩
    · split
      · exact hbegun
      · exact hbegun
    · simp only [planned, hcreated, hpost, hids]
  · exact .inl rfl
  · exact .inl rfl

theorem startSubmissionSelection_store (hd : s.durable = none) (key : RemoteReviewIdentity)
    (sourceCommit : Bytes) (selectedRoot : Option TempId) :
    (s.startSubmissionSelection key sourceCommit selectedRoot).reviews = s.reviews ∨
      (s.startSubmissionSelection key sourceCommit selectedRoot).reviews =
        (begin s.reviews key sourceCommit selectedRoot).2 := by
  simp only [startSubmissionSelection, hd]
  split
  · exact .inl rfl
  right
  split
  · next heq => rw [heq]
  · next heq => rw [heq]
  rename_i heq
  rw [heq]
  dsimp only
  split
  · rfl
  · split
    · rfl
    · rfl

theorem load_of_draftEntry {ds : Draft} (h : st.draftEntry key tempId = some ds) :
    ds ∈ st.load key ∧ ds.localId = tempId := by
  have hget := getConst_loadReview st key tempId
  rw [h] at hget
  rw [← loadReview_drafts]
  exact ⟨findDraft_mem hget, draftEntry_localId h⟩

variable {id : CommentId}

theorem isPosted_of {state : DraftState} (h : state = .posted id) : isPosted state = true := by
  rw [h]
  rfl

theorem together_start (h : s.reviews.Together) (hd : s.durable = none) {sourceCommit : Bytes}
    {selectedRoot : Option TempId} (hleaves : ¬ LeavesOut s (.start key sourceCommit selectedRoot)) :
    (s.startSubmissionSelection key sourceCommit selectedRoot).reviews.Together := by
  rcases startSubmissionSelection_store hd key sourceCommit selectedRoot with heq | heq
  · rw [heq]
    exact h
  rw [heq]
  rcases begin_store s.reviews key sourceCommit selectedRoot with hsame | hbegins
  · rw [hsame]
    exact h
  obtain ⟨items, operationId, run, first, hbegun, hplanned⟩ := hbegins
  refine .begun hbegun ?_
  intro t ds id hds htarget hstate
  refine Decidable.byContradiction (fun hout => hleaves ⟨hd, hbegun.idle, _, hplanned, ?_⟩)
  obtain ⟨hmem, hid⟩ := load_of_draftEntry hds
  exact ⟨ds, hmem, htarget, isPosted_of hstate, by rw [hid]; exact hout⟩

theorem reopened_ne_posted (state : DraftState) (h : state.isPending = true) (id : CommentId) :
    reopened state ≠ .posted id := by
  cases state <;> simp_all [reopened, DraftState.isPending]

/-- An edit in place makes no row posted if its own row does not become so. -/
theorem setDraft_posted {key' : RemoteReviewIdentity} {tempId' : TempId} {f : Draft → Draft}
    {hf : ∀ d, (f d).localId = d.localId} {d ds : Draft}
    (hd : st.draftEntry key' tempId' = some d) (hnot : (f d).state ≠ .posted id)
    (hds : (st.setDraft key' tempId' f hf).draftEntry key tempId = some ds)
    (hstate : ds.state = .posted id) : st.draftEntry key tempId = some ds := by
  rw [draftEntry_setDraft] at hds
  split at hds
  · rw [hd, map_some, some.injEq] at hds
    subst hds
    exact absurd hstate hnot
  · exact hds

theorem edit_posted (st : InMemoryStore) (edit : Edit) {ds : Draft}
    (hds : (edit.apply st).draftEntry key tempId = some ds) (hstate : ds.state = .posted id) :
    st.draftEntry key tempId = some ds ∨ edit = .resolveUnknown key tempId (.posted id) ∧
        ∃ d, st.draftEntry key tempId = some d ∧ d.state = .outcomeUnknown ∧ d.target = ds.target := by
  cases edit with
  | put key' incoming =>
    left
    simp only [Edit.apply] at hds
    rcases hw : st.put key' (incoming.withState .draft) with ⟨err | stored, st'⟩
    · rwa [hw, put_error hw] at hds
    obtain ⟨-, -, rfl⟩ := put_ok hw
    rw [hw] at hds
    dsimp only at hds
    rw [draftEntry_putRow] at hds
    split at hds
    · cases hds
      cases hstate
    · exact hds
  | editDraftBody key' edit =>
    left
    simp only [Edit.apply] at hds
    rcases hw : st.editDraftBody key' edit with ⟨err | ⟨⟩, st'⟩
    · rw [hw, editDraftBody_error hw] at hds
      exact hds
    · obtain ⟨d, hd, hpending, -, rfl⟩ := editDraftBody_ok hw
      rw [hw] at hds
      exact setDraft_posted hd (reopened_ne_posted d.state hpending id) hds hstate
  | reanchorDraft key' reanchor =>
    left
    simp only [Edit.apply] at hds
    rcases hw : st.reanchorDraft key' reanchor with ⟨err | ⟨⟩, st'⟩
    · rw [hw, reanchorDraft_error hw] at hds
      exact hds
    · obtain ⟨d, hd, hpending, -, -, -, rfl⟩ := reanchorDraft_ok hw
      rw [hw] at hds
      exact setDraft_posted hd (reopened_ne_posted d.state hpending id) hds hstate
  | deleteDraftSubtree key' deletion =>
    left
    simp only [Edit.apply] at hds
    rcases hw : st.deleteDraftSubtree key' deletion with ⟨err | ⟨⟩, st'⟩
    · rw [hw, deleteDraftSubtree_error hw] at hds
      exact hds
    rw [hw] at hds
    dsimp only at hds
    rw [(deleteDraftSubtree_ok hw).rows] at hds
    split at hds
    · cases hds
    · exact hds
  | resolveUnknown key' tempId' resolution =>
    simp only [Edit.apply] at hds
    rcases hw : st.resolveUnknown key' tempId' resolution with ⟨err | ⟨⟩, st'⟩
    · rw [hw, resolveUnknown_error hw] at hds
      exact .inl hds
    obtain ⟨d, hd, hunknown, -, rfl⟩ := resolveUnknown_ok hw
    rw [hw] at hds
    dsimp only at hds
    rw [draftEntry_setState] at hds
    split at hds
    · next hown =>
      obtain ⟨rfl, rfl⟩ := hown
      rw [hd, map_some, some.injEq] at hds
      subst hds
      cases resolution with
      | unpublished => cases hstate
      | posted id' =>
        cases hstate
        exact .inr ⟨rfl, d, hd, hunknown, rfl⟩
    · exact .inl hds
  | reserveTempId key' =>
    left
    rwa [draftEntry, Edit.apply, reserveTempId_entries] at hds

theorem together_edit (h : s.reviews.Together) (edit : Edit)
    (houtside : ¬ ResolvesOutside s (.edit edit)) : (edit.apply s.reviews).Together := by
  have hactive : (edit.apply s.reviews).activeRun = s.reviews.activeRun :=
    (edited_apply edit s.reviews).active
  refine h.of_rows (fun run hrun => ⟨run, hactive ▸ hrun, rfl, rfl⟩) ?_
  intro run hrun t ds id hds htarget hstate
  rw [hactive] at hrun
  rcases edit_posted s.reviews edit hds hstate with hsame | hresolves
  · exact .inr hsame
  · obtain ⟨rfl, d, hd, hunknown, hd_target⟩ := hresolves
    refine .inl (Decidable.byContradiction (fun hout => houtside ?_))
    exact ⟨run, hrun, rfl, hout, d, hd, hd_target.trans htarget, hunknown⟩

theorem together_update (hs : s.reviews.Sound) (h : s.reviews.Together) (hleaves : ¬ LeavesOut s e)
    (houtside : ¬ ResolvesOutside s e) : (s.update e).reviews.Together := by
  rcases update_writes s e with ⟨hd, key, sourceCommit, root, rfl⟩ | hfault | ⟨edit, rfl⟩ | hwrites
  · exact together_start h hd hleaves
  · cases e with
    | failNextCheckpoint | failNextCompletion => exact h.congr rfl rfl
    | _ => exact absurd hfault id
  · exact together_edit h edit houtside
  · refine (hwrites.keeps (fun st => st.Sound ∧ st.Together) ?_ ⟨hs, h⟩).2
    rintro st op hop ⟨hsound, htogether⟩
    refine ⟨hsound.apply ?_, htogether.apply hsound hop⟩
    cases op with
    | put key incoming => exact absurd hop id
    | _ => trivial

/-- Without a run in the process only a recovery ends the stored one. -/
theorem ends_recovered (hd : s.durable = none) (hrun : s.reviews.activeRun = some run)
    (hended : (s.update e).reviews.activeRun = none) :
    ∃ notice, e = .recover ∧ s.update e = s.completeRecoveredTerminal notice ∧
      s.armed.update e = s.armed.completeRecoveredTerminal notice := by
  have hsame : (s.update e).reviews ≠ s.reviews := by
    intro heq
    rw [heq, hrun] at hended
    cases hended
  have hdropped : ∀ {α : Type} {answers : Command → Option α} {admitted process} {i : Nat},
      (s.complete i answers admitted process).reviews = s.reviews := by
    intro α answers admitted process i
    unfold Presentation.complete
    rw [hd]
    split
    · rfl
    · rfl
  cases e with
  | start key sourceCommit root =>
    rcases startSubmissionSelection_store hd key sourceCommit root with heq | heq
    · exact absurd heq hsame
    rcases begin_store s.reviews key sourceCommit root with hbegin | hbegin
    · exact absurd (heq.trans hbegin) hsame
    · obtain ⟨items, operationId, run', first, hbegun, -⟩ := hbegin
      rw [hbegun.idle] at hrun
      cases hrun
  | take =>
    refine absurd ?_ hsame
    simp only [update, takeCommand]
    split
    · rfl
    · rfl
  | postCompleted i outcome retryAfterMs | postLaunchFailed i => exact absurd hdropped hsame
  | waitCompleted i | waitLaunchFailed i | recoveryChecked i outcome => exact absurd hdropped hsame
  | duplicateChecked i outcome retryAfterMs => exact absurd hdropped hsame
  | resume =>
    refine absurd ?_ hsame
    simp only [update, resumeDurableSubmission, hd]
  | recover =>
    have hd' : s.armed.durable = none := hd
    simp only [update, recoverSubmission, hd, hd'] at hsame ⊢
    cases hnotice : s.recovery with
    | none =>
      rw [hnotice] at hsame
      exact absurd rfl hsame
    | some notice =>
      have hnotice' : s.armed.recovery = some notice := hnotice
      have hactive : s.reviews.activeSubmission = some run := hrun
      have hactive' : s.armed.reviews.activeSubmission = some run := hrun
      rw [hnotice] at hsame
      rw [hnotice']
      refine ⟨notice, trivial, ?_⟩
      simp only [recoverRun, hactive, hactive'] at hsame ⊢
      split at hsame
      · exact absurd (discoverRecovery_reviews s) hsame
      rename_i hmatches
      rw [if_neg hmatches, if_neg hmatches]
      split at hsame
      · next hover =>
        rw [if_pos hover, if_pos hover]
        exact ⟨rfl, rfl⟩
      · refine absurd ?_ hsame
        split
        · rfl
        · rfl
  | abandon =>
    refine absurd ?_ hsame
    simp only [update, abandonRecoveredSubmission, hd]
  | crash => exact absurd (discoverRecovery_reviews _) hsame
  | failNextCheckpoint | failNextCompletion => exact absurd (hrun.symm.trans hended) (by simp)
  | edit edit =>
    have hkept : (edit.apply s.reviews).activeRun = s.reviews.activeRun :=
      (edited_apply edit s.reviews).active
    exact absurd (hrun.symm.trans (hkept.symm.trans hended)) (by simp)

/-- The completion of a stored run, and the state it is refused in. -/
theorem completeRecoveredTerminal_closes {notice : RecoveryNotice}
    (hrun : s.reviews.activeRun = some run)
    (hended : (s.completeRecoveredTerminal notice).reviews.activeRun = none) :
    ∃ c result, (s.completeRecoveredTerminal notice).submissionResult = some result ∧
      result.completion = c ∧
      (s.armed.completeRecoveredTerminal notice).reviews.completeSubmission notice.operationId
        notice.key c = (.ok (), (s.completeRecoveredTerminal notice).reviews) := by
  simp only [completeRecoveredTerminal] at hended ⊢
  split at hended
  · next hw =>
    rw [completeSubmission_error hw] at hended
    exact absurd (hrun.symm.trans hended) (by simp)
  · next st' hw =>
    refine ⟨_, _, rfl, foldl_countState_completion _ _, ?_⟩
    rw [show s.armed.reviews = s.reviews.armed from rfl, completeSubmission_armed]
    dsimp only
    rw [completeSubmission_unarmed hw]
    exact hw

variable {p : Permits} {g : Memory}

theorem running_active {d : DurableSubmission} (h : Inv p g s) (hd : s.durable = some d) :
    ∃ run, s.reviews.activeRun = some run := by
  obtain ⟨run, hruns, -⟩ := (h.serves d hd).backed.run
  exact ⟨run, hruns.active⟩

theorem abandon_not_clean (hrun : s.reviews.activeRun = some run)
    (hended : (s.update .abandon).reviews.activeRun = none) :
    ∃ result, (s.update .abandon).submissionResult = some result ∧ result.completion ≠ .clean := by
  have hsame : (s.update .abandon).reviews ≠ s.reviews := by
    intro heq
    rw [heq, hrun] at hended
    cases hended
  simp only [update, abandonRecoveredSubmission] at hsame ⊢
  split at hsame
  · exact absurd rfl hsame
  split at hsame
  · exact absurd rfl hsame
  split at hsame
  · exact absurd rfl hsame
  rename_i hrecovered
  split at hsame
  · next hw => exact absurd (abandonSubmission_error hw) hsame
  rename_i hw
  rw [if_neg hrecovered]
  refine ⟨_, rfl, ?_⟩
  rw [persistedResultProjection, stateProjection, foldl_countState_completion]
  simp

/-- The last thing that a run which ends clean writes is its clean completion. -/
theorem closes_clean (hinv : Inv p g (s.update e)) (hends : EndsClean s e run) : ∃ operationId key,
      (lastCheckpoint s e).reviews.completeSubmission operationId key .clean =
        (.ok (), (s.update e).reviews) := by
  obtain ⟨hrun, hended, result, hshown, hclean⟩ := hends
  have hresult : (s.update e).submissionResult = some result := hshown
  have hover : (s.update e).durable = none := by
    cases hd : (s.update e).durable with
    | none => rfl
    | some d =>
      obtain ⟨run', hrun'⟩ := running_active hinv hd
      rw [hended] at hrun'
      cases hrun'
  cases hd : s.durable with
  | some d =>
    have hcrash : e ≠ .crash := by
      rintro rfl
      rw [show (s.update .crash).reviews = s.reviews from discoverRecovery_reviews _, hrun] at hended
      cases hended
    have habandon : ¬ AbandonsAt e := by
      intro ha
      cases e with
      | abandon =>
        obtain ⟨result', hresult', hnot⟩ := abandon_not_clean hrun hended
        rw [hresult, some.injEq] at hresult'
        exact hnot (hresult' ▸ hclean)
      | _ => exact ha
    obtain ⟨d', c, hcloses⟩ := parts_update hd hcrash habandon hover
    obtain ⟨result', hresult', hkind⟩ := hcloses.shown
    rw [hresult, some.injEq] at hresult'
    rw [← hresult', hclean] at hkind
    subst hkind
    exact ⟨d'.operationId, d'.key, hcloses.written⟩
  | none =>
    obtain ⟨notice, rfl, hupdate, harmed⟩ := ends_recovered hd hrun hended
    rw [hupdate] at hended hresult
    obtain ⟨c, result', hresult', hkind, hw⟩ := completeRecoveredTerminal_closes hrun hended
    rw [hresult, some.injEq] at hresult'
    rw [← hresult', hclean] at hkind
    subst hkind
    refine ⟨notice.operationId, notice.key, ?_⟩
    rw [hupdate, show lastCheckpoint s .recover = s.armed.update .recover from rfl, harmed]
    exact hw

theorem update_same_run {run' : ActiveSubmissionRun} (hrun : s.reviews.activeRun = some run)
    (hrun' : (s.update e).reviews.activeRun = some run') : run'.key = run.key := by
  have hsame : (s.update e).reviews.activeRun = s.reviews.activeRun → run'.key = run.key := by
    intro heq
    rw [heq, hrun, some.injEq] at hrun'
    rw [hrun']
  rcases update_writes s e with ⟨hd, key, sourceCommit, root, rfl⟩ | hfault | ⟨edit, rfl⟩ | hwrites
  · rcases startSubmissionSelection_store hd key sourceCommit root with heq | heq
    · exact hsame (congrArg InMemoryStore.activeRun heq)
    rcases begin_store s.reviews key sourceCommit root with hbegin | hbegin
    · exact hsame (congrArg InMemoryStore.activeRun (heq.trans hbegin))
    · obtain ⟨items, operationId, run₁, first, hbegun, -⟩ := hbegin
      rw [hbegun.idle] at hrun
      cases hrun
  · cases e with
    | failNextCheckpoint | failNextCompletion => exact hsame rfl
    | _ => cases hfault
  · exact hsame (edited_apply edit s.reviews).active
  · refine hwrites.keeps (fun st => ∀ r, st.activeRun = some r → r.key = run.key) ?_ ?_ run' hrun'
    · intro st op hop hkept r hr
      obtain ⟨r₀, hr₀, hkey, -⟩ := apply_same_run hop hr
      exact hkey.symm.trans (hkept r₀ hr₀)
    · intro r hr
      rw [hrun, some.injEq] at hr
      rw [hr]

/-- Nothing is left outside the runs of this step. -/
def KeepsTogether (s : Presentation) (e : Input) (t : Presentation) : Prop :=
  Steps s e t ∧ ¬ LeavesOut s e ∧ ¬ ResolvesOutside s e

theorem together_of_history {requireSourceCheck : Bool} {es : List Input} (hst : Idle st)
    (h : Run KeepsTogether (boot st requireSourceCheck) es s) :
    Inv anything blank s ∧ s.reviews.Together := by
  refine h.invariant (fun s => Inv anything blank s ∧ s.reviews.Together) ?_ ?_
  · rintro s e t ⟨rfl, hleaves, houtside⟩ ⟨hinv, htogether⟩
    exact ⟨hinv.update (allows_anything s e) (recalls_blank s e),
      together_update hinv.stored.sound htogether hleaves houtside⟩
  · refine ⟨boot_inv (hst.stored (.inl trivial)), ?_⟩
    rw [show (boot st requireSourceCheck).reviews = st from discoverRecovery_reviews _]
    exact .of_idle hst.inactive

theorem draftEntry_of_load {dr : Draft} (h : dr ∈ st.load key) :
    st.draftEntry key dr.localId = some dr := by
  obtain ⟨e, he, rfl⟩ := List.mem_map.mp h
  obtain ⟨hmem, hkey⟩ := List.mem_filter.mp he
  have hid : e.id = (key, e.draft.localId) := Prod.ext (of_decide_eq_true hkey) rfl
  rw [draftEntry, ← hid, Keyed.lookup_of_mem hmem, map_some]

/-- The completion of a run that has every posted Draft of its review among its participants. -/
theorem AtRest.of_clean {mid : InMemoryStore} {operationId : OperationId} (h : mid.Together)
    (hw : mid.completeSubmission operationId key .clean = (.ok (), st)) : AtRest mid st key := by
  obtain ⟨run, hrun, -, hc⟩ := completeSubmission_ok hw
  refine ⟨?_, fun tempId ds hds hgone => removed_clean hc hds hgone⟩
  intro _ dr hdr htarget
  have hnot : ∀ id, dr.state ≠ .posted id := fun _ => h.clean hrun hc (draftEntry_of_load hdr) htarget
  cases hstate : dr.state with
  | posted id => exact absurd hstate (hnot id)
  | _ => rfl

/-- In every history whose runs leave nothing posted out, for every input that ends a run clean. -/
theorem at_rest (st : InMemoryStore) (requireSourceCheck : Bool) (es : List Input)
    (s : Presentation) (e : Input) (run : ActiveSubmissionRun) (hst : Idle st)
    (h : Run KeepsTogether (boot st requireSourceCheck) es s) (hends : EndsClean s e run) :
    AtRest (lastCheckpoint s e).reviews (s.update e).reviews run.key := by
  obtain ⟨hinv, htogether⟩ := together_of_history hst h
  have hinv' : Inv anything blank (s.update e) :=
    hinv.update (allows_anything s e) (recalls_blank s e)
  obtain ⟨operationId, key, hw⟩ := closes_clean hinv' hends
  have hmid : (lastCheckpoint s e).reviews.Together := by
    have harmed : s.armed.reviews.Together := htogether.congr rfl rfl
    have hsound : s.armed.reviews.Sound := hinv.stored.sound.congr rfl rfl (.inl rfl)
    refine together_update (s := s.armed) hsound harmed ?_ ?_
    · intro hleaves
      cases e with
      | start key sourceCommit root => exact absurd (hends.active.symm.trans hleaves.2.1) (by simp)
      | _ => cases hleaves
    · intro houtside
      cases e with
      | edit edit =>
        have hkept : (edit.apply s.reviews).activeRun = s.reviews.activeRun :=
          (edited_apply edit s.reviews).active
        exact absurd (hends.active.symm.trans (hkept.symm.trans hends.ended)) (by simp)
      | _ => cases houtside
  obtain ⟨run', hrun', -⟩ := completeSubmission_ok hw
  have hkey : run'.key = run.key := update_same_run (s := s.armed) hends.active hrun'.active
  rw [← hkey, hrun'.key]
  exact .of_clean hmid hw

/-- A Reply written while the run is out stays, under the Comment of the Draft that goes. -/
theorem at_rest_reply :
    AtRest (lastCheckpoint (replay (boot (holding ⟨[], [], 1⟩ [{ localId := 1 }]) false)
        [.start ⟨[], [], 1⟩ [] none, .edit (.put ⟨[], [], 1⟩
          { localId := 2, target := .localOnly, parent := some (.draft 1) }), .take])
        (.postCompleted 0 (.posted 7) none)).reviews
      (replay (boot (holding ⟨[], [], 1⟩ [{ localId := 1 }]) false)
        [.start ⟨[], [], 1⟩ [] none, .edit (.put ⟨[], [], 1⟩
          { localId := 2, target := .localOnly, parent := some (.draft 1) }), .take,
          .postCompleted 0 (.posted 7) none]).reviews ⟨[], [], 1⟩ := by
  have hopen : ∀ dr ∈ (holding ⟨[], [], 1⟩ [{ localId := 1 }]).load ⟨[], [], 1⟩,
      isPosted dr.state = false := by decide
  refine at_rest (holding ⟨[], [], 1⟩ [{ localId := 1 }]) false [.start ⟨[], [], 1⟩ [] none,
      .edit (.put ⟨[], [], 1⟩ { localId := 2, target := .localOnly, parent := some (.draft 1) }),
      .take] _ (.postCompleted 0 (.posted 7) none) _ (Idle.of_rows rfl (by decide))
    (.cons ⟨rfl, ?_, id⟩ (.cons ⟨rfl, id, id⟩ (.cons ⟨rfl, id, id⟩ (.nil _))))
    ⟨rfl, by decide, by decide⟩
  rintro ⟨-, -, ids, -, dr, hdr, -, hposted, -⟩
  rw [hopen dr hdr] at hposted
  cases hposted

/-- Draft 2 is refused in the first run and posted in the second, which leaves out Draft 1. -/
theorem earlier_draft_stays_posted : ¬ ∀ (st : InMemoryStore) (requireSourceCheck : Bool)
    (es : List Input) (s : Presentation) (e : Input) (run : ActiveSubmissionRun), Idle st →
    Run Steps (boot st requireSourceCheck) es s → EndsClean s e run →
    AtRest (lastCheckpoint s e).reviews (s.update e).reviews run.key := by
  intro hclaim
  have hrest := hclaim twoDrafts false [.start ⟨[], [], 1⟩ [] none, .take,
    .postCompleted 0 (.posted 7) none, .take, .postCompleted 0 (.rejected .badRequest) none,
    .start ⟨[], [], 1⟩ [] none, .take] _ (.postCompleted 0 (.posted 8) none) _
    (Idle.of_rows rfl (by decide))
    (.cons rfl (.cons rfl (.cons rfl (.cons rfl (.cons rfl (.cons rfl (.cons rfl (.nil _))))))))
    ⟨rfl, by decide, by decide⟩
  exact absurd (hrest.removed (by decide)) (by decide)

end Bbr.Tui
