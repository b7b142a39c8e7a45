import Bbr.Review.Store
import Bbr.Review.SubmissionStep

/-!
# What one store operation can do

One inversion lemma for each operation of a Submission run: a failed one leaves the store as it was,
with its fault spent, and a successful one is described by its effect on the active run and on single
rows. A reviewer's edits are described together, by what they leave alone. `Sound` is the invariant:
the active run and the Draft it is posting fit each other.
-/
namespace Bbr.Review

open Bbr.Bitbucket Bbr.Lib List Keyed

namespace InMemoryStore

@[simp] theorem draftEntry_mk_entries (st st' : InMemoryStore) (h : st'.entries = st.entries) :
    st'.draftEntry = st.draftEntry := by
  funext key tempId
  simp only [draftEntry, h]

variable {st : InMemoryStore} {key : RemoteReviewIdentity} {tempId : TempId} {d : Draft}

section

variable (st key)

theorem draftEntry_setDraft (tempId : TempId) (f : Draft → Draft)
    (hf : ∀ d, (f d).localId = d.localId) (key' : RemoteReviewIdentity) (tempId' : TempId) :
    (st.setDraft key tempId f hf).draftEntry key' tempId' =
      if key' = key ∧ tempId' = tempId then (st.draftEntry key tempId).map f
      else st.draftEntry key' tempId' := by
  rw [draftEntry, setDraft, lookup_modify]
  by_cases h : (key', tempId') = (key, tempId)
  · rw [if_pos h, if_pos (Prod.mk.inj h), draftEntry, Option.map_map, Option.map_map]
    rfl
  · rw [if_neg h, if_neg (fun hand => h (Prod.ext hand.1 hand.2)), draftEntry]

@[simp] theorem draftEntry_setState (tempId : TempId) (state : DraftState)
    (key' : RemoteReviewIdentity) (tempId' : TempId) :
    (st.setState key tempId state).draftEntry key' tempId' =
      if key' = key ∧ tempId' = tempId then
        (st.draftEntry key tempId).map (fun d => d.withState state)
      else st.draftEntry key' tempId' :=
  draftEntry_setDraft st key tempId _ _ key' tempId'

theorem foldl_addExisting_drafts (drafts : List Draft) (review : PendingReview) :
    (drafts.foldl addExisting review).drafts = review.drafts ++ drafts := by
  induction drafts generalizing review with
  | nil => simp
  | cons d rest ih => simp [ih, addExisting]

@[simp] theorem loadReview_drafts : (st.loadReview key).drafts = st.load key := by
  simp [loadReview, foldl_addExisting_drafts]

theorem findDraft_rows (rows : List Entry) (key : RemoteReviewIdentity) (tempId : TempId) :
    findDraft ((rows.filter (fun e => decide (e.key = key))).map Entry.draft) tempId =
      (rows.find? (fun e => decide (e.id = (key, tempId)))).map Entry.draft := by
  induction rows with
  | nil => rfl
  | cons e rest ih =>
    by_cases hk : e.key = key
    · by_cases ht : e.draft.localId = tempId
      · simp [findDraft, Entry.id]
      · have hid : e.id ≠ (key, tempId) := fun h => ht (congrArg Prod.snd h)
        simpa [findDraft, hk, ht, hid] using ih
    · have hid : e.id ≠ (key, tempId) := fun h => hk (congrArg Prod.fst h)
      simpa [hk, hid] using ih

@[simp] theorem getConst_loadReview (tempId : TempId) :
    (st.loadReview key).getConst tempId = st.draftEntry key tempId := by
  rw [PendingReview.getConst, loadReview_drafts]
  exact findDraft_rows st.entries.rows key tempId

theorem loadReview_distinct : (st.loadReview key).DistinctTempIds := by
  have hnodup := st.entries.distinct
  rw [PendingReview.DistinctTempIds, loadReview_drafts, load, map_map]
  have hinj : ∀ a ∈ st.entries.rows.filter (fun e => decide (e.key = key)),
      ∀ b ∈ st.entries.rows.filter (fun e => decide (e.key = key)),
      (Draft.localId ∘ Entry.draft) a = (Draft.localId ∘ Entry.draft) b → a = b := by
    intro a ha b hb hab
    have hka : a.key = key := by simpa using (mem_filter.mp ha).2
    have hkb : b.key = key := by simpa using (mem_filter.mp hb).2
    refine inj_on_of_nodup_map hnodup (mem_of_mem_filter ha) (mem_of_mem_filter hb) ?_
    simp only [Entry.id, hka, hkb, Prod.mk.injEq, true_and]
    exact hab
  exact (hnodup.of_map _).filter _ |>.map_on hinj

end

theorem draftEntry_localId (h : st.draftEntry key tempId = some d) : d.localId = tempId := by
  obtain ⟨e, he, rfl⟩ := Option.map_eq_some_iff.mp h
  have := lookup_key he
  exact congrArg Prod.snd this

variable {items : List SubmissionRunItem}

theorem submissionItemIndex_isSome :
    (submissionItemIndex items tempId).isSome ↔ tempId ∈ items.map SubmissionRunItem.tempId := by
  simp [submissionItemIndex]

variable {run : ActiveSubmissionRun}

theorem ownedByRun_iff (h : st.activeRun = some run) (key : RemoteReviewIdentity) (tempId : TempId) :
    st.ownedByRun key tempId = true ↔
      run.key = key ∧ tempId ∈ run.items.items.map SubmissionRunItem.tempId := by
  rw [ownedByRun, h]
  simp only [Bool.and_eq_true, decide_eq_true_eq]
  exact and_congr_right fun _ => submissionItemIndex_isSome

/-- What a failed checkpoint leaves: its fault, if there was one, is spent. -/
def spentCheckpoint (st : InMemoryStore) : InMemoryStore := { st with failNextCheckpoint := false }

def spentCompletion (st : InMemoryStore) : InMemoryStore := { st with failNextCompletion := false }

def spentEdit (st : InMemoryStore) : InMemoryStore := { st with failNextEdit := false }

def spentReanchor (st : InMemoryStore) : InMemoryStore := { st with failNextReanchor := false }

def spentDelete (st : InMemoryStore) : InMemoryStore := { st with failNextDelete := false }

theorem spentCheckpoint_of_unarmed (h : st.failNextCheckpoint = false) : st.spentCheckpoint = st := by
  cases st
  simp only at h
  subst h
  rfl

theorem spentCompletion_of_unarmed (h : st.failNextCompletion = false) : st.spentCompletion = st := by
  cases st
  simp only at h
  subst h
  rfl

variable {st st' : InMemoryStore} {operationId : OperationId} {key : RemoteReviewIdentity}
  {tempId : TempId} {err : StoreError}

variable {checkpoint : SubmissionRetryCheckpoint}

theorem checkpointSubmissionRetry_error
    (h : st.checkpointSubmissionRetry operationId key tempId checkpoint = (.error err, st')) :
    st' = st.spentCheckpoint := by
  unfold checkpointSubmissionRetry at h
  split at h
  · cases h; rfl
  rename_i harm
  rw [spentCheckpoint_of_unarmed (by simpa using harm)]
  repeat' split at h
  all_goals cases h
  all_goals rfl

variable {next : Option TempId} {outcome : SubmissionOutcome}

theorem checkpointSubmission_error
    (h : st.checkpointSubmission operationId key tempId outcome next = (.error err, st')) :
    st' = st.spentCheckpoint := by
  unfold checkpointSubmission at h
  split at h
  · cases h; rfl
  rename_i harm
  rw [spentCheckpoint_of_unarmed (by simpa using harm)]
  repeat' split at h
  all_goals cases h
  all_goals rfl

variable {completion : SubmissionCompletion}

theorem completeSubmission_error
    (h : st.completeSubmission operationId key completion = (.error err, st')) :
    st' = st.spentCompletion := by
  unfold completeSubmission at h
  split at h
  · cases h; rfl
  rename_i harm
  rw [spentCompletion_of_unarmed (by simpa using harm)]
  repeat' split at h
  all_goals cases h
  all_goals rfl

theorem abandonSubmission_error (h : st.abandonSubmission operationId key = (.error err, st')) :
    st' = st := by
  unfold abandonSubmission at h
  repeat' split at h
  all_goals cases h
  all_goals rfl

variable {sourceCommit : Bytes}

theorem beginSubmission_error
    (h : st.beginSubmission key sourceCommit items = (.error err, st')) : st' = st := by
  unfold beginSubmission at h
  repeat' split at h
  all_goals cases h
  all_goals rfl

/-! ## Successful writes -/

/-- The run that an operation names. -/
structure Runs (st : InMemoryStore) (operationId : OperationId) (key : RemoteReviewIdentity)
    (run : ActiveSubmissionRun) : Prop where
  active : st.activeRun = some run
  operationId : run.operationId = operationId
  key : run.key = key

theorem checkpointSubmissionRetry_ok
    (h : st.checkpointSubmissionRetry operationId key tempId checkpoint = (.ok (), st')) :
    ∃ run, st.Runs operationId key run ∧ run.currentTempId = some tempId ∧
      st' = { st with activeRun := some { run with retry := some checkpoint } } := by
  unfold checkpointSubmissionRetry at h
  split at h
  · cases h
  split at h
  · cases h
  rename_i run hrun
  split at h
  · cases h
  rename_i hids
  simp only [ne_eq, not_or, Decidable.not_not] at hids
  split at h <;> cases h
  exact ⟨run, ⟨hrun, hids.1, hids.2.1⟩, hids.2.2, rfl⟩

/-- A checkpoint moves the run from one participant to a later one, or to its end. -/
structure Checkpointed (st : InMemoryStore) (key : RemoteReviewIdentity) (run : ActiveSubmissionRun)
    (completed : TempId) (outcome : SubmissionOutcome) (next : Option TempId)
    (st' : InMemoryStore) : Prop where
  current : run.currentTempId = some completed
  submitting : ∃ d, st.draftEntry key completed = some d ∧ d.state = .submitting
  next_ne : next ≠ some completed
  next_after : ∀ n, next = some n → comesAfter run.items.items completed n = true
  next_pending : ∀ n, next = some n → ∃ d, st.draftEntry key n = some d ∧
    d.target = .bitbucket ∧ d.state.isPending = true
  active : st'.activeRun = some { run with currentTempId := next, retry := none }
  rows : ∀ key' t, st'.draftEntry key' t =
    if key' = key ∧ t = completed then
      (st.draftEntry key completed).map (fun d => d.withState outcome.draftState)
    else if key' = key ∧ some t = next then
      (st.draftEntry key t).map (fun d => d.withState .submitting)
    else st.draftEntry key' t
  operations : st'.nextOperationId = st.nextOperationId
  faults : st'.failNextCheckpoint = st.failNextCheckpoint ∧
    st'.failNextCompletion = st.failNextCompletion

theorem checkpointSubmission_ok
    (h : st.checkpointSubmission operationId key tempId outcome next = (.ok (), st')) :
    ∃ run, st.Runs operationId key run ∧ st.Checkpointed key run tempId outcome next st' := by
  unfold checkpointSubmission at h
  split at h
  · cases h
  split at h
  · cases h
  rename_i run hrun
  split at h
  · cases h
  rename_i hids
  simp only [ne_eq, not_or, Decidable.not_not] at hids
  split at h
  · cases h
  rename_i hne
  split at h
  · cases h
  rename_i hafter
  split at h
  · cases h
  rename_i completed hcompleted
  split at h
  · cases h
  rename_i hsub
  have hsub' : completed.state = .submitting := by simpa using hsub
  refine ⟨run, ⟨hrun, hids.1, hids.2.1⟩, ?_⟩
  split at h
  · cases h
    refine ⟨hids.2.2, ⟨completed, hcompleted, hsub'⟩, by simp, by simp, by simp, rfl, ?_, rfl, rfl, rfl⟩
    intro key' t
    refine (draftEntry_setState st key tempId outcome.draftState key' t).trans ?_
    simp
  · next next =>
    split at h
    · cases h
    rename_i d hd
    split at h
    · next hpending =>
      cases h
      refine ⟨hids.2.2, ⟨completed, hcompleted, hsub'⟩, hne, ?_, ?_, rfl, ?_, rfl,
        rfl, rfl⟩
      · rintro n ⟨⟩
        simpa using hafter
      · rintro n ⟨⟩
        exact ⟨d, hd, hpending⟩
      intro key' t
      refine (draftEntry_setState (st.setState key tempId outcome.draftState) key
        next .submitting key' t).trans ?_
      have hnt : next ≠ tempId := fun he => hne (congrArg some he)
      simp only [draftEntry_setState, Option.some.injEq, hnt, and_false, if_false]
      by_cases ht : key' = key ∧ t = next
      · obtain ⟨rfl, rfl⟩ := ht
        simp [hnt]
      · simp [ht]
    · cases h

/-- A run begins with its first participant, which was pending and is now submitting. -/
structure Begun (st : InMemoryStore) (key : RemoteReviewIdentity) (sourceCommit : Bytes)
    (items : List SubmissionRunItem) (operationId : OperationId) (run : ActiveSubmissionRun)
    (first : TempId) (st' : InMemoryStore) : Prop where
  idle : st.activeRun = none
  fresh : operationId = st.nextOperationId ∧ run.operationId = operationId
  of_key : run.key = key
  of_source : run.sourceCommit = sourceCommit
  frozen : run.items.items = items
  head : ∃ item, items.head? = some item ∧ item.tempId = first
  current : run.currentTempId = some first
  retry : run.retry = st.carriedRetry key first
  pending : ∃ d, st.draftEntry key first = some d ∧ d.state.isPending = true
  participants : ∀ item ∈ items, ∃ d, st.draftEntry key item.tempId = some d ∧
    d.target = .bitbucket ∧ d.parent = item.parent
  active : st'.activeRun = some run
  rows : ∀ key' t, st'.draftEntry key' t =
    if key' = key ∧ t = first then
      (st.draftEntry key first).map (fun d => d.withState .submitting)
    else st.draftEntry key' t
  operations : st'.nextOperationId = st.nextOperationId + 1
  faults : st'.failNextCheckpoint = st.failNextCheckpoint ∧
    st'.failNextCompletion = st.failNextCompletion

theorem itemRefusal_none {prior : List TempId} (h : st.itemRefusal key prior items = none) :
    ∀ item ∈ items, ∃ d, st.draftEntry key item.tempId = some d ∧
      d.target = .bitbucket ∧ d.parent = item.parent := by
  induction items generalizing prior with
  | nil => simp
  | cons item rest ih =>
    unfold itemRefusal at h
    split at h
    · cases h
    rename_i d hd
    split at h
    · cases h
    rename_i htarget
    split at h
    · cases h
    rename_i hparent
    split at h
    · cases h
    have hrest := ih h
    intro it hit
    rcases mem_cons.mp hit with rfl | hit
    · exact ⟨d, hd, by simpa using htarget, by simpa using hparent⟩
    · exact hrest it hit

theorem beginSubmission_ok (h : st.beginSubmission key sourceCommit items = (.ok operationId, st')) :
    ∃ run first, st.Begun key sourceCommit items operationId run first st' := by
  unfold beginSubmission at h
  split at h
  · cases h
  rename_i hidle
  split at h
  · cases h
  rename_i item hitem
  split at h
  · cases h
  rename_i hrefusal
  split at h
  · cases h
  rename_i first hfirst
  split at h
  · split at h
    · next hpending =>
      cases h
      exact ⟨_, item.tempId,
        { idle := by simpa using hidle
          fresh := ⟨rfl, rfl⟩
          of_key := rfl
          of_source := rfl
          frozen := rfl
          head := ⟨item, hitem, rfl⟩
          current := rfl
          retry := rfl
          pending := ⟨first, hfirst, hpending.2⟩
          participants := itemRefusal_none hrefusal
          active := rfl
          rows := draftEntry_setState st key item.tempId .submitting
          operations := rfl
          faults := ⟨rfl, rfl⟩ }⟩
    · cases h
  · cases h

/-! ### Completion -/

/-- All removals of a clean completion, applied to one row. -/
def remapAll (removed : List PostedDraft) (e : Entry) : Entry :=
  removed.foldl (fun e r => remapReply r.key r.tempId r.commentId e) e

@[simp] theorem remapReply_state (key : RemoteReviewIdentity) (tempId : TempId) (id : CommentId)
    (e : Entry) : (remapReply key tempId id e).draft.state = e.draft.state := by
  unfold remapReply
  split <;> rfl

@[simp] theorem remapReply_target (key : RemoteReviewIdentity) (tempId : TempId) (id : CommentId)
    (e : Entry) : (remapReply key tempId id e).draft.target = e.draft.target := by
  unfold remapReply
  split <;> rfl

variable (removed : List PostedDraft)

@[simp] theorem remapAll_state (e : Entry) : (remapAll removed e).draft.state = e.draft.state := by
  induction removed generalizing e with
  | nil => rfl
  | cons r rest ih => simp [remapAll] at ih ⊢; rw [ih]; simp

@[simp] theorem remapAll_target (e : Entry) : (remapAll removed e).draft.target = e.draft.target := by
  induction removed generalizing e with
  | nil => rfl
  | cons r rest ih => simp [remapAll] at ih ⊢; rw [ih]; simp

theorem lookup_removePosted (rows : Keyed Entry.id) (r : PostedDraft)
    (id : RemoteReviewIdentity × TempId) :
    (removePosted rows r).lookup id =
      if id = (r.key, r.tempId) then none
      else (rows.lookup id).map (remapReply r.key r.tempId r.commentId) := by
  rw [removePosted, lookup_filterRows, lookup_mapRows]
  cases hl : rows.lookup id with
  | none => simp
  | some e =>
    have hid : (remapReply r.key r.tempId r.commentId e).id = id :=
      (remapReply_id r.key r.tempId r.commentId e).trans (lookup_key hl)
    by_cases h : id = (r.key, r.tempId)
    · simp [Option.filter, hid]
    · simp [Option.filter, hid]

/-- What a clean completion leaves of a row: nothing if it was removed, else its remapped copy. -/
theorem lookup_foldl_removePosted (rows : Keyed Entry.id) (row : RemoteReviewIdentity × TempId) :
    (removed.foldl removePosted rows).lookup row =
      if row ∈ removed.map (fun r => (r.key, r.tempId)) then none
      else (rows.lookup row).map (remapAll removed) := by
  induction removed generalizing rows with
  | nil =>
    have hid : remapAll [] = id := rfl
    simp [hid]
  | cons r rest ih =>
    have hcomp : remapAll (r :: rest) = remapAll rest ∘ remapReply r.key r.tempId r.commentId := rfl
    rw [foldl_cons, ih, lookup_removePosted]
    by_cases hr : row = (r.key, r.tempId)
    · simp [hr]
    · simp [hr, hcomp]

/-- What every completed run leaves: no active run, and no row that was not there before. -/
structure Completed (st st' : InMemoryStore) : Prop where
  idle : st'.activeRun = none
  operations : st'.nextOperationId = st.nextOperationId
  faults : st'.failNextCheckpoint = st.failNextCheckpoint ∧
    st'.failNextCompletion = st.failNextCompletion

/-- What each kind of completion asks of the run and does to the rows. -/
def CompletesAs (st : InMemoryStore) (key : RemoteReviewIdentity) (run : ActiveSubmissionRun)
    (st' : InMemoryStore) : SubmissionCompletion → Prop
  | .clean => run.currentTempId = none ∧ st.notClean run = false ∧
      st'.entries = (removals run st.entries.rows).foldl removePosted st.entries
  | .partialCompletion => run.currentTempId = none ∧ st'.entries = st.entries
  | .aborted restore => ∃ current d, run.currentTempId = some current ∧
      st.draftEntry key current = some d ∧ d.state = .submitting ∧
      st'.entries = (st.setState key current restore.draftState).entries

theorem completeSubmission_ok (h : st.completeSubmission operationId key completion = (.ok (), st')) :
    ∃ run, st.Runs operationId key run ∧ st.Completed st' ∧ st.CompletesAs key run st' completion := by
  unfold completeSubmission at h
  split at h
  · cases h
  split at h
  · cases h
  rename_i run hrun
  split at h
  · cases h
  rename_i hids
  simp only [ne_eq, not_or, Decidable.not_not] at hids
  refine ⟨run, ⟨hrun, hids.1, hids.2⟩, ?_⟩
  cases completion with
  | clean =>
    simp only at h
    split at h
    · cases h
    rename_i hcurrent
    split at h
    · cases h
    rename_i hclean
    cases h
    have hretain : ∀ self : InMemoryStore, (self.retainTempIdFloor key).entries = self.entries ∧
        (self.retainTempIdFloor key).nextOperationId = self.nextOperationId ∧
        (self.retainTempIdFloor key).failNextCheckpoint = self.failNextCheckpoint ∧
        (self.retainTempIdFloor key).failNextCompletion = self.failNextCompletion := by
      intro self
      unfold retainTempIdFloor
      split <;> simp
    obtain ⟨he, ho, hf⟩ := hretain st
    refine ⟨⟨rfl, ho, hf⟩, by simpa using hcurrent, by simpa using hclean, ?_⟩
    simp only [he]
  | partialCompletion =>
    simp only at h
    split at h
    · cases h
    · next hcurrent =>
      cases h
      exact ⟨⟨rfl, rfl, rfl, rfl⟩, by simpa using hcurrent, rfl⟩
  | aborted restore =>
    simp only at h
    split at h
    · cases h
    rename_i current hcurrent
    split at h
    · cases h
    rename_i d hd
    split at h
    · cases h
    · next hsub =>
      cases h
      exact ⟨⟨rfl, rfl, rfl, rfl⟩, current, d, hcurrent, hd, by simpa using hsub, rfl⟩

theorem abandonSubmission_ok (h : st.abandonSubmission operationId key = (.ok (), st')) :
    ∃ run current d, st.Runs operationId key run ∧ st.Completed st' ∧
      run.currentTempId = some current ∧ st.draftEntry key current = some d ∧
      d.state = .submitting ∧ st'.entries = (st.setState key current .outcomeUnknown).entries := by
  unfold abandonSubmission at h
  split at h
  · cases h
  rename_i run hrun
  split at h
  · cases h
  rename_i hids
  simp only [ne_eq, not_or, Decidable.not_not] at hids
  split at h
  · cases h
  rename_i current hcurrent
  split at h
  · cases h
  rename_i d hd
  split at h
  · cases h
  rename_i hsub
  cases h
  exact ⟨run, current, d, ⟨hrun, hids.1, hids.2⟩, ⟨rfl, rfl, rfl, rfl⟩, hcurrent, hd,
    by simpa using hsub, rfl⟩

/-! ## A reviewer's edits -/

/-- What no edit changes: the run, the Drafts the run owns and the operation ids. An edit never
makes a Draft submitting. -/
structure Edited (st st' : InMemoryStore) : Prop where
  active : st'.activeRun = st.activeRun
  operations : st'.nextOperationId = st.nextOperationId
  faults : st'.failNextCheckpoint = st.failNextCheckpoint ∧
    st'.failNextCompletion = st.failNextCompletion
  owned : ∀ key t, st.ownedByRun key t = true → st'.draftEntry key t = st.draftEntry key t
  submitting : ∀ key t d, st'.draftEntry key t = some d → d.state = .submitting →
    ∃ d', st.draftEntry key t = some d' ∧ d'.state = .submitting

theorem Edited.refl (st : InMemoryStore) : st.Edited st where
  active := rfl
  operations := rfl
  faults := ⟨rfl, rfl⟩
  owned := fun _ _ _ => rfl
  submitting := fun _ _ d h hs => ⟨d, h, hs⟩

section

variable (hactive : st'.activeRun = st.activeRun)
  (hoperations : st'.nextOperationId = st.nextOperationId)
  (hfaults : st'.failNextCheckpoint = st.failNextCheckpoint ∧ st'.failNextCompletion = st.failNextCompletion)
include hactive hoperations hfaults

theorem Edited.congr (hrows : st'.draftEntry = st.draftEntry) : st.Edited st' where
  active := hactive
  operations := hoperations
  faults := hfaults
  owned := fun key t _ => by rw [hrows]
  submitting := fun key t d hd hs => ⟨d, by rw [← hrows]; exact hd, hs⟩

theorem Edited.row (hfree : st.ownedByRun key tempId = false)
    (hother : ∀ key' t, ¬ (key' = key ∧ t = tempId) → st'.draftEntry key' t = st.draftEntry key' t)
    (hrow : ∀ d, st'.draftEntry key tempId = some d → d.state ≠ .submitting) : st.Edited st' where
  active := hactive
  operations := hoperations
  faults := hfaults
  owned := by
    intro key' t howned
    refine hother key' t ?_
    rintro ⟨rfl, rfl⟩
    rw [hfree] at howned
    cases howned
  submitting := by
    intro key' t d hd hs
    by_cases hrow' : key' = key ∧ t = tempId
    · obtain ⟨rfl, rfl⟩ := hrow'
      exact absurd hs (hrow d hd)
    · exact ⟨d, by rw [← hother key' t hrow']; exact hd, hs⟩

end

theorem draftEntry_putRow (st : InMemoryStore) (key : RemoteReviewIdentity) (d : Draft)
    (key' : RemoteReviewIdentity) (t : TempId) :
    ({ st with entries := st.entries.put ⟨key, d⟩ } : InMemoryStore).draftEntry key' t =
      if key' = key ∧ t = d.localId then some d else st.draftEntry key' t := by
  simp only [draftEntry, lookup_put]
  by_cases h : (key', t) = (Entry.mk key d).id
  · rw [if_pos h, if_pos (Prod.mk.inj h)]
    rfl
  · rw [if_neg h, if_neg (fun hand => h (Prod.ext hand.1 hand.2))]

variable {incoming : Draft}

theorem put_error (h : st.put key incoming = (.error err, st')) : st' = st := by
  unfold put at h
  repeat' split at h
  all_goals cases h
  all_goals rfl

theorem put_ok {stored : Option Parent} (h : st.put key incoming = (.ok stored, st')) :
    st.ownedByRun key incoming.localId = false ∧ st.putParent key incoming.parent = .ok stored ∧
      st' = { st with entries := st.entries.put ⟨key, { incoming with parent := stored }⟩ } := by
  unfold put at h
  split at h
  · cases h
  split at h
  · cases h
  rename_i hfree
  split at h
  · cases h
  · next parent hparent =>
    cases h
    exact ⟨by simpa using hfree, hparent, rfl⟩

theorem reopened_ne_submitting (state : DraftState) (h : state.isPending = true) :
    reopened state ≠ .submitting := by
  cases state <;> simp_all [reopened, DraftState.isPending]

theorem setDraft_edited (f : Draft → Draft) (hf : ∀ d, (f d).localId = d.localId)
    (hfree : st.ownedByRun key tempId = false) (hd : st.draftEntry key tempId = some d)
    (hstate : (f d).state ≠ .submitting) : st.Edited (st.setDraft key tempId f hf) := by
  refine .row rfl rfl ⟨rfl, rfl⟩ hfree ?_ ?_
  · intro key' t hne
    rw [draftEntry_setDraft, if_neg hne]
  intro d' hd'
  rw [draftEntry_setDraft, if_pos ⟨rfl, rfl⟩, hd, Option.map_some, Option.some.injEq] at hd'
  subst hd'
  exact hstate

variable {edit : DraftBodyEdit}

theorem editDraftBody_error (h : st.editDraftBody key edit = (.error err, st')) :
    st' = st.spentEdit := by
  unfold editDraftBody at h
  split at h
  · cases h; rfl
  rename_i harm
  have hst : st.spentEdit = st := by
    cases st
    simp_all [spentEdit]
  rw [hst]
  repeat' split at h
  all_goals cases h
  all_goals rfl

theorem editDraftBody_ok (h : st.editDraftBody key edit = (.ok (), st')) :
    ∃ d, st.draftEntry key edit.tempId = some d ∧ d.state.isPending = true ∧
      st.ownedByRun key edit.tempId = false ∧
      st' = st.setDraft key edit.tempId
        (fun d => { d with body := edit.body, state := reopened d.state }) (fun _ => rfl) := by
  unfold editDraftBody at h
  split at h
  · cases h
  split at h
  · cases h
  rename_i hfree
  split at h
  · cases h
  rename_i d hd
  refine ⟨d, hd, ?_⟩
  split at h
  · cases h
  · cases h
  · cases h
  all_goals
    next hstate =>
      split at h
      · cases h
      · split at h <;> cases h
        exact ⟨by simp [hstate, DraftState.isPending], by simpa using hfree, rfl⟩

variable {reanchor : DraftReanchor}

theorem reanchorDraft_error (h : st.reanchorDraft key reanchor = (.error err, st')) :
    st' = st.spentReanchor := by
  unfold reanchorDraft at h
  split at h
  · cases h; rfl
  rename_i harm
  have hst : st.spentReanchor = st := by
    cases st
    simp_all [spentReanchor]
  rw [hst]
  repeat' split at h
  all_goals cases h
  all_goals rfl

/-- A new Anchor goes to one pending inline root that no run owns. -/
theorem reanchorDraft_ok (h : st.reanchorDraft key reanchor = (.ok (), st')) :
    ∃ d, st.draftEntry key reanchor.tempId = some d ∧ d.state.isPending = true ∧
      d.parent = none ∧ d.effectiveScope.isInline = true ∧
      st.ownedByRun key reanchor.tempId = false ∧
      st' = st.setDraft key reanchor.tempId (fun d => { d with
          scope := some (.inline reanchor.anchor)
          anchor := some reanchor.anchor
          snapshot := reanchor.snapshot
          state := reopened d.state }) (fun _ => rfl) := by
  unfold reanchorDraft at h
  split at h
  · cases h
  split at h
  · cases h
  split at h
  · cases h
  rename_i hfree
  split at h
  · cases h
  rename_i d hd
  refine ⟨d, hd, ?_⟩
  have hroot : ¬ (d.parent.isSome ∨ d.effectiveScope.isInline = false) →
      d.parent = none ∧ d.effectiveScope.isInline = true := by
    intro hnot
    simpa using hnot
  split at h
  · cases h
  · cases h
  · cases h
  all_goals
    next hstate =>
      split at h
      · cases h
      split at h
      · cases h
      rename_i hplace
      split at h <;> cases h
      obtain ⟨hparent, hinline⟩ := hroot hplace
      exact ⟨by simp [hstate, DraftState.isPending], hparent, hinline, by simpa using hfree, rfl⟩

theorem retainTempIdFloor_edited (st : InMemoryStore) (key : RemoteReviewIdentity) :
    st.Edited (st.retainTempIdFloor key) ∧ (st.retainTempIdFloor key).entries = st.entries := by
  unfold retainTempIdFloor
  split <;> exact ⟨⟨rfl, rfl, ⟨rfl, rfl⟩, fun _ _ _ => rfl, fun _ _ d h hs => ⟨d, h, hs⟩⟩, rfl⟩

def keptBy (key : RemoteReviewIdentity) (deletion : DraftSubtreeDelete) (e : Entry) : Bool :=
  !(decide (e.key = key) && decide (e.draft.localId ∈ deletion.cascade))

/-- A deletion removes a cascade that is the whole subtree, and none of it is owned by the run. -/
structure Deleted (st : InMemoryStore) (key : RemoteReviewIdentity) (deletion : DraftSubtreeDelete)
    (st' : InMemoryStore) : Prop where
  root : deletion.cascade.head? = some deletion.rootTempId
  distinct : deletion.cascade.Nodup
  counted : ((st.load key).filter
    (fun d => st.descendsFrom key deletion.rootTempId d.localId)).length = deletion.cascade.length
  members : ∀ t ∈ deletion.cascade, (st.draftEntry key t).isSome ∧
    st.descendsFrom key deletion.rootTempId t = true
  free : ∀ t ∈ deletion.cascade, st.ownedByRun key t = false
  result : st' = { st.retainTempIdFloor key with
    entries := st.entries.filterRows (keptBy key deletion) }

variable {deletion : DraftSubtreeDelete}

theorem deleteDraftSubtree_error
    (h : st.deleteDraftSubtree key deletion = (.error err, st')) : st' = st.spentDelete := by
  unfold deleteDraftSubtree at h
  split at h
  · cases h; rfl
  rename_i harm
  have hst : st.spentDelete = st := by
    cases st
    simp_all [spentDelete]
  rw [hst]
  repeat' split at h
  all_goals cases h
  all_goals rfl

theorem deleteDraftSubtree_ok
    (h : st.deleteDraftSubtree key deletion = (.ok (), st')) : st.Deleted key deletion st' := by
  unfold deleteDraftSubtree at h
  split at h
  · cases h
  split at h
  · cases h
  rename_i hshape
  have hshape : deletion.cascade.head? = some deletion.rootTempId ∧ deletion.cascade.Nodup := by
    simpa [validCascadeShape] using hshape
  split at h
  · cases h
  split at h
  · cases h
  split at h
  · cases h
  rename_i hcount
  split at h
  · cases h
  rename_i hmembers
  split at h
  · cases h
  rename_i howned
  split at h <;> cases h
  refine ⟨hshape.1, hshape.2, by simpa using hcount, ?_, ?_, ?_⟩
  · intro t ht
    simp only [Bool.not_eq_true, any_eq_false] at hmembers
    have := hmembers t ht
    simpa [Option.isSome_iff_ne_none] using this
  · intro t ht
    simp only [Bool.not_eq_true, any_eq_false] at howned
    simpa using howned t ht
  · rw [(retainTempIdFloor_edited st key).2]
    rfl

theorem Deleted.rows (h : st.Deleted key deletion st') (key' : RemoteReviewIdentity) (t : TempId) :
    st'.draftEntry key' t =
      if key' = key ∧ t ∈ deletion.cascade then none else st.draftEntry key' t := by
  have hrow : st'.draftEntry key' t =
      ((st.entries.lookup (key', t)).filter (keptBy key deletion)).map Entry.draft := by
    rw [h.result, draftEntry, lookup_filterRows]
  rw [hrow]
  cases hl : st.entries.lookup (key', t) with
  | none => simp [draftEntry, hl]
  | some e =>
    obtain ⟨hk, ht⟩ := Prod.mk.inj (show e.id = (key', t) from lookup_key hl)
    have hentry : st.draftEntry key' t = some e.draft := by
      rw [draftEntry, hl, Option.map_some]
    rw [hentry]
    by_cases hin : key' = key ∧ t ∈ deletion.cascade
    · simp [keptBy, hk, ht, hin]
    · have hkept : keptBy key deletion e = true := by
        simp only [keptBy, hk, ht, ← Bool.decide_and, hin, decide_false, Bool.not_false]
      simp [hkept, hin]

/-- The state a resolved Draft gets. -/
def resolvedState : UnknownResolution → DraftState
  | .posted id => .posted id
  | .unpublished => .draft

variable {resolution : UnknownResolution}

theorem resolveUnknown_error (h : st.resolveUnknown key tempId resolution = (.error err, st')) :
    st' = st := by
  unfold resolveUnknown at h
  repeat' split at h
  all_goals cases h
  all_goals rfl

theorem resolveUnknown_ok (h : st.resolveUnknown key tempId resolution = (.ok (), st')) :
    ∃ d, st.draftEntry key tempId = some d ∧ d.state = .outcomeUnknown ∧
      st.ownedByRun key tempId = false ∧ st' = st.setState key tempId (resolvedState resolution) := by
  unfold resolveUnknown at h
  split at h
  · cases h
  rename_i hfree
  split at h
  · cases h
  rename_i d hd
  split at h
  · cases h
  · next hstate =>
    refine ⟨d, hd, by simpa using hstate, by simpa using hfree, ?_⟩
    cases resolution <;> cases h <;> rfl

section

variable (st key)

theorem put_edited (incoming : Draft)
    (hstate : incoming.state ≠ .submitting) : st.Edited (st.put key incoming).2 := by
  rcases hput : st.put key incoming with ⟨_ | stored, st'⟩
  · rw [put_error hput]
    exact .refl st
  obtain ⟨hfree, -, rfl⟩ := put_ok hput
  refine .row rfl rfl ⟨rfl, rfl⟩ hfree ?_ ?_
  · intro key' t hne
    exact (draftEntry_putRow st key _ key' t).trans (if_neg hne)
  intro d hd
  rw [draftEntry_putRow, if_pos ⟨rfl, rfl⟩, Option.some.injEq] at hd
  subst hd
  exact hstate

theorem editDraftBody_edited (edit : DraftBodyEdit) : st.Edited (st.editDraftBody key edit).2 := by
  rcases hedit : st.editDraftBody key edit with ⟨_ | ⟨⟩, st'⟩
  · rw [editDraftBody_error hedit]
    exact .congr rfl rfl ⟨rfl, rfl⟩ rfl
  obtain ⟨d, hd, hpending, hfree, rfl⟩ := editDraftBody_ok hedit
  dsimp only
  apply setDraft_edited _ _ hfree hd
  exact reopened_ne_submitting d.state hpending

theorem reanchorDraft_edited (reanchor : DraftReanchor) :
    st.Edited (st.reanchorDraft key reanchor).2 := by
  rcases hre : st.reanchorDraft key reanchor with ⟨_ | ⟨⟩, st'⟩
  · rw [reanchorDraft_error hre]
    exact .congr rfl rfl ⟨rfl, rfl⟩ rfl
  obtain ⟨d, hd, hpending, -, -, hfree, rfl⟩ := reanchorDraft_ok hre
  dsimp only
  apply setDraft_edited _ _ hfree hd
  exact reopened_ne_submitting d.state hpending

theorem deleteDraftSubtree_edited (deletion : DraftSubtreeDelete) :
    st.Edited (st.deleteDraftSubtree key deletion).2 := by
  rcases hdel : st.deleteDraftSubtree key deletion with ⟨_ | ⟨⟩, st'⟩
  · rw [deleteDraftSubtree_error hdel]
    exact .congr rfl rfl ⟨rfl, rfl⟩ rfl
  have hdeleted := deleteDraftSubtree_ok hdel
  obtain ⟨hkeep, -⟩ := retainTempIdFloor_edited st key
  refine ⟨?_, ?_, ?_, ?_, ?_⟩
  · rw [hdeleted.result]; exact hkeep.active
  · rw [hdeleted.result]; exact hkeep.operations
  · rw [hdeleted.result]; exact hkeep.faults
  · intro key' t howned
    rw [hdeleted.rows, if_neg]
    rintro ⟨rfl, hin⟩
    rw [hdeleted.free t hin] at howned
    cases howned
  · intro key' t d hd hs
    rw [hdeleted.rows] at hd
    split at hd
    · cases hd
    · exact ⟨d, hd, hs⟩

theorem resolveUnknown_edited (tempId : TempId) (resolution : UnknownResolution) :
    st.Edited (st.resolveUnknown key tempId resolution).2 := by
  rcases hres : st.resolveUnknown key tempId resolution with ⟨_ | ⟨⟩, st'⟩
  · rw [resolveUnknown_error hres]
    exact .refl st
  obtain ⟨d, hd, -, hfree, rfl⟩ := resolveUnknown_ok hres
  dsimp only
  apply setDraft_edited _ _ hfree hd
  cases resolution <;> simp [resolvedState]

theorem reserveTempId_edited : st.Edited (st.reserveTempId key).2 := by
  unfold reserveTempId
  split <;> exact .congr rfl rfl ⟨rfl, rfl⟩ rfl

end

/-! ## The store invariant -/

/-- The active run and the rows fit: its participants are remote Drafts with their frozen parents,
and the Draft in flight is the only one that is submitting. -/
structure Sound (st : InMemoryStore) : Prop where
  fresh : ∀ run, st.activeRun = some run → run.operationId < st.nextOperationId
  current : ∀ run t, st.activeRun = some run → run.currentTempId = some t →
    t ∈ run.items.items.map SubmissionRunItem.tempId ∧
      ∃ d, st.draftEntry run.key t = some d ∧ d.state = .submitting
  participants : ∀ run, st.activeRun = some run → ∀ item ∈ run.items.items,
    ∃ d, st.draftEntry run.key item.tempId = some d ∧ d.target = .bitbucket ∧
      d.parent = item.parent
  submitting : ∀ key t d, st.draftEntry key t = some d → d.state = .submitting →
    ∃ run, st.activeRun = some run ∧ run.key = key ∧ run.currentTempId = some t

theorem Sound.of_idle (hidle : st.activeRun = none)
    (h : ∀ key t d, st.draftEntry key t = some d → d.state ≠ .submitting) : st.Sound where
  fresh := by rw [hidle]; rintro run ⟨⟩
  current := by rw [hidle]; rintro run t ⟨⟩
  participants := by rw [hidle]; rintro run ⟨⟩
  submitting := fun key t d hd hs => absurd hs (h key t d hd)

section

variable (hs : st.Sound)
include hs

theorem Sound.edited (h : st.Edited st') : st'.Sound where
  fresh := by rw [h.active, h.operations]; exact hs.fresh
  current := by
    intro run t hrun ht
    rw [h.active] at hrun
    obtain ⟨hmem, d, hd, hsub⟩ := hs.current run t hrun ht
    have howned := (ownedByRun_iff hrun run.key t).mpr ⟨rfl, hmem⟩
    exact ⟨hmem, d, by rw [h.owned run.key t howned]; exact hd, hsub⟩
  participants := by
    intro run hrun item hitem
    rw [h.active] at hrun
    obtain ⟨d, hd, hrest⟩ := hs.participants run hrun item hitem
    have howned := (ownedByRun_iff hrun run.key item.tempId).mpr ⟨rfl, mem_map_of_mem hitem⟩
    exact ⟨d, by rw [h.owned run.key item.tempId howned]; exact hd, hrest⟩
  submitting := by
    intro key t d hd hsub
    obtain ⟨d', hd', hsub'⟩ := h.submitting key t d hd hsub
    rw [h.active]
    exact hs.submitting key t d' hd' hsub'

theorem Sound.congr (hrows : st'.draftEntry = st.draftEntry)
    (hoperations : st'.nextOperationId = st.nextOperationId)
    (hactive : st'.activeRun = st.activeRun ∨ ∃ run retry, st.activeRun = some run ∧
      st'.activeRun = some { run with retry := retry }) : st'.Sound := by
  rcases hactive with hactive | ⟨run, retry, hrun, hactive⟩
  · refine ⟨?_, ?_, ?_, ?_⟩
    · rw [hactive, hoperations]; exact hs.fresh
    · rw [hactive, hrows]; exact hs.current
    · rw [hactive, hrows]; exact hs.participants
    · rw [hactive, hrows]; exact hs.submitting
  · refine ⟨?_, ?_, ?_, ?_⟩
    · rw [hactive, hoperations]
      rintro _ ⟨⟩
      exact hs.fresh run hrun
    · rw [hactive, hrows]
      rintro _ t ⟨⟩
      exact hs.current run t hrun
    · rw [hactive, hrows]
      rintro _ ⟨⟩
      exact hs.participants run hrun
    · rw [hactive, hrows]
      intro key t d hd hsub
      obtain ⟨run', hrun', hkey, ht⟩ := hs.submitting key t d hd hsub
      rw [hrun] at hrun'
      cases hrun'
      exact ⟨_, rfl, hkey, ht⟩

theorem Sound.spentCheckpoint : st.spentCheckpoint.Sound := hs.congr rfl rfl (.inl rfl)

theorem Sound.spentCompletion : st.spentCompletion.Sound := hs.congr rfl rfl (.inl rfl)

theorem Sound.checkpointed {completed : TempId} (hrun : st.Runs operationId key run)
    (h : st.Checkpointed key run completed outcome next st') : st'.Sound := by
  have hkey := hrun.key
  have hout : outcome.draftState ≠ .submitting := by cases outcome <;> simp [SubmissionOutcome.draftState]
  refine ⟨?_, ?_, ?_, ?_⟩
  · rw [h.active, h.operations]
    rintro _ ⟨⟩
    exact hs.fresh run hrun.active
  · rw [h.active]
    rintro _ t ⟨⟩ ht
    simp only at ht
    obtain ⟨d, hd, -⟩ := h.next_pending t ht
    have hne : t ≠ completed := fun he => h.next_ne (he ▸ ht)
    refine ⟨?_, d.withState .submitting, ?_, rfl⟩
    · have hafter := h.next_after t ht
      unfold comesAfter at hafter
      split at hafter
      · next hj => exact submissionItemIndex_isSome.mp (by rw [hj]; rfl)
      · cases hafter
    · rw [h.rows, hkey, if_neg (fun hand => hne hand.2), if_pos ⟨rfl, ht.symm⟩, hd, Option.map_some]
  · rw [h.active]
    rintro _ ⟨⟩ item hitem
    obtain ⟨d, hd, htarget, hparent⟩ := hs.participants run hrun.active item hitem
    rw [hkey] at hd
    simp only [h.rows, hkey, true_and]
    split
    · next he => rw [← he, hd]; exact ⟨_, rfl, htarget, hparent⟩
    · split
      · rw [hd]; exact ⟨_, rfl, htarget, hparent⟩
      · exact ⟨d, hd, htarget, hparent⟩
  · intro key' t d hd hsub
    rw [h.rows] at hd
    rw [h.active]
    split at hd
    · obtain ⟨d', -, rfl⟩ := Option.map_eq_some_iff.mp hd
      exact absurd hsub hout
    rename_i hnc
    split at hd
    · next hnext => exact ⟨_, rfl, by rw [hkey, hnext.1], hnext.2.symm⟩
    -- The only submitting Draft was the completed one.
    obtain ⟨run', hrun', hk, ht⟩ := hs.submitting key' t d hd hsub
    rw [hrun.active] at hrun'
    cases hrun'
    rw [h.current, Option.some.injEq] at ht
    exact absurd ⟨by rw [← hk, hkey], ht.symm⟩ hnc

theorem Sound.begun {first : TempId}
    (h : st.Begun key sourceCommit items operationId run first st') : st'.Sound := by
  have hkey := h.of_key
  refine ⟨?_, ?_, ?_, ?_⟩
  · rw [h.active, h.operations]
    rintro _ ⟨⟩
    rw [h.fresh.2, h.fresh.1]
    exact Nat.lt_succ_self _
  · rw [h.active]
    rintro _ t ⟨⟩ ht
    rw [h.current, Option.some.injEq] at ht
    subst ht
    obtain ⟨item, hitem, ht⟩ := h.head
    obtain ⟨d, hd, -⟩ := h.pending
    refine ⟨?_, d.withState .submitting, ?_, rfl⟩
    · rw [h.frozen, ← ht]
      exact mem_map_of_mem (mem_of_head? hitem)
    · rw [h.rows, hkey, if_pos ⟨rfl, rfl⟩, hd, Option.map_some]
  · rw [h.active]
    rintro _ ⟨⟩ item hitem
    rw [h.frozen] at hitem
    obtain ⟨d, hd, htarget, hparent⟩ := h.participants item hitem
    simp only [h.rows, hkey, true_and]
    split
    · next he => rw [← he, hd]; exact ⟨_, rfl, htarget, hparent⟩
    · exact ⟨d, hd, htarget, hparent⟩
  · intro key' t d hd hsub
    rw [h.rows] at hd
    rw [h.active]
    split at hd
    · next hand => exact ⟨run, rfl, by rw [hkey, hand.1], by rw [h.current, hand.2]⟩
    · obtain ⟨run', hrun', -⟩ := hs.submitting key' t d hd hsub
      rw [h.idle] at hrun'
      cases hrun'

/-- A run that ends leaves nothing submitting if its Draft in flight has been settled. -/
theorem Sound.completed (hidle : st'.activeRun = none)
    (hrows : ∀ key t d, st'.draftEntry key t = some d → d.state = .submitting →
      ∃ d', st.draftEntry key t = some d' ∧ d'.state = .submitting ∧
        ∀ run, st.activeRun = some run → run.key = key → run.currentTempId ≠ some t) :
    st'.Sound := by
  refine .of_idle hidle ?_
  intro key t d hd hsub
  obtain ⟨d', hd', hsub', hnot⟩ := hrows key t d hd hsub
  obtain ⟨run, hrun, hkey, ht⟩ := hs.submitting key t d' hd' hsub'
  exact hnot run hrun hkey ht

theorem Sound.settled {current : TempId} {state : DraftState} (hrun : st.Runs operationId key run)
    (hcurrent : run.currentTempId = some current) (hstate : state ≠ .submitting)
    (hidle : st'.activeRun = none)
    (hentries : st'.entries = (st.setState key current state).entries) : st'.Sound := by
  have hrows : st'.draftEntry = (st.setState key current state).draftEntry := by
    funext key' t
    simp only [draftEntry, hentries]
  refine hs.completed hidle ?_
  intro key' t d hd hsub
  rw [hrows, draftEntry_setState] at hd
  split at hd
  · obtain ⟨d', -, rfl⟩ := Option.map_eq_some_iff.mp hd
    exact absurd hsub hstate
  rename_i hne
  refine ⟨d, hd, hsub, ?_⟩
  intro run' hrun' hk ht
  rw [hrun.active] at hrun'
  cases hrun'
  rw [hcurrent, Option.some.injEq] at ht
  exact hne ⟨by rw [← hk, hrun.key], ht.symm⟩

theorem Sound.completedAs (hrun : st.Runs operationId key run) (hdone : st.Completed st')
    (h : st.CompletesAs key run st' completion) : st'.Sound := by
  cases completion with
  | clean =>
    obtain ⟨hcurrent, -, hentries⟩ := h
    refine hs.completed hdone.idle ?_
    intro key' t d hd hsub
    rw [draftEntry, hentries, lookup_foldl_removePosted] at hd
    split at hd
    · cases hd
    obtain ⟨e, he, rfl⟩ := Option.map_eq_some_iff.mp hd
    obtain ⟨e', he', rfl⟩ := Option.map_eq_some_iff.mp he
    refine ⟨e'.draft, by rw [draftEntry, he', Option.map_some], by simpa using hsub, ?_⟩
    intro run' hrun' _ ht
    rw [hrun.active] at hrun'
    cases hrun'
    rw [hcurrent] at ht
    cases ht
  | partialCompletion =>
    obtain ⟨hcurrent, hentries⟩ := h
    refine hs.completed hdone.idle ?_
    intro key' t d hd hsub
    refine ⟨d, by simpa only [draftEntry, hentries] using hd, hsub, ?_⟩
    intro run' hrun' _ ht
    rw [hrun.active] at hrun'
    cases hrun'
    rw [hcurrent] at ht
    cases ht
  | aborted restore =>
    obtain ⟨current, d, hcurrent, -, -, hentries⟩ := h
    exact hs.settled hrun hcurrent
      (by cases restore <;> simp [SubmissionPendingState.draftState]) hdone.idle hentries

end

section

variable (harm : st.failNextCheckpoint = false) (hrun : st.Runs operationId key run)
  (hcurrent : run.currentTempId = some tempId)
include harm hrun hcurrent

theorem checkpointSubmissionRetry_accepts (hdelay : checkpoint.effectiveDelayMs =
      max checkpoint.localDelayMs (checkpoint.serverDelayMs.getD 0)) :
    (st.checkpointSubmissionRetry operationId key tempId checkpoint).1 = .ok () := by
  simp [checkpointSubmissionRetry, harm, hrun.active, hrun.operationId, hrun.key, hcurrent, hdelay]

theorem checkpointSubmission_accepts (outcome : SubmissionOutcome)
    (hsub : ∃ d, st.draftEntry key tempId = some d ∧ d.state = .submitting)
    (hne : next ≠ some tempId)
    (hafter : ∀ n, next = some n → comesAfter run.items.items tempId n = true)
    (hpending : ∀ n, next = some n → ∃ d, st.draftEntry key n = some d ∧ d.target = .bitbucket ∧
      d.state.isPending = true) :
    (st.checkpointSubmission operationId key tempId outcome next).1 = .ok () := by
  obtain ⟨d, hd, hstate⟩ := hsub
  cases next with
  | none =>
    simp [checkpointSubmission, harm, hrun.active, hrun.operationId, hrun.key, hcurrent, hd, hstate]
  | some n =>
    obtain ⟨dn, hdn, htarget, hpend⟩ := hpending n rfl
    have hne' : n ≠ tempId := fun he => hne (congrArg some he)
    simp [checkpointSubmission, harm, hrun.active, hrun.operationId, hrun.key, hcurrent, hd, hstate,
      hne', hafter n rfl, hdn, htarget, hpend]

end

/-- What each kind of completion asks of the run. -/
def Completable (st : InMemoryStore) (key : RemoteReviewIdentity) (run : ActiveSubmissionRun) :
    SubmissionCompletion → Prop
  | .clean => run.currentTempId = none ∧ st.notClean run = false
  | .partialCompletion => run.currentTempId = none
  | .aborted _ => ∃ current d, run.currentTempId = some current ∧
      st.draftEntry key current = some d ∧ d.state = .submitting

theorem completeSubmission_accepts
    (harm : st.failNextCompletion = false) (hrun : st.Runs operationId key run)
    (h : st.Completable key run completion) :
    (st.completeSubmission operationId key completion).1 = .ok () := by
  cases completion with
  | clean =>
    simp [completeSubmission, harm, hrun.active, hrun.operationId, hrun.key, h.1, h.2]
  | partialCompletion =>
    have hcurrent : run.currentTempId = none := h
    simp [completeSubmission, harm, hrun.active, hrun.operationId, hrun.key, hcurrent]
  | aborted restore =>
    obtain ⟨current, d, hcurrent, hd, hs⟩ := h
    simp [completeSubmission, harm, hrun.active, hrun.operationId, hrun.key, hcurrent, hd, hs]

end InMemoryStore

end Bbr.Review
