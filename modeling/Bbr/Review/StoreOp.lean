import Bbr.Review.StoreLaws

/-!
# Store operations as values

One constructor for each operation that writes, with its arguments. `perform` is the vtable: it runs the
operation and gives its result with the store after it. Every operation has one inversion lemma here or
among the laws of a Submission run; a history of a store is a list of operations.
-/
namespace Bbr.Review

open Bbr.Bitbucket Bbr.Lib

inductive StoreOp where
  | put (key : RemoteReviewIdentity) (incoming : Draft)
  | editDraftBody (key : RemoteReviewIdentity) (edit : DraftBodyEdit)
  | reanchorDraft (key : RemoteReviewIdentity) (reanchor : DraftReanchor)
  | deleteDraftSubtree (key : RemoteReviewIdentity) (deletion : DraftSubtreeDelete)
  | beginSubmission (key : RemoteReviewIdentity) (sourceCommit : Bytes)
      (items : List SubmissionRunItem)
  | checkpointSubmission (operationId : OperationId) (key : RemoteReviewIdentity)
      (completedTempId : TempId) (outcome : SubmissionOutcome) (nextTempId : Option TempId)
  | checkpointSubmissionRetry (operationId : OperationId) (key : RemoteReviewIdentity)
      (tempId : TempId) (checkpoint : SubmissionRetryCheckpoint)
  | completeSubmission (operationId : OperationId) (key : RemoteReviewIdentity)
      (completion : SubmissionCompletion)
  | abandonSubmission (operationId : OperationId) (key : RemoteReviewIdentity)
  | resolveUnknown (key : RemoteReviewIdentity) (tempId : TempId) (resolution : UnknownResolution)
  | reserveTempId (key : RemoteReviewIdentity)

/-- What a successful operation returns. -/
inductive StoreValue where
  | done
  | parent (stored : Option Parent)
  | operation (id : OperationId)
  | reserved (id : TempId)
  deriving DecidableEq, Repr

namespace InMemoryStore

/-- An operation that returns nothing. -/
def returning {α : Type} (f : α → StoreValue) (r : Except StoreError α × InMemoryStore) :
    Except StoreError StoreValue × InMemoryStore := (r.1.map f, r.2)

def perform (st : InMemoryStore) : StoreOp → Except StoreError StoreValue × InMemoryStore
  | .put key incoming => returning .parent (st.put key incoming)
  | .editDraftBody key edit => returning (fun _ => .done) (st.editDraftBody key edit)
  | .reanchorDraft key reanchor => returning (fun _ => .done) (st.reanchorDraft key reanchor)
  | .deleteDraftSubtree key deletion =>
    returning (fun _ => .done) (st.deleteDraftSubtree key deletion)
  | .beginSubmission key sourceCommit items =>
    returning .operation (st.beginSubmission key sourceCommit items)
  | .checkpointSubmission operationId key completed outcome next =>
    returning (fun _ => .done) (st.checkpointSubmission operationId key completed outcome next)
  | .checkpointSubmissionRetry operationId key tempId checkpoint =>
    returning (fun _ => .done) (st.checkpointSubmissionRetry operationId key tempId checkpoint)
  | .completeSubmission operationId key completion =>
    returning (fun _ => .done) (st.completeSubmission operationId key completion)
  | .abandonSubmission operationId key =>
    returning (fun _ => .done) (st.abandonSubmission operationId key)
  | .resolveUnknown key tempId resolution =>
    returning (fun _ => .done) (st.resolveUnknown key tempId resolution)
  | .reserveTempId key => (.ok (.reserved (st.reserveTempId key).1), (st.reserveTempId key).2)

def apply (st : InMemoryStore) (op : StoreOp) : InMemoryStore := (st.perform op).2

variable {st st' : InMemoryStore} {op : StoreOp} {err : StoreError} {key : RemoteReviewIdentity}
  {tempId : TempId} {α : Type} {f : α → StoreValue} {r : Except StoreError α × InMemoryStore}

theorem returning_error : returning f r = (.error err, st') ↔ r = (.error err, st') := by
  obtain ⟨result, store⟩ := r
  cases result <;> simp [returning, Except.map]

theorem returning_ok {value : StoreValue} :
    returning f r = (.ok value, st') ↔ ∃ a, r = (.ok a, st') ∧ f a = value := by
  obtain ⟨result, store⟩ := r
  cases result with
  | error err => simp [returning, Except.map]
  | ok a =>
    simp only [returning, Except.map, Prod.mk.injEq, Except.ok.injEq]
    constructor
    · rintro ⟨rfl, rfl⟩
      exact ⟨a, ⟨rfl, rfl⟩, rfl⟩
    · rintro ⟨a', ⟨rfl, rfl⟩, rfl⟩
      exact ⟨rfl, rfl⟩

/-- What a failed operation leaves: the fault it may have met is spent. -/
def spent (st : InMemoryStore) : StoreOp → InMemoryStore
  | .editDraftBody _ _ => st.spentEdit
  | .reanchorDraft _ _ => st.spentReanchor
  | .deleteDraftSubtree _ _ => st.spentDelete
  | .checkpointSubmission _ _ _ _ _ => st.spentCheckpoint
  | .checkpointSubmissionRetry _ _ _ _ => st.spentCheckpoint
  | .completeSubmission _ _ _ => st.spentCompletion
  | _ => st

theorem perform_error (h : st.perform op = (.error err, st')) : st' = st.spent op := by
  cases op with
  | put key incoming => exact put_error (returning_error.mp h)
  | editDraftBody key edit => exact editDraftBody_error (returning_error.mp h)
  | reanchorDraft key reanchor => exact reanchorDraft_error (returning_error.mp h)
  | deleteDraftSubtree key deletion => exact deleteDraftSubtree_error (returning_error.mp h)
  | beginSubmission key sourceCommit items => exact beginSubmission_error (returning_error.mp h)
  | checkpointSubmission operationId key completed outcome next =>
    exact checkpointSubmission_error (returning_error.mp h)
  | checkpointSubmissionRetry operationId key tempId checkpoint =>
    exact checkpointSubmissionRetry_error (returning_error.mp h)
  | completeSubmission operationId key completion =>
    exact completeSubmission_error (returning_error.mp h)
  | abandonSubmission operationId key => exact abandonSubmission_error (returning_error.mp h)
  | resolveUnknown key tempId resolution => exact resolveUnknown_error (returning_error.mp h)
  | reserveTempId key => cases h

theorem spent_kept (st : InMemoryStore) (op : StoreOp) :
    (st.spent op).entries = st.entries ∧ (st.spent op).activeRun = st.activeRun ∧
      (st.spent op).nextOperationId = st.nextOperationId ∧
      (st.spent op).tempCounters = st.tempCounters ∧
      (st.spent op).postedDrafts = st.postedDrafts ∧
      (st.spent op).retryCarryovers = st.retryCarryovers := by
  cases op <;> exact ⟨rfl, rfl, rfl, rfl, rfl, rfl⟩

/-- The operations that edit no Draft of a run, but for new Drafts. -/
def EditsOnly : StoreOp → Prop
  | .editDraftBody _ _ | .reanchorDraft _ _ | .deleteDraftSubtree _ _ | .resolveUnknown _ _ _
  | .reserveTempId _ => True
  | _ => False

/-- What an operation has done: only spent a fault, or what its inversion lemma says. -/
inductive Performed (st : InMemoryStore) : StoreOp → InMemoryStore → Prop where
  | failed {op : StoreOp} : Performed st op (st.spent op)
  | put {key : RemoteReviewIdentity} {incoming : Draft} {stored : Option Parent}
      {st' : InMemoryStore} (ok : st.put key incoming = (.ok stored, st')) :
      Performed st (.put key incoming) st'
  | edited {op : StoreOp} {st' : InMemoryStore} (only : EditsOnly op) (edited : st.Edited st') :
      Performed st op st'
  | begun {key : RemoteReviewIdentity} {sourceCommit : Bytes} {items : List SubmissionRunItem}
      {operationId : OperationId} {run : ActiveSubmissionRun} {first : TempId} {st' : InMemoryStore}
      (begun : st.Begun key sourceCommit items operationId run first st') :
      Performed st (.beginSubmission key sourceCommit items) st'
  | checkpointed {operationId : OperationId} {key : RemoteReviewIdentity} {completed : TempId}
      {outcome : SubmissionOutcome} {next : Option TempId} {run : ActiveSubmissionRun}
      {st' : InMemoryStore} (runs : st.Runs operationId key run)
      (checkpointed : st.Checkpointed key run completed outcome next st') :
      Performed st (.checkpointSubmission operationId key completed outcome next) st'
  | retried {operationId : OperationId} {key : RemoteReviewIdentity} {tempId : TempId}
      {checkpoint : SubmissionRetryCheckpoint} {run : ActiveSubmissionRun}
      (runs : st.Runs operationId key run) :
      Performed st (.checkpointSubmissionRetry operationId key tempId checkpoint)
        { st with activeRun := some { run with retry := some checkpoint } }
  | completed {operationId : OperationId} {key : RemoteReviewIdentity}
      {completion : SubmissionCompletion} {run : ActiveSubmissionRun} {st' : InMemoryStore}
      (runs : st.Runs operationId key run) (done : st.Completed st')
      (completes : st.CompletesAs key run st' completion) :
      Performed st (.completeSubmission operationId key completion) st'
  | abandoned {operationId : OperationId} {key : RemoteReviewIdentity} {run : ActiveSubmissionRun}
      {current : TempId} {st' : InMemoryStore} (runs : st.Runs operationId key run)
      (done : st.Completed st') (inFlight : run.currentTempId = some current)
      (entries : st'.entries = (st.setState key current .outcomeUnknown).entries) :
      Performed st (.abandonSubmission operationId key) st'

/-- The same rows, with the same parents. -/
def SameParents (st st' : InMemoryStore) : Prop :=
  ∀ key t, (st'.draftEntry key t).map Draft.parent = (st.draftEntry key t).map Draft.parent

theorem SameParents.of_entries (h : st'.entries = st.entries) : st.SameParents st' :=
  fun key t => by rw [draftEntry_mk_entries st st' h]

theorem SameParents.of_entries_eq {mid : InMemoryStore} (h : st.SameParents mid)
    (hentries : st'.entries = mid.entries) : st.SameParents st' :=
  fun key t => by rw [draftEntry_mk_entries mid st' hentries, h key t]

theorem SameParents.isSome (h : st.SameParents st') (key : RemoteReviewIdentity) (t : TempId) :
    (st'.draftEntry key t).isSome = (st.draftEntry key t).isSome := by
  have := congrArg Option.isSome (h key t)
  simpa using this

theorem setDraft_sameParents (f : Draft → Draft) (hf : ∀ d, (f d).localId = d.localId)
    (hp : ∀ d, (f d).parent = d.parent) : st.SameParents (st.setDraft key tempId f hf) := by
  intro key' t
  rw [draftEntry_setDraft]
  split
  · next h =>
    rw [h.1, h.2, Option.map_map]
    exact congrArg (fun g => Option.map g (st.draftEntry key tempId)) (funext hp)
  · rfl

theorem setState_sameParents (state : DraftState) : st.SameParents (st.setState key tempId state) :=
  setDraft_sameParents _ _ (fun _ => rfl)

theorem SameParents.of_rows (h : ∀ key t, st'.draftEntry key t = st.draftEntry key t ∨ ∃ state,
      st'.draftEntry key t = (st.draftEntry key t).map (fun d => d.withState state)) :
    st.SameParents st' := by
  intro key t
  rcases h key t with heq | ⟨state, heq⟩
  · rw [heq]
  · rw [heq, Option.map_map]
    rfl

/-- The counters and the record of removed Drafts are the same. -/
def SameIds (st st' : InMemoryStore) : Prop :=
  st'.tempCounters = st.tempCounters ∧ st'.postedDrafts = st.postedDrafts

theorem beginSubmission_sameIds (st : InMemoryStore) (key : RemoteReviewIdentity)
    (sourceCommit : Bytes) (items : List SubmissionRunItem) :
    st.SameIds (st.beginSubmission key sourceCommit items).2 := by
  unfold beginSubmission
  repeat' split
  all_goals exact ⟨rfl, rfl⟩

theorem checkpointSubmission_sameIds (st : InMemoryStore) (operationId : OperationId)
    (key : RemoteReviewIdentity) (completed : TempId) (outcome : SubmissionOutcome)
    (next : Option TempId) :
    st.SameIds (st.checkpointSubmission operationId key completed outcome next).2 := by
  unfold checkpointSubmission
  repeat' split
  all_goals exact ⟨rfl, rfl⟩

theorem abandonSubmission_sameIds (st : InMemoryStore) (operationId : OperationId)
    (key : RemoteReviewIdentity) : st.SameIds (st.abandonSubmission operationId key).2 := by
  unfold abandonSubmission
  repeat' split
  all_goals exact ⟨rfl, rfl⟩

variable {operationId : OperationId}

theorem completeSubmission_same {completion : SubmissionCompletion} (hclean : completion ≠ .clean)
    (h : st.completeSubmission operationId key completion = (.ok (), st')) :
    st.SameParents st' ∧ st.SameIds st' := by
  obtain ⟨run, -, -, hcompletes⟩ := completeSubmission_ok h
  constructor
  · cases completion with
    | clean => exact absurd rfl hclean
    | partialCompletion => exact .of_entries hcompletes.2
    | aborted restore =>
      obtain ⟨current, d, -, -, -, hentries⟩ := hcompletes
      exact (setState_sameParents restore.draftState).of_entries_eq hentries
  · have hids : st.SameIds (st.completeSubmission operationId key completion).2 := by
      cases completion with
      | clean => exact absurd rfl hclean
      | partialCompletion | aborted restore =>
        unfold completeSubmission
        dsimp only
        repeat' split
        all_goals exact ⟨rfl, rfl⟩
    rwa [h] at hids

/-- A clean completion pins the counter and records what it removes. -/
theorem completeSubmission_clean (h : st.completeSubmission operationId key .clean = (.ok (), st')) :
    ∃ run, st.Runs operationId key run ∧ st.CompletesAs key run st' .clean ∧
      st'.tempCounters = (st.retainTempIdFloor key).tempCounters ∧
      st'.postedDrafts = st.postedDrafts ++ removals run st.entries.rows := by
  obtain ⟨run, hrun, -, hclean⟩ := completeSubmission_ok h
  refine ⟨run, hrun, hclean, ?_⟩
  have hposted : (st.retainTempIdFloor key).postedDrafts = st.postedDrafts := by
    unfold retainTempIdFloor
    split <;> rfl
  unfold completeSubmission at h
  split at h
  · cases h
  simp only [hrun.active] at h
  split at h
  · cases h
  split at h
  · cases h
  · split at h <;> cases h
    exact ⟨rfl, by rw [← hposted]⟩

theorem reserveTempId_entries (st : InMemoryStore) (key : RemoteReviewIdentity) :
    (st.reserveTempId key).2.entries = st.entries := by
  unfold reserveTempId
  split <;> rfl

/-- What an operation does to the rows and to the ids: most only change states. -/
inductive Effect (st : InMemoryStore) : StoreOp → InMemoryStore → Prop where
  | same {op : StoreOp} {st' : InMemoryStore} (unreserved : ∀ key, op ≠ .reserveTempId key)
      (rows : st.SameParents st') (ids : st.SameIds st') : Effect st op st'
  | put {key : RemoteReviewIdentity} {incoming : Draft} {stored : Option Parent}
      {st' : InMemoryStore} (h : st.put key incoming = (.ok stored, st')) :
      Effect st (.put key incoming) st'
  | delete {key : RemoteReviewIdentity} {deletion : DraftSubtreeDelete} {st' : InMemoryStore}
      (h : st.Deleted key deletion st') : Effect st (.deleteDraftSubtree key deletion) st'
  | clean {operationId : OperationId} {key : RemoteReviewIdentity} {run : ActiveSubmissionRun}
      {st' : InMemoryStore} (runs : st.Runs operationId key run)
      (completes : st.CompletesAs key run st' .clean)
      (ids : st'.tempCounters = (st.retainTempIdFloor key).tempCounters ∧
        st'.postedDrafts = st.postedDrafts ++ removals run st.entries.rows) :
      Effect st (.completeSubmission operationId key .clean) st'
  | reserve {key : RemoteReviewIdentity} : Effect st (.reserveTempId key) (st.reserveTempId key).2

theorem apply_outcome (st : InMemoryStore) (op : StoreOp) :
    st.Performed op (st.apply op) ∧ st.Effect op (st.apply op) := by
  rcases hresult : st.perform op with ⟨err | value, st'⟩
  · rw [apply, hresult, perform_error hresult]
    obtain ⟨hentries, -, -, hcounters, hposted, -⟩ := spent_kept st op
    refine ⟨.failed, .same ?_ (.of_entries hentries) ⟨hcounters, hposted⟩⟩
    rintro key rfl
    cases hresult
  · rw [apply, hresult]
    cases op with
    | put key incoming =>
      obtain ⟨stored, hput, -⟩ := returning_ok.mp hresult
      exact ⟨.put hput, .put hput⟩
    | editDraftBody key edit =>
      obtain ⟨_, hok, -⟩ := returning_ok.mp hresult
      have hedited := editDraftBody_edited st key edit
      rw [hok] at hedited
      obtain ⟨d, -, -, -, rfl⟩ := editDraftBody_ok hok
      exact ⟨.edited trivial hedited,
        .same (by simp) (setDraft_sameParents _ _ (fun _ => rfl)) ⟨rfl, rfl⟩⟩
    | reanchorDraft key reanchor =>
      obtain ⟨_, hok, -⟩ := returning_ok.mp hresult
      have hedited := reanchorDraft_edited st key reanchor
      rw [hok] at hedited
      obtain ⟨d, -, -, -, -, -, rfl⟩ := reanchorDraft_ok hok
      exact ⟨.edited trivial hedited,
        .same (by simp) (setDraft_sameParents _ _ (fun _ => rfl)) ⟨rfl, rfl⟩⟩
    | deleteDraftSubtree key deletion =>
      obtain ⟨_, hok, -⟩ := returning_ok.mp hresult
      have hedited := deleteDraftSubtree_edited st key deletion
      rw [hok] at hedited
      exact ⟨.edited trivial hedited, .delete (deleteDraftSubtree_ok hok)⟩
    | beginSubmission key sourceCommit items =>
      obtain ⟨operationId, hok, -⟩ := returning_ok.mp hresult
      obtain ⟨run, first, hbegun⟩ := beginSubmission_ok hok
      have hids := beginSubmission_sameIds st key sourceCommit items
      rw [hok] at hids
      refine ⟨.begun hbegun, .same (by simp) (.of_rows ?_) hids⟩
      intro key' t
      rw [hbegun.rows]
      split
      · next h => exact .inr ⟨.submitting, by rw [h.1, h.2]⟩
      · exact .inl rfl
    | checkpointSubmission operationId key completed outcome next =>
      obtain ⟨_, hok, -⟩ := returning_ok.mp hresult
      obtain ⟨run, hrun, hcheck⟩ := checkpointSubmission_ok hok
      have hids := checkpointSubmission_sameIds st operationId key completed outcome next
      rw [hok] at hids
      refine ⟨.checkpointed hrun hcheck, .same (by simp) (.of_rows ?_) hids⟩
      intro key' t
      rw [hcheck.rows]
      split
      · next h => exact .inr ⟨outcome.draftState, by rw [h.1, h.2]⟩
      · split
        · next h => exact .inr ⟨.submitting, by rw [h.1]⟩
        · exact .inl rfl
    | checkpointSubmissionRetry operationId key tempId checkpoint =>
      obtain ⟨_, hok, -⟩ := returning_ok.mp hresult
      obtain ⟨run, hrun, -, rfl⟩ := checkpointSubmissionRetry_ok hok
      exact ⟨.retried hrun, .same (by simp) (.of_entries rfl) ⟨rfl, rfl⟩⟩
    | completeSubmission operationId key completion =>
      obtain ⟨_, hok, -⟩ := returning_ok.mp hresult
      obtain ⟨run, hrun, hdone, hcompletes⟩ := completeSubmission_ok hok
      refine ⟨.completed hrun hdone hcompletes, ?_⟩
      by_cases hclean : completion = .clean
      · subst hclean
        obtain ⟨run, hrun, hcompletes, hids⟩ := completeSubmission_clean hok
        exact .clean hrun hcompletes hids
      · obtain ⟨hrows, hids⟩ := completeSubmission_same hclean hok
        exact .same (by simp) hrows hids
    | abandonSubmission operationId key =>
      obtain ⟨_, hok, -⟩ := returning_ok.mp hresult
      obtain ⟨run, current, d, hrun, hdone, hcurrent, -, -, hentries⟩ := abandonSubmission_ok hok
      have hids := abandonSubmission_sameIds st operationId key
      rw [hok] at hids
      exact ⟨.abandoned hrun hdone hcurrent hentries,
        .same (by simp) ((setState_sameParents .outcomeUnknown).of_entries_eq hentries) hids⟩
    | resolveUnknown key tempId resolution =>
      obtain ⟨_, hok, -⟩ := returning_ok.mp hresult
      have hedited := resolveUnknown_edited st key tempId resolution
      rw [hok] at hedited
      obtain ⟨d, -, -, -, rfl⟩ := resolveUnknown_ok hok
      exact ⟨.edited trivial hedited, .same (by simp) (setState_sameParents _) ⟨rfl, rfl⟩⟩
    | reserveTempId key =>
      cases hresult
      exact ⟨.edited trivial (reserveTempId_edited st key), .reserve⟩

theorem apply_performed (st : InMemoryStore) (op : StoreOp) : st.Performed op (st.apply op) :=
  (apply_outcome st op).1

theorem apply_effect (st : InMemoryStore) (op : StoreOp) : st.Effect op (st.apply op) :=
  (apply_outcome st op).2

def after (st : InMemoryStore) (ops : List StoreOp) : InMemoryStore := ops.foldl apply st

@[simp] theorem after_nil (st : InMemoryStore) : st.after [] = st := rfl

@[simp] theorem after_cons (st : InMemoryStore) (op : StoreOp) (ops : List StoreOp) :
    st.after (op :: ops) = (st.apply op).after ops := rfl

@[simp] theorem after_append (st : InMemoryStore) (ops ops' : List StoreOp) :
    st.after (ops ++ ops') = (st.after ops).after ops' := List.foldl_append

theorem after_keeps (allowed : StoreOp → Prop) (inv : InMemoryStore → Prop)
    (hstep : ∀ {st op}, allowed op → inv st → inv (st.apply op)) {ops : List StoreOp}
    (hall : ∀ op ∈ ops, allowed op) (h : inv st) : inv (st.after ops) := by
  induction ops generalizing st with
  | nil => exact h
  | cons op rest ih =>
    exact ih (fun o ho => hall o (List.mem_cons_of_mem _ ho)) (hstep (hall op List.mem_cons_self) h)

end InMemoryStore

end Bbr.Review
