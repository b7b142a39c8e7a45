import Bbr.Review.StoreOp

/-!
# The active run in the store

What every reachable store says about its active run, when Drafts are put the way authoring puts them.
The rows and the run fit each other because every other operation keeps away from the participants, and
a run passes through its participants in their order because only a checkpoint moves it.
-/
namespace Bbr.Review

open Bbr.Bitbucket Bbr.Lib

/-- Authoring puts Drafts that nothing has been done with. -/
def StoreOp.Authors : StoreOp → Prop
  | .put _ incoming => incoming.state = .draft
  | _ => True

/-- The operations on an active run. -/
def StoreOp.OfDriver : StoreOp → Prop
  | .checkpointSubmission _ _ _ _ _ => True
  | .checkpointSubmissionRetry _ _ _ _ => True
  | .completeSubmission _ _ _ => True
  | .abandonSubmission _ _ => True
  | _ => False

/-- A later record of the same run: the participants are the same, and the one in flight is the
same or comes later among them. -/
structure Advances (run run' : ActiveSubmissionRun) : Prop where
  key : run'.key = run.key
  items : run'.items = run.items
  over_stays : run.currentTempId = none → run'.currentTempId = none
  later : ∀ a b, run.currentTempId = some a → run'.currentTempId = some b → a = b ∨
    ∃ i j, submissionItemIndex run.items.items a = some i ∧
      submissionItemIndex run.items.items b = some j ∧ i < j

theorem Advances.of_same {run run' : ActiveSubmissionRun} (hkey : run'.key = run.key)
    (hitems : run'.items = run.items) (hcurrent : run'.currentTempId = run.currentTempId) :
    Advances run run' where
  key := hkey
  items := hitems
  over_stays := fun h => hcurrent.trans h
  later := by
    intro a b ha hb
    rw [hcurrent, ha] at hb
    exact .inl (Option.some.inj hb)

theorem Advances.refl (run : ActiveSubmissionRun) : Advances run run := .of_same rfl rfl rfl

theorem Advances.trans {run run' run'' : ActiveSubmissionRun} (h : Advances run run')
    (h' : Advances run' run'') : Advances run run'' where
  key := h'.key.trans h.key
  items := h'.items.trans h.items
  over_stays := fun hnone => h'.over_stays (h.over_stays hnone)
  later := by
    intro a c ha hc
    cases hb : run'.currentTempId with
    | none =>
      rw [h'.over_stays hb] at hc
      cases hc
    | some b =>
      have hbc := h'.later b c hb hc
      rw [h.items] at hbc
      rcases h.later a b ha hb with rfl | ⟨i, j, hi, hj, hij⟩
      · exact hbc
      rcases hbc with rfl | ⟨j', k, hj', hk, hjk⟩
      · exact .inr ⟨i, j, hi, hj, hij⟩
      · rw [hj] at hj'
        cases hj'
        exact .inr ⟨i, k, hi, hk, by omega⟩

namespace InMemoryStore

variable {st st' : InMemoryStore} {op : StoreOp} {key : RemoteReviewIdentity} {tempId : TempId}

theorem comesAfter_iff {items : List SubmissionRunItem} {a b : TempId} :
    comesAfter items a b = true ↔ ∃ i j, submissionItemIndex items a = some i ∧
      submissionItemIndex items b = some j ∧ i < j := by
  unfold comesAfter
  cases submissionItemIndex items a <;> cases submissionItemIndex items b <;> simp

theorem Sound.apply (hs : st.Sound) (hop : op.Authors) : (st.apply op).Sound := by
  have hdid := st.apply_performed op
  generalize st.apply op = st' at hdid ⊢
  cases hdid with
  | failed =>
    obtain ⟨hentries, hactive, hoperations, -⟩ := spent_kept st op
    exact hs.congr (draftEntry_mk_entries st _ hentries) hoperations (.inl hactive)
  | @put key incoming stored _ hok =>
    have hedited := put_edited st key incoming (by rw [show incoming.state = .draft from hop]; simp)
    rw [hok] at hedited
    exact hs.edited hedited
  | edited _ hedited => exact hs.edited hedited
  | begun hbegun => exact hs.begun hbegun
  | checkpointed hrun hcheck => exact hs.checkpointed hrun hcheck
  | retried hrun => exact hs.congr rfl rfl (.inr ⟨_, _, hrun.active, rfl⟩)
  | completed hrun hdone hcompletes => exact hs.completedAs hrun hdone hcompletes
  | abandoned hrun hdone hcurrent hentries =>
    exact hs.settled hrun hcurrent (by simp) hdone.idle hentries

/-- Where the active run after an operation comes from. -/
structure RunFrom (st st' : InMemoryStore) : Prop where
  operations : st.nextOperationId ≤ st'.nextOperationId
  origin : ∀ run', st'.activeRun = some run' →
    (∃ run, st.activeRun = some run ∧ run.operationId = run'.operationId ∧ Advances run run') ∨
      run'.operationId = st.nextOperationId

theorem RunFrom.same (hoperations : st'.nextOperationId = st.nextOperationId)
    (hactive : st'.activeRun = st.activeRun) : st.RunFrom st' where
  operations := Nat.le_of_eq hoperations.symm
  origin := fun run' hrun' => .inl ⟨run', hactive ▸ hrun', rfl, .refl run'⟩

theorem RunFrom.edited (h : st.Edited st') : st.RunFrom st' := .same h.operations h.active

theorem RunFrom.completed (h : st.Completed st') : st.RunFrom st' where
  operations := Nat.le_of_eq h.operations.symm
  origin := by
    rw [h.idle]
    rintro run' ⟨⟩

theorem RunFrom.checkpointed {operationId : OperationId} {run : ActiveSubmissionRun}
    {outcome : SubmissionOutcome} {next : Option TempId} (hrun : st.Runs operationId key run)
    (h : st.Checkpointed key run tempId outcome next st') : st.RunFrom st' where
  operations := Nat.le_of_eq h.operations.symm
  origin := by
    rw [h.active]
    rintro run' ⟨⟩
    refine .inl ⟨run, hrun.active, rfl, rfl, rfl, ?_, ?_⟩
    · intro hnone
      rw [h.current] at hnone
      cases hnone
    · intro a b ha hb
      rw [h.current, Option.some.injEq] at ha
      subst ha
      exact .inr (comesAfter_iff.mp (h.next_after b hb))

theorem apply_runFrom (st : InMemoryStore) (op : StoreOp) : st.RunFrom (st.apply op) := by
  have hdid := st.apply_performed op
  generalize st.apply op = st' at hdid ⊢
  cases hdid with
  | failed =>
    obtain ⟨-, hactive, hoperations, -⟩ := spent_kept st op
    exact .same hoperations hactive
  | put hok =>
    obtain ⟨-, -, rfl⟩ := put_ok hok
    exact .same rfl rfl
  | edited _ hedited => exact .edited hedited
  | begun hbegun =>
    refine ⟨by rw [hbegun.operations]; exact Nat.le_succ _, ?_⟩
    rw [hbegun.active]
    rintro run' ⟨⟩
    exact .inr (hbegun.fresh.2.trans hbegun.fresh.1)
  | checkpointed hrun hcheck => exact .checkpointed hrun hcheck
  | @retried _ _ _ _ run hrun =>
    refine ⟨Nat.le_refl _, ?_⟩
    rintro run' ⟨⟩
    exact .inl ⟨run, hrun.active, rfl, .of_same rfl rfl rfl⟩
  | completed _ hdone _ | abandoned _ hdone _ _ => exact .completed hdone

theorem apply_same_run {run' : ActiveSubmissionRun} (hop : op.OfDriver)
    (h : (st.apply op).activeRun = some run') :
    ∃ run, st.activeRun = some run ∧ run.key = run'.key ∧ run.items = run'.items := by
  have hdid := st.apply_performed op
  generalize st.apply op = st' at hdid h
  cases hdid with
  | failed => exact ⟨run', (spent_kept st op).2.1 ▸ h, rfl, rfl⟩
  | edited _ hedited => exact ⟨run', hedited.active ▸ h, rfl, rfl⟩
  | @checkpointed _ _ _ _ _ run _ hrun hcheck =>
    rw [hcheck.active, Option.some.injEq] at h
    subst h
    exact ⟨run, hrun.active, rfl, rfl⟩
  | @retried _ _ _ _ run hrun =>
    cases h
    exact ⟨run, hrun.active, rfl, rfl⟩
  | completed _ hdone _ | abandoned _ hdone _ _ => rw [hdone.idle] at h; cases h
  | put _ | begun _ => cases hop

/-- A run id is not given out again, so two records with one id are records of one run. -/
theorem after_advances {run run' : ActiveSubmissionRun} (hs : st.Sound)
    (hrun : st.activeRun = some run) (ops : List StoreOp)
    (hrun' : (st.after ops).activeRun = some run') (hid : run'.operationId = run.operationId) :
    Advances run run' := by
  let follows (s : InMemoryStore) : Prop := run.operationId < s.nextOperationId ∧
    ∀ r, s.activeRun = some r → r.operationId = run.operationId → Advances run r
  have hstart : follows st := by
    refine ⟨hs.fresh run hrun, ?_⟩
    intro r hr _
    rw [hrun] at hr
    cases hr
    exact .refl run
  have hstep : ∀ {s op}, True → follows s → follows (s.apply op) := by
    intro s op _ hf
    have hfrom := s.apply_runFrom op
    refine ⟨Nat.lt_of_lt_of_le hf.1 hfrom.operations, ?_⟩
    intro r hr hsame
    rcases hfrom.origin r hr with ⟨r₁, hr₁, hid₁, hadv⟩ | hfresh
    · exact (hf.2 r₁ hr₁ (hid₁.trans hsame)).trans hadv
    · exact absurd (hfresh.symm.trans hsame) (Nat.ne_of_gt hf.1)
  exact (after_keeps (fun _ => True) follows hstep (fun _ _ => trivial) hstart).2 run' hrun' hid

/-- What a store says about its active run. -/
structure RunInvariant (st : InMemoryStore) : Prop where
  /-- While a run is active no other begins. -/
  one : ∀ run, st.activeRun = some run → ∀ key sourceCommit items,
    (st.beginSubmission key sourceCommit items).1 = .error .submissionAlreadyActive
  /-- The participant in flight is the only Draft that is submitting. -/
  flight : ∀ run t, st.activeRun = some run → run.currentTempId = some t →
    t ∈ run.items.items.map SubmissionRunItem.tempId ∧
    (∃ d, st.draftEntry run.key t = some d ∧ d.target = .bitbucket ∧ d.state = .submitting) ∧
    ∀ key t' d, st.draftEntry key t' = some d → d.state = .submitting → key = run.key ∧ t' = t
  /-- With nothing in flight nothing is submitting. -/
  quiet : (∀ run, st.activeRun = some run → run.currentTempId = none) →
    ∀ key t d, st.draftEntry key t = some d → d.state ≠ .submitting
  /-- The participants are stored with their frozen parents. -/
  frozen : ∀ run, st.activeRun = some run → ∀ item ∈ run.items.items,
    ∃ d, st.draftEntry run.key item.tempId = some d ∧ d.parent = item.parent
  /-- A run goes through its participants in their order. -/
  forward : ∀ run, st.activeRun = some run → ∀ more run', (st.after more).activeRun = some run' →
    run'.operationId = run.operationId → Advances run run'

theorem Sound.runInvariant (hs : st.Sound) : st.RunInvariant where
  one := by
    intro run hrun key sourceCommit items
    simp [beginSubmission, hrun]
  flight := by
    intro run t hrun ht
    obtain ⟨hmem, d, hd, hsub⟩ := hs.current run t hrun ht
    refine ⟨hmem, ⟨d, hd, ?_, hsub⟩, ?_⟩
    · obtain ⟨item, hitem, rfl⟩ := List.mem_map.mp hmem
      obtain ⟨d', hd', htarget, -⟩ := hs.participants run hrun item hitem
      rw [hd] at hd'
      cases hd'
      exact htarget
    · intro key t' d' hd' hsub'
      obtain ⟨run', hrun', hkey, ht'⟩ := hs.submitting key t' d' hd' hsub'
      rw [hrun] at hrun'
      cases hrun'
      rw [ht, Option.some.injEq] at ht'
      exact ⟨hkey.symm, ht'.symm⟩
  quiet := by
    intro hquiet key t d hd hsub
    obtain ⟨run, hrun, -, ht⟩ := hs.submitting key t d hd hsub
    rw [hquiet run hrun] at ht
    cases ht
  frozen := by
    intro run hrun item hitem
    obtain ⟨d, hd, -, hparent⟩ := hs.participants run hrun item hitem
    exact ⟨d, hd, hparent⟩
  forward := fun run hrun more run' hrun' hid => after_advances hs hrun more hrun' hid

/-- Every store reached by authoring and Submission runs satisfies the run invariant. -/
theorem run_invariant (ops : List StoreOp) (hops : ∀ op ∈ ops, op.Authors) :
    (({} : InMemoryStore).after ops).RunInvariant := by
  have hempty : Sound {} := .of_idle rfl (fun key t d hd => by cases hd)
  exact (after_keeps StoreOp.Authors Sound (fun hop hs => hs.apply hop) hops hempty).runInvariant

/-- A run of two Drafts that is at its second one. -/
theorem run_invariant_second :
    (({} : InMemoryStore).after [.put ⟨[], [], 7⟩ { localId := 1 },
      .put ⟨[], [], 7⟩ { localId := 2, parent := some (.draft 1) },
      .beginSubmission ⟨[], [], 7⟩ [] [⟨1, none⟩, ⟨2, some (.draft 1)⟩],
      .checkpointSubmission 1 ⟨[], [], 7⟩ 1 (.posted 70) (some 2)]).RunInvariant := by
  apply run_invariant
  simp [StoreOp.Authors]

end InMemoryStore

end Bbr.Review
