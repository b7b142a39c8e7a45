import Bbr.Tui.Aborts
import Bbr.Tui.PostCover
import Bbr.Tui.SubmissionTreeStored

/-!
# The driver and the store agree

Over every history, whatever fails or crashes in it, the running Submission and the active run of the
store are about the same Drafts in the same states, and a stored retry is one the machine can have
written. As long as no run is abandoned and no check queues the next POST, one command at most is out.
-/
namespace Bbr.Tui

open Bbr.Bitbucket Bbr.Review Bbr.Lib Submission Presentation

variable {s : Presentation} {d : DurableSubmission} {es : List Input}

/-- The active run is that of the Submission, and the copy of every participant is the stored Draft.
Only a first participant whose intent is stored still shows what it was before. -/
structure Accords (d : DurableSubmission) (st : InMemoryStore) : Prop where
  run : ∃ run, st.Runs d.operationId d.key run ∧ run.currentTempId = d.currentTempId ∧
    run.items.items.map SubmissionRunItem.tempId = participantIds d
  drafts : ∀ t ∈ participantIds d, ∃ dr ds, d.review.getConst t = some dr ∧
    st.draftEntry d.key t = some ds ∧
    (ds = dr ∨ (AtFirst d t ∧ dr.state.isPending = true ∧ ds = dr.withState .submitting))

theorem accords_of_backed {g : Memory} {st : InMemoryStore} (h : Backed g d st) : Accords d st where
  run := h.run
  drafts := by
    intro t ht
    obtain ⟨dr, ds, hdr, hds, hcase⟩ := h.mirrors t ht
    refine ⟨dr, ds, hdr, hds, hcase.imp_right ?_⟩
    rintro ⟨hfirst, -, hpending, hsub⟩
    exact ⟨hfirst, hpending, hsub⟩

theorem inv_of_any {st : InMemoryStore} {requireSourceCheck : Bool} (hst : Idle st)
    (h : Run Steps (boot st requireSourceCheck) es s) : Inv anything blank s :=
  inv_of_history hst (.inl trivial) (h.mono (fun hstep => ⟨hstep, allows_anything _ _⟩))

/-- In every state of every history the driver and the store agree, and nothing is queued without a
running Submission. -/
theorem driver_agrees (st : InMemoryStore) (requireSourceCheck : Bool) (es : List Input)
    (s : Presentation) (hst : Idle st) (h : Run Steps (boot st requireSourceCheck) es s) :
    (∀ d, s.durable = some d → Accords d s.reviews) ∧ (s.durable = none → s.commands = []) := by
  have hinv := inv_of_any hst h
  exact ⟨fun d hd => accords_of_backed (hinv.serves d hd).backed, hinv.rest⟩

section Recorded

open SubmissionTree (recorded)

variable {g : Memory} {p : Permits} {st st' : InMemoryStore} {t c : TempId} {o : SubmissionOutcome}

/-- Writing the outcomes of a machine changes no participant but the current one. -/
theorem getConst_recorded_written (hc : Consistent d) (hcur : d.currentTempId = some c)
    (ht : t ∈ participantIds d) (hne : t ≠ c) :
    (recorded d.review d.machine).getConst t = d.review.getConst t := by
  obtain ⟨i, hle, hat⟩ := exists_index ht
  obtain ⟨dr, hdr, -⟩ := hc.remote t ht
  rw [SubmissionTree.getConst_recorded hc.sized hc.nodup hat, hdr, Option.map_some]
  unfold SubmissionTree.withOutcome
  split
  · next outcome hbind =>
    obtain ⟨r, hr, ho⟩ := Option.bind_eq_some_iff.mp hbind
    obtain ⟨dr', hdr', hstate⟩ := hc.ledger c hcur i t r outcome hle hat hr ho hne
    rw [hdr] at hdr'
    cases hdr'
    rw [← hstate]
    rfl
  · rfl

theorem getConst_recorded_decided (hc : Consistent d) (hdecided : DecidedAs d c o) :
    (recorded d.review d.machine).getConst c =
      (d.review.getConst c).map (fun draft => draft.withState o.draftState) := by
  obtain ⟨i, r, -, -, hat, hr, ho⟩ := hdecided
  rw [SubmissionTree.getConst_recorded hc.sized hc.nodup hat, hr]
  unfold SubmissionTree.withOutcome
  rw [Option.bind_some, ho]

/-- In every state of every history the Drafts that the tree of a finished run is drawn from are
stored for every participant but the current one. -/
theorem recorded_stored {requireSourceCheck : Bool} (hst : Idle st)
    (h : Run Steps (boot st requireSourceCheck) es s) (hd : s.durable = some d)
    (hcur : d.currentTempId = some c) (ht : t ∈ participantIds d) (hne : t ≠ c) :
    s.reviews.draftEntry d.key t = (recorded d.review d.machine).getConst t := by
  have hserves := (inv_of_any hst h).serves d hd
  obtain ⟨dr, ds, hdr, hds, hcase⟩ := hserves.backed.mirrors t ht
  have hsame : ds = dr := by
    rcases hcase with hsame | ⟨⟨-, hfirst, -⟩, -⟩
    · exact hsame
    · exact absurd (Option.some.inj (hfirst.symm.trans hcur)) hne
  rw [getConst_recorded_written hserves.consistent hcur ht hne, hds, hdr, hsame]

/-- The write of the last outcome leaves all of them in the store. -/
theorem recorded_finished (hs : Stored p st) (hb : Backed g d st) (hc : Consistent d)
    (hcur : d.currentTempId = some c) (hdecided : DecidedAs d c o)
    (h : st.checkpointSubmission d.operationId d.key c o none = (.ok (), st'))
    (ht : t ∈ participantIds d) :
    st'.draftEntry d.key t = (recorded d.review d.machine).getConst t := by
  obtain ⟨-, -, -, hwritten⟩ := checkpoint_written g hs hb hc hcur (by rintro n ⟨⟩) h
  obtain ⟨dr, ds, hdr, hds, hcase⟩ := (hwritten rfl).1.mirrors t ht
  have hsame : ds = dr := by
    rcases hcase with hsame | ⟨⟨-, hfirst, -⟩, -⟩
    · exact hsame
    · cases hfirst
  have hentry : st'.draftEntry d.key t = (d.recordCheckpoint c o none).review.getConst t := by
    rw [hdr, ← hsame]
    exact hds
  have hlast : none ≠ some c := by simp
  rw [hentry, getConst_recordCheckpoint d o hlast t]
  by_cases heq : t = c
  · rw [if_pos heq, heq, getConst_recorded_decided hc hdecided]
  · rw [if_neg heq, if_neg (by simp), getConst_recorded_written hc hcur ht heq]

end Recorded

/-- The first of two Drafts is rejected for now, and its retry stored. -/
def rejectedFirst : Presentation := replay (boot twoDrafts false)
  [.start ⟨[], [], 1⟩ [] none, .take, .postCompleted 0 (.rejected .serverError) none]

theorem rejectedFirst_run : Run Steps (boot twoDrafts false)
    [.start ⟨[], [], 1⟩ [] none, .take, .postCompleted 0 (.rejected .serverError) none]
    rejectedFirst := .cons rfl (.cons rfl (.cons rfl (.nil _)))

theorem driver_agrees_rejectedFirst :
    ∃ d, rejectedFirst.durable = some d ∧ Accords d rejectedFirst.reviews := by
  have hsome : rejectedFirst.durable.isSome = true := by decide
  obtain ⟨d, hd⟩ := Option.isSome_iff_exists.mp hsome
  exact ⟨d, hd, (driver_agrees twoDrafts false _ _ (Idle.of_rows rfl (by decide))
    rejectedFirst_run).1 d hd⟩

/-- Whatever retry a crash leaves behind, its delay and its budgets are those of the machine. -/
theorem stored_retries_valid (st : InMemoryStore) (requireSourceCheck : Bool) (es : List Input)
    (s : Presentation) (run : ActiveSubmissionRun) (checkpoint : SubmissionRetryCheckpoint) (hst : Idle st)
    (h : Run Steps (boot st requireSourceCheck) es s) (hrun : s.reviews.activeRun = some run)
    (hretry : run.retry = some checkpoint) : ValidRetry checkpoint :=
  (inv_of_any hst h).stored.retries run checkpoint hrun hretry

theorem stored_retries_valid_rejectedFirst : ∃ run checkpoint,
    rejectedFirst.reviews.activeRun = some run ∧ run.retry = some checkpoint ∧
      ValidRetry checkpoint := by
  have hsome : (rejectedFirst.reviews.activeRun.bind (fun run => run.retry)).isSome = true := by
    decide
  obtain ⟨checkpoint, hbind⟩ := Option.isSome_iff_exists.mp hsome
  obtain ⟨run, hrun, hretry⟩ := Option.bind_eq_some_iff.mp hbind
  exact ⟨run, checkpoint, hrun, hretry, stored_retries_valid twoDrafts false _ _ run checkpoint
    (Idle.of_rows rfl (by decide)) rejectedFirst_run hrun hretry⟩

/-- At most one command is queued or out, and it belongs to the running Submission. -/
structure OneOut (s : Presentation) : Prop where
  one : (s.commands ++ s.issued).length ≤ 1
  own : ∀ command ∈ s.commands ++ s.issued, ∃ d, s.durable = some d ∧
    command.operationId = d.operationId

theorem oneOut_of_inv {g : Memory} (h : Inv checkpointing g s) : OneOut s := by
  have howned : ∀ command ∈ s.issued, ∃ d, s.durable = some d ∧
      command.operationId = d.operationId := h.owned.resolve_left id
  cases hd : s.durable with
  | none =>
    have hissued : s.issued = [] := by
      refine List.eq_nil_iff_forall_not_mem.mpr (fun command hmem => ?_)
      obtain ⟨d, hsome, -⟩ := howned command hmem
      rw [hd] at hsome
      cases hsome
    refine ⟨by simp [h.rest hd, hissued], fun command hmem => ?_⟩
    simp [h.rest hd, hissued] at hmem
  | some d =>
    have hown : own d s.issued = s.issued := by
      refine List.filter_eq_self.mpr (fun command hmem => ?_)
      obtain ⟨d', hsome, hid⟩ := howned command hmem
      rw [hd] at hsome
      cases hsome
      exact decide_eq_true hid
    have hstanding := (h.serves d hd).standing
    rw [hown] at hstanding
    rcases hstanding.out with ⟨hq, hi⟩ | ⟨c, hq, hi, hc, -⟩ | ⟨c, hq, hi, -⟩ | ⟨hp, -⟩
    · exact ⟨by simp [hq, hi], fun command hmem => by simp [hq, hi] at hmem⟩
    · refine ⟨by simp [hq, hi], fun command hmem => ?_⟩
      rw [hq, hi] at hmem
      rw [List.mem_singleton.mp hmem]
      exact ⟨d, hd, hc⟩
    · refine ⟨by simp [hq, hi], fun command hmem => ?_⟩
      rw [hq] at hmem
      exact howned command hmem
    · exact hp.elim

/-- In every history without an abandoned run, in which no answer of a publication check leaves the
machine at the next POST, one command at most is out in every state. -/
theorem one_command_out (st : InMemoryStore) (requireSourceCheck : Bool) (es : List Input)
    (s : Presentation) (hst : Idle st)
    (h : Run (fun s e t => Steps s e t ∧ ¬ Abandons s e ∧ ¬ StrandsAt s e)
      (boot st requireSourceCheck) es s) : OneOut s := by
  have hrun : Run (Within checkpointing) (boot st requireSourceCheck) es s := by
    refine h.mono ?_
    rintro s e t ⟨hstep, ha, hs⟩
    exact ⟨hstep, allows_checkpointing hs ha⟩
  exact oneOut_of_inv (inv_of_history hst (.inl trivial) hrun)

theorem one_command_out_rejectedFirst :
    OneOut rejectedFirst ∧ (rejectedFirst.commands ++ rejectedFirst.issued).length = 1 := by
  have hother : ∀ {s : Presentation} {e : Input}, ¬ AbandonsAt e → ¬ Abandons s e :=
    fun h habandons => h habandons.1
  refine ⟨one_command_out twoDrafts false [.start ⟨[], [], 1⟩ [] none, .take, .abandon,
    .postCompleted 0 (.rejected .serverError) none] _ (Idle.of_rows rfl (by decide))
    (.cons ⟨rfl, hother id, id⟩ (.cons ⟨rfl, hother id, id⟩ (.cons ⟨rfl, ?_, id⟩
      (.cons ⟨rfl, hother id, id⟩ (.nil _))))), by decide⟩
  -- The run was not recovered.
  rintro ⟨-, -, habandoned⟩
  exact absurd habandoned (by decide)

end Bbr.Tui
