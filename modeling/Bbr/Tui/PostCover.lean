import Bbr.Tui.History

/-!
# A POST goes out only after the store has caught up

Whenever a POST is queued or in flight, the active run names its Draft, the Draft is stored as
submitting, everything decided before it is stored, and its completion will be admitted. The one way
out is a publication check that decides its participant: its answer queues the next POST without a
checkpoint.
-/
namespace Bbr.Tui

open Bbr.Bitbucket Bbr.Review Bbr.Lib Submission Presentation

variable {g : Memory} {s : Presentation} {d : DurableSubmission} {post : PostDraft}

/-- Every participant of the run that the machine has decided is stored with its outcome. -/
def DecidedStored (d : DurableSubmission) (st : InMemoryStore) : Prop :=
  ∀ i t r o, d.runStart ≤ i → d.machine.order[i]? = some t → d.machine.result i = some r →
    resultOutcome r = some o → ∃ ds, st.draftEntry d.key t = some ds ∧ ds.state = o.draftState

/-- The active run of this operation names the Draft of the POST, which is stored as submitting, and
no decision is missing from the store. -/
structure Covers (st : InMemoryStore) (d : DurableSubmission) (post : PostDraft) : Prop where
  run : ∃ run, st.activeRun = some run ∧ run.operationId = post.operationId ∧
    run.key = post.identity ∧ run.currentTempId = some post.draft.localId
  submitting : ∃ ds, st.draftEntry post.identity post.draft.localId = some ds ∧
    ds.state = .submitting
  decided : DecidedStored d st

/-- Every POST queued or in flight is covered, and its completion is admitted: at once when it is in
flight, and as soon as it is taken when it is queued. -/
structure Covered (s : Presentation) : Prop where
  queued : ∀ post, .postDraft post ∈ s.commands → ∃ d, s.durable = some d ∧
    Covers s.reviews d post ∧
    ∃ d', s.takeCommand.durable = some d' ∧ .postDraft post ∈ s.takeCommand.issued ∧
      admitsPost .awaitingPost d' post = true
  inFlight : ∀ post, .postDraft post ∈ s.issued → ∃ d, s.durable = some d ∧
    Covers s.reviews d post ∧ admitsPost .awaitingPost d post = true

/-- Everything may happen, except that a publication check queues the next POST, and that a run is
abandoned. -/
def checkpointing : Permits where
  strands := False
  loses := True
  unrestored := True
  stalls := True
  abandons := False
  refuses := True

theorem allows_checkpointing {e : Input} (hs : ¬ StrandsAt s e) (ha : ¬ Abandons s e) :
    Allows checkpointing s e where
  strands := hs
  loses := fun _ => trivial
  unrestored := fun _ => trivial
  stalls := fun _ => trivial
  abandons := ha
  refuses := fun _ => trivial

variable {st : InMemoryStore} {t : TempId} {dr : Draft} {parent : Option CommentId}

theorem decidedStored (hc : Consistent d) (hb : Backed g d st) (hin : InHand d t dr parent) :
    DecidedStored d st := by
  intro i x r o hle hx hr ho
  have hne : x ≠ t := by
    rintro rfl
    have hi : i = d.machine.idx := hc.index_eq hx hin.flight.at_idx
    subst hi
    rw [hin.flight.undecided] at hr
    cases hr
  obtain ⟨dx, hdx, hstate⟩ := hc.ledger t hin.current i x r o hle hx hr ho hne
  obtain ⟨dx', ds, hdx', hds, hcase⟩ := hb.mirrors x (mem_participantIds hle hx)
  rw [hdx] at hdx'
  cases hdx'
  rcases hcase with rfl | ⟨hfirst, -⟩
  · exact ⟨ds, hds, hstate⟩
  · have hcur := hfirst.2.1
    rw [hin.current] at hcur
    exact absurd (Option.some.inj hcur).symm hne

theorem covers_of_atPost {p : Permits} (hs : Stored p st) (hc : Consistent d) (hb : Backed g d st)
    (hin : InHand d t dr parent) (hcar : Carries d dr parent post) : Covers st d post := by
  have ht := hcar.localId hin
  obtain ⟨run, hruns, hcur, -⟩ := hb.run
  obtain ⟨ds, hds, hsub⟩ := hb.submitting hs hin.current
  exact
    { run := ⟨run, hruns.active, hruns.operationId.trans hcar.operation.symm,
        hruns.key.trans hcar.identity.symm, hcur.trans (ht ▸ hin.current)⟩
      submitting := ⟨ds, by rw [hcar.identity, ht]; exact hds, hsub⟩
      decided := decidedStored hc hb hin }

variable {queued issued : List Command}

theorem queued_post (h : Standing checkpointing g d queued issued)
    (hmem : .postDraft post ∈ queued) : d.phase = .postQueued ∧ ∃ t dr parent,
      InHand d t dr parent ∧ Carries d dr parent post ∧ queued = [.postDraft post] := by
  rcases h.out with ⟨rfl, -⟩ | ⟨c, rfl, rfl, -, hphase⟩ | ⟨c, rfl, -⟩ | ⟨hp, -⟩
  · cases hmem
  · obtain rfl := List.mem_singleton.mp hmem
    unfold Standing at h
    rcases hphase with hphase | hphase | hphase | hphase <;> rw [hphase] at h
    · rcases h with ⟨t, dr, parent, c, hat, -, hcar, -, hq, -⟩ | ⟨hp, -⟩
      · cases hq
        exact ⟨hphase, t, dr, parent, hat.toInHand, hcar, rfl⟩
      · exact hp.elim
    · obtain ⟨_, _, _, _, _, hq, _⟩ := h; cases hq
    · obtain ⟨_, _, hq, _⟩ := h; cases hq
    · obtain ⟨_, _, _, _, _, _, hq, _⟩ := h; cases hq
  · cases hmem
  · exact hp.elim

theorem issued_post (h : Standing checkpointing g d queued issued)
    (hmem : .postDraft post ∈ issued) : admitsPost .awaitingPost d post = true ∧ ∃ t dr parent,
      InHand d t dr parent ∧ Carries d dr parent post := by
  rcases h.out with ⟨-, rfl⟩ | ⟨c, -, rfl, -⟩ | ⟨c, rfl, rfl, hawaited⟩ | ⟨hp, -⟩
  · cases hmem
  · cases hmem
  · obtain rfl := List.mem_singleton.mp hmem
    obtain ⟨-, t, dr, parent, hat, hcar⟩ := h.posting hawaited
    exact ⟨hawaited, t, dr, parent, hat.toInHand, hcar⟩
  · exact hp.elim

theorem covered_of_inv (h : Inv checkpointing g s) : Covered s where
  queued := by
    intro post hmem
    cases hd : s.durable with
    | none => rw [h.rest hd] at hmem; cases hmem
    | some d =>
      have hserves := h.serves d hd
      obtain ⟨hphase, t, dr, parent, hin, hcar, hq⟩ := queued_post hserves.standing hmem
      have ht := hcar.localId hin
      refine ⟨d, rfl, covers_of_atPost h.stored hserves.consistent hserves.backed hin hcar,
        { d with phase := takenPhase d (.postDraft post) }, ?_, ?_, ?_⟩
      · simp only [takeCommand, hq, hd, Option.map_some]
      · simp [takeCommand, hq]
      have htaken : takenPhase d (.postDraft post) = .awaitingPost :=
        if_pos ⟨hcar.operation.symm, ht ▸ hin.current, hphase⟩
      rw [htaken]
      exact decide_eq_true ⟨hcar.operation.symm, hcar.identity.symm, ht ▸ hin.current, rfl⟩
  inFlight := by
    intro post hmem
    have hown : ∃ d, s.durable = some d ∧ post.operationId = d.operationId := by
      rcases h.owned with hp | hmine
      · exact hp.elim
      · exact hmine _ hmem
    obtain ⟨d, hd, hop⟩ := hown
    have hserves := h.serves d hd
    have hmem' : .postDraft post ∈ own d s.issued := List.mem_filter.mpr ⟨hmem, decide_eq_true hop⟩
    obtain ⟨hadmits, t, dr, parent, hin, hcar⟩ := issued_post hserves.standing hmem'
    exact ⟨d, hd, covers_of_atPost h.stored hserves.consistent hserves.backed hin hcar, hadmits⟩

/-- In every history without an abandoned run, in which no answer of a publication check leaves the
machine at the next POST, every POST is covered in every state. -/
theorem posts_covered (st : InMemoryStore) (requireSourceCheck : Bool) (es : List Input)
    (s : Presentation) (hst : Idle st)
    (h : Run (fun s e t => Steps s e t ∧ ¬ AbandonsAt e ∧ ¬ StrandsAt s e)
      (boot st requireSourceCheck) es s) : Covered s := by
  have hrun : Run (Within checkpointing) (boot st requireSourceCheck) es s := by
    refine h.mono ?_
    rintro s e t ⟨hstep, ha, hs⟩
    exact ⟨hstep, allows_checkpointing hs (fun h => ha h.1)⟩
  exact covered_of_inv (inv_of_history hst (.inl trivial) hrun)

/-- The first Draft is posted, and the second one goes out. -/
theorem posts_covered_twoDrafts : Idle twoDrafts ∧
    Covered (replay (boot twoDrafts false)
      [.start ⟨[], [], 1⟩ [] none, .take, .postCompleted 0 (.posted 7) none, .take]) ∧
    (replay (boot twoDrafts false)
      [.start ⟨[], [], 1⟩ [] none, .take, .postCompleted 0 (.posted 7) none, .take]).issued.length
      = 1 := by
  have hidle : Idle twoDrafts := Idle.of_rows rfl (by decide)
  exact ⟨hidle, posts_covered twoDrafts false [.start ⟨[], [], 1⟩ [] none, .take,
    .postCompleted 0 (.posted 7) none, .take] _ hidle
    (.cons ⟨rfl, id, id⟩ (.cons ⟨rfl, id, id⟩ (.cons ⟨rfl, id, id⟩ (.cons ⟨rfl, id, id⟩
      (.nil _))))), by decide⟩

/-- The answer of a publication check queues the second POST while the store still names the first
Draft. -/
theorem post_out_uncovered : ¬ ∀ (st : InMemoryStore) (requireSourceCheck : Bool) (es : List Input)
    (s : Presentation), Idle st →
    Run (fun s e t => Steps s e t ∧ ¬ AbandonsAt e) (boot st requireSourceCheck) es s →
    Covered s := by
  intro hclaim
  have hcovered := hclaim twoDrafts false [.start ⟨[], [], 1⟩ [] none, .take,
    .postCompleted 0 .ambiguous none, .take, .duplicateChecked 0 (.found 7) none] _
    (Idle.of_rows rfl (by decide)) (.cons ⟨rfl, id⟩ (.cons ⟨rfl, id⟩ (.cons ⟨rfl, id⟩
      (.cons ⟨rfl, id⟩ (.cons ⟨rfl, id⟩ (.nil _))))))
  obtain ⟨d, -, hcovers, -⟩ := hcovered.queued
    { operationId := 1, identity := ⟨[], [], 1⟩, draft := { localId := 2 }, parent := none
      dedupe := false } (by decide)
  obtain ⟨run, hrun, -, -, hcur⟩ := hcovers.run
  -- The command is for the second Draft, the run still at the first.
  have hnamed : (replay (boot twoDrafts false) [.start ⟨[], [], 1⟩ [] none, .take,
      .postCompleted 0 .ambiguous none, .take,
      .duplicateChecked 0 (.found 7) none]).reviews.activeRun.bind
      ActiveSubmissionRun.currentTempId = some 2 :=
    (congrArg (fun run => Option.bind run ActiveSubmissionRun.currentTempId) hrun).trans hcur
  exact absurd hnamed (by decide)

end Bbr.Tui
