import Bbr.Tui.Presentation
import Bbr.Review.StoreLaws
import Bbr.Review.SubmissionEnds

/-!
# Where the driver stands

The invariant of the Submission driver. `Consistent` is what the running Submission knows about
itself, `Backed` ties it to the store, and `Standing` says, phase by phase, which effect it waits for
and which command is out. Some behaviours of the driver leave the protocol: each has a permit, and a
state is only as irregular as its permits allow.
-/
namespace Bbr.Tui

open Bbr.Bitbucket Bbr.Review Bbr.Lib Submission

section Machine

variable {review review' : PendingReview} {m t : Submission} {tid : TempId} {d d' : Draft}
  {parent : Option CommentId}

/-- The Draft in flight stays so when the review changes only Drafts of the order, and its own
Draft only in what a state change touches. -/
theorem inFlight_of_review (h : InFlight review m tid d parent)
    (hd' : review'.getConst tid = some d') (htarget : d'.target = d.target)
    (hparent : d'.parent = d.parent) (hstate : ∀ id, d'.state ≠ .posted id)
    (hout : ∀ other, other ∉ m.order → review'.getConst other = review.getConst other) :
    InFlight review' m tid d' parent where
  at_idx := h.at_idx
  undecided := h.undecided
  draft := hd'
  remote := by rw [htarget]; exact h.remote
  unposted := hstate
  parent := by
    rw [← h.parent]
    unfold resolveParent
    rw [hparent]
    cases d.parent with
    | none => rfl
    | some p =>
      cases p with
      | comment c => rfl
      | draft pid =>
        cases hp : m.position pid with
        | some i => simp only [hp]
        | none =>
          have hnot : pid ∉ m.order := by
            intro hmem
            have hall : ∀ x ∈ m.order, ¬ x = pid := by
              simpa [position, List.findIdx?_eq_none_iff] using hp
            exact hall pid hmem rfl
          simp only [hout pid hnot]

/-- Nothing has been tried past the position in flight. -/
def Quiet (m : Submission) : Prop :=
  ∀ i, m.idx < i → m.attempt i = 0 ∧ m.checkAttempt i = 0 ∧ m.ambiguous i = false

/-- Every position from the current one on is untried. -/
def Fresh (m : Submission) : Prop :=
  m.mustWait = false ∧ ∀ i, m.idx ≤ i → m.attempt i = 0 ∧ m.checkAttempt i = 0 ∧
    m.ambiguous i = false

theorem moved_attempt (h : Moved review m t) (i : Nat) : t.attempt i = m.attempt i := by
  simp only [attempt, h.attempts]

theorem moved_checkAttempt (h : Moved review m t) (i : Nat) : t.checkAttempt i = m.checkAttempt i := by
  simp only [checkAttempt, h.checkAttempts]

theorem moved_ambiguous (h : Moved review m t) (i : Nat) : t.ambiguous i = m.ambiguous i := by
  simp only [ambiguous, h.ambiguousLast]

theorem Fresh.slot (h : Fresh m) : m.slot = .untried := by
  obtain ⟨hw, hi⟩ := h
  obtain ⟨h₁, h₂, h₃⟩ := hi m.idx (Nat.le_refl _)
  simp only [Submission.slot, hw, h₁, h₂, h₃, Slot.untried]

theorem Fresh.moved (h : Fresh m) (hm : Moved review m t) : Fresh t := by
  refine ⟨by rw [hm.mustWait]; exact h.1, ?_⟩
  intro i hi
  rw [moved_attempt hm, moved_checkAttempt hm, moved_ambiguous hm]
  have := hm.idx_le
  exact h.2 i (by omega)

theorem Fresh.quiet (h : Fresh m) : Quiet m := fun i hi => h.2 i (by omega)

theorem fresh_of_settled (hq : Quiet m) (hw : m.mustWait = false) (hel : Elsewhere m t)
    (hidx : t.idx = m.idx + 1) (hwait : t.mustWait = m.mustWait) : Fresh t := by
  refine ⟨hwait.trans hw, ?_⟩
  intro i hi
  have hne : i ≠ m.idx := by omega
  rw [hel.attempt i hne, hel.checkAttempt i hne, hel.ambiguous i hne]
  exact hq i (by omega)

theorem quiet_of_remains (hq : Quiet m) (hel : Elsewhere m t) (hidx : t.idx = m.idx) : Quiet t := by
  intro i hi
  have hne : i ≠ m.idx := by omega
  rw [hel.attempt i hne, hel.checkAttempt i hne, hel.ambiguous i hne]
  exact hq i (by omega)

theorem fresh_advance (hf : Fresh m) (hab : m.abortedReason = none)
    (hlen : m.results.length = m.order.length) :
    (∃ tid d parent, (m.advance review).1 = .post ⟨tid, parent, false⟩ ∧
        InFlight review (m.advance review).2 tid d parent) ∨
      ((m.advance review).1 = .done ∧
        (m.advance review).2.order.length ≤ (m.advance review).2.idx) := by
  obtain ⟨hm, hs⟩ := advance_spec review m hlen
  obtain ⟨hw, hslot⟩ := hf.moved hm
  generalize (m.advance review).2 = t at hm hs hw hslot
  cases hstep : (m.advance review).1 with
  | aborted e =>
    rw [hstep] at hs
    have : t.abortedReason = some e := hs
    rw [hm.abortedReason, hab] at this
    cases this
  | done =>
    rw [hstep] at hs
    exact .inr ⟨rfl, hs.2⟩
  | wait w =>
    rw [hstep] at hs
    rw [hs.2.1] at hw
    cases hw
  | check p =>
    rw [hstep] at hs
    have hamb := (hslot t.idx (Nat.le_refl _)).2.2
    rw [hs.2.2.1] at hamb
    cases hamb
  | post p =>
    rw [hstep] at hs
    obtain ⟨tid, parent, dedupe⟩ := p
    obtain ⟨-, -, -, hdedupe, d, hfl⟩ := hs
    subst hdedupe
    exact .inl ⟨tid, d, parent, rfl, hfl⟩

end Machine

/-- The ways a run can leave the protocol: a publication check that queues the next POST without a
checkpoint, one that ends the run without an outcome, an abort of a participant whose pending state
is lost, a read or wait that the driver cannot continue from, an abandoned run, and a store that
refuses a write. -/
structure Permits where
  strands : Prop
  loses : Prop
  unrestored : Prop
  stalls : Prop
  abandons : Prop
  refuses : Prop

/-- What a participant was before its intent to post was stored. -/
structure Intent where
  key : RemoteReviewIdentity
  tempId : TempId
  state : DraftState

/-- What a history knows: which Drafts have no POST unaccounted for, what the first participant was
before its intent was stored, and how many answers may follow. -/
structure Memory where
  cold : RemoteReviewIdentity → TempId → Prop
  intent : Intent → Prop
  left : Nat → Prop

/-- A retry checkpoint as the machine writes it: its delay is the larger one, a wait for a POST leaves
a POST to try, and the local delay of a repeated read says how many reads have failed. -/
structure ValidRetry (checkpoint : SubmissionRetryCheckpoint) : Prop where
  delay : checkpoint.effectiveDelayMs =
    max checkpoint.localDelayMs (checkpoint.serverDelayMs.getD 0)
  attempts : checkpoint.attempt ≤ maxAttempts
  post : checkpoint.phase = .post → checkpoint.pendingWait = true → checkpoint.attempt < maxAttempts
  reads : checkpoint.phase = .publicationCheck →
    checkpoint.localDelayMs = backoffMs 1 ∨ checkpoint.localDelayMs = backoffMs 2

/-- The last POST was answered, and another one waits for its delay. -/
def Definite (checkpoint : SubmissionRetryCheckpoint) : Prop :=
  checkpoint.phase = .post ∧ checkpoint.pendingWait = true

/-- The budgets of an item between two answers. -/
structure Bounded (slot : Slot) : Prop where
  attempts : slot.attempts ≤ maxAttempts
  checks : slot.checks < maxAttempts
  clear : slot.ambiguous = false → slot.attempts < maxAttempts

theorem bounded_untried : Bounded .untried := by
  constructor <;> simp [Slot.untried, maxAttempts]

/-- The current participant is the Draft in flight. -/
structure InHand (d : DurableSubmission) (t : TempId) (dr : Draft) (parent : Option CommentId) :
    Prop where
  current : d.currentTempId = some t
  flight : InFlight d.review d.machine t dr parent
  unaborted : d.machine.abortedReason = none

/-- The first participant of a run that this process began, not yet checkpointed. -/
def AtFirst (d : DurableSubmission) (t : TempId) : Prop :=
  d.recovered = false ∧ d.currentTempId = some t ∧
    (d.machine.order.drop d.runStart).head? = some t

def participantIds (d : DurableSubmission) : List TempId := d.machine.order.drop d.runStart

structure Consistent (d : DurableSubmission) : Prop where
  sized : d.machine.Sized
  nodup : d.machine.order.Nodup
  quiet : Quiet d.machine
  bounded : Bounded d.machine.slot
  started : d.runStart ≤ d.machine.idx
  remote : ∀ t ∈ participantIds d, ∃ dr, d.review.getConst t = some dr ∧ dr.target = .bitbucket
  decided : ∀ i, d.runStart ≤ i → i < d.machine.idx → i < d.machine.order.length →
    (d.machine.result i).isSome = true
  shaped : ∀ i r, d.machine.result i = some r → r.status = .posted → r.id.isSome = true
  opens : d.currentTempId.isSome → ∀ i t dr, d.machine.order[i]? = some t →
    d.machine.result i = none → d.review.getConst t = some dr → dr.state ≠ .outcomeUnknown
  ledger : ∀ c, d.currentTempId = some c → ∀ i t r o, d.runStart ≤ i →
    d.machine.order[i]? = some t → d.machine.result i = some r →
    Presentation.resultOutcome r = some o → t ≠ c →
    ∃ dr, d.review.getConst t = some dr ∧ dr.state = o.draftState
  changed : d.sourceChanged = true → d.recovered = true

/-- The copy of a participant is the stored Draft; only the first one still shows its old state. -/
def Mirrors (g : Memory) (d : DurableSubmission) (st : InMemoryStore) (t : TempId) : Prop :=
  ∃ dr ds, d.review.getConst t = some dr ∧ st.draftEntry d.key t = some ds ∧
    (ds = dr ∨ (AtFirst d t ∧ g.intent ⟨d.key, t, dr.state⟩ ∧ dr.state.isPending = true ∧
      ds = dr.withState .submitting))

structure Backed (g : Memory) (d : DurableSubmission) (st : InMemoryStore) : Prop where
  run : ∃ run, st.Runs d.operationId d.key run ∧ run.currentTempId = d.currentTempId ∧
    run.items.items.map SubmissionRunItem.tempId = participantIds d
  mirrors : ∀ t ∈ participantIds d, Mirrors g d st t
  spent : ∀ run checkpoint, st.activeRun = some run → run.retry = some checkpoint →
    Definite checkpoint → d.machine.mustWait = true
  shows : ∀ t dr, AtFirst d t → d.review.getConst t = some dr →
    dr.state.isPending = true ∧ g.intent ⟨d.key, t, dr.state⟩

/-- The command is about the Draft in flight; its copy may be older than the last state change. -/
structure Carries (d : DurableSubmission) (dr : Draft) (parent : Option CommentId)
    (command : PostDraft) : Prop where
  operation : command.operationId = d.operationId
  identity : command.identity = d.key
  draft : ∃ state, command.draft = dr.withState state
  parent : command.parent = parent

/-- The wait the machine owes for the Draft in flight. -/
def waitOf (d : DurableSubmission) (t : TempId) : WaitSubmission :=
  d.waitCommand ⟨d.machine.retryCheckpoint.effectiveDelayMs, t, d.machine.retryCheckpoint⟩

structure AtPost (d : DurableSubmission) (t : TempId) (dr : Draft) (parent : Option CommentId) :
    Prop extends InHand d t dr parent where
  ready : d.machine.mustWait = false
  clear : d.machine.ambiguous d.machine.idx = false
  unchanged : d.sourceChanged = false

structure AtCheck (d : DurableSubmission) (t : TempId) (dr : Draft) (parent : Option CommentId) :
    Prop extends InHand d t dr parent where
  ready : d.machine.mustWait = false
  unsure : d.machine.ambiguous d.machine.idx = true
  unchanged : d.sourceChanged = false

structure AtWait (d : DurableSubmission) (t : TempId) (dr : Draft) (parent : Option CommentId) :
    Prop extends InHand d t dr parent where
  waits : d.machine.mustWait = true
  valid : ValidRetry d.machine.retryCheckpoint
  unchanged : d.sourceChanged = false

/-- A source check is out, or paused, before the machine's next effect. A begun run has tried nothing
yet. -/
structure Rechecks (g : Memory) (d : DurableSubmission) (sourceCommit : BoundedText 64) : Prop where
  source : d.recoverySourceCommit = some sourceCommit
  inHand : ∃ t dr parent, InHand d t dr parent ∧
    (d.machine.mustWait = true → d.machine.slot.ambiguous = false → g.cold d.key t) ∧
    (d.recovered = false → d.machine.slot.ambiguous = false ∧ g.cold d.key t)
  valid : d.machine.mustWait = true → ValidRetry d.machine.retryCheckpoint
  unchanged : d.sourceChanged = false

/-- A read is out. Its answer goes back to the machine exactly when the machine asked for it and the
source has not moved; otherwise it ends a recovered run. -/
structure Reads (d : DurableSubmission) (t : TempId) (dr : Draft) (parent : Option CommentId) :
    Prop extends InHand d t dr parent where
  ready : d.machine.mustWait = false
  policy : d.policyCheck = (d.machine.slot.ambiguous && !d.sourceChanged)
  recovers : d.policyCheck = false → d.recovered = true

/-- The machine is past this participant and gave it this outcome. -/
def DecidedAs (d : DurableSubmission) (c : TempId) (o : SubmissionOutcome) : Prop :=
  ∃ i r, d.runStart ≤ i ∧ i < d.machine.idx ∧ d.machine.order[i]? = some c ∧
    d.machine.result i = some r ∧ Presentation.resultOutcome r = some o

/-- What is still owed to the store for a participant the machine has decided. -/
inductive Owes (d : DurableSubmission) (pending : PendingPersistence) : Prop where
  | next (c : TempId) (o : SubmissionOutcome) (t : TempId) (dr : Draft) (parent : Option CommentId)
      (transition : pending.transition.tempId = c) (outcome : pending.outcome = some o)
      (next : pending.next = some ⟨t, parent, false⟩) (completion : pending.completion = none)
      (todo : pending.checkpointDone = false) (current : d.currentTempId = some c)
      (decided : DecidedAs d c o)
      (flight : InFlight d.review d.machine t dr parent)
      (unaborted : d.machine.abortedReason = none) (fresh : Fresh d.machine)
  | last (c : TempId) (o : SubmissionOutcome)
      (transition : pending.transition.tempId = c) (outcome : pending.outcome = some o)
      (next : pending.next = none)
      (completion : pending.completion = some (DurableSubmission.runCompletion d.machine))
      (member : c ∈ participantIds d)
      (current : d.currentTempId = if pending.checkpointDone then none else some c)
      (passed : d.machine.order.length ≤ d.machine.idx) (unaborted : d.machine.abortedReason = none)
      (clean : d.machine.isClean = true → ∃ id, o = .posted id)
      (posted : pending.checkpointDone = true → d.machine.isClean = true →
        ∀ t ∈ participantIds d, ∃ dr id, d.review.getConst t = some dr ∧ dr.state = .posted id)
  | restored (c : TempId) (dr : Draft) (restored : SubmissionPendingState)
      (transition : pending.transition.tempId = c) (outcome : pending.outcome = none)
      (next : pending.next = none) (completion : pending.completion = some (.aborted restored))
      (current : d.currentTempId = some c) (shown : d.review.getConst c = some dr)
      (state : DurableSubmission.restoreState dr.state = some restored)
      (checkpoint : pending.retryCheckpoint = none)

/-- A terminal retry checkpoint is written before the outcome. -/
structure OwedRetry (pending : PendingPersistence) : Prop where
  valid : ∀ checkpoint, pending.retryCheckpoint = some checkpoint → ValidRetry checkpoint ∧
    checkpoint.phase = .post ∧ checkpoint.pendingWait = false
  first : pending.checkpointDone = true → pending.retryCheckpoint.isSome →
    pending.retryCheckpointDone = true

/-- Every command still out is a POST that the Submission will not recognise. -/
def Stray (d : DurableSubmission) (queued issued : List Command) : Prop :=
  ∀ command ∈ queued ++ issued, ∃ post, command = .postDraft post ∧
    post.operationId = d.operationId ∧ d.currentTempId ≠ some post.draft.localId

/-- Phase by phase: the effect the Submission waits for, and the command queued or issued for it. -/
def Standing (p : Permits) (g : Memory) (d : DurableSubmission) (queued issued : List Command) :
    Prop :=
  match d.phase with
  | .postQueued =>
    (∃ t dr parent command, AtPost d t dr parent ∧ g.cold d.key t ∧ Carries d dr parent command ∧
      command.dedupe = false ∧ queued = [.postDraft command] ∧ issued = []) ∨
      (p.strands ∧ Stray d queued issued)
  | .awaitingPost =>
    (∃ t dr parent command, AtPost d t dr parent ∧ Carries d dr parent command ∧
      command.dedupe = false ∧ queued = [] ∧ issued = [.postDraft command]) ∨
      (p.unrestored ∧ d.machine.abortedReason.isSome ∧ queued = [] ∧ issued = [])
  | .postRetryPaused =>
    ∃ t dr parent, AtPost d t dr parent ∧ g.cold d.key t ∧ queued = [] ∧ issued = []
  | .waitQueued =>
    ∃ t dr parent, AtWait d t dr parent ∧ (d.machine.slot.ambiguous = false → g.cold d.key t) ∧
      queued = [.waitSubmission (waitOf d t)] ∧ issued = []
  | .awaitingWait =>
    ∃ t dr parent, AtWait d t dr parent ∧ (d.machine.slot.ambiguous = false → g.cold d.key t) ∧
      queued = [] ∧ issued = [.waitSubmission (waitOf d t)]
  | .waitRetryPaused =>
    ∃ t dr parent, AtWait d t dr parent ∧ d.pendingWaitRetry = some (waitOf d t) ∧
      (d.machine.slot.ambiguous = false → g.cold d.key t ∨
        Definite d.machine.retryCheckpoint) ∧ queued = [] ∧ issued = []
  | .admissionPaused =>
    ∃ t dr parent, d.pendingAdmission = some (.wait (waitOf d t)) ∧
      ((AtWait d t dr parent ∧ p.refuses ∧ (d.machine.slot.ambiguous = false → g.cold d.key t)) ∨
        (AtCheck d t dr parent ∧ p.stalls ∧ ValidRetry d.machine.retryCheckpoint)) ∧
      queued = [] ∧ issued = []
  | .persistencePaused =>
    p.refuses ∧ ∃ pending, d.pendingPersistence = some pending ∧ Owes d pending ∧
      OwedRetry pending ∧ d.sourceChanged = false ∧ queued = [] ∧ issued = []
  | .recoveryCheckQueued =>
    ∃ sourceCommit, Rechecks g d sourceCommit ∧
      queued = [Presentation.checkRecoveryCommand d sourceCommit] ∧ issued = []
  | .awaitingRecoveryCheck =>
    ∃ sourceCommit, Rechecks g d sourceCommit ∧
      queued = [] ∧ issued = [Presentation.checkRecoveryCommand d sourceCommit]
  | .recoveryCheckPaused => ∃ sourceCommit, Rechecks g d sourceCommit ∧ queued = [] ∧ issued = []
  | .recoverySourceChanged => False
  | .duplicateQueued =>
    ∃ t dr parent command, Reads d t dr parent ∧ Carries d dr parent command ∧
      queued = [.findDuplicate command] ∧ issued = []
  | .awaitingDuplicate =>
    (∃ t dr parent command, Reads d t dr parent ∧ Carries d dr parent command ∧
      queued = [] ∧ issued = [.findDuplicate command]) ∨
      (p.loses ∧ d.policyCheck = false ∧ queued = [] ∧ issued = [])
  | .duplicateCheckPaused =>
    ∃ t dr parent, InHand d t dr parent ∧ d.recovered = true ∧
      (d.machine.mustWait = true → p.stalls ∧ d.sourceChanged = true) ∧ queued = [] ∧ issued = []
  | .duplicatePersistencePaused =>
    p.refuses ∧ ∃ pending outcome, d.pendingDuplicate = some pending ∧
      Presentation.duplicateOutcome pending.outcome = some outcome ∧ d.recovered = true ∧
      (d.currentTempId.isSome → pending.checkpointDone = false ∧
        ∃ t dr parent, InHand d t dr parent) ∧ queued = [] ∧ issued = []

/-- Answers that can still follow, with the source check that comes before the machine's effects. -/
def effectsLeft (d : DurableSubmission) : Nat :=
  d.machine.answersLeft +
    if d.phase = .recoveryCheckQueued ∨ d.phase = .awaitingRecoveryCheck ∨
      d.phase = .recoveryCheckPaused then 1 else 0

structure Serves (p : Permits) (g : Memory) (d : DurableSubmission) (st : InMemoryStore)
    (queued issued : List Command) : Prop where
  consistent : Consistent d
  backed : Backed g d st
  admission : d.pendingAdmission.isSome → d.phase = .admissionPaused
  persistence : d.pendingPersistence.isSome → d.phase = .persistencePaused
  standing : Standing p g d queued issued
  left : g.left (effectsLeft d)

/-- The store under every driver: sound, with valid retry checkpoints, and willing unless a refused
write is permitted. -/
structure Stored (p : Permits) (st : InMemoryStore) : Prop where
  sound : st.Sound
  retries : ∀ run checkpoint, st.activeRun = some run → run.retry = some checkpoint →
    ValidRetry checkpoint
  willing : p.refuses ∨ (st.failNextCheckpoint = false ∧ st.failNextCompletion = false)

/-- The issued commands of this Submission. -/
def own (d : DurableSubmission) (issued : List Command) : List Command :=
  issued.filter (fun command => decide (command.operationId = d.operationId))

/-- The invariant of the driver. -/
structure Inv (p : Permits) (g : Memory) (s : Presentation) : Prop where
  stored : Stored p s.reviews
  fresh : ∀ command ∈ s.commands ++ s.issued, command.operationId < s.reviews.nextOperationId
  serves : ∀ d, s.durable = some d → Serves p g d s.reviews s.commands (own d s.issued)
  rest : s.durable = none → s.commands = []
  owned : p.abandons ∨ ∀ command ∈ s.issued, ∃ d, s.durable = some d ∧
    command.operationId = d.operationId
  notice : ∀ notice, s.recovery = some notice → s.durable = none ∧ s.issued = [] ∧
    s.reviews.activeRun.isSome

/-- What a driver function makes of the Submission and the store: an error pauses it, progress is a
command for its next effect, and a finished run leaves no active run behind. -/
structure Published (p : Permits) (g : Memory) (d : DurableSubmission) (st : InMemoryStore)
    (done : Except DriverError AfterPost × DurableSubmission × InMemoryStore) : Prop where
  stored : Stored p done.2.2
  operations : done.2.2.nextOperationId = st.nextOperationId
  paused : ∀ err, done.1 = .error err → Serves p g done.2.1 done.2.2 [] []
  next : ∀ command transition, done.1 = .ok (.next command transition) →
    Serves p g done.2.1 done.2.2 [.postDraft command] []
  check : ∀ command, done.1 = .ok (.check command) →
    Serves p g done.2.1 done.2.2 [.findDuplicate command] []
  wait : ∀ wait, done.1 = .ok (.wait wait) →
    Serves p g done.2.1 done.2.2 [.waitSubmission wait] []
  finished : ∀ result transition, done.1 = .ok (.finished result transition) →
    done.2.2.activeRun = none
  same : done.2.1.operationId = d.operationId ∧ done.2.1.key = d.key

/-- Every POST of the Draft is accounted for in the store: its outcome is known, or the run is past
it, or the wait for another POST is recorded. -/
structure Settled (st : InMemoryStore) (key : RemoteReviewIdentity) (t : TempId) : Prop where
  known : ∀ d, st.draftEntry key t = some d → d.state ≠ .outcomeUnknown
  recorded : ∀ run, st.activeRun = some run → run.key = key → run.currentTempId = some t →
    ∃ checkpoint, run.retry = some checkpoint ∧ Definite checkpoint

/-- A step from one store to another that launches nothing: what was accounted for stays so, and so
is everything the new store settles or the old one had pending. -/
structure Remembers (g g' : Memory) (st st' : InMemoryStore) : Prop where
  cold : ∀ key t, g.cold key t → g'.cold key t
  settled : ∀ key t, Settled st' key t → g'.cold key t
  pending : ∀ key t d, st.draftEntry key t = some d → d.state.isPending = true → g'.cold key t
  intent : ∀ was, g.intent was → g'.intent was

end Bbr.Tui
