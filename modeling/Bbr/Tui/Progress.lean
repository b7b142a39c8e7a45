import Bbr.Tui.Closing

/-!
# The driver does not get stuck

While the store accepts every write, a running Submission has a command out or waits for the reviewer
after a failed launch or read, and its answers are bounded by its participants. What breaks this: a
check that queues a POST without a checkpoint or ends the run without an outcome, an abort whose old
state is lost, and a wait that ends before a read.
-/
namespace Bbr.Tui

open Bbr.Bitbucket Bbr.Review Bbr.Lib Submission Presentation InMemoryStore Option

variable {p : Permits} {g : Memory} {s : Presentation} {d : DurableSubmission} {st : InMemoryStore}
  {t : TempId} {dr : Draft} {parent : Option CommentId} {e : Input}

instance (s : Presentation) : Decidable (Paused s) :=
  decidable_of_iff (∃ d ∈ s.durable, d.phase.isPaused = true) Iff.rfl

instance (s : Presentation) (e : Input) : Decidable (Counts s e) :=
  decidable_of_iff ((∃ d ∈ s.durable, ∃ command ∈ answeredBy s e, Awaited d command) ∧
    ¬ Paused (s.update e)) (by
      constructor
      · rintro ⟨⟨d, hd, command, hc, ha⟩, hp⟩
        exact ⟨⟨d, command, hd, hc, ha⟩, hp⟩
      · rintro ⟨⟨d, command, hd, hc, ha⟩, hp⟩
        exact ⟨⟨d, hd, command, hc, ha⟩, hp⟩)

/-- The participants of the current run, and the answers it has taken. -/
structure Tally where
  participants : Nat := 0
  answers : Nat := 0
  deriving DecidableEq

def runSize (st : InMemoryStore) : Nat :=
  match st.activeRun with
  | some run => run.items.items.length
  | none => 0

/-- A new run starts a new count. -/
def tallied (a : Tally) (s : Presentation) (e : Input) : Tally :=
  if s.durable.isNone then ⟨runSize (s.update e).reviews, 0⟩
  else if Counts s e then { a with answers := a.answers + 1 } else a

def Tallies (a : Tally × Presentation) (e : Input) (b : Tally × Presentation) : Prop :=
  b = (tallied a.1 a.2 e, a.2.update e)

/-- The answers that may still follow. -/
def budget (a : Tally) : Memory where
  cold := fun _ _ => True
  intent := fun _ => True
  left := fun n => a.answers + n ≤ runAnswers a.participants

/-- Nothing leaves the protocol, but a reviewer may abandon a recovered run. -/
def unfailing : Permits where
  strands := False
  loses := False
  unrestored := False
  stalls := False
  abandons := True
  refuses := False

theorem recalls_budget (a : Tally) (s : Presentation) (e : Input) :
    Recalls (budget a) (budget (tallied a s e)) s e where
  cold := fun _ _ _ => .inl trivial
  settled := fun _ _ _ => .inl trivial
  pending := fun _ _ _ _ _ => .inl trivial
  launchFailed := fun _ _ _ _ _ => trivial
  misplaced := fun _ _ _ _ _ _ _ _ _ => trivial
  intent := fun _ _ _ => trivial
  begins := fun _ _ _ _ _ _ _ _ _ => trivial
  less := by
    intro hd n m hn hm
    have hsome : s.durable.isNone = false := by simpa using hd
    have hn' : a.answers + n ≤ runAnswers a.participants := hn
    simp only [budget, tallied, hsome, Bool.false_eq_true, if_false]
    by_cases hc : Counts s e
    · simp only [if_pos hc]
      omega
    · simp only [if_neg hc]
      omega
  same := by
    intro hd hc n hn
    have hsome : s.durable.isNone = false := by simpa using hd
    have hn' : a.answers + n ≤ runAnswers a.participants := hn
    simpa only [budget, tallied, hsome, Bool.false_eq_true, if_false, if_neg hc] using hn'
  starts := by
    intro hd run hrun n hn
    have hnone : s.durable.isNone = true := by rw [hd]; rfl
    simp only [budget, tallied, hnone, if_true, runSize, hrun]
    omega

/-- A command of the Submission is queued, or issued and awaited. -/
def Out (s : Presentation) (d : DurableSubmission) : Prop :=
  (∃ command ∈ s.commands, command.operationId = d.operationId) ∨
    ∃ command ∈ s.issued, Awaited d command

/-- The reviewer has to resume after a failed launch or a failed read. -/
def FailedEffect (d : DurableSubmission) : Prop :=
  d.phase = .postRetryPaused ∨ d.phase = .waitRetryPaused ∨ d.phase = .recoveryCheckPaused ∨
    d.phase = .duplicateCheckPaused

theorem out_of_standing {queued issued : List Command} (h : Standing unfailing g d queued issued) :
    queued ≠ [] ∨ issued ≠ [] ∨ FailedEffect d := by
  unfold Standing at h
  generalize hphase : d.phase = phase at h
  cases phase with
  | postQueued =>
    rcases h with ⟨_, _, _, _, _, _, _, _, hq, _⟩ | ⟨hp, -⟩
    · exact .inl (by rw [hq]; simp)
    · exact hp.elim
  | awaitingPost =>
    rcases h with ⟨_, _, _, _, _, _, _, _, hi⟩ | ⟨hp, -⟩
    · exact .inr (.inl (by rw [hi]; simp))
    · exact hp.elim
  | waitQueued => obtain ⟨_, _, _, _, _, hq, _⟩ := h; exact .inl (by rw [hq]; simp)
  | awaitingWait =>
    obtain ⟨_, _, _, _, _, _, hi⟩ := h
    exact .inr (.inl (by rw [hi]; simp))
  | recoveryCheckQueued =>
    obtain ⟨_, _, hq, _⟩ := h
    exact .inl (by rw [hq]; simp)
  | awaitingRecoveryCheck =>
    obtain ⟨_, _, _, hi⟩ := h
    exact .inr (.inl (by rw [hi]; simp))
  | duplicateQueued =>
    obtain ⟨_, _, _, _, _, _, hq, _⟩ := h
    exact .inl (by rw [hq]; simp)
  | awaitingDuplicate =>
    rcases h with ⟨_, _, _, _, _, _, _, hi⟩ | ⟨hp, -⟩
    · exact .inr (.inl (by rw [hi]; simp))
    · exact hp.elim
  | postRetryPaused => exact .inr (.inr (.inl hphase))
  | waitRetryPaused => exact .inr (.inr (.inr (.inl hphase)))
  | recoveryCheckPaused => exact .inr (.inr (.inr (.inr (.inl hphase))))
  | duplicateCheckPaused => exact .inr (.inr (.inr (.inr (.inr hphase))))
  | admissionPaused =>
    obtain ⟨_, _, _, _, ⟨-, hp, -⟩ | ⟨-, hp, -⟩, -⟩ := h
    · exact hp.elim
    · exact hp.elim
  | persistencePaused | duplicatePersistencePaused => exact h.1.elim
  | recoverySourceChanged => exact h.elim

theorem Inv.out (h : Inv unfailing g s) (hd : s.durable = some d) : Out s d ∨ FailedEffect d := by
  have hstanding := (h.serves d hd).standing
  rcases hstanding.out with ⟨hq, hi⟩ | ⟨command, hq, hi, hop, -⟩ | ⟨command, hq, hi, haw⟩ | ⟨hp, -⟩
  · rcases out_of_standing hstanding with hne | hne | hf
    · exact absurd hq hne
    · exact absurd hi hne
    · exact .inr hf
  · exact .inl (.inl ⟨command, by rw [hq]; simp, hop⟩)
  · have hmem : command ∈ own d s.issued := by rw [hi]; simp
    exact .inl (.inr ⟨command, (List.mem_filter.mp hmem).1, haw⟩)
  · exact hp.elim

theorem wait_posts {i : Nat} {wait : WaitSubmission} (h : Inv unfailing g s)
    (hadm : Admitted s i d (.waitSubmission wait))
    (hstall : ¬ StallsAt s (.waitCompleted i)) :
    ∃ d' post, (s.update (.waitCompleted i)).durable = some d' ∧ d'.phase = .postQueued ∧
      (s.update (.waitCompleted i)).commands = [.postDraft post] ∧
      post.draft.localId = wait.tempId := by
  obtain ⟨hv, hstanding⟩ := h.answered hadm.running hadm.issued hadm.awaited
  have hserves := h.serves d hadm.running
  obtain ⟨hphase, t, dr, parent, hat, -, rfl⟩ := hstanding.waiting hadm.awaited
  have hanswers : s.issued[i]?.bind Command.asWaitSubmission = some (waitOf d t) := by
    rw [hadm.issued]
    rfl
  have hadmits : admitsWait d (waitOf d t) = true := hadm.awaited
  have heq : s.update (.waitCompleted i) =
      (s.consumeCommand i).processSubmissionWait d (waitOf d t) := by
    simp only [update, acceptSubmissionWait]
    exact complete_admitted hanswers hadm.running hadmits
  have hclear : d.machine.ambiguous d.machine.idx ≠ true := fun hamb => hstall ⟨d, _, hadm, hamb⟩
  rcases completeWait_cases h.stored hserves.backed hat.toInHand hat.valid hphase with
    ⟨err, st', -, hrefuse, -⟩ | ⟨err, st', hamb, -⟩ | ⟨command, st', -, hdone, -, hcar, -⟩
  · exact hrefuse.elim
  · exact absurd hamb hclear
  refine ⟨{ waited d with phase := .postQueued }, command, ?_, rfl, ?_, hcar.localId hat.toInHand⟩
  · rw [heq, processSubmissionWait]
    simp only [show (s.consumeCommand i).reviews = s.reviews from rfl, hdone]
    rfl
  · rw [heq, processSubmissionWait]
    simp only [show (s.consumeCommand i).reviews = s.reviews from rfl, hdone]
    exact congrArg (· ++ [_]) hv.commands

theorem effectsLeft_pos {command : Command} (hc : Consistent d)
    (h : Standing unfailing g d [] [command]) (ha : Awaited d command) : 0 < effectsLeft d := by
  have hpos : ∀ {t dr parent}, InHand d t dr parent → 0 < d.machine.answersLeft := by
    intro t dr parent hin
    rw [answersLeft_inHand hin]
    have := hc.bounded.answersLeft_pos
    omega
  unfold effectsLeft
  cases command with
  | postDraft post =>
    obtain ⟨-, _, _, _, hat, -⟩ := h.posting ha
    exact Nat.add_pos_left (hpos hat.toInHand) _
  | waitSubmission wait =>
    obtain ⟨-, _, _, _, hat, -⟩ := h.waiting ha
    exact Nat.add_pos_left (hpos hat.toInHand) _
  | checkRecovery check => simp [ha.2.2]
  | findDuplicate find =>
    have hphase : d.phase = .awaitingDuplicate := (of_decide_eq_true ha).2.2.2
    rw [Standing, hphase] at h
    rcases h with ⟨_, _, _, _, hat, -⟩ | ⟨hp, -⟩
    · exact Nat.add_pos_left (hpos hat.toInHand) _
    · exact hp.elim

theorem answeredBy_issued {command : Command} (h : answeredBy s e = some command) :
    ∃ i : Nat, s.issued[i]? = some command := by
  cases e with
  | postCompleted i outcome retryAfterMs =>
    obtain ⟨post, hp, rfl⟩ := map_eq_some_iff.mp h
    obtain ⟨command, hi, hc⟩ := bind_eq_some_iff.mp hp
    exact ⟨i, asPostDraft_eq hc ▸ hi⟩
  | waitCompleted i =>
    obtain ⟨wait, hp, rfl⟩ := map_eq_some_iff.mp h
    obtain ⟨command, hi, hc⟩ := bind_eq_some_iff.mp hp
    exact ⟨i, asWaitSubmission_eq hc ▸ hi⟩
  | recoveryChecked i outcome =>
    obtain ⟨check, hp, rfl⟩ := map_eq_some_iff.mp h
    obtain ⟨command, hi, hc⟩ := bind_eq_some_iff.mp hp
    exact ⟨i, asCheckRecovery_eq hc ▸ hi⟩
  | duplicateChecked i outcome retryAfterMs =>
    obtain ⟨find, hp, rfl⟩ := map_eq_some_iff.mp h
    obtain ⟨command, hi, hc⟩ := bind_eq_some_iff.mp hp
    exact ⟨i, asFindDuplicate_eq hc ▸ hi⟩
  | _ => cases h

/-- The count stays within the bound, also when its last answer ends the run. -/
theorem answers_le {a : Tally} (h : Inv unfailing (budget a) s)
    (hle : a.answers ≤ runAnswers a.participants) :
    (tallied a s e).answers ≤ runAnswers (tallied a s e).participants := by
  unfold tallied
  split
  · exact Nat.zero_le _
  split
  · next hcounts =>
    obtain ⟨⟨d, command, hd, hcommand, hawaited⟩, -⟩ := hcounts
    obtain ⟨i, hi⟩ := answeredBy_issued hcommand
    obtain ⟨-, hstanding⟩ := h.answered hd hi hawaited
    have hserves := h.serves d hd
    have hpos := effectsLeft_pos hserves.consistent hstanding hawaited
    have hleft : a.answers + effectsLeft d ≤ runAnswers a.participants := hserves.left
    show a.answers + 1 ≤ runAnswers a.participants
    omega
  · exact hle

/-- A state whose run has ended: nothing is active in the store, and the result is shown. -/
def Ended (s : Presentation) : Prop :=
  s.durable = none → s.reviews.activeRun = none ∧ s.submissionResult.isSome = true

/-- A run ends with its completion stored and its result shown, unless the process dies or the
reviewer abandons it. -/
theorem ended_update (hd : s.durable = some d) (hcrash : e ≠ .crash) (ha : ¬ AbandonsAt e) :
    Ended (s.update e) := by
  intro hover
  obtain ⟨d', c, hcloses⟩ := parts_update hd hcrash ha hover
  obtain ⟨run, -, hdone, -⟩ := completeSubmission_ok hcloses.written
  obtain ⟨result, hshown, -⟩ := hcloses.shown
  exact ⟨hdone.idle, by rw [hshown]; rfl⟩

/-- A step that keeps to the protocol, over a store that accepts every write. -/
structure Regular (s : Presentation) (e : Input) : Prop where
  checkpoints : ¬ StrandsAt s e
  decides : ¬ LosesAt s e
  restores : ¬ UnrestoredAt s e
  resumes : ¬ StallsAt s e
  writes : ¬ RefusesAt e

theorem Regular.allows (h : Regular s e) : Allows unfailing s e where
  strands := h.checkpoints
  loses := h.decides
  unrestored := h.restores
  stalls := h.resumes
  abandons := fun _ => trivial
  refuses := h.writes

/-- What it means for the driver to be live in a state: something is out or a launch or read failed,
an awaited wait leads to the POST it delays, the answers are bounded, and a run ends completed. -/
structure Live (a : Tally) (s : Presentation) : Prop where
  out : ∀ d, s.durable = some d → Out s d ∨ FailedEffect d
  resumes : ∀ i d wait, Admitted s i d (.waitSubmission wait) → Regular s (.waitCompleted i) →
    ∃ d' post, (s.update (.waitCompleted i)).durable = some d' ∧ d'.phase = .postQueued ∧
      (s.update (.waitCompleted i)).commands = [.postDraft post] ∧
      post.draft.localId = wait.tempId
  bounded : a.answers ≤ runAnswers a.participants
  ends : ∀ e d, s.durable = some d → e ≠ .crash → ¬ AbandonsAt e → Ended (s.update e)

/-- In every history whose steps keep to the protocol, over a store that accepts every write, the
driver is live in every state. -/
theorem driver_live (st : InMemoryStore) (requireSourceCheck : Bool) (es : List Input) (a : Tally)
    (s : Presentation) (hst : Idle st)
    (hw : st.failNextCheckpoint = false ∧ st.failNextCompletion = false)
    (h : Run (fun a e b => Tallies a e b ∧ Regular a.2 e) ({}, boot st requireSourceCheck) es
      (a, s)) : Live a s := by
  have hinv : Inv unfailing (budget a) s ∧ a.answers ≤ runAnswers a.participants := by
    refine h.invariant (fun a => Inv unfailing (budget a.1) a.2 ∧
      a.1.answers ≤ runAnswers a.1.participants) ?_ ⟨boot_inv (hst.stored (.inr hw)), Nat.zero_le _⟩
    rintro ⟨a, s⟩ e _ ⟨rfl, hreg⟩ ⟨hinv, hle⟩
    exact ⟨hinv.update hreg.allows (recalls_budget a s e), answers_le hinv hle⟩
  exact
    { out := fun d hd => hinv.1.out hd
      resumes := fun i d wait hadm hreg => wait_posts hinv.1 hadm hreg.resumes
      bounded := hinv.2
      ends := fun e d hd hcrash ha => ended_update hd hcrash ha }

/-- The inputs one after another, counted. -/
def tally (a : Tally × Presentation) (es : List Input) : Tally × Presentation :=
  es.foldl (fun a e => (tallied a.1 a.2 e, a.2.update e)) a

/-- Both Drafts are posted, and the run ends after two answers. -/
theorem driver_live_twoDrafts : Live ⟨2, 2⟩ (replay (boot twoDrafts false)
    [.start ⟨[], [], 1⟩ [] none, .take, .postCompleted 0 (.posted 7) none, .take,
      .postCompleted 0 (.posted 8) none]) := by
  have hstart : Regular (boot twoDrafts false) (.start ⟨[], [], 1⟩ [] none) :=
    ⟨id, id, id, fun ⟨d, wait, hd, _⟩ => (by cases hd), id⟩
  have hlive := driver_live twoDrafts false [.start ⟨[], [], 1⟩ [] none, .take,
    .postCompleted 0 (.posted 7) none, .take, .postCompleted 0 (.posted 8) none] _ _
    (Idle.of_rows rfl (by decide)) ⟨rfl, rfl⟩
    (.cons ⟨rfl, hstart⟩ (.cons ⟨rfl, id, id, id, id, id⟩ (.cons ⟨rfl, id, id, id, id, id⟩
      (.cons ⟨rfl, id, id, id, id, id⟩ (.cons ⟨rfl, id, id, id, id, id⟩ (.nil _))))))
  have hcount : (tally ({}, boot twoDrafts false) [.start ⟨[], [], 1⟩ [] none, .take,
      .postCompleted 0 (.posted 7) none, .take, .postCompleted 0 (.posted 8) none]).1 = ⟨2, 2⟩ := by
    decide
  rw [← hcount]
  exact hlive

/-- After a publication check without an answer its wait ends, and no command follows. -/
theorem wait_before_read_stalls : ¬ ∀ (st : InMemoryStore) (requireSourceCheck : Bool)
    (es : List Input) (a : Tally) (s : Presentation), Idle st →
    st.failNextCheckpoint = false ∧ st.failNextCompletion = false →
    Run (fun a e b => Tallies a e b ∧ ¬ RefusesAt e) ({}, boot st requireSourceCheck) es (a, s) →
    ∀ i d wait, Admitted s i d (.waitSubmission wait) →
      ∃ d' command, (s.update (.waitCompleted i)).durable = some d' ∧
        (s.update (.waitCompleted i)).commands = [command] := by
  intro hclaim
  obtain ⟨d', command, -, hout⟩ := hclaim twoDrafts false [.start ⟨[], [], 1⟩ [] none, .take,
    .postCompleted 0 .ambiguous none, .take, .duplicateChecked 0 .failed none, .take] _ _
    (Idle.of_rows rfl (by decide)) ⟨rfl, rfl⟩
    (.cons ⟨rfl, id⟩ (.cons ⟨rfl, id⟩ (.cons ⟨rfl, id⟩ (.cons ⟨rfl, id⟩ (.cons ⟨rfl, id⟩
      (.cons ⟨rfl, id⟩ (.nil _))))))) 0
    ((replay (boot twoDrafts false) [.start ⟨[], [], 1⟩ [] none, .take,
      .postCompleted 0 .ambiguous none, .take, .duplicateChecked 0 .failed none,
      .take]).durable.get (by decide))
    ⟨1, ⟨[], [], 1⟩, 1, backoffMs 1, some ⟨.publicationCheck, 1, .publicationCheckTransport,
      backoffMs 1, none, backoffMs 1, true⟩⟩
    ⟨(some_get _).symm, by decide, by decide⟩
  have hnone : (replay (boot twoDrafts false) [.start ⟨[], [], 1⟩ [] none, .take,
      .postCompleted 0 .ambiguous none, .take, .duplicateChecked 0 .failed none, .take,
      .waitCompleted 0]).commands = [] := by decide
  exact absurd (hnone.symm.trans hout) (by simp)

end Bbr.Tui
