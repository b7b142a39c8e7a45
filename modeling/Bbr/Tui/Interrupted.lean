import Bbr.Tui.Aborts
import Bbr.Tui.Closing

/-!
# Interrupted and uninterrupted ends

A run whose last participant has its outcome in the store ends alike with and without a crash before
its completion, unless what decides between a clean and a partial one looks at more than the
participants: the machine also remembers the Drafts it passed over, a read and the next process look
at every Draft of the review.
-/
namespace Bbr.Tui

open Bbr.Bitbucket Bbr.Review Bbr.Lib Submission Presentation InMemoryStore Option

variable {s x : Presentation} {d : DurableSubmission} {st st' : InMemoryStore} {e : Input}
  {c : SubmissionCompletion} {run : ActiveSubmissionRun}

/-- The last state before the completion that the input writes. -/
def lastCheckpoint (s : Presentation) (e : Input) : Presentation :=
  replay s [.failNextCompletion, e]

/-- The process dies there, and the next one recovers the run. -/
def interrupted (s : Presentation) (e : Input) : Presentation :=
  replay s [.failNextCompletion, e, .crash, .recover]

/-- The input ends a run whose participants all have their outcome. -/
structure EndsRun (s : Presentation) (e : Input) : Prop where
  running : s.durable.isSome
  survives : e ≠ .crash
  unabandoned : ¬ AbandonsAt e
  ended : (s.update e).durable = none
  completed : ∀ result ∈ (s.update e).submissionResult,
    result.completion = .clean ∨ result.completion = .partialCompletion

def isPosted (state : DraftState) : Bool :=
  match state with
  | .posted _ => true
  | _ => false

/-- Every participant of the active run is stored as posted. -/
def ParticipantsPosted (st : InMemoryStore) : Prop :=
  ∀ run ∈ st.activeRun, ∀ item ∈ run.items.items,
    ∃ ds ∈ st.draftEntry run.key item.tempId, isPosted ds.state = true

/-- The store and the kind of completion are the same, and it is clean exactly when every participant
is posted. -/
structure EndsAlike (s : Presentation) (e : Input) : Prop where
  store : (interrupted s e).reviews = (s.update e).reviews
  completion : ∃ result result', (s.update e).submissionResult = some result ∧
    (interrupted s e).submissionResult = some result' ∧ result'.completion = result.completion ∧
    (result.completion = .clean ↔ ParticipantsPosted (lastCheckpoint s e).reviews)

/-- The place that completes the run finds nothing unposted next to the participants: in the copy of
the review after a read, among all that the machine has decided otherwise. -/
def NothingElseOpen (d : DurableSubmission) : Prop :=
  if d.phase = .duplicatePersistencePaused then
    ∀ dr ∈ d.review.drafts, dr.target = .bitbucket → isPosted dr.state = true
  else ∀ r ∈ d.machine.results.filterMap id, r.status = .posted

/-- The same for the next process, which looks at the stored review. -/
def NothingElseStored (st : InMemoryStore) (key : RemoteReviewIdentity) : Prop :=
  ∀ dr ∈ st.load key, dr.target = .bitbucket → isPosted dr.state = true

structure Agrees (x : Presentation) : Prop where
  source : ∀ run ∈ x.reviews.activeRun, run.sourceCommit.length ≤ 64
  runs : ParticipantsPosted x.reviews → ∀ d ∈ x.durable, NothingElseOpen d
  stored : ParticipantsPosted x.reviews → ∀ run ∈ x.reviews.activeRun,
    NothingElseStored x.reviews run.key

instance (st : InMemoryStore) : Decidable (ParticipantsPosted st) :=
  inferInstanceAs (Decidable (∀ run ∈ st.activeRun, ∀ item ∈ run.items.items,
    ∃ ds ∈ st.draftEntry run.key item.tempId, isPosted ds.state = true))

instance (d : DurableSubmission) : Decidable (NothingElseOpen d) :=
  inferInstanceAs (Decidable (if d.phase = .duplicatePersistencePaused then
    ∀ dr ∈ d.review.drafts, dr.target = .bitbucket → isPosted dr.state = true
  else ∀ r ∈ d.machine.results.filterMap id, r.status = .posted))

instance (st : InMemoryStore) (key : RemoteReviewIdentity) : Decidable (NothingElseStored st key) :=
  inferInstanceAs (Decidable (∀ dr ∈ st.load key, dr.target = .bitbucket → isPosted dr.state = true))

theorem allPosted_eq {review : PendingReview} : allPosted review = true ↔
    ∀ dr ∈ review.drafts, dr.target = .bitbucket → isPosted dr.state = true := by
  rw [allPosted_iff]
  refine forall₃_congr fun dr _ _ => ?_
  cases dr.state <;> simp [isPosted]

theorem participantsPosted_of_stored (hs : st.Sound) (hrun : st.activeRun = some run)
    (h : NothingElseStored st run.key) : ParticipantsPosted st := by
  intro run' hrun' item hitem
  rw [hrun] at hrun'
  cases hrun'
  obtain ⟨ds, hds, htarget, -⟩ := hs.participants run hrun item hitem
  refine ⟨ds, hds, h ds ?_ htarget⟩
  have hget := getConst_loadReview st run.key item.tempId
  rw [hds] at hget
  rw [← loadReview_drafts]
  exact findDraft_mem hget

/-- A participant that the copy shows as posted is stored as posted. -/
theorem participantsPosted_of_copy {g : Memory} (hb : Backed g d st) (hcur : d.currentTempId = none)
    (h : ∀ t ∈ participantIds d, ∃ dr id, d.review.getConst t = some dr ∧ dr.state = .posted id) :
    ParticipantsPosted st := by
  intro run hrun item hitem
  obtain ⟨run', hruns, -, hids⟩ := hb.run
  obtain rfl : run' = run := some.inj (hruns.active.symm.trans hrun)
  have hmem : item.tempId ∈ participantIds d := hids ▸ List.mem_map_of_mem hitem
  obtain ⟨dr, id, hdr, hstate⟩ := h item.tempId hmem
  obtain ⟨dr', ds, hdr', hds, hsame⟩ := hb.mirrors item.tempId hmem
  rw [hdr] at hdr'
  cases hdr'
  rcases hsame with rfl | ⟨⟨-, hfirst, -⟩, -⟩
  · exact ⟨ds, hruns.key ▸ hds, by rw [hstate]; rfl⟩
  · rw [hcur] at hfirst
    cases hfirst

/-- The completion that the driver writes is clean exactly when nothing it looks at is open, and then
every participant is posted. -/
theorem chosen_clean {p : Permits} {g : Memory} (h : Inv p g x) (hd : x.durable = some d)
    (hchosen : Chooses d c) (hcur : d.currentTempId = none) (hc : ∀ restore, c ≠ .aborted restore) :
    (c = .clean ∨ c = .partialCompletion) ∧ (c = .clean ↔ NothingElseOpen d) ∧
      (NothingElseOpen d → ParticipantsPosted x.reviews) := by
  have hserves := h.serves d hd
  cases hchosen with
  | machine pending owed completion stored =>
    have hphase : d.phase = .persistencePaused := hserves.persistence (by rw [owed]; rfl)
    have hstanding := hserves.standing
    rw [Standing, hphase] at hstanding
    obtain ⟨-, pending', howed, howes, -⟩ := hstanding
    obtain rfl : pending = pending' := some.inj (owed.symm.trans howed)
    cases howes with
    | next _ _ _ _ _ _ _ _ none => rw [completion] at none; cases none
    | restored _ _ restored _ _ _ aborted =>
      rw [completion] at aborted
      exact absurd (some.inj aborted) (hc restored)
    | last o t _ outcome _ ends _ _ _ unaborted _ posted =>
      rw [completion] at ends
      have hclean : NothingElseOpen d ↔ d.machine.isClean = true := by
        unfold NothingElseOpen isClean
        rw [if_neg (by rw [hphase]; decide), unaborted]
        simp only [isNone_none, Bool.true_and, List.all_eq_true, decide_eq_true_eq]
      refine ⟨?_, ?_, ?_⟩
      · rw [some.inj ends, DurableSubmission.runCompletion]
        split
        · exact .inl rfl
        · exact .inr rfl
      · rw [some.inj ends, DurableSubmission.runCompletion, hclean]
        split <;> simp_all
      · intro hnothing
        have hdone : pending.checkpointDone = true := stored (by rw [outcome]; rfl)
        exact participantsPosted_of_copy hserves.backed hcur (posted hdone (hclean.mp hnothing))
  | copy phase completion =>
    have hall : NothingElseOpen d ↔ allPosted d.review = true := by
      rw [allPosted_eq, NothingElseOpen, if_pos phase]
    refine ⟨?_, ?_, ?_⟩
    · rw [completion]
      split
      · exact .inl rfl
      · exact .inr rfl
    · rw [completion, hall]
      split <;> simp_all
    intro hnothing
    refine participantsPosted_of_copy hserves.backed hcur ?_
    intro t ht
    obtain ⟨dr, hdr, htarget⟩ := hserves.consistent.remote t ht
    obtain ⟨id, hid⟩ := allPosted_iff.mp (hall.mp hnothing) dr (findDraft_mem hdr) htarget
    exact ⟨dr, id, hdr, hid⟩
  | source completion => exact absurd completion (hc .draft)

/-- What the next process makes of the rows. -/
def rowsCompletion (st : InMemoryStore) (key : RemoteReviewIdentity) : SubmissionCompletion :=
  if allPosted (st.loadReview key) then .clean else .partialCompletion

theorem rowsCompletion_clean {key : RemoteReviewIdentity} :
    rowsCompletion st key = .clean ↔ NothingElseStored st key := by
  have hall : allPosted (st.loadReview key) = true ↔ NothingElseStored st key := by
    rw [allPosted_eq, loadReview_drafts, NothingElseStored]
  rw [← hall, rowsCompletion]
  split <;> simp_all

theorem rowsCompletion_cases (st : InMemoryStore) (key : RemoteReviewIdentity) :
    rowsCompletion st key = .clean ∨ rowsCompletion st key = .partialCompletion := by
  unfold rowsCompletion
  split
  · exact .inl rfl
  · exact .inr rfl

theorem rowsCompletion_accepted (hs : st.Sound) (hrun : st.activeRun = some run)
    (hcur : run.currentTempId = none) (hfault : st.failNextCompletion = false) :
    (st.completeSubmission run.operationId run.key (rowsCompletion st run.key)).1 = .ok () := by
  have hruns : st.Runs run.operationId run.key run := ⟨hrun, rfl, rfl⟩
  refine completeSubmission_accepts hfault hruns ?_
  rcases rowsCompletion_cases st run.key with hclean | hopen
  · rw [hclean]
    refine ⟨hcur, ?_⟩
    have hposted := participantsPosted_of_stored hs hrun (rowsCompletion_clean.mp hclean)
    rw [notClean, List.any_eq_false]
    intro item hitem
    obtain ⟨ds, hds, hstate⟩ := hposted run hrun item hitem
    rw [hds]
    cases hstate' : ds.state with
    | posted id => simp [hstate']
    | _ => simp [isPosted, hstate'] at hstate
  · rw [hopen]
    exact hcur

theorem recover_terminal {b : Bool} {source : BoundedText 64} (hrun : st.activeRun = some run)
    (hcur : run.currentTempId = none) (hsource : BoundedText.init 64 run.sourceCommit = some source)
    (hw : st.completeSubmission run.operationId run.key (rowsCompletion st run.key) = (.ok (), st')) :
    ((boot st b).update .recover).reviews = st' ∧
      ∃ result, ((boot st b).update .recover).submissionResult = some result ∧
        result.completion = rowsCompletion st run.key := by
  let notice : RecoveryNotice := ⟨run.operationId, run.key, source, run.currentTempId⟩
  have hboot : boot st b =
      { reviews := st, requireSourceCheck := b, recovery := some notice } := by
    simp only [boot, discoverRecovery, activeSubmission, hrun, hsource]
    rfl
  have hmatches : recoveryMatches notice run = true := by
    have hslice : source.slice = run.sourceCommit := by
      unfold BoundedText.init at hsource
      split at hsource
      · cases hsource
        rfl
      · cases hsource
    simp [recoveryMatches, notice, hslice]
  have hnone : notice.currentTempId = none := hcur
  rw [hboot]
  simp only [update, recoverSubmission, recoverRun, activeSubmission, hrun, hmatches,
    Bool.true_eq_false, if_false, hnone, if_true, completeRecoveredTerminal]
  have hwritten : st.completeSubmission notice.operationId notice.key
      (if allPosted (st.loadReview notice.key) then .clean else .partialCompletion) =
        (.ok (), st') := hw
  simp only [hwritten]
  exact ⟨trivial, _, rfl, foldl_countState_completion _ _⟩

/-- Without a source commit that fits there is nothing to recover from. -/
theorem recover_unknown {b : Bool} (hrun : st.activeRun = some run)
    (hsource : BoundedText.init 64 run.sourceCommit = none) :
    ((boot st b).update .recover).reviews = st := by
  simp only [boot, discoverRecovery, activeSubmission, hrun, hsource]
  rfl

theorem source_fits {commit : Bytes} :
    commit.length ≤ 64 ↔ ∃ source, BoundedText.init 64 commit = some source := by
  unfold BoundedText.init
  split
  · next hle => simp [hle]
  · next hlt => simp [hlt]

/-- Recovering from the last checkpoint, compared with the completion that follows it. -/
theorem recover_alike {p : Permits} {g : Memory} {t : Presentation} (b : Bool) (hinv : Inv p g x)
    (hcloses : Closes x t d c) (hc : ∀ restore, c ≠ .aborted restore) :
    (((boot x.reviews b).update .recover).reviews = t.reviews ∧
      ∃ result result', t.submissionResult = some result ∧
        ((boot x.reviews b).update .recover).submissionResult = some result' ∧
        result'.completion = result.completion ∧
        (result.completion = .clean ↔ ParticipantsPosted x.reviews)) ↔ Agrees x := by
  obtain ⟨hd, hw, ⟨result, hresult, hkind⟩, hchosen⟩ := hcloses
  have hserves := hinv.serves d hd
  obtain ⟨run, hruns, hdone, hcompletes⟩ := completeSubmission_ok hw
  have hcur : run.currentTempId = none := by
    cases c with
    | clean | partialCompletion => exact hcompletes.1
    | aborted restore => exact absurd rfl (hc restore)
  have hdcur : d.currentTempId = none := by
    obtain ⟨run', hruns', hsame, -⟩ := hserves.backed.run
    obtain rfl : run' = run := some.inj (hruns'.active.symm.trans hruns.active)
    exact hsame.symm.trans hcur
  obtain ⟨hkinds, hclean, hposted⟩ := chosen_clean hinv hd hchosen hdcur hc
  have hsound := hinv.stored.sound
  have hfault : x.reviews.failNextCompletion = false :=
    congrArg InMemoryStore.failNextCompletion (completeSubmission_unarmed hw).symm
  by_cases hlen : run.sourceCommit.length ≤ 64
  · obtain ⟨source, hsource⟩ := source_fits.mp hlen
    rcases hrow : x.reviews.completeSubmission run.operationId run.key
      (rowsCompletion x.reviews run.key) with ⟨answer, st'⟩
    have haccepted := rowsCompletion_accepted hsound hruns.active hcur hfault
    rw [hrow] at haccepted
    obtain rfl : answer = .ok () := haccepted
    obtain ⟨hstore, result', hresult', hkind'⟩ :=
      recover_terminal (b := b) hruns.active hcur hsource hrow
    constructor
    · rintro ⟨-, result₀, result₁, h₀, h₁, hsame, hiff⟩
      obtain rfl : result = result₀ := some.inj (hresult.symm.trans h₀)
      obtain rfl : result' = result₁ := some.inj (hresult'.symm.trans h₁)
      rw [hkind] at hsame hiff
      rw [hkind'] at hsame
      refine ⟨?_, ?_, ?_⟩
      · intro run' hrun'
        rw [hruns.active] at hrun'
        cases hrun'
        exact hlen
      · intro hall d' hd'
        rw [hd] at hd'
        cases hd'
        exact hclean.mp (hiff.mpr hall)
      · intro hall run' hrun'
        rw [hruns.active] at hrun'
        cases hrun'
        exact rowsCompletion_clean.mp (hsame.trans (hiff.mpr hall))
    · intro hagrees
      have hiff : c = .clean ↔ ParticipantsPosted x.reviews :=
        ⟨fun heq => hposted (hclean.mp heq), fun hall => hclean.mpr (hagrees.runs hall d hd)⟩
      have hrows : rowsCompletion x.reviews run.key = .clean ↔ ParticipantsPosted x.reviews :=
        ⟨fun heq => participantsPosted_of_stored hsound hruns.active (rowsCompletion_clean.mp heq),
          fun hall => rowsCompletion_clean.mpr (hagrees.stored hall run hruns.active)⟩
      have hsame : rowsCompletion x.reviews run.key = c := by
        rcases hkinds with rfl | rfl
        · exact hrows.mpr (hiff.mp rfl)
        · refine (rowsCompletion_cases x.reviews run.key).resolve_left ?_
          intro heq
          exact absurd (hiff.mpr (hrows.mp heq)) (by decide)
      refine ⟨?_, result, result', hresult, hresult', ?_, ?_⟩
      · rw [hsame, hruns.operationId, hruns.key, hw] at hrow
        rw [hstore]
        exact (congrArg Prod.snd hrow).symm
      · rw [hkind', hkind, hsame]
      · rw [hkind]
        exact hiff
  · have hunknown : BoundedText.init 64 run.sourceCommit = none := by
      cases hinit : BoundedText.init 64 run.sourceCommit with
      | none => rfl
      | some source => exact absurd (source_fits.mpr ⟨source, hinit⟩) hlen
    constructor
    · rintro ⟨hstore, -⟩
      rw [recover_unknown hruns.active hunknown] at hstore
      have hidle := hdone.idle
      rw [← hstore, hruns.active] at hidle
      cases hidle
    · intro hagrees
      exact absurd (hagrees.source run hruns.active) hlen

/-- In every state of every history, for every input that ends a run. -/
theorem ends_alike (st : InMemoryStore) (requireSourceCheck : Bool) (es : List Input)
    (s : Presentation) (e : Input) (hst : Idle st)
    (h : Run Steps (boot st requireSourceCheck) es s) (hends : EndsRun s e) :
    EndsAlike s e ↔ Agrees (lastCheckpoint s e) := by
  obtain ⟨d₀, hd₀⟩ := isSome_iff_exists.mp hends.running
  obtain ⟨d, c, hcloses⟩ := parts_update hd₀ hends.survives hends.unabandoned hends.ended
  have hinv : Inv anything blank (lastCheckpoint s e) := by
    have hx : Run Steps (boot st requireSourceCheck) (es ++ [.failNextCompletion, e])
        (lastCheckpoint s e) := h.append (.cons rfl (.single rfl))
    exact inv_of_history hst (.inl trivial)
      (hx.mono (fun {s e t} hstep => ⟨hstep, allows_anything s e⟩))
  have hc : ∀ restore, c ≠ .aborted restore := by
    obtain ⟨result, hresult, hkind⟩ := hcloses.shown
    rintro restore rfl
    rcases hends.completed result hresult with heq | heq
    · rw [hkind] at heq
      cases heq
    · rw [hkind] at heq
      cases heq
  have halike := recover_alike (lastCheckpoint s e).requireSourceCheck hinv hcloses hc
  constructor
  · intro hboth
    exact halike.mp ⟨hboth.store, hboth.completion⟩
  · intro hagrees
    obtain ⟨hstore, hcompletion⟩ := halike.mpr hagrees
    exact ⟨hstore, hcompletion⟩

/-- Both Drafts are posted, and nothing else is there. -/
theorem ends_alike_twoDrafts :
    EndsAlike (replay (boot twoDrafts false)
      [.start ⟨[], [], 1⟩ [] none, .take, .postCompleted 0 (.posted 7) none, .take])
      (.postCompleted 0 (.posted 8) none) := by
  have hends : EndsRun (replay (boot twoDrafts false)
      [.start ⟨[], [], 1⟩ [] none, .take, .postCompleted 0 (.posted 7) none, .take])
      (.postCompleted 0 (.posted 8) none) :=
    ⟨by decide, by rintro ⟨⟩, id, by decide, by decide⟩
  refine (ends_alike twoDrafts false [.start ⟨[], [], 1⟩ [] none, .take,
    .postCompleted 0 (.posted 7) none, .take] _ _ (Idle.of_rows rfl (by decide))
    (.cons rfl (.cons rfl (.cons rfl (.cons rfl (.nil _))))) hends).mpr ⟨?_, ?_, ?_⟩
  · decide
  · decide
  · decide

/-- A Draft written while the run is out: completed at once the run is clean, recovered it is not. -/
theorem added_draft_ends_apart : ¬ ∀ (st : InMemoryStore) (requireSourceCheck : Bool)
    (es : List Input) (s : Presentation) (e : Input), Idle st →
    Run Steps (boot st requireSourceCheck) es s → EndsRun s e → EndsAlike s e := by
  intro hclaim
  have halike := hclaim (holding ⟨[], [], 1⟩ [{ localId := 1 }]) false
    [.start ⟨[], [], 1⟩ [] none, .edit (.put ⟨[], [], 1⟩ { localId := 2 }), .take] _
    (.postCompleted 0 (.posted 7) none) (Idle.of_rows rfl (by decide))
    (.cons rfl (.cons rfl (.cons rfl (.nil _))))
    ⟨by decide, by rintro ⟨⟩, id, by decide, by decide⟩
  exact absurd halike.store (by decide)

end Bbr.Tui
