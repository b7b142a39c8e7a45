import Bbr.Tui.Answers

/-!
# Commands out and commands answered

Of the commands issued, at most one belongs to the Submission and is awaited; the others are ignored
when they complete. Once the awaited one is answered nothing is out, and what a driver function
publishes stands again.
-/
namespace Bbr.Tui

open Bbr.Bitbucket Bbr.Review Bbr.Lib Submission Presentation List

variable {p : Permits} {g g' : Memory} {s : Presentation} {d d' : DurableSubmission}
  {st st' : InMemoryStore} {t c : TempId} {dr : Draft} {parent : Option CommentId}
  {queued issued : List Command} {command : Command} {i : Nat}

theorem filter_eraseIdx {α : Type} (q : α → Bool) {l : List α} {a : α} (h : l[i]? = some a) :
    ∃ before after, l.filter q = before ++ (if q a then [a] else []) ++ after ∧
      (l.eraseIdx i).filter q = before ++ after := by
  obtain ⟨hi, rfl⟩ := List.getElem?_eq_some_iff.mp h
  refine ⟨(l.take i).filter q, (l.drop (i + 1)).filter q, ?_, ?_⟩
  · conv_lhs => rw [← List.take_append_drop i l, List.drop_eq_getElem_cons hi]
    rw [List.filter_append, List.filter_cons]
    split <;> simp
  · rw [List.eraseIdx_eq_take_drop_succ, List.filter_append]

/-- The awaited command is the only one of the Submission, and its answer leaves none. -/
theorem own_answered {a : Command} (ho : own d issued = [a]) (hi : issued[i]? = some command)
    (hop : command.operationId = d.operationId) :
    command = a ∧ own d (issued.eraseIdx i) = [] := by
  obtain ⟨before, after, hall, hrest⟩ := filter_eraseIdx
    (fun c : Command => decide (c.operationId = d.operationId)) hi
  unfold own at ho ⊢
  rw [if_pos (by simpa using hop)] at hall
  rw [ho] at hall
  have hlen := congrArg length hall
  simp only [length_append, length_cons, length_nil] at hlen
  have hb : before = [] := length_eq_zero_iff.mp (by omega)
  have ha : after = [] := length_eq_zero_iff.mp (by omega)
  subst hb
  subst ha
  simp only [nil_append, append_nil, cons.injEq, and_true] at hall
  exact ⟨hall.symm, hrest⟩

theorem own_foreign (hi : issued[i]? = some command) (hop : command.operationId ≠ d.operationId) :
    own d (issued.eraseIdx i) = own d issued := by
  obtain ⟨before, after, hall, hrest⟩ := filter_eraseIdx
    (fun c : Command => decide (c.operationId = d.operationId)) hi
  unfold own
  rw [hrest, hall, if_neg (by simpa using hop), append_nil]

/-- The completion of this command is admitted. -/
def Awaited (d : DurableSubmission) : Command → Prop
  | .postDraft post => admits d post.operationId post.identity post.draft.localId .awaitingPost = true
  | .waitSubmission wait => admits d wait.operationId wait.identity wait.tempId .awaitingWait = true
  | .checkRecovery check => d.operationId = check.operationId ∧ d.key = check.identity ∧
      d.phase = .awaitingRecoveryCheck
  | .findDuplicate find =>
    admits d find.operationId find.identity find.draft.localId .awaitingDuplicate = true

instance (d : DurableSubmission) : (command : Command) → Decidable (Awaited d command)
  | .postDraft post => inferInstanceAs (Decidable (admits d post.operationId post.identity
      post.draft.localId .awaitingPost = true))
  | .waitSubmission wait => inferInstanceAs (Decidable (admits d wait.operationId wait.identity
      wait.tempId .awaitingWait = true))
  | .checkRecovery check => inferInstanceAs (Decidable (d.operationId = check.operationId ∧
      d.key = check.identity ∧ d.phase = .awaitingRecoveryCheck))
  | .findDuplicate find => inferInstanceAs (Decidable (admits d find.operationId find.identity
      find.draft.localId .awaitingDuplicate = true))

theorem Awaited.operation (h : Awaited d command) : command.operationId = d.operationId := by
  cases command with
  | postDraft post | waitSubmission wait | findDuplicate find => exact (of_decide_eq_true h).1.symm
  | checkRecovery check => exact h.1.symm

theorem Carries.localId {find : PostDraft} (h : Carries d dr parent find) (hin : InHand d t dr parent) :
    find.draft.localId = t := by
  obtain ⟨state, hdraft⟩ := h.draft
  rw [hdraft]
  exact hin.localId

/-- At most one command of a standing Submission is out, and an issued one is awaited; only POSTs
that went out without a checkpoint are neither. -/
theorem Standing.out (h : Standing p g d queued issued) : (queued = [] ∧ issued = []) ∨
      (∃ command, queued = [command] ∧ issued = [] ∧ command.operationId = d.operationId ∧
        (d.phase = .postQueued ∨ d.phase = .waitQueued ∨ d.phase = .recoveryCheckQueued ∨
          d.phase = .duplicateQueued)) ∨
      (∃ command, queued = [] ∧ issued = [command] ∧ Awaited d command) ∨
      (p.strands ∧ d.phase = .postQueued ∧ Stray d queued issued) := by
  unfold Standing at h
  generalize hphase : d.phase = phase at h
  cases phase with
  | postQueued =>
    rcases h with ⟨t, dr, parent, command, hat, -, hcar, -, rfl, rfl⟩ | ⟨hp, hstray⟩
    · exact .inr (.inl ⟨_, rfl, rfl, hcar.operation, .inl rfl⟩)
    · exact .inr (.inr (.inr ⟨hp, rfl, hstray⟩))
  | awaitingPost =>
    rcases h with ⟨t, dr, parent, command, hat, hcar, -, rfl, rfl⟩ | ⟨-, -, hq, hi⟩
    · refine .inr (.inr (.inl ⟨_, rfl, rfl, decide_eq_true ⟨hcar.operation.symm,
        hcar.identity.symm, ?_, hphase⟩⟩))
      rw [hcar.localId hat.toInHand]
      exact hat.current
    · exact .inl ⟨hq, hi⟩
  | postRetryPaused | admissionPaused =>
    obtain ⟨t, dr, parent, -, -, hrest⟩ := h
    exact .inl hrest
  | waitQueued =>
    obtain ⟨t, dr, parent, -, -, rfl, rfl⟩ := h
    exact .inr (.inl ⟨_, rfl, rfl, rfl, .inr (.inl rfl)⟩)
  | awaitingWait =>
    obtain ⟨t, dr, parent, hat, -, rfl, rfl⟩ := h
    exact .inr (.inr (.inl ⟨_, rfl, rfl, decide_eq_true ⟨rfl, rfl, hat.current, hphase⟩⟩))
  | waitRetryPaused | duplicateCheckPaused =>
    obtain ⟨t, dr, parent, -, -, -, hrest⟩ := h
    exact .inl hrest
  | persistencePaused =>
    obtain ⟨-, pending, -, -, -, -, hrest⟩ := h
    exact .inl hrest
  | recoveryCheckQueued =>
    obtain ⟨source, -, rfl, rfl⟩ := h
    exact .inr (.inl ⟨_, rfl, rfl, rfl, .inr (.inr (.inl rfl))⟩)
  | awaitingRecoveryCheck =>
    obtain ⟨source, -, rfl, rfl⟩ := h
    exact .inr (.inr (.inl ⟨_, rfl, rfl, rfl, rfl, hphase⟩))
  | recoveryCheckPaused =>
    obtain ⟨source, -, hrest⟩ := h
    exact .inl hrest
  | recoverySourceChanged => exact h.elim
  | duplicateQueued =>
    obtain ⟨t, dr, parent, command, -, hcar, rfl, rfl⟩ := h
    exact .inr (.inl ⟨_, rfl, rfl, hcar.operation, .inr (.inr (.inr rfl))⟩)
  | awaitingDuplicate =>
    rcases h with ⟨t, dr, parent, command, hat, hcar, rfl, rfl⟩ | ⟨-, -, hrest⟩
    · refine .inr (.inr (.inl ⟨_, rfl, rfl, decide_eq_true ⟨hcar.operation.symm,
        hcar.identity.symm, ?_, hphase⟩⟩))
      rw [hcar.localId hat.toInHand]
      exact hat.current
    · exact .inl hrest
  | duplicatePersistencePaused =>
    obtain ⟨-, pending, outcome, -, -, -, -, hrest⟩ := h
    exact .inl hrest

theorem absent {α : Type} {x : Option α} {P : Prop} (h : x = none) (hsome : x.isSome = true) : P := by
  rw [h] at hsome
  cases hsome

/-- A Submission with nothing paused serves as it stands, whatever its phase has become. -/
theorem Serves.of_core (hc : Consistent d) (hb : Backed g d st) (hadm : d.pendingAdmission = none)
    (hper : d.pendingPersistence = none) (hcore : core d' = core d)
    (ha : d'.pendingAdmission = d.pendingAdmission)
    (hp : d'.pendingPersistence = d.pendingPersistence) (hs : Standing p g d' queued issued)
    (hl : g.left (effectsLeft d')) : Serves p g d' st queued issued where
  consistent := hc.core hcore
  backed := hb.core hcore
  admission := absent (ha.trans hadm)
  persistence := absent (hp.trans hper)
  standing := hs
  left := hl

theorem Serves.no_admission (h : Serves p g d st queued issued) (hphase : d.phase ≠ .admissionPaused) :
    d.pendingAdmission = none := by
  cases hpend : d.pendingAdmission with
  | none => rfl
  | some x => exact absurd (h.admission (by rw [hpend]; rfl)) hphase

theorem Serves.no_persistence (h : Serves p g d st queued issued)
    (hphase : d.phase ≠ .persistencePaused) : d.pendingPersistence = none := by
  cases hpend : d.pendingPersistence with
  | none => rfl
  | some x => exact absurd (h.persistence (by rw [hpend]; rfl)) hphase

theorem Standing.operation (h : Standing p g d queued issued) :
    ∀ command ∈ queued ++ issued, command.operationId = d.operationId := by
  intro command hmem
  rcases h.out with ⟨rfl, rfl⟩ | ⟨c, rfl, rfl, hop, -⟩ | ⟨c, rfl, rfl, haw⟩ | ⟨-, -, hstray⟩
  · cases hmem
  · rw [mem_singleton.mp hmem]
    exact hop
  · rw [mem_singleton.mp hmem]
    exact haw.operation
  · obtain ⟨post, rfl, hop, -⟩ := hstray command hmem
    exact hop

theorem Standing.posting {post : PostDraft} (h : Standing p g d [] [.postDraft post])
    (haw : Awaited d (.postDraft post)) : d.phase = .awaitingPost ∧
      ∃ t dr parent, AtPost d t dr parent ∧ Carries d dr parent post := by
  have hphase := (of_decide_eq_true haw).2.2.2
  rw [Standing, hphase] at h
  rcases h with ⟨t, dr, parent, command, hat, hcar, -, -, hone⟩ | ⟨-, -, -, hnone⟩
  · cases hone
    exact ⟨hphase, t, dr, parent, hat, hcar⟩
  · cases hnone

theorem Standing.waiting {wait : WaitSubmission} (h : Standing p g d [] [.waitSubmission wait])
    (haw : Awaited d (.waitSubmission wait)) : d.phase = .awaitingWait ∧ ∃ t dr parent,
      AtWait d t dr parent ∧ (d.machine.slot.ambiguous = false → g.cold d.key t) ∧
      wait = waitOf d t := by
  have hphase := (of_decide_eq_true haw).2.2.2
  rw [Standing, hphase] at h
  obtain ⟨t, dr, parent, hat, hcold, -, hone⟩ := h
  cases hone
  exact ⟨hphase, t, dr, parent, hat, hcold, rfl⟩

theorem Rechecks.remember {source : BoundedText 64} (h : Rechecks g d source)
    (hcold : ∀ key x, g.cold key x → g'.cold key x) : Rechecks g' d source := by
  obtain ⟨hs, ⟨t, dr, parent, hin, hw, hb⟩, hv, hu⟩ := h
  exact ⟨hs, ⟨t, dr, parent, hin, fun h₁ h₂ => hcold _ _ (hw h₁ h₂), fun h₁ =>
    ⟨(hb h₁).1, hcold _ _ (hb h₁).2⟩⟩, hv, hu⟩

theorem Standing.remember (h : Standing p g d queued issued)
    (hcold : ∀ key x, g.cold key x → g'.cold key x) : Standing p g' d queued issued := by
  unfold Standing at h ⊢
  generalize hphase : d.phase = phase at h ⊢
  cases phase with
  | postQueued =>
    refine h.imp ?_ id
    rintro ⟨t, dr, parent, command, hat, hc, hrest⟩
    exact ⟨t, dr, parent, command, hat, hcold _ _ hc, hrest⟩
  | postRetryPaused =>
    obtain ⟨t, dr, parent, hat, hc, hrest⟩ := h
    exact ⟨t, dr, parent, hat, hcold _ _ hc, hrest⟩
  | waitQueued | awaitingWait =>
    obtain ⟨t, dr, parent, hat, hc, hrest⟩ := h
    exact ⟨t, dr, parent, hat, fun hclear => hcold _ _ (hc hclear), hrest⟩
  | waitRetryPaused =>
    obtain ⟨t, dr, parent, hat, hw, hc, hrest⟩ := h
    exact ⟨t, dr, parent, hat, hw, fun hclear => (hc hclear).imp (hcold _ _) id, hrest⟩
  | admissionPaused =>
    obtain ⟨t, dr, parent, hpend, hcase, hrest⟩ := h
    refine ⟨t, dr, parent, hpend, hcase.imp ?_ id, hrest⟩
    rintro ⟨hat, hp, hc⟩
    exact ⟨hat, hp, fun hclear => hcold _ _ (hc hclear)⟩
  | recoveryCheckQueued | awaitingRecoveryCheck | recoveryCheckPaused =>
    obtain ⟨source, hr, hrest⟩ := h
    exact ⟨source, hr.remember hcold, hrest⟩
  | awaitingPost | persistencePaused | recoverySourceChanged | duplicateQueued | awaitingDuplicate
  | duplicateCheckPaused | duplicatePersistencePaused => exact h

theorem Serves.remember (h : Serves p g d st queued issued)
    (hcold : ∀ key x, g.cold key x → g'.cold key x)
    (hi : ∀ was, g.intent was → g'.intent was) (hl : ∀ n, g.left n → g'.left n) :
    Serves p g' d st queued issued where
  consistent := h.consistent
  backed := h.backed.remember hi
  admission := h.admission
  persistence := h.persistence
  standing := h.standing.remember hcold
  left := hl _ h.left

/-- The Submission with this operation id has no command out. -/
structure Vacant (p : Permits) (operationId : OperationId) (s : Presentation) : Prop where
  commands : s.commands = []
  issued : ∀ command ∈ s.issued, command.operationId ≠ operationId ∧
    command.operationId < s.reviews.nextOperationId
  owned : p.abandons ∨ s.issued = []
  recovery : s.recovery = none

theorem Vacant.own (h : Vacant p d.operationId s) (hissued : issued = s.issued) :
    own d issued = [] := by
  subst hissued
  refine filter_eq_nil_iff.mpr ?_
  intro command hmem
  simpa using (h.issued command hmem).1

theorem Stored.operation (hs : Stored p st) (hb : Backed g d st) :
    d.operationId < st.nextOperationId := by
  obtain ⟨run, hrun, -⟩ := hb.run
  rw [← hrun.operationId]
  exact hs.sound.fresh run hrun.active

section

variable (hv : Vacant p d.operationId s) (hop : d'.operationId = d.operationId)
  (hnext : st.nextOperationId = s.reviews.nextOperationId) (hs : Stored p st)
include hv hop hnext hs

theorem Vacant.serving (h : Serves p g d' st queued []) :
    Inv p g { s with durable := some d', reviews := st, commands := queued } where
  stored := hs
  fresh := by
    intro command hmem
    rcases mem_append.mp hmem with hq | hi
    · rw [h.standing.operation command (mem_append_left _ hq)]
      exact hs.operation h.backed
    · rw [hnext]
      exact (hv.issued command hi).2
  serves := by
    rintro _ ⟨⟩
    have : Tui.own d' s.issued = [] := by
      rw [hop.symm] at hv
      exact hv.own rfl
    rw [this]
    exact h
  rest := by rintro ⟨⟩
  owned := by
    rcases hv.owned with hp | hnone
    · exact .inl hp
    · refine .inr ?_
      rw [hnone]
      rintro _ ⟨⟩
  notice := by
    intro notice hn
    have : s.recovery = some notice := hn
    rw [hv.recovery] at this
    cases this

theorem Vacant.pausing (h : Serves p g d' st [] []) :
    Inv p g { s with durable := some d', reviews := st } := by
  have hinv := hv.serving hop hnext hs h
  rw [← hv.commands] at hinv
  exact hinv

theorem Vacant.queuing (h : Serves p g d' st [command] []) :
    Inv p g ({ s with durable := some d', reviews := st }.queue command) := by
  have hinv := hv.serving hop hnext hs h
  have hone : s.commands ++ [command] = [command] := by
    rw [hv.commands]
    rfl
  rw [← hone] at hinv
  exact hinv

end

theorem Vacant.ended {operationId : OperationId} (hv : Vacant p operationId s)
    (hnext : st.nextOperationId = s.reviews.nextOperationId) (hs : Stored p st)
    (result : Option SubmissionResultProjection) :
    Inv p g { s with durable := none, reviews := st, submissionResult := result } where
  stored := hs
  fresh := by
    intro command hmem
    simp only [hv.commands, nil_append] at hmem
    rw [hnext]
    exact (hv.issued command hmem).2
  serves := by rintro _ ⟨⟩
  rest := fun _ => hv.commands
  owned := by
    rcases hv.owned with hp | hnone
    · exact .inl hp
    · refine .inr ?_
      rw [hnone]
      rintro _ ⟨⟩
  notice := by
    intro notice hn
    have : s.recovery = some notice := hn
    rw [hv.recovery] at this
    cases this

theorem Vacant.published (hv : Vacant p d.operationId s)
    {done : Except DriverError AfterPost × DurableSubmission × InMemoryStore}
    (h : Published p g d s.reviews done) : Inv p g (s.publish done) := by
  obtain ⟨result, d', st'⟩ := done
  cases result with
  | error err => exact hv.pausing h.same.1 h.operations h.stored (h.paused err rfl)
  | ok progress =>
    cases progress with
    | next command transition =>
      exact hv.queuing h.same.1 h.operations h.stored (h.next command transition rfl)
    | check command => exact hv.queuing h.same.1 h.operations h.stored (h.check command rfl)
    | wait wait => exact hv.queuing h.same.1 h.operations h.stored (h.wait wait rfl)
    | finished result transition => exact hv.ended h.operations h.stored (some result)

theorem Inv.vacant (h : Inv p g s) (hd : s.durable = some d) (hq : s.commands = [])
    (hissued : own d issued = []) (hall : ∀ command ∈ issued, command ∈ s.issued) :
    Vacant p d.operationId { s with issued := issued } where
  commands := hq
  issued := by
    intro command hmem
    refine ⟨?_, h.fresh command (mem_append_right _ (hall command hmem))⟩
    intro hop
    have : command ∈ own d issued := mem_filter.mpr ⟨hmem, by simpa using hop⟩
    rw [hissued] at this
    cases this
  owned := by
    rcases h.owned with hp | hmine
    · exact .inl hp
    refine .inr ?_
    rw [← hissued, own, eq_comm, filter_eq_self]
    intro command hmem
    obtain ⟨d', hd', hop⟩ := hmine command (hall command hmem)
    rw [hd] at hd'
    cases hd'
    simpa using hop
  recovery := by
    cases hrec : s.recovery with
    | none => rfl
    | some notice =>
      have := (h.notice notice hrec).1
      rw [hd] at this
      cases this

theorem Inv.answered (h : Inv p g s) (hd : s.durable = some d) (hi : s.issued[i]? = some command)
    (hw : Awaited d command) :
    Vacant p d.operationId (s.consumeCommand i) ∧ Standing p g d [] [command] := by
  have hserves := h.serves d hd
  have hmem : command ∈ own d s.issued :=
    mem_filter.mpr ⟨mem_of_getElem? hi, by simpa using hw.operation⟩
  rcases hserves.standing.out with ⟨-, hnone⟩ | ⟨c, -, hnone, -⟩ | ⟨c, hq, hone, hc⟩ |
    ⟨-, hphase, hstray⟩
  · rw [hnone] at hmem
    cases hmem
  · rw [hnone] at hmem
    cases hmem
  · obtain ⟨rfl, hrest⟩ := own_answered hone hi hw.operation
    refine ⟨h.vacant hd hq hrest (fun _ hm => mem_of_mem_eraseIdx hm), ?_⟩
    have := hserves.standing
    rw [hq, hone] at this
    exact this
  · obtain ⟨post, rfl, -, -⟩ := hstray command (mem_append_right _ hmem)
    have hawait := (of_decide_eq_true hw).2.2.2
    rw [hphase] at hawait
    cases hawait

theorem Inv.passed_over (h : Inv p g s) (hi : s.issued[i]? = some command)
    (hw : ∀ d, s.durable = some d → ¬ Awaited d command) : Inv p g (s.consumeCommand i) where
  stored := h.stored
  fresh := by
    intro c hmem
    refine h.fresh c ?_
    rcases mem_append.mp hmem with hq | hm
    · exact mem_append_left _ hq
    · exact mem_append_right _ (mem_of_mem_eraseIdx hm)
  serves := by
    intro d hd
    have hserves := h.serves d hd
    by_cases hop : command.operationId = d.operationId
    · have hmem : command ∈ own d s.issued := mem_filter.mpr ⟨mem_of_getElem? hi, by simpa using hop⟩
      rcases hserves.standing.out with ⟨-, hnone⟩ | ⟨c, -, hnone, -⟩ | ⟨c, hq, hone, hc⟩ |
        ⟨hp, hphase, hstray⟩
      · rw [hnone] at hmem
        cases hmem
      · rw [hnone] at hmem
        cases hmem
      · obtain ⟨rfl, -⟩ := own_answered hone hi hop
        exact absurd hc (hw d hd)
      refine { hserves with standing := ?_ }
      rw [Standing, hphase]
      refine .inr ⟨hp, ?_⟩
      intro c hc
      refine hstray c ?_
      rcases mem_append.mp hc with hq | hm
      · exact mem_append_left _ hq
      · obtain ⟨hm, hown⟩ := mem_filter.mp hm
        exact mem_append_right _ (mem_filter.mpr ⟨mem_of_mem_eraseIdx hm, hown⟩)
    · have heq : own d (s.consumeCommand i).issued = own d s.issued := own_foreign hi hop
      rw [heq]
      exact hserves
  rest := h.rest
  owned := h.owned.imp id (fun hmine c hm => hmine c (mem_of_mem_eraseIdx hm))
  notice := by
    intro notice hn
    obtain ⟨hnone, hissued, hactive⟩ := h.notice notice hn
    have : s.issued.eraseIdx i = [] := by
      rw [hissued]
      rfl
    exact ⟨hnone, this, hactive⟩

theorem Inv.remember (h : Inv p g s) (hcold : ∀ key x, g.cold key x → g'.cold key x)
    (hi : ∀ was, g.intent was → g'.intent was) (hl : ∀ n, g.left n → g'.left n) :
    Inv p g' s :=
  { h with serves := fun d hd => (h.serves d hd).remember hcold hi hl }

end Bbr.Tui
