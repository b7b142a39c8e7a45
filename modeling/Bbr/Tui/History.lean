import Bbr.Tui.Invariant

/-!
# Histories of the driver

A history starts in a process over a store without an active run. Every history whose steps leave the
protocol only as permitted keeps the invariant, with whatever its observer remembers of it.
-/
namespace Bbr.Tui

open Bbr.Bitbucket Bbr.Review Bbr.Lib Submission Presentation

variable {p : Permits} {s t : Presentation} {st : InMemoryStore} {es : List Input}

/-- A store that no run is active in: nothing is being submitted. -/
structure Idle (st : InMemoryStore) : Prop where
  inactive : st.activeRun = none
  settled : ∀ key t d, st.draftEntry key t = some d → d.state ≠ .submitting

theorem Idle.stored (h : Idle st)
    (hw : p.refuses ∨ (st.failNextCheckpoint = false ∧ st.failNextCompletion = false)) :
    Stored p st where
  sound := .of_idle h.inactive h.settled
  retries := by
    intro run checkpoint hrun
    rw [h.inactive] at hrun
    cases hrun
  willing := hw

theorem Idle.of_rows (hrun : st.activeRun = none)
    (h : ∀ e ∈ st.entries.rows, e.draft.state ≠ .submitting) : Idle st where
  inactive := hrun
  settled := by
    intro key t d hd
    obtain ⟨e, he, rfl⟩ := Option.map_eq_some_iff.mp hd
    exact h e (Keyed.lookup_mem he)

/-- A store that holds these Drafts of one review. -/
def holding (key : RemoteReviewIdentity) (drafts : List Draft) : InMemoryStore :=
  { entries := drafts.foldl (fun rows d => rows.put ⟨key, d⟩) .empty }

/-- Two Drafts to publish. -/
def twoDrafts : InMemoryStore := holding ⟨[], [], 1⟩ [{ localId := 1 }, { localId := 2 }]

/-- The inputs one after another. -/
def replay (s : Presentation) (es : List Input) : Presentation := es.foldl update s

/-- The memory that asks for nothing. -/
def blank : Memory := ⟨fun _ _ => True, fun _ => True, fun _ => True⟩

theorem recalls_blank (s : Presentation) (e : Input) : Recalls blank blank s e where
  cold := fun _ _ _ => .inl trivial
  settled := fun _ _ _ => .inl trivial
  pending := fun _ _ _ _ _ => .inl trivial
  launchFailed := fun _ _ _ _ _ => trivial
  misplaced := fun _ _ _ _ _ _ _ _ _ => trivial
  intent := fun _ _ _ => trivial
  begins := fun _ _ _ _ _ _ _ _ _ => trivial
  less := fun _ _ _ _ _ => trivial
  same := fun _ _ _ _ => trivial
  starts := fun _ _ _ _ _ => trivial

/-- A step that leaves the protocol only as permitted. -/
def Within (p : Permits) (s : Presentation) (e : Input) (t : Presentation) : Prop :=
  Steps s e t ∧ Allows p s e

theorem Inv.run (h : Run (Within p) s es t) (hs : Inv p blank s) : Inv p blank t := by
  refine h.invariant (Inv p blank) ?_ hs
  rintro s e t ⟨rfl, ha⟩ hs
  exact hs.update ha (recalls_blank s e)

theorem inv_of_history {requireSourceCheck : Bool} (hst : Idle st)
    (hw : p.refuses ∨ (st.failNextCheckpoint = false ∧ st.failNextCompletion = false))
    (h : Run (Within p) (boot st requireSourceCheck) es s) : Inv p blank s :=
  Inv.run h (boot_inv (hst.stored hw))

end Bbr.Tui
