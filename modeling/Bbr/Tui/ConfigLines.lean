import Bbr.Tui.Config

/-!
# Lines of an accepted configuration

No line of an accepted file reports anything. What such a line does depends neither on its number
nor on the theme, once a theme is set or a table is open.
-/
namespace Bbr.Tui.Config

open Bbr.Config
open Bbr.Diff (ascii parseInt)
open Tui.Keymap (Vaxis)

/-- Reports and the theme that was seen are kept, and the table is the same. -/
structure Keeps (s t : State) : Prop where
  quiet : t.diagnostics = [] → s.diagnostics = []
  seen : s.themeSeen = true → t.themeSeen = true
  sameTable : t.section_ = s.section_

variable {vaxis : Vaxis} {line line' : Nat} {key value raw : Bytes} {parser : LineParser}
  {s t : State} {id : ThemeId}

theorem report_ne {line column : Nat} {message : String} {hint : Option String} :
    (s.report line column message hint).diagnostics ≠ [] := by simp [State.report]

section

variable (s)

theorem report_keeps (line column : Nat) (message : String) (hint : Option String) :
    Keeps s (s.report line column message hint) where
  quiet h := absurd h report_ne
  seen h := h
  sameTable := rfl

theorem assign_keeps : Keeps s (assign line key value s) := by
  unfold assign assignRoot assignHighlight assignFilesCache assignComments assignInputMouse
    assignExternalEdit
  repeat' split
  all_goals constructor <;> simp [State.report]

theorem readKeymap_keeps : Keeps s (readKeymap vaxis line key parser s) := by
  unfold readKeymap
  split
  · exact report_keeps _ _ _ _ _
  simp only
  split_ifs
  · exact report_keeps _ _ _ _ _
  · exact report_keeps _ _ _ _ _
  · exact report_keeps _ _ _ _ _
  · split
    · exact report_keeps _ _ _ _ _
    · exact ⟨fun h => h, fun h => h, rfl⟩

theorem readGrammar_keeps : Keeps s (readGrammar line key parser s) := by
  unfold readGrammar
  split
  · exact report_keeps _ _ _ _ _
  split
  · exact report_keeps _ _ _ _ _
  · simp only
    split_ifs
    all_goals constructor <;> simp [State.report]

theorem readEntry_keeps : Keeps s (readEntry vaxis line key parser s) := by
  rw [readEntry]
  split
  · exact readKeymap_keeps s
  split
  · exact readGrammar_keeps s
  split
  · exact report_keeps _ _ _ _ _
  simp only
  split
  · exact report_keeps _ _ _ _ _
  · exact assign_keeps s

end

theorem sectionNamed_ne_root (name : Bytes) : sectionNamed name ≠ .root := by
  unfold sectionNamed
  split_ifs <;> simp

theorem readHeader_keeps (s : State) :
    ((readHeader line parser s).diagnostics = [] → s.diagnostics = []) ∧
      (readHeader line parser s).section_ ≠ .root ∧
      (readHeader line parser s).themeSeen = s.themeSeen := by
  unfold readHeader
  split
  · simp [State.report]
  rename_i name rest _
  have hne := sectionNamed_ne_root name
  simp only
  split_ifs <;> simp_all [State.report]

/-- The theme is set or a table is open. -/
def Settled (s : State) : Prop := s.themeSeen = true ∨ s.section_ ≠ .root

theorem Settled.keeps (h : Settled s) (hkeeps : Keeps s t) : Settled t := by
  cases h with
  | inl hseen => exact .inl (hkeeps.seen hseen)
  | inr htable => exact .inr (by rw [hkeeps.sameTable]; exact htable)

theorem readLine_quiet (h : (readLine vaxis line raw s).diagnostics = []) : s.diagnostics = [] := by
  rw [readLine] at h
  simp only at h
  split_ifs at h
  · exact h
  · exact (readHeader_keeps s).1 h
  · exact h
  split at h
  · exact absurd h report_ne
  · split at h
    · exact absurd h report_ne
    · exact (readEntry_keeps s).quiet h

theorem readLine_settled (h : Settled s) : Settled (readLine vaxis line raw s) := by
  rw [readLine]
  simp only
  split_ifs
  · exact h
  · exact .inr (readHeader_keeps s).2.1
  · exact h
  split
  · exact h
  · split
    · exact h
    · exact h.keeps (readEntry_keeps s)

theorem readLines_quiet {lines : List Bytes} (h : (readLines vaxis line lines s).diagnostics = []) :
    s.diagnostics = [] := by
  induction lines generalizing line s with
  | nil => exact h
  | cons raw lines ih => exact readLine_quiet (ih h)

/-- The same state with this theme, but for the numbers of lines. -/
def Moved (id : ThemeId) (s t : State) : Prop :=
  ∃ overrideLines mouseScrollLine externalEditLine, t = { s with
    theme := id
    themeSeen := true
    overrideLines := overrideLines
    mouseScrollLine := mouseScrollLine
    externalEditLine := externalEditLine }

theorem Moved.section_eq (h : Moved id s t) : t.section_ = s.section_ := by
  obtain ⟨lines, mouse, edit, rfl⟩ := h
  rfl

theorem assignRoot_moved (h : (assignRoot line key value s).diagnostics = [])
    (hseen : s.themeSeen = true) : Moved id (assignRoot line key value s) t := by
  unfold assignRoot at h
  simp only [hseen, if_true] at h
  split at h
  · exact absurd h report_ne
  · exact absurd h report_ne

section

variable (hmoved : Moved id s t)
include hmoved

theorem assign_moved (h : (assign line key value s).diagnostics = [])
    (hsettled : Settled s) : Moved id (assign line key value s) (assign line' key value t) := by
  rw [assign] at h
  rw [assign, assign, hmoved.section_eq]
  cases htable : s.section_ with
  | root =>
    rw [htable] at h
    cases hsettled with
    | inl hseen => exact assignRoot_moved h hseen
    | inr hopen => exact absurd htable hopen
  | highlight | filesCache | comments | inputMouse | externalEdit =>
    rw [htable] at h
    obtain ⟨lines, mouse, edit, rfl⟩ := hmoved
    simp only [assignHighlight, assignFilesCache, assignComments, assignInputMouse,
      assignExternalEdit] at h ⊢
    repeat' split
    all_goals simp_all [State.report, Moved]
  | keymap | userGrammar | logging | unknown => exact hmoved

theorem readKeymap_moved (h : (readKeymap vaxis line key parser s).diagnostics = []) :
    Moved id (readKeymap vaxis line key parser s) (readKeymap vaxis line' key parser t) := by
  obtain ⟨lines, mouse, edit, rfl⟩ := hmoved
  unfold readKeymap at h ⊢
  split at h
  · exact absurd h report_ne
  simp only at h ⊢
  split_ifs at h ⊢
  · exact absurd h report_ne
  · exact absurd h report_ne
  · exact absurd h report_ne
  · split at h
    · exact absurd h report_ne
    · exact ⟨_, _, _, rfl⟩

theorem readGrammar_moved (h : (readGrammar line key parser s).diagnostics = []) :
    Moved id (readGrammar line key parser s) (readGrammar line' key parser t) := by
  obtain ⟨lines, mouse, edit, rfl⟩ := hmoved
  unfold readGrammar at h ⊢
  split at h
  · exact absurd h report_ne
  split at h
  · exact absurd h report_ne
  · simp only at h ⊢
    split_ifs at h ⊢
    all_goals simp_all [State.report, Moved]

theorem readEntry_moved (h : (readEntry vaxis line key parser s).diagnostics = [])
    (hsettled : Settled s) :
    Moved id (readEntry vaxis line key parser s) (readEntry vaxis line' key parser t) := by
  rw [readEntry] at h
  rw [readEntry, readEntry, hmoved.section_eq]
  split_ifs at h ⊢
  · exact readKeymap_moved hmoved h
  · exact readGrammar_moved hmoved h
  split at h
  · exact absurd h report_ne
  simp only at h ⊢
  split_ifs at h ⊢
  · exact absurd h report_ne
  · exact assign_moved hmoved h hsettled

theorem readHeader_moved (h : (readHeader line parser s).diagnostics = []) :
    Moved id (readHeader line parser s) (readHeader line' parser t) := by
  obtain ⟨lines, mouse, edit, rfl⟩ := hmoved
  unfold readHeader at h ⊢
  split at h
  · exact absurd h report_ne
  · simp only at h ⊢
    split_ifs at h ⊢
    all_goals simp_all [State.report, Moved]

/-- A line that reports nothing does the same with another theme and another number. -/
theorem readLine_moved (h : (readLine vaxis line raw s).diagnostics = []) (hsettled : Settled s) :
    Moved id (readLine vaxis line raw s) (readLine vaxis line' raw t) := by
  rw [readLine] at h
  rw [readLine, readLine, hmoved.section_eq]
  simp only at h ⊢
  split_ifs at h ⊢
  · exact hmoved
  · exact readHeader_moved hmoved h
  · exact hmoved
  split at h
  · exact absurd h report_ne
  · split at h
    · exact absurd h report_ne
    · exact readEntry_moved hmoved h hsettled

theorem readLines_moved {lines : List Bytes}
    (h : (readLines vaxis line lines s).diagnostics = []) (hsettled : Settled s) :
    Moved id (readLines vaxis line lines s) (readLines vaxis line' lines t) := by
  induction lines generalizing line line' s t with
  | nil => exact hmoved
  | cons raw lines ih =>
    exact ih (readLine_moved hmoved (readLines_quiet h) hsettled) h (readLine_settled hsettled)

end

end Bbr.Tui.Config
