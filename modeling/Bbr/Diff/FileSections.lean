import Bbr.Diff.RoundTrip

/-!
# The section of a File

Every `diff --git` row opens a File, and the rows up to the next one are its section. No row before the
first Hunk is an error, and its path rows alone change the names of the `diff --git` row. Behind the
preamble nothing changes them.
-/
namespace Bbr.Diff

open List

def isGitRow (row : Bytes) : Bool := (ascii "diff --git ").isPrefixOf row
def isHunkRow (row : Bytes) : Bool := (ascii "@@").isPrefixOf row
def isOldRow (row : Bytes) : Bool := (ascii "--- ").isPrefixOf row
def isNewRow (row : Bytes) : Bool := (ascii "+++ ").isPrefixOf row

/-- The rows of a section, behind its `diff --git` row. -/
def sectionOf (rows : List Bytes) : List Bytes := rows.takeWhile (fun row => !isGitRow row)

/-- The rows of a section before its first Hunk. -/
def preambleOf (rows : List Bytes) : List Bytes :=
  rows.takeWhile (fun row => !isGitRow row && !isHunkRow row)

/-- The text has a section with these operands. -/
def HasSection (raw : Bytes) (before : List Bytes) (operands : Bytes) (after : List Bytes) : Prop :=
  raw.splitOn newline = before ++ (ascii "diff --git " ++ operands) :: after

/-- The File that a section behind these rows becomes. -/
def fileBehind (diff : Diff) (before : List Bytes) : Option File :=
  diff.files[before.countP isGitRow]?

/-- The preamble has one `---` row for the old path and one `+++` row for the new path. -/
structure PathRows (preamble : List Bytes) (old new : Bytes) : Prop where
  old : ∃ field, TabField field ∧ preamble.filter isOldRow = [ascii "--- a/" ++ old ++ field]
  new : ∃ field, TabField field ∧ preamble.filter isNewRow = [ascii "+++ b/" ++ new ++ field]

/-- The section is a preamble without path rows: a pure rename, a mode change, a binary stub. -/
def Bare (rows : List Bytes) : Prop :=
  ∀ row ∈ sectionOf rows, isHunkRow row = false ∧ isOldRow row = false ∧ isNewRow row = false

/-- No path of the File is marked as invalid. -/
def File.ValidPaths (file : File) : Prop :=
  file.content.old ≠ some (.unavailable none .invalidPath) ∧
    file.content.new ≠ some (.unavailable none .invalidPath)

/-- The File has these paths, both valid. -/
def File.Names (file : File) (old new : Bytes) : Prop :=
  file.oldPath = old ∧ file.newPath = new ∧ file.ValidPaths

/-- The last path row of a side decides; without one the guess stands. -/
def pathBehind (guess : ParsedPath) (rows : List Bytes) : ParsedPath :=
  match rows.getLast? with
  | none => guess
  | some row => normalizeDiffPath (row.drop 4)

/-- The paths of a section: those of the path rows of its preamble, else those of its operands. -/
def oldBehind (operands : Bytes) (after : List Bytes) : ParsedPath :=
  pathBehind ⟨(parseGitPaths operands).old, (parseGitPaths operands).oldValid⟩
    ((preambleOf after).filter isOldRow)

def newBehind (operands : Bytes) (after : List Bytes) : ParsedPath :=
  pathBehind ⟨(parseGitPaths operands).new, (parseGitPaths operands).newValid⟩
    ((preambleOf after).filter isNewRow)

namespace ParseState

variable {s s' : ParseState} {row : Bytes} {rows : List Bytes}

def oldParsed (s : ParseState) : ParsedPath := ⟨s.oldPath, s.oldPathValid⟩
def newParsed (s : ParseState) : ParsedPath := ⟨s.newPath, s.newPathValid⟩

theorem bind_ok {α β : Type} {x : Except ParseError α} {f : α → Except ParseError β} {b : β}
    (h : x >>= f = .ok b) : ∃ a, x = .ok a ∧ f a = .ok b := by
  cases x with
  | error e => cases h
  | ok a => exact ⟨a, rfl, h⟩

theorem closedFiles_none (h : s.haveFile = false) : s.closedFiles = s.files := by
  have hclosed : s.flushHunk.haveFile = false := (flushHunk_haveFile s).trans h
  unfold closedFiles flushFile
  rw [if_neg (Bool.eq_false_iff.mp hclosed), flushHunk_files]

/-- All that a row can do. -/
theorem parseLine_cases (h : s.parseLine row = .ok s') :
    (isGitRow row = true ∧ s' = s.flushHunk.flushFile.openFile (row.drop 11)) ∨
      (isGitRow row = false ∧ s.haveFile = false ∧ s' = s) ∨
      (isGitRow row = false ∧ s.haveFile = true ∧ ((s.haveHunk = false ∧ s.preambleLine row = some s') ∨
          (isHunkRow row = true ∧ s.flushHunk.openHunk row = .ok s') ∨
          (isHunkRow row = false ∧ s.haveHunk = false ∧ s' = s) ∨
          (isHunkRow row = false ∧ s.haveHunk = true ∧ s.bodyLine row = .ok s'))) := by
  unfold parseLine at h
  cases hg : isGitRow row with
  | true =>
    unfold isGitRow at hg
    rw [if_pos hg] at h
    cases h
    exact .inl ⟨rfl, rfl⟩
  | false =>
    unfold isGitRow at hg
    rw [if_neg (by simp [hg])] at h
    cases hf : s.haveFile with
    | false =>
      rw [if_pos hf] at h
      cases h
      exact .inr (.inl ⟨rfl, rfl, rfl⟩)
    | true =>
      rw [if_neg (by simp [hf])] at h
      refine .inr (.inr ⟨rfl, rfl, ?_⟩)
      cases hh : s.haveHunk with
      | true =>
        simp only [hh, if_true, Bool.true_eq_false, if_false] at h
        split at h
        · next hat => exact .inr (.inl ⟨hat, h⟩)
        · next hat => exact .inr (.inr (.inr ⟨Bool.eq_false_iff.mpr hat, rfl, h⟩))
      | false =>
        simp only [hh, Bool.false_eq_true, if_false] at h
        cases hp : s.preambleLine row with
        | some s₁ =>
          rw [hp] at h
          cases h
          exact .inl ⟨rfl, rfl⟩
        | none =>
          rw [hp] at h
          simp only [if_true] at h
          split at h
          · next hat => exact .inr (.inl ⟨hat, h⟩)
          · next hat =>
            cases h
            exact .inr (.inr (.inl ⟨Bool.eq_false_iff.mpr hat, rfl, rfl⟩))

theorem preambleLine_hunk (s : ParseState) (h : isHunkRow row = true) : s.preambleLine row = none := by
  obtain ⟨rest, rfl⟩ := isPrefixOf_iff_prefix.mp h
  have hgit : ascii "@@" ++ rest ≠ ascii "GIT binary patch" := by
    intro he
    exact absurd (cons.inj he).1 (by decide)
  simp [preambleLine, ascii] at hgit ⊢

/-- A row without a side's mark says nothing about the path of that side. -/
theorem head_decides {mark pre : Bytes} {c d : UInt8} (hne : c ≠ d) (hm : mark.head? = some c)
    (hp : pre.head? = some d) (h : pre.isPrefixOf row = true) : mark.isPrefixOf row = false := by
  obtain ⟨mark, rfl⟩ := head?_eq_some_iff.mp hm
  obtain ⟨pre, rfl⟩ := head?_eq_some_iff.mp hp
  obtain ⟨rest, rfl⟩ := isPrefixOf_iff_prefix.mp h
  have hcd : (c == d) = false := by simpa using hne
  simp [isPrefixOf, hcd]

theorem pathBehind_append (guess : ParsedPath) (first rows : List Bytes) :
    pathBehind guess (first ++ rows) = pathBehind (pathBehind guess first) rows := by
  unfold pathBehind
  rw [getLast?_append]
  cases rows.getLast? <;> rfl

/-- What the rows of a preamble do: the Files before it stay, no Hunk opens, and the path rows
decide the paths. -/
structure Preamble (s s' : ParseState) (rows : List Bytes) : Prop where
  haveFile : s'.haveFile = true
  haveHunk : s'.haveHunk = false
  files : s'.files = s.files
  old : s'.oldParsed = pathBehind s.oldParsed (rows.filter isOldRow)
  new : s'.newParsed = pathBehind s.newParsed (rows.filter isNewRow)

theorem preamble_quiet (hf : s.haveFile = true) (hh : s.haveHunk = false)
    (hold : isOldRow row = false) (hnew : isNewRow row = false) (hf' : s'.haveFile = s.haveFile)
    (hh' : s'.haveHunk = s.haveHunk) (hfiles : s'.files = s.files) (ho : s'.oldParsed = s.oldParsed)
    (hn : s'.newParsed = s.newParsed) : Preamble s s' [row] := by
  constructor
  · exact hf'.trans hf
  · exact hh'.trans hh
  · exact hfiles
  · simpa [hold, pathBehind] using ho
  · simpa [hnew, pathBehind] using hn

theorem preambleLine_some (hf : s.haveFile = true) (hh : s.haveHunk = false)
    (h : s.preambleLine row = some s') : Preamble s s' [row] := by
  have hquiet {pre : Bytes} {d : UInt8} (hp : pre.head? = some d) (hm : (0x2d : UInt8) ≠ d)
      (hplus : (0x2b : UInt8) ≠ d) (hrow : pre.isPrefixOf row = true) :
      isOldRow row = false ∧ isNewRow row = false :=
    ⟨head_decides hm rfl hp hrow, head_decides hplus rfl hp hrow⟩
  unfold preambleLine at h
  split at h
  · next hrow =>
    obtain ⟨hold, hnew⟩ := hquiet rfl (by decide) (by decide) hrow
    cases h
    exact preamble_quiet hf hh hold hnew rfl rfl rfl rfl rfl
  split at h
  · next hrow =>
    obtain ⟨hold, hnew⟩ := hquiet rfl (by decide) (by decide) hrow
    cases h
    exact preamble_quiet hf hh hold hnew rfl rfl rfl rfl rfl
  split at h
  · next hrow =>
    obtain ⟨hold, hnew⟩ := hquiet rfl (by decide) (by decide) hrow
    cases h
    exact preamble_quiet hf hh hold hnew rfl rfl rfl rfl rfl
  split at h
  · next hrow =>
    have hnew : isNewRow row = false := head_decides (by decide) rfl rfl hrow
    have hold : isOldRow row = true := hrow
    cases h
    exact ⟨hf, hh, rfl, by simp [hold, pathBehind, oldParsed], by simp [hnew, pathBehind, newParsed]⟩
  · next hold =>
    have hold : isOldRow row = false := Bool.eq_false_iff.mpr hold
    split at h
    · next hrow =>
      have hnew : isNewRow row = true := hrow
      cases h
      exact ⟨hf, hh, rfl, by simp [hold, pathBehind, oldParsed], by simp [hnew, pathBehind, newParsed]⟩
    · next hnew =>
      have hnew : isNewRow row = false := Bool.eq_false_iff.mpr hnew
      -- the rows that are left are about binary content
      split at h
      · cases h
        exact preamble_quiet hf hh hold hnew rfl rfl rfl rfl rfl
      split at h
      · cases h
        exact preamble_quiet hf hh hold hnew rfl rfl rfl rfl rfl
      split at h
      · cases h
        exact preamble_quiet hf hh hold hnew rfl rfl rfl rfl rfl
      · cases h

theorem preambleLine_none (h : s.preambleLine row = none) :
    isOldRow row = false ∧ isNewRow row = false := by
  unfold preambleLine at h
  split at h
  · cases h
  split at h
  · cases h
  split at h
  · cases h
  split at h
  · cases h
  rename_i hold
  split at h
  · cases h
  · next hnew => exact ⟨Bool.eq_false_iff.mpr hold, Bool.eq_false_iff.mpr hnew⟩

theorem parse_preambleRow (hf : s.haveFile = true) (hh : s.haveHunk = false)
    (hg : isGitRow row = false) (hat : isHunkRow row = false) :
    ∃ s', s.parseLine row = .ok s' ∧ Preamble s s' [row] := by
  cases hp : s.preambleLine row with
  | some s' => exact ⟨s', parseLine_preamble hf hh hg hp, preambleLine_some hf hh hp⟩
  | none =>
    obtain ⟨hold, hnew⟩ := preambleLine_none hp
    refine ⟨s, ?_, preamble_quiet hf hh hold hnew rfl rfl rfl rfl rfl⟩
    unfold isGitRow at hg
    unfold isHunkRow at hat
    unfold parseLine
    simp [hg, hat, hh, hp]

theorem parse_preamble (hf : s.haveFile = true) (hh : s.haveHunk = false)
    (hrows : ∀ row ∈ rows, isGitRow row = false ∧ isHunkRow row = false) :
    ∃ s', rows.foldlM parseLine s = .ok s' ∧ Preamble s s' rows := by
  induction rows generalizing s with
  | nil => exact ⟨s, rfl, hf, hh, rfl, rfl, rfl⟩
  | cons row rows ih =>
    obtain ⟨hg, hat⟩ := hrows row mem_cons_self
    obtain ⟨s₁, hrun₁, h₁⟩ := parse_preambleRow hf hh hg hat
    obtain ⟨s₂, hrun₂, h₂⟩ := ih h₁.haveFile h₁.haveHunk (fun r hr => hrows r (mem_cons_of_mem _ hr))
    have hsplit (p : Bytes → Bool) : (row :: rows).filter p = [row].filter p ++ rows.filter p := by
      rw [← filter_append]
      rfl
    refine ⟨s₂, ?_, h₂.haveFile, h₂.haveHunk, h₂.files.trans h₁.files, ?_, ?_⟩
    · rw [foldlM_cons, hrun₁]
      exact hrun₂
    · rw [h₂.old, h₁.old, hsplit isOldRow, pathBehind_append]
    · rw [h₂.new, h₁.new, hsplit isNewRow, pathBehind_append]

theorem openHunk_eq (h : s.openHunk row = .ok s') : ∃ n, parseHunkHeader row = .ok n ∧ s' = { s with
      haveHunk := true
      hunkHeader := row
      oldStart := n.oldStart
      oldCount := n.oldCount
      newStart := n.newStart
      newCount := n.newCount
      oldNo := n.oldStart
      newNo := n.newStart } := by
  unfold openHunk at h
  cases hn : parseHunkHeader row with
  | error e =>
    rw [hn] at h
    cases h
  | ok n =>
    rw [hn] at h
    cases h
    exact ⟨n, rfl, rfl⟩

theorem next_eq_ok {n m : Nat} (h : next n = .ok m) : n + 1 < u32Limit ∧ m = n + 1 := by
  unfold next at h
  split at h
  · cases h
    exact ⟨by assumption, rfl⟩
  · cases h

/-- A row of a Hunk is numbered on the sides it is on, or it changes nothing. -/
theorem bodyLine_cases (h : s.bodyLine row = .ok s') :
    (s' = s ∧ (row = [] ∨ row.head? = some backslash)) ∨
      ∃ kind text, row = mark kind :: text ∧ s' = s.take { kind := kind, text := text } ∧
        (kind ≠ .added → s.oldNo + 1 < u32Limit) ∧ (kind ≠ .removed → s.newNo + 1 < u32Limit) := by
  unfold bodyLine at h
  split at h
  · cases h
    exact .inl ⟨rfl, .inl rfl⟩
  rename_i c text
  split at h
  · next hc =>
    obtain ⟨oldNo, hold, h⟩ := bind_ok h
    obtain ⟨newNo, hnew, h⟩ := bind_ok h
    obtain ⟨ho, rfl⟩ := next_eq_ok hold
    obtain ⟨hn, rfl⟩ := next_eq_ok hnew
    cases h
    exact .inr ⟨.context, text, by rw [hc]; rfl, rfl, fun _ => ho, fun _ => hn⟩
  · split at h
    · next hc =>
      obtain ⟨newNo, hnew, h⟩ := bind_ok h
      obtain ⟨hn, rfl⟩ := next_eq_ok hnew
      cases h
      exact .inr ⟨.added, text, by rw [hc]; rfl, rfl, by simp, fun _ => hn⟩
    · split at h
      · next hc =>
        obtain ⟨oldNo, hold, h⟩ := bind_ok h
        obtain ⟨ho, rfl⟩ := next_eq_ok hold
        cases h
        exact .inr ⟨.removed, text, by rw [hc]; rfl, rfl, fun _ => ho, by simp⟩
      · split at h
        · next hc =>
          cases h
          exact .inl ⟨rfl, .inr (by simp [hc])⟩
        · cases h

theorem files_closedFiles (s : ParseState) : s.files <+: s.closedFiles := by
  cases hf : s.haveFile with
  | true =>
    rw [closedFiles_open hf]
    exact prefix_append _ _
  | false => exact ⟨[], by rw [closedFiles_none hf, append_nil]⟩

/-- What the rows of Hunks leave alone: everything of the open File but its Hunks. -/
structure Behind (s s' : ParseState) : Prop where
  haveFile : s'.haveFile = true
  haveHunk : s'.haveHunk = true
  files : s'.files = s.files
  fileWith : s'.fileWith = s.fileWith

theorem openHunk_behind (hf : s.haveFile = true) (h : s.flushHunk.openHunk row = .ok s') :
    Behind s s' := by
  obtain ⟨n, -, rfl⟩ := openHunk_eq h
  exact ⟨(flushHunk_haveFile s).trans hf, rfl, flushHunk_files s, flushHunk_fileWith s⟩

theorem bodyLine_behind (hf : s.haveFile = true) (hh : s.haveHunk = true)
    (h : s.bodyLine row = .ok s') : Behind s s' := by
  obtain ⟨rfl, -⟩ | ⟨kind, text, -, rfl, -, -⟩ := bodyLine_cases h
  · exact ⟨hf, hh, rfl, rfl⟩
  · exact ⟨hf, hh, rfl, rfl⟩

theorem parseLine_behind (hf : s.haveFile = true) (hg : isGitRow row = false)
    (hrow : s.haveHunk = true ∨ isHunkRow row = true) (h : s.parseLine row = .ok s') :
    Behind s s' := by
  obtain ⟨hg', -⟩ | ⟨-, hf', -⟩ | ⟨-, -, ⟨hh, hpre⟩ | ⟨-, hopen⟩ | ⟨hat, hh, -⟩ | ⟨-, hh, hbody⟩⟩ :=
    parseLine_cases h
  · simp [hg] at hg'
  · simp [hf] at hf'
  · have hat : isHunkRow row = true := hrow.resolve_left (by simp [hh])
    rw [preambleLine_hunk s hat] at hpre
    cases hpre
  · exact openHunk_behind hf hopen
  · obtain hh' | hat' := hrow
    · simp [hh] at hh'
    · simp [hat] at hat'
  · exact bodyLine_behind hf hh hbody

theorem parseLine_files (h : s.parseLine row = .ok s') : s.files <+: s'.files := by
  obtain ⟨-, rfl⟩ | ⟨-, -, rfl⟩ | ⟨-, hf, ⟨hh, hpre⟩ | ⟨-, hopen⟩ | ⟨-, -, rfl⟩ | ⟨-, hh, hbody⟩⟩ :=
    parseLine_cases h
  · exact files_closedFiles s
  · exact prefix_rfl
  · exact (preambleLine_some hf hh hpre).files ▸ prefix_rfl
  · exact (openHunk_behind hf hopen).files ▸ prefix_rfl
  · exact prefix_rfl
  · exact (bodyLine_behind hf hh hbody).files ▸ prefix_rfl

theorem parse_files_kept (h : rows.foldlM parseLine s = .ok s') : s.files <+: s'.files := by
  induction rows generalizing s with
  | nil =>
    cases h
    exact prefix_rfl
  | cons row rows ih =>
    obtain ⟨s₁, hrow, hrest⟩ := bind_ok h
    exact (parseLine_files hrow).trans (ih hrest)

/-- The open File ends up in its place once the next one is opened or the text ends. -/
theorem closed_kept (hf : s.haveFile = true) (hrows : ∀ row ∈ rows.head?, isGitRow row = true)
    (h : rows.foldlM parseLine s = .ok s') :
    ∃ hunks, s'.closedFiles[s.files.length]? = some (s.fileWith hunks) := by
  have hclosed : s.closedFiles[s.files.length]? = some (s.fileWith s.flushHunk.hunks) := by
    simp [closedFiles_open hf]
  cases rows with
  | nil =>
    cases h
    exact ⟨_, hclosed⟩
  | cons row rows =>
    obtain ⟨s₁, hrow, hrest⟩ := bind_ok h
    obtain ⟨operands, rfl⟩ := isPrefixOf_iff_prefix.mp (hrows row (by simp))
    cases hrow
    have hkept := (parse_files_kept hrest).trans (files_closedFiles s')
    refine ⟨s.flushHunk.hunks, ?_⟩
    have hin : s.files.length < s.closedFiles.length := by simp [closedFiles_open hf]
    obtain ⟨more, hmore⟩ := hkept
    change s.closedFiles ++ more = _ at hmore
    rw [← hmore, getElem?_append_left hin, hclosed]

theorem kept (hf : s.haveFile = true) (hrows : s.haveHunk = true ∨
      ∀ row ∈ rows.head?, isGitRow row = true ∨ isHunkRow row = true)
    (h : rows.foldlM parseLine s = .ok s') :
    ∃ hunks, s'.closedFiles[s.files.length]? = some (s.fileWith hunks) := by
  induction rows generalizing s with
  | nil => exact closed_kept hf (by simp) h
  | cons row rows ih =>
    cases hg : isGitRow row with
    | true => exact closed_kept hf (by simp [hg]) h
    | false =>
      have hat : s.haveHunk = true ∨ isHunkRow row = true :=
        hrows.imp_right (fun hrows => by simpa [hg] using hrows row)
      obtain ⟨s₁, hrow, hrest⟩ := bind_ok h
      have hb := parseLine_behind hf hg hat hrow
      obtain ⟨hunks, hkept⟩ := ih hb.haveFile (.inl hb.haveHunk) hrest
      rw [hb.files, hb.fileWith] at hkept
      exact ⟨hunks, hkept⟩

theorem parseLine_count (h : s.parseLine row = .ok s') :
    s'.closedFiles.length = s.closedFiles.length + [row].countP isGitRow := by
  have hsame (hg : isGitRow row = false) (hf : s.haveFile = true) (hf' : s'.haveFile = true)
      (hfiles : s'.files = s.files) :
      s'.closedFiles.length = s.closedFiles.length + [row].countP isGitRow := by
    rw [closedFiles_open hf, closedFiles_open hf', hfiles]
    simp [hg]
  obtain ⟨hg, rfl⟩ | ⟨hg, -, rfl⟩ | ⟨hg, hf, ⟨hh, hpre⟩ | ⟨-, hopen⟩ | ⟨-, -, rfl⟩ | ⟨-, hh, hbody⟩⟩ :=
    parseLine_cases h
  · rw [closedFiles_open rfl, length_append]
    simp [hg, openFile, closedFiles]
  · simp [hg]
  · have hp := preambleLine_some hf hh hpre
    exact hsame hg hf hp.haveFile hp.files
  · have hb := openHunk_behind hf hopen
    exact hsame hg hf hb.haveFile hb.files
  · simp [hg]
  · have hb := bodyLine_behind hf hh hbody
    exact hsame hg hf hb.haveFile hb.files

theorem parse_count (h : rows.foldlM parseLine s = .ok s') :
    s'.closedFiles.length = s.closedFiles.length + rows.countP isGitRow := by
  induction rows generalizing s with
  | nil =>
    cases h
    simp
  | cons row rows ih =>
    obtain ⟨s₁, hrow, hrest⟩ := bind_ok h
    have hcount : (row :: rows).countP isGitRow = [row].countP isGitRow + rows.countP isGitRow := by
      rw [← countP_append]
      rfl
    rw [ih hrest, parseLine_count hrow, hcount, Nat.add_assoc]

end ParseState

variable {raw operands : Bytes} {before after : List Bytes} {diff : Diff}

theorem parse_ok (h : parse raw = .ok diff) :
    ∃ s, (raw.splitOn newline).foldlM ParseState.parseLine {} = .ok s ∧ diff.files = s.closedFiles := by
  obtain ⟨s, hrun, he⟩ := ParseState.bind_ok h
  cases he
  exact ⟨s, hrun, rfl⟩

variable (rows : List Bytes)

theorem preambleOf_rows : ∀ row ∈ preambleOf rows, isGitRow row = false ∧ isHunkRow row = false := by
  intro row hrow
  have hp := all_eq_true.mp all_takeWhile row hrow
  simpa using hp

theorem preambleOf_append : ∃ rest, rows = preambleOf rows ++ rest ∧
    ∀ row ∈ rest.head?, isGitRow row = true ∨ isHunkRow row = true := by
  refine ⟨_, takeWhile_append_dropWhile.symm, ?_⟩
  intro row hrow
  have hp := head?_dropWhile_not (fun row => !isGitRow row && !isHunkRow row) rows
  rw [hrow] at hp
  cases hg : isGitRow row with
  | true => exact .inl rfl
  | false => simpa [hg] using hp

theorem fileBehind_section (hs : HasSection raw before operands after) (h : parse raw = .ok diff) :
    ∃ file, fileBehind diff before = some file ∧ file.oldPath = (oldBehind operands after).path ∧
      file.newPath = (newBehind operands after).path ∧
      ∃ status binary oldSize newSize, file.content = fileContent status binary oldSize newSize
        (oldBehind operands after).valid (newBehind operands after).valid := by
  obtain ⟨s, hrun, hfiles⟩ := parse_ok h
  obtain ⟨rest, hafter, hrest⟩ := preambleOf_append after
  rw [hs, foldlM_append] at hrun
  obtain ⟨s₀, hbefore, hrun⟩ := ParseState.bind_ok hrun
  rw [foldlM_cons, ParseState.parse_git] at hrun
  change after.foldlM ParseState.parseLine _ = _ at hrun
  rw [hafter, foldlM_append] at hrun
  -- the preamble runs from the opened File
  have hno : (s₀.flushHunk.flushFile.openFile operands).haveHunk = false :=
    (ParseState.flushFile_haveHunk _).trans (ParseState.flushHunk_haveHunk s₀)
  obtain ⟨s₁, hrun₁, hpre⟩ := ParseState.parse_preamble rfl hno (preambleOf_rows after)
  rw [hrun₁] at hrun
  obtain ⟨hunks, hkept⟩ := ParseState.kept hpre.haveFile (.inr hrest) hrun
  have hcount := ParseState.parse_count hbefore
  have hplace : s₁.files.length = before.countP isGitRow := by
    rw [hpre.files]
    exact hcount.trans (Nat.zero_add _)
  have hold : s₁.oldParsed = oldBehind operands after := hpre.old
  have hnew : s₁.newParsed = newBehind operands after := hpre.new
  refine ⟨s₁.fileWith hunks, ?_, congrArg ParsedPath.path hold, congrArg ParsedPath.path hnew,
    s₁.status, s₁.binary, s₁.binaryOldSize, s₁.binaryNewSize, ?_⟩
  · unfold fileBehind
    rw [hfiles, ← hplace]
    exact hkept
  · rw [← hold, ← hnew]
    rfl

theorem fileContent_valid (status : FileStatus) (binary : Bool) (oldSize newSize : Option Nat) :
    (fileContent status binary oldSize newSize true true).old ≠ some (.unavailable none .invalidPath) ∧
      (fileContent status binary oldSize newSize true true).new ≠
        some (.unavailable none .invalidPath) := by
  cases status <;> cases binary <;> simp [fileContent, sideContent]

variable {old new : Bytes}

theorem names_behind (hs : HasSection raw before operands after) (h : parse raw = .ok diff)
    (hold : oldBehind operands after = ⟨old, true⟩)
    (hnew : newBehind operands after = ⟨new, true⟩) :
    ∃ file, fileBehind diff before = some file ∧ file.Names old new := by
  obtain ⟨file, hfile, hpo, hpn, status, binary, oldSize, newSize, hcontent⟩ := fileBehind_section hs h
  rw [hold] at hpo hcontent
  rw [hnew] at hpn hcontent
  refine ⟨file, hfile, hpo, hpn, ?_⟩
  unfold File.ValidPaths
  rw [hcontent]
  exact fileContent_valid status binary oldSize newSize

theorem behind_of_names (hs : HasSection raw before operands after) (h : parse raw = .ok diff)
    (hnames : ∃ file, fileBehind diff before = some file ∧ file.Names old new) :
    (oldBehind operands after).path = old ∧ (newBehind operands after).path = new := by
  obtain ⟨file, hfile, hpo, hpn, -⟩ := fileBehind_section hs h
  obtain ⟨named, hnamed, ho, hn, -⟩ := hnames
  rw [hfile] at hnamed
  cases hnamed
  exact ⟨hpo.symm.trans ho, hpn.symm.trans hn⟩

theorem PathRows.oldBehind (hp : PathRows (preambleOf after) old new) (operands : Bytes) :
    ∃ field, TabField field ∧
      oldBehind operands after = normalizeDiffPath (ascii "a/" ++ old ++ field) := by
  obtain ⟨field, hf, hrow⟩ := hp.old
  refine ⟨field, hf, ?_⟩
  unfold Diff.oldBehind
  rw [hrow]
  rfl

theorem PathRows.newBehind (hp : PathRows (preambleOf after) old new) (operands : Bytes) :
    ∃ field, TabField field ∧
      newBehind operands after = normalizeDiffPath (ascii "b/" ++ new ++ field) := by
  obtain ⟨field, hf, hrow⟩ := hp.new
  refine ⟨field, hf, ?_⟩
  unfold Diff.newBehind
  rw [hrow]
  rfl

/-- The paths of the path rows survive exactly where the old one does not start with `b/`. -/
theorem paths_survive {old new : Bytes} (hold : RepositoryRelative old)
    (hnew : RepositoryRelative new) (hqo : needsQuotes false old = false)
    (hqn : needsQuotes false new = false) (hs : HasSection raw before operands after)
    (hp : PathRows (preambleOf after) old new) (h : parse raw = .ok diff) :
    (∃ file, fileBehind diff before = some file ∧ file.Names old new) ↔ ¬ ascii "b/" <+: old := by
  obtain ⟨field, hf, hbo⟩ := hp.oldBehind operands
  obtain ⟨field', hf', hbn⟩ := hp.newBehind operands
  rw [← gitName_plain hqo] at hbo
  rw [← gitName_plain hqn] at hbn
  constructor
  · intro hnames hb
    obtain ⟨hpath, -⟩ := behind_of_names hs h hnames
    rw [hbo] at hpath
    exact normalizeDiffPath_misread hf hqo (List.isPrefixOf_iff_prefix.mpr hb) hpath
  · intro hb
    have hkept : (ascii "b/").isPrefixOf old = false := by
      rw [Bool.eq_false_iff]
      exact fun hpre => hb (List.isPrefixOf_iff_prefix.mp hpre)
    apply names_behind hs h
    · rw [hbo]
      exact normalizeDiffPath_plain isSide_old hf hqo hold (fun _ => hkept)
    · rw [hbn]
      exact normalizeDiffPath_plain isSide_new hf' hqn hnew (fun ha => absurd ha (by decide))

/-- A path whose first directory is `a`. -/
theorem paths_survive_directory : ∃ file,
    fileBehind ⟨[⟨ascii "a/lib.zig", ascii "b/lib.zig", .renamed, [],
      ⟨some (.text none), some (.text none)⟩⟩]⟩ [] = some file ∧
      file.Names (ascii "a/lib.zig") (ascii "b/lib.zig") := by
  have hrel (path : Bytes) (h : isRepositoryRelative path = true) : RepositoryRelative path :=
    (isRepositoryRelative_iff path).mp h
  have hrows : PathRows (preambleOf [ascii "rename from a/lib.zig", ascii "--- a/a/lib.zig",
      ascii "+++ b/b/lib.zig\t2026", []]) (ascii "a/lib.zig") (ascii "b/lib.zig") :=
    ⟨⟨[], .inl rfl, by decide +kernel⟩, ⟨tab :: ascii "2026", .inr ⟨_, rfl⟩, by decide +kernel⟩⟩
  have hs : HasSection (ascii ("diff --git a/a/lib.zig b/b/lib.zig\nrename from a/lib.zig\n" ++
      "--- a/a/lib.zig\n+++ b/b/lib.zig\t2026\n")) [] (ascii "a/a/lib.zig b/b/lib.zig")
      [ascii "rename from a/lib.zig", ascii "--- a/a/lib.zig", ascii "+++ b/b/lib.zig\t2026", []] := by
    unfold HasSection
    decide +kernel
  exact (paths_survive (hrel _ (by decide +kernel)) (hrel _ (by decide +kernel)) (by decide +kernel)
    (by decide +kernel) hs hrows (by decide +kernel)).mpr (by decide +kernel)

/-- The old path `b/x` survives as `x`. -/
theorem paths_survive_ownPrefix : ¬ ∀ (raw operands old new : Bytes) (before after : List Bytes)
    (diff : Diff), RepositoryRelative old → RepositoryRelative new → needsQuotes false old = false →
    needsQuotes false new = false → HasSection raw before operands after →
    PathRows (preambleOf after) old new → parse raw = .ok diff →
    ∃ file, fileBehind diff before = some file ∧ file.Names old new := by
  intro h
  have hrel : RepositoryRelative (ascii "b/x") := (isRepositoryRelative_iff _).mp (by decide +kernel)
  have hrows : PathRows (preambleOf [ascii "--- a/b/x", ascii "+++ b/b/x", []])
      (ascii "b/x") (ascii "b/x") :=
    ⟨⟨[], .inl rfl, by decide +kernel⟩, ⟨[], .inl rfl, by decide +kernel⟩⟩
  obtain ⟨file, hfile, hold, -⟩ := h
    (ascii "diff --git a/b/x b/b/x\n--- a/b/x\n+++ b/b/x\n") (ascii "a/b/x b/b/x")
    (ascii "b/x") (ascii "b/x") [] [ascii "--- a/b/x", ascii "+++ b/b/x", []]
    ⟨[⟨ascii "x", ascii "b/x", .modified, [], ⟨some (.text none), some (.text none)⟩⟩]⟩
    hrel hrel (by decide +kernel) (by decide +kernel) (by unfold HasSection; decide +kernel) hrows
    (by decide +kernel)
  cases hfile
  exact absurd hold (by decide)

theorem preambleOf_subset : ∀ row ∈ preambleOf rows, row ∈ sectionOf rows := by
  intro row hrow
  unfold preambleOf at hrow
  unfold sectionOf
  induction rows with
  | nil => simp at hrow
  | cons first rows ih =>
    cases hg : isGitRow first with
    | true => simp [hg] at hrow
    | false =>
      cases hat : isHunkRow first with
      | true => simp [hg, hat] at hrow
      | false =>
        simp only [hg, hat, takeWhile_cons, Bool.not_false, Bool.and_true, if_true, mem_cons] at hrow ⊢
        exact hrow.imp_right ih

theorem Bare.behind (hb : Bare after) (operands : Bytes) : oldBehind operands after =
        ⟨(parseGitPaths operands).old, (parseGitPaths operands).oldValid⟩ ∧
      newBehind operands after = ⟨(parseGitPaths operands).new, (parseGitPaths operands).newValid⟩ := by
  have hold : (preambleOf after).filter isOldRow = [] := by
    rw [filter_eq_nil_iff]
    intro row hrow
    simp [(hb row (preambleOf_subset after row hrow)).2.1]
  have hnew : (preambleOf after).filter isNewRow = [] := by
    rw [filter_eq_nil_iff]
    intro row hrow
    simp [(hb row (preambleOf_subset after row hrow)).2.2]
  unfold oldBehind newBehind
  rw [hold, hnew]
  exact ⟨rfl, rfl⟩

/-- A File without path rows keeps its names exactly where neither is printed with a bare space. -/
theorem identity_kept {quotePath : Bool} {old new : Bytes} (hold : RepositoryRelative old)
    (hnew : RepositoryRelative new)
    (hs : HasSection raw before (operandsOf quotePath old new) after) (hb : Bare after)
    (h : parse raw = .ok diff) :
    (∃ file, fileBehind diff before = some file ∧ file.Names old new) ↔
      WholeName quotePath old ∧ WholeName quotePath new := by
  obtain ⟨hbo, hbn⟩ := hb.behind (operandsOf quotePath old new)
  constructor
  · intro hnames
    obtain ⟨ho, hn⟩ := behind_of_names hs h hnames
    rw [hbo] at ho
    rw [hbn] at hn
    exact (parseGitPaths_iff hold hnew).mp ⟨ho, hn⟩
  · rintro ⟨hwo, hwn⟩
    have hgit := parseGitPaths_whole hold hnew hwo hwn
    rw [hgit] at hbo hbn
    exact names_behind hs h hbo hbn

/-- A rename whose old name Git quotes. -/
theorem identity_kept_quoted : ∃ file,
    fileBehind ⟨[⟨ascii "x\"y z", ascii "w", .renamed, [],
      ⟨some (.text none), some (.text none)⟩⟩]⟩ [] = some file ∧
      file.Names (ascii "x\"y z") (ascii "w") := by
  have hrel (path : Bytes) (h : isRepositoryRelative path = true) : RepositoryRelative path :=
    (isRepositoryRelative_iff path).mp h
  have hs : HasSection (ascii ("diff --git \"a/x\\\"y z\" b/w\n" ++
      "rename from \"x\\\"y z\"\nrename to w\n")) [] (operandsOf true (ascii "x\"y z") (ascii "w"))
      [ascii "rename from \"x\\\"y z\"", ascii "rename to w", []] := by
    unfold HasSection
    decide +kernel
  exact (identity_kept (hrel _ (by decide +kernel)) (hrel _ (by decide +kernel)) hs
    (by unfold Bare; decide +kernel) (by decide +kernel)).mpr
    ⟨.inl (by decide +kernel), .inr (by decide +kernel)⟩

/-- The mode change of a File with the name `x y` loses the name. -/
theorem identity_kept_space : ¬ ∀ (quotePath : Bool) (raw old new : Bytes)
    (before after : List Bytes) (diff : Diff), RepositoryRelative old → RepositoryRelative new →
    HasSection raw before (operandsOf quotePath old new) after → Bare after →
    parse raw = .ok diff → ∃ file, fileBehind diff before = some file ∧ file.Names old new := by
  intro h
  have hrel : RepositoryRelative (ascii "x y") := (isRepositoryRelative_iff _).mp (by decide +kernel)
  obtain ⟨file, hfile, hold, -⟩ := h true
    (ascii "diff --git a/x y b/x y\nold mode 100644\nnew mode 100755\n") (ascii "x y") (ascii "x y")
    [] [ascii "old mode 100644", ascii "new mode 100755", []]
    ⟨[⟨ascii "a/x y b/x y", ascii "a/x y b/x y", .modified, [],
      ⟨some (.unavailable none .invalidPath), some (.unavailable none .invalidPath)⟩⟩]⟩
    hrel hrel (by unfold HasSection; decide +kernel) (by unfold Bare; decide +kernel)
    (by decide +kernel)
  cases hfile
  exact absurd hold (by decide)

end Bbr.Diff
