import Bbr.Diff.FileSections

/-!
# What an accepted diff is

Whatever bytes the parser accepts, the Diff is made of their rows: a Hunk begins with a header row
that says its numbers, its lines are the marked rows behind it counted from there, and no row is read
twice or out of order.
-/
namespace Bbr.Diff

open List

/-- The row a line was read from. -/
def Line.row (line : Line) : Bytes := mark line.kind :: line.text

def Line.printed (line : Line) : PrintedLine := { kind := line.kind, text := line.text }

/-- The rows a Hunk was read from. -/
def Hunk.rows (hunk : Hunk) : List Bytes := hunk.header :: hunk.lines.map Line.row

/-- The header says the numbers, and the lines are counted from there with 32 bits. -/
structure Hunk.Counted (hunk : Hunk) : Prop where
  header : parseHunkHeader hunk.header =
    .ok ⟨hunk.oldStart, hunk.oldCount, hunk.newStart, hunk.newCount⟩
  lines : hunk.lines = numberLines hunk.oldStart hunk.newStart (hunk.lines.map Line.printed)
  numbers : ∀ line ∈ hunk.lines, line.oldNo < u32Limit ∧ line.newNo < u32Limit

/-- A side is absent exactly where the status says so, and every Hunk is counted. -/
structure File.WellFormed (file : File) : Prop where
  old : file.content.old = none ↔ file.status = .added
  new : file.content.new = none ↔ file.status = .removed
  hunks : ∀ hunk ∈ file.hunks, hunk.Counted

theorem sideContent_none {absent valid binary : Bool} {size : Option Nat} :
    sideContent absent valid binary size = none ↔ absent = true := by
  cases absent <;> cases valid <;> cases binary <;> simp [sideContent]

theorem printed_numberLines (o n : Nat) (l : PrintedLine) :
    (numberLines o n [l]).map Line.printed = [{ kind := l.kind, text := l.text }] := by
  cases hk : l.kind <;> simp [numberLines, Line.printed, hk]

namespace ParseState

variable {s s' : ParseState} {row : Bytes} {rows : List Bytes}

theorem numberLines_append (o n : Nat) (front back : List PrintedLine) :
    numberLines o n (front ++ back) =
      numberLines o n front ++ numberLines (o + oldLines front) (n + newLines front) back := by
  induction front generalizing o n with
  | nil => rfl
  | cons l front ih =>
    rw [cons_append, numberLines_cons, ih, numberLines_cons o n l front, append_assoc, oldLines_cons l front,
      newLines_cons l front, Nat.add_assoc, Nat.add_assoc]

/-- The open Hunk, if these are its lines. -/
def hunkWith (s : ParseState) (lines : List Line) : Hunk :=
  ⟨s.oldStart, s.oldCount, s.newStart, s.newCount, s.hunkHeader, lines⟩

/-- The Hunks of the open File, the open one included. -/
def openHunks (s : ParseState) : List Hunk := s.flushHunk.hunks

/-- The state is made of the rows read so far. -/
structure MadeOf (s : ParseState) (rows : List Bytes) : Prop where
  tidy : s.Tidy
  outside : s.haveFile = false → s.haveHunk = false ∧ s.hunks = []
  files : ∀ file ∈ s.files, file.WellFormed
  hunks : ∀ hunk ∈ s.openHunks, hunk.Counted
  counts : s.haveHunk = true → s.oldNo = s.oldStart + oldLines (s.lines.map Line.printed) ∧
    s.newNo = s.newStart + newLines (s.lines.map Line.printed)
  rows : (((s.files.flatMap File.hunks) ++ s.openHunks).flatMap Hunk.rows).Sublist rows

theorem fileWith_wellFormed (s : ParseState) {hunks : List Hunk} (h : ∀ hunk ∈ hunks, hunk.Counted) :
    (s.fileWith hunks).WellFormed where
  old := sideContent_none.trans decide_eq_true_iff
  new := sideContent_none.trans decide_eq_true_iff
  hunks := h

theorem MadeOf.more (h : s.MadeOf rows) (row : Bytes) : s.MadeOf (rows ++ [row]) :=
  { h with rows := h.rows.trans (sublist_append_left rows [row]) }

theorem openHunks_none (h : s.haveHunk = false) : s.openHunks = s.hunks := by
  unfold openHunks flushHunk
  rw [if_neg (by simp [h])]

theorem MadeOf.closed_hunks (h : s.MadeOf rows) :
    s.closedFiles.flatMap File.hunks = s.files.flatMap File.hunks ++ s.openHunks := by
  cases hf : s.haveFile with
  | true =>
    rw [closedFiles_open hf, flatMap_append, flatMap_singleton]
    rfl
  | false =>
    obtain ⟨hh, hnone⟩ := h.outside hf
    rw [closedFiles_none hf, openHunks_none hh, hnone, append_nil]

theorem MadeOf.closed (h : s.MadeOf rows) : ∀ file ∈ s.closedFiles, file.WellFormed := by
  cases hf : s.haveFile with
  | true =>
    intro file hfile
    rw [closedFiles_open hf] at hfile
    obtain hfile | hfile := mem_append.mp hfile
    · exact h.files file hfile
    · rw [mem_singleton.mp hfile]
      exact s.fileWith_wellFormed h.hunks
  | false =>
    rw [closedFiles_none hf]
    exact h.files

theorem MadeOf.git (h : s.MadeOf rows) (row operands : Bytes) :
    (s.flushHunk.flushFile.openFile operands).MadeOf (rows ++ [row]) := by
  have hh : (s.flushHunk.flushFile.openFile operands).haveHunk = false :=
    (flushFile_haveHunk _).trans (flushHunk_haveHunk s)
  have hnone : (s.flushHunk.flushFile.openFile operands).openHunks = [] :=
    (openHunks_none hh).trans (flushFile_hunks h.outside)
  refine ⟨fun _ => (flushFile_lines _).trans (flushHunk_lines h.tidy), fun hf => Bool.noConfusion hf,
    h.closed, ?_, ?_, ?_⟩
  · rw [hnone]
    exact forall_mem_nil _
  · rw [hh]
    exact fun hopen => Bool.noConfusion hopen
  rw [hnone, append_nil]
  change (s.closedFiles.flatMap File.hunks).flatMap Hunk.rows <+ _
  rw [h.closed_hunks]
  exact (h.more row).rows

theorem preambleLine_keeps (h : s.preambleLine row = some s') :
    s'.haveFile = s.haveFile ∧ s'.haveHunk = s.haveHunk ∧ s'.files = s.files ∧ s'.hunks = s.hunks ∧
      s'.lines = s.lines := by
  unfold preambleLine at h
  repeat' split at h
  all_goals cases h
  all_goals exact ⟨rfl, rfl, rfl, rfl, rfl⟩

section

variable (h : s.MadeOf rows)
include h

theorem MadeOf.preamble (hh : s.haveHunk = false)
    (hpre : s.preambleLine row = some s') : s'.MadeOf (rows ++ [row]) := by
  obtain ⟨hf, hh', hfiles, hhunks, hlines⟩ := preambleLine_keeps hpre
  have hopen : s'.openHunks = s.openHunks := by
    rw [openHunks_none (hh'.trans hh), openHunks_none hh, hhunks]
  refine ⟨fun _ => hlines.trans (h.tidy hh), fun hno => ?_, hfiles ▸ h.files, hopen ▸ h.hunks,
    fun hhave => ?_, ?_⟩
  · rw [hh', hhunks]
    exact h.outside (hf ▸ hno)
  · rw [hh', hh] at hhave
    cases hhave
  · rw [hfiles, hopen]
    exact (h.more row).rows

theorem MadeOf.openHunk (hf : s.haveFile = true)
    (hopen : s.flushHunk.openHunk row = .ok s') : s'.MadeOf (rows ++ [row]) := by
  obtain ⟨n, hn, rfl⟩ := openHunk_eq hopen
  have hlines := flushHunk_lines h.tidy
  have hhunks : openHunks { s.flushHunk with
      haveHunk := true
      hunkHeader := row
      oldStart := n.oldStart
      oldCount := n.oldCount
      newStart := n.newStart
      newCount := n.newCount
      oldNo := n.oldStart
      newNo := n.newStart } =
      s.openHunks ++ [⟨n.oldStart, n.oldCount, n.newStart, n.newCount, row, []⟩] := by
    simp only [hlines]
    rfl
  refine ⟨fun hno => Bool.noConfusion hno, fun hno => ?_, ?_, ?_, fun _ => ?_, ?_⟩
  · rw [flushHunk_haveFile, hf] at hno
    cases hno
  · rw [flushHunk_files]
    exact h.files
  · rw [hhunks]
    intro hunk hmem
    obtain hmem | hmem := mem_append.mp hmem
    · exact h.hunks hunk hmem
    · rw [mem_singleton.mp hmem]
      exact ⟨hn, rfl, forall_mem_nil _⟩
  · simp only [hlines]
    exact ⟨rfl, rfl⟩
  · rw [hhunks, flushHunk_files, ← append_assoc, flatMap_append]
    exact h.rows.append (Sublist.refl [row])

theorem MadeOf.take (hf : s.haveFile = true) (hh : s.haveHunk = true)
    {kind : LineKind} {text : Bytes} (hold : kind ≠ .added → s.oldNo + 1 < u32Limit)
    (hnew : kind ≠ .removed → s.newNo + 1 < u32Limit) :
    (s.take { kind := kind, text := text }).MadeOf (rows ++ [mark kind :: text]) := by
  obtain ⟨hcountOld, hcountNew⟩ := h.counts hh
  have hzero : 0 < u32Limit := by decide
  have hprinted : ((s.take { kind := kind, text := text }).lines).map Line.printed =
      s.lines.map Line.printed ++ [{ kind := kind, text := text }] := by
    unfold ParseState.take
    rw [map_append, printed_numberLines]
  have hbefore : s.openHunks = s.hunks ++ [s.hunkWith s.lines] := flushHunk_open hh
  have hafter : (s.take { kind := kind, text := text }).openHunks =
      s.hunks ++ [s.hunkWith (s.take { kind := kind, text := text }).lines] := flushHunk_open hh
  have hlast := h.hunks (s.hunkWith s.lines) (by simp [hbefore])
  refine ⟨fun hno => absurd (hh.symm.trans hno) (by simp), fun hno => absurd (hf.symm.trans hno) (by simp), h.files,
    ?_, fun _ => ?_, ?_⟩
  · rw [hafter]
    intro hunk hmem
    obtain hmem | hmem := mem_append.mp hmem
    · exact h.hunks hunk (by rw [hbefore]; exact mem_append_left _ hmem)
    rw [mem_singleton.mp hmem]
    refine ⟨hlast.header, ?_, ?_⟩
    · have hlines := hlast.lines
      simp only [hunkWith] at hlines ⊢
      rw [hprinted, numberLines_append, ← hlines, ← hcountOld, ← hcountNew]
      rfl
    intro line hline
    obtain hline | hline := mem_append.mp hline
    · exact hlast.numbers line hline
    cases kind with
    | context =>
      rw [mem_singleton.mp hline]
      exact ⟨Nat.lt_of_succ_lt (hold (by simp)), Nat.lt_of_succ_lt (hnew (by simp))⟩
    | added =>
      rw [mem_singleton.mp hline]
      exact ⟨hzero, Nat.lt_of_succ_lt (hnew (by simp))⟩
    | removed =>
      rw [mem_singleton.mp hline]
      exact ⟨Nat.lt_of_succ_lt (hold (by simp)), hzero⟩
  · rw [hprinted]
    constructor
    · change s.oldNo + oldLines [_] = _
      rw [hcountOld, oldLines, oldLines, oldLines, countP_append, Nat.add_assoc]
      rfl
    · change s.newNo + newLines [_] = _
      rw [hcountNew, newLines, newLines, newLines, countP_append, Nat.add_assoc]
      rfl
  · have hrow : (numberLines s.oldNo s.newNo [{ kind := kind, text := text }]).map Line.row =
        [mark kind :: text] := by
      cases kind <;> rfl
    have hrows : (s.hunkWith (s.take { kind := kind, text := text }).lines).rows =
        (s.hunkWith s.lines).rows ++ [mark kind :: text] := by
      simp only [ParseState.take, Hunk.rows, hunkWith, map_append, hrow, cons_append]
    have hbehind := h.rows
    rw [hbefore, ← append_assoc, flatMap_append, flatMap_singleton] at hbehind
    rw [hafter, ← append_assoc, flatMap_append, flatMap_singleton, hrows, ← append_assoc]
    exact hbehind.append (Sublist.refl _)

theorem MadeOf.step (hrow : s.parseLine row = .ok s') : s'.MadeOf (rows ++ [row]) := by
  obtain ⟨-, rfl⟩ | ⟨-, -, rfl⟩ | ⟨-, hf, ⟨hh, hpre⟩ | ⟨-, hopen⟩ | ⟨-, -, rfl⟩ | ⟨-, hh, hbody⟩⟩ :=
    parseLine_cases hrow
  · exact h.git row (row.drop 11)
  · exact h.more row
  · exact h.preamble hh hpre
  · exact h.openHunk hf hopen
  · exact h.more row
  · obtain ⟨rfl, -⟩ | ⟨kind, text, rfl, rfl, hold, hnew⟩ := bodyLine_cases hbody
    · exact h.more row
    · exact h.take hf hh hold hnew

theorem MadeOf.run {more : List Bytes} (hrun : more.foldlM parseLine s = .ok s') :
    s'.MadeOf (rows ++ more) := by
  induction more generalizing s rows with
  | nil =>
    cases hrun
    rwa [append_nil]
  | cons row more ih =>
    obtain ⟨s₁, hrow, hrest⟩ := bind_ok hrun
    have := ih (h.step hrow) hrest
    rwa [append_assoc] at this

end

theorem parse_madeOf {raw : Bytes} {diff : Diff} (h : parse raw = .ok diff) :
    ∃ s : ParseState, s.MadeOf (raw.splitOn newline) ∧ diff.files = s.closedFiles := by
  obtain ⟨s, hrun, hdiff⟩ := bind_ok h
  have hstart : ({} : ParseState).MadeOf [] := ⟨fun _ => rfl, fun _ => ⟨rfl, rfl⟩, forall_mem_nil _,
      forall_mem_nil _, fun hh => Bool.noConfusion hh, Sublist.refl []⟩
  cases hdiff
  exact ⟨s, hstart.run hrun, rfl⟩

end ParseState

/-- Every File of an accepted diff is well formed. -/
theorem parse_wellFormed (raw : Bytes) (diff : Diff) (h : parse raw = .ok diff) :
    ∀ file ∈ diff.files, file.WellFormed := by
  obtain ⟨s, hs, hfiles⟩ := ParseState.parse_madeOf h
  rw [hfiles]
  exact hs.closed

/-- One changed line. -/
def oneChange : Bytes := ascii "diff --git a/f b/f\n@@ -1 +1 @@\n-a\n+b\n"

theorem parse_wellFormed_oneChange :
    ∃ diff, parse oneChange = .ok diff ∧ ∀ file ∈ diff.files, file.WellFormed :=
  ⟨_, rfl, parse_wellFormed oneChange _ rfl⟩

/-- The rows of all Hunks, in order, are among the rows of the text. -/
theorem parse_rows_sublist (raw : Bytes) (diff : Diff) (h : parse raw = .ok diff) :
    ((diff.files.flatMap File.hunks).flatMap Hunk.rows).Sublist (raw.splitOn newline) := by
  obtain ⟨s, hs, hfiles⟩ := ParseState.parse_madeOf h
  rw [hfiles, hs.closed_hunks]
  exact hs.rows

theorem parse_rows_sublist_oneChange : ∃ diff, parse oneChange = .ok diff ∧
    ((diff.files.flatMap File.hunks).flatMap Hunk.rows).Sublist (oneChange.splitOn newline) :=
  ⟨_, rfl, parse_rows_sublist oneChange _ rfl⟩

end Bbr.Diff
