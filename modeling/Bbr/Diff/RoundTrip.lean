import Bbr.Diff.PrintLaws
import Mathlib.Data.List.Forall2

/-!
# Parsing inverts printing

The parser runs over the printed rows of a list of Files. Inside a Hunk the first byte of a row
decides, so no text can imitate a header. A path comes back unless the parser mistakes a part of it
for a side prefix or for the end of an operand. Only a Hunk with more lines than 32 bits can number
ends the parse.
-/
namespace Bbr.Diff

open List

/-- The lines of a Hunk body, numbered from the two starts. -/
def numberLines (oldNo newNo : Nat) : List PrintedLine → List Line
  | [] => []
  | l :: rest => match l.kind with
    | .context =>
      { oldNo := oldNo, newNo := newNo, kind := .context, text := l.text } ::
        numberLines (oldNo + 1) (newNo + 1) rest
    | .added =>
      { oldNo := 0, newNo := newNo, kind := .added, text := l.text } ::
        numberLines oldNo (newNo + 1) rest
    | .removed =>
      { oldNo := oldNo, newNo := 0, kind := .removed, text := l.text } ::
        numberLines (oldNo + 1) newNo rest

def PrintedHunk.reread (h : PrintedHunk) : Hunk :=
  ⟨h.oldStart, h.oldCount, h.newStart, h.newCount, h.header, numberLines h.oldStart h.newStart h.lines⟩

/-- Without Hunks the paths are those of the `diff --git` line, else those of the path lines. -/
def FileChange.reread (change : FileChange) (hunks : List Hunk) : File :=
  let git := parseGitPaths change.gitOperands
  let old := normalizeDiffPath (printPath (ascii "a/") change.oldName)
  let new := normalizeDiffPath (printPath (ascii "b/") change.newName)
  let status :=
    if new.path = devNull then .removed else if old.path = devNull then .added else change.status
  if hunks = [] then
    ⟨git.old, git.new, change.status, hunks,
      fileContent change.status false none none git.oldValid git.newValid⟩
  else ⟨old.path, new.path, status, hunks, fileContent status false none none old.valid new.valid⟩

def PrintedFile.reread (f : PrintedFile) : File := f.change.reread (f.hunks.map PrintedHunk.reread)

/-! ## The rows of a Hunk -/

theorem PrintedHunk.WellFormed.numbers {h : PrintedHunk} (hw : h.WellFormed) : h.Numbers := by
  have hold := hw.old
  have hnew := hw.new
  constructor <;> omega

namespace ParseState

variable {s : ParseState}

theorem parseLine_mark (hf : s.haveFile = true) (hh : s.haveHunk = true)
    (kind : LineKind) (text : Bytes) :
    s.parseLine (mark kind :: text) = s.bodyLine (mark kind :: text) := by
  have hgit : (ascii "diff --git ").isPrefixOf (mark kind :: text) = false := by
    cases kind <;> rfl
  have hat : (ascii "@@").isPrefixOf (mark kind :: text) = false := by
    cases kind <;> rfl
  simp [parseLine, hgit, hat, hf, hh]

theorem parseLine_marker (hh : s.haveHunk = true) : s.parseLine noNewlineMarker = .ok s := by
  have hgit : (ascii "diff --git ").isPrefixOf noNewlineMarker = false := rfl
  have hat : (ascii "@@").isPrefixOf noNewlineMarker = false := rfl
  have hbody : s.bodyLine noNewlineMarker = .ok s := rfl
  simp [parseLine, hgit, hat, hh, hbody]

theorem next_ok {n : Nat} (h : n + 1 < u32Limit) : next n = .ok (n + 1) := if_pos h

/-- The state after one line of the body. -/
def take (s : ParseState) (l : PrintedLine) : ParseState :=
  { s with
    lines := s.lines ++ numberLines s.oldNo s.newNo [l]
    oldNo := s.oldNo + oldLines [l]
    newNo := s.newNo + newLines [l] }

theorem parse_line (hf : s.haveFile = true) (hh : s.haveHunk = true)
    {l : PrintedLine} (ho : s.oldNo + oldLines [l] < u32Limit)
    (hn : s.newNo + newLines [l] < u32Limit) : l.rows.foldlM parseLine s = .ok (s.take l) := by
  have hbody : s.bodyLine (mark l.kind :: l.text) = .ok (s.take l) := by
    cases hk : l.kind with
    | context =>
      have ho' : s.oldNo + 1 < u32Limit := by simpa [oldLines, hk] using ho
      have hn' : s.newNo + 1 < u32Limit := by simpa [newLines, hk] using hn
      simp [bodyLine, mark, next_ok ho', next_ok hn', take, numberLines, oldLines, newLines, hk]
      rfl
    | added =>
      have hn' : s.newNo + 1 < u32Limit := by simpa [newLines, hk] using hn
      simp [bodyLine, mark, next_ok hn', take, numberLines, oldLines, newLines, hk]
    | removed =>
      have ho' : s.oldNo + 1 < u32Limit := by simpa [oldLines, hk] using ho
      simp [bodyLine, mark, next_ok ho', take, numberLines, oldLines, newLines, hk]
  have hrow := (parseLine_mark hf hh l.kind l.text).trans hbody
  have hmarker : (s.take l).parseLine noNewlineMarker = .ok (s.take l) := parseLine_marker hh
  unfold PrintedLine.rows
  rw [foldlM_cons, hrow]
  split
  · change (s.take l).parseLine noNewlineMarker >>= pure = _
    rw [hmarker]
    rfl
  · rfl

theorem next_overflows {n : Nat} (h : u32Limit ≤ n + 1) : next n = .error .integerOverflow :=
  if_neg (Nat.not_lt.mpr h)

theorem parse_line_overflows (hf : s.haveFile = true) (hh : s.haveHunk = true) {l : PrintedLine}
    (ho : s.oldNo < u32Limit) (hn : s.newNo < u32Limit)
    (h : u32Limit ≤ s.oldNo + oldLines [l] ∨ u32Limit ≤ s.newNo + newLines [l]) :
    l.rows.foldlM parseLine s = .error .integerOverflow := by
  have hbody : s.bodyLine (mark l.kind :: l.text) = .error .integerOverflow := by
    cases hk : l.kind with
    | context =>
      have hold : oldLines [l] = 1 := by simp [oldLines, hk]
      have hnew : newLines [l] = 1 := by simp [newLines, hk]
      by_cases ho' : u32Limit ≤ s.oldNo + 1
      · simp [bodyLine, mark, next_overflows ho', bind, Except.bind]
      have hn' : u32Limit ≤ s.newNo + 1 := by omega
      simp [bodyLine, mark, next_ok (Nat.not_le.mp ho'), next_overflows hn', bind, Except.bind]
    | added =>
      have hold : oldLines [l] = 0 := by simp [oldLines, hk]
      have hnew : newLines [l] = 1 := by simp [newLines, hk]
      have hn' : u32Limit ≤ s.newNo + 1 := by omega
      simp [bodyLine, mark, next_overflows hn', bind, Except.bind]
    | removed =>
      have hold : oldLines [l] = 1 := by simp [oldLines, hk]
      have hnew : newLines [l] = 0 := by simp [newLines, hk]
      have ho' : u32Limit ≤ s.oldNo + 1 := by omega
      simp [bodyLine, mark, next_overflows ho', bind, Except.bind]
  unfold PrintedLine.rows
  rw [foldlM_cons, parseLine_mark hf hh l.kind l.text, hbody]
  rfl

theorem oldLines_cons (l : PrintedLine) (rest : List PrintedLine) :
    oldLines (l :: rest) = oldLines [l] + oldLines rest := by
  unfold oldLines
  rw [← singleton_append, countP_append]

theorem newLines_cons (l : PrintedLine) (rest : List PrintedLine) :
    newLines (l :: rest) = newLines [l] + newLines rest := by
  unfold newLines
  rw [← singleton_append, countP_append]

theorem numberLines_cons (oldNo newNo : Nat) (l : PrintedLine) (rest : List PrintedLine) :
    numberLines oldNo newNo (l :: rest) = numberLines oldNo newNo [l] ++
      numberLines (oldNo + oldLines [l]) (newNo + newLines [l]) rest := by
  cases hk : l.kind <;> simp [numberLines, oldLines, newLines, hk]

/-- The state after the whole body. -/
def takeAll (s : ParseState) (lines : List PrintedLine) : ParseState :=
  { s with
    lines := s.lines ++ numberLines s.oldNo s.newNo lines
    oldNo := s.oldNo + oldLines lines
    newNo := s.newNo + newLines lines }

theorem takeAll_cons (s : ParseState) (l : PrintedLine) (rest : List PrintedLine) :
    s.takeAll (l :: rest) = (s.take l).takeAll rest := by
  unfold takeAll take
  rw [numberLines_cons, oldLines_cons, newLines_cons]
  simp only [append_assoc, Nat.add_assoc]

theorem parse_lines (hf : s.haveFile = true) (hh : s.haveHunk = true)
    {lines : List PrintedLine} (ho : s.oldNo + oldLines lines < u32Limit)
    (hn : s.newNo + newLines lines < u32Limit) :
    (lines.flatMap PrintedLine.rows).foldlM parseLine s = .ok (s.takeAll lines) := by
  induction lines generalizing s with
  | nil => simp [takeAll, numberLines, oldLines, newLines, pure, Except.pure]
  | cons l rest ih =>
    rw [oldLines_cons] at ho
    rw [newLines_cons] at hn
    have hl := parse_line hf hh (l := l) (by omega) (by omega)
    have hrest : (rest.flatMap PrintedLine.rows).foldlM parseLine (s.take l) =
        .ok ((s.take l).takeAll rest) := by
      apply ih (s := s.take l) hf hh
      · change s.oldNo + oldLines [l] + oldLines rest < u32Limit
        omega
      · change s.newNo + newLines [l] + newLines rest < u32Limit
        omega
    rw [flatMap_cons, foldlM_append, hl, takeAll_cons]
    exact hrest

theorem parse_lines_overflow (hf : s.haveFile = true) (hh : s.haveHunk = true)
    {lines : List PrintedLine} (ho : s.oldNo < u32Limit) (hn : s.newNo < u32Limit)
    (h : u32Limit ≤ s.oldNo + oldLines lines ∨ u32Limit ≤ s.newNo + newLines lines) :
    (lines.flatMap PrintedLine.rows).foldlM parseLine s = .error .integerOverflow := by
  induction lines generalizing s with
  | nil =>
    simp only [oldLines, newLines, countP_nil] at h
    omega
  | cons l rest ih =>
    rw [oldLines_cons, newLines_cons] at h
    rw [flatMap_cons, foldlM_append]
    by_cases hl : s.oldNo + oldLines [l] < u32Limit ∧ s.newNo + newLines [l] < u32Limit
    · rw [parse_line hf hh hl.1 hl.2]
      apply ih (s := s.take l) hf hh hl.1 hl.2
      change u32Limit ≤ s.oldNo + oldLines [l] + oldLines rest ∨
        u32Limit ≤ s.newNo + newLines [l] + newLines rest
      omega
    · rw [parse_line_overflows hf hh ho hn (by omega)]
      rfl

/-- The File is open and no binary patch is being read. -/
structure Textual (s : ParseState) : Prop where
  haveFile : s.haveFile = true
  binary : s.binary = false
  expectsBlock : s.binaryExpectsBlock = false

/-- A line that starts with an at sign is no header line of the File. -/
theorem preambleLine_at (ht : s.Textual) (rest : Bytes) : s.preambleLine (0x40 :: rest) = none := by
  have hnew : (ascii "new file mode").isPrefixOf (0x40 :: rest) = false := rfl
  have hdeleted : (ascii "deleted file mode").isPrefixOf (0x40 :: rest) = false := rfl
  have hrename : (ascii "rename ").isPrefixOf (0x40 :: rest) = false := rfl
  have hminus : (ascii "--- ").isPrefixOf (0x40 :: rest) = false := rfl
  have hplus : (ascii "+++ ").isPrefixOf (0x40 :: rest) = false := rfl
  have hgit : (0x40 :: rest) ≠ ascii "GIT binary patch" := by
    intro h
    exact absurd (cons.inj h).1 (by decide)
  have hbinary : (ascii "Binary files ").isPrefixOf (0x40 :: rest) = false := rfl
  simp [preambleLine, hnew, hdeleted, hrename, hminus, hplus, hgit, hbinary, ht.expectsBlock]

/-- The state after a Hunk header. -/
def startHunk (s : ParseState) (h : PrintedHunk) : ParseState :=
  { s.flushHunk with
    haveHunk := true
    hunkHeader := h.header
    oldStart := h.oldStart
    oldCount := h.oldCount
    newStart := h.newStart
    newCount := h.newCount
    oldNo := h.oldStart
    newNo := h.newStart }

variable {h : PrintedHunk}

theorem parse_header (ht : s.Textual) (hn : h.Numbers) :
    s.parseLine h.header = .ok (s.startHunk h) := by
  have hhead : ∃ rest, h.header = 0x40 :: 0x40 :: rest := ⟨_, rfl⟩
  have hpre : (if s.haveHunk then none else s.preambleLine h.header) = none := by
    obtain ⟨rest, hrest⟩ := hhead
    rw [hrest, preambleLine_at ht, ite_self]
  have hgit : (ascii "diff --git ").isPrefixOf h.header = false := by
    rfl
  unfold parseLine
  rw [if_neg (by simp [hgit]), if_neg (by simp [ht.haveFile]), hpre]
  unfold openHunk
  rw [parseHunkHeader_header hn]
  rfl

/-- An open Hunk or none: outside a Hunk no lines wait. -/
def Tidy (s : ParseState) : Prop := s.haveHunk = false → s.lines = []

theorem flushHunk_lines (ht : s.Tidy) : s.flushHunk.lines = [] := by
  unfold flushHunk
  split
  · rfl
  · next h => exact ht (by simpa using h)

theorem flushHunk_haveHunk (s : ParseState) : s.flushHunk.haveHunk = false := by
  unfold flushHunk
  split
  · rfl
  · next h => simpa using h

theorem flushHunk_open (h : s.haveHunk = true) : s.flushHunk.hunks = s.hunks ++
    [⟨s.oldStart, s.oldCount, s.newStart, s.newCount, s.hunkHeader, s.lines⟩] := by
  unfold flushHunk
  rw [if_pos h]

@[simp] theorem flushHunk_files (s : ParseState) : s.flushHunk.files = s.files := by
  unfold flushHunk
  split <;> rfl

@[simp] theorem flushHunk_haveFile (s : ParseState) : s.flushHunk.haveFile = s.haveFile := by
  unfold flushHunk
  split <;> rfl

/-- The File that would be closed with these Hunks. -/
def fileWith (s : ParseState) (hunks : List Hunk) : File :=
  ⟨s.oldPath, s.newPath, s.status, hunks,
    fileContent s.status s.binary s.binaryOldSize s.binaryNewSize s.oldPathValid s.newPathValid⟩

@[simp] theorem flushHunk_fileWith (s : ParseState) : s.flushHunk.fileWith = s.fileWith := by
  funext hunks
  unfold flushHunk
  split <;> rfl

@[simp] theorem flushHunk_binary (s : ParseState) : s.flushHunk.binary = s.binary := by
  unfold flushHunk
  split <;> rfl

@[simp] theorem flushHunk_expectsBlock (s : ParseState) :
    s.flushHunk.binaryExpectsBlock = s.binaryExpectsBlock := by
  unfold flushHunk
  split <;> rfl

/-- What rows of Hunks do: they add Hunks to the open File and touch nothing else. -/
structure Adds (s s' : ParseState) (hunks : List Hunk) : Prop where
  textual : s'.Textual
  tidy : s'.Tidy
  files : s'.files = s.files
  fileWith : s'.fileWith = s.fileWith
  hunks : s'.flushHunk.hunks = s.flushHunk.hunks ++ hunks

theorem parse_hunk (ht : s.Textual) (htidy : s.Tidy) (hw : h.WellFormed) (hfits : h.Fits) :
    ∃ s', h.rows.foldlM parseLine s = .ok s' ∧ Adds s s' [h.reread] := by
  have hheader := parse_header ht hw.numbers
  have hbody : (h.lines.flatMap PrintedLine.rows).foldlM parseLine (s.startHunk h) =
      .ok ((s.startHunk h).takeAll h.lines) := by
    apply parse_lines
    · exact (flushHunk_haveFile s).trans ht.haveFile
    · rfl
    · exact hfits.old
    · exact hfits.new
  refine ⟨(s.startHunk h).takeAll h.lines, ?_, ?_⟩
  · unfold PrintedHunk.rows
    rw [foldlM_cons, hheader]
    exact hbody
  constructor
  · constructor
    · exact (flushHunk_haveFile s).trans ht.haveFile
    · exact (flushHunk_binary s).trans ht.binary
    · exact (flushHunk_expectsBlock s).trans ht.expectsBlock
  · intro hno
    exact absurd hno (by simp [takeAll, startHunk])
  · exact flushHunk_files s
  · exact flushHunk_fileWith s
  · have hlines := flushHunk_lines htidy
    have hopen : ((s.startHunk h).takeAll h.lines).haveHunk = true := rfl
    rw [flushHunk_open hopen]
    simp [takeAll, startHunk, hlines, PrintedHunk.reread]

theorem parse_hunk_overflows (ht : s.Textual) (hw : h.WellFormed) (hfits : ¬ h.Fits) :
    h.rows.foldlM parseLine s = .error .integerOverflow := by
  have hold := hw.old
  have hnew := hw.new
  have hbody : (h.lines.flatMap PrintedLine.rows).foldlM parseLine (s.startHunk h) =
      .error .integerOverflow := by
    apply parse_lines_overflow
    · exact (flushHunk_haveFile s).trans ht.haveFile
    · rfl
    · change h.oldStart < u32Limit
      omega
    · change h.newStart < u32Limit
      omega
    · change u32Limit ≤ h.oldStart + oldLines h.lines ∨ u32Limit ≤ h.newStart + newLines h.lines
      by_contra hboth
      exact hfits ⟨by omega, by omega⟩
  unfold PrintedHunk.rows
  rw [foldlM_cons, parse_header ht hw.numbers]
  exact hbody

theorem parse_hunks (ht : s.Textual) (htidy : s.Tidy) {hunks : List PrintedHunk}
    (hw : ∀ h ∈ hunks, h.WellFormed) (hfits : ∀ h ∈ hunks, h.Fits) :
    ∃ s', (hunks.flatMap PrintedHunk.rows).foldlM parseLine s = .ok s' ∧
      Adds s s' (hunks.map PrintedHunk.reread) := by
  induction hunks generalizing s with
  | nil => exact ⟨s, rfl, ht, htidy, rfl, rfl, by simp⟩
  | cons h rest ih =>
    obtain ⟨s₁, hrun₁, ha₁⟩ := parse_hunk ht htidy (hw h mem_cons_self) (hfits h mem_cons_self)
    obtain ⟨s₂, hrun₂, ha₂⟩ := ih ha₁.textual ha₁.tidy (fun g hg => hw g (mem_cons_of_mem _ hg))
      (fun g hg => hfits g (mem_cons_of_mem _ hg))
    refine ⟨s₂, ?_, ?_⟩
    · rw [flatMap_cons, foldlM_append, hrun₁]
      exact hrun₂
    constructor
    · exact ha₂.textual
    · exact ha₂.tidy
    · exact ha₂.files.trans ha₁.files
    · exact ha₂.fileWith.trans ha₁.fileWith
    · rw [ha₂.hunks, ha₁.hunks, append_assoc]
      rfl

/-! ## The rows of a File -/

theorem parse_hunks_overflow (ht : s.Textual) (htidy : s.Tidy) {hunks : List PrintedHunk}
    (hw : ∀ h ∈ hunks, h.WellFormed) (hover : ∃ h ∈ hunks, ¬ h.Fits) :
    (hunks.flatMap PrintedHunk.rows).foldlM parseLine s = .error .integerOverflow := by
  induction hunks generalizing s with
  | nil =>
    obtain ⟨h, hh, -⟩ := hover
    cases hh
  | cons h rest ih =>
    have hwrest : ∀ g ∈ rest, g.WellFormed := fun g hg => hw g (mem_cons_of_mem _ hg)
    rw [flatMap_cons, foldlM_append]
    by_cases hfits : h.Fits
    · obtain ⟨s₁, hrun₁, ha₁⟩ := parse_hunk ht htidy (hw h mem_cons_self) hfits
      rw [hrun₁]
      rw [exists_mem_cons_iff] at hover
      exact ih ha₁.textual ha₁.tidy hwrest (hover.resolve_left (fun hnot => hnot hfits))
    · rw [parse_hunk_overflows ht (hw h mem_cons_self) hfits]
      rfl

/-- Before the first Hunk a row is a header line of the File when it starts like one. -/
theorem parseLine_preamble {s s' : ParseState} (hf : s.haveFile = true) (hh : s.haveHunk = false)
    {line : Bytes} (hgit : (ascii "diff --git ").isPrefixOf line = false)
    (h : s.preambleLine line = some s') : s.parseLine line = .ok s' := by
  unfold parseLine
  rw [if_neg (by simp [hgit]), if_neg (by simp [hf]), hh]
  simp [h]

/-- The open File has its status line next. -/
structure Opened (s : ParseState) : Prop where
  textual : s.Textual
  haveHunk : s.haveHunk = false
  lines : s.lines = []
  hunks : s.hunks = []
  noOldSize : s.binaryOldSize = none
  noNewSize : s.binaryNewSize = none

theorem Opened.withStatus (h : s.Opened) (status : FileStatus) :
    { s with status := status }.Opened :=
  ⟨⟨h.textual.haveFile, h.textual.binary, h.textual.expectsBlock⟩, h.haveHunk, h.lines, h.hunks,
    h.noOldSize, h.noNewSize⟩

theorem parse_rename (ho : s.Opened) (rest : Bytes) :
    s.parseLine (ascii "rename " ++ rest) = .ok { s with status := .renamed } :=
  parseLine_preamble ho.textual.haveFile ho.haveHunk rfl rfl

theorem parse_statusRows (ho : s.Opened) (hs : s.status = .modified) (change : FileChange) :
    change.statusRows.foldlM parseLine s = .ok { s with status := change.status } := by
  cases change with
  | added path =>
    have hrow : s.parseLine (ascii "new file mode 100644") = .ok { s with status := .added } :=
      parseLine_preamble ho.textual.haveFile ho.haveHunk rfl rfl
    change s.parseLine (ascii "new file mode 100644") >>= pure = _
    rw [hrow]
    rfl
  | removed path =>
    have hrow : s.parseLine (ascii "deleted file mode 100644") = .ok { s with status := .removed } :=
      parseLine_preamble ho.textual.haveFile ho.haveHunk rfl rfl
    change s.parseLine (ascii "deleted file mode 100644") >>= pure = _
    rw [hrow]
    rfl
  | modified path =>
    have heq : { s with status := .modified } = s := by
      rw [← hs]
    change Except.ok s = Except.ok { s with status := .modified }
    rw [heq]
  | renamed old new =>
    have hfrom := parse_rename ho (ascii "from " ++ printName [] old)
    have hto := parse_rename (ho.withStatus .renamed) (ascii "to " ++ printName [] new)
    change (s.parseLine (ascii "rename " ++ (ascii "from " ++ printName [] old)) >>= fun s' =>
      s'.parseLine (ascii "rename " ++ (ascii "to " ++ printName [] new)) >>= pure) = _
    rw [hfrom]
    change ({ s with status := FileStatus.renamed }.parseLine _ >>= pure) = _
    rw [hto]
    rfl

/-- The state after the `---` line. -/
def withOld (s : ParseState) (old : ParsedPath) : ParseState :=
  { s with
    oldPath := old.path
    oldPathValid := old.valid
    status := if old.path = devNull then .added else s.status }

/-- The state after the `+++` line. -/
def withNew (s : ParseState) (new : ParsedPath) : ParseState :=
  { s with
    newPath := new.path
    newPathValid := new.valid
    status := if new.path = devNull then .removed else s.status }

theorem Opened.withOld (h : s.Opened) (old : ParsedPath) : (s.withOld old).Opened :=
  ⟨⟨h.textual.haveFile, h.textual.binary, h.textual.expectsBlock⟩, h.haveHunk, h.lines, h.hunks,
    h.noOldSize, h.noNewSize⟩

theorem Opened.withNew (h : s.Opened) (new : ParsedPath) : (s.withNew new).Opened :=
  ⟨⟨h.textual.haveFile, h.textual.binary, h.textual.expectsBlock⟩, h.haveHunk, h.lines, h.hunks,
    h.noOldSize, h.noNewSize⟩

theorem parse_oldPath (ho : s.Opened) (rest : Bytes) :
    s.parseLine (ascii "--- " ++ rest) = .ok (s.withOld (normalizeDiffPath rest)) :=
  parseLine_preamble ho.textual.haveFile ho.haveHunk rfl rfl

theorem parse_newPath (ho : s.Opened) (rest : Bytes) :
    s.parseLine (ascii "+++ " ++ rest) = .ok (s.withNew (normalizeDiffPath rest)) :=
  parseLine_preamble ho.textual.haveFile ho.haveHunk rfl rfl

theorem parse_pathRows (ho : s.Opened) (change : FileChange) : change.pathRows.foldlM parseLine s =
      .ok ((s.withOld (normalizeDiffPath (printPath (ascii "a/") change.oldName))).withNew
        (normalizeDiffPath (printPath (ascii "b/") change.newName))) := by
  have hold := parse_oldPath ho (printPath (ascii "a/") change.oldName)
  have hnew := parse_newPath (ho.withOld (normalizeDiffPath (printPath (ascii "a/") change.oldName)))
    (printPath (ascii "b/") change.newName)
  unfold FileChange.pathRows
  rw [foldlM_cons, hold]
  change (withOld _ _).parseLine _ >>= pure = _
  rw [hnew]
  rfl

/-- Between two Files: nothing waits outside a File, and an open File is a text File. -/
structure Ready (s : ParseState) : Prop where
  tidy : s.Tidy
  outside : s.haveFile = false → s.haveHunk = false ∧ s.hunks = []
  textual : s.haveFile = true → s.Textual

/-- The Files once the open one is closed. -/
def closedFiles (s : ParseState) : List File := s.flushHunk.flushFile.files

theorem closedFiles_open (h : s.haveFile = true) :
    s.closedFiles = s.files ++ [s.fileWith s.flushHunk.hunks] := by
  have hopen : s.flushHunk.haveFile = true := (flushHunk_haveFile s).trans h
  have hfile : s.flushHunk.fileWith s.flushHunk.hunks = s.fileWith s.flushHunk.hunks := by
    rw [flushHunk_fileWith]
  unfold closedFiles flushFile
  rw [if_pos hopen]
  change s.flushHunk.files ++ [s.flushHunk.fileWith s.flushHunk.hunks] = _
  rw [flushHunk_files, hfile]

theorem flushFile_hunks (ho : s.haveFile = false → s.haveHunk = false ∧ s.hunks = []) :
    s.flushHunk.flushFile.hunks = [] := by
  unfold flushFile
  split
  · rfl
  rename_i h
  have hclosed : s.haveFile = false := by simpa using h
  obtain ⟨hno, hempty⟩ := ho hclosed
  unfold flushHunk
  rw [if_neg (by simp [hno])]
  exact hempty

theorem flushFile_lines (s : ParseState) : s.flushFile.lines = s.lines := by
  unfold flushFile
  split <;> rfl

theorem flushFile_haveHunk (s : ParseState) : s.flushFile.haveHunk = s.haveHunk := by
  unfold flushFile
  split <;> rfl

theorem parse_git (operands : Bytes) : s.parseLine (ascii "diff --git " ++ operands) =
      .ok (s.flushHunk.flushFile.openFile operands) := by
  rfl

theorem openFile_opened (hr : s.Ready) (operands : Bytes) :
    (s.flushHunk.flushFile.openFile operands).Opened := by
  constructor
  · exact ⟨rfl, rfl, rfl⟩
  · exact (flushFile_haveHunk _).trans (flushHunk_haveHunk s)
  · exact (flushFile_lines _).trans (flushHunk_lines hr.tidy)
  · exact flushFile_hunks hr.outside
  · rfl
  · rfl

theorem Opened.tidy (h : s.Opened) : s.Tidy := fun _ => h.lines

theorem Opened.flushed (h : s.Opened) : s.flushHunk.hunks = [] := by
  unfold flushHunk
  rw [if_neg (by simp [h.haveHunk])]
  exact h.hunks

section

variable (hr : s.Ready)
include hr

theorem parse_heading (f : PrintedFile) :
    ∃ s', ((ascii "diff --git " ++ f.change.gitOperands) :: f.change.statusRows ++
        (if f.hunks = [] then [] else f.change.pathRows)).foldlM parseLine s = .ok s' ∧
      s'.Opened ∧ s'.files = s.closedFiles ∧
      s'.fileWith (f.hunks.map PrintedHunk.reread) = f.reread := by
  have ho := openFile_opened hr f.change.gitOperands
  have hstatus := parse_statusRows ho rfl f.change
  have ho₂ := ho.withStatus f.change.status
  rw [foldlM_append, foldlM_cons, parse_git]
  change ∃ s', (f.change.statusRows.foldlM parseLine _ >>= _) = _ ∧ _
  rw [hstatus]
  by_cases hh : f.hunks = []
  · rw [if_pos hh, hh]
    refine ⟨_, rfl, ho₂, rfl, ?_⟩
    simp [fileWith, PrintedFile.reread, FileChange.reread, hh, openFile]
  · rw [if_neg hh]
    have hpaths := parse_pathRows ho₂ f.change
    refine ⟨_, hpaths, (ho₂.withOld _).withNew _, rfl, ?_⟩
    simp [fileWith, PrintedFile.reread, FileChange.reread, hh, openFile, ParseState.withOld,
      ParseState.withNew]

theorem parse_file {f : PrintedFile} (hw : f.WellFormed) (hfits : ∀ h ∈ f.hunks, h.Fits) :
    ∃ s', f.rows.foldlM parseLine s = .ok s' ∧ s'.Ready ∧ s'.haveFile = true ∧
      s'.closedFiles = s.closedFiles ++ [f.reread] := by
  obtain ⟨s₁, hrun₁, ho, hfiles, hread⟩ := parse_heading hr f
  obtain ⟨s₂, hrun₂, ha⟩ := parse_hunks ho.textual ho.tidy hw.hunks hfits
  have hopen := ha.textual.haveFile
  refine ⟨s₂, ?_, ⟨ha.tidy, ?_, ?_⟩, hopen, ?_⟩
  · unfold PrintedFile.rows
    rw [foldlM_append, hrun₁]
    exact hrun₂
  · intro hno
    exact absurd hopen (by simp [hno])
  · intro _
    exact ha.textual
  · rw [closedFiles_open hopen, ha.files, hfiles, ha.fileWith, ha.hunks, ho.flushed, nil_append, hread]

theorem parse_file_overflows {f : PrintedFile} (hw : f.WellFormed)
    (hover : ∃ h ∈ f.hunks, ¬ h.Fits) : f.rows.foldlM parseLine s = .error .integerOverflow := by
  obtain ⟨s₁, hrun₁, ho, -, -⟩ := parse_heading hr f
  unfold PrintedFile.rows
  rw [foldlM_append, hrun₁]
  exact parse_hunks_overflow ho.textual ho.tidy hw.hunks hover

theorem parse_files {files : List PrintedFile} (hw : ∀ f ∈ files, f.WellFormed)
    (hfits : ∀ f ∈ files, ∀ h ∈ f.hunks, h.Fits) :
    ∃ s', (files.flatMap PrintedFile.rows).foldlM parseLine s = .ok s' ∧ s'.Ready ∧
      s'.closedFiles = s.closedFiles ++ files.map PrintedFile.reread := by
  induction files generalizing s with
  | nil => exact ⟨s, rfl, hr, by simp⟩
  | cons f rest ih =>
    obtain ⟨s₁, hrun₁, hr₁, -, hc₁⟩ := parse_file hr (hw f mem_cons_self) (hfits f mem_cons_self)
    obtain ⟨s₂, hrun₂, hr₂, hc₂⟩ := ih hr₁ (fun g hg => hw g (mem_cons_of_mem _ hg))
      (fun g hg => hfits g (mem_cons_of_mem _ hg))
    refine ⟨s₂, ?_, hr₂, ?_⟩
    · rw [flatMap_cons, foldlM_append, hrun₁]
      exact hrun₂
    · rw [hc₂, hc₁, append_assoc]
      rfl

theorem parse_files_overflow {files : List PrintedFile}
    (hw : ∀ f ∈ files, f.WellFormed) (hover : ∃ f ∈ files, ∃ h ∈ f.hunks, ¬ h.Fits) :
    (files.flatMap PrintedFile.rows).foldlM parseLine s = .error .integerOverflow := by
  induction files generalizing s with
  | nil =>
    obtain ⟨f, hf, -⟩ := hover
    cases hf
  | cons f rest ih =>
    rw [flatMap_cons, foldlM_append]
    by_cases hfile : ∃ h ∈ f.hunks, ¬ h.Fits
    · rw [parse_file_overflows hr (hw f mem_cons_self) hfile]
      rfl
    · have hfits : ∀ h ∈ f.hunks, h.Fits := by
        simpa using hfile
      obtain ⟨s₁, hrun₁, hr₁, -, -⟩ := parse_file hr (hw f mem_cons_self) hfits
      rw [hrun₁]
      rw [exists_mem_cons_iff] at hover
      exact ih hr₁ (fun g hg => hw g (mem_cons_of_mem _ hg)) (hover.resolve_left hfile)

theorem parse_empty : s.parseLine [] = .ok s := by
  have hgit : (ascii "diff --git ").isPrefixOf [] = false := rfl
  have hat : (ascii "@@").isPrefixOf [] = false := rfl
  unfold parseLine
  rw [if_neg (by simp [hgit])]
  by_cases hf : s.haveFile = false
  · rw [if_pos hf]
  have ht := hr.textual (by simpa using hf)
  have hpre : (if s.haveHunk then none else s.preambleLine []) = none := by
    have hnone : s.preambleLine [] = none := by
      simp [preambleLine, ascii, ht.binary]
    rw [hnone, ite_self]
  rw [if_neg hf, hpre]
  simp [hat, bodyLine]

end

end ParseState

theorem ParseState.ready_init : ({} : ParseState).Ready := by
  constructor
  · intro _
    rfl
  · intro _
    exact ⟨rfl, rfl⟩
  · intro h
    exact absurd h (by decide)

/-- Every list of Files whose numbers fit is read, each File as `reread` says. -/
theorem parse_print {files : List PrintedFile} (hw : ∀ f ∈ files, f.WellFormed)
    (hfits : ∀ f ∈ files, ∀ h ∈ f.hunks, h.Fits) :
    parse (print files) = .ok ⟨files.map PrintedFile.reread⟩ := by
  obtain ⟨s, hrun, hr, hc⟩ := ParseState.parse_files ParseState.ready_init hw hfits
  unfold parse
  rw [splitOn_print hw, foldlM_append, hrun]
  change (s.parseLine [] >>= pure) >>= _ = _
  rw [ParseState.parse_empty hr]
  change Except.ok (Diff.mk s.closedFiles) = _
  rw [hc]
  rfl

/-- A Hunk with a line too many ends the parse, wherever it stands. -/
theorem parse_print_overflows {files : List PrintedFile} (hw : ∀ f ∈ files, f.WellFormed)
    (hover : ∃ f ∈ files, ∃ h ∈ f.hunks, ¬ h.Fits) :
    parse (print files) = .error .integerOverflow := by
  unfold parse
  rw [splitOn_print hw, foldlM_append, ParseState.parse_files_overflow ParseState.ready_init hw hover]
  rfl

/-- A Hunk comes back: its numbers, its header, its lines in order, and a number for each line on
the sides it is on, counted from the start of that side. -/
structure PrintedHunk.Reads (h : PrintedHunk) (hunk : Hunk) : Prop where
  numbers : hunk.oldStart = h.oldStart ∧ hunk.oldCount = h.oldCount ∧
    hunk.newStart = h.newStart ∧ hunk.newCount = h.newCount
  header : hunk.header = h.header
  texts : hunk.lines.map (fun l => (l.kind, l.text)) = h.lines.map (fun l => (l.kind, l.text))
  oldNumbers : (hunk.lines.filter (fun l => l.kind != .added)).map Line.oldNo =
    List.range' h.oldStart (oldLines h.lines)
  newNumbers : (hunk.lines.filter (fun l => l.kind != .removed)).map Line.newNo =
    List.range' h.newStart (newLines h.lines)
  oldAbsent : ∀ l ∈ hunk.lines, l.kind = .added → l.oldNo = 0
  newAbsent : ∀ l ∈ hunk.lines, l.kind = .removed → l.newNo = 0

/-- A File comes back: its status, its path and content on the sides it is on, and its Hunks. -/
structure PrintedFile.Reads (f : PrintedFile) (file : File) : Prop where
  status : file.status = f.change.status
  oldPath : ∀ path, f.change.oldName = some path → file.oldPath = path
  newPath : ∀ path, f.change.newName = some path → file.newPath = path
  oldContent : file.content.old = f.change.oldName.map (fun _ => .text none)
  newContent : file.content.new = f.change.newName.map (fun _ => .text none)
  hunks : List.Forall₂ PrintedHunk.Reads f.hunks file.hunks

/-- The Files, and no others, come back in order. -/
def RoundTrips (files : List PrintedFile) : Prop :=
  ∃ diff, parse (print files) = .ok diff ∧ List.Forall₂ PrintedFile.Reads files diff.files

/-- The parser takes a part of a path for something else: the leading `b/` of an old path printed
without quotes, or, where there are no path lines, a space in a path printed without quotes. -/
def PrintedFile.MisreadPath (f : PrintedFile) : Prop :=
  if f.hunks = [] then ¬ Whole f.change.operands.1 ∨ ¬ Whole f.change.operands.2
  else ∃ path, f.change.oldName = some path ∧ isQuoted path = false ∧
    (ascii "b/").isPrefixOf path = true

/-- The parser stops at a number of a Hunk, or takes a part of a path for something else. -/
def PrintedFile.Misread (f : PrintedFile) : Prop := (∃ h ∈ f.hunks, ¬ h.Fits) ∨ f.MisreadPath

variable (lines : List PrintedLine) (oldNo newNo : Nat)

theorem numberLines_texts : (numberLines oldNo newNo lines).map (fun l => (l.kind, l.text)) =
      lines.map (fun l => (l.kind, l.text)) := by
  induction lines generalizing oldNo newNo with
  | nil => rfl
  | cons l rest ih => cases hk : l.kind <;> simp [numberLines, hk, ih]

theorem numberLines_old :
    ((numberLines oldNo newNo lines).filter (fun l => l.kind != .added)).map Line.oldNo =
      List.range' oldNo (oldLines lines) := by
  induction lines generalizing oldNo newNo with
  | nil => rfl
  | cons l rest ih =>
    unfold oldLines at ih ⊢
    cases hk : l.kind <;> simp [numberLines, hk, ih, range'_succ]

theorem numberLines_new :
    ((numberLines oldNo newNo lines).filter (fun l => l.kind != .removed)).map Line.newNo =
      List.range' newNo (newLines lines) := by
  induction lines generalizing oldNo newNo with
  | nil => rfl
  | cons l rest ih =>
    unfold newLines at ih ⊢
    cases hk : l.kind <;> simp [numberLines, hk, ih, range'_succ]

theorem numberLines_absent : ∀ l ∈ numberLines oldNo newNo lines,
      (l.kind = .added → l.oldNo = 0) ∧ (l.kind = .removed → l.newNo = 0) := by
  induction lines generalizing oldNo newNo with
  | nil => simp [numberLines]
  | cons p rest ih =>
    intro l hl
    cases hk : p.kind <;> simp only [numberLines, hk, mem_cons] at hl <;>
      obtain rfl | hl := hl
    case context.inl => simp
    case added.inl => simp
    case removed.inl => simp
    all_goals exact ih _ _ l hl

theorem PrintedHunk.reads_reread (h : PrintedHunk) : h.Reads h.reread :=
  { numbers := ⟨rfl, rfl, rfl, rfl⟩
    header := rfl
    texts := numberLines_texts h.lines _ _
    oldNumbers := numberLines_old h.lines _ _
    newNumbers := numberLines_new h.lines _ _
    oldAbsent := fun l hl => (numberLines_absent h.lines _ _ l hl).1
    newAbsent := fun l hl => (numberLines_absent h.lines _ _ l hl).2 }

theorem hunks_read (hunks : List PrintedHunk) :
    List.Forall₂ PrintedHunk.Reads hunks (hunks.map PrintedHunk.reread) := by
  induction hunks with
  | nil => exact .nil
  | cons h rest ih => exact .cons h.reads_reread ih

/-! ## Which Files come back -/

variable {path : Bytes} {change : FileChange}

theorem FileChange.oldName_operands (h : change.oldName = some path) :
    change.operands.1 = path := by
  cases change <;> simp_all [oldName, operands]

theorem FileChange.newName_operands (h : change.newName = some path) :
    change.operands.2 = path := by
  cases change <;> simp_all [newName, operands]

theorem fileContent_text (change : FileChange) : fileContent change.status false none none true true =
      ⟨change.oldName.map (fun _ => .text none), change.newName.map (fun _ => .text none)⟩ := by
  cases change <;> rfl

variable {f : PrintedFile}

theorem PrintedFile.reads_bare (hw : f.WellFormed) (hh : f.hunks = []) :
    f.Reads f.reread ↔ ¬ f.MisreadPath := by
  have hmis : f.MisreadPath ↔ ¬ Whole f.change.operands.1 ∨ ¬ Whole f.change.operands.2 := by
    unfold MisreadPath
    rw [if_pos hh]
  have hold : f.reread.oldPath = (parseGitPaths f.change.gitOperands).old := by
    simp [reread, FileChange.reread, hh]
  have hnew : f.reread.newPath = (parseGitPaths f.change.gitOperands).new := by
    simp [reread, FileChange.reread, hh]
  rw [hmis]
  constructor
  · intro hr h
    have hside₁ : ¬ Whole f.change.operands.1 → f.change.oldName ≠ some f.change.operands.1 := by
      intro hcut hname
      rw [whole_iff] at hcut
      obtain ⟨hq, hs⟩ := WholeName.of_not hcut
      rw [gitOperands_eq] at hold
      exact parseGitPaths_old_ne hq hs (hold ▸ hr.oldPath _ hname)
    have hside₂ : ¬ Whole f.change.operands.2 → f.change.newName ≠ some f.change.operands.2 := by
      intro hcut hname
      rw [whole_iff] at hcut
      obtain ⟨hq, hs⟩ := WholeName.of_not hcut
      rw [gitOperands_eq] at hnew
      exact parseGitPaths_new_ne hq hs (hnew ▸ hr.newPath _ hname)
    -- where a side is absent both operands are the path of the other side
    cases hc : f.change <;> simp_all [FileChange.operands, FileChange.oldName, FileChange.newName]
  · intro h
    rw [not_or, not_not, not_not, whole_iff, whole_iff] at h
    have hgit := parseGitPaths_whole ((isRepositoryRelative_iff _).mp hw.first)
      ((isRepositoryRelative_iff _).mp hw.second) h.1 h.2
    rw [← gitOperands_eq] at hgit
    have hfile : f.reread = ⟨f.change.operands.1, f.change.operands.2, f.change.status, [],
        fileContent f.change.status false none none true true⟩ := by
      simp [reread, FileChange.reread, hh, hgit]
    rw [hfile, fileContent_text]
    constructor
    · rfl
    · intro path hp
      exact FileChange.oldName_operands hp
    · intro path hp
      exact FileChange.newName_operands hp
    · rfl
    · rfl
    · rw [hh]
      exact .nil

theorem normalizeDiffPath_new (hr : RepositoryRelative path) :
    normalizeDiffPath (printPath (ascii "b/") (some path)) = ⟨path, true⟩ := by
  obtain ⟨field, hf, he⟩ := printPath_some (ascii "b/") path
  rw [he]
  cases hq : needsQuotes true path with
  | true => exact normalizeDiffPath_quoted isSide_new hf hq hr
  | false => exact normalizeDiffPath_plain isSide_new hf hq hr (fun h => absurd h (by decide))

theorem normalizeDiffPath_old (hr : RepositoryRelative path)
    (h : ¬ (isQuoted path = false ∧ (ascii "b/").isPrefixOf path = true)) :
    normalizeDiffPath (printPath (ascii "a/") (some path)) = ⟨path, true⟩ := by
  obtain ⟨field, hf, he⟩ := printPath_some (ascii "a/") path
  rw [isQuoted_eq] at h
  rw [he]
  cases hq : needsQuotes true path with
  | true => exact normalizeDiffPath_quoted isSide_old hf hq hr
  | false =>
    have hkept : (ascii "b/").isPrefixOf path = false := by
      rw [Bool.eq_false_iff]
      exact fun hb => h ⟨hq, hb⟩
    exact normalizeDiffPath_plain isSide_old hf hq hr (fun _ => hkept)

theorem PrintedFile.reads_full (hw : f.WellFormed) (hh : f.hunks ≠ []) :
    f.Reads f.reread ↔ ¬ f.MisreadPath := by
  have hmis : f.MisreadPath ↔ ∃ path, f.change.oldName = some path ∧ isQuoted path = false ∧
      (ascii "b/").isPrefixOf path = true := by
    unfold MisreadPath
    rw [if_neg hh]
  rw [hmis]
  constructor
  · rintro hr ⟨path, hname, hq, hb⟩
    have hold : f.reread.oldPath =
        (normalizeDiffPath (printPath (ascii "a/") f.change.oldName)).path := by
      simp [reread, FileChange.reread, hh]
    have hpath := hr.oldPath path hname
    obtain ⟨field, hf, he⟩ := printPath_some (ascii "a/") path
    rw [hold, hname, he] at hpath
    exact normalizeDiffPath_misread hf (isQuoted_eq path ▸ hq) hb hpath
  · intro h
    have hrel₁ := (isRepositoryRelative_iff _).mp hw.first
    have hrel₂ := (isRepositoryRelative_iff _).mp hw.second
    have hkept (path : Bytes) (hname : f.change.oldName = some path) :
        ¬ (isQuoted path = false ∧ (ascii "b/").isPrefixOf path = true) :=
      fun hpath => h ⟨path, hname, hpath⟩
    have hfile : f.reread = ⟨f.change.oldName.getD devNull, f.change.newName.getD devNull,
        f.change.status, f.hunks.map PrintedHunk.reread,
        fileContent f.change.status false none none true true⟩ := by
      unfold reread FileChange.reread
      cases hc : f.change with
      | added path =>
        have hne := hrel₂.ne_devNull
        have hnew := normalizeDiffPath_new hrel₂
        simp_all [FileChange.oldName, FileChange.newName, FileChange.operands, FileChange.status,
          normalizeDiffPath_devNull]
      | removed path =>
        rw [hc] at hrel₁
        have hold := normalizeDiffPath_old hrel₁ (hkept path (by rw [hc]; rfl))
        simp_all [FileChange.oldName, FileChange.newName, FileChange.operands, FileChange.status,
          normalizeDiffPath_devNull]
      | modified path =>
        rw [hc] at hrel₁
        have hne := hrel₁.ne_devNull
        have hold := normalizeDiffPath_old hrel₁ (hkept path (by rw [hc]; rfl))
        have hnew := normalizeDiffPath_new hrel₁
        simp_all [FileChange.oldName, FileChange.newName, FileChange.operands, FileChange.status]
      | renamed old new =>
        rw [hc] at hrel₁ hrel₂
        have hne₁ := hrel₁.ne_devNull
        have hne₂ := hrel₂.ne_devNull
        have hold := normalizeDiffPath_old hrel₁ (hkept old (by rw [hc]; rfl))
        have hnew := normalizeDiffPath_new hrel₂
        simp_all [FileChange.oldName, FileChange.newName, FileChange.operands, FileChange.status]
    rw [hfile, fileContent_text]
    constructor
    · rfl
    · intro path hp
      rw [hp]
      rfl
    · intro path hp
      rw [hp]
      rfl
    · rfl
    · rfl
    · exact hunks_read f.hunks

theorem PrintedFile.reads_iff (hw : f.WellFormed) : f.Reads f.reread ↔ ¬ f.MisreadPath := by
  by_cases hh : f.hunks = []
  · exact reads_bare hw hh
  · exact reads_full hw hh

theorem roundTrips_iff {files : List PrintedFile} (hw : ∀ f ∈ files, f.WellFormed)
    (hfits : ∀ f ∈ files, ∀ h ∈ f.hunks, h.Fits) :
    RoundTrips files ↔ ∀ f ∈ files, ¬ f.MisreadPath := by
  have hparse := parse_print hw hfits
  have hreads : RoundTrips files ↔ ∀ f ∈ files, f.Reads f.reread := by
    unfold RoundTrips
    rw [hparse]
    constructor
    · rintro ⟨diff, hd, hall⟩
      cases hd
      rw [forall₂_map_right_iff] at hall
      exact forall₂_same.mp hall
    · intro h
      refine ⟨_, rfl, ?_⟩
      rw [forall₂_map_right_iff]
      exact forall₂_same.mpr h
  rw [hreads]
  exact forall₂_congr (fun f hf => PrintedFile.reads_iff (hw f hf))

/-- Exactly the lists without a misread path or number come back. -/
theorem round_trips {files : List PrintedFile} (hw : ∀ f ∈ files, f.WellFormed) :
    RoundTrips files ↔ ∀ f ∈ files, ¬ f.Misread := by
  by_cases hover : ∃ f ∈ files, ∃ h ∈ f.hunks, ¬ h.Fits
  · have hparse := parse_print_overflows hw hover
    refine iff_of_false ?_ ?_
    · rintro ⟨diff, hd, -⟩
      rw [hparse] at hd
      cases hd
    · intro hnone
      obtain ⟨f, hf, hhunk⟩ := hover
      exact hnone f hf (.inl hhunk)
  · have hfits : ∀ f ∈ files, ∀ h ∈ f.hunks, h.Fits := by
      simpa using hover
    rw [roundTrips_iff hw hfits]
    refine forall₂_congr (fun f hf => not_congr ?_)
    exact ⟨.inr, fun h => h.resolve_left (fun ⟨g, hg, hnot⟩ => hnot (hfits f hf g hg))⟩

/-- Body text that imitates path lines and a Hunk header. -/
theorem round_trips_imitation :
    RoundTrips [⟨.modified (ascii "lib.zig"), [{
      oldStart := 4, oldCount := 2, newStart := 4, newCount := 2
      lines := [⟨.removed, ascii "-- a/x", false⟩, ⟨.added, ascii "++ b/x", false⟩,
        ⟨.context, ascii "@@ -1 +1 @@", true⟩] }]⟩] := by
  have hwell : ∀ f ∈ [(⟨.modified (ascii "lib.zig"), [{
      oldStart := 4, oldCount := 2, newStart := 4, newCount := 2
      lines := [⟨.removed, ascii "-- a/x", false⟩, ⟨.added, ascii "++ b/x", false⟩,
        ⟨.context, ascii "@@ -1 +1 @@", true⟩] }]⟩ : PrintedFile)], f.WellFormed := by
    intro f hf
    obtain rfl := mem_singleton.mp hf
    constructor
    · decide +kernel
    · decide +kernel
    · intro h hh
      obtain rfl := mem_singleton.mp hh
      exact ⟨by decide, by decide +kernel, by decide, by decide⟩
  apply (round_trips hwell).mpr
  intro f hf
  obtain rfl := mem_singleton.mp hf
  rintro (⟨h, hh, hover⟩ | ⟨path, hname, -, hb⟩)
  · obtain rfl := mem_singleton.mp hh
    exact hover ⟨by decide, by decide⟩
  · cases hname
    exact absurd hb (by decide)

/-- The old path `b/x` comes back as `x`. -/
theorem round_trips_ownPrefix :
    ¬ ∀ files : List PrintedFile, (∀ f ∈ files, f.WellFormed) → RoundTrips files := by
  intro h
  have hwell : ∀ f ∈ [(⟨.modified (ascii "b/x"), [{
      oldStart := 1, oldCount := 1, newStart := 1, newCount := 1
      lines := [⟨.context, ascii "text", false⟩] }]⟩ : PrintedFile)], f.WellFormed := by
    intro f hf
    obtain rfl := mem_singleton.mp hf
    constructor
    · decide +kernel
    · decide +kernel
    · intro g hg
      obtain rfl := mem_singleton.mp hg
      exact ⟨by decide, by decide +kernel, by decide, by decide⟩
  obtain ⟨diff, hd, hall⟩ := h _ hwell
  cases hd
  obtain ⟨hfile, -⟩ := forall₂_cons.mp hall
  exact absurd (hfile.oldPath _ rfl) (by decide)

end Bbr.Diff
