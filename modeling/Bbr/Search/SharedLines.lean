import Bbr.Search.ScanFileLaws

/-!
# Shared Lines are listed once

A search of a whole File lists every matching context Line of the Hunks once for both versions, and every
other matching Line for its own, exactly when no matching context Line ends with a carriage return, which
the Hunk keeps and the search drops.
-/
namespace Bbr.Search

open Bbr.Diff List
open Bbr.Tui (Numbered Unified DiffOf sideLines sideLines_cons sideLines_skip sideNo
  splitBlobLines)

/-- The Lines of both versions without their terminators. -/
def contentTexts (old new : Option Bytes) : VersionRelation → List Bytes
  | .neutral => []
  | .old => (splitBlobLines (old.getD [])).map stripReturn
  | .new => (splitBlobLines (new.getD [])).map stripReturn

def contextLines (file : File) : List Line :=
  (file.hunks.flatMap Hunk.lines).filter (fun line => line.kind = .context)

/-- The context Lines of the Hunks are Lines of both versions, whatever their terminators are. -/
structure Agrees (file : File) (texts : VersionRelation → List Bytes) : Prop where
  old : ∀ line ∈ contextLines file,
    0 < line.oldNo ∧ (texts .old)[line.oldNo - 1]? = some (stripReturn line.text)
  new : ∀ line ∈ contextLines file,
    0 < line.newNo ∧ (texts .new)[line.newNo - 1]? = some (stripReturn line.text)
  numbers : (contextLines file).Pairwise (fun a b => a.oldNo ≠ b.oldNo ∧ a.newNo ≠ b.newNo)

def sharedLocation (file : File) (fileIndex : Nat) (line : Line) : SourceLocation where
  fileIndex := fileIndex
  relation := .neutral
  oldPath := file.oldPath
  newPath := file.newPath
  oldLine := some line.oldNo
  newLine := some line.newNo

/-- The Line has the number of a context Line in its version. -/
def SharedBy (file : File) (line : ContentLine) : Prop :=
  ∃ shared ∈ contextLines file,
    (line.relation = .old ∧ shared.oldNo = line.lineNo) ∨
      (line.relation = .new ∧ shared.newNo = line.lineNo)

/-- One Occurrence for each matching context Line, one for each other matching Line of a version. -/
structure ListsOnce (uc : UnicodeCase) (query : Query) (file : File) (fileIndex : Nat)
    (texts : VersionRelation → List Bytes) (batch : List Occurrence) : Prop where
  once : (batch.map Occurrence.location).Nodup
  exact : ∀ location, location ∈ batch.map Occurrence.location ↔
    (∃ line ∈ contextLines file, lineMatches uc query (stripReturn line.text) = true ∧
      location = .source (sharedLocation file fileIndex line)) ∨
    (∃ line ∈ versionLines texts, lineMatches uc query line.text = true ∧
      ¬SharedBy file line ∧ location = .source (lineLocation file fileIndex line))

/-- The Lines can be numbered and read, and no matching context Line ends with a carriage return. -/
structure Searchable (uc : UnicodeCase) (query : Query) (file : File)
    (texts : VersionRelation → List Bytes) : Prop where
  numbered : (texts .old).length + 1 < lineLimit ∧ (texts .new).length + 1 < lineLimit
  readable : query.scalars = [] ∨ ∀ line ∈ versionLines texts, utf8Decode line.text ≠ none
  plain : ∀ line ∈ contextLines file, lineMatches uc query (stripReturn line.text) = true →
    line.text.getLast? ≠ some 13

variable {uc : UnicodeCase} {query : Query} {file : File} {fileIndex epoch : Nat}
  {texts : VersionRelation → List Bytes} {batch : List Occurrence}

variable {text : Bytes}

theorem stripReturn_plain (h : text.getLast? ≠ some 13) : stripReturn text = text := if_neg h

theorem stripReturn_ne (h : text.getLast? = some 13) : stripReturn text ≠ text := by
  intro heq
  rw [stripReturn, if_pos h] at heq
  have hlength := congrArg length heq
  rw [length_dropLast] at hlength
  cases text with
  | nil => cases h
  | cons b text =>
    rw [length_cons] at hlength
    omega

variable {line : Line}

theorem mem_contextLines : line ∈ contextLines file ↔
    line ∈ file.hunks.flatMap Hunk.lines ∧ line.kind = .context := by
  rw [contextLines, mem_filter, decide_eq_true_eq]

theorem Agrees.own (h : Agrees file texts) {a b : Line} (ha : a ∈ contextLines file)
    (hb : b ∈ contextLines file) (heq : a.oldNo = b.oldNo ∨ a.newNo = b.newNo) : a = b := by
  by_contra hne
  have : Std.Symm (fun a b : Line => a.oldNo ≠ b.oldNo ∧ a.newNo ≠ b.newNo) :=
    ⟨fun _ _ hab => ⟨hab.1.symm, hab.2.symm⟩⟩
  have hnumbers := h.numbers.forall ha hb hne
  exact heq.elim hnumbers.1 hnumbers.2

theorem mergeable_context (hline : line ∈ file.hunks.flatMap Hunk.lines)
    (h : mergeable uc query texts line = true) : line ∈ contextLines file :=
  mem_contextLines.mpr ⟨hline, (mergeable_iff.mp h).1⟩

theorem Agrees.mergeable_iff (h : Agrees file texts) (hline : line ∈ contextLines file) :
    mergeable uc query texts line = true ↔
      line.text.getLast? ≠ some 13 ∧ lineMatches uc query (stripReturn line.text) = true := by
  obtain ⟨hold, holdText⟩ := h.old line hline
  obtain ⟨hnew, hnewText⟩ := h.new line hline
  rw [Search.mergeable_iff, holdText, hnewText]
  constructor
  · rintro ⟨-, -, -, heq, -, hmatches⟩
    have hplain : line.text.getLast? ≠ some 13 :=
      fun hreturn => stripReturn_ne hreturn (Option.some.inj heq)
    rw [stripReturn_plain hplain]
    exact ⟨hplain, hmatches⟩
  · rintro ⟨hplain, hmatches⟩
    rw [stripReturn_plain hplain] at hmatches ⊢
    exact ⟨(mem_contextLines.mp hline).2, by omega, by omega, rfl, rfl, hmatches⟩

theorem Agrees.paired (h : Agrees file texts) :
    (file.hunks.flatMap Hunk.lines).Pairwise (fun earlier line =>
      mergeable uc query texts earlier = true → mergeable uc query texts line = true →
        (earlier.oldNo = line.oldNo ↔ earlier.newNo = line.newNo)) := by
  refine pairwise_of_forall_mem_list (fun a ha b hb hmergeable hmergeable' => ?_)
  have ha := mergeable_context ha hmergeable
  have hb := mergeable_context hb hmergeable'
  exact ⟨fun heq => by rw [h.own ha hb (.inl heq)], fun heq => by rw [h.own ha hb (.inr heq)]⟩

/-- What the merge leaves of the Occurrences. -/
def mergedBatch (uc : UnicodeCase) (query : Query) (file : File)
    (texts : VersionRelation → List Bytes) (batch : List Occurrence) : List Occurrence :=
  (batch.map (merged uc query texts (file.hunks.flatMap Hunk.lines))).filter
    (fun occurrence => occurrence.corpusOrder != dropped)

/-- An Occurrence of the merge, and the one it comes from. -/
inductive Kept (uc : UnicodeCase) (query : Query) (file : File) (fileIndex : Nat)
    (texts : VersionRelation → List Bytes) (before after : Occurrence) : Prop where
  | shared (line : Line) (hline : line ∈ contextLines file)
    (hmergeable : mergeable uc query texts line = true)
    (hbefore : before.location =
      .source (lineLocation file fileIndex ⟨.old, line.oldNo, line.text⟩))
    (hafter : after.location = .source (sharedLocation file fileIndex line))
  | single (line : ContentLine) (hline : line ∈ versionLines texts)
    (hmatches : lineMatches uc query line.text = true)
    (hnone : ∀ shared ∈ contextLines file, mergeable uc query texts shared = true →
      touches shared before = false)
    (hbefore : Found uc query file fileIndex line before) (hafter : after = before)

variable {occurrence : Occurrence}

theorem corpusOrder_lt (hold : (texts .old).length + 1 < lineLimit)
    (hnew : (texts .new).length + 1 < lineLimit) {line : ContentLine}
    (hline : line ∈ versionLines texts)
    (hfound : Found uc query file fileIndex line occurrence) :
    occurrence.corpusOrder < dropped := by
  obtain ⟨hne, hpos, htext⟩ := mem_versionLines.mp hline
  have hlt := (List.getElem?_eq_some_iff.mp htext).1
  have hbound : line.lineNo < lineLimit := by
    cases hrelation : line.relation with
    | neutral => exact absurd hrelation hne
    | old | new =>
      rw [hrelation] at hlt
      omega
  rw [hfound.order]
  rw [lineLimit] at hbound
  rw [dropped]
  split <;> omega

variable {number : Nat}

theorem touches_old (hfound : Found uc query file fileIndex ⟨.old, number, text⟩ occurrence) :
    touches line occurrence = decide (number = line.oldNo) := by
  rw [touches, lineNumber_found (by decide) hfound, lineNumber_found (by decide) hfound]
  simp

theorem touches_new (hfound : Found uc query file fileIndex ⟨.new, number, text⟩ occurrence) :
    touches line occurrence = decide (number = line.newNo) := by
  rw [touches, lineNumber_found (by decide) hfound, lineNumber_found (by decide) hfound]
  simp

theorem neutralize_old (hfound : Found uc query file fileIndex ⟨.old, line.oldNo, text⟩ occurrence) :
    (occurrence.neutralize line (lineNumber .new occurrence).isSome).location =
        .source (sharedLocation file fileIndex line) ∧
      (occurrence.neutralize line (lineNumber .new occurrence).isSome).corpusOrder =
        occurrence.corpusOrder := by
  rw [lineNumber_found (by decide) hfound, Occurrence.neutralize, hfound.location]
  exact ⟨rfl, rfl⟩

theorem neutralize_new (hfound : Found uc query file fileIndex ⟨.new, number, text⟩ occurrence) :
    (occurrence.neutralize line (lineNumber .new occurrence).isSome).corpusOrder = dropped := by
  rw [lineNumber_found (by decide) hfound, Occurrence.neutralize, hfound.location]
  rfl

theorem mem_mergedBatch {after : Occurrence} : after ∈ mergedBatch uc query file texts batch ↔
    ∃ before ∈ batch, merged uc query texts (file.hunks.flatMap Hunk.lines) before = after ∧
      after.corpusOrder ≠ dropped := by
  rw [mergedBatch, mem_filter, mem_map, bne_iff_ne]
  constructor
  · rintro ⟨⟨before, hbefore, heq⟩, hkept⟩
    exact ⟨before, hbefore, heq, hkept⟩
  · rintro ⟨before, hbefore, heq, hkept⟩
    exact ⟨⟨before, hbefore, heq⟩, hkept⟩

section Kept

variable (h : Listed uc query file fileIndex (versionLines texts) batch)
include h

theorem kept_of_mem {before : Occurrence} (hbefore : before ∈ batch)
    (hkept : (merged uc query texts (file.hunks.flatMap Hunk.lines) before).corpusOrder ≠ dropped) :
    Kept uc query file fileIndex texts before
      (merged uc query texts (file.hunks.flatMap Hunk.lines) before) := by
  obtain ⟨⟨relation, number, text⟩, hline, hmatches, hfound⟩ := h.found before hbefore
  obtain ⟨shared, hshared, hmergeable, htouches, heq⟩ | ⟨hnone, heq⟩ :=
    merged_cases uc query texts (file.hunks.flatMap Hunk.lines) before
  · cases relation with
    | neutral => exact absurd rfl (mem_versionLines.mp hline).1
    | old =>
      rw [touches_old hfound, decide_eq_true_eq] at htouches
      subst htouches
      rw [heq]
      exact .shared shared (mergeable_context hshared hmergeable) hmergeable hfound.location
        (neutralize_old hfound).1
    | new => exact absurd (by rw [heq]; exact neutralize_new hfound) hkept
  · refine .single _ hline hmatches (fun shared hshared hmergeable => ?_) hfound heq
    exact hnone shared (mem_contextLines.mp hshared).1 hmergeable

theorem mergedBatch_once : ((mergedBatch uc query file texts batch).map Occurrence.location).Nodup := by
  rw [mergedBatch, List.Nodup, pairwise_map, pairwise_filter, pairwise_map]
  refine (pairwise_map.mp h.unique).imp_of_mem (fun {a b} ha hb hne hkeptA hkeptB heq => hne ?_)
  have hkeptA := kept_of_mem h ha (bne_iff_ne.mp hkeptA)
  have hkeptB := kept_of_mem h hb (bne_iff_ne.mp hkeptB)
  cases hkeptA with
  | shared line _ _ hbefore hafter =>
    cases hkeptB with
    | shared line' _ _ hbefore' hafter' =>
      rw [hafter, hafter'] at heq
      have holdNo : some line.oldNo = some line'.oldNo :=
        congrArg SourceLocation.oldLine (Location.source.inj heq)
      rw [hbefore, hbefore', lineLocation, lineLocation, Option.some.inj holdNo]
    | single line' hline' _ _ hfound' hafter' =>
      rw [hafter, hafter', hfound'.location] at heq
      have hrelation : VersionRelation.neutral = line'.relation :=
        congrArg SourceLocation.relation (Location.source.inj heq)
      exact absurd hrelation.symm (mem_versionLines.mp hline').1
  | single line hline _ _ hfound hafter =>
    cases hkeptB with
    | shared line' _ _ hbefore' hafter' =>
      rw [hafter, hafter', hfound.location] at heq
      have hrelation : line.relation = .neutral :=
        congrArg SourceLocation.relation (Location.source.inj heq)
      exact absurd hrelation (mem_versionLines.mp hline).1
    | single line' _ _ _ _ hafter' => rwa [hafter, hafter'] at heq

theorem shared_listed (hagrees : Agrees file texts) (hold : (texts .old).length + 1 < lineLimit)
    (hnew : (texts .new).length + 1 < lineLimit) (hline : line ∈ contextLines file)
    (hmergeable : mergeable uc query texts line = true) :
    .source (sharedLocation file fileIndex line) ∈
      (mergedBatch uc query file texts batch).map Occurrence.location := by
  obtain ⟨-, hpos, -, htext, -, hmatches⟩ := Search.mergeable_iff.mp hmergeable
  obtain ⟨before, hbefore, hfound, -⟩ := h.occurs (by decide) (Nat.pos_of_ne_zero hpos) htext hmatches
  have htouches : touches line before = true := by
    rw [touches_old hfound]
    exact decide_eq_true rfl
  obtain ⟨other, hother, hmergeable', htouches', heq⟩ | ⟨hnone, -⟩ :=
    merged_cases uc query texts (file.hunks.flatMap Hunk.lines) before
  · rw [touches_old hfound, decide_eq_true_eq] at htouches'
    obtain rfl := hagrees.own hline (mergeable_context hother hmergeable') (.inl htouches')
    obtain ⟨hlocation, horder⟩ := neutralize_old hfound
    refine mem_map.mpr ⟨_, mem_mergedBatch.mpr ⟨before, hbefore, heq, ?_⟩, hlocation⟩
    rw [horder]
    exact Nat.ne_of_lt (corpusOrder_lt hold hnew
      (mem_versionLines.mpr ⟨by simp, Nat.pos_of_ne_zero hpos, htext⟩) hfound)
  · rw [hnone line (mem_contextLines.mp hline).1 hmergeable] at htouches
    cases htouches

/-- A Line that the merge does not touch is listed for its version. -/
theorem single_listed (hold : (texts .old).length + 1 < lineLimit)
    (hnew : (texts .new).length + 1 < lineLimit) {line : ContentLine}
    (hline : line ∈ versionLines texts) (hmatches : lineMatches uc query line.text = true)
    (hsingle : ¬SharedBy file line) : .source (lineLocation file fileIndex line) ∈
      (mergedBatch uc query file texts batch).map Occurrence.location := by
  obtain ⟨before, hbefore, hfound⟩ := h.all line hline hmatches
  have horder := Nat.ne_of_lt (corpusOrder_lt hold hnew hline hfound)
  obtain ⟨other, hother, hmergeable, htouches, -⟩ | ⟨-, heq⟩ :=
    merged_cases uc query texts (file.hunks.flatMap Hunk.lines) before
  · refine absurd ⟨other, mergeable_context hother hmergeable, ?_⟩ hsingle
    obtain ⟨relation, number, text⟩ := line
    cases relation with
    | neutral => exact absurd rfl (mem_versionLines.mp hline).1
    | old =>
      rw [touches_old hfound, decide_eq_true_eq] at htouches
      exact .inl ⟨rfl, htouches.symm⟩
    | new =>
      rw [touches_new hfound, decide_eq_true_eq] at htouches
      exact .inr ⟨rfl, htouches.symm⟩
  · exact mem_map.mpr ⟨before, mem_mergedBatch.mpr ⟨before, hbefore, heq, horder⟩, hfound.location⟩

end Kept

theorem Agrees.text_eq (h : Agrees file texts) {line : ContentLine} (hline : line ∈ versionLines texts)
    {shared : Line} (hshared : shared ∈ contextLines file)
    (hnumber : (line.relation = .old ∧ shared.oldNo = line.lineNo) ∨
      (line.relation = .new ∧ shared.newNo = line.lineNo)) :
    line.text = stripReturn shared.text := by
  obtain ⟨-, -, htext⟩ := mem_versionLines.mp hline
  obtain ⟨hrelation, hnumber⟩ | ⟨hrelation, hnumber⟩ := hnumber
  · rw [hrelation, ← hnumber, (h.old shared hshared).2] at htext
    exact (Option.some.inj htext).symm
  · rw [hrelation, ← hnumber, (h.new shared hshared).2] at htext
    exact (Option.some.inj htext).symm

section

variable (h : Listed uc query file fileIndex (versionLines texts) batch)
  (hagrees : Agrees file texts)
include h hagrees

theorem mergedBatch_listsOnce (hsearchable : Searchable uc query file texts) :
    ListsOnce uc query file fileIndex texts (mergedBatch uc query file texts batch) := by
  obtain ⟨hold, hnew⟩ := hsearchable.numbered
  refine ⟨mergedBatch_once h, fun location => ⟨fun hlocation => ?_, ?_⟩⟩
  · obtain ⟨after, hafter, rfl⟩ := mem_map.mp hlocation
    obtain ⟨before, hbefore, rfl, hkept⟩ := mem_mergedBatch.mp hafter
    cases kept_of_mem h hbefore hkept with
    | shared line hline hmergeable _ hafter =>
      exact .inl ⟨line, hline, ((hagrees.mergeable_iff hline).mp hmergeable).2, hafter⟩
    | single line hline hmatches hnone hfound hafter =>
      refine .inr ⟨line, hline, hmatches, ?_, by rw [hafter, hfound.location]⟩
      rintro ⟨shared, hshared, hnumber⟩
      have hmatches' := hmatches
      rw [hagrees.text_eq hline hshared hnumber] at hmatches'
      have hmergeable := (hagrees.mergeable_iff hshared).mpr
        ⟨hsearchable.plain shared hshared hmatches', hmatches'⟩
      have htouches := hnone shared hshared hmergeable
      obtain ⟨relation, number, text⟩ := line
      obtain ⟨rfl, rfl⟩ | ⟨rfl, rfl⟩ := hnumber
      · rw [touches_old hfound] at htouches
        simp at htouches
      · rw [touches_new hfound] at htouches
        simp at htouches
  · rintro (⟨line, hline, hmatches, rfl⟩ | ⟨line, hline, hmatches, hsingle, rfl⟩)
    · exact shared_listed h hagrees hold hnew hline ((hagrees.mergeable_iff hline).mpr
        ⟨hsearchable.plain line hline hmatches, hmatches⟩)
    · exact single_listed h hold hnew hline hmatches hsingle

/-- A matching context Line that ends with a carriage return is not listed for both versions. -/
theorem mergedBatch_plain (hlists : ListsOnce uc query file fileIndex texts
      (mergedBatch uc query file texts batch)) (hline : line ∈ contextLines file)
    (hmatches : lineMatches uc query (stripReturn line.text) = true) :
    line.text.getLast? ≠ some 13 := by
  have hlocation := (hlists.exact _).mpr (.inl ⟨line, hline, hmatches, rfl⟩)
  obtain ⟨after, hafter, heq⟩ := mem_map.mp hlocation
  obtain ⟨before, hbefore, rfl, hkept⟩ := mem_mergedBatch.mp hafter
  cases kept_of_mem h hbefore hkept with
  | shared other hother hmergeable _ hafter =>
    rw [hafter] at heq
    have holdNo : some other.oldNo = some line.oldNo :=
      congrArg SourceLocation.oldLine (Location.source.inj heq)
    obtain rfl := hagrees.own hother hline (.inl (Option.some.inj holdNo))
    exact ((hagrees.mergeable_iff hother).mp hmergeable).1
  | single other hother _ _ hfound hafter =>
    rw [hafter, hfound.location] at heq
    have hrelation : other.relation = .neutral :=
      congrArg SourceLocation.relation (Location.source.inj heq)
    exact absurd hrelation (mem_versionLines.mp hother).1

end

theorem mergedBatch_absent (hnone : contextLines file = [])
    (hbatch : ∀ occurrence ∈ batch, occurrence.corpusOrder ≠ dropped) :
    mergedBatch uc query file texts batch = batch := by
  have hsame : batch.map (merged uc query texts (file.hunks.flatMap Hunk.lines)) = batch := by
    refine (map_congr_left (fun occurrence _ => ?_)).trans batch.map_id
    obtain ⟨line, hline, hmergeable, -⟩ | ⟨-, heq⟩ :=
      merged_cases uc query texts (file.hunks.flatMap Hunk.lines) occurrence
    · have hcontext := mergeable_context hline hmergeable
      rw [hnone] at hcontext
      cases hcontext
    · exact heq
  rw [mergedBatch, hsame, filter_eq_self]
  exact fun occurrence hmem => bne_iff_ne.mpr (hbatch occurrence hmem)

theorem contentLines_texts (old new : Option Bytes) :
    (contentLines old = if (contentTexts old new .old).length + 1 < lineLimit then
        some (contentTexts old new .old) else none) ∧
      contentLines new = if (contentTexts old new .new).length + 1 < lineLimit then
        some (contentTexts old new .new) else none := by
  rw [contentTexts, contentTexts, length_map, length_map]
  exact ⟨contentLines_eq old, contentLines_eq new⟩

variable {old new : Option Bytes}

theorem scanFile_none (h : ¬((contentTexts old new .old).length + 1 < lineLimit ∧
      (contentTexts old new .new).length + 1 < lineLimit)) :
    scanFile uc query file fileIndex epoch old new = none := by
  obtain ⟨hold, hnew⟩ := contentLines_texts old new
  rw [scanFile, hold, hnew]
  by_cases hroom : (contentTexts old new .old).length + 1 < lineLimit
  · rw [if_pos hroom, if_neg (fun hroom' => h ⟨hroom, hroom'⟩)]
    rfl
  · rw [if_neg hroom]
    rfl

theorem scanFile_eq (hold : (contentTexts old new .old).length + 1 < lineLimit)
    (hnew : (contentTexts old new .new).length + 1 < lineLimit) :
    scanFile uc query file fileIndex epoch old new =
      (scanLines uc query file fileIndex epoch (versionLines (contentTexts old new))).map
        (fun batch => if old = none ∨ new = none then batch
          else mergeVersions file (contentTexts old new .old) (contentTexts old new .new) batch) := by
  obtain ⟨hlines, hlines'⟩ := contentLines_texts old new
  rw [scanFile, hlines, hlines', if_pos hold, if_pos hnew, Option.bind_some, Option.bind_some]
  rfl

theorem mergeVersions_eq (h : Listed uc query file fileIndex (versionLines texts) batch)
    (hagrees : Agrees file texts) :
    mergeVersions file (texts .old) (texts .new) batch =
      mergedBatch uc query file texts batch := by
  have hnil : batch.map (merged uc query texts []) = batch := batch.map_id
  have hrun : (file.hunks.flatMap Hunk.lines).foldl
      (mergeLine (texts .old) (texts .new) (matchPlaces .old (texts .old).length batch)
        (matchPlaces .new (texts .new).length batch)) (batch.map (merged uc query texts [])) =
      batch.map (merged uc query texts (file.hunks.flatMap Hunk.lines)) :=
    mergeLines_merged h hagrees.paired
  rw [hnil] at hrun
  rw [mergedBatch, ← hrun]
  rfl

theorem Agrees.absent (h : Agrees file (contentTexts old new))
    (hnone : old = none ∨ new = none) : contextLines file = [] := by
  refine eq_nil_iff_forall_not_mem.mpr (fun line hline => ?_)
  obtain rfl | rfl := hnone
  · cases (h.old line hline).2
  · cases (h.new line hline).2

theorem scanFile_listed (hagrees : Agrees file (contentTexts old new))
    (hold : (contentTexts old new .old).length + 1 < lineLimit)
    (hnew : (contentTexts old new .new).length + 1 < lineLimit)
    (hreadable : query.scalars = [] ∨
      ∀ line ∈ versionLines (contentTexts old new), utf8Decode line.text ≠ none) :
    ∃ batch, Listed uc query file fileIndex (versionLines (contentTexts old new)) batch ∧
      scanFile uc query file fileIndex epoch old new =
        some (mergedBatch uc query file (contentTexts old new) batch) := by
  obtain ⟨batch, hscan, hlisted⟩ := @scanLines_listed uc query file fileIndex epoch
    (versionLines (contentTexts old new)) (versionLines_lines _) hreadable
  refine ⟨batch, hlisted, ?_⟩
  rw [scanFile_eq hold hnew, hscan, Option.map_some]
  by_cases hnone : old = none ∨ new = none
  · rw [if_pos hnone, mergedBatch_absent (hagrees.absent hnone) (fun occurrence hmem => ?_)]
    obtain ⟨line, hline, -, hfound⟩ := hlisted.found occurrence hmem
    exact Nat.ne_of_lt (corpusOrder_lt hold hnew hline hfound)
  · rw [if_neg hnone, mergeVersions_eq hlisted hagrees]

/-- A search of two versions lists each shared Line once exactly when they are searchable. -/
theorem scanFile_listsOnce_iff (uc : UnicodeCase) (query : Query) (file : File)
    (fileIndex epoch : Nat) (old new : Option Bytes) (h : Agrees file (contentTexts old new)) :
    (∃ batch, scanFile uc query file fileIndex epoch old new = some batch ∧
        ListsOnce uc query file fileIndex (contentTexts old new) batch) ↔
      Searchable uc query file (contentTexts old new) := by
  constructor
  · rintro ⟨batch, hscan, hlists⟩
    have hnumbered : (contentTexts old new .old).length + 1 < lineLimit ∧
        (contentTexts old new .new).length + 1 < lineLimit := by
      by_contra hover
      rw [scanFile_none hover] at hscan
      cases hscan
    have hreadable : query.scalars = [] ∨
        ∀ line ∈ versionLines (contentTexts old new), utf8Decode line.text ≠ none := by
      by_contra hunreadable
      rw [not_or] at hunreadable
      obtain ⟨hne, hunreadable⟩ := hunreadable
      refine hunreadable (fun line hline hdecode => ?_)
      rw [scanFile_eq hnumbered.1 hnumbered.2, scanLines_none hne hline hdecode] at hscan
      cases hscan
    obtain ⟨found, hlisted, hscan'⟩ :=
      @scanFile_listed uc query file fileIndex epoch old new h hnumbered.1 hnumbered.2 hreadable
    obtain rfl := Option.some.inj (hscan'.symm.trans hscan)
    exact ⟨hnumbered, hreadable, fun line hline hmatches =>
      mergedBatch_plain hlisted h hlists hline hmatches⟩
  · intro hsearchable
    obtain ⟨found, hlisted, hscan⟩ := @scanFile_listed uc query file fileIndex epoch old new h
      hsearchable.numbered.1 hsearchable.numbered.2 hsearchable.readable
    exact ⟨_, hscan, mergedBatch_listsOnce hlisted h hsearchable⟩

/-! ### Unified diffs agree -/

variable {o n : Nat} {run : List Line}

theorem numbered_shared (h : Numbered o n run) :
    ∀ line ∈ run, line.kind = .context → ∃ i j, line.oldNo = o + i + 1 ∧ line.newNo = n + j + 1 ∧
      ((sideLines .old run).map Line.text)[i]? = some line.text ∧
        ((sideLines .new run).map Line.text)[j]? = some line.text := by
  induction run generalizing o n with
  | nil => exact forall_mem_nil _
  | cons first run ih =>
    obtain ⟨-, h⟩ := h
    intro line hline hkind
    cases hfirst : first.kind with
    | context =>
      rw [hfirst] at h
      obtain ⟨hold, hnew, h⟩ := h
      rw [sideLines_cons (by change first.oldNo ≠ 0; omega),
        sideLines_cons (by change first.newNo ≠ 0; omega), map_cons, map_cons]
      obtain rfl | hline := mem_cons.mp hline
      · exact ⟨0, 0, hold, hnew, rfl, rfl⟩
      · obtain ⟨i, j, hi, hj, htext, htext'⟩ := ih h line hline hkind
        exact ⟨i + 1, j + 1, by omega, by omega, htext, htext'⟩
    | added =>
      rw [hfirst] at h
      obtain ⟨hold, hnew, h⟩ := h
      change sideNo .old first = 0 at hold
      rw [sideLines_skip hold, sideLines_cons (by change first.newNo ≠ 0; omega), map_cons]
      obtain rfl | hline := mem_cons.mp hline
      · rw [hfirst] at hkind
        cases hkind
      · obtain ⟨i, j, hi, hj, htext, htext'⟩ := ih h line hline hkind
        exact ⟨i, j + 1, hi, by omega, htext, htext'⟩
    | removed =>
      rw [hfirst] at h
      obtain ⟨hold, hnew, h⟩ := h
      change sideNo .new first = 0 at hnew
      rw [sideLines_cons (by change first.oldNo ≠ 0; omega), sideLines_skip hnew, map_cons]
      obtain rfl | hline := mem_cons.mp hline
      · rw [hfirst] at hkind
        cases hkind
      · obtain ⟨i, j, hi, hj, htext, htext'⟩ := ih h line hline hkind
        exact ⟨i + 1, j, by omega, hj, htext, htext'⟩

theorem numbered_increasing (h : Numbered o n run) :
    (run.filter (fun line => line.kind = .context)).Pairwise
      (fun a b => a.oldNo < b.oldNo ∧ a.newNo < b.newNo) := by
  induction run generalizing o n with
  | nil => exact .nil
  | cons first run ih =>
    obtain ⟨-, h⟩ := h
    cases hfirst : first.kind with
    | context =>
      rw [hfirst] at h
      obtain ⟨hold, hnew, h⟩ := h
      rw [filter_cons_of_pos (by simp [hfirst])]
      refine .cons (fun line hline => ?_) (ih h)
      rw [mem_filter, decide_eq_true_eq] at hline
      obtain ⟨i, j, hi, hj, -, -⟩ := numbered_shared h line hline.1 hline.2
      omega
    | added | removed =>
      rw [hfirst] at h
      rw [filter_cons_of_neg (by simp [hfirst])]
      exact ih h.2.2

variable {hunks : List Hunk}

theorem unified_shared {old new : List Bytes} (h : Unified o n hunks old new) :
    ∀ line ∈ hunks.flatMap Hunk.lines, line.kind = .context → ∃ i j, line.oldNo = o + i + 1 ∧
      line.newNo = n + j + 1 ∧ old[i]? = some line.text ∧ new[j]? = some line.text := by
  induction h with
  | done => exact forall_mem_nil _
  | @hunk o n hunk hunks old new gap hvalid _ ih =>
    intro line hline hkind
    obtain hline | hline := mem_append.mp hline
    · obtain ⟨i, j, hi, hj, htext, htext'⟩ := numbered_shared hvalid.numbered line hline hkind
      have hlt := (List.getElem?_eq_some_iff.mp htext).1
      have hlt' := (List.getElem?_eq_some_iff.mp htext').1
      refine ⟨gap.length + i, gap.length + j, by omega, by omega, ?_, ?_⟩
      · rw [List.append_assoc, List.getElem?_append_right (by omega), Nat.add_sub_cancel_left,
          getElem?_append_left hlt, htext]
      · rw [append_assoc, getElem?_append_right (by omega), Nat.add_sub_cancel_left,
          getElem?_append_left hlt', htext']
    · obtain ⟨i, j, hi, hj, htext, htext'⟩ := ih line hline hkind
      have hcount : (gap ++ (sideLines .old hunk.lines).map Line.text).length =
          gap.length + hunk.oldCount := by
        rw [length_append, length_map, hvalid.oldCount]
      have hcount' : (gap ++ (sideLines .new hunk.lines).map Line.text).length =
          gap.length + hunk.newCount := by
        rw [length_append, length_map, hvalid.newCount]
      refine ⟨gap.length + hunk.oldCount + i, gap.length + hunk.newCount + j, by omega, by omega,
        ?_, ?_⟩
      · rw [getElem?_append_right (by omega), hcount, Nat.add_sub_cancel_left, htext]
      · rw [getElem?_append_right (by omega), hcount', Nat.add_sub_cancel_left, htext']

theorem unified_increasing {old new : List Bytes} (h : Unified o n hunks old new) :
    ((hunks.flatMap Hunk.lines).filter (fun line => line.kind = .context)).Pairwise
      (fun a b => a.oldNo < b.oldNo ∧ a.newNo < b.newNo) := by
  induction h with
  | done => exact .nil
  | @hunk o n hunk hunks old new gap hvalid hlater ih =>
    rw [flatMap_cons, filter_append]
    refine pairwise_append.mpr ⟨numbered_increasing hvalid.numbered, ih, ?_⟩
    intro a ha b hb
    rw [mem_filter, decide_eq_true_eq] at ha hb
    obtain ⟨i, j, hi, hj, htext, htext'⟩ := numbered_shared hvalid.numbered a ha.1 ha.2
    obtain ⟨i', j', hi', hj', -, -⟩ := unified_shared hlater b hb.1 hb.2
    have hlt := (List.getElem?_eq_some_iff.mp htext).1
    have hlt' := (List.getElem?_eq_some_iff.mp htext').1
    rw [List.length_map, ← hvalid.oldCount] at hlt
    rw [List.length_map, ← hvalid.newCount] at hlt'
    omega

/-- The Hunks of a unified diff agree with the contents it is made from. -/
theorem agrees_of_diffOf
    (h : DiffOf file (splitBlobLines (old.getD [])) (splitBlobLines (new.getD []))) :
    Agrees file (contentTexts old new) := by
  refine ⟨fun line hline => ?_, fun line hline => ?_, unified_increasing h.unified |>.imp ?_⟩
  · obtain ⟨hmem, hkind⟩ := mem_contextLines.mp hline
    obtain ⟨i, j, hi, -, htext, -⟩ := unified_shared h.unified line hmem hkind
    refine ⟨by omega, ?_⟩
    rw [contentTexts, getElem?_map, show line.oldNo - 1 = i by omega, htext]
    rfl
  · obtain ⟨hmem, hkind⟩ := mem_contextLines.mp hline
    obtain ⟨i, j, -, hj, -, htext⟩ := unified_shared h.unified line hmem hkind
    refine ⟨by omega, ?_⟩
    rw [contentTexts, getElem?_map, show line.newNo - 1 = j by omega, htext]
    rfl
  · rintro a b ⟨hold, hnew⟩
    exact ⟨Nat.ne_of_lt hold, Nat.ne_of_lt hnew⟩

/-- A Line `b` follows the Line `a`; both end with `ending` before the newline. -/
def grown (ending : Bytes) : File where
  oldPath := [102]
  newPath := [102]
  status := .modified
  hunks := [⟨1, 1, 1, 2, [], [⟨1, 1, .context, 97 :: ending, true⟩, ⟨0, 2, .added, 98 :: ending, true⟩]⟩]

theorem grown_diffOf (ending : Bytes) :
    DiffOf (grown ending) [97 :: ending] [97 :: ending, 98 :: ending] where
  unified := .hunk [] ⟨⟨rfl, rfl, rfl, rfl, rfl, rfl, trivial⟩, cons_ne_nil _ _, rfl, rfl, rfl, rfl⟩
    (.done 1 2 [])
  added h := by cases h
  removed h := by cases h

theorem grown_agrees : Agrees (grown []) (contentTexts (some [97, 10]) (some [97, 10, 98, 10])) :=
  agrees_of_diffOf (grown_diffOf [])

theorem grown_crlf_agrees : Agrees (grown [13])
    (contentTexts (some [97, 13, 10]) (some [97, 13, 10, 98, 13, 10])) :=
  agrees_of_diffOf (grown_diffOf [13])

theorem scanFile_grown : ∃ batch,
    scanFile asciiCase ⟨[97], false⟩ (grown []) 0 0 (some [97, 10]) (some [97, 10, 98, 10]) =
        some batch ∧
      ListsOnce asciiCase ⟨[97], false⟩ (grown []) 0
        (contentTexts (some [97, 10]) (some [97, 10, 98, 10])) batch :=
  (scanFile_listsOnce_iff asciiCase ⟨[97], false⟩ (grown []) 0 0 (some [97, 10])
    (some [97, 10, 98, 10]) grown_agrees).mpr ⟨by decide, .inr (by decide), by decide⟩

/-- The context Line `a` with a carriage return is not listed for both versions. -/
theorem crlf_listed_twice : ¬∀ (uc : UnicodeCase) (query : Query) (file : File)
    (fileIndex epoch : Nat) (old new : Option Bytes),
    DiffOf file (splitBlobLines (old.getD [])) (splitBlobLines (new.getD [])) →
      ∃ batch, scanFile uc query file fileIndex epoch old new = some batch ∧
        ListsOnce uc query file fileIndex (contentTexts old new) batch := by
  intro hclaim
  obtain ⟨batch, hscan, hlists⟩ := hclaim asciiCase ⟨[97], false⟩ (grown [13]) 0 0
    (some [97, 13, 10]) (some [97, 13, 10, 98, 13, 10]) (grown_diffOf [13])
  obtain ⟨found, hlisted, hscan'⟩ := @scanFile_listed asciiCase ⟨[97], false⟩ (grown [13]) 0 0
    (some [97, 13, 10]) (some [97, 13, 10, 98, 13, 10]) grown_crlf_agrees (by decide) (by decide)
    (.inr (by decide))
  obtain rfl := Option.some.inj (hscan'.symm.trans hscan)
  have hline : ⟨1, 1, .context, [97, 13], true⟩ ∈ contextLines (grown [13]) := by decide
  exact mergedBatch_plain hlisted grown_crlf_agrees hlists hline (by decide) rfl

end Bbr.Search
