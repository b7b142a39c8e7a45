import Bbr.Search.CandidateLaws
import Bbr.Search.FuzzyLaws
import Bbr.Search.ScanFile
import Bbr.Tui.WholeFileLaws

/-!
# What the search of a whole File lists

Each Line has at most one Occurrence. The two of a context Line become one when the Hunk has the text
that is searched, which it has not when its Line ends with a carriage return.
-/
namespace Bbr.Search

open Bbr.Diff List
open Bbr.Tui (splitBlobLines)

variable {uc : UnicodeCase} {query : Query} {file : File} {fileIndex epoch : Nat}

theorem splitBlobLines_last {line : Bytes} (hne : line ≠ []) (hline : 10 ∉ line) :
    splitBlobLines line = [line] := by
  have hlast : line.getLast? ≠ some 10 := fun h => hline (mem_of_getLast? h)
  rw [splitBlobLines, if_neg (by simpa using hne), if_neg (by simpa using hlast)]
  exact splitOn_eq_singleton hline

theorem splitBlobLines_append {line : Bytes} (hline : 10 ∉ line) (later : Bytes) :
    splitBlobLines (line ++ 10 :: later) = line :: splitBlobLines later := by
  cases hlater : later with
  | nil =>
    have hdrop : (line ++ [10]).dropLast = line := dropLast_concat
    rw [splitBlobLines, if_neg (by simp), if_pos (by simp), hdrop]
    exact splitOn_eq_singleton hline
  | cons b rest =>
    have hlast : (line ++ 10 :: b :: rest).getLast? = (b :: rest).getLast? := by
      rw [getLast?_append_of_ne_nil _ (cons_ne_nil _ _), getLast?_cons_cons]
    have hleft : splitBlobLines (line ++ 10 :: b :: rest) =
        if ((b :: rest).getLast? == some 10) = true then
          (line ++ 10 :: b :: rest).dropLast.splitOn 10 else (line ++ 10 :: b :: rest).splitOn 10 := by
      rw [splitBlobLines, if_neg (by simp), hlast]
    have hright : splitBlobLines (b :: rest) = if ((b :: rest).getLast? == some 10) = true then
        (b :: rest).dropLast.splitOn 10 else (b :: rest).splitOn 10 := by
      rw [splitBlobLines, if_neg (by simp)]
    rw [hleft, hright]
    split
    · have hdrop : (line ++ 10 :: b :: rest).dropLast = line ++ 10 :: (b :: rest).dropLast := by
        rw [dropLast_append_of_ne_nil (cons_ne_nil _ _), dropLast_cons_cons]
      rw [hdrop]
      exact splitOn_append_cons_self_of_not_mem hline _
    · exact splitOn_append_cons_self_of_not_mem hline _

theorem takeWhile_newline (rest : Bytes) : 10 ∉ rest.takeWhile (fun b => b != 10) := by
  intro h
  have := mem_takeWhile_imp h
  simp at this

variable {rest : Bytes}

theorem splitBlobLines_cons (hne : rest ≠ []) : splitBlobLines rest =
    rest.takeWhile (fun b => b != 10) ::
      splitBlobLines ((rest.dropWhile (fun b => b != 10)).drop 1) := by
  have hsplit : rest.takeWhile (fun b => b != 10) ++ rest.dropWhile (fun b => b != 10) = rest :=
    takeWhile_append_dropWhile
  have hline := takeWhile_newline rest
  cases hrest : rest.dropWhile (fun b => b != 10) with
  | nil =>
    rw [hrest, append_nil] at hsplit
    rw [hsplit] at hline ⊢
    exact splitBlobLines_last hne hline
  | cons b later =>
    have hb : b = 10 := by
      have := head?_dropWhile_not (fun b => b != 10) rest
      rw [hrest] at this
      simpa using this
    subst hb
    rw [hrest] at hsplit
    conv_lhs => rw [← hsplit]
    exact splitBlobLines_append hline later

theorem linesFrom_eq {fuel lineNo : Nat} (hfuel : rest.length ≤ fuel) : linesFrom fuel lineNo rest =
      if splitBlobLines rest = [] ∨ lineNo + (splitBlobLines rest).length < lineLimit then
        some ((splitBlobLines rest).map stripReturn) else none := by
  induction fuel generalizing lineNo rest with
  | zero =>
    obtain rfl := length_eq_zero_iff.mp (Nat.le_zero.mp hfuel)
    rfl
  | succ fuel ih =>
    by_cases hne : rest = []
    · subst hne
      rfl
    have hshort : ((rest.dropWhile (fun b => b != 10)).drop 1).length ≤ fuel := by
      have hle := (dropWhile_suffix (l := rest) (fun b => b != 10)).length_le
      rw [length_drop]
      omega
    rw [linesFrom, if_neg (by simpa using hne), ih hshort, splitBlobLines_cons hne,
      length_cons, map_cons]
    generalize splitBlobLines ((rest.dropWhile (fun b => b != 10)).drop 1) = lines
    by_cases hover : lineLimit ≤ lineNo + 1
    · rw [if_pos hover, if_neg (by simp; omega)]
    rw [if_neg hover]
    by_cases hroom : lines = [] ∨ lineNo + 1 + lines.length < lineLimit
    · rw [if_pos hroom, if_pos]
      · rfl
      · cases hroom with
        | inl hnil =>
          subst hnil
          exact .inr (by simp; omega)
        | inr hlt => exact .inr (by omega)
    · rw [if_neg hroom, if_neg]
      · rfl
      · rw [not_or] at hroom
        simp only [reduceCtorEq, false_or]
        omega

theorem contentLines_eq (blob : Option Bytes) : contentLines blob =
    if (splitBlobLines (blob.getD [])).length + 1 < lineLimit then
      some ((splitBlobLines (blob.getD [])).map stripReturn) else none := by
  have hlimit : 1 < lineLimit := by decide
  cases blob with
  | none => exact (if_pos (by exact hlimit)).symm
  | some blob =>
    rw [contentLines, linesFrom_eq (Nat.le_refl _), Option.getD_some]
    refine if_congr ?_ rfl rfl
    rw [Nat.add_comm]
    refine or_iff_right_of_imp (fun hnil => ?_)
    rw [hnil]
    exact hlimit

def lineMatches (uc : UnicodeCase) (query : Query) (text : Bytes) : Bool :=
  !query.scalars.isEmpty &&
    ((utf8Decode text).bind (fun scalars => fuzzyAlignment uc query scalars true)).isSome

/-- What is highlighted in a Line. -/
def lineRanges (uc : UnicodeCase) (query : Query) (text : Bytes) : List Range :=
  ((utf8Decode text).bind (fun scalars => (fuzzyAlignment uc query scalars true).map
    (fun alignment => mergedScalarRanges (decode scalars) alignment.positions))).getD []

theorem findCell_lt {rows : List (List Cell)} {q cursor p : Nat} {matchRequired : Bool}
    (h : findCell rows q matchRequired cursor = some p) : p < cursor := by
  induction cursor with
  | zero => cases h
  | succ cursor ih =>
    rw [findCell] at h
    split at h
    · exact Nat.lt_succ_of_lt (ih h)
    · obtain rfl := Option.some.inj h
      exact Nat.lt_succ_self _

variable {positions : List Nat}

theorem traceBack_spec {rows : List (List Cell)} {q cursor : Nat} {matchRequired : Bool}
    (h : traceBack rows q cursor matchRequired = some positions) :
    positions.length = q ∧ ∀ p ∈ positions, p < cursor := by
  induction q generalizing cursor matchRequired positions with
  | zero =>
    obtain rfl := Option.some.inj h
    simp
  | succ q ih =>
    rw [traceBack] at h
    split at h
    · cases h
    rename_i place hplace
    obtain ⟨front, hfront, rfl⟩ := Option.map_eq_some_iff.mp h
    have hlt := findCell_lt hplace
    obtain ⟨hlength, hbelow⟩ := ih hfront
    refine ⟨by simp [hlength], fun p hp => ?_⟩
    obtain hp | hp := mem_append.mp hp
    · exact Nat.lt_trans (hbelow p hp) hlt
    · obtain rfl := mem_singleton.mp hp
      exact hlt

theorem greedyPositions_spec {needles candidates : List Scalar} {cursor : Nat}
    (h : greedyPositions uc query needles candidates cursor = some positions) :
    positions.length = needles.length ∧ ∀ p ∈ positions, p < cursor + candidates.length := by
  induction candidates generalizing needles cursor positions with
  | nil =>
    cases needles with
    | nil =>
      obtain rfl := Option.some.inj h
      simp
    | cons needle needles => cases h
  | cons candidate candidates ih =>
    cases needles with
    | nil =>
      obtain rfl := Option.some.inj h
      simp
    | cons needle needles =>
      rw [greedyPositions] at h
      split at h
      · obtain ⟨rest, hrest, rfl⟩ := Option.map_eq_some_iff.mp h
        obtain ⟨hlength, hbelow⟩ := ih hrest
        refine ⟨by simp [hlength], fun p hp => ?_⟩
        rw [length_cons]
        obtain rfl | hp := mem_cons.mp hp
        · omega
        · have := hbelow p hp
          omega
      · obtain ⟨hlength, hbelow⟩ := ih h
        refine ⟨hlength, fun p hp => ?_⟩
        have := hbelow p hp
        rw [length_cons]
        omega

theorem fuzzyAlignment_positions {scalars : List Scalar} {wholeLine : Bool} {alignment : Alignment}
    (h : fuzzyAlignment uc query scalars wholeLine = some alignment) :
    alignment.positions.length = query.scalars.length ∧
      ∀ p ∈ alignment.positions, p < scalars.length := by
  rw [fuzzyAlignment] at h
  split at h
  · cases h
  split at h
  · obtain ⟨positions, hpositions, rfl⟩ := Option.map_eq_some_iff.mp h
    simpa using greedyPositions_spec hpositions
  split at h
  · next hline =>
    rw [lineAlignment] at h
    split at h
    · obtain rfl := Option.some.inj h
      refine ⟨length_range, fun p hp => ?_⟩
      rw [← hline.2]
      exact mem_range.mp hp
    · cases h
  · rw [exactAlignment] at h
    split at h
    · cases h
    · obtain ⟨positions, hpositions, rfl⟩ := Option.map_eq_some_iff.mp h
      exact traceBack_spec hpositions

/-- What the Occurrence of a Line says. -/
structure Found (uc : UnicodeCase) (query : Query) (file : File) (fileIndex : Nat)
    (line : ContentLine) (occurrence : Occurrence) : Prop where
  location : occurrence.location = .source (lineLocation file fileIndex line)
  order : occurrence.corpusOrder = line.lineNo * 2 + if line.relation = .new then 1 else 0
  ranges : occurrence.ranges = lineRanges uc query line.text

theorem regionAlignment_line (line : ContentLine) (text : Text) :
    bestAlignment uc query (lineCandidate file fileIndex epoch line text) (decode text)
      (regionsOf (lineCandidate file fileIndex epoch line text)) none =
        fuzzyAlignment uc query text true := by
  have hregions : regionsOf (lineCandidate file fileIndex epoch line text) =
      [⟨0, (decode text).length⟩] := scalarRegions_whole _
  have hvalues : (((decode text).drop 0).take ((decode text).length - 0)).map PlacedScalar.value =
      text := by
    rw [drop_zero, Nat.sub_zero, take_length, decode_map_value]
  have hregion : regionAlignment uc query (lineCandidate file fileIndex epoch line text)
      (decode text) ⟨0, (decode text).length⟩ = fuzzyAlignment uc query text true := by
    have hwhole : decide ((lineCandidate file fileIndex epoch line text).boundaries = [] ∧ 0 = 0 ∧
        (decode text).length = (decode text).length) = true := decide_eq_true ⟨rfl, rfl, rfl⟩
    change (fuzzyAlignment uc query _ (decide _)).map _ = _
    rw [hvalues, hwhole]
    simp only [Nat.add_zero, map_id']
    exact Option.map_id'
  rw [hregions]
  simp only [bestAlignment, hregion]
  cases fuzzyAlignment uc query text true <;> rfl

theorem scanLine_spec (hne : query.scalars ≠ []) {line : ContentLine} {text : Text}
    (hdecode : utf8Decode line.text = some text) :
    (lineMatches uc query line.text = true ∧ ∃ occurrence,
      scanLine uc query file fileIndex epoch line = some [occurrence] ∧
        Found uc query file fileIndex line occurrence) ∨
    (lineMatches uc query line.text = false ∧
      scanLine uc query file fileIndex epoch line = some []) := by
  have hempty : query.scalars.isEmpty = false := by simpa using hne
  have hmatches : lineMatches uc query line.text = (fuzzyAlignment uc query text true).isSome := by
    rw [lineMatches, hempty, hdecode]
    rfl
  have htext : (lineCandidate file fileIndex epoch line text).text = text := rfl
  rw [scanLine, hdecode, Option.bind_some, fuzzyOccurrences, htext]
  simp only [regionAlignment_line]
  cases halignment : fuzzyAlignment uc query text true with
  | none => exact .inr ⟨by rw [hmatches, halignment]; rfl, rfl⟩
  | some alignment =>
    refine .inl ⟨by rw [hmatches, halignment]; rfl, ?_⟩
    obtain ⟨hlength, hbelow⟩ := fuzzyAlignment_positions halignment
    cases hpositions : alignment.positions with
    | nil =>
      rw [hpositions] at hlength
      exact absurd (length_eq_zero_iff.mp hlength.symm) hne
    | cons p positions =>
      have hp := hbelow p (by rw [hpositions]; exact mem_cons_self)
      rw [← decode_length] at hp
      dsimp only
      rw [hpositions, makeOccurrence, getElem?_eq_getElem hp]
      refine ⟨_, rfl, rfl, rfl, ?_⟩
      rw [lineRanges, hdecode, Option.bind_some, halignment, Option.map_some, Option.getD_some,
        hpositions]
      rfl

/-- Every Line that matches has one Occurrence. -/
structure Listed (uc : UnicodeCase) (query : Query) (file : File) (fileIndex : Nat)
    (lines : List ContentLine) (batch : List Occurrence) : Prop where
  unique : (batch.map Occurrence.location).Nodup
  found : ∀ occurrence ∈ batch, ∃ line ∈ lines, lineMatches uc query line.text = true ∧
    Found uc query file fileIndex line occurrence
  all : ∀ line ∈ lines, lineMatches uc query line.text = true → ∃ occurrence ∈ batch,
    Found uc query file fileIndex line occurrence

/-- Lines of the old or the new content, each with a number of its own. -/
structure Lines (lines : List ContentLine) : Prop where
  relation : ∀ line ∈ lines, line.relation = .old ∨ line.relation = .new
  unique : lines.Pairwise (fun a b => (a.relation, a.lineNo) ≠ (b.relation, b.lineNo))

theorem lineLocation_inj {a b : ContentLine} (ha : a.relation = .old ∨ a.relation = .new)
    (h : lineLocation file fileIndex a = lineLocation file fileIndex b) :
    (a.relation, a.lineNo) = (b.relation, b.lineNo) := by
  have hrelation : a.relation = b.relation := congrArg SourceLocation.relation h
  have hold := congrArg SourceLocation.oldLine h
  have hnew := congrArg SourceLocation.newLine h
  simp only [lineLocation, ← hrelation] at hold hnew
  rw [hrelation]
  obtain ha | ha := ha
  · simp only [ha, if_true, Option.some.injEq] at hold
    rw [hold]
  · simp only [ha, if_true, Option.some.injEq] at hnew
    rw [hnew]

theorem scanEach_listed (hne : query.scalars ≠ []) {lines : List ContentLine} (h : Lines lines)
    (hdecode : ∀ line ∈ lines, utf8Decode line.text ≠ none) :
    ∃ found, lines.mapM (scanLine uc query file fileIndex epoch) = some found ∧
      Listed uc query file fileIndex lines found.flatten := by
  induction lines with
  | nil =>
    exact ⟨[], rfl, .nil, forall_mem_nil _, forall_mem_nil _⟩
  | cons line lines ih =>
    obtain ⟨hfar, hrest⟩ := pairwise_cons.mp h.unique
    obtain ⟨text, htext⟩ := Option.ne_none_iff_exists'.mp (hdecode line mem_cons_self)
    obtain ⟨found, hfound, hlisted⟩ :=
      ih ⟨fun other hother => h.relation other (mem_cons_of_mem _ hother), hrest⟩
        (fun other hother => hdecode other (mem_cons_of_mem _ hother))
    cases @scanLine_spec uc query file fileIndex epoch hne line text htext with
    | inl hmatch =>
      obtain ⟨hmatches, occurrence, hscan, hown⟩ := hmatch
      refine ⟨[occurrence] :: found, by rw [mapM_cons, hscan, hfound]; rfl, ?_, ?_, ?_⟩
      · rw [flatten_cons, singleton_append, map_cons, nodup_cons]
        refine ⟨fun hmem => ?_, hlisted.unique⟩
        obtain ⟨other, hother, heq⟩ := mem_map.mp hmem
        obtain ⟨line', hline', -, hfound'⟩ := hlisted.found other hother
        rw [hfound'.location, hown.location] at heq
        exact hfar line' hline' (lineLocation_inj (h.relation line mem_cons_self)
          (Location.source.inj heq).symm)
      · intro other hother
        obtain rfl | hother := mem_cons.mp hother
        · exact ⟨line, mem_cons_self, hmatches, hown⟩
        · obtain ⟨line', hline', hrest⟩ := hlisted.found other hother
          exact ⟨line', mem_cons_of_mem _ hline', hrest⟩
      · intro line' hline' hmatches'
        obtain rfl | hline' := mem_cons.mp hline'
        · exact ⟨occurrence, mem_cons_self, hown⟩
        · obtain ⟨other, hother, hfound'⟩ := hlisted.all line' hline' hmatches'
          exact ⟨other, mem_cons_of_mem _ hother, hfound'⟩
    | inr hmiss =>
      obtain ⟨hmatches, hscan⟩ := hmiss
      refine ⟨[] :: found, by rw [mapM_cons, hscan, hfound]; rfl, hlisted.unique, ?_, ?_⟩
      · intro other hother
        obtain ⟨line', hline', hrest⟩ := hlisted.found other hother
        exact ⟨line', mem_cons_of_mem _ hline', hrest⟩
      · intro line' hline' hmatches'
        obtain rfl | hline' := mem_cons.mp hline'
        · rw [hmatches] at hmatches'
          cases hmatches'
        · exact hlisted.all line' hline' hmatches'

variable {lines : List ContentLine}

theorem Listed.perm {batch batch' : List Occurrence}
    (h : Listed uc query file fileIndex lines batch) (hperm : batch'.Perm batch) :
    Listed uc query file fileIndex lines batch' := by
  refine ⟨(hperm.map _).nodup_iff.mpr h.unique, fun other hother => h.found other
    (hperm.mem_iff.mp hother), fun line hline hmatches => ?_⟩
  obtain ⟨other, hother, hfound⟩ := h.all line hline hmatches
  exact ⟨other, hperm.mem_iff.mpr hother, hfound⟩

theorem scanLines_listed {lines : List ContentLine} (h : Lines lines)
    (hdecode : query.scalars = [] ∨ ∀ line ∈ lines, utf8Decode line.text ≠ none) :
    ∃ batch, scanLines uc query file fileIndex epoch lines = some batch ∧
      Listed uc query file fileIndex lines batch := by
  rw [scanLines]
  by_cases hne : query.scalars = []
  · rw [if_pos (by simpa using hne)]
    refine ⟨[], rfl, .nil, forall_mem_nil _, fun line _ hmatches => ?_⟩
    rw [lineMatches, hne] at hmatches
    cases hmatches
  · obtain ⟨found, hfound, hlisted⟩ :=
      @scanEach_listed uc query file fileIndex epoch hne lines h (hdecode.resolve_left hne)
    rw [if_neg (by simpa using hne), hfound]
    exact ⟨_, rfl, hlisted.perm (mergeSort_perm _ _)⟩

variable {line : ContentLine}

theorem scanLines_none (hne : query.scalars ≠ []) (hline : line ∈ lines)
    (hdecode : utf8Decode line.text = none) :
    scanLines uc query file fileIndex epoch lines = none := by
  have hnone : lines.mapM (scanLine uc query file fileIndex epoch) = none := by
    induction lines with
    | nil => cases hline
    | cons first lines ih =>
      rw [mapM_cons]
      obtain rfl | hline := mem_cons.mp hline
      · rw [scanLine, hdecode]
        rfl
      · rw [ih hline]
        cases scanLine uc query file fileIndex epoch first <;> rfl
  rw [scanLines, if_neg (by simpa using hne), hnone]
  rfl

variable {relation : VersionRelation}

theorem mem_numberLines {lines : List Bytes} : line ∈ numberLines relation lines ↔
      line.relation = relation ∧ 0 < line.lineNo ∧ lines[line.lineNo - 1]? = some line.text := by
  rw [numberLines, mem_map]
  constructor
  · rintro ⟨⟨text, i⟩, hmem, rfl⟩
    exact ⟨rfl, Nat.succ_pos i, mem_zipIdx_iff_getElem?.mp hmem⟩
  · rintro ⟨rfl, hpos, htext⟩
    refine ⟨(line.text, line.lineNo - 1), mem_zipIdx_iff_getElem?.mpr htext, ?_⟩
    rw [Nat.sub_add_cancel hpos]

def versionLines (texts : VersionRelation → List Bytes) : List ContentLine :=
  numberLines .old (texts .old) ++ numberLines .new (texts .new)

theorem mem_versionLines {texts : VersionRelation → List Bytes} :
    line ∈ versionLines texts ↔ line.relation ≠ .neutral ∧ 0 < line.lineNo ∧
      (texts line.relation)[line.lineNo - 1]? = some line.text := by
  rw [versionLines, mem_append, mem_numberLines, mem_numberLines]
  cases hrelation : line.relation <;> simp

theorem numberLines_pairwise (relation : VersionRelation) (lines : List Bytes) :
    (numberLines relation lines).Pairwise (fun a b => a.lineNo ≠ b.lineNo) := by
  refine pairwise_map.mpr ?_
  have hnodup : (lines.zipIdx.map Prod.snd).Nodup := by
    rw [zipIdx_map_snd]
    exact nodup_range'
  refine (pairwise_map.mp hnodup).imp (fun hne heq => hne ?_)
  simpa using heq

theorem versionLines_lines (texts : VersionRelation → List Bytes) : Lines (versionLines texts) := by
  constructor
  · intro line hline
    obtain ⟨hne, -⟩ := mem_versionLines.mp hline
    cases hrelation : line.relation with
    | neutral => exact absurd hrelation hne
    | old => exact .inl rfl
    | new => exact .inr rfl
  · refine pairwise_append.mpr ⟨?_, ?_, fun a ha b hb heq => ?_⟩
    · exact (numberLines_pairwise _ _).imp (fun hne heq => hne (congrArg Prod.snd heq))
    · exact (numberLines_pairwise _ _).imp (fun hne heq => hne (congrArg Prod.snd heq))
    · have := congrArg Prod.fst heq
      rw [(mem_numberLines.mp ha).1, (mem_numberLines.mp hb).1] at this
      cases this

theorem lineNumber_found {occurrence : Occurrence} (hrelation : relation ≠ .neutral)
    (h : Found uc query file fileIndex line occurrence) :
    lineNumber relation occurrence =
      if line.relation = relation then some line.lineNo else none := by
  obtain ⟨own, number, text⟩ := line
  rw [lineNumber, h.location]
  cases own <;> cases relation <;> first | rfl | exact absurd rfl hrelation

section Listed

variable {texts : VersionRelation → List Bytes} {batch : List Occurrence}
  (h : Listed uc query file fileIndex (versionLines texts) batch)
include h

variable {relation : VersionRelation} {n : Nat}

theorem Listed.number (hrelation : relation ≠ .neutral) {occurrence : Occurrence}
    (hmem : occurrence ∈ batch) (hnumber : lineNumber relation occurrence = some n) :
    0 < n ∧ ∃ text, (texts relation)[n - 1]? = some text ∧ lineMatches uc query text = true ∧
        Found uc query file fileIndex ⟨relation, n, text⟩ occurrence := by
  obtain ⟨line, hline, hmatches, hfound⟩ := h.found occurrence hmem
  rw [lineNumber_found hrelation hfound] at hnumber
  split at hnumber
  · next heq =>
    subst heq
    obtain rfl := Option.some.inj hnumber
    obtain ⟨-, hpos, htext⟩ := mem_versionLines.mp hline
    exact ⟨hpos, line.text, htext, hmatches, hfound⟩
  · cases hnumber

theorem Listed.occurs (hrelation : relation ≠ .neutral) {text : Bytes} (hpos : 0 < n)
    (htext : (texts relation)[n - 1]? = some text)
    (hmatches : lineMatches uc query text = true) :
    ∃ occurrence ∈ batch, Found uc query file fileIndex ⟨relation, n, text⟩ occurrence ∧
      lineNumber relation occurrence = some n := by
  obtain ⟨occurrence, hmem, hfound⟩ :=
    h.all ⟨relation, n, text⟩ (mem_versionLines.mpr ⟨hrelation, hpos, htext⟩) hmatches
  exact ⟨occurrence, hmem, hfound, by rw [lineNumber_found hrelation hfound, if_pos rfl]⟩

theorem Listed.same_place (hrelation : relation ≠ .neutral) {i j : Nat} {a b : Occurrence}
    (ha : batch[i]? = some a) (hb : batch[j]? = some b) (hna : lineNumber relation a = some n)
    (hnb : lineNumber relation b = some n) : i = j := by
  obtain ⟨-, text, -, -, hfound⟩ := h.number hrelation (mem_of_getElem? ha) hna
  obtain ⟨-, text', -, -, hfound'⟩ := h.number hrelation (mem_of_getElem? hb) hnb
  have hlocation : a.location = b.location := hfound.location.trans hfound'.location.symm
  refine (getElem?_inj (i := i) (j := j) ?_ h.unique).mp ?_
  · rw [length_map]
    exact (List.getElem?_eq_some_iff.mp ha).1
  · rw [List.getElem?_map, List.getElem?_map, ha, hb, Option.map_some, Option.map_some, hlocation]

end Listed

variable {pairs : List (Occurrence × Nat)} {places : List (Option Nat)}

theorem places_sound {P : Nat → Nat → Prop}
    (hpairs : ∀ pair ∈ pairs, ∀ n, lineNumber relation pair.1 = some n → P (n - 1) pair.2)
    (hplaces : ∀ offset k, (places[offset]?).join = some k → P offset k) :
    ∀ offset k, ((pairs.foldl (fun places pair => match lineNumber relation pair.1 with
      | some number =>
        if number - 1 < places.length then places.set (number - 1) (some pair.2) else places
      | none => places) places)[offset]?).join = some k → P offset k := by
  induction pairs generalizing places with
  | nil => exact hplaces
  | cons pair pairs ih =>
    rw [foldl_cons]
    refine ih (fun other hother => hpairs other (mem_cons_of_mem _ hother)) (fun offset k hk => ?_)
    split at hk
    · next number hnumber =>
      split at hk
      · rw [getElem?_set] at hk
        split at hk
        · next heq =>
          rw [← heq, ← Option.some.inj hk]
          exact hpairs pair mem_cons_self number hnumber
        · exact hplaces offset k hk
      · exact hplaces offset k hk
    · exact hplaces offset k hk

theorem places_complete {offset : Nat} (hoffset : offset < places.length)
    (h : ((places[offset]?).join).isSome = true ∨
      ∃ pair ∈ pairs, lineNumber relation pair.1 = some (offset + 1)) :
    (((pairs.foldl (fun places pair => match lineNumber relation pair.1 with
      | some number =>
        if number - 1 < places.length then places.set (number - 1) (some pair.2) else places
      | none => places) places)[offset]?).join).isSome = true := by
  induction pairs generalizing places with
  | nil =>
    refine h.resolve_right ?_
    rintro ⟨pair, hpair, -⟩
    cases hpair
  | cons pair pairs ih =>
    rw [foldl_cons]
    refine ih ?_ ?_
    · split
      · split
        · rwa [length_set]
        · exact hoffset
      · exact hoffset
    · obtain h | ⟨other, hother, hnumber⟩ := h
      · refine .inl ?_
        split
        · split
          · rw [getElem?_set]
            split
            · rfl
            · exact h
          · exact h
        · exact h
      · obtain rfl | hother := mem_cons.mp hother
        · refine .inl ?_
          simp only [hnumber, Nat.add_sub_cancel, hoffset, if_true, getElem?_set]
          rfl
        · exact .inr ⟨other, hother, hnumber⟩

section Places

variable {texts : VersionRelation → List Bytes} {batch : List Occurrence}
  (h : Listed uc query file fileIndex (versionLines texts) batch)
include h

theorem Listed.place_some (hrelation : relation ≠ .neutral) {n k : Nat} (hpos : 0 < n)
    (hplace : ((matchPlaces relation (texts relation).length batch)[n - 1]?).join = some k) :
    ∃ occurrence, batch[k]? = some occurrence ∧ lineNumber relation occurrence = some n := by
  refine places_sound (P := fun offset k => ∀ n, 0 < n → n - 1 = offset →
    ∃ occurrence, batch[k]? = some occurrence ∧ lineNumber relation occurrence = some n)
    (fun pair hpair m hm n hn heq => ?_) (fun offset k hk => ?_) (n - 1) k hplace n hpos rfl
  · have hget := mem_zipIdx_iff_getElem?.mp hpair
    obtain ⟨hm', -⟩ := h.number hrelation (mem_of_getElem? hget) hm
    obtain rfl : n = m := by omega
    exact ⟨pair.1, hget, hm⟩
  · rw [getElem?_replicate] at hk
    split at hk <;> cases hk

theorem Listed.place_of (hrelation : relation ≠ .neutral) {n : Nat} {text : Bytes} (hpos : 0 < n)
    (htext : (texts relation)[n - 1]? = some text)
    (hmatches : lineMatches uc query text = true) : ∃ k occurrence,
      ((matchPlaces relation (texts relation).length batch)[n - 1]?).join = some k ∧
      batch[k]? = some occurrence ∧
      Found uc query file fileIndex ⟨relation, n, text⟩ occurrence := by
  obtain ⟨occurrence, hmem, hfound, hnumber⟩ := h.occurs hrelation hpos htext hmatches
  obtain ⟨k, hk⟩ := mem_iff_getElem?.mp hmem
  have hsome : ((matchPlaces relation (texts relation).length batch)[n - 1]?).join.isSome = true := by
    refine places_complete ?_ (.inr ⟨(occurrence, k), mem_zipIdx_iff_getElem?.mpr hk, ?_⟩)
    · rw [length_replicate]
      exact (List.getElem?_eq_some_iff.mp htext).1
    · rw [Nat.sub_add_cancel hpos]
      exact hnumber
  obtain ⟨k', hk'⟩ := Option.isSome_iff_exists.mp hsome
  obtain ⟨other, hother, hnumber'⟩ := h.place_some hrelation hpos hk'
  obtain rfl := h.same_place hrelation hk hother hnumber hnumber'
  exact ⟨k, occurrence, hk', hk, hfound⟩

end Places

section Merge

variable (uc : UnicodeCase) (query : Query) (texts : VersionRelation → List Bytes)

/-- Both versions have the context Line as the Hunk has it, and it matches. -/
def mergeable (line : Line) : Bool :=
  decide (line.kind = .context) && decide (line.oldNo ≠ 0) && decide (line.newNo ≠ 0) &&
    decide ((texts .old)[line.oldNo - 1]? = some line.text) &&
    decide ((texts .new)[line.newNo - 1]? = some line.text) && lineMatches uc query line.text

/-- The Occurrence is one of the two that a context Line has. -/
def touches (line : Line) (occurrence : Occurrence) : Bool :=
  decide (lineNumber .old occurrence = some line.oldNo) ||
    decide (lineNumber .new occurrence = some line.newNo)

/-- An Occurrence after the merge of Lines. -/
def merged (lines : List Line) (occurrence : Occurrence) : Occurrence :=
  match lines.find? (fun line => mergeable uc query texts line && touches line occurrence) with
  | none => occurrence
  | some line => occurrence.neutralize line (lineNumber .new occurrence).isSome

end Merge

section Merge

variable {texts : VersionRelation → List Bytes} {batch : List Occurrence} {line : Line}
  {done : List Line} {occurrence : Occurrence}

theorem mergeable_iff : mergeable uc query texts line = true ↔
    line.kind = .context ∧ line.oldNo ≠ 0 ∧ line.newNo ≠ 0 ∧
      (texts .old)[line.oldNo - 1]? = some line.text ∧
      (texts .new)[line.newNo - 1]? = some line.text ∧
      lineMatches uc query line.text = true := by
  simp [mergeable, and_assoc]

theorem merged_append (h : mergeable uc query texts line = true → touches line occurrence = true →
    ∃ earlier ∈ done, mergeable uc query texts earlier = true ∧ touches earlier occurrence = true) :
    merged uc query texts (done ++ [line]) occurrence =
      merged uc query texts done occurrence := by
  rw [merged, merged, find?_append]
  cases hfind : done.find? (fun line =>
      mergeable uc query texts line && touches line occurrence) with
  | some earlier => rfl
  | none =>
    have hnone : (mergeable uc query texts line && touches line occurrence) = false := by
      rw [← Bool.not_eq_true, Bool.and_eq_true]
      rintro ⟨hmergeable, htouches⟩
      obtain ⟨earlier, hearlier, hboth⟩ := h hmergeable htouches
      have := find?_eq_none.mp hfind earlier hearlier
      simp [hboth] at this
    rw [Option.none_or, find?_singleton, hnone]
    rfl

theorem merged_new (hmergeable : mergeable uc query texts line = true)
    (htouches : touches line occurrence = true)
    (hnew : ∀ earlier ∈ done, mergeable uc query texts earlier = true →
      touches earlier occurrence = false) :
    merged uc query texts done occurrence = occurrence ∧
      merged uc query texts (done ++ [line]) occurrence =
        occurrence.neutralize line (lineNumber .new occurrence).isSome := by
  have hnone : done.find? (fun line =>
      mergeable uc query texts line && touches line occurrence) = none := by
    refine find?_eq_none.mpr (fun earlier hearlier => ?_)
    rw [Bool.and_eq_true]
    rintro ⟨hearlier', htouches'⟩
    rw [hnew earlier hearlier hearlier'] at htouches'
    cases htouches'
  refine ⟨by rw [merged, hnone], ?_⟩
  rw [merged, find?_append, hnone, Option.none_or, find?_singleton, hmergeable, htouches]
  rfl

theorem neutralize_relation {source : SourceLocation}
    (hlocation : occurrence.location = .source source) (line : Line) (duplicate : Bool) :
    (occurrence.neutralize line duplicate).sourceRelation = some .neutral := by
  rw [Occurrence.neutralize, hlocation]
  cases duplicate <;> rfl

/-- The two Occurrences of a Line that is merged. -/
structure Twins (uc : UnicodeCase) (query : Query) (file : File) (fileIndex : Nat)
    (batch : List Occurrence) (line : Line) (oi ni : Nat) (before after : Occurrence) : Prop where
  old : batch[oi]? = some before
  new : batch[ni]? = some after
  foundOld : Found uc query file fileIndex ⟨.old, line.oldNo, line.text⟩ before
  foundNew : Found uc query file fileIndex ⟨.new, line.newNo, line.text⟩ after

variable {before after : Occurrence}

theorem Twins.numbers {oi ni : Nat} (h : Twins uc query file fileIndex batch line oi ni before after) :
    lineNumber .old before = some line.oldNo ∧ lineNumber .new before = none ∧
      lineNumber .old after = none ∧ lineNumber .new after = some line.newNo :=
  ⟨by rw [lineNumber_found (by decide) h.foundOld]; rfl,
    by rw [lineNumber_found (by decide) h.foundOld]; rfl,
    by rw [lineNumber_found (by decide) h.foundNew]; rfl,
    by rw [lineNumber_found (by decide) h.foundNew]; rfl⟩

section

variable (h : Listed uc query file fileIndex (versionLines texts) batch)
include h

theorem mergePair_merged (hmergeable : mergeable uc query texts line = true)
    (hpaired : ∀ earlier ∈ done, mergeable uc query texts earlier = true →
      (earlier.oldNo = line.oldNo ↔ earlier.newNo = line.newNo)) {oi ni : Nat}
    (htwins : Twins uc query file fileIndex batch line oi ni before after) :
    mergePair (batch.map (merged uc query texts done)) line oi ni =
      batch.map (merged uc query texts (done ++ [line])) := by
  obtain ⟨hbefore, hbefore', hafter, hafter'⟩ := htwins.numbers
  have hget : ∀ {k : Nat} {occurrence : Occurrence}, batch[k]? = some occurrence →
      (batch.map (merged uc query texts done))[k]? = some (merged uc query texts done occurrence) := by
    intro k occurrence hk
    rw [getElem?_map, hk]
    rfl
  -- Only the twins have the numbers of the Line.
  have htouches : ∀ {k : Nat} {occurrence : Occurrence}, batch[k]? = some occurrence →
      touches line occurrence = true → k = oi ∨ k = ni := by
    intro k occurrence hk htouch
    rw [touches, Bool.or_eq_true, decide_eq_true_eq, decide_eq_true_eq] at htouch
    cases htouch with
    | inl hold => exact .inl (h.same_place (by decide) hk htwins.old hold hbefore)
    | inr hnew => exact .inr (h.same_place (by decide) hk htwins.new hnew hafter')
  have htouchBefore : ∀ line' : Line, touches line' before = decide (line.oldNo = line'.oldNo) := by
    intro line'
    rw [touches, hbefore, hbefore']
    simp
  have htouchAfter : ∀ line' : Line, touches line' after = decide (line.newNo = line'.newNo) := by
    intro line'
    rw [touches, hafter, hafter']
    simp
  by_cases hseen : ∃ earlier ∈ done, mergeable uc query texts earlier = true ∧
      earlier.oldNo = line.oldNo
  · obtain ⟨earlier, hearlier, hearlier', hold⟩ := hseen
    have hnew := (hpaired earlier hearlier hearlier').mp hold
    have hgone : (merged uc query texts done before).sourceRelation = some .neutral := by
      rw [merged]
      cases hfind : done.find? (fun line =>
          mergeable uc query texts line && touches line before) with
      | some other => exact neutralize_relation htwins.foundOld.location other _
      | none =>
        have := find?_eq_none.mp hfind earlier hearlier
        rw [hearlier', htouchBefore, hold] at this
        simp at this
    rw [mergePair, hget htwins.old, hget htwins.new]
    simp only [hgone]
    refine map_congr_left (fun occurrence hmem => (merged_append (fun _ htouch => ?_)).symm)
    refine ⟨earlier, hearlier, hearlier', ?_⟩
    rw [touches, hold, hnew]
    exact htouch
  · have hfreshOld : ∀ earlier ∈ done, mergeable uc query texts earlier = true →
        touches earlier before = false := by
      intro earlier hearlier hearlier'
      rw [htouchBefore, decide_eq_false_iff_not]
      exact fun heq => hseen ⟨earlier, hearlier, hearlier', heq.symm⟩
    have hfreshNew : ∀ earlier ∈ done, mergeable uc query texts earlier = true →
        touches earlier after = false := by
      intro earlier hearlier hearlier'
      rw [htouchAfter, decide_eq_false_iff_not]
      exact fun heq => hseen ⟨earlier, hearlier, hearlier',
        (hpaired earlier hearlier hearlier').mpr heq.symm⟩
    obtain ⟨hold, hold'⟩ := merged_new hmergeable (by rw [htouchBefore]; simp) hfreshOld
    obtain ⟨hnew, hnew'⟩ := merged_new hmergeable (by rw [htouchAfter]; simp) hfreshNew
    rw [hbefore'] at hold'
    rw [hafter'] at hnew'
    have hrelations : before.sourceRelation = some .old ∧ after.sourceRelation = some .new :=
      ⟨by rw [Occurrence.sourceRelation, htwins.foundOld.location]; rfl,
        by rw [Occurrence.sourceRelation, htwins.foundNew.location]; rfl⟩
    have hranges : before.ranges = after.ranges :=
      htwins.foundOld.ranges.trans htwins.foundNew.ranges.symm
    rw [mergePair, hget htwins.old, hget htwins.new, hold, hnew]
    simp only [hrelations, hranges, ne_eq, not_true_eq_false, or_self, if_false]
    refine ext_getElem? (fun k => ?_)
    rw [getElem?_set, getElem?_set, length_set, length_map, getElem?_map, getElem?_map]
    by_cases hkn : ni = k
    · subst hkn
      rw [if_pos rfl, if_pos (List.getElem?_eq_some_iff.mp htwins.new).1, htwins.new,
        Option.map_some, hnew']
      rfl
    rw [if_neg hkn]
    by_cases hko : oi = k
    · subst hko
      rw [if_pos rfl, if_pos (List.getElem?_eq_some_iff.mp htwins.old).1, htwins.old,
        Option.map_some, hold']
      rfl
    rw [if_neg hko]
    cases hk : batch[k]? with
    | none => rfl
    | some occurrence =>
      rw [Option.map_some, Option.map_some, merged_append (fun _ htouch => ?_)]
      obtain rfl | rfl := htouches hk htouch
      · exact absurd rfl hko
      · exact absurd rfl hkn

theorem mergeLine_merged (hpaired : ∀ earlier ∈ done, mergeable uc query texts earlier = true →
      mergeable uc query texts line = true →
        (earlier.oldNo = line.oldNo ↔ earlier.newNo = line.newNo)) :
    mergeLine (texts .old) (texts .new) (matchPlaces .old (texts .old).length batch)
        (matchPlaces .new (texts .new).length batch)
        (batch.map (merged uc query texts done)) line =
      batch.map (merged uc query texts (done ++ [line])) := by
  by_cases hmergeable : mergeable uc query texts line = true
  · obtain ⟨hkind, hold, hnew, holdText, hnewText, hmatches⟩ := mergeable_iff.mp hmergeable
    obtain ⟨oi, before, hoi, hbefore, hfoundOld⟩ :=
      h.place_of (by decide) (Nat.pos_of_ne_zero hold) holdText hmatches
    obtain ⟨ni, after, hni, hafter, hfoundNew⟩ :=
      h.place_of (by decide) (Nat.pos_of_ne_zero hnew) hnewText hmatches
    rw [mergeLine, if_neg (by simp [hkind, hold, hnew]), holdText, hnewText]
    simp only [hoi, hni, ne_eq, not_true_eq_false, or_self, if_false]
    exact mergePair_merged h hmergeable
      (fun earlier hearlier hearlier' => hpaired earlier hearlier hearlier' hmergeable)
      ⟨hbefore, hafter, hfoundOld, hfoundNew⟩
  · have hsame : batch.map (merged uc query texts (done ++ [line])) =
        batch.map (merged uc query texts done) :=
      map_congr_left (fun _ _ => merged_append (fun habsurd => absurd habsurd hmergeable))
    rw [hsame, mergeLine]
    split
    · rfl
    rename_i hcontext
    split
    · next oldText newText holdText hnewText =>
      split
      · rfl
      rename_i htexts
      split
      · next oi ni hoi hni =>
        -- An Occurrence at the place of the Line shows that its text matches.
        simp only [not_or, not_not] at hcontext htexts
        obtain ⟨hkind, hold, hnew⟩ := hcontext
        obtain ⟨occurrence, hmem, hnumber⟩ := h.place_some (by decide) (Nat.pos_of_ne_zero hold) hoi
        obtain ⟨-, text, htext, hmatches, -⟩ := h.number (by decide) (mem_of_getElem? hmem) hnumber
        obtain rfl := Option.some.inj (holdText.symm.trans htext)
        obtain ⟨rfl, heq⟩ := htexts
        rw [heq] at holdText hnewText hmatches
        exact absurd (mergeable_iff.mpr ⟨hkind, hold, hnew, holdText, hnewText, hmatches⟩) hmergeable
      · rfl
    · rfl

theorem mergeLines_merged {lines : List Line} (hpaired : (done ++ lines).Pairwise (fun earlier line =>
      mergeable uc query texts earlier = true → mergeable uc query texts line = true →
        (earlier.oldNo = line.oldNo ↔ earlier.newNo = line.newNo))) :
    lines.foldl (mergeLine (texts .old) (texts .new) (matchPlaces .old (texts .old).length batch)
        (matchPlaces .new (texts .new).length batch)) (batch.map (merged uc query texts done)) =
      batch.map (merged uc query texts (done ++ lines)) := by
  induction lines generalizing done with
  | nil => rw [append_nil, foldl_nil]
  | cons line lines ih =>
    have hstep := mergeLine_merged h (fun earlier hearlier =>
      (pairwise_append.mp hpaired).2.2 earlier hearlier line mem_cons_self)
    rw [foldl_cons, hstep, ih]
    · rw [append_assoc, singleton_append]
    · rwa [append_assoc, singleton_append]

end

theorem merged_cases (uc : UnicodeCase) (query : Query) (texts : VersionRelation → List Bytes)
    (lines : List Line) (occurrence : Occurrence) :
    (∃ line ∈ lines, mergeable uc query texts line = true ∧ touches line occurrence = true ∧
      merged uc query texts lines occurrence =
        occurrence.neutralize line (lineNumber .new occurrence).isSome) ∨
    ((∀ line ∈ lines, mergeable uc query texts line = true →
      touches line occurrence = false) ∧ merged uc query texts lines occurrence = occurrence) := by
  rw [merged]
  cases hfind : lines.find? (fun line =>
      mergeable uc query texts line && touches line occurrence) with
  | some line =>
    have hboth := find?_some hfind
    rw [Bool.and_eq_true] at hboth
    exact .inl ⟨line, mem_of_find?_eq_some hfind, hboth.1, hboth.2, rfl⟩
  | none =>
    refine .inr ⟨fun line hline hmergeable => ?_, rfl⟩
    have := find?_eq_none.mp hfind line hline
    rw [hmergeable, Bool.true_and] at this
    exact Bool.eq_false_iff.mpr this

end Merge

end Bbr.Search
