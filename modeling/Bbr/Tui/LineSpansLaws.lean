import Bbr.Tui.HunkRowsLaws
import Bbr.Tui.LineSpans

/-!
# When forward-only cursors find the spans

The rows ask the cursors in some order. A cursor has passed a Line when it was asked for this Line
or a later one before, and finds nothing then; otherwise it finds what the full list has.
-/
namespace Bbr.Tui

open Bbr.Diff List SpanCursors
open Bbr.Lib

/-- A displayed Line, the version it is shown as and the version whose cursor is asked. -/
structure Ask where
  line : Line
  version : Option SelectedVersion
  side : SelectedVersion
  deriving DecidableEq, Repr

namespace Ask

def number (ask : Ask) : Nat := sideNo ask.side ask.line

/-- The spans that the displayed Line should have. -/
def wanted (highlights : FileHighlights) (ask : Ask) : List Span :=
  spansAt highlights (spanSide highlights ask.line ask.version) ask.line

end Ask

/-- The cursor was asked before for the Line or for one behind it. -/
def Passed (earlier : List Ask) (ask : Ask) : Prop :=
  ∃ other ∈ earlier, other.side = ask.side ∧ ask.number ≤ other.number

/-- No span is missed: a Line that its cursor has passed has none, and any other asks the version
that has its spans. -/
def Follows (highlights : FileHighlights) (asks : List Ask) : Prop :=
  ∀ earlier ask later, asks = earlier ++ ask :: later →
    (Passed earlier ask → ask.wanted highlights = []) ∧
      (¬Passed earlier ask → spansAt highlights ask.side ask.line = ask.wanted highlights)

/-- Every result is sorted by line. -/
def FileHighlights.Sorted (highlights : FileHighlights) : Prop :=
  ∀ side, ∀ spans ∈ highlights.side side, spans.Pairwise (fun a b => a.line ≤ b.line)

namespace SpanCursors

def side (cursors : SpanCursors) : SelectedVersion → Option SpanCursor
  | .old => cursors.old
  | .new => cursors.new

/-- The cursors stand before the lines given, on either side. -/
def Stand (highlights : FileHighlights) (bound : SelectedVersion → Nat) (cursors : SpanCursors) :
    Prop :=
  ∀ side, cursors.side side =
    (highlights.side side).map (fun spans => ⟨onward Span.line (bound side) spans⟩)

theorem stand_ofHighlights (highlights : FileHighlights) :
    Stand highlights (fun _ => 0) (ofHighlights highlights) := by
  intro side
  have h : ∀ result : Option (List Span), result.map SpanCursor.mk =
      result.map (fun spans => ⟨onward Span.line 0 spans⟩) := fun result => by
    cases result with
    | none => rfl
    | some spans => simp [onward_zero]
  cases side with
  | old => exact h highlights.old
  | new => exact h highlights.new

end SpanCursors

/-- Where the cursors stand after they are asked. -/
def advance (bound : SelectedVersion → Nat) (ask : Ask) (side : SelectedVersion) : Nat :=
  if ask.side = side ∧ ask.number ≠ 0 then max (bound side) (ask.number + 1) else bound side

theorem lineSpans_onward {spans : List Span} (h : spans.Pairwise (fun a b => a.line ≤ b.line))
    (m n : Nat) : SpanCursor.lineSpans ⟨onward Span.line m spans⟩ n =
      (if n ≠ 0 ∧ m ≤ n then spans.filter (fun span => decide (span.line = n)) else [],
        ⟨onward Span.line (if n ≠ 0 then max m (n + 1) else m) spans⟩) := by
  unfold SpanCursor.lineSpans
  by_cases hn : n = 0
  · simp [hn]
  · simp [hn, seek_onward h]

/-- What a cursor gives for the number of a Line, and where it stands then. -/
theorem lineSpans_spec {highlights : FileHighlights} {bound : SelectedVersion → Nat}
    {ask : Ask} {spans : List Span} (hsorted : highlights.Sorted)
    (hspans : highlights.side ask.side = some spans) :
    SpanCursor.lineSpans ⟨onward Span.line (bound ask.side) spans⟩ ask.number =
      (if bound ask.side ≤ ask.number then spansAt highlights ask.side ask.line else [],
        ⟨onward Span.line (advance bound ask ask.side) spans⟩) := by
  rw [lineSpans_onward (hsorted ask.side spans (by rw [hspans]; rfl))]
  simp only [spansAt, hspans, advance, true_and]
  have hnumber : ask.number = sideNo ask.side ask.line := rfl
  rw [hnumber]
  by_cases hn : sideNo ask.side ask.line = 0
  · simp [hn]
  · simp [hn]

variable {highlights : FileHighlights} {cursors : SpanCursors}

theorem lineSpansForSide_side (cursors : SpanCursors) (line : Line) (side : SelectedVersion) :
    (cursors.lineSpansForSide line side).1 =
        ((cursors.side side).map (fun cursor => (cursor.lineSpans (sideNo side line)).1)).getD [] ∧
      (cursors.lineSpansForSide line side).2.side side =
        (cursors.side side).map (fun cursor => (cursor.lineSpans (sideNo side line)).2) ∧
      ∀ other, other ≠ side → (cursors.lineSpansForSide line side).2.side other =
        cursors.side other := by
  cases side with
  | old =>
    refine ⟨?_, ?_, fun other hne => ?_⟩
    · cases h : cursors.old <;> simp [lineSpansForSide, SpanCursors.side, sideNo, h]
    · cases h : cursors.old <;> simp [lineSpansForSide, SpanCursors.side, sideNo, h]
    · cases other <;> cases h : cursors.old <;> simp_all [lineSpansForSide, SpanCursors.side]
  | new =>
    refine ⟨?_, ?_, fun other hne => ?_⟩
    · cases h : cursors.new <;> simp [lineSpansForSide, SpanCursors.side, sideNo, h]
    · cases h : cursors.new <;> simp [lineSpansForSide, SpanCursors.side, sideNo, h]
    · cases other <;> cases h : cursors.new <;> simp_all [lineSpansForSide, SpanCursors.side]

theorem lineSpansForSide_stand {bound : SelectedVersion → Nat} (hsorted : highlights.Sorted)
    (h : cursors.Stand highlights bound) (ask : Ask) :
    (cursors.lineSpansForSide ask.line ask.side).1 =
        (if bound ask.side ≤ ask.number then spansAt highlights ask.side ask.line else []) ∧
      (cursors.lineSpansForSide ask.line ask.side).2.Stand highlights (advance bound ask) := by
  have hspec := fun spans => @lineSpans_spec highlights bound ask spans hsorted
  obtain ⟨hfirst, hnext, hother⟩ := lineSpansForSide_side cursors ask.line ask.side
  rw [h ask.side] at hfirst hnext
  constructor
  · rw [hfirst]
    cases hspans : highlights.side ask.side with
    | none => simp [spansAt, hspans]
    | some spans => simpa [Ask.number] using congrArg Prod.fst (hspec spans hspans)
  intro side
  by_cases heq : side = ask.side
  · subst heq
    rw [hnext]
    cases hspans : highlights.side ask.side with
    | none => rfl
    | some spans => simpa [Ask.number] using congrArg Prod.snd (hspec spans hspans)
  · rw [hother side heq, h side, advance, if_neg (fun hand => heq hand.1.symm)]

/-- The displayed Lines with what their cursors give, and the cursors behind them. -/
def askAll (cursors : SpanCursors) : List Ask → List LineRow × SpanCursors
  | [] => ([], cursors)
  | ask :: asks =>
    let found := cursors.lineSpansForSide ask.line ask.side
    let later := askAll found.2 asks
    (⟨ask.line, found.1, ask.version⟩ :: later.1, later.2)

theorem askAll_append (cursors : SpanCursors) (first second : List Ask) :
    askAll cursors (first ++ second) =
      ((askAll cursors first).1 ++ (askAll (askAll cursors first).2 second).1,
        (askAll (askAll cursors first).2 second).2) := by
  induction first generalizing cursors with
  | nil => rfl
  | cons ask first ih => simp only [cons_append, askAll, ih]

def LineRow.Right (highlights : FileHighlights) (shown : LineRow) : Prop :=
  shown.spans = spansAt highlights (spanSide highlights shown.line shown.displayVersion) shown.line

theorem askAll_right {highlights : FileHighlights} (hsorted : highlights.Sorted)
    {bound : SelectedVersion → Nat} {seen asks : List Ask} {cursors : SpanCursors}
    (h : cursors.Stand highlights bound)
    (hseen : ∀ ask : Ask, ask.number ≠ 0 → (bound ask.side ≤ ask.number ↔ ¬Passed seen ask)) :
    (∀ shown ∈ (askAll cursors asks).1, shown.Right highlights) ↔
      ∀ earlier ask later, asks = earlier ++ ask :: later →
        (Passed (seen ++ earlier) ask → ask.wanted highlights = []) ∧ (¬Passed (seen ++ earlier) ask →
            spansAt highlights ask.side ask.line = ask.wanted highlights) := by
  induction asks generalizing bound seen cursors with
  | nil => simp [askAll]
  | cons ask asks ih =>
    obtain ⟨hfound, hstand⟩ := lineSpansForSide_stand hsorted h ask
    have hnext : ∀ other : Ask, other.number ≠ 0 →
        (advance bound ask other.side ≤ other.number ↔ ¬Passed (seen ++ [ask]) other) := by
      intro other hne
      have hsplit : Passed (seen ++ [ask]) other ↔
          Passed seen other ∨ ask.side = other.side ∧ other.number ≤ ask.number := by
        simp only [Passed, mem_append, mem_singleton, or_and_right, exists_or, exists_eq_left]
      rw [hsplit, not_or, ← hseen other hne, advance]
      by_cases hside : ask.side = other.side
      · by_cases hzero : ask.number = 0
        · simp only [hside, hzero, true_and, ne_eq, not_true_eq_false, if_false]
          omega
        · simp only [hside, hzero, true_and, ne_eq, not_false_eq_true, if_true]
          omega
      · simp [hside]
    have hfirst : (⟨ask.line, (cursors.lineSpansForSide ask.line ask.side).1, ask.version⟩ :
        LineRow).Right highlights ↔ (Passed seen ask → ask.wanted highlights = []) ∧
          (¬Passed seen ask → spansAt highlights ask.side ask.line = ask.wanted highlights) := by
      rw [LineRow.Right, hfound]
      by_cases hzero : ask.number = 0
      · have hnone : spansAt highlights ask.side ask.line = [] := by
          unfold spansAt
          cases highlights.side ask.side with
          | none => rfl
          | some spans => exact if_pos hzero
        rw [hnone, ite_self]
        exact ⟨fun heq => ⟨fun _ => heq.symm, fun _ => heq⟩, fun hall => by
          by_cases hpassed : Passed seen ask
          · exact (hall.1 hpassed).symm
          · exact hall.2 hpassed⟩
      · by_cases hpassed : Passed seen ask
        · rw [if_neg (fun hle => (hseen ask hzero).mp hle hpassed)]
          exact ⟨fun heq => ⟨fun _ => heq.symm, fun h => absurd hpassed h⟩,
            fun hall => (hall.1 hpassed).symm⟩
        · rw [if_pos ((hseen ask hzero).mpr hpassed)]
          exact ⟨fun heq => ⟨fun h => absurd h hpassed, fun _ => heq⟩, fun hall => hall.2 hpassed⟩
    rw [askAll, forall_mem_cons, hfirst, ih hstand hnext]
    constructor
    · rintro ⟨hask, hlater⟩ earlier other later heq
      cases earlier with
      | nil =>
        cases heq
        rwa [append_nil]
      | cons first earlier =>
        cases heq
        have := hlater earlier other later rfl
        rwa [append_assoc, singleton_append] at this
    · intro hall
      refine ⟨?_, fun earlier other later heq => ?_⟩
      · have := hall [] ask asks rfl
        rwa [append_nil] at this
      · have := hall (ask :: earlier) other later (by rw [heq, cons_append])
        rwa [append_assoc, singleton_append]

theorem askAll_follows (hsorted : highlights.Sorted) (asks : List Ask) :
    (∀ shown ∈ (askAll (.ofHighlights highlights) asks).1, shown.Right highlights) ↔
      Follows highlights asks := by
  refine @askAll_right highlights hsorted _ [] asks _ (stand_ofHighlights highlights) (fun ask _ => ?_)
  simp [Passed]

def ofSide (side : SelectedVersion) (asks : List Ask) : List Ask :=
  asks.filter (fun ask => decide (ask.side = side))

theorem passed_ofSide (earlier : List Ask) (ask : Ask) :
    Passed (ofSide ask.side earlier) ask ↔ Passed earlier ask := by
  simp only [Passed, ofSide, mem_filter, decide_eq_true_eq]
  constructor
  · rintro ⟨other, ⟨hmem, -⟩, hside, hle⟩
    exact ⟨other, hmem, hside, hle⟩
  · rintro ⟨other, hmem, hside, hle⟩
    exact ⟨other, ⟨hmem, hside⟩, hside, hle⟩

theorem follows_ofSide {highlights : FileHighlights} {asks : List Ask} :
    Follows highlights asks ↔ ∀ side, Follows highlights (ofSide side asks) := by
  constructor
  · intro h side earlier ask later heq
    obtain ⟨first, second, rfl, hfirst, hsecond⟩ := filter_eq_append_iff.mp heq
    obtain ⟨skipped, rest, rfl, hskipped, hside, hrest⟩ := filter_eq_cons_iff.mp hsecond
    have hside : ask.side = side := of_decide_eq_true hside
    have hall := h (first ++ skipped) ask rest (by simp)
    rw [← passed_ofSide] at hall
    have hearlier : ofSide ask.side (first ++ skipped) = earlier := by
      have hnone : ofSide ask.side skipped = [] :=
        filter_eq_nil_iff.mpr (fun other hother => by rw [hside]; exact hskipped other hother)
      rw [ofSide, filter_append]
      exact (congrArg₂ _ (hside ▸ hfirst) hnone).trans (append_nil _)
    rwa [hearlier] at hall
  · intro h earlier ask later heq
    have hall := h ask.side (ofSide ask.side earlier) ask (ofSide ask.side later) (by
      rw [heq, ofSide, filter_append, filter_cons_of_pos (by simp)]
      rfl)
    rwa [passed_ofSide] at hall

variable {asks : List Ask}

theorem follows_congr {others : List Ask} (h : ∀ side, ofSide side asks = ofSide side others) :
    Follows highlights asks ↔ Follows highlights others := by
  rw [follows_ofSide, @follows_ofSide highlights others]
  exact forall_congr' (fun side => by rw [h side])

/-! ## What the rows ask -/

/-- Rows that show the Lines of the asks with what the cursors give for them, in this order. -/
def Decorates (cursors : SpanCursors) (out : List SpannedRow × SpanCursors) (asks : List Ask) :
    Prop :=
  out.2 = (askAll cursors asks).2 ∧
    ∀ shown, shown ∈ out.1.flatMap SpannedRow.lineRows ↔ shown ∈ (askAll cursors asks).1

theorem Decorates.append {first second : List SpannedRow × SpanCursors} {others : List Ask}
    (h : Decorates cursors first asks) (h' : Decorates first.2 second others) :
    Decorates cursors (first.1 ++ second.1, second.2) (asks ++ others) := by
  obtain ⟨hcursors, hrows⟩ := h
  obtain ⟨hcursors', hrows'⟩ := h'
  rw [Decorates, askAll_append]
  rw [hcursors] at hcursors' hrows'
  refine ⟨hcursors', fun shown => ?_⟩
  rw [flatMap_append, mem_append, mem_append, hrows, hrows']

/-- The new result stays loaded, or not. -/
def Loaded (highlights : FileHighlights) (cursors : SpanCursors) : Prop :=
  cursors.new.isSome = highlights.new.isSome

theorem lineSpansForSide_loaded (h : Loaded highlights cursors) (line : Line)
    (side : SelectedVersion) : Loaded highlights (cursors.lineSpansForSide line side).2 := by
  unfold Loaded at *
  cases side with
  | old => cases hold : cursors.old <;> simpa [lineSpansForSide, hold] using h
  | new => cases hnew : cursors.new <;> simpa [lineSpansForSide, hnew] using h

theorem askAll_loaded (h : Loaded highlights cursors) (asks : List Ask) :
    Loaded highlights (askAll cursors asks).2 := by
  induction asks generalizing cursors with
  | nil => exact h
  | cons ask asks ih => exact ih (lineSpansForSide_loaded h ask.line ask.side)

theorem lineSpans_kind (h : Loaded highlights cursors) (line : Line) :
    cursors.lineSpans line = cursors.lineSpansForSide line (kindSide highlights line) := by
  rw [lineSpans, kindSide, h]
  cases line.kind with
  | context => dsimp only; split <;> rfl
  | added => rfl
  | removed => rfl

def kindAsk (highlights : FileHighlights) (version : Option SelectedVersion) (line : Line) : Ask :=
  ⟨line, version, kindSide highlights line⟩

/-- The Lines that a row of a Hunk asks for. -/
def askedLines : HunkRow → List Line
  | .disclosure _ _ _ => []
  | .line line => [line]
  | .linePair ⟨some left, some right⟩ => if left.kind = .context then [left] else [left, right]
  | .linePair ⟨left, right⟩ => left.toList ++ right.toList

theorem decorateRow_decorates (h : Loaded highlights cursors) (row : HunkRow) :
    Decorates cursors ([(decorateRow cursors row).1], (decorateRow cursors row).2)
      ((askedLines row).map (kindAsk highlights none)) := by
  have hline := fun line => lineSpans_kind h line
  cases row with
  | disclosure id count expanded => exact ⟨rfl, fun shown => Iff.rfl⟩
  | line line =>
    refine ⟨by simp [decorateRow, decorateLine, askedLines, askAll, kindAsk, hline], fun shown => ?_⟩
    simp [decorateRow, decorateLine, askedLines, askAll, kindAsk, hline, SpannedRow.lineRows]
  | linePair pair =>
    obtain ⟨_ | left, _ | right⟩ := pair
    · exact ⟨rfl, fun shown => Iff.rfl⟩
    · refine ⟨by simp [decorateRow, decorateLine, askedLines, askAll, kindAsk, hline], fun shown => ?_⟩
      simp [decorateRow, decorateLine, askedLines, askAll, kindAsk, hline, SpannedRow.lineRows]
    · refine ⟨by simp [decorateRow, decorateLine, askedLines, askAll, kindAsk, hline], fun shown => ?_⟩
      simp [decorateRow, decorateLine, askedLines, askAll, kindAsk, hline, SpannedRow.lineRows]
    have hnext : Loaded highlights (cursors.lineSpansForSide left (kindSide highlights left)).2 :=
      lineSpansForSide_loaded h left _
    have hright := lineSpans_kind hnext right
    by_cases hkind : left.kind = .context
    · refine ⟨by simp [decorateRow, decorateLine, askedLines, askAll, kindAsk, hline, hkind],
        fun shown => ?_⟩
      simp [decorateRow, decorateLine, askedLines, askAll, kindAsk, hline, hkind, SpannedRow.lineRows]
    · refine ⟨by simp [decorateRow, decorateLine, askedLines, askAll, kindAsk, hline, hkind, hright],
        fun shown => ?_⟩
      simp [decorateRow, decorateLine, askedLines, askAll, kindAsk, hline, hkind, hright,
        SpannedRow.lineRows]

theorem decorateRows_decorates (h : Loaded highlights cursors) (rows : List HunkRow) :
    Decorates cursors (decorateRows cursors rows)
      ((rows.flatMap askedLines).map (kindAsk highlights none)) := by
  induction rows generalizing cursors with
  | nil => exact ⟨rfl, fun shown => Iff.rfl⟩
  | cons row rows ih =>
    have hrow := decorateRow_decorates h row
    have hnext : Loaded highlights (decorateRow cursors row).2 := by
      rw [hrow.1]
      exact askAll_loaded h _
    rw [flatMap_cons, map_append]
    exact hrow.append (ih hnext)

theorem emitUnifiedWholeFile_decorates (h : Loaded highlights cursors) (side : SelectedVersion)
    (lines : List Line) :
    Decorates cursors (emitUnifiedWholeFile cursors side lines)
      (lines.map (kindAsk highlights (some side))) := by
  induction lines generalizing cursors with
  | nil => exact ⟨rfl, fun shown => Iff.rfl⟩
  | cons line lines ih =>
    have hline := lineSpans_kind h line
    have hfirst : Decorates cursors
        ([.line { (decorateLine cursors line).1 with displayVersion := some side }],
          (decorateLine cursors line).2) [kindAsk highlights (some side) line] := by
      refine ⟨by simp [decorateLine, askAll, kindAsk, hline], fun shown => ?_⟩
      simp [decorateLine, askAll, kindAsk, hline, SpannedRow.lineRows]
    have hnext : Loaded highlights (decorateLine cursors line).2 := by
      rw [decorateLine, hline]
      exact lineSpansForSide_loaded h line _
    exact hfirst.append (ih hnext)

/-- A Line outside the Hunks, or one of the only version, asks the version it is shown as. -/
def sideAsk (side : SelectedVersion) (line : Line) : Ask := ⟨line, some side, side⟩

def pairAsks (pair : LinePair) : List Ask :=
  pair.left.toList.map (sideAsk .old) ++ pair.right.toList.map (sideAsk .new)

theorem emitWholeFilePairs_decorates (cursors : SpanCursors) (pairs : List LinePair) :
    Decorates cursors (emitWholeFilePairs cursors pairs) (pairs.flatMap pairAsks) := by
  induction pairs generalizing cursors with
  | nil => exact ⟨rfl, fun shown => Iff.rfl⟩
  | cons pair pairs ih =>
    have hfirst : Decorates cursors
        ([(emitWholeFilePair cursors pair).1], (emitWholeFilePair cursors pair).2)
        (pairAsks pair) := by
      obtain ⟨_ | left, _ | right⟩ := pair <;>
        refine ⟨by simp [emitWholeFilePair, decorateSide, pairAsks, sideAsk, askAll],
          fun shown => ?_⟩ <;>
        simp [emitWholeFilePair, decorateSide, pairAsks, sideAsk, askAll, SpannedRow.lineRows]
    exact hfirst.append (ih _)

theorem ofSide_map_sideAsk (side other : SelectedVersion) (lines : List Line) :
    ofSide side (lines.map (sideAsk other)) = if other = side then lines.map (sideAsk other) else [] := by
  split
  · next heq =>
    refine filter_eq_self.mpr (fun ask hask => ?_)
    obtain ⟨line, -, rfl⟩ := mem_map.mp hask
    exact decide_eq_true heq
  · next hne =>
    refine filter_eq_nil_iff.mpr (fun ask hask => ?_)
    obtain ⟨line, -, rfl⟩ := mem_map.mp hask
    exact fun heq => hne (of_decide_eq_true heq)

theorem ofSide_append (side : SelectedVersion) (asks others : List Ask) :
    ofSide side (asks ++ others) = ofSide side asks ++ ofSide side others := filter_append ..

theorem ofSide_pairAsks (side : SelectedVersion) (pairs : List LinePair) :
    ofSide side (pairs.flatMap pairAsks) =
      match side with
      | .old => (pairs.filterMap LinePair.left).map (sideAsk .old)
      | .new => (pairs.filterMap LinePair.right).map (sideAsk .new) := by
  induction pairs with
  | nil => cases side <;> rfl
  | cons pair pairs ih =>
    rw [flatMap_cons, ofSide_append, ih, pairAsks, ofSide_append, ofSide_map_sideAsk,
      ofSide_map_sideAsk]
    obtain ⟨_ | left, _ | right⟩ := pair <;> cases side <;> simp

theorem ofSide_map_kindAsk (highlights : FileHighlights) (side : SelectedVersion)
    (version : Option SelectedVersion) (lines : List Line) :
    ofSide side (lines.map (kindAsk highlights version)) =
      (lines.filter (fun line => decide (kindSide highlights line = side))).map
        (kindAsk highlights version) := by
  rw [ofSide, filter_map]
  rfl

/-! ## Hunks -/

section Weave

variable {F : Type} (costs : MatchCosts F) {line : Line}

theorem kindSide_changed (highlights : FileHighlights) (side : SelectedVersion)
    (h : line.kind ≠ .context) :
    decide (kindSide highlights line = side) = presentOn side line := by
  unfold kindSide presentOn
  cases hkind : line.kind with
  | context => exact absurd hkind h
  | added | removed => cases side <;> rfl

/-- A changed pair has a removed Line on its left and an added one on its right. -/
def ChangedPair (pair : LinePair) : Prop :=
  (∀ left ∈ pair.left, left.kind = .removed) ∧ ∀ right ∈ pair.right, right.kind = .added

theorem askedLines_changed {pair : LinePair} (h : ChangedPair pair) (highlights : FileHighlights)
    (side : SelectedVersion) :
    (askedLines (.linePair pair)).filter (fun line => decide (kindSide highlights line = side)) =
      pairCell side (.linePair pair) := by
  obtain ⟨hleft, hright⟩ := h
  obtain ⟨_ | left, _ | right⟩ := pair
  · cases side <;> rfl
  · have hkind := hright right rfl
    cases side <;> simp [askedLines, pairCell, kindSide, hkind]
  · have hkind := hleft left rfl
    cases side <;> simp [askedLines, pairCell, kindSide, hkind]
  · have hkind := hleft left rfl
    have hkind' := hright right rfl
    cases side <;> simp [askedLines, pairCell, kindSide, hkind, hkind']

theorem sideBySidePart_changed (rest : List Line) (h : line.kind ≠ .context) :
    ∀ row ∈ (sideBySidePart costs line rest).1, ∃ pair, row = .linePair pair ∧ ChangedPair pair := by
  intro row hrow
  cases hkind : line.kind with
  | context => exact absurd hkind h
  | added =>
    obtain ⟨run, -, hadded, -, -, hrows⟩ := sideBySidePart_added costs rest hkind
    rw [hrows, map_map] at hrow
    obtain ⟨added, hmem, rfl⟩ := mem_map.mp hrow
    refine ⟨⟨none, some added⟩, rfl, ?_, ?_⟩
    · simp
    · simpa using hadded added hmem
  | removed =>
    obtain ⟨removed, added, -, hremoved, hadded, -, -, hrows⟩ := sideBySidePart_removed costs rest hkind
    obtain ⟨hleft, hright⟩ := emitSideBySideChangeBlock_columns costs removed added
    rw [hrows] at hrow
    obtain ⟨pair, hmem, rfl⟩ := mem_map.mp hrow
    refine ⟨pair, rfl, fun left hl => hremoved left ?_, fun right hr => hadded right ?_⟩
    · rw [← hleft]
      exact mem_filterMap.mpr ⟨pair, hmem, hl⟩
    · rw [← hright]
      exact mem_filterMap.mpr ⟨pair, hmem, hr⟩

/-- The rows of a Hunk ask either cursor for its Lines in order, in both layouts. -/
theorem sideBySidePart_asks (highlights : FileHighlights) (side : SelectedVersion) :
    PartLaws (sideBySidePart costs) (fun line => decide (kindSide highlights line = side))
      (fun row => (askedLines row).filter (fun line => decide (kindSide highlights line = side)))
      (fun _ => True) (fun line => .linePair (emitContext line)) where
  plain := (sideBySidePart_laws costs side).plain
  context := (sideBySidePart_laws costs side).context
  fits line hkind _ := by
    have hasked : askedLines (.linePair (emitContext line)) = [line] := by
      unfold emitContext
      split
      · rfl
      · split
        · rfl
        · exact if_pos hkind
    rw [hasked]
  pos := (sideBySidePart_laws costs side).pos
  le := (sideBySidePart_laws costs side).le
  changed line rest hkind := by
    obtain ⟨hchanged, hcells⟩ := (sideBySidePart_laws costs side).changed line rest hkind
    refine ⟨hchanged, ?_⟩
    rw [filter_congr (fun other hother => kindSide_changed highlights side
      (hchanged other hother)), ← hcells]
    refine flatMap_congr (fun row hrow => ?_)
    obtain ⟨pair, rfl, hpair⟩ := sideBySidePart_changed costs rest hkind row hrow
    exact askedLines_changed hpair highlights side

theorem unifiedPart_asks (highlights : FileHighlights) (side : SelectedVersion) :
    PartLaws unifiedPart (fun line => decide (kindSide highlights line = side))
      (fun row => (askedLines row).filter (fun line => decide (kindSide highlights line = side)))
      (fun _ => True) HunkRow.line where
  plain := unifiedPart_laws.plain
  context := unifiedPart_laws.context
  fits line _ _ := rfl
  pos := unifiedPart_laws.pos
  le := unifiedPart_laws.le
  changed line rest hkind := ⟨(unifiedPart_laws.changed line rest hkind).1, by
    simp [unifiedPart, askedLines]⟩

theorem emitHunkRows_unfolded {expanded : Nat → Bool} {fuel steps i : Nat} {lines : List Line}
    (hfuel : lines.length < fuel) (hsteps : lines.length ≤ steps) :
    emitHunkRows (sideBySidePart costs) [] expanded fuel i lines =
      some ((emitSideBySideHunk costs steps lines).map HunkRow.linePair) := by
  induction steps generalizing fuel i lines with
  | zero =>
    obtain rfl := length_eq_zero_iff.mp (Nat.le_zero.mp hsteps)
    cases fuel with
    | zero => exact absurd hfuel (Nat.not_lt_zero _)
    | succ fuel => rfl
  | succ steps ih =>
    cases fuel with
    | zero => exact absurd hfuel (Nat.not_lt_zero _)
    | succ fuel =>
      cases lines with
      | nil => rfl
      | cons line rest =>
        have hpos := (sideBySidePart_laws costs .old).pos line rest
        rw [length_cons] at hfuel hsteps
        have hnext := @ih fuel (i + (sideBySidePart costs line rest).2)
          ((line :: rest).drop (sideBySidePart costs line rest).2)
          (by rw [length_drop, length_cons]; omega)
          (by rw [length_drop, length_cons]; omega)
        have hrows : (sideBySidePart costs line rest).1 ++ (emitSideBySideHunk costs steps
              ((line :: rest).drop (sideBySidePart costs line rest).2)).map HunkRow.linePair =
            (emitSideBySideHunk costs (steps + 1) (line :: rest)).map HunkRow.linePair := by
          rw [emitSideBySideHunk]
          cases hkind : line.kind with
          | context => rw [sideBySidePart_context costs rest hkind]; rfl
          | added => simp [sideBySidePart, hkind, dropWhile_drop]
          | removed =>
            simp [sideBySidePart, hkind, dropWhile_drop (isKind .removed), dropWhile_drop (isKind .added)]
        rw [emitHunkRows, hnext]
        exact congrArg some hrows

theorem emitSideBySideHunk_asks (highlights : FileHighlights) (side : SelectedVersion)
    {steps : Nat} {lines : List Line} (hsteps : lines.length ≤ steps) :
    (((emitSideBySideHunk costs steps lines).map HunkRow.linePair).flatMap askedLines).filter
        (fun line => decide (kindSide highlights line = side)) =
      lines.filter (fun line => decide (kindSide highlights line = side)) := by
  have hlayout : FoldLayout lines [] := ⟨by simp, by simp, by simp⟩
  have hrows := @emitHunkRows_unfolded F costs (fun _ => false) (lines.length + 1) steps 0 lines
    (Nat.lt_succ_self _) hsteps
  have hshows := hlayout.walkShows (sideBySidePart_asks costs highlights side) hrows
  have hvisible := hshows.visible (fun _ _ _ _ _ _ => trivial)
  have hall : visibleFrom [] (fun _ => false) 0 lines = lines :=
    visibleFrom_uncovered (fun k _ _ fold hmem => absurd hmem not_mem_nil)
  rw [drop_zero, hall] at hvisible
  rw [← hvisible, filter_flatMap]
  refine flatMap_congr (fun row _ => ?_)
  cases row <;> rfl

end Weave

/-! ## Files -/

section Files

variable {F : Type} (costs : MatchCosts F) (highlights : FileHighlights)

/-- The Lines of the Hunks that no collapsed fold hides. -/
def changesAsks (opts : BuildOptions) (expanded : Nat → Nat → Bool) :
    Nat → List Hunk → List Ask
  | _, [] => []
  | place, hunk :: hunks =>
    (match computeFolds opts hunk.lines with
      | none => []
      | some folds => (visibleFrom folds (expanded place) 0 hunk.lines).map (kindAsk highlights none)) ++
      changesAsks opts expanded (place + 1) hunks

/-- The Lines of a Hunk in the whole-file view. -/
def hunkAsks (status : FileStatus) (hunk : Hunk) : List Ask :=
  match status with
  | .added => (sideLines .new hunk.lines).map (sideAsk .new)
  | .removed => (sideLines .old hunk.lines).map (sideAsk .old)
  | .modified | .renamed => hunk.lines.map (kindAsk highlights none)

/-- The Lines of both versions, gap by gap and Hunk by Hunk. -/
def wholeFilesAsks (status : FileStatus) (oldLines newLines : List Line) : List Hunk → List Ask
  | [] => oldLines.map (sideAsk .old) ++ newLines.map (sideAsk .new)
  | hunk :: hunks =>
    (gapEnd oldLines).map (sideAsk .old) ++ (gapEnd newLines).map (sideAsk .new) ++
      hunkAsks highlights status hunk ++
        wholeFilesAsks status (passHunk oldLines) (passHunk newLines) hunks

/-- The Lines that a view displays, in the order of the File. -/
def displayed (file : File) : View → List Ask
  | .changes _ opts expanded _ => changesAsks highlights opts expanded 0 file.hunks
  | .wholeFile side blob =>
    (((wholeFileUsableContent blob).map (fun blob => spliceSide file blob side)).getD []).map
      (kindAsk highlights (some side))
  | .wholeFiles old new =>
    wholeFilesAsks highlights file.status
      (((wholeFileUsableContent old).map (fun blob => spliceSide file blob .old)).getD [])
      (((wholeFileUsableContent new).map (fun blob => spliceSide file blob .new)).getD [])
      file.hunks

variable {highlights}

theorem emitWholeFileGap_asks (side : SelectedVersion) (old new : List Line) :
    ofSide side ((emitWholeFileGap old new).flatMap pairAsks) =
      ofSide side (old.map (sideAsk .old) ++ new.map (sideAsk .new)) := by
  rw [ofSide_pairAsks, ofSide_append, ofSide_map_sideAsk, ofSide_map_sideAsk, emitWholeFileGap,
    pairUp_left, pairUp_right]
  cases side <;> simp

variable {cursors : SpanCursors}

theorem emitSpannedHunk_asks (h : Loaded highlights cursors) (status : FileStatus) (hunk : Hunk) :
    ∃ asks, Decorates cursors (emitSpannedHunk costs cursors status hunk) asks ∧
      ∀ side, ofSide side asks = ofSide side (hunkAsks highlights status hunk) := by
  have honly : ∀ version, ∀ side, ofSide side
      ((emitWholeFileSideHunk hunk.lines version).flatMap pairAsks) =
        ofSide side ((sideLines version hunk.lines).map (sideAsk version)) := by
    intro version side
    rw [ofSide_pairAsks, ofSide_map_sideAsk, emitWholeFileSideHunk]
    cases version <;> cases side <;> simp [filterMap_map]
  cases status with
  | added => exact ⟨_, emitWholeFilePairs_decorates cursors _, honly .new⟩
  | removed => exact ⟨_, emitWholeFilePairs_decorates cursors _, honly .old⟩
  | modified | renamed =>
    refine ⟨_, decorateRows_decorates h _, fun side => ?_⟩
    rw [hunkAsks, ofSide_map_kindAsk, ofSide_map_kindAsk]
    exact congrArg _ (emitSideBySideHunk_asks costs highlights side (Nat.le_refl _))

theorem emitSpannedHunks_asks (h : Loaded highlights cursors) (status : FileStatus)
    (oldLines newLines : List Line) (hunks : List Hunk) :
    ∃ asks, Decorates cursors (emitSpannedHunks costs status cursors oldLines newLines hunks) asks ∧
      ∀ side, ofSide side asks =
        ofSide side (wholeFilesAsks highlights status oldLines newLines hunks) := by
  induction hunks generalizing cursors oldLines newLines with
  | nil =>
    exact ⟨_, emitWholeFilePairs_decorates cursors _, fun side => emitWholeFileGap_asks side _ _⟩
  | cons hunk hunks ih =>
    have hgap := emitWholeFilePairs_decorates cursors
      (emitWholeFileGap (gapEnd oldLines) (gapEnd newLines))
    have hgapLoaded := askAll_loaded h
      ((emitWholeFileGap (gapEnd oldLines) (gapEnd newLines)).flatMap pairAsks)
    rw [← hgap.1] at hgapLoaded
    obtain ⟨asks, hhunk, hasks⟩ := emitSpannedHunk_asks costs hgapLoaded status hunk
    have hhunkLoaded := askAll_loaded hgapLoaded asks
    rw [← hhunk.1] at hhunkLoaded
    obtain ⟨later, hlater, hlaterAsks⟩ := ih hhunkLoaded (passHunk oldLines) (passHunk newLines)
    refine ⟨_, (hgap.append hhunk).append hlater, fun side => ?_⟩
    rw [wholeFilesAsks, ofSide_append, ofSide_append, ofSide_append side (_ ++ _), ofSide_append,
      emitWholeFileGap_asks, hasks, hlaterAsks, ofSide_append]

theorem emitChanges_asks {sideBySide : Bool} {opts : BuildOptions} {expanded : Nat → Nat → Bool}
    {fuel place : Nat} {hunks : List Hunk} {rows : List HunkRow}
    (hrows : emitChanges costs sideBySide opts expanded fuel place hunks = some rows)
    (side : SelectedVersion) :
    ofSide side ((rows.flatMap askedLines).map (kindAsk highlights none)) =
      ofSide side (changesAsks highlights opts expanded place hunks) := by
  induction hunks generalizing place rows with
  | nil =>
    cases hrows
    rfl
  | cons hunk hunks ih =>
    rw [emitChanges] at hrows
    rw [changesAsks]
    cases hfolds : computeFolds opts hunk.lines with
    | none => rw [hfolds] at hrows; cases hrows
    | some folds =>
      rw [hfolds] at hrows
      dsimp only at hrows ⊢
      obtain ⟨hnone, -, -⟩ | ⟨folds', hsome, -, hlayout, -⟩ := computeFolds_spec opts hunk.lines
      · rw [hnone] at hfolds
        cases hfolds
      rw [hsome] at hfolds
      cases hfolds
      split at hrows
      · cases hrows
      rename_i shown hshown
      obtain ⟨later, hlater, rfl⟩ := Option.map_eq_some_iff.mp hrows
      have hvisible : (shown.flatMap askedLines).filter
          (fun line => decide (kindSide highlights line = side)) =
            (visibleFrom folds (expanded place) 0 hunk.lines).filter
              (fun line => decide (kindSide highlights line = side)) := by
        have hrow : ∀ row, (askedLines row).filter
            (fun line => decide (kindSide highlights line = side)) = showRow (fun row =>
              (askedLines row).filter (fun line => decide (kindSide highlights line = side)))
                row := fun row => by cases row <;> rfl
        rw [filter_flatMap, flatMap_congr (fun row _ => hrow row)]
        cases sideBySide with
        | false =>
          exact (hlayout.walkShows (unifiedPart_asks highlights side) hshown).visible
            (fun _ _ _ _ _ _ => trivial)
        | true =>
          exact (hlayout.walkShows (sideBySidePart_asks costs highlights side) hshown).visible
            (fun _ _ _ _ _ _ => trivial)
      rw [flatMap_append, map_append, ofSide_append, ofSide_append, ih hlater,
        ofSide_map_kindAsk, ofSide_map_kindAsk, hvisible]

theorem loaded_ofHighlights (highlights : FileHighlights) :
    Loaded highlights (.ofHighlights highlights) := by
  simp [Loaded, ofHighlights]

variable {rows : List SpannedRow}

theorem spansFollow_lineRows : SpansFollow highlights rows ↔
    ∀ shown ∈ rows.flatMap SpannedRow.lineRows, shown.Right highlights := by
  simp only [SpansFollow, LineRow.Right, mem_flatMap, forall_exists_index, and_imp]
  exact ⟨fun h shown row hrow hshown => h row hrow shown hshown,
    fun h row hrow shown hshown => h shown row hrow hshown⟩

theorem spannedRows_asks {file : File} {view : View}
    (hrows : spannedRows costs file highlights view = some rows) :
    ∃ asks last, Decorates (.ofHighlights highlights) (rows, last) asks ∧
      ∀ side, ofSide side asks = ofSide side (displayed highlights file view) := by
  have hloaded := loaded_ofHighlights highlights
  cases view with
  | changes sideBySide opts expanded fuel =>
    obtain ⟨shown, hshown, rfl⟩ := Option.map_eq_some_iff.mp hrows
    exact ⟨_, _, decorateRows_decorates hloaded shown, emitChanges_asks costs hshown⟩
  | wholeFile side blob =>
    cases hrows
    exact ⟨_, _, emitUnifiedWholeFile_decorates hloaded side _, fun _ => rfl⟩
  | wholeFiles old new =>
    cases hrows
    obtain ⟨asks, hdecorates, hasks⟩ := emitSpannedHunks_asks costs hloaded file.status _ _ file.hunks
    exact ⟨asks, _, hdecorates, hasks⟩

/-- The displayed Lines have their spans exactly when none of them asks a cursor that has passed
spans of theirs, or asks another version than the one that has them. -/
theorem spansFollow_iff (file : File) (hsorted : highlights.Sorted) (view : View)
    (rows : List SpannedRow) (hrows : spannedRows costs file highlights view = some rows) :
    SpansFollow highlights rows ↔ Follows highlights (displayed highlights file view) := by
  obtain ⟨asks, last, ⟨-, hshown⟩, hasks⟩ := spannedRows_asks costs hrows
  rw [spansFollow_lineRows, ← follows_congr hasks, ← askAll_follows hsorted]
  exact forall_congr' (fun shown => by rw [hshown])

end Files

/-- One span on the first Line of either version. -/
def firstLines : FileHighlights where
  old := some [⟨1, 0, 1, 0⟩]
  new := some [⟨1, 0, 1, 0⟩]

theorem firstLines_sorted : firstLines.Sorted := by
  intro side spans hspans
  cases side <;> cases hspans <;> exact pairwise_singleton _ _

/-- The new version of `changed`. -/
def changedNewRows : List SpannedRow :=
  [.line ⟨gapLine .new 1 [97], [⟨1, 0, 1, 0⟩], some .new⟩,
    .line ⟨⟨0, 2, .added, [120], true⟩, [], some .new⟩]

theorem spansFollow_changed : SpansFollow firstLines changedNewRows ↔
    Follows firstLines
      (displayed firstLines changed (.wholeFile .new (some [97, 10, 120, 10]))) :=
  spansFollow_iff plainCosts changed firstLines_sorted (.wholeFile .new (some [97, 10, 120, 10]))
    changedNewRows (by decide)

/-- In the old version the unchanged first Line asks the new cursor, for no number. -/
theorem old_version_plain : firstLines.Sorted ∧
    ∃ rows, spannedRows plainCosts changed firstLines (.wholeFile .old (some [97, 10, 98, 10])) =
      some rows ∧ ¬SpansFollow firstLines rows := by
  refine ⟨firstLines_sorted,
    [.line ⟨gapLine .old 1 [97], [], some .old⟩, .line ⟨⟨2, 0, .removed, [98], true⟩, [], some .old⟩],
    by decide, ?_⟩
  unfold SpansFollow
  decide

end Bbr.Tui
