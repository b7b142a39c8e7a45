import Bbr.Highlight.Decoration

/-!
# Decorated Lines are exact

Spans and emphasis that fit their Line give runs that make up the Line, and every byte has the capture
and the emphasis of what covers it; all others are rejected.
-/
namespace Bbr.Highlight

open Bbr.Lib List
open Bbr.Tui

/-- Spans of one line, in order, apart and between characters. -/
structure SpansFit (text : Bytes) (spans : List Span) : Prop where
  inside : ∀ span ∈ spans, span.start < span.stop ∧ span.stop ≤ text.length
  apart : Lib.Apart Span.start Span.stop spans
  oneLine : ∀ a ∈ spans, ∀ b ∈ spans, a.line = b.line
  whole : ∀ span ∈ spans, utf8Boundary text span.start ∧ utf8Boundary text span.stop

def EmphasisFits (text : Bytes) (emphasis : List Segment) : Prop :=
  emphasis = [] ∨ Partition text emphasis

section Validation

variable {text : Bytes} {span : Span} {spans : List Span} {segment : Segment} {emphasis : List Segment}

theorem spansFit_nil : SpansFit text [] where
  inside := by simp
  apart := .nil
  oneLine := by simp
  whole := by simp

theorem spansFit_cons : SpansFit text (span :: spans) ↔
    (span.start < span.stop ∧ span.stop ≤ text.length) ∧
      (utf8Boundary text span.start ∧ utf8Boundary text span.stop) ∧
        (∀ s ∈ spans, span.stop ≤ s.start) ∧ (∀ s ∈ spans, s.line = span.line) ∧
          SpansFit text spans := by
  constructor
  · intro h
    obtain ⟨hfirst, hrest⟩ := pairwise_cons.mp h.apart
    exact ⟨h.inside span mem_cons_self, h.whole span mem_cons_self, hfirst,
      fun s hs => h.oneLine s (mem_cons_of_mem _ hs) span mem_cons_self,
      fun s hs => h.inside s (mem_cons_of_mem _ hs), hrest,
      fun a ha b hb => h.oneLine a (mem_cons_of_mem _ ha) b (mem_cons_of_mem _ hb),
      fun s hs => h.whole s (mem_cons_of_mem _ hs)⟩
  · intro ⟨hinside, hwhole, hfirst, hline, hrest⟩
    have hlines : ∀ s ∈ span :: spans, s.line = span.line := forall_mem_cons.mpr ⟨rfl, hline⟩
    exact ⟨forall_mem_cons.mpr ⟨hinside, hrest.inside⟩, pairwise_cons.mpr ⟨hfirst, hrest.apart⟩,
      fun a ha b hb => (hlines a ha).trans (hlines b hb).symm,
      forall_mem_cons.mpr ⟨hwhole, hrest.whole⟩⟩

/-- What the checks of one span ask. -/
structure HeadFits (text : Bytes) (previousEnd : Nat) (line : Option Nat) (span : Span) : Prop where
  line : ∀ expected ∈ line, span.line = expected
  start : previousEnd ≤ span.start
  inside : span.start < span.stop ∧ span.stop ≤ text.length
  whole : utf8Boundary text span.start ∧ utf8Boundary text span.stop

/-- Spans that fit behind a place, on a line if one is known. -/
structure FitBehind (text : Bytes) (previousEnd : Nat) (line : Option Nat) (spans : List Span) :
    Prop where
  fit : SpansFit text spans
  start : ∀ s ∈ spans, previousEnd ≤ s.start
  line : ∀ expected ∈ line, ∀ s ∈ spans, s.line = expected

variable {previousEnd : Nat} {line : Option Nat}

theorem fitBehind_cons : FitBehind text previousEnd line (span :: spans) ↔
    HeadFits text previousEnd line span ∧ FitBehind text span.stop (some span.line) spans := by
  constructor
  · intro ⟨hfit, hstart, hline⟩
    obtain ⟨hinside, hwhole, hlater, hlines, hrest⟩ := spansFit_cons.mp hfit
    exact ⟨⟨fun e he => hline e he span mem_cons_self, hstart span mem_cons_self, hinside,
      hwhole⟩, hrest, hlater, fun e he => Option.some.inj he ▸ hlines⟩
  intro ⟨hhead, hrest⟩
  have hlines := hrest.line span.line rfl
  refine ⟨spansFit_cons.mpr ⟨hhead.inside, hhead.whole, hrest.start, hlines, hrest.fit⟩,
    forall_mem_cons.mpr ⟨hhead.start, fun s hs => ?_⟩, fun e he =>
      forall_mem_cons.mpr ⟨hhead.line e he, fun s hs => (hlines s hs).trans (hhead.line e he)⟩⟩
  have hbehind := hrest.start s hs
  have hbefore := hhead.start
  have hlt := hhead.inside.1
  omega

theorem validateSpansFrom_head (h : HeadFits text previousEnd line span) :
    validateSpansFrom text previousEnd line (span :: spans) =
      validateSpansFrom text span.stop (some span.line) spans := by
  have hline : line.any (fun expected => decide (span.line ≠ expected)) = false := by
    cases line with
    | none => rfl
    | some expected => simpa using h.line expected rfl
  have hrange : ¬(span.stop ≤ span.start ∨ span.start < previousEnd ∨ text.length < span.stop) := by
    have hstart := h.start
    have hinside := h.inside
    omega
  rw [validateSpansFrom, hline, if_neg (by simp), if_neg hrange, h.whole.1, h.whole.2]
  rfl

theorem validateSpansFrom_not (h : ¬HeadFits text previousEnd line span) :
    validateSpansFrom text previousEnd line (span :: spans) = .error .invalidSpan := by
  rw [validateSpansFrom]
  split
  · rfl
  rename_i hline
  split
  · rfl
  rename_i hrange
  split
  · rfl
  rename_i hwhole
  refine absurd ⟨fun e he => ?_, by omega, by omega, by simpa using hwhole⟩ h
  cases he
  simpa using hline

theorem validateSpansFrom_eq (text : Bytes) (previousEnd : Nat) (line : Option Nat)
    (spans : List Span) :
    (validateSpansFrom text previousEnd line spans = .ok () ∧ FitBehind text previousEnd line spans) ∨
      (validateSpansFrom text previousEnd line spans = .error .invalidSpan ∧
        ¬FitBehind text previousEnd line spans) := by
  induction spans generalizing previousEnd line with
  | nil => exact .inl ⟨rfl, spansFit_nil, by simp, by simp⟩
  | cons span spans ih =>
    by_cases h : HeadFits text previousEnd line span
    · simpa [validateSpansFrom_head h, fitBehind_cons, h] using ih span.stop (some span.line)
    · simp [validateSpansFrom_not h, fitBehind_cons, h]

theorem validateSpans_eq (text : Bytes) (spans : List Span) :
    (validateSpans text spans = .ok () ∧ SpansFit text spans) ∨
      (validateSpans text spans = .error .invalidSpan ∧ ¬SpansFit text spans) := by
  have hfit : FitBehind text 0 none spans ↔ SpansFit text spans :=
    ⟨fun h => h.fit, fun h => ⟨h, by simp, by simp⟩⟩
  simpa only [validateSpans, hfit] using validateSpansFrom_eq text 0 none spans

theorem partition_cons : Partition text (segment :: emphasis) ↔
    segment.text ≠ [] ∧ segment.text <+: text ∧ Partition (text.drop segment.text.length) emphasis := by
  constructor
  · intro h
    have hflat := h.flat
    rw [flatMap_cons] at hflat
    refine ⟨h.nonempty segment mem_cons_self, ⟨_, hflat⟩, ?_,
      fun s hs => h.nonempty s (mem_cons_of_mem _ hs)⟩
    rw [← hflat, drop_left]
  · intro ⟨hne, ⟨rest, hrest⟩, h⟩
    refine ⟨?_, forall_mem_cons.mpr ⟨hne, h.nonempty⟩⟩
    have hflat := h.flat
    rw [← hrest, drop_left] at hflat
    rw [flatMap_cons, hflat, hrest]

theorem validateEmphasisFrom_eq (emphasis : List Segment) {offset : Nat} (h : offset ≤ text.length) :
    (validateEmphasisFrom text offset emphasis = .ok () ∧ Partition (text.drop offset) emphasis) ∨
      (validateEmphasisFrom text offset emphasis = .error .invalidEmphasis ∧
        ¬Partition (text.drop offset) emphasis) := by
  induction emphasis generalizing offset with
  | nil =>
    by_cases hend : offset = text.length
    · exact .inl ⟨by simp [validateEmphasisFrom, hend], by simp [hend], by simp⟩
    refine .inr ⟨by simp [validateEmphasisFrom, hend], fun hflat => ?_⟩
    have := congrArg length hflat.flat
    simp at this
    omega
  | cons segment emphasis ih =>
    rw [validateEmphasisFrom]
    split
    · next hbad =>
      refine .inr ⟨rfl, fun hpart => ?_⟩
      obtain ⟨hne, hpre, -⟩ := partition_cons.mp hpart
      have hpos := length_pos_iff.mpr hne
      have hle := hpre.length_le
      rw [length_drop] at hle
      omega
    · next hfits =>
      have hne : segment.text ≠ [] := fun hnil => hfits (.inl (by simp [hnil]))
      split
      · next hdiff =>
        refine .inr ⟨rfl, fun hpart => hdiff ?_⟩
        exact (prefix_iff_eq_take.mp (partition_cons.mp hpart).2.1).symm
      · next hsame =>
        have hpre : segment.text <+: text.drop offset := prefix_iff_eq_take.mpr (not_not.mp hsame).symm
        simpa [partition_cons, hne, hpre, drop_drop] using @ih (offset + segment.text.length) (by omega)

theorem validateEmphasis_eq (text : Bytes) (emphasis : List Segment) :
    (validateEmphasis text emphasis = .ok () ∧ EmphasisFits text emphasis) ∨
      (validateEmphasis text emphasis = .error .invalidEmphasis ∧ ¬EmphasisFits text emphasis) := by
  by_cases h : emphasis = []
  · simp [validateEmphasis, EmphasisFits, h]
  · simpa [validateEmphasis, EmphasisFits, h] using
      validateEmphasisFrom_eq emphasis (Nat.zero_le text.length)

end Validation

/-- Segments with the places where they begin. -/
def placed : Nat → List Segment → List (Nat × Segment)
  | _, [] => []
  | offset, segment :: emphasis =>
    (offset, segment) :: placed (offset + segment.text.length) emphasis

def placedEnd (place : Nat × Segment) : Nat := place.1 + place.2.text.length

/-- The emphasis of the segment that contains a byte. -/
def emphasisAt : List Segment → Nat → Bool
  | [], _ => false
  | segment :: emphasis, i =>
    if i < segment.text.length then segment.emphasis
    else emphasisAt emphasis (i - segment.text.length)

section Placed

variable {segment : Segment} {emphasis : List Segment} {offset start i : Nat}

@[simp] theorem firstLength_cons : firstLength (segment :: emphasis) = segment.text.length := rfl

theorem passSegments_placed (start offset : Nat) (emphasis : List Segment) :
    ∃ offset' rest, passSegments start (offset + firstLength emphasis) emphasis =
        (offset' + firstLength rest, rest) ∧
      placed offset' rest = ahead placedEnd (placed offset emphasis) start := by
  induction emphasis generalizing offset with
  | nil => exact ⟨offset, [], rfl, rfl⟩
  | cons segment emphasis ih =>
    rw [firstLength_cons, passSegments]
    by_cases h : offset + segment.text.length ≤ start
    · have hstop : placedEnd (offset, segment) ≤ start := h
      rw [if_pos h, placed, ahead_ended hstop]
      exact ih (offset + segment.text.length)
    · have hstop : ¬placedEnd (offset, segment) ≤ start := h
      rw [if_neg h, placed, ahead_open hstop]
      exact ⟨offset, segment :: emphasis, rfl, rfl⟩

variable {place : Nat × Segment}

theorem placed_start (h : place ∈ placed offset emphasis) : offset ≤ place.1 := by
  induction emphasis generalizing offset with
  | nil => cases h
  | cons segment emphasis ih =>
    cases mem_cons.mp h with
    | inl heq => exact heq ▸ Nat.le_refl offset
    | inr hmem => exact Nat.le_trans (Nat.le_add_right _ _) (ih hmem)

theorem placed_apart (offset : Nat) (emphasis : List Segment) :
    Lib.Apart Prod.fst placedEnd (placed offset emphasis) := by
  induction emphasis generalizing offset with
  | nil => exact .nil
  | cons segment emphasis ih =>
    exact pairwise_cons.mpr ⟨fun _ h => placed_start h, ih _⟩

theorem placed_segment (h : place ∈ placed offset emphasis) : place.2 ∈ emphasis := by
  induction emphasis generalizing offset with
  | nil => cases h
  | cons segment emphasis ih =>
    cases mem_cons.mp h with
    | inl heq => exact heq ▸ mem_cons_self
    | inr hmem => exact mem_cons_of_mem _ (ih hmem)

theorem placed_ends (offset : Nat) (emphasis : List Segment) :
    (placed offset emphasis).map placedEnd = segmentEnds offset emphasis := by
  induction emphasis generalizing offset with
  | nil => rfl
  | cons segment emphasis ih => rw [placed, map_cons, ih, segmentEnds, placedEnd]

theorem placed_begin (h : place ∈ placed offset emphasis) :
    place.1 = offset ∨ place.1 ∈ segmentEnds offset emphasis := by
  induction emphasis generalizing offset with
  | nil => cases h
  | cons segment emphasis ih =>
    rw [segmentEnds, mem_cons]
    cases mem_cons.mp h with
    | inl heq => exact .inl (heq ▸ rfl)
    | inr hmem => exact .inr (ih hmem)

theorem emphasisAt_covering (offset i : Nat) (emphasis : List Segment) :
    (covering Prod.fst placedEnd (placed offset emphasis) (offset + i)).any (fun p => p.2.emphasis) =
      emphasisAt emphasis i := by
  induction emphasis generalizing offset i with
  | nil => rfl
  | cons segment emphasis ih =>
    rw [placed, covering, emphasisAt]
    by_cases h : i < segment.text.length
    · rw [find?_cons_of_pos (by simp [placedEnd, h]), if_pos h]
      rfl
    · have hi : offset + i = offset + segment.text.length + (i - segment.text.length) := by omega
      rw [find?_cons_of_neg (by simp [placedEnd]; omega), if_neg h, hi]
      exact ih _ _

theorem ahead_begun (emphasis : List Segment) (h : offset ≤ i) :
    ∀ place ∈ (ahead placedEnd (placed offset emphasis) i).head?, place.1 ≤ i := by
  induction emphasis generalizing offset with
  | nil => simp [placed, ahead]
  | cons segment emphasis ih =>
    by_cases hstop : placedEnd (offset, segment) ≤ i
    · rw [placed, ahead_ended hstop]
      exact ih hstop
    · rw [placed, ahead_open hstop]
      simpa using h

end Placed

/-- The capture of the span that contains a byte. -/
def captureAt (spans : List Span) (i : Nat) : Option Nat :=
  (covering Span.start Span.stop spans i).map Span.capture

def Run.bytes (run : Run) : List (UInt8 × Option Nat × Bool) :=
  run.text.map (fun b => (b, run.capture, run.emphasis))

/-- Runs with bytes that make up the Line and have the capture and the emphasis of their places. -/
structure Exact (text : Bytes) (spans : List Span) (emphasis : List Segment) (runs : List Run) :
    Prop where
  nonempty : ∀ run ∈ runs, run.text ≠ []
  flat : runs.flatMap Run.text = text
  bytes : runs.flatMap Run.bytes =
    text.zipIdx.map (fun p => (p.1, captureAt spans p.2, emphasisAt emphasis p.2))

def pieceRun (text : Bytes) (spans : List Span) (places : List (Nat × Segment)) (piece : Nat × Nat) :
    Run where
  text := (text.drop piece.1).take (piece.2 - piece.1)
  capture := pieceCapture (ahead Span.stop spans piece.1) piece.1 piece.2
  emphasis := (ahead placedEnd places piece.1).head?.any (fun p => p.2.emphasis)

section Runs

variable {text : Bytes} {spans : List Span} {emphasis : List Segment} {offset : Nat} {cuts : List Nat}

theorem headEmphasis_placed (offset : Nat) (emphasis : List Segment) :
    headEmphasis emphasis = (placed offset emphasis).head?.any (fun p => p.2.emphasis) := by
  cases emphasis <;> rfl

/-- The cursors of the sweep stand where each piece alone would set them. -/
theorem runsBetween_eq (text : Bytes) (spans : List Span) (offset : Nat) (emphasis : List Segment)
    (h : cuts.Pairwise (· < ·)) :
    runsBetween text spans (offset + firstLength emphasis) emphasis cuts =
      (pieces cuts).map (pieceRun text spans (placed offset emphasis)) := by
  induction cuts generalizing spans offset emphasis with
  | nil => rfl
  | cons start cuts ih =>
    cases cuts with
    | nil => rfl
    | cons stop cuts =>
      obtain ⟨hfirst, hrest⟩ := pairwise_cons.mp h
      obtain ⟨offset', rest, hpass, hplaced⟩ := passSegments_placed start offset emphasis
      rw [runsBetween, hpass, pieces_cons_cons, map_cons, ih _ _ _ hrest, hplaced]
      congr 1
      · rw [pieceRun, headEmphasis_placed offset' rest, hplaced]
      · refine map_congr_left (fun piece hpiece => ?_)
        have hlater : start ≤ piece.1 := Nat.le_of_lt (hfirst _ (pieces_uncut hrest hpiece).2.1)
        rw [pieceRun, ahead_ahead hlater, ahead_ahead hlater, ← pieceRun]

theorem mem_boundaries {c : Nat} : c ∈ boundaries text spans emphasis ↔
    c = 0 ∨ c = text.length ∨ (∃ span ∈ spans, c = span.start ∨ c = span.stop) ∨
      c ∈ segmentEnds 0 emphasis := by
  simp [boundaries, mem_cutsOf]

theorem segmentEnds_le {rest : Bytes} (h : Partition rest emphasis) :
    ∀ c ∈ segmentEnds offset emphasis, c ≤ offset + rest.length := by
  induction emphasis generalizing offset rest with
  | nil => simp [segmentEnds]
  | cons segment emphasis ih =>
    obtain ⟨-, hpre, hrest⟩ := partition_cons.mp h
    have hle := hpre.length_le
    refine forall_mem_cons.mpr ⟨by omega, fun c hc => ?_⟩
    have hc := ih hrest c hc
    rw [length_drop] at hc
    omega

theorem boundaries_le (hspans : SpansFit text spans) (hemphasis : EmphasisFits text emphasis) :
    ∀ c ∈ boundaries text spans emphasis, c ≤ text.length := by
  intro c hc
  rcases mem_boundaries.mp hc with rfl | rfl | ⟨span, hspan, hc⟩ | hc
  · exact Nat.zero_le _
  · exact Nat.le_refl _
  · have hinside := hspans.inside span hspan
    omega
  · cases hemphasis with
    | inl hnil => simp [hnil, segmentEnds] at hc
    | inr hpart => simpa using segmentEnds_le hpart c hc

theorem boundaries_range (hspans : SpansFit text spans) (hemphasis : EmphasisFits text emphasis) :
    ∃ cuts, boundaries text spans emphasis = 0 :: cuts ∧ cuts.getLastD 0 = text.length :=
  cutsOf_range (by simp) (by simp) (fun c hc => boundaries_le hspans hemphasis c (mem_cutsOf.mpr hc))

section Piece

variable {piece : Nat × Nat} (hpiece : piece ∈ pieces (boundaries text spans emphasis))

include hpiece

theorem piece_uncut {c : Nat} (h : c ∈ boundaries text spans emphasis) : c ≤ piece.1 ∨ piece.2 ≤ c :=
  (pieces_uncut (cutsOf_sorted _) hpiece).2.2.2 c h

theorem spans_uncut : ∀ span ∈ spans,
    (span.start ≤ piece.1 ∨ piece.2 ≤ span.start) ∧ (span.stop ≤ piece.1 ∨ piece.2 ≤ span.stop) :=
  fun span hspan =>
    ⟨piece_uncut hpiece (mem_boundaries.mpr (.inr (.inr (.inl ⟨span, hspan, .inl rfl⟩)))),
      piece_uncut hpiece (mem_boundaries.mpr (.inr (.inr (.inl ⟨span, hspan, .inr rfl⟩))))⟩

theorem segments_uncut : ∀ place ∈ placed 0 emphasis, (place.1 ≤ piece.1 ∨ piece.2 ≤ place.1) ∧
      (placedEnd place ≤ piece.1 ∨ piece.2 ≤ placedEnd place) := by
  intro place hplace
  constructor
  · cases placed_begin hplace with
    | inl hzero => exact .inl (hzero ▸ Nat.zero_le _)
    | inr hmem => exact piece_uncut hpiece (mem_boundaries.mpr (.inr (.inr (.inr hmem))))
  · refine piece_uncut hpiece (mem_boundaries.mpr (.inr (.inr (.inr ?_))))
    exact placed_ends 0 emphasis ▸ mem_map_of_mem hplace

theorem pieceCapture_eq (hspans : SpansFit text spans) :
    pieceCapture (ahead Span.stop spans piece.1) piece.1 piece.2 = captureAt spans piece.1 := by
  rw [captureAt, covering_eq hspans.apart (fun s hs => (hspans.inside s hs).1)]
  cases hahead : ahead Span.stop spans piece.1 with
  | nil => rfl
  | cons span rest =>
    obtain ⟨hmem, hopen⟩ := ahead_cons hahead
    have hstop := (spans_uncut hpiece span hmem).2
    by_cases hstart : span.start ≤ piece.1
    · rw [pieceCapture, if_pos ⟨hstart, by omega⟩]
      simp [Option.filter, hstart]
    · rw [pieceCapture, if_neg (by omega)]
      simp [Option.filter, hstart]

omit hpiece in
theorem pieceEmphasis_eq (hemphasis : EmphasisFits text emphasis) :
    (ahead placedEnd (placed 0 emphasis) piece.1).head?.any (fun p => p.2.emphasis) =
      emphasisAt emphasis piece.1 := by
  have hpos : ∀ place ∈ placed 0 emphasis, place.1 < placedEnd place := by
    intro place hplace
    cases hemphasis with
    | inl hnil => simp [hnil, placed] at hplace
    | inr hpart =>
      have := length_pos_iff.mpr (hpart.nonempty _ (placed_segment hplace))
      rw [placedEnd]
      omega
  have hcover := emphasisAt_covering 0 piece.1 emphasis
  rw [Nat.zero_add, covering_eq (placed_apart 0 emphasis) hpos] at hcover
  have hbegun := ahead_begun emphasis (Nat.zero_le piece.1)
  rw [← hcover]
  cases hhead : (ahead placedEnd (placed 0 emphasis) piece.1).head? with
  | none => rfl
  | some place => simp [hbegun place hhead]

variable {i : Nat}

theorem captureAt_piece (hi : piece.1 ≤ i ∧ i < piece.2) :
    captureAt spans i = captureAt spans piece.1 := by
  rw [captureAt, captureAt, covering_const hi (spans_uncut hpiece)]

theorem emphasisAt_piece (hi : piece.1 ≤ i ∧ i < piece.2) :
    emphasisAt emphasis i = emphasisAt emphasis piece.1 := by
  have hconst := covering_const hi (segments_uncut hpiece)
  have hleft := emphasisAt_covering 0 i emphasis
  have hright := emphasisAt_covering 0 piece.1 emphasis
  rw [Nat.zero_add] at hleft hright
  rw [← hleft, ← hright, hconst]

theorem pieceRun_bytes (hspans : SpansFit text spans) (hemphasis : EmphasisFits text emphasis)
    (hle : piece.2 ≤ text.length) :
    (pieceRun text spans (placed 0 emphasis) piece).bytes =
      (List.range' piece.1 (piece.2 - piece.1)).map
        (fun i => (text.getD i 0, captureAt spans i, emphasisAt emphasis i)) := by
  rw [Run.bytes, pieceRun, pieceCapture_eq hpiece hspans, pieceEmphasis_eq hemphasis,
    piece_slice text 0 hle, map_map]
  refine map_congr_left (fun i hi => ?_)
  have hi' : piece.1 ≤ i ∧ i < piece.2 := by
    have := mem_range'_1.mp hi
    omega
  rw [captureAt_piece hpiece hi', emphasisAt_piece hpiece hi']
  rfl

end Piece

theorem flatMap_text (runs : List Run) :
    runs.flatMap Run.text = (runs.flatMap Run.bytes).map Prod.fst := by
  induction runs with
  | nil => rfl
  | cons run runs ih => simp [ih, Run.bytes, Function.comp_def]

theorem zipIdx_range (text : Bytes) {β : Type} (f : Nat → β) : text.zipIdx.map (fun p => (p.1, f p.2)) =
      (List.range' 0 text.length).map (fun i => (text.getD i 0, f i)) := by
  refine ext_getElem (by simp) (fun i hi _ => ?_)
  have hlt : i < text.length := by simpa using hi
  simp [hlt]

theorem runsBetween_exact (hspans : SpansFit text spans) (hemphasis : EmphasisFits text emphasis) :
    Exact text spans emphasis
      (runsBetween text spans (firstLength emphasis) emphasis (boundaries text spans emphasis)) := by
  obtain ⟨cuts, hcuts, hlast⟩ := boundaries_range hspans hemphasis
  have hsorted : (boundaries text spans emphasis).Pairwise (· < ·) := cutsOf_sorted _
  have hruns := runsBetween_eq text spans 0 emphasis hsorted
  rw [Nat.zero_add] at hruns
  have hle : ∀ piece ∈ pieces (boundaries text spans emphasis),
      piece.1 < piece.2 ∧ piece.2 ≤ text.length := by
    intro piece hpiece
    obtain ⟨hlt, -, hstop, -⟩ := pieces_uncut hsorted hpiece
    exact ⟨hlt, boundaries_le hspans hemphasis _ hstop⟩
  have hbytes : (runsBetween text spans (firstLength emphasis) emphasis
      (boundaries text spans emphasis)).flatMap Run.bytes =
        text.zipIdx.map (fun p => (p.1, captureAt spans p.2, emphasisAt emphasis p.2)) := by
    rw [hruns, flatMap_map, zipIdx_range text (fun i => (captureAt spans i, emphasisAt emphasis i))]
    rw [hcuts] at hsorted hle ⊢
    rw [flatMap_pieces hsorted (fun piece hpiece =>
      pieceRun_bytes (hcuts ▸ hpiece) hspans hemphasis (hle piece hpiece).2), hlast, Nat.sub_zero]
  refine ⟨fun run hrun => ?_, ?_, hbytes⟩
  · rw [hruns] at hrun
    obtain ⟨piece, hpiece, rfl⟩ := mem_map.mp hrun
    have hpos := hle piece hpiece
    have hlen : 0 < (pieceRun text spans (placed 0 emphasis) piece).text.length := by
      simp [pieceRun]
      omega
    exact length_pos_iff.mp hlen
  · rw [flatMap_text, hbytes, map_map]
    exact zipIdx_map_fst 0 text

end Runs

theorem decorate_ok {text : Bytes} {spans : List Span} {emphasis : List Segment}
    (hspans : SpansFit text spans) (hemphasis : EmphasisFits text emphasis) :
    ∃ runs, decorate text spans emphasis = .ok runs ∧ Exact text spans emphasis runs := by
  have hvalid : validateSpans text spans = .ok () := by
    simpa [hspans] using validateSpans_eq text spans
  have hemph : validateEmphasis text emphasis = .ok () := by
    simpa [hemphasis] using validateEmphasis_eq text emphasis
  rw [decorate, hvalid, hemph]
  by_cases hnil : text = []
  · exact ⟨[], if_pos hnil, by simp, by simp [hnil], by simp [hnil]⟩
  · exact ⟨_, if_neg hnil, runsBetween_exact hspans hemphasis⟩

/-- The runs of what fits are exact, all else is rejected, and the segments of either side of a pair of
Lines fit. -/
theorem decorate_exact (text : Bytes) (spans : List Span) (emphasis : List Segment) :
    (match decorate text spans emphasis with
      | .ok runs => SpansFit text spans ∧ EmphasisFits text emphasis ∧ Exact text spans emphasis runs
      | .error .invalidSpan => ¬SpansFit text spans
      | .error .invalidEmphasis => ¬EmphasisFits text emphasis) ∧
    ∀ other, EmphasisFits text (wordDiff text other).old ∧ EmphasisFits text (wordDiff other text).new := by
  refine ⟨?_, fun other => ⟨.inr (wordDiff_partition text other).1, .inr (wordDiff_partition other text).2⟩⟩
  cases validateSpans_eq text spans with
  | inr hspans =>
    rw [decorate, hspans.1]
    exact hspans.2
  | inl hspans =>
    cases validateEmphasis_eq text emphasis with
    | inr hemphasis =>
      rw [decorate, hspans.1, hemphasis.1]
      exact hemphasis.2
    | inl hemphasis =>
      obtain ⟨runs, hruns, hexact⟩ := decorate_ok hspans.2 hemphasis.2
      rw [hruns]
      exact ⟨hspans.2, hemphasis.2, hexact⟩

/-- A span that splits a character lies inside its Line, and is rejected. -/
theorem split_rejected : ¬∀ (text : Bytes) (spans : List Span) (emphasis : List Segment),
    (∀ span ∈ spans, span.start < span.stop ∧ span.stop ≤ text.length) →
      Lib.Apart Span.start Span.stop spans → (∀ a ∈ spans, ∀ b ∈ spans, a.line = b.line) →
        EmphasisFits text emphasis → ∃ runs, decorate text spans emphasis = .ok runs := by
  intro h
  obtain ⟨runs, hruns⟩ := h [0xc3, 0xa9] [{ line := 1, start := 1, stop := 2, capture := 0 }] []
    (by simp) (by simp [Lib.Apart]) (by simp) (.inl rfl)
  cases hruns

end Bbr.Highlight
