import Bbr.Highlight.CaptureLines
import Bbr.Highlight.CaptureSweep

/-!
# The sweep paints the bytes

Both the sweep and the byte planes give the spans that the labelled bytes make up, one pushed after the
other.
-/
namespace Bbr.Highlight

open Bbr.Tui List

variable {content : Bytes} {labels : Nat → Option Nat} {spans : List Span}

theorem appendPieces_eq {pieces : List Piece} {state : LineState} {p q : Nat}
    (hstate : StandsAt content state state.scannedTo) (hle : state.scannedTo ≤ p)
    (h : Tells labels p pieces q) :
    (pieces.foldl (appendIntervalSpans content) (state, spans)).2 = pushBytes content labels p q spans := by
  induction pieces generalizing state spans p with
  | nil => exact (pushBytes_none h.2).symm
  | cons piece pieces ih =>
    obtain ⟨hpiece, hbefore, hinside, hrest⟩ := h
    have hpassed : StandsAt content (passLines content piece.start piece.start state) piece.start :=
      passLines_stands hstate (Nat.le_trans hle hpiece.1) (by omega)
    obtain ⟨hspans, hstands⟩ := pushParts_spec spans hpassed (Nat.le_of_lt hpiece.2) (Nat.le_refl _)
      hinside
    rw [foldl_cons, appendIntervalSpans]
    rw [hspans, ← pushBytes_append hpiece.1 (Nat.le_trans (Nat.le_of_lt hpiece.2) hrest.le),
      pushBytes_none hbefore, ← pushBytes_append (Nat.le_of_lt hpiece.2) hrest.le]
    have hmax := Nat.max_eq_right hstands.scannedTo
    refine ih ?_ ?_ hrest
    · dsimp only
      rw [hmax]
      exact ⟨hstands.line, hstands.lineStart, Nat.le_refl _⟩
    · dsimp only
      exact Nat.le_of_eq hmax

theorem mergeCaptureIntervals_bytes {intervals : List CaptureInterval}
    (h : InMatchOrder content intervals) :
    mergeCaptureIntervals content intervals = pushBytes content (label intervals) 0 content.length [] :=
  appendPieces_eq ⟨rfl, rfl, Nat.le_refl _⟩ (Nat.le_refl _) (sweep_tells h)

def Precedes (a b : Span) : Prop := a.line < b.line ∨ a.line = b.line ∧ a.stop ≤ b.start

/-- Spans of at least one byte, sorted by line and start and disjoint. -/
structure InOrder (spans : List Span) : Prop where
  nonempty : ∀ s ∈ spans, s.start < s.stop
  order : spans.Pairwise Precedes

/-- All the spans end before a place. -/
structure Before (content : Bytes) (spans : List Span) (p : Nat) : Prop extends InOrder spans where
  ends : ∀ s ∈ spans, s.line < lineAt content p ∨
    s.line = lineAt content p ∧ s.stop + startAt content p ≤ p

section Order

variable {p q k : Nat} {span : Span}

theorem before_nil (content : Bytes) (p : Nat) : Before content [] p where
  nonempty := by simp
  order := .nil
  ends := by simp

theorem InOrder.pushSpan (h : InOrder spans) (hspan : span.start < span.stop)
    (hbehind : ∀ s ∈ spans, Precedes s span) : InOrder (pushSpan spans span) := by
  rcases eq_nil_or_concat spans with rfl | ⟨init, previous, rfl⟩
  · exact ⟨by simpa using hspan, pairwise_singleton _ _⟩
  rw [concat_eq_append] at *
  obtain ⟨hinit, -, hprevious⟩ := pairwise_append.mp h.order
  have hlast := h.nonempty previous (by simp)
  have hnonempty : ∀ s ∈ init, s.start < s.stop := fun s hs => h.nonempty s (by simp [hs])
  by_cases hlonger : previous.line = span.line ∧ previous.stop = span.start ∧
    previous.capture = span.capture
  · rw [pushSpan_longer init hlonger]
    refine ⟨?_, pairwise_append.mpr ⟨hinit, pairwise_singleton _ _, fun a ha b hb => ?_⟩⟩
    · intro s hs
      cases mem_append.mp hs with
      | inl hs => exact hnonempty s hs
      | inr hs =>
        rw [mem_singleton.mp hs]
        dsimp only
        omega
    · rw [mem_singleton.mp hb]
      exact hprevious a ha previous (by simp)
  · rw [pushSpan_apart init hlonger, append_cons]
    refine ⟨?_, pairwise_append.mpr ⟨h.order, pairwise_singleton _ _, fun a ha b hb => ?_⟩⟩
    · intro s hs
      cases mem_append.mp hs with
      | inl hs => exact h.nonempty s hs
      | inr hs => exact mem_singleton.mp hs ▸ hspan
    · exact mem_singleton.mp hb ▸ hbehind a ha

/-- What is pushed keeps to what all others and the new span keep to. -/
theorem forall_mem_pushSpan {P : Span → Prop} (h : ∀ s ∈ spans, P s) (hspan : P span)
    (hlonger : ∀ s ∈ spans, s.line = span.line → P { s with stop := span.stop }) :
    ∀ s ∈ pushSpan spans span, P s := by
  rcases eq_nil_or_concat spans with rfl | ⟨init, previous, rfl⟩
  · simpa using hspan
  rw [concat_eq_append] at *
  by_cases hlast : previous.line = span.line ∧ previous.stop = span.start ∧
    previous.capture = span.capture
  · rw [pushSpan_longer init hlast]
    intro s hs
    cases mem_append.mp hs with
    | inl hs => exact h s (by simp [hs])
    | inr hs => exact mem_singleton.mp hs ▸ hlonger previous (by simp) hlast.1
  · rw [pushSpan_apart init hlast, append_cons]
    intro s hs
    cases mem_append.mp hs with
    | inl hs => exact h s hs
    | inr hs => exact mem_singleton.mp hs ▸ hspan

theorem Before.next (h : Before content spans k) : Before content spans (k + 1) := by
  refine ⟨h.toInOrder, fun s hs => ?_⟩
  have hends := h.ends s hs
  by_cases hfeed : content[k]? = some lineFeed
  · rw [lineAt_newline hfeed]
    omega
  · rw [lineAt_same hfeed, startAt_same hfeed]
    omega

theorem Before.pushByte (h : Before content spans k) :
    Before content (pushByte content labels spans k) (k + 1) := by
  by_cases hfeed : content[k]? = some lineFeed
  · rw [pushByte_newline hfeed]
    exact h.next
  cases hlabel : labels k with
  | none =>
    rw [Highlight.pushByte, if_neg hfeed, hlabel]
    exact h.next
  | some captureId =>
    have hle := startAt_le content k
    rw [pushByte_some hfeed hlabel]
    refine ⟨h.toInOrder.pushSpan (by dsimp only; omega) (fun s hs => ?_),
      forall_mem_pushSpan h.next.ends ?_ (fun s hs hline => ?_)⟩
    · have hends := h.ends s hs
      rw [Precedes]
      dsimp only
      omega
    · rw [lineAt_same hfeed, startAt_same hfeed]
      dsimp only
      omega
    · rw [lineAt_same hfeed, startAt_same hfeed]
      dsimp only at hline ⊢
      omega

theorem Before.pushBytes (h : Before content spans p) (hle : p ≤ q) :
    Before content (pushBytes content labels p q spans) q := by
  induction q with
  | zero =>
    obtain rfl := Nat.le_zero.mp hle
    rwa [pushBytes_self]
  | succ q ih =>
    by_cases hpq : p ≤ q
    · rw [pushBytes_succ hpq]
      exact (ih hpq).pushByte
    · obtain rfl : p = q + 1 := by omega
      rwa [pushBytes_self]

end Order

/-- The last span is on an earlier line, or ends before a place of the line, or there with another
capture. -/
def Detached (content : Bytes) (labels : Nat → Option Nat) (spans : List Span) (p : Nat) : Prop :=
  ∀ previous ∈ spans.getLast?, previous.line < lineAt content p ∨ previous.line = lineAt content p ∧
    (previous.stop + startAt content p < p ∨
      previous.stop + startAt content p = p ∧ labels p ≠ some previous.capture)

section Reference

variable {captureId p q line lineStart : Nat}

theorem runEnd_spec {fuel : Nat} (hle : p ≤ q) (hfuel : q - p ≤ fuel) :
    (p ≤ runEnd labels captureId q fuel p ∧ runEnd labels captureId q fuel p ≤ q) ∧
      (∀ k, p ≤ k → k < runEnd labels captureId q fuel p → labels k = some captureId) ∧
        (runEnd labels captureId q fuel p < q →
          labels (runEnd labels captureId q fuel p) ≠ some captureId) := by
  induction fuel generalizing p with
  | zero => exact ⟨⟨Nat.le_refl p, hle⟩, fun k hk hlt => absurd hlt (Nat.not_lt.mpr hk), by rw [runEnd]; omega⟩
  | succ fuel ih =>
    rw [runEnd]
    by_cases hrun : p < q ∧ labels p = some captureId
    · rw [if_pos hrun]
      obtain ⟨hrange, hlabels, hend⟩ := @ih (p + 1) (by omega) (by omega)
      refine ⟨⟨by omega, hrange.2⟩, fun k hk hlt => ?_, hend⟩
      by_cases hpk : p = k
      · exact hpk ▸ hrun.2
      · exact hlabels k (by omega) hlt
    · rw [if_neg hrun]
      exact ⟨⟨Nat.le_refl p, hle⟩, fun k hk hlt => absurd hlt (Nat.not_lt.mpr hk),
        fun hlt hlabel => hrun ⟨hlt, hlabel⟩⟩

theorem Detached.pushSpan (h : Detached content labels spans p) (hlabel : labels p = some captureId)
    (stop : Nat) :
    pushSpan spans
      { line := lineAt content p, start := p - startAt content p, stop := stop, capture := captureId } =
      spans ++
        [{ line := lineAt content p, start := p - startAt content p, stop := stop,
           capture := captureId }] := by
  rcases eq_nil_or_concat spans with rfl | ⟨init, previous, rfl⟩
  · rfl
  rw [concat_eq_append] at h ⊢
  have hprevious := h previous (by simp)
  rw [pushSpan_apart init, append_assoc]
  · rfl
  · rintro ⟨hline, hstop, hcapture⟩
    dsimp only at hline hstop hcapture
    rcases hprevious with hbefore | ⟨-, hbefore | ⟨-, hne⟩⟩
    · omega
    · omega
    · exact hne (hcapture ▸ hlabel)

theorem lineRuns_eq {fuel : Nat} (hline : lineAt content p = line) (hstart : startAt content p = lineStart)
    (hone : OneLine content p q) (hle : p ≤ q) (hfuel : q - p ≤ fuel)
    (hdetached : p < q → Detached content labels spans p) :
    spans ++ lineRuns labels line lineStart q fuel p = pushBytes content labels p q spans := by
  induction fuel generalizing p spans with
  | zero =>
    obtain rfl : p = q := by omega
    rw [lineRuns, append_nil, pushBytes_self]
  | succ fuel ih =>
    rw [lineRuns]
    by_cases hlt : p < q
    · rw [if_pos hlt]
      have hfeed := hone p (Nat.le_refl p) hlt
      have hle_start := startAt_le content p
      cases hlabel : labels p with
      | none =>
        have hpush : pushBytes content labels p (p + 1) spans = spans :=
          pushBytes_none (fun k hk hkp => by rw [show k = p by omega, hlabel])
        rw [← pushBytes_append (Nat.le_succ p) hlt, hpush]
        refine ih ((lineAt_same hfeed).trans hline) ((startAt_same hfeed).trans hstart)
          (fun k hk hkq => hone k (by omega) hkq) hlt (by omega) (fun _ previous hprevious => ?_)
        rw [lineAt_same hfeed, startAt_same hfeed]
        have hp := hdetached hlt previous hprevious
        omega
      | some captureId =>
        dsimp only
        obtain ⟨hrange, hrun, hend⟩ := @runEnd_spec labels captureId (p + 1) q (q - (p + 1)) hlt
          (Nat.le_refl _)
        generalize runEnd labels captureId q (q - (p + 1)) (p + 1) = stop at *
        have hone' : OneLine content p stop := fun k hk hks => hone k hk (by omega)
        have hpart := @pushBytes_part content labels captureId p stop spans hone' hrange.1 (fun k hk hks => by
          by_cases hpk : p = k
          · exact hpk ▸ hlabel
          · exact hrun k (by omega) hks)
        rw [(hdetached hlt).pushSpan hlabel] at hpart
        rw [hline, hstart] at hpart
        rw [← pushBytes_append (Nat.le_of_lt hrange.1) hrange.2, hpart, append_cons]
        have hline' := (hone'.lineAt (Nat.le_of_lt hrange.1)).trans hline
        have hstart' := (hone'.startAt (Nat.le_of_lt hrange.1)).trans hstart
        refine ih hline' hstart' (fun k hk hkq => hone k (by omega) hkq) hrange.2 (by omega)
          (fun hlt' previous hprevious => ?_)
        rw [getLast?_concat, Option.mem_some_iff] at hprevious
        subst hprevious
        refine .inr ⟨hline'.symm, .inr ⟨?_, hend hlt'⟩⟩
        dsimp only
        omega
    · obtain rfl : p = q := by omega
      rw [if_neg hlt, append_nil, pushBytes_self]

theorem Before.detached (h : Before content spans p) (hstart : startAt content p = p) :
    Detached content labels spans p := by
  intro previous hprevious
  have hmem := mem_of_getLast? hprevious
  have hpos := h.nonempty previous hmem
  have hends := h.ends previous hmem
  omega

theorem planeLines_eq {fuel i : Nat} (hline : lineAt content p = line) (hstart : startAt content p = p)
    (hone : OneLine content p i) (hle : p ≤ i) (hlen : i ≤ content.length)
    (hfuel : content.length - i < fuel) (hbefore : Before content spans p) :
    spans ++ planeLines content labels fuel i line p =
      pushBytes content labels p content.length spans := by
  induction fuel generalizing p i line spans with
  | zero => cases hfuel
  | succ fuel ih =>
    rw [planeLines]
    by_cases hmore : i < content.length ∧ content[i]? ≠ some lineFeed
    · rw [if_pos hmore]
      refine ih hline hstart (fun k hk hki => ?_) (by omega) (by omega) (by omega) hbefore
      by_cases hki' : k = i
      · exact hki' ▸ hmore.2
      · exact hone k hk (by omega)
    · rw [if_neg hmore]
      have hruns : spans ++ lineRuns labels line p i (i - p) p = pushBytes content labels p i spans :=
        lineRuns_eq hline hstart hone hle (Nat.le_refl _) (fun _ => hbefore.detached hstart)
      rw [← append_assoc, hruns]
      by_cases hend : i = content.length
      · rw [if_pos hend, append_nil, hend]
      rw [if_neg hend]
      have hfeed : content[i]? = some lineFeed := by
        by_contra hne
        exact hmore ⟨by omega, hne⟩
      have hnext : lineAt content (i + 1) = line + 1 := by
        rw [lineAt_newline hfeed, hone.lineAt hle, hline]
      rw [← pushBytes_append (Nat.le_succ_of_le hle) (show i + 1 ≤ content.length by omega),
        pushBytes_feed hle hfeed]
      exact ih hnext (startAt_newline hfeed) (fun k hk hki => by omega) (Nat.le_refl _) (by omega)
        (by omega) (hbefore.pushBytes hle).next

theorem spansFromBytePlanes_bytes (content : Bytes) (intervals : List CaptureInterval) :
    spansFromBytePlanes content intervals = pushBytes content (label intervals) 0 content.length [] := by
  have hlines : [] ++ planeLines content (label intervals) (content.length + 1) 0 1 0 =
      pushBytes content (label intervals) 0 content.length [] :=
    planeLines_eq rfl rfl (fun k _ hk => absurd hk (Nat.not_lt_zero k)) (Nat.le_refl 0)
      (Nat.zero_le content.length) (by omega) (before_nil content 0)
  exact hlines

end Reference

/-- A span carries the capture at a column of a line. -/
def Carries (spans : List Span) (line column captureId : Nat) : Prop :=
  ∃ s ∈ spans, s.line = line ∧ (s.start ≤ column ∧ column < s.stop) ∧ s.capture = captureId

section Carries

variable {line column captureId k p q : Nat} {span : Span}

theorem carries_append {others : List Span} : Carries (spans ++ others) line column captureId ↔
    Carries spans line column captureId ∨ Carries others line column captureId := by
  simp [Carries, or_and_right, exists_or]

theorem carries_single : Carries [span] line column captureId ↔
    span.line = line ∧ (span.start ≤ column ∧ column < span.stop) ∧ span.capture = captureId := by
  simp [Carries]

theorem carries_pushSpan (h : InOrder spans) (hspan : span.start < span.stop) :
    Carries (pushSpan spans span) line column captureId ↔
      Carries spans line column captureId ∨ Carries [span] line column captureId := by
  rcases eq_nil_or_concat spans with rfl | ⟨init, previous, rfl⟩
  · simp [Carries]
  rw [concat_eq_append] at *
  have hprevious := h.nonempty previous (by simp)
  by_cases hlonger : previous.line = span.line ∧ previous.stop = span.start ∧
    previous.capture = span.capture
  · obtain ⟨hline, hstop, hcapture⟩ := hlonger
    rw [pushSpan_longer init ⟨hline, hstop, hcapture⟩, carries_append, carries_append, or_assoc]
    refine or_congr_right ?_
    rw [carries_single, carries_single, carries_single]
    dsimp only
    omega
  · rw [pushSpan_apart init hlonger, append_cons, carries_append]

theorem carries_pushByte (h : Before content spans k) :
    Carries (pushByte content labels spans k) line column captureId ↔
      Carries spans line column captureId ∨ content[k]? ≠ some lineFeed ∧
        lineAt content k = line ∧ k = startAt content k + column ∧ labels k = some captureId := by
  by_cases hfeed : content[k]? = some lineFeed
  · simp [pushByte_newline hfeed, hfeed]
  cases hlabel : labels k with
  | none => simp [pushByte, hlabel]
  | some id =>
    have hle := startAt_le content k
    rw [pushByte_some hfeed hlabel, carries_pushSpan h.toInOrder (by dsimp only; omega), carries_single]
    refine or_congr_right ?_
    simp only [hfeed, ne_eq, not_false_eq_true, true_and, Option.some.injEq]
    refine and_congr_right (fun _ => and_congr_left (fun _ => ?_))
    omega

theorem carries_pushBytes (hle : p ≤ q) (h : Before content spans p) :
    Carries (pushBytes content labels p q spans) line column captureId ↔
      Carries spans line column captureId ∨ ∃ k, (p ≤ k ∧ k < q) ∧ content[k]? ≠ some lineFeed ∧
        lineAt content k = line ∧ k = startAt content k + column ∧ labels k = some captureId := by
  induction q with
  | zero =>
    obtain rfl := Nat.le_zero.mp hle
    simp
  | succ q ih =>
    by_cases hpq : p ≤ q
    · rw [pushBytes_succ hpq, carries_pushByte (h.pushBytes hpq), ih hpq, or_assoc]
      refine or_congr_right ⟨?_, ?_⟩
      · rintro (⟨k, hk, hrest⟩ | hrest)
        · exact ⟨k, by omega, hrest⟩
        · exact ⟨q, by omega, hrest⟩
      · rintro ⟨k, hk, hrest⟩
        by_cases hkq : k = q
        · exact .inr (hkq ▸ hrest)
        · exact .inl ⟨k, by omega, hrest⟩
    · obtain rfl : p = q + 1 := by omega
      have hnone : ¬∃ k, (q + 1 ≤ k ∧ k < q + 1) ∧ content[k]? ≠ some lineFeed ∧
          lineAt content k = line ∧ k = startAt content k + column ∧ labels k = some captureId := by
        rintro ⟨k, hk, -⟩
        omega
      rw [pushBytes_self, or_iff_left hnone]

end Carries

/-- The sweep gives the spans of the byte planes, sorted and disjoint, and a span carries a capture at a
column of a line exactly when the byte there is won by an interval of the capture. -/
theorem mergeCaptureIntervals_eq {intervals : List CaptureInterval} (h : InMatchOrder content intervals) :
    mergeCaptureIntervals content intervals = spansFromBytePlanes content intervals ∧
      InOrder (mergeCaptureIntervals content intervals) ∧
        ∀ line column captureId, Carries (mergeCaptureIntervals content intervals) line column captureId ↔
          ∃ k w, content[k]? ≠ some lineFeed ∧ lineAt content k = line ∧ k = startAt content k + column ∧
            Wins intervals k w ∧ w.captureId = captureId := by
  have hmerge := mergeCaptureIntervals_bytes h
  refine ⟨hmerge.trans (spansFromBytePlanes_bytes content intervals).symm, ?_, fun line column id => ?_⟩
  · rw [hmerge]
    exact ((before_nil content 0).pushBytes (Nat.zero_le _)).toInOrder
  · rw [hmerge, carries_pushBytes (Nat.zero_le _) (before_nil content 0), or_iff_right (by simp [Carries])]
    constructor
    · rintro ⟨k, -, hfeed, hline, hcolumn, hlabel⟩
      obtain ⟨w, hw, hid⟩ := wins_of_label h.order hlabel
      exact ⟨k, w, hfeed, hline, hcolumn, hw, hid⟩
    · rintro ⟨k, w, hfeed, hline, hcolumn, hw, hid⟩
      have hlt := Nat.lt_of_lt_of_le hw.covers.2 (h.inside w hw.mem)
      exact ⟨k, ⟨Nat.zero_le k, hlt⟩, hfeed, hline, hcolumn, hid ▸ label_wins h.order hw⟩

/-- A comment over a keyword, over two lines. -/
theorem comment_mergeCaptureIntervals :
    let content : Bytes := [0x69, 0x66, 0x0a, 0x78]
    let intervals : List CaptureInterval := [⟨0, 2, 1, 0, 0⟩, ⟨1, 4, 2, 3, 1⟩]
    InMatchOrder content intervals ∧
      mergeCaptureIntervals content intervals = spansFromBytePlanes content intervals := by
  have horder : InMatchOrder [0x69, 0x66, 0x0a, 0x78] [⟨0, 2, 1, 0, 0⟩, ⟨1, 4, 2, 3, 1⟩] :=
    ⟨by decide, by decide, by decide⟩
  exact ⟨horder, (mergeCaptureIntervals_eq horder).1⟩

end Bbr.Highlight
