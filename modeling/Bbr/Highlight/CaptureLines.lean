import Bbr.Highlight.Captures

/-!
# Pieces on their lines

Pushing the parts of a piece is pushing its bytes one by one, each on the line where it stands. The line
cursor of the sweep stands where the line ends before it put it.
-/
namespace Bbr.Highlight

open Bbr.Tui List

/-- The line of a place, the first being 1. -/
def lineAt (content : Bytes) : Nat → Nat
  | 0 => 1
  | k + 1 => if content[k]? = some lineFeed then lineAt content k + 1 else lineAt content k

/-- Where the line of a place starts. -/
def startAt (content : Bytes) : Nat → Nat
  | 0 => 0
  | k + 1 => if content[k]? = some lineFeed then k + 1 else startAt content k

section Lines

variable {content : Bytes} {p q k n : Nat}

theorem startAt_le (content : Bytes) (k : Nat) : startAt content k ≤ k := by
  induction k with
  | zero => exact Nat.le_refl 0
  | succ k ih =>
    rw [startAt]
    split
    · exact Nat.le_refl _
    · exact Nat.le_succ_of_le ih

theorem lineAt_newline (h : content[k]? = some lineFeed) :
    lineAt content (k + 1) = lineAt content k + 1 := if_pos h

theorem startAt_newline (h : content[k]? = some lineFeed) : startAt content (k + 1) = k + 1 := if_pos h

theorem lineAt_same (h : content[k]? ≠ some lineFeed) : lineAt content (k + 1) = lineAt content k :=
  if_neg h

theorem startAt_same (h : content[k]? ≠ some lineFeed) : startAt content (k + 1) = startAt content k :=
  if_neg h

/-- No line ends between the places. -/
def OneLine (content : Bytes) (p q : Nat) : Prop := ∀ k, p ≤ k → k < q → content[k]? ≠ some lineFeed

theorem OneLine.lineAt (h : OneLine content p q) (hle : p ≤ q) : lineAt content q = lineAt content p := by
  induction q with
  | zero => rw [Nat.le_zero.mp hle]
  | succ q ih =>
    by_cases hpq : p ≤ q
    · rw [lineAt_same (h q hpq (Nat.lt_succ_self q)), ih (fun k hk hlt => h k hk (by omega)) hpq]
    · rw [show p = q + 1 by omega]

theorem OneLine.startAt (h : OneLine content p q) (hle : p ≤ q) :
    startAt content q = startAt content p := by
  induction q with
  | zero => rw [Nat.le_zero.mp hle]
  | succ q ih =>
    by_cases hpq : p ≤ q
    · rw [startAt_same (h q hpq (Nat.lt_succ_self q)), ih (fun k hk hlt => h k hk (by omega)) hpq]
    · rw [show p = q + 1 by omega]

theorem newlineFrom_some (h : newlineFrom content p = some n) :
    p ≤ n ∧ content[n]? = some lineFeed ∧ OneLine content p n := by
  obtain ⟨k, hk, rfl⟩ := Option.map_eq_some_iff.mp h
  obtain ⟨hlt, hat, hbefore⟩ := List.idxOf?_eq_some_iff.mp hk
  rw [List.length_drop] at hlt
  refine ⟨Nat.le_add_right p k, ?_, fun j hj hjlt hfeed => ?_⟩
  · rw [List.getElem_drop] at hat
    rw [List.getElem?_eq_getElem (by omega), hat]
  · refine hbefore (j - p) (by omega) ?_
    obtain ⟨hj', hget⟩ := List.getElem?_eq_some_iff.mp hfeed
    simpa [show p + (j - p) = j by omega] using hget

theorem newlineFrom_none (h : newlineFrom content p = none) (q : Nat) : OneLine content p q := by
  intro k hk _ hfeed
  have hnot := idxOf?_eq_none_iff.mp (Option.map_eq_none_iff.mp h)
  refine hnot (mem_iff_getElem?.mpr ⟨k - p, ?_⟩)
  rw [getElem?_drop, show p + (k - p) = k by omega, hfeed]

end Lines

/-- A labelled byte is a span of one byte; line ends are left out. -/
def pushByte (content : Bytes) (labels : Nat → Option Nat) (spans : List Span) (k : Nat) : List Span :=
  if content[k]? = some lineFeed then spans
  else match labels k with
    | none => spans
    | some captureId =>
      pushSpan spans
        { line := lineAt content k
          start := k - startAt content k
          stop := k + 1 - startAt content k
          capture := captureId }

def pushBytes (content : Bytes) (labels : Nat → Option Nat) (p q : Nat) (spans : List Span) :
    List Span :=
  (List.range' p (q - p)).foldl (pushByte content labels) spans

section Bytes

variable {content : Bytes} {labels : Nat → Option Nat} {p q r k : Nat} {spans : List Span}

@[simp] theorem pushBytes_self : pushBytes content labels p p spans = spans := by
  simp [pushBytes]

theorem pushBytes_append (hpq : p ≤ q) (hqr : q ≤ r) :
    pushBytes content labels q r (pushBytes content labels p q spans) =
      pushBytes content labels p r spans := by
  have hsplit : range' p (r - p) = range' p (q - p) ++ range' q (r - q) := by
    rw [show r - p = (q - p) + (r - q) by omega, ← range'_append_1, show p + (q - p) = q by omega]
  rw [pushBytes, pushBytes, pushBytes, hsplit, foldl_append]

theorem pushBytes_succ (hpq : p ≤ q) : pushBytes content labels p (q + 1) spans =
    pushByte content labels (pushBytes content labels p q spans) q := by
  rw [← pushBytes_append hpq (Nat.le_succ q), pushBytes.eq_def content labels q (q + 1),
    show q + 1 - q = 1 by omega]
  rfl

theorem pushBytes_congr (others : Nat → Option Nat) (h : ∀ k, p ≤ k → k < q → labels k = others k) :
    pushBytes content labels p q spans = pushBytes content others p q spans := by
  refine foldl_ext _ _ _ (fun acc k hk => ?_)
  have hk := mem_range'_1.mp hk
  rw [pushByte, pushByte, h k (by omega) (by omega)]

theorem pushBytes_none (h : ∀ k, p ≤ k → k < q → labels k = none) :
    pushBytes content labels p q spans = spans := by
  rw [pushBytes_congr (fun _ => none) h, pushBytes]
  induction range' p (q - p) with
  | nil => rfl
  | cons k ks ih => simpa [pushByte] using ih

theorem pushByte_newline (h : content[k]? = some lineFeed) : pushByte content labels spans k = spans :=
  if_pos h

theorem pushByte_some {captureId : Nat} (h : content[k]? ≠ some lineFeed)
    (hlabel : labels k = some captureId) : pushByte content labels spans k = pushSpan spans
        { line := lineAt content k
          start := k - startAt content k
          stop := k + 1 - startAt content k
          capture := captureId } := by
  rw [pushByte, if_neg h, hlabel]

end Bytes

section Push

variable {init spans : List Span} {previous span next : Span}

@[simp] theorem pushSpan_nil : pushSpan [] span = [span] := rfl

theorem pushSpan_longer (init : List Span) (h : previous.line = span.line ∧ previous.stop = span.start ∧
    previous.capture = span.capture) :
    pushSpan (init ++ [previous]) span = init ++ [{ previous with stop := span.stop }] := by
  simp [pushSpan, h]

theorem pushSpan_apart (init : List Span) (h : ¬(previous.line = span.line ∧ previous.stop = span.start ∧
    previous.capture = span.capture)) :
    pushSpan (init ++ [previous]) span = init ++ [previous, span] := by
  rw [pushSpan, getLast?_concat]
  simp only [h, if_false, append_assoc, cons_append, nil_append]

theorem pushSpan_pushSpan (h : span.line = next.line ∧ span.stop = next.start ∧
    span.capture = next.capture) :
    pushSpan (pushSpan spans span) next = pushSpan spans { span with stop := next.stop } := by
  rcases eq_nil_or_concat spans with rfl | ⟨init, previous, rfl⟩
  · exact pushSpan_longer [] h
  rw [concat_eq_append]
  by_cases hp : previous.line = span.line ∧ previous.stop = span.start ∧ previous.capture = span.capture
  · have hboth : pushSpan (init ++ [previous]) { span with stop := next.stop } =
        init ++ [{ previous with stop := next.stop }] := pushSpan_longer init hp
    have hnext : pushSpan (init ++ [{ previous with stop := span.stop }]) next =
        init ++ [{ previous with stop := next.stop }] :=
      pushSpan_longer init ⟨hp.1.trans h.1, h.2.1, hp.2.2.trans h.2.2⟩
    rw [pushSpan_longer init hp, hboth, hnext]
  · have hboth : pushSpan (init ++ [previous]) { span with stop := next.stop } =
        init ++ [previous, { span with stop := next.stop }] := pushSpan_apart init hp
    have hnext := pushSpan_longer (init ++ [previous]) h
    rw [append_assoc, append_assoc] at hnext
    rw [pushSpan_apart init hp, hboth]
    exact hnext

end Push

section Parts

variable {content : Bytes} {labels : Nat → Option Nat} {captureId p q : Nat} {spans : List Span}

theorem pushBytes_part (hline : OneLine content p q) (hlt : p < q)
    (hlabels : ∀ k, p ≤ k → k < q → labels k = some captureId) :
    pushBytes content labels p q spans = pushSpan spans
        { line := lineAt content p
          start := p - startAt content p
          stop := q - startAt content p
          capture := captureId } := by
  induction q with
  | zero => cases hlt
  | succ q ih =>
    rw [pushBytes_succ (Nat.le_of_lt_succ hlt)]
    have hq : content[q]? ≠ some lineFeed := hline q (by omega) (Nat.lt_succ_self q)
    rw [pushByte_some hq (hlabels q (by omega) (Nat.lt_succ_self q))]
    by_cases hpq : p < q
    · have hline' : OneLine content p q := fun k hk hkq => hline k hk (by omega)
      rw [ih hline' hpq (fun k hk hkq => hlabels k hk (by omega)), hline'.lineAt (by omega),
        hline'.startAt (by omega)]
      exact pushSpan_pushSpan ⟨rfl, rfl, rfl⟩
    · obtain rfl : p = q := by omega
      rw [pushBytes_self]

/-- The line cursor stands at a place. -/
structure StandsAt (content : Bytes) (state : LineState) (p : Nat) : Prop where
  line : state.line = lineAt content p
  lineStart : state.lineStart = startAt content p
  scannedTo : state.scannedTo ≤ p

theorem StandsAt.along {state : LineState} (h : StandsAt content state p) (hline : OneLine content p q)
    (hle : p ≤ q) : StandsAt content state q :=
  ⟨h.line.trans (hline.lineAt hle).symm, h.lineStart.trans (hline.startAt hle).symm,
    Nat.le_trans h.scannedTo hle⟩

theorem StandsAt.behind {state : LineState} {n : Nat} (h : StandsAt content state n)
    (hfeed : content[n]? = some lineFeed) :
    StandsAt content { line := state.line + 1, lineStart := n + 1, scannedTo := n + 1 } (n + 1) :=
  ⟨by rw [lineAt_newline hfeed, h.line], (startAt_newline hfeed).symm, Nat.le_refl _⟩

theorem passLines_stands {state : LineState} {fuel : Nat}
    (h : StandsAt content state state.scannedTo) (hle : state.scannedTo ≤ p)
    (hfuel : p - state.scannedTo ≤ fuel) : StandsAt content (passLines content p fuel state) p := by
  induction fuel generalizing state with
  | zero =>
    rw [passLines, show p = state.scannedTo by omega]
    exact h
  | succ fuel ih =>
    rw [passLines]
    cases hfrom : newlineFrom content state.scannedTo with
    | none => exact h.along (newlineFrom_none hfrom p) hle
    | some n =>
      obtain ⟨hn, hfeed, hline⟩ := newlineFrom_some hfrom
      dsimp only
      by_cases hpn : p ≤ n
      · rw [if_pos hpn]
        exact h.along (fun k hk hkp => hline k hk (by omega)) hle
      · rw [if_neg hpn]
        exact ih ((h.along hline hn).behind hfeed) (by simp only; omega) (by simp only; omega)

theorem pushPart_eq {state : LineState} (h : StandsAt content state p) (hline : OneLine content p q)
    (hle : p ≤ q) (hlabels : ∀ k, p ≤ k → k < q → labels k = some captureId) :
    (if p < q then
      pushSpan spans
        { line := state.line
          start := p - state.lineStart
          stop := q - state.lineStart
          capture := captureId }
    else spans) = pushBytes content labels p q spans := by
  by_cases hlt : p < q
  · rw [if_pos hlt, pushBytes_part hline hlt hlabels, h.line, h.lineStart]
  · obtain rfl : p = q := by omega
    rw [if_neg hlt, pushBytes_self]

theorem pushBytes_feed {n : Nat} (hle : p ≤ n) (hfeed : content[n]? = some lineFeed) :
    pushBytes content labels p (n + 1) spans = pushBytes content labels p n spans := by
  rw [pushBytes_succ hle, pushByte_newline hfeed]

/-- The parts of a piece are its bytes, and the line cursor ends where the piece does. -/
theorem pushParts_spec (spans : List Span) {state : LineState} {fuel : Nat}
    (h : StandsAt content state p) (hle : p ≤ q) (hfuel : q - p ≤ fuel)
    (hlabels : ∀ k, p ≤ k → k < q → labels k = some captureId) :
    (pushParts content q captureId fuel p state spans).2 = pushBytes content labels p q spans ∧
      StandsAt content (pushParts content q captureId fuel p state spans).1 q := by
  induction fuel generalizing p state spans with
  | zero =>
    obtain rfl : p = q := by omega
    exact ⟨pushBytes_self.symm, h⟩
  | succ fuel ih =>
    rw [pushParts]
    by_cases hlt : p < q
    · rw [if_pos hlt]
      dsimp only
      cases hfrom : newlineFrom content p with
      | none =>
        have hline := newlineFrom_none hfrom q
        rw [Option.getD_none, Nat.min_self, pushPart_eq h hline hle hlabels]
        exact ⟨rfl, h.along hline hle⟩
      | some n =>
        obtain ⟨hn, hfeed, hline⟩ := newlineFrom_some hfrom
        dsimp only
        rw [Option.getD_some]
        by_cases hqn : q ≤ n
        · have hline' : OneLine content p q := fun k hk hkq => hline k hk (by omega)
          rw [if_pos hqn, Nat.min_eq_left hqn, pushPart_eq h hline' hle hlabels]
          exact ⟨rfl, h.along hline' hle⟩
        · rw [if_neg hqn, Nat.min_eq_right (by omega),
            pushPart_eq h hline hn (fun k hk hkn => hlabels k hk (by omega)), ← pushBytes_feed hn hfeed,
            ← pushBytes_append (Nat.le_succ_of_le hn) (Nat.lt_of_not_le hqn)]
          exact ih _ ((h.along hline hn).behind hfeed) (by omega) (by omega)
            (fun k hk hkq => hlabels k (by omega) hkq)
    · obtain rfl : p = q := by omega
      rw [if_neg hlt]
      exact ⟨pushBytes_self.symm, h⟩

end Parts

end Bbr.Highlight
