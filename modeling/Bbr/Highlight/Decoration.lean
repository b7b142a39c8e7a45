import Bbr.Lib.Pieces
import Bbr.Tui.LineSpans
import Bbr.Tui.Segments

/-!
# Decorated Lines

A Line is cut into runs wherever its capture or its emphasis changes.
-/
namespace Bbr.Highlight

open Bbr.Lib
open Bbr.Tui

structure Run where
  text : Bytes
  capture : Option Nat := none
  emphasis : Bool := false
  deriving DecidableEq, Repr

inductive DecorationError where
  | invalidSpan
  | invalidEmphasis
  deriving DecidableEq, Repr

def utf8Boundary (text : Bytes) (index : Nat) : Bool :=
  decide (index = 0) || decide (index = text.length) ||
    text[index]?.any (fun b => decide (b &&& 0xc0 ≠ 0x80))

/-- The spans behind a place, of a line if one is known. -/
def validateSpansFrom (text : Bytes) : Nat → Option Nat → List Span → Except DecorationError Unit
  | _, _, [] => .ok ()
  | previousEnd, line, span :: spans =>
    if line.any (fun expected => decide (span.line ≠ expected)) then .error .invalidSpan
    else if span.stop ≤ span.start ∨ span.start < previousEnd ∨ text.length < span.stop then
      .error .invalidSpan
    else if !utf8Boundary text span.start || !utf8Boundary text span.stop then .error .invalidSpan
    else validateSpansFrom text span.stop (some span.line) spans

def validateSpans (text : Bytes) (spans : List Span) : Except DecorationError Unit :=
  validateSpansFrom text 0 none spans

def validateEmphasisFrom (text : Bytes) : Nat → List Segment → Except DecorationError Unit
  | offset, [] => if offset = text.length then .ok () else .error .invalidEmphasis
  | offset, segment :: emphasis =>
    if segment.text.length = 0 ∨ text.length < offset + segment.text.length then
      .error .invalidEmphasis
    else if (text.drop offset).take segment.text.length ≠ segment.text then .error .invalidEmphasis
    else validateEmphasisFrom text (offset + segment.text.length) emphasis

def validateEmphasis (text : Bytes) (emphasis : List Segment) : Except DecorationError Unit :=
  if emphasis = [] then .ok () else validateEmphasisFrom text 0 emphasis

def segmentEnds : Nat → List Segment → List Nat
  | _, [] => []
  | offset, segment :: emphasis =>
    (offset + segment.text.length) :: segmentEnds (offset + segment.text.length) emphasis

def boundaries (text : Bytes) (spans : List Span) (emphasis : List Segment) : List Nat :=
  cutsOf ([0, text.length] ++ spans.flatMap (fun span => [span.start, span.stop]) ++
    segmentEnds 0 emphasis)

def firstLength (emphasis : List Segment) : Nat :=
  (emphasis.head?.map (fun segment => segment.text.length)).getD 0

/-- The segments that have not ended at a place; the first of them ends at the running end. -/
def passSegments (start : Nat) : Nat → List Segment → Nat × List Segment
  | emphasisEnd, [] => (emphasisEnd, [])
  | emphasisEnd, segment :: emphasis =>
    if emphasisEnd ≤ start then passSegments start (emphasisEnd + firstLength emphasis) emphasis
    else (emphasisEnd, segment :: emphasis)

def pieceCapture (spans : List Span) (start stop : Nat) : Option Nat :=
  match spans with
  | [] => none
  | span :: _ => if span.start ≤ start ∧ stop ≤ span.stop then some span.capture else none

def headEmphasis (emphasis : List Segment) : Bool := emphasis.head?.any Segment.emphasis

/-- The runs between the cuts; both cursors only move forward. -/
def runsBetween (text : Bytes) : List Span → Nat → List Segment → List Nat → List Run
  | spans, emphasisEnd, emphasis, start :: stop :: cuts =>
    let spans := ahead Span.stop spans start
    let passed := passSegments start emphasisEnd emphasis
    { text := (text.drop start).take (stop - start)
      capture := pieceCapture spans start stop
      emphasis := headEmphasis passed.2 } ::
      runsBetween text spans passed.1 passed.2 (stop :: cuts)
  | _, _, _, _ => []

def decorate (text : Bytes) (spans : List Span) (emphasis : List Segment) :
    Except DecorationError (List Run) := do
  validateSpans text spans
  validateEmphasis text emphasis
  if text = [] then .ok []
  else .ok (runsBetween text spans (firstLength emphasis) emphasis (boundaries text spans emphasis))

end Bbr.Highlight
