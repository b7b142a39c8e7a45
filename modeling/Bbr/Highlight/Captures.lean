import Bbr.Tui.LineSpans

/-!
# Captures become spans

The captures of a file are intervals of bytes that may overlap. A sweep over clusters of overlapping
intervals picks the winner of each piece, and the pieces are cut at the line ends. The reference paints
the bytes one interval after the other and reads off the runs.
-/
namespace Bbr.Highlight

open Bbr.Tui

structure CaptureInterval where
  start : Nat
  stop : Nat
  captureId : Nat
  patternIndex : Nat
  order : Nat
  deriving DecidableEq, Repr

/-- A run of bytes with one winner. -/
structure Piece where
  start : Nat
  stop : Nat
  captureId : Nat
  deriving DecidableEq, Repr

def lineFeed : UInt8 := 10

def intervalLessThan (a b : CaptureInterval) : Bool :=
  decide (a.start < b.start ∨ a.start = b.start ∧ a.order < b.order)

def higherPrecedence (a b : CaptureInterval) : Bool :=
  decide (b.patternIndex < a.patternIndex ∨ a.patternIndex = b.patternIndex ∧ b.order < a.order)

/-- No interval is less than the one before it. -/
def isSorted : List CaptureInterval → Bool
  | a :: b :: intervals => !intervalLessThan b a && isSorted (b :: intervals)
  | _ => true

def sortIntervals (intervals : List CaptureInterval) : List CaptureInterval :=
  if isSorted intervals then intervals
  else intervals.mergeSort (fun a b => !intervalLessThan b a)

/-- The intervals that begin before the end of the cluster, that end, and what is left. -/
def takeCluster : Nat → List CaptureInterval → List CaptureInterval × Nat × List CaptureInterval
  | clusterEnd, [] => ([], clusterEnd, [])
  | clusterEnd, interval :: intervals =>
    if interval.start < clusterEnd then
      let taken := takeCluster (max clusterEnd interval.stop) intervals
      (interval :: taken.1, taken.2)
    else ([], clusterEnd, interval :: intervals)

/-- The winner at a position, and where the next interval starts. -/
def pickWinner (position : Nat) : List CaptureInterval → Option CaptureInterval → Nat →
    Option CaptureInterval × Nat
  | [], winner, nextStart => (winner, nextStart)
  | interval :: cluster, winner, nextStart =>
    if position < interval.start then
      pickWinner position cluster winner (min nextStart interval.start)
    else if position < interval.stop ∧ winner.all (higherPrecedence interval) then
      pickWinner position cluster (some interval) nextStart
    else pickWinner position cluster winner nextStart

/-- The pieces of a cluster; every piece moves the position. -/
def sweepCluster (cluster : List CaptureInterval) (clusterEnd : Nat) : Nat → Nat → List Piece
  | 0, _ => []
  | fuel + 1, position =>
    if position < clusterEnd then
      let picked := pickWinner position cluster none clusterEnd
      match picked.1 with
      | some selected =>
        { start := position, stop := min selected.stop picked.2, captureId := selected.captureId } ::
          sweepCluster cluster clusterEnd fuel (min selected.stop picked.2)
      | none => sweepCluster cluster clusterEnd fuel picked.2
    else []

/-- Every cluster takes an interval. -/
def sweepClusters : Nat → List CaptureInterval → List Piece
  | 0, _ => []
  | _, [] => []
  | fuel + 1, first :: intervals =>
    let taken := takeCluster first.stop intervals
    sweepCluster (first :: taken.1) taken.2.1 (taken.2.1 - first.start) first.start ++
      sweepClusters fuel taken.2.2

/-- The next line end from a place on. -/
def newlineFrom (content : Bytes) (place : Nat) : Option Nat :=
  ((content.drop place).idxOf? lineFeed).map (fun k => place + k)

structure LineState where
  line : Nat := 1
  lineStart : Nat := 0
  scannedTo : Nat := 0
  deriving DecidableEq, Repr

/-- Passes the line ends before a place. -/
def passLines (content : Bytes) (start : Nat) : Nat → LineState → LineState
  | 0, state => state
  | fuel + 1, state =>
    match newlineFrom content state.scannedTo with
    | none => state
    | some newline =>
      if start ≤ newline then state
      else passLines content start fuel
        { line := state.line + 1, lineStart := newline + 1, scannedTo := newline + 1 }

/-- A span that goes on from the last one with its capture lengthens it. -/
def pushSpan (spans : List Span) (span : Span) : List Span :=
  match spans.getLast? with
  | none => [span]
  | some previous =>
    if previous.line = span.line ∧ previous.stop = span.start ∧ previous.capture = span.capture then
      spans.dropLast ++ [{ previous with stop := span.stop }]
    else spans ++ [span]

/-- The parts of a piece on its lines. -/
def pushParts (content : Bytes) (stop captureId : Nat) :
    Nat → Nat → LineState → List Span → LineState × List Span
  | 0, _, state, spans => (state, spans)
  | fuel + 1, place, state, spans =>
    if place < stop then
      let newline := newlineFrom content place
      let partEnd := min stop (newline.getD stop)
      let spans :=
        if place < partEnd then
          pushSpan spans
            { line := state.line
              start := place - state.lineStart
              stop := partEnd - state.lineStart
              capture := captureId }
        else spans
      match newline with
      | none => (state, spans)
      | some newline =>
        if stop ≤ newline then (state, spans)
        else pushParts content stop captureId fuel (newline + 1)
          { line := state.line + 1, lineStart := newline + 1, scannedTo := newline + 1 } spans
    else (state, spans)

def appendIntervalSpans (content : Bytes) (painted : LineState × List Span) (piece : Piece) :
    LineState × List Span :=
  let passed := passLines content piece.start piece.start painted.1
  let pushed := pushParts content piece.stop piece.captureId (piece.stop - piece.start) piece.start
    passed painted.2
  ({ pushed.1 with scannedTo := max pushed.1.scannedTo piece.stop }, pushed.2)

def mergeCaptureIntervals (content : Bytes) (intervals : List CaptureInterval) : List Span :=
  ((sweepClusters intervals.length (sortIntervals intervals)).foldl (appendIntervalSpans content)
    ({}, [])).2

/-- The interval that paints a byte last; its capture is the label and its pattern the priority. -/
def paint (byte : Nat) (painted : Option CaptureInterval) (interval : CaptureInterval) :
    Option CaptureInterval :=
  if (interval.start ≤ byte ∧ byte < interval.stop) ∧
      painted.all (fun before => decide (before.patternIndex ≤ interval.patternIndex)) then
    some interval
  else painted

def label (intervals : List CaptureInterval) (byte : Nat) : Option Nat :=
  (intervals.foldl (paint byte) none).map CaptureInterval.captureId

/-- The end of a run of one label. -/
def runEnd (labels : Nat → Option Nat) (captureId stop : Nat) : Nat → Nat → Nat
  | 0, place => place
  | fuel + 1, place =>
    if place < stop ∧ labels place = some captureId then runEnd labels captureId stop fuel (place + 1)
    else place

def lineRuns (labels : Nat → Option Nat) (line lineStart stop : Nat) : Nat → Nat → List Span
  | 0, _ => []
  | fuel + 1, place =>
    if place < stop then
      match labels place with
      | none => lineRuns labels line lineStart stop fuel (place + 1)
      | some captureId =>
        let runStop := runEnd labels captureId stop (stop - (place + 1)) (place + 1)
        { line := line
          start := place - lineStart
          stop := runStop - lineStart
          capture := captureId } :: lineRuns labels line lineStart stop fuel runStop
    else []

def planeLines (content : Bytes) (labels : Nat → Option Nat) : Nat → Nat → Nat → Nat → List Span
  | 0, _, _, _ => []
  | fuel + 1, i, line, lineStart =>
    if i < content.length ∧ content[i]? ≠ some lineFeed then
      planeLines content labels fuel (i + 1) line lineStart
    else
      lineRuns labels line lineStart i (i - lineStart) lineStart ++
        if i = content.length then []
        else planeLines content labels fuel (i + 1) (line + 1) (i + 1)

def spansFromBytePlanes (content : Bytes) (intervals : List CaptureInterval) : List Span :=
  planeLines content (label intervals) (content.length + 1) 0 1 0

end Bbr.Highlight
