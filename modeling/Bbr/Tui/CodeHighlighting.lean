import Bbr.Lib.Evictions
import Bbr.Tui.Cards
import Mathlib.Data.Prod.Lex

/-!
# Results of highlighted code

A Session keeps the highlighted Spans of the code blocks in Review bodies. `Storage` owns the bodies,
the results of their blocks and the views that a Frame paints, within a budget. `none` is a trap: an
index out of range, a missing result, or a counter below zero. The sizes of records and the number of
blocks of a text are parameters.
-/
namespace Bbr.Tui.CodeHighlighting

open Bbr.Lib
open Tui.Cards (Owner)

def budgetBytes : Nat := 8 * 1024 * 1024

/-- The sizes of `Result`, `SourceSpan` and `View` in memory. -/
structure Sizes where
  result : Nat
  span : Nat
  view : Nat
  deriving DecidableEq, Repr

structure Result (Span : Type) where
  spans : List Span
  deriving DecidableEq, Repr

inductive State where
  | pending
  | running
  | ready
  | failed
  | skipped
  | evicted
  deriving DecidableEq, Repr

structure BlockState (Span : Type) where
  state : State := .pending
  result : Option (Result Span) := none
  used : Nat := 0
  leftViewport : Bool := false
  previewVisible : Bool := false
  deriving DecidableEq, Repr

structure Body (Span : Type) where
  owner : Owner
  source : Bytes
  suggestionPath : Option Bytes
  blocks : List (BlockState Span)
  visible : Bool := false
  deriving DecidableEq, Repr

structure View (Span : Type) where
  owner : Owner
  body : Bytes
  block : Nat
  spans : List Span
  deriving DecidableEq, Repr

structure Storage (Span : Type) where
  bodies : List (Body Span) := []
  views : List (View Span) := []
  viewCapacity : Nat := 0
  clock : Nat := 0
  retainedBytes : Nat := 0
  deriving DecidableEq, Repr

variable {Span : Type}

def Result.retainedBytes (sizes : Sizes) (self : Result Span) : Nat :=
  sizes.result + self.spans.length * sizes.span

def BlockState.visibleIn (bodyVisible : Bool) (self : BlockState Span) : Bool :=
  bodyVisible || self.previewVisible

def Body.blockVisible (self : Body Span) (ordinal : Nat) : Bool :=
  (self.blocks[ordinal]?).any (BlockState.visibleIn self.visible)

def Body.blockUsed (self : Body Span) (ordinal : Nat) : Nat :=
  ((self.blocks[ordinal]?).map BlockState.used).getD 0

def Body.updateBlock (self : Body Span) (ordinal : Nat) (f : BlockState Span → BlockState Span) :
    Body Span := { self with blocks := self.blocks.modify ordinal f }

/-- What `removeResult` does to the block. -/
def BlockState.evict (visible : Bool) (self : BlockState Span) : BlockState Span :=
  { self with result := none, state := .evicted, leftViewport := !visible }

/-- The view of a block that holds a result. -/
def Body.viewOf (self : Body Span) (ordinal : Nat) (result : Result Span) : View Span :=
  ⟨self.owner, self.source, ordinal, result.spans⟩

def heldFrom (body : Body Span) : Nat → List (BlockState Span) → List (View Span)
  | _, [] => []
  | ordinal, block :: rest =>
    (block.result.map (body.viewOf ordinal)).toList ++ heldFrom body (ordinal + 1) rest

/-- The results of the blocks, in order, told by their views. -/
def Body.held (self : Body Span) : List (View Span) := heldFrom self 0 self.blocks

def View.isOf (self : View Span) (owner : Owner) (ordinal : Nat) : Bool :=
  decide (self.owner = owner) && decide (self.block = ordinal)

/-- The bytes of the result behind a view. -/
def View.resultBytes (sizes : Sizes) (self : View Span) : Nat :=
  Result.retainedBytes sizes ⟨self.spans⟩

namespace Storage

def bodyFor (s : Storage Span) (owner : Owner) : Option (Body Span) :=
  s.bodies.find? (fun body => body.owner = owner)

/-- The method `retainedBytes`: the results and the memory of the views. -/
def allRetainedBytes (sizes : Sizes) (s : Storage Span) : Nat :=
  s.retainedBytes + s.viewCapacity * sizes.view

def held (s : Storage Span) : List (View Span) := s.bodies.flatMap Body.held

/-- What `removeResult` does to the storage: the bytes and the first view of the block go. -/
def forget (sizes : Sizes) (s : Storage Span) (result : View Span) : Option (Storage Span) :=
  if result.resultBytes sizes ≤ s.retainedBytes then some { s with
    retainedBytes := s.retainedBytes - result.resultBytes sizes
    views := s.views.eraseP (fun view => view.isOf result.owner result.block) }
  else none

/-- The blocks of the body go with it. -/
def remove (sizes : Sizes) (s : Storage Span) (index : Nat) : Option (Storage Span) :=
  match s.bodies[index]? with
  | none => none
  | some body => body.held.foldlM (forget sizes) { s with bodies := s.bodies.eraseIdx index }

/-- A new body, unless memory is short. -/
def create (blockCount : Bytes → Nat) (s : Storage Span) (owner : Owner) (source : Bytes)
    (suggestionPath : Option Bytes) (allocated : Bool) : Storage Span × Option (Body Span) :=
  let body : Body Span :=
    ⟨owner, source, suggestionPath, List.replicate (blockCount source) {}, false⟩
  if allocated then ({ s with bodies := s.bodies ++ [body] }, some body) else (s, none)

/-- The body of the owner; one with another text or path is replaced. `none` in the pair is the
error. -/
def get (sizes : Sizes) (blockCount : Bytes → Nat) (s : Storage Span) (owner : Owner)
    (source : Bytes) (suggestionPath : Option Bytes) (allocated : Bool) :
    Option (Storage Span × Option (Body Span)) :=
  match s.bodyFor owner with
  | none => some (s.create blockCount owner source suggestionPath allocated)
  | some body =>
    if body.source = source ∧ body.suggestionPath = suggestionPath then some (s, some body)
    else (s.remove sizes (s.bodies.findIdx (fun body => body.owner = owner))).map
      (fun s => s.create blockCount owner source suggestionPath allocated)

/-- One block of `finishVisibility`, with the clock. -/
def finishBlock (bodyVisible : Bool) (clock : Nat) (block : BlockState Span) :
    Nat × BlockState Span :=
  if block.visibleIn bodyVisible then (clock + 1, { block with
    used := clock + 1
    state := if block.state = .evicted ∧ block.leftViewport then .pending else block.state
    leftViewport := false })
  else (clock, { block with leftViewport := true })

def finishBlocks (bodyVisible : Bool) : Nat → List (BlockState Span) → Nat × List (BlockState Span)
  | clock, [] => (clock, [])
  | clock, block :: rest =>
    let finished := finishBlock bodyVisible clock block
    let others := finishBlocks bodyVisible finished.1 rest
    (others.1, finished.2 :: others.2)

def finishBodies : Nat → List (Body Span) → Nat × List (Body Span)
  | clock, [] => (clock, [])
  | clock, body :: rest =>
    let finished := finishBlocks body.visible clock body.blocks
    let others := finishBodies finished.1 rest
    (others.1, { body with blocks := finished.2 } :: others.2)

def finishVisibility (s : Storage Span) : Storage Span :=
  let finished := finishBodies s.clock s.bodies
  { s with clock := finished.1, bodies := finished.2 }

def updateBody (s : Storage Span) (owner : Owner) (f : Body Span → Body Span) : Storage Span :=
  { s with bodies := s.bodies.map (fun body => if body.owner = owner then f body else body) }

def updateBlock (s : Storage Span) (owner : Owner) (ordinal : Nat)
    (f : BlockState Span → BlockState Span) : Storage Span :=
  s.updateBody owner (fun body => body.updateBlock ordinal f)

/-- The comparison of the victim search. -/
def goesBefore (s : Storage Span) (view prior : View Span) : Bool :=
  match s.bodyFor view.owner, s.bodyFor prior.owner with
  | some selectedBody, some priorBody =>
    let selectedVisible := selectedBody.blockVisible view.block
    let priorVisible := priorBody.blockVisible prior.block
    (!selectedVisible && priorVisible) || (selectedVisible == priorVisible &&
      decide (selectedBody.blockUsed view.block < priorBody.blockUsed prior.block))
  | _, _ => false

/-- The search over all candidates but the last, which is the new one. -/
def victim (s : Storage Span) (candidate : List (View Span)) : Nat :=
  match candidate with
  | [] => 0
  | first :: _ => (candidate.dropLast.zipIdx.foldl (fun best entry =>
      if s.goesBefore entry.1 best.2 then (entry.2, entry.1) else best) (0, first)).1

/-- The result that a view stands for. -/
def resultOf (s : Storage Span) (view : View Span) : Option (Result Span) :=
  ((s.bodyFor view.owner).bind (fun body => body.blocks[view.block]?)).bind BlockState.result

/-- Victims leave the candidates until the budget holds. -/
def chooseViews (sizes : Sizes) (s : Storage Span) :
    Nat → List (View Span) → Nat → Option (List (View Span))
  | fuel, candidate, resultBytes =>
    if resultBytes + candidate.length * sizes.view ≤ budgetBytes then some candidate
    else match fuel with
      | 0 => none
      | fuel + 1 => match candidate[s.victim candidate]?.bind s.resultOf with
        | none => none
        | some result =>
          if result.retainedBytes sizes ≤ resultBytes then
            s.chooseViews sizes fuel (candidate.eraseIdx (s.victim candidate))
              (resultBytes - result.retainedBytes sizes)
          else none

/-- A block that holds a result but has no view among these. -/
def unkept (views : List (View Span)) (result : View Span) : Bool :=
  !views.any (fun view => view.isOf result.owner result.block)

/-- A block without a view loses its result. -/
def dropBlock (views : List (View Span)) (body : Body Span) (ordinal : Nat)
    (block : BlockState Span) : BlockState Span :=
  match block.result with
  | none => block
  | some result =>
    if unkept views (body.viewOf ordinal result) then block.evict (body.blockVisible ordinal)
    else block

def dropBlocks (views : List (View Span)) (body : Body Span) : Body Span :=
  { body with blocks := body.blocks.mapIdx (dropBlock views body) }

/-- The results without a view go; the loops over the bodies come to each block once. -/
def dropUnkept (sizes : Sizes) (s : Storage Span) (views : List (View Span)) :
    Option (Storage Span) :=
  ((s.held.filter (unkept views)).foldlM (forget sizes) s).map (fun dropped =>
    { dropped with bodies := s.bodies.map (dropBlocks views) })

inductive Admission where
  | admitted
  | refused
  | failed
  deriving DecidableEq, Repr

/-- `admitted` and `refused` are the two results of `admit`, `failed` is its error. -/
def admit_ (sizes : Sizes) (s : Storage Span) (owner : Owner) (ordinal : Nat) (result : Result Span)
    (allocated : Bool) : Option (Storage Span × Admission) :=
  match s.bodyFor owner with
  | none => none
  | some body =>
    if budgetBytes < result.retainedBytes sizes + sizes.view then
      some (s.updateBlock owner ordinal (fun block => { block with state := .skipped }), .refused)
    else if allocated = false then some (s, .failed)
    else
      match s.chooseViews sizes (s.views.length + 1) (s.views ++ [body.viewOf ordinal result])
        (s.retainedBytes + result.retainedBytes sizes) with
      | none => none
      | some views => (s.dropUnkept sizes views).map (fun dropped =>
          ({ (dropped.updateBlock owner ordinal (fun block => { block with
                result := some result
                state := .ready
                used := dropped.clock + 1 })) with
              views := views
              viewCapacity := views.length
              clock := dropped.clock + 1
              retainedBytes := dropped.retainedBytes + result.retainedBytes sizes }, .admitted))

end Storage

/-- What happens to a storage. Scheduling and completed work change the state of a block without a
result (`progress`). -/
inductive Op (Span : Type) where
  | get (owner : Owner) (source : Bytes) (suggestionPath : Option Bytes) (allocated : Bool)
  | remove (index : Nat)
  | finishVisibility
  | showBody (owner : Owner) (visible : Bool)
  | showPreview (owner : Owner) (ordinal : Nat) (visible : Bool)
  | progress (owner : Owner) (ordinal : Nat) (state : State)
  | admit_ (owner : Owner) (ordinal : Nat) (result : Result Span) (allocated : Bool)

/-- A body is removed where there is one, and a block that waits or is worked on makes progress. A
result is admitted for a block of a body that holds none. -/
def Op.Allowed (s : Storage Span) : Op Span → Prop
  | .remove index => index < s.bodies.length
  | .progress owner ordinal state =>
    (state = .running ∨ state = .failed ∨ state = .skipped) ∧
      ∀ body block, s.bodyFor owner = some body → body.blocks[ordinal]? = some block →
        block.state = .pending ∨ block.state = .running
  | .admit_ owner ordinal _ _ => ∃ body block, s.bodyFor owner = some body ∧
      body.blocks[ordinal]? = some block ∧ block.result = none
  | _ => True

def step (sizes : Sizes) (blockCount : Bytes → Nat) (s : Storage Span) :
    Op Span → Option (Storage Span)
  | .get owner source suggestionPath allocated =>
    (s.get sizes blockCount owner source suggestionPath allocated).map Prod.fst
  | .remove index => s.remove sizes index
  | .finishVisibility => some s.finishVisibility
  | .showBody owner visible => some (s.updateBody owner (fun body => { body with visible := visible }))
  | .showPreview owner ordinal visible =>
    some (s.updateBlock owner ordinal (fun block => { block with previewVisible := visible }))
  | .progress owner ordinal state =>
    some (s.updateBlock owner ordinal (fun block => { block with state := state }))
  | .admit_ owner ordinal result allocated =>
    (s.admit_ sizes owner ordinal result allocated).map Prod.fst

end Bbr.Tui.CodeHighlighting
