import Bbr.Review.SubmissionRecord

/-!
# The Submission state machine

A clock-free, network-free orchestrator. `advance` returns the next `Step` as data, the driver
performs the one effect it names and feeds the result back through `report`, `reportCheck` or
`completeWait`. The bookkeeping is one array per attribute, indexed by position in `order`.
-/
namespace Bbr.Review

open Bbr.Bitbucket

/-- Total tries per retryable item. -/
def maxAttempts : Nat := 3

def backoffBaseMs : Nat := 1000

/-- Backoff before the `n`-th retry: one second, then two. -/
def backoffMs (attempt : Nat) : Nat :=
  if attempt = 0 then 0 else if attempt = 1 then backoffBaseMs else backoffBaseMs * 2

/-- Whether the source head moved; tolerant of hash abbreviation, unknown sides never warn. -/
def headChanged (loaded current : Bytes) : Bool :=
  if loaded.length = 0 ∨ current.length = 0 then false
  else
    let shorter := if loaded.length ≤ current.length then loaded else current
    let longer := if loaded.length ≤ current.length then current else loaded
    !shorter.isPrefixOf longer

/-- `rejected`: the server answered with a classified error. `ambiguous`: no response arrived, so a
Comment may or may not exist. -/
inductive PostOutcome where
  | posted (id : CommentId)
  | rejected (err : ApiError)
  | ambiguous
  deriving DecidableEq, Repr

structure PostResult where
  outcome : PostOutcome
  retryAfterMs : Option Nat := none
  deriving DecidableEq, Repr

inductive CheckOutcome where
  | found (id : CommentId)
  | missing
  | rejected (err : ApiError)
  | ambiguous
  deriving DecidableEq, Repr

structure CheckResult where
  outcome : CheckOutcome
  retryAfterMs : Option Nat := none
  deriving DecidableEq, Repr

structure PostStep where
  tempId : TempId
  parent : Option CommentId
  dedupe : Bool
  deriving DecidableEq, Repr

structure WaitStep where
  ms : Nat
  tempId : TempId
  checkpoint : SubmissionRetryCheckpoint
  deriving DecidableEq, Repr

/-- The action `advance` asks its caller to take. -/
inductive Step where
  | post (effect : PostStep)
  | check (effect : PostStep)
  | wait (effect : WaitStep)
  | done
  | aborted (reason : ApiError)
  deriving DecidableEq, Repr

inductive ItemStatus where
  | posted
  | failed
  | skipped
  | outcomeUnknown
  deriving DecidableEq, Repr

/-- The fate of one Draft; `id` only where posted, `reason` for failed and skipped. -/
structure ItemResult where
  tempId : TempId
  status : ItemStatus
  id : Option CommentId := none
  reason : Option ApiError := none
  deriving DecidableEq, Repr

structure Summary where
  items : List ItemResult
  posted : Nat := 0
  failed : Nat := 0
  skipped : Nat := 0
  outcomeUnknown : Nat := 0
  aborted : Option ApiError := none
  deriving DecidableEq, Repr

inductive Policy where
  | abort
  | retry
  | fail
  deriving DecidableEq, Repr

def classifyPolicy : ApiError → Policy
  | .unauthorized | .forbidden => .abort
  | .rateLimited | .serverError => .retry
  | .badRequest | .notFound | .conflict | .unexpectedStatus | .malformedResponse => .fail

/-- Only the two retryable classes ever reach this. -/
def postReason : ApiError → SubmissionRetryReason
  | .rateLimited => .rateLimited
  | _ => .serverError

def checkReason : ApiError → SubmissionRetryReason
  | .rateLimited => .publicationCheckRateLimited
  | _ => .publicationCheckServerError

/-- Stands for the `undefined` checkpoint of a Submission that has not scheduled a wait. -/
def undefinedCheckpoint : SubmissionRetryCheckpoint :=
  ⟨.post, 0, .rateLimited, 0, none, 0, false⟩

structure Submission where
  order : List TempId
  idx : Nat := 0
  attempts : List Nat
  checkAttempts : List Nat
  ambiguousLast : List Bool
  results : List (Option ItemResult)
  mustWait : Bool := false
  retryCheckpoint : SubmissionRetryCheckpoint := undefinedCheckpoint
  terminalServerDelayMs : Option Nat := none
  abortedReason : Option ApiError := none
  deriving DecidableEq, Repr

inductive InitError where
  | draftNotFound
  | draftNotRetryable
  | invalidSubmissionGraph
  deriving DecidableEq, Repr

inductive ParentResolution where
  | ok (parent : Option CommentId)
  | blocked
  deriving DecidableEq, Repr

/-- The result a position starts with: the durable evidence of its Draft, if that settles it. -/
def initialResult (review : PendingReview) (settleFailures : Bool) (tempId : TempId) :
    Option ItemResult :=
  match review.getConst tempId with
  | none => none
  | some draft => match draft.state with
    | .posted id => some { tempId := tempId, status := .posted, id := some id }
    | .failed reason =>
      if settleFailures then some { tempId := tempId, status := .failed, reason := some reason }
      else none
    | .outcomeUnknown => some { tempId := tempId, status := .outcomeUnknown }
    | .draft | .submitting => none

namespace Submission

def initOrder (review : PendingReview) (order : List TempId) (settleFailures : Bool) : Submission where
  order := order
  attempts := order.map (fun _ => 0)
  checkAttempts := order.map (fun _ => 0)
  ambiguousLast := order.map (fun _ => false)
  results := order.map (initialResult review settleFailures)

def init (review : PendingReview) : Submission := initOrder review review.topologicalOrder false

/-- The selected participants, in order; a participant that cannot be retried fails the whole
selection, a posted one is omitted. -/
def selectSubtree (review : PendingReview) (root : TempId) :
    List TempId → Except InitError (List TempId)
  | [] => .ok []
  | tempId :: rest =>
    if descendsFrom review.drafts root tempId = false then selectSubtree review root rest
    else match review.getConst tempId with
      | none => selectSubtree review root rest
      | some draft =>
        if draft.target ≠ .bitbucket then .error .draftNotRetryable
        else match draft.state with
          | .posted _ => selectSubtree review root rest
          | .draft | .failed _ => match selectSubtree review root rest with
            | .ok order => .ok (tempId :: order)
            | .error err => .error err
          | .submitting | .outcomeUnknown => .error .draftNotRetryable

/-- Start a fresh Submission for exactly one selected Draft subtree. -/
def initSubtree (review : PendingReview) (root : TempId) : Except InitError Submission :=
  match review.getConst root with
  | none => .error .draftNotFound
  | some selected =>
    if selected.target ≠ .bitbucket then .error .draftNotRetryable
    else match selected.state with
      | .failed _ | .draft => match selectSubtree review root review.topologicalOrder with
        | .error err => .error err
        | .ok order =>
          if order.length = 0 then .error .draftNotRetryable
          else .ok (initOrder review order false)
      | _ => .error .draftNotRetryable

/-- The frozen order, after rechecking that every participant still has its frozen parent. -/
def frozenOrder (review : PendingReview) : List SubmissionRunItem → Except InitError (List TempId)
  | [] => .ok []
  | item :: rest => match review.getConst item.tempId with
    | none => .error .draftNotFound
    | some draft =>
      if parentEql draft.parent item.parent = false then .error .invalidSubmissionGraph
      else match frozenOrder review rest with
        | .ok order => .ok (item.tempId :: order)
        | .error err => .error err

/-- Rebuild an interrupted Submission from its durable participants. -/
def initFrozen (review : PendingReview) (items : List SubmissionRunItem) :
    Except InitError Submission :=
  match frozenOrder review items with
  | .ok order => .ok (initOrder review order true)
  | .error err => .error err

def attempt (self : Submission) (i : Nat) : Nat := self.attempts.getD i 0
def checkAttempt (self : Submission) (i : Nat) : Nat := self.checkAttempts.getD i 0
def ambiguous (self : Submission) (i : Nat) : Bool := self.ambiguousLast.getD i false
def result (self : Submission) (i : Nat) : Option ItemResult := self.results.getD i none

def setResult (self : Submission) (i : Nat) (r : ItemResult) : Submission :=
  { self with results := self.results.set i (some r) }

/-- Decide the position in flight and move past it. -/
def settle (self : Submission) (i : Nat) (r : ItemResult) : Submission :=
  { self.setResult i r with idx := self.idx + 1 }

/-- The first position of the Draft in `order`, where the parent's outcome is recorded. -/
def position (self : Submission) (tempId : TempId) : Option Nat :=
  self.order.findIdx? (fun tid => tid == tempId)

/-- Resolve a Draft's parent to the server id a Reply must be posted against. -/
def resolveParent (self : Submission) (review : PendingReview) (d : Draft) : ParentResolution :=
  match d.parent with
  | none => .ok none
  | some (.comment cid) => .ok (some cid)
  | some (.draft pid) => match self.position pid with
    | some i => match self.result i with
      | none => .blocked
      | some r => if r.status = .posted then .ok r.id else .blocked
    | none => match review.getConst pid with
      | none => .blocked
      | some parent => match parent.state with
        | .posted id => .ok (some id)
        | _ => .blocked

/-- The ancestor error that blocks a Draft. -/
def parentReason (self : Submission) (review : PendingReview) (d : Draft) : Option ApiError :=
  match d.parent with
  | none => none
  | some (.comment _) => none
  | some (.draft pid) => match self.position pid with
    | some i => match self.result i with
      | some r => r.reason
      | none => none
    | none => match review.getConst pid with
      | none => none
      | some parent => match parent.state with
        | .failed err => some err
        | _ => none

/-- The `while` loop of `advance`, over the positions from `idx` on. -/
def advanceFrom (review : PendingReview) : List TempId → Submission → Step × Submission
  | [], self => (.done, self)
  | tid :: rest, self =>
    let i := self.idx
    if (self.result i).isSome then advanceFrom review rest { self with idx := i + 1 }
    else match review.getConst tid with
      | none => advanceFrom review rest { self with idx := i + 1 }
      | some d =>
        if d.target = .localOnly then advanceFrom review rest { self with idx := i + 1 }
        else match d.state with
          | .posted id =>
            advanceFrom review rest
              (self.settle i { tempId := tid, status := .posted, id := some id })
          | _ => match self.resolveParent review d with
            | .blocked =>
              advanceFrom review rest
                (self.settle i
                  { tempId := tid, status := .skipped, reason := self.parentReason review d })
            | .ok parent =>
              if self.mustWait then
                (.wait ⟨self.retryCheckpoint.effectiveDelayMs, tid, self.retryCheckpoint⟩, self)
              else
                let effect : PostStep := ⟨tid, parent, self.ambiguous i⟩
                if self.ambiguous i then (.check effect, self) else (.post effect, self)

/-- The next action to take, and the state in which the driver performs it. -/
def advance (review : PendingReview) (self : Submission) : Step × Submission :=
  match self.abortedReason with
  | some e => (.aborted e, self)
  | none => advanceFrom review (self.order.drop self.idx) self

def completeWait (self : Submission) : Submission := { self with mustWait := false }

def setWait (self : Submission) (phase : SubmissionRetryPhase) (attempt : Nat)
    (reason : SubmissionRetryReason) (serverDelayMs : Option Nat) : Submission :=
  { self with retryCheckpoint :=
      { phase := phase, attempt := attempt, reason := reason,
        localDelayMs := backoffMs attempt, serverDelayMs := serverDelayMs,
        effectiveDelayMs := max (backoffMs attempt) (serverDelayMs.getD 0), pendingWait := true } }

/-- The local delay identifies the failed check attempt; `attempt` keeps the POST budget. -/
def setCheckWait (self : Submission) (i : Nat) (reason : SubmissionRetryReason)
    (serverDelayMs : Option Nat) : Submission :=
  { self with retryCheckpoint :=
      { phase := .publicationCheck, attempt := self.attempt i, reason := reason,
        localDelayMs := backoffMs (self.checkAttempt i), serverDelayMs := serverDelayMs,
        effectiveDelayMs := max (backoffMs (self.checkAttempt i)) (serverDelayMs.getD 0),
        pendingWait := true } }

def failItem (self : Submission) (i : Nat) (tid : TempId) (err : ApiError) : Submission :=
  self.settle i { tempId := tid, status := .failed, reason := some err }

def scheduleRetryOrFail (self : Submission) (i : Nat) (tid : TempId) (err : ApiError)
    (retryAfterMs : Option Nat) : Submission :=
  let self := { self with attempts := self.attempts.set i (self.attempt i + 1) }
  if self.attempt i ≥ maxAttempts then
    { self with terminalServerDelayMs := retryAfterMs }.failItem i tid err
  else
    let self := { self with ambiguousLast := self.ambiguousLast.set i false }
    { self.setWait .post (self.attempt i) (postReason err) retryAfterMs with mustWait := true }

def scheduleCheckRetryOrUnknown (self : Submission) (i : Nat) (tid : TempId)
    (reason : SubmissionRetryReason) (retryAfterMs : Option Nat) : Submission :=
  let self := { self with checkAttempts := self.checkAttempts.set i (self.checkAttempt i + 1) }
  if self.checkAttempt i ≥ maxAttempts then
    self.settle i { tempId := tid, status := .outcomeUnknown }
  else { self.setCheckWait i reason retryAfterMs with mustWait := true }

/-- Feed back the outcome of the `.post` step `advance` last returned. Out of range, where the
source would stop on its bounds check, nothing changes. -/
def report (self : Submission) (outcome : PostOutcome) (retryAfterMs : Option Nat) : Submission :=
  let self := { self with terminalServerDelayMs := none }
  let i := self.idx
  match self.order[i]? with
  | none => self
  | some tid => match outcome with
    | .posted cid =>
      { self with ambiguousLast := self.ambiguousLast.set i false }.settle i
        { tempId := tid, status := .posted, id := some cid }
    | .rejected err => match classifyPolicy err with
      | .abort => { self with abortedReason := some err }
      | .retry => self.scheduleRetryOrFail i tid err retryAfterMs
      | .fail => self.failItem i tid err
    | .ambiguous =>
      { self with
        attempts := self.attempts.set i (self.attempt i + 1)
        ambiguousLast := self.ambiguousLast.set i true
        checkAttempts := self.checkAttempts.set i 0 }

/-- Feed back one Duplicate-guard read; only a definite `missing` allows another POST. -/
def reportCheck (self : Submission) (result : CheckResult) : Submission :=
  let i := self.idx
  match self.order[i]? with
  | none => self
  | some tid => match result.outcome with
    | .found id =>
      { self with ambiguousLast := self.ambiguousLast.set i false }.settle i
        { tempId := tid, status := .posted, id := some id }
    | .missing =>
      let self := { self with
        ambiguousLast := self.ambiguousLast.set i false
        checkAttempts := self.checkAttempts.set i 0 }
      if self.attempt i ≥ maxAttempts then
        self.settle i { tempId := tid, status := .outcomeUnknown }
      else
        { self.setWait .post (self.attempt i) .ambiguousPost result.retryAfterMs with
          mustWait := true }
    | .rejected err => match classifyPolicy err with
      | .retry => self.scheduleCheckRetryOrUnknown i tid (checkReason err) result.retryAfterMs
      | .abort | .fail => self.settle i { tempId := tid, status := .outcomeUnknown }
    | .ambiguous =>
      self.scheduleCheckRetryOrUnknown i tid .publicationCheckTransport result.retryAfterMs

/-- Restore a durable retry point at the position `idx` names. -/
def restoreRetry (self : Submission) (checkpoint : SubmissionRetryCheckpoint) : Submission :=
  let i := self.idx
  { self with
    retryCheckpoint := checkpoint
    attempts := self.attempts.set i checkpoint.attempt
    checkAttempts := self.checkAttempts.set i
      (if checkpoint.phase = .publicationCheck then
        (if checkpoint.localDelayMs = backoffMs 1 then 1 else 2) else 0)
    ambiguousLast := self.ambiguousLast.set i
      (checkpoint.phase = .publicationCheck || !checkpoint.pendingWait)
    mustWait := checkpoint.pendingWait }

def countResult (s : Summary) (r : ItemResult) : Summary :=
  let s := { s with items := s.items ++ [r] }
  match r.status with
  | .posted => { s with posted := s.posted + 1 }
  | .failed => { s with failed := s.failed + 1 }
  | .skipped => { s with skipped := s.skipped + 1 }
  | .outcomeUnknown => { s with outcomeUnknown := s.outcomeUnknown + 1 }

def summary (self : Submission) : Summary :=
  (self.results.filterMap id).foldl countResult { items := [], aborted := self.abortedReason }

/-- Valid after `.done`. -/
def isClean (self : Submission) : Bool :=
  self.abortedReason.isNone &&
    (self.results.filterMap id).all (fun r => decide (r.status = .posted))

end Submission

end Bbr.Review
