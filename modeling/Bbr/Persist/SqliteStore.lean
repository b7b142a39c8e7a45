import Bbr.Diff.Path
import Bbr.Review.Store
import Mathlib.Algebra.Group.Nat.Defs

/-!
# The SQLite Draft store

The `drafts` table with its columns, the statement that writes a Draft and the decoder of its rows. Of
the other tables only the columns that `put` reads are here. A column that may be NULL is an optional
integer or byte string. What makes the engine refuse a write (a full disk, a record over its limit)
is a parameter.
-/
namespace Bbr.Persist

open Bbr.Bitbucket Bbr.Diff Bbr.Lib Bbr.Review

/-- `integerOverflow` and `invalidEnum` are the traps of `@intCast` and `@enumFromInt`. -/
inductive SqliteError where
  | draftLocked
  | draftParentMissing
  | step
  | integerOverflow
  | invalidEnum
  deriving DecidableEq, Repr

def toI64 (n : Nat) : Except SqliteError Int :=
  if n < 2 ^ 63 then .ok n else .error .integerOverflow

def fromI64 (limit : Nat) (v : Int) : Except SqliteError Nat :=
  if 0 ≤ v ∧ v < limit then .ok v.toNat else .error .integerOverflow

def toU64 (v : Int) : Except SqliteError Nat := fromI64 (2 ^ 64) v

def toU32 (v : Int) : Except SqliteError Nat := fromI64 (2 ^ 32) v

/-- `SQLITE_MAX_LENGTH`. -/
def maxLength : Nat := 1000000000

/-- The length is cast to a `c_int`. A text over the limit of the engine is refused, the refusal
ignored, and the parameter stays NULL. -/
def bindText (s : Bytes) : Except SqliteError (Option Bytes) :=
  if s.length < 2 ^ 31 then .ok (if s.length ≤ maxLength then some s else none)
  else .error .integerOverflow

def bindOptText : Option Bytes → Except SqliteError (Option Bytes)
  | none => .ok none
  | some s => bindText s

def bindOptU32 (v : Option Nat) : Option Int := v.map Int.ofNat

/-- A NOT NULL column. -/
def notNull : Option Bytes → Except SqliteError Bytes
  | none => .error .step
  | some s => .ok s

structure DraftRow where
  prId : Int
  localId : Int
  kind : Int
  target : Int
  parentKind : Int
  parentId : Option Int
  anchorPath : Option Bytes
  anchorFrom : Option Int
  anchorTo : Option Int
  anchorCommit : Option Bytes
  body : Bytes
  stateKind : Int
  stateId : Option Int
  stateErr : Option Bytes
  anchorStartFrom : Option Int
  anchorStartTo : Option Int
  workspace : Bytes
  repository : Bytes
  snapshotText : Option Bytes
  snapshotSelectionStart : Option Int
  snapshotSelectionLen : Option Int
  scopeKind : Option Int
  fileSourceCommit : Option Bytes
  deriving DecidableEq, Repr

/-- The primary key of `drafts` and of `posted_drafts`. -/
structure RowId where
  workspace : Bytes
  repository : Bytes
  prId : Int
  tempId : Int
  deriving DecidableEq, Repr

def DraftRow.id (row : DraftRow) : RowId := ⟨row.workspace, row.repository, row.prId, row.localId⟩

structure PostedRow where
  id : RowId
  commentId : Int
  deriving DecidableEq, Repr

/-- A row of `submission_runs`; `state` 0 is the active run. -/
structure RunRow where
  operationId : Int
  workspace : Bytes
  repository : Bytes
  prId : Int
  state : Int
  deriving DecidableEq, Repr

/-- A row of `submission_run_items`. -/
structure RunItemRow where
  operationId : Int
  tempId : Int
  deriving DecidableEq, Repr

structure Database where
  drafts : Keyed DraftRow.id := .empty
  postedDrafts : Keyed PostedRow.id := .empty
  submissionRuns : List RunRow := []
  submissionRunItems : List RunItemRow := []

def errorName : ApiError → Bytes
  | .unauthorized => ascii "Unauthorized"
  | .forbidden => ascii "Forbidden"
  | .badRequest => ascii "BadRequest"
  | .notFound => ascii "NotFound"
  | .rateLimited => ascii "RateLimited"
  | .conflict => ascii "Conflict"
  | .serverError => ascii "ServerError"
  | .unexpectedStatus => ascii "UnexpectedStatus"
  | .malformedResponse => ascii "MalformedResponse"

def apiErrorTable : List (Bytes × ApiError) :=
  [(ascii "Unauthorized", .unauthorized), (ascii "Forbidden", .forbidden),
    (ascii "BadRequest", .badRequest), (ascii "NotFound", .notFound),
    (ascii "Conflict", .conflict), (ascii "RateLimited", .rateLimited),
    (ascii "ServerError", .serverError), (ascii "MalformedResponse", .malformedResponse),
    (ascii "UnexpectedStatus", .unexpectedStatus)]

/-- Unknown names degrade to `unexpectedStatus`. -/
def apiErrorFromName (name : Bytes) : ApiError :=
  match apiErrorTable.find? (fun row => decide (row.1 = name)) with
  | some row => row.2
  | none => .unexpectedStatus

def kindTag : DraftKind → Int
  | .comment => 0
  | .suggestion => 1

def targetTag : CommentTarget → Int
  | .bitbucket => 0
  | .localOnly => 1

/-- `parent_kind` and `parent_id`. -/
def bindParent : Option Parent → Except SqliteError (Int × Option Int)
  | none => .ok (0, none)
  | some (.draft id) => do return (1, some (← toI64 id))
  | some (.comment id) => do return (2, some (← toI64 id))

structure AnchorColumns where
  path : Option Bytes := none
  fromLine : Option Int := none
  toLine : Option Int := none
  commit : Option Bytes := none
  startFrom : Option Int := none
  startTo : Option Int := none

/-- A File scope shares the path column with the Anchor. -/
def bindAnchor : Option CommentScope → Except SqliteError AnchorColumns
  | some (.inline a) => do
    let path ← bindText a.path
    let commit ← bindOptText a.commit
    return ⟨path, bindOptU32 a.fromLine, bindOptU32 a.toLine, commit, bindOptU32 a.startFrom,
      bindOptU32 a.startTo⟩
  | some (.file file) => do return { path := ← bindText file.path }
  | some .review => .ok {}
  | none => .ok {}

/-- `state_kind`, `state_id` and `state_err`. -/
def bindState : DraftState → Except SqliteError (Int × Option Int × Option Bytes)
  | .draft => .ok (0, none, none)
  | .submitting => .ok (1, none, none)
  | .posted id => do return (2, some (← toI64 id), none)
  | .failed e => do return (3, none, ← bindText (errorName e))
  | .outcomeUnknown => .ok (4, none, none)

/-- The three `snapshot` columns. -/
def bindSnapshot : Option AnchorSnapshot → Except SqliteError (Option Bytes × Option Int × Option Int)
  | none => .ok (none, none, none)
  | some snapshot => do
    return (← bindText snapshot.text, some (Int.ofNat snapshot.selectionStart),
      some (Int.ofNat snapshot.selectionLen))

/-- `scope_kind` and `file_source_commit`. -/
def bindScope : Option CommentScope → Except SqliteError (Option Int × Option Bytes)
  | none => .ok (none, none)
  | some .review => .ok (some 0, none)
  | some (.file file) => do return (some 1, ← bindText file.sourceCommit)
  | some (.inline _) => .ok (some 2, none)

def rootScope (d : Draft) : Option CommentScope :=
  if d.parent = none then some d.effectiveScope else none

/-- The row that the statement of `putImpl` inserts. -/
def draftRow (key : RemoteReviewIdentity) (d : Draft) : Except SqliteError DraftRow := do
  let prId ← toI64 key.pullRequestId
  let localId ← toI64 d.localId
  let (parentKind, parentId) ← bindParent d.parent
  let anchor ← bindAnchor (rootScope d)
  let body ← bindText d.body
  let (stateKind, stateId, stateErr) ← bindState d.state
  let workspace ← bindText key.workspace
  let repository ← bindText key.repository
  let (snapshotText, selectionStart, selectionLen) ← bindSnapshot d.snapshot
  let (scopeKind, sourceCommit) ← bindScope (rootScope d)
  return {
    prId := prId
    localId := localId
    kind := kindTag d.kind
    target := targetTag d.target
    parentKind := parentKind
    parentId := parentId
    anchorPath := anchor.path
    anchorFrom := anchor.fromLine
    anchorTo := anchor.toLine
    anchorCommit := anchor.commit
    body := ← notNull body
    stateKind := stateKind
    stateId := stateId
    stateErr := stateErr
    anchorStartFrom := anchor.startFrom
    anchorStartTo := anchor.startTo
    workspace := ← notNull workspace
    repository := ← notNull repository
    snapshotText := snapshotText
    snapshotSelectionStart := selectionStart
    snapshotSelectionLen := selectionLen
    scopeKind := scopeKind
    fileSourceCommit := sourceCommit }

namespace Database

/-- The parameters of a `WHERE` over the primary key; a text that is NULL matches no row. -/
structure BoundId where
  workspace : Option Bytes
  repository : Option Bytes
  prId : Int
  tempId : Int

def bindId (key : RemoteReviewIdentity) (tempId : TempId) : Except SqliteError BoundId := do
  return ⟨← bindText key.workspace, ← bindText key.repository, ← toI64 key.pullRequestId,
    ← toI64 tempId⟩

def BoundId.matches (bound : BoundId) (id : RowId) : Bool :=
  decide (some id.workspace = bound.workspace ∧ some id.repository = bound.repository ∧
    id.prId = bound.prId ∧ id.tempId = bound.tempId)

def draftExists (db : Database) (key : RemoteReviewIdentity) (localId : TempId) :
    Except SqliteError Bool := do
  let bound ← bindId key localId
  return db.drafts.rows.any (fun row => bound.matches row.id)

/-- An unknown outcome, or a place in the active run. -/
def draftMutationLocked (db : Database) (key : RemoteReviewIdentity) (localId : TempId) :
    Except SqliteError Bool := do
  let bound ← bindId key localId
  let stateKind := (db.drafts.rows.find? (fun row => bound.matches row.id)).map DraftRow.stateKind
  let participates := db.submissionRuns.any (fun run => decide (run.state = 0) &&
    decide (some run.workspace = bound.workspace ∧ some run.repository = bound.repository ∧
      run.prId = bound.prId) &&
    db.submissionRunItems.any (fun item =>
      decide (item.operationId = run.operationId ∧ item.tempId = bound.tempId)))
  return decide (stateKind = some 4) || participates

def postedComment (db : Database) (key : RemoteReviewIdentity) (tempId : TempId) :
    Except SqliteError (Option CommentId) := do
  let bound ← bindId key tempId
  match db.postedDrafts.rows.find? (fun row => bound.matches row.id) with
  | none => return none
  | some row => return some (← toU64 row.commentId)

/-- A Reply to a Draft that is gone replies to the Comment that the Draft became. -/
def putParent (db : Database) (key : RemoteReviewIdentity) (parent : Option Parent) :
    Except SqliteError (Option Parent) :=
  match parent with
  | some (.draft id) => do
    if ← db.draftExists key id then return parent
    match ← db.postedComment key id with
    | some comment => return some (.comment comment)
    | none => throw .draftParentMissing
  | _ => .ok parent

/-- INSERT OR REPLACE within a transaction that is rolled back on an error. -/
def putImpl (db : Database) (writes : DraftRow → Bool) (key : RemoteReviewIdentity)
    (incoming : Draft) : Except SqliteError (Database × Option Parent) := do
  if ← db.draftMutationLocked key incoming.localId then throw .draftLocked
  let parent ← db.putParent key incoming.parent
  let row ← draftRow key { incoming with parent := parent }
  if writes row then return ({ db with drafts := db.drafts.put row }, parent) else throw .step

end Database

/-- A NULL reads as zero. -/
def columnInt (column : Option Int) : Int := column.getD 0

def columnOptU32 : Option Int → Except SqliteError (Option Nat)
  | none => .ok none
  | some v => do return some (← toU32 v)

def readKind (v : Int) : Except SqliteError DraftKind :=
  if v = 0 then .ok .comment else if v = 1 then .ok .suggestion else .error .invalidEnum

def readTarget (v : Int) : Except SqliteError CommentTarget :=
  if v = 0 then .ok .bitbucket else if v = 1 then .ok .localOnly else .error .invalidEnum

def readParent (row : DraftRow) : Except SqliteError (Option Parent) :=
  if row.parentKind = 1 then do return some (.draft (← toU64 (columnInt row.parentId)))
  else if row.parentKind = 2 then do return some (.comment (← toU64 (columnInt row.parentId)))
  else .ok none

def present : Option Bytes → Except SqliteError Bytes
  | none => .error .step
  | some text => .ok text

/-- The Anchor columns of an inline root. -/
def readAnchor (row : DraftRow) : Except SqliteError Anchor := do
  return {
    path := ← present row.anchorPath
    fromLine := ← columnOptU32 row.anchorFrom
    toLine := ← columnOptU32 row.anchorTo
    commit := row.anchorCommit
    startFrom := ← columnOptU32 row.anchorStartFrom
    startTo := ← columnOptU32 row.anchorStartTo }

/-- The scope of a root and its Anchor; a Reply has neither. -/
def readScope (row : DraftRow) (parent : Option Parent) :
    Except SqliteError (Option CommentScope × Option Anchor) :=
  match parent, row.scopeKind with
  | some _, _ => .ok (none, none)
  | none, none => .ok (none, none)
  | none, some kind =>
    if kind = 0 then .ok (some .review, none)
    else if kind = 1 then do
      let path ← present row.anchorPath
      let sourceCommit ← present row.fileSourceCommit
      return (some (.file ⟨path, sourceCommit⟩), none)
    else if kind = 2 then do
      let anchor ← readAnchor row
      return (some (.inline anchor), some anchor)
    else .error .step

def readState (row : DraftRow) : Except SqliteError DraftState :=
  if row.stateKind = 2 then do return .posted (← toU64 (columnInt row.stateId))
  else if row.stateKind = 3 then .ok (.failed (apiErrorFromName (row.stateErr.getD [])))
  else if row.stateKind = 4 then .ok .outcomeUnknown
  else if row.stateKind = 1 then .ok .submitting
  else .ok .draft

def readSnapshot (row : DraftRow) : Except SqliteError (Option AnchorSnapshot) :=
  match row.snapshotText with
  | none => .ok none
  | some text => do
    return some ⟨text, ← toU32 (columnInt row.snapshotSelectionStart),
      ← toU32 (columnInt row.snapshotSelectionLen)⟩

def rowToDraft (row : DraftRow) : Except SqliteError Draft := do
  let parent ← readParent row
  let (scope, anchor) ← readScope row parent
  let state ← readState row
  let snapshot ← readSnapshot row
  return {
    localId := ← toU64 row.localId
    kind := ← readKind row.kind
    target := ← readTarget row.target
    scope := scope
    anchor := anchor
    snapshot := snapshot
    parent := parent
    body := row.body
    state := state }

namespace Database

def legacy (prId : Int) (row : DraftRow) : Bool :=
  decide (row.workspace = [] ∧ row.repository = [] ∧ row.prId = prId)

def claimRow (workspace repository : Bytes) (prId : Int) (row : DraftRow) : DraftRow :=
  if legacy prId row then { row with workspace := workspace, repository := repository } else row

/-- The first load of a Review takes over the rows of its number that have no repository. -/
def claimLegacyRows (db : Database) (key : RemoteReviewIdentity) : Except SqliteError Database := do
  let workspace ← bindText key.workspace
  let repository ← bindText key.repository
  let prId ← toI64 key.pullRequestId
  if db.drafts.rows.any (legacy prId) then
    let workspace ← notNull workspace
    let repository ← notNull repository
    let rows := db.drafts.rows.map (claimRow workspace repository prId)
    if h : (rows.map DraftRow.id).Nodup then return { db with drafts := ⟨rows, h⟩ } else throw .step
  else return db

def selectDrafts (db : Database) (key : RemoteReviewIdentity) : Except SqliteError (List DraftRow) := do
  let workspace ← bindText key.workspace
  let repository ← bindText key.repository
  let prId ← toI64 key.pullRequestId
  return (db.drafts.rows.filter (fun row => decide (some row.workspace = workspace ∧
    some row.repository = repository ∧ row.prId = prId))).mergeSort
      (fun a b => decide (a.localId ≤ b.localId))

def loadImpl (db : Database) (key : RemoteReviewIdentity) :
    Except SqliteError (Database × List Draft) := do
  let db ← db.claimLegacyRows key
  let drafts ← (← db.selectDrafts key).mapM rowToDraft
  return (db, drafts)

end Database

end Bbr.Persist
