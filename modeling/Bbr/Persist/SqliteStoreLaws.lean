import Bbr.Lib.Results
import Bbr.Persist.SqliteStore

/-!
# Drafts survive the store

What the insert statement writes is read back as the Draft that was given, with its scope in the one
form the columns have: a root carries its effective scope and mirrors an inline one in the
transitional Anchor, a Reply carries neither.
-/
namespace Bbr.Persist

open Bbr.Bitbucket Bbr.Diff Bbr.Lib Bbr.Review Except Keyed

def CommentScope.anchor : CommentScope → Option Anchor
  | .inline a => some a
  | _ => none

/-- The form of a Draft whose scope is read from the columns. -/
def canonical (d : Draft) : Draft :=
  { d with
    scope := rootScope d
    anchor := (rootScope d).bind CommentScope.anchor }

def anchorTexts (a : Anchor) : List Bytes := a.path :: a.commit.toList

def anchorLines (a : Anchor) : List Nat :=
  a.fromLine.toList ++ a.toLine.toList ++ a.startFrom.toList ++ a.startTo.toList

def scopeTexts : CommentScope → List Bytes
  | .review => []
  | .file file => [file.path, file.sourceCommit]
  | .inline a => anchorTexts a

def scopeLines : CommentScope → List Nat
  | .inline a => anchorLines a
  | _ => []

/-- The texts of a Draft beside its body are within the limit of the engine, and its line numbers
are the 32-bit numbers that their type says. -/
structure Storable (d : Draft) : Prop where
  scope : ∀ text ∈ scopeTexts d.effectiveScope, text.length ≤ maxLength
  snapshot : ∀ s ∈ d.snapshot, s.text.length ≤ maxLength
  lines : ∀ line ∈ scopeLines d.effectiveScope, line < 2 ^ 32
  selection : ∀ s ∈ d.snapshot, s.selectionStart < 2 ^ 32 ∧ s.selectionLen < 2 ^ 32

variable {n : Nat} {v : Int}

theorem toI64_ok (h : toI64 n = .ok v) : v = n ∧ n < 2 ^ 63 := by
  unfold toI64 at h
  split at h
  · next hn => exact ⟨(ok.inj h).symm, hn⟩
  · cases h

theorem fromI64_cast {limit : Nat} (h : n < limit) : fromI64 limit (n : Int) = .ok n := by
  unfold fromI64
  rw [if_pos ⟨by omega, by omega⟩, Int.toNat_natCast]

theorem toU64_toI64 (h : toI64 n = .ok v) : toU64 v = .ok n := by
  obtain ⟨rfl, hn⟩ := toI64_ok h
  exact fromI64_cast (by omega)

variable {s : Bytes}

theorem bindText_within (h : s.length ≤ maxLength) : bindText s = .ok (some s) := by
  have hmax : maxLength < 2 ^ 31 := by decide
  unfold bindText
  rw [if_pos (by omega), if_pos h]

theorem bindText_some {t : Bytes} (h : bindText s = .ok (some t)) : t = s := by
  unfold bindText at h
  split at h
  · split at h
    · exact (Option.some.inj (ok.inj h)).symm
    · cases ok.inj h
  · cases h

variable {o : Option Bytes}

theorem notNull_ok (h : notNull o = .ok s) : o = some s := by
  cases o with
  | none => cases h
  | some t => rw [ok.inj h]

theorem columnOptU32_bind {v : Option Nat} (h : ∀ line ∈ v, line < 2 ^ 32) :
    columnOptU32 (bindOptU32 v) = .ok v := by
  cases v with
  | none => rfl
  | some line =>
    have hread : toU32 (line : Int) = .ok line := fromI64_cast (h line rfl)
    change (do return some (← toU32 (line : Int))) = _
    rw [hread]
    rfl

@[simp] theorem apiErrorFromName_errorName (e : ApiError) : apiErrorFromName (errorName e) = e := by
  cases e <;> decide

theorem errorName_length (e : ApiError) : (errorName e).length ≤ maxLength := by
  cases e <;> decide

@[simp] theorem readKind_kindTag (k : DraftKind) : readKind (kindTag k) = .ok k := by
  cases k <;> rfl

@[simp] theorem readTarget_targetTag (t : CommentTarget) : readTarget (targetTag t) = .ok t := by
  cases t <;> rfl

variable {row : DraftRow} {d : Draft}

theorem readParent_bind {parent : Option Parent}
    (h : bindParent parent = .ok (row.parentKind, row.parentId)) : readParent row = .ok parent := by
  unfold readParent
  match parent with
  | none =>
    obtain ⟨hk, -⟩ := Prod.mk.inj (ok.inj h)
    rw [← hk]
    rfl
  | some (.draft id) =>
    obtain ⟨v, hv, h⟩ := bind_ok h
    obtain ⟨hk, hi⟩ := Prod.mk.inj (ok.inj h)
    have hread : toU64 (columnInt (some v)) = .ok id := toU64_toI64 hv
    rw [← hk, ← hi, if_pos rfl, hread]
    rfl
  | some (.comment id) =>
    obtain ⟨v, hv, h⟩ := bind_ok h
    obtain ⟨hk, hi⟩ := Prod.mk.inj (ok.inj h)
    have hread : toU64 (columnInt (some v)) = .ok id := toU64_toI64 hv
    rw [← hk, ← hi, if_neg (by decide), if_pos rfl, hread]
    rfl

theorem readState_bind {state : DraftState}
    (h : bindState state = .ok (row.stateKind, row.stateId, row.stateErr)) :
    readState row = .ok state := by
  unfold readState
  cases state with
  | draft | submitting | outcomeUnknown =>
    obtain ⟨hk, -⟩ := Prod.mk.inj (ok.inj h)
    rw [← hk]
    rfl
  | posted id =>
    obtain ⟨v, hv, h⟩ := bind_ok h
    obtain ⟨hk, hrest⟩ := Prod.mk.inj (ok.inj h)
    obtain ⟨hi, -⟩ := Prod.mk.inj hrest
    have hread : toU64 (columnInt (some v)) = .ok id := toU64_toI64 hv
    rw [← hk, ← hi, if_pos rfl, hread]
    rfl
  | failed e =>
    obtain ⟨name, hname, h⟩ := bind_ok h
    obtain ⟨hk, hrest⟩ := Prod.mk.inj (ok.inj h)
    obtain ⟨-, he⟩ := Prod.mk.inj hrest
    rw [bindText_within (errorName_length e)] at hname
    rw [← hk, ← he, ← ok.inj hname, if_neg (by decide), if_pos rfl, Option.getD_some,
      apiErrorFromName_errorName]

theorem readSnapshot_bind {snapshot : Option AnchorSnapshot}
    (htext : ∀ s ∈ snapshot, s.text.length ≤ maxLength)
    (hnumbers : ∀ s ∈ snapshot, s.selectionStart < 2 ^ 32 ∧ s.selectionLen < 2 ^ 32)
    (h : bindSnapshot snapshot =
      .ok (row.snapshotText, row.snapshotSelectionStart, row.snapshotSelectionLen)) :
    readSnapshot row = .ok snapshot := by
  unfold readSnapshot
  cases snapshot with
  | none =>
    obtain ⟨ht, -⟩ := Prod.mk.inj (ok.inj h)
    rw [← ht]
  | some s =>
    obtain ⟨text, htext', h⟩ := bind_ok h
    obtain ⟨ht, hrest⟩ := Prod.mk.inj (ok.inj h)
    obtain ⟨hs, hl⟩ := Prod.mk.inj hrest
    rw [bindText_within (htext s rfl)] at htext'
    have hstart : toU32 (columnInt (some (Int.ofNat s.selectionStart))) = .ok s.selectionStart :=
      fromI64_cast (hnumbers s rfl).1
    have hlen : toU32 (columnInt (some (Int.ofNat s.selectionLen))) = .ok s.selectionLen :=
      fromI64_cast (hnumbers s rfl).2
    rw [← ht, ← hs, ← hl, ← ok.inj htext', hstart, hlen]
    rfl

/-- The Anchor columns of a row. -/
def anchorColumns (row : DraftRow) : AnchorColumns :=
  ⟨row.anchorPath, row.anchorFrom, row.anchorTo, row.anchorCommit, row.anchorStartFrom,
    row.anchorStartTo⟩

theorem readAnchor_bind {a : Anchor} (htexts : ∀ text ∈ anchorTexts a, text.length ≤ maxLength)
    (hlines : ∀ line ∈ anchorLines a, line < 2 ^ 32)
    (h : bindAnchor (some (.inline a)) = .ok (anchorColumns row)) : readAnchor row = .ok a := by
  obtain ⟨path, hpath, h⟩ := bind_ok h
  obtain ⟨commit, hcommit, h⟩ := bind_ok h
  rw [bindText_within (htexts a.path (by simp [anchorTexts]))] at hpath
  have hcommit' : commit = a.commit := by
    cases hc : a.commit with
    | none =>
      rw [hc] at hcommit
      exact (Except.ok.inj hcommit).symm
    | some text =>
      rw [hc] at hcommit
      have hwithin := bindText_within (htexts text (by simp [anchorTexts, hc]))
      exact (Except.ok.inj (hwithin.symm.trans hcommit)).symm
  simp only [anchorColumns, pure, Except.pure, Except.ok.injEq, AnchorColumns.mk.injEq] at h
  obtain ⟨h₁, h₂, h₃, h₄, h₅, h₆⟩ := h
  have hread {v : Option Nat} (hv : ∀ line, v = some line → line ∈ anchorLines a) :
      columnOptU32 (bindOptU32 v) = .ok v :=
    columnOptU32_bind (fun line hline => hlines line (hv line hline))
  have hfrom : columnOptU32 (bindOptU32 a.fromLine) = .ok a.fromLine :=
    hread (fun line hl => by simp [anchorLines, hl])
  have hto : columnOptU32 (bindOptU32 a.toLine) = .ok a.toLine :=
    hread (fun line hl => by simp [anchorLines, hl])
  have hstartFrom : columnOptU32 (bindOptU32 a.startFrom) = .ok a.startFrom :=
    hread (fun line hl => by simp [anchorLines, hl])
  have hstartTo : columnOptU32 (bindOptU32 a.startTo) = .ok a.startTo :=
    hread (fun line hl => by simp [anchorLines, hl])
  unfold readAnchor
  rw [← h₁, ← h₂, ← h₃, ← h₄, ← h₅, ← h₆, ← Except.ok.inj hpath, hcommit', hfrom, hto, hstartFrom,
    hstartTo]
  rfl

theorem readScope_bind (hd : Storable d) (hanchor : bindAnchor (rootScope d) = .ok (anchorColumns row))
    (hscope : bindScope (rootScope d) = .ok (row.scopeKind, row.fileSourceCommit)) :
    readScope row d.parent = .ok (rootScope d, (rootScope d).bind CommentScope.anchor) := by
  unfold readScope
  cases hp : d.parent with
  | some parent => simp [rootScope, hp]
  | none =>
    have hroot : rootScope d = some d.effectiveScope := by simp [rootScope, hp]
    have htexts := hd.scope
    have hlines := hd.lines
    rw [hroot] at hanchor hscope ⊢
    cases hs : d.effectiveScope with
    | review =>
      rw [hs] at hscope
      obtain ⟨hk, -⟩ := Prod.mk.inj (ok.inj hscope)
      rw [← hk]
      rfl
    | file file =>
      rw [hs] at hanchor hscope htexts
      obtain ⟨path, hpath, hanchor⟩ := bind_ok hanchor
      obtain ⟨commit, hcommit, hscope⟩ := bind_ok hscope
      rw [bindText_within (htexts file.path (by simp [scopeTexts]))] at hpath
      rw [bindText_within (htexts file.sourceCommit (by simp [scopeTexts]))] at hcommit
      obtain ⟨hk, hc⟩ := Prod.mk.inj (ok.inj hscope)
      have hpath' : path = row.anchorPath := congrArg AnchorColumns.path (ok.inj hanchor)
      rw [← hk, ← hc, ← hpath', ← ok.inj hpath, ← ok.inj hcommit]
      rfl
    | «inline» a =>
      rw [hs] at hanchor hscope htexts hlines
      obtain ⟨hk, -⟩ := Prod.mk.inj (ok.inj hscope)
      have hread := readAnchor_bind htexts hlines hanchor
      simp only [← hk, hread]
      rfl

/-- What the insert statement writes. -/
structure Written (key : RemoteReviewIdentity) (d : Draft) (row : DraftRow) : Prop where
  id : row.id = ⟨key.workspace, key.repository, key.pullRequestId, d.localId⟩
  workspace : bindText key.workspace = .ok (some key.workspace)
  repository : bindText key.repository = .ok (some key.repository)
  localId : toI64 d.localId = .ok row.localId
  kind : row.kind = kindTag d.kind
  target : row.target = targetTag d.target
  parent : bindParent d.parent = .ok (row.parentKind, row.parentId)
  anchor : bindAnchor (rootScope d) = .ok (anchorColumns row)
  body : row.body = d.body
  state : bindState d.state = .ok (row.stateKind, row.stateId, row.stateErr)
  snapshot : bindSnapshot d.snapshot =
    .ok (row.snapshotText, row.snapshotSelectionStart, row.snapshotSelectionLen)
  scope : bindScope (rootScope d) = .ok (row.scopeKind, row.fileSourceCommit)

theorem notNull_bindText {t : Bytes} (h : bindText s = .ok o) (ht : notNull o = .ok t) :
    t = s ∧ bindText s = .ok (some s) := by
  rw [notNull_ok ht] at h
  obtain rfl := bindText_some h
  exact ⟨rfl, h⟩

variable {key : RemoteReviewIdentity}

theorem written_of_draftRow (h : draftRow key d = .ok row) : Written key d row := by
  obtain ⟨prId, hpr, h⟩ := bind_ok h
  obtain ⟨localId, hlocal, h⟩ := bind_ok h
  obtain ⟨⟨parentKind, parentId⟩, hparent, h⟩ := bind_ok h
  obtain ⟨anchor, hanchor, h⟩ := bind_ok h
  obtain ⟨body, hbody, h⟩ := bind_ok h
  obtain ⟨⟨stateKind, stateId, stateErr⟩, hstate, h⟩ := bind_ok h
  obtain ⟨workspace, hworkspace, h⟩ := bind_ok h
  obtain ⟨repository, hrepository, h⟩ := bind_ok h
  obtain ⟨⟨text, start, len⟩, hsnapshot, h⟩ := bind_ok h
  obtain ⟨⟨scopeKind, commit⟩, hscope, h⟩ := bind_ok h
  obtain ⟨bodyText, hbodyText, h⟩ := bind_ok h
  obtain ⟨workspaceText, hworkspaceText, h⟩ := bind_ok h
  obtain ⟨repositoryText, hrepositoryText, h⟩ := bind_ok h
  obtain ⟨rfl, hworkspace'⟩ := notNull_bindText hworkspace hworkspaceText
  obtain ⟨rfl, hrepository'⟩ := notNull_bindText hrepository hrepositoryText
  obtain ⟨rfl, -⟩ := notNull_bindText hbody hbodyText
  cases ok.inj h
  exact {
    id := by rw [DraftRow.id, (toI64_ok hpr).1, (toI64_ok hlocal).1]
    workspace := hworkspace'
    repository := hrepository'
    localId := hlocal
    kind := rfl
    target := rfl
    parent := hparent
    anchor := hanchor
    body := rfl
    state := hstate
    snapshot := hsnapshot
    scope := hscope }

theorem rowToDraft_written (hd : Storable d) (h : Written key d row) :
    rowToDraft row = .ok (canonical d) := by
  have hkind : readKind row.kind = .ok d.kind := by rw [h.kind, readKind_kindTag]
  have htarget : readTarget row.target = .ok d.target := by rw [h.target, readTarget_targetTag]
  unfold rowToDraft
  simp only [readParent_bind h.parent, ok_bind, readScope_bind hd h.anchor h.scope,
    readState_bind h.state, readSnapshot_bind hd.snapshot hd.selection h.snapshot,
    toU64_toI64 h.localId, hkind, htarget, h.body]
  rfl

def rowId (key : RemoteReviewIdentity) (tempId : TempId) : RowId :=
  ⟨key.workspace, key.repository, key.pullRequestId, tempId⟩

namespace Database

variable {db db' : Database} {key : RemoteReviewIdentity} {incoming : Draft}
  {parent : Option Parent} {writes : DraftRow → Bool}

/-- What a Reply replies to once it is stored. -/
inductive Resolves (db : Database) (key : RemoteReviewIdentity) :
    Option Parent → Option Parent → Prop where
  | root : Resolves db key none none
  | comment (id : CommentId) : Resolves db key (some (.comment id)) (some (.comment id))
  | live (id : TempId) (stored : (db.drafts.lookup (rowId key id)).isSome) :
    Resolves db key (some (.draft id)) (some (.draft id))
  | removed (id : TempId) (comment : CommentId) (gone : db.drafts.lookup (rowId key id) = none)
    (posted : db.postedDrafts.lookup (rowId key id) = some ⟨rowId key id, comment⟩) :
    Resolves db key (some (.draft id)) (some (.comment comment))

theorem bindId_matches {tempId : TempId} {bound : BoundId}
    (hworkspace : bindText key.workspace = .ok (some key.workspace))
    (hrepository : bindText key.repository = .ok (some key.repository))
    (h : bindId key tempId = .ok bound) (id : RowId) :
    bound.matches id = decide (id = rowId key tempId) := by
  obtain ⟨workspace, hw, h⟩ := bind_ok h
  obtain ⟨repository, hr, h⟩ := bind_ok h
  obtain ⟨prId, hpr, h⟩ := bind_ok h
  obtain ⟨temp, htemp, h⟩ := bind_ok h
  rw [hworkspace] at hw
  rw [hrepository] at hr
  cases ok.inj h
  cases ok.inj hw
  cases ok.inj hr
  obtain ⟨rfl, -⟩ := toI64_ok hpr
  obtain ⟨rfl, -⟩ := toI64_ok htemp
  obtain ⟨w, r, p, t⟩ := id
  simp [BoundId.matches, rowId]

theorem fromI64_ok {limit n : Nat} {v : Int} (h : fromI64 limit v = .ok n) : v = n := by
  unfold fromI64 at h
  split at h
  · next hv => rw [← ok.inj h, Int.toNat_of_nonneg hv.1]
  · cases h

variable {id : TempId}

section

variable (hworkspace : bindText key.workspace = .ok (some key.workspace))
  (hrepository : bindText key.repository = .ok (some key.repository))
include hworkspace hrepository

theorem draftExists_ok {found : Bool} (h : db.draftExists key id = .ok found) :
    found = (db.drafts.lookup (rowId key id)).isSome := by
  obtain ⟨bound, hbound, h⟩ := bind_ok h
  rw [← ok.inj h]
  simp only [bindId_matches hworkspace hrepository hbound]
  rw [Bool.eq_iff_iff, List.any_eq_true, lookup, List.find?_isSome]

theorem postedComment_ok {comment : CommentId} (h : db.postedComment key id = .ok (some comment)) :
    db.postedDrafts.lookup (rowId key id) = some ⟨rowId key id, comment⟩ := by
  obtain ⟨bound, hbound, h⟩ := bind_ok h
  simp only [bindId_matches hworkspace hrepository hbound] at h
  cases hfind : db.postedDrafts.lookup (rowId key id) with
  | none =>
    rw [lookup] at hfind
    rw [hfind] at h
    cases ok.inj h
  | some row =>
    have hid := lookup_key hfind
    rw [lookup] at hfind
    rw [hfind] at h
    obtain ⟨n, hn, h⟩ := bind_ok h
    cases ok.inj h
    rw [← hid, ← fromI64_ok hn]

theorem resolves_of_putParent {given : Option Parent} (h : db.putParent key given = .ok parent) :
    Resolves db key given parent := by
  match given with
  | none =>
    cases ok.inj h
    exact .root
  | some (.comment id) =>
    cases ok.inj h
    exact .comment id
  | some (.draft id) =>
    obtain ⟨found, hfound, h⟩ := bind_ok h
    have hexists := draftExists_ok hworkspace hrepository hfound
    cases found with
    | true =>
      cases ok.inj h
      exact .live id hexists.symm
    | false =>
      obtain ⟨posted, hposted, h⟩ := bind_ok h
      cases posted with
      | none => cases h
      | some comment =>
        cases ok.inj h
        exact .removed id comment (Option.not_isSome_iff_eq_none.mp (by simp [← hexists]))
          (postedComment_ok hworkspace hrepository hposted)

end

theorem putImpl_ok (h : db.putImpl writes key incoming = .ok (db', parent)) :
    db.putParent key incoming.parent = .ok parent ∧
      ∃ row, draftRow key { incoming with parent := parent } = .ok row ∧
        db' = { db with drafts := db.drafts.put row } := by
  obtain ⟨locked, -, h⟩ := bind_ok h
  cases locked with
  | true => cases h
  | false =>
    obtain ⟨resolved, hparent, h⟩ := bind_ok h
    obtain ⟨row, hrow, h⟩ := bind_ok h
    cases hwrites : writes row with
    | false =>
      simp only [hwrites] at h
      cases h
    | true =>
      simp only [hwrites, if_true] at h
      cases ok.inj h
      exact ⟨hparent, row, hrow, rfl⟩

theorem rowToDraft_localId (h : rowToDraft row = .ok d) : row.localId = d.localId := by
  obtain ⟨parent, -, h⟩ := bind_ok h
  obtain ⟨scope, -, h⟩ := bind_ok h
  obtain ⟨state, -, h⟩ := bind_ok h
  obtain ⟨snapshot, -, h⟩ := bind_ok h
  obtain ⟨localId, hlocal, h⟩ := bind_ok h
  obtain ⟨kind, -, h⟩ := bind_ok h
  obtain ⟨target, -, h⟩ := bind_ok h
  cases ok.inj h
  exact fromI64_ok hlocal

/-- Taking over the rows without a repository changes no row of the Review itself. -/
theorem claimLegacyRows_keeps (hwritten : Written key d row) (hrow : row ∈ db.drafts.rows)
    (h : db.claimLegacyRows key = .ok db') : row ∈ db'.drafts.rows := by
  obtain ⟨workspace, hw, h⟩ := bind_ok h
  obtain ⟨repository, hr, h⟩ := bind_ok h
  obtain ⟨prId, -, h⟩ := bind_ok h
  split at h
  · obtain ⟨workspaceText, hwt, h⟩ := bind_ok h
    obtain ⟨repositoryText, hrt, h⟩ := bind_ok h
    obtain ⟨rfl, -⟩ := notNull_bindText hw hwt
    obtain ⟨rfl, -⟩ := notNull_bindText hr hrt
    dsimp only at h
    split at h
    · cases ok.inj h
      refine List.mem_map.mpr ⟨row, hrow, ?_⟩
      have hworkspace : row.workspace = key.workspace := congrArg RowId.workspace hwritten.id
      have hrepository : row.repository = key.repository := congrArg RowId.repository hwritten.id
      unfold claimRow
      split
      · rw [← hworkspace, ← hrepository]
      · rfl
    · cases h
  · cases ok.inj h
    exact hrow

/-- A load gives the Draft of a stored row, and no other Draft of its TempId. -/
theorem loadImpl_reads {draft : Draft} {drafts : List Draft} (hwritten : Written key d row)
    (hrow : row ∈ db.drafts.rows) (hread : rowToDraft row = .ok draft)
    (h : db.loadImpl key = .ok (db', drafts)) :
    draft ∈ drafts ∧ ∀ other ∈ drafts, other.localId = draft.localId → other = draft := by
  obtain ⟨claimed, hclaimed, h⟩ := bind_ok h
  obtain ⟨selected, hselected, h⟩ := bind_ok h
  obtain ⟨loaded, hloaded, h⟩ := bind_ok h
  cases ok.inj h
  have hkept := claimLegacyRows_keeps hwritten hrow hclaimed
  obtain ⟨workspace, hw, hselected⟩ := bind_ok hselected
  obtain ⟨repository, hr, hselected⟩ := bind_ok hselected
  obtain ⟨prId, hpr, hselected⟩ := bind_ok hselected
  rw [hwritten.workspace] at hw
  rw [hwritten.repository] at hr
  cases ok.inj hw
  cases ok.inj hr
  obtain ⟨rfl, -⟩ := toI64_ok hpr
  cases ok.inj hselected
  obtain ⟨hto, hfrom⟩ := mapM_ok hloaded
  have hmem (r : DraftRow) : r ∈ (db'.drafts.rows.filter (fun row => decide
      (some row.workspace = some key.workspace ∧ some row.repository = some key.repository ∧
        row.prId = (key.pullRequestId : Int)))).mergeSort (fun a b => decide (a.localId ≤ b.localId)) ↔
      r ∈ db'.drafts.rows ∧ r.workspace = key.workspace ∧ r.repository = key.repository ∧
        r.prId = key.pullRequestId := by
    simp
  have hid := hwritten.id
  rw [DraftRow.id, RowId.mk.injEq] at hid
  constructor
  · obtain ⟨out, hout, heq⟩ := hto row ((hmem row).mpr ⟨hkept, hid.1, hid.2.1, hid.2.2.1⟩)
    rw [hread] at heq
    rw [ok.inj heq]
    exact hout
  intro other hother hlocal
  obtain ⟨r, hr, heq⟩ := hfrom other hother
  obtain ⟨hin, hrest⟩ := (hmem r).mp hr
  have hsame : r.id = row.id := by
    rw [hwritten.id, DraftRow.id, hrest.1, hrest.2.1, hrest.2.2, rowToDraft_localId heq, hlocal,
      ← rowToDraft_localId hread, hid.2.2.2]
  have hfirst := lookup_of_mem hin
  rw [hsame, lookup_of_mem hkept] at hfirst
  rw [← Option.some.inj hfirst, hread] at heq
  exact (ok.inj heq).symm

/-- A Draft that `put` accepts is stored under the parent it resolves to, in a row that depends on
the new version only; the row reads back as the Draft in its canonical form, alone and when the
Review is loaded again, and every other row stays. -/
theorem put_reads_back (hstorable : Storable incoming)
    (h : db.putImpl writes key incoming = .ok (db', parent)) :
    Resolves db key incoming.parent parent ∧
    (∃ row, draftRow key { incoming with parent := parent } = .ok row ∧
      db'.drafts.lookup (rowId key incoming.localId) = some row ∧
      rowToDraft row = .ok (canonical { incoming with parent := parent })) ∧
    (∀ id, id ≠ rowId key incoming.localId → db'.drafts.lookup id = db.drafts.lookup id) ∧
    ∀ loaded drafts, db'.loadImpl key = .ok (loaded, drafts) →
      canonical { incoming with parent := parent } ∈ drafts ∧
      ∀ other ∈ drafts, other.localId = incoming.localId →
        other = canonical { incoming with parent := parent } := by
  obtain ⟨hparent, row, hrow, rfl⟩ := putImpl_ok h
  have hwritten := written_of_draftRow hrow
  have hread : rowToDraft row = .ok (canonical { incoming with parent := parent }) :=
    rowToDraft_written ⟨hstorable.scope, hstorable.snapshot, hstorable.lines, hstorable.selection⟩
      hwritten
  have hid : row.id = rowId key incoming.localId := hwritten.id
  refine ⟨resolves_of_putParent hwritten.workspace hwritten.repository hparent,
    ⟨row, hrow, ?_, hread⟩, ?_, ?_⟩
  · rw [lookup_put, if_pos hid.symm]
  · intro id hne
    rw [lookup_put, if_neg (by rw [hid]; exact hne)]
  · intro loaded drafts hload
    have hmem : row ∈ (db.drafts.put row).rows := by
      apply mem_iff_lookup.mpr
      rw [lookup_put, if_pos rfl]
    exact loadImpl_reads hwritten hmem hread hload

def exampleKey : RemoteReviewIdentity := ⟨ascii "w", ascii "r", 7⟩

/-- A review whose Draft 1 was published as Comment 9 and removed. -/
def publishedFirst : Database where
  postedDrafts := ⟨[⟨rowId exampleKey 1, 9⟩], by decide⟩

/-- A failed Reply to the removed Draft. -/
def lateReply : Draft :=
  { localId := 2, parent := some (.draft 1), body := ascii "agreed", state := .failed .rateLimited }

/-- The Reply is stored under Comment 9 and comes back as a failed Reply to it. -/
theorem put_reads_back_lateReply :
    ∃ db' parent, publishedFirst.putImpl (fun _ => true) exampleKey lateReply = .ok (db', parent) ∧
      parent = some (.comment 9) ∧ ∃ row, db'.drafts.lookup (rowId exampleKey 2) = some row ∧
        rowToDraft row = .ok { lateReply with parent := some (.comment 9) } := by
  have hput : ∃ db', publishedFirst.putImpl (fun _ => true) exampleKey lateReply =
      .ok (db', some (.comment 9)) := ⟨_, rfl⟩
  obtain ⟨db', hput⟩ := hput
  have hstorable : Storable lateReply := ⟨by decide, by decide, by decide, by decide⟩
  obtain ⟨-, ⟨row, -, hlookup, hread⟩, -⟩ := put_reads_back hstorable hput
  exact ⟨db', _, hput, rfl, row, hlookup, hread⟩

/-- An inline root as the review creates it. -/
def inlineRoot : Draft :=
  { localId := 1, scope := some (.inline { path := ascii "f", toLine := some 3 }), body := ascii "b" }

/-- It comes back with the Anchor set, which it was not. -/
theorem inlineRoot_gains_anchor :
    ∃ db' row, putImpl {} (fun _ => true) exampleKey inlineRoot = .ok (db', none) ∧
      db'.drafts.lookup (rowId exampleKey 1) = some row ∧
      rowToDraft row =
        .ok { inlineRoot with anchor := some { path := ascii "f", toLine := some 3 } } ∧
      rowToDraft row ≠ .ok inlineRoot := by
  have hput : ∃ db', putImpl {} (fun _ => true) exampleKey inlineRoot = .ok (db', none) := ⟨_, rfl⟩
  obtain ⟨db', hput⟩ := hput
  obtain ⟨-, row, hrow, rfl⟩ := putImpl_ok hput
  have hwritten := written_of_draftRow hrow
  have hread : rowToDraft row =
      .ok { inlineRoot with anchor := some { path := ascii "f", toLine := some 3 } } :=
    rowToDraft_written ⟨by decide, by decide, by decide, by decide⟩ hwritten
  have hid : row.id = rowId exampleKey 1 := hwritten.id
  refine ⟨_, row, hput, by rw [lookup_put, if_pos hid.symm], hread, ?_⟩
  rw [hread]
  intro h
  exact absurd (ok.inj h) (by decide)

end Database

end Bbr.Persist
