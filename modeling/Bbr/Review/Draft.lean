import Bbr.Review.Comment
import Mathlib.Data.List.Nodup
import Mathlib.Data.List.Perm.Basic

/-!
# Drafts and the PendingReview graph

The write-side model. A Reply may point at another Draft that has no server id yet, which is why
`topologicalOrder` exists. Nothing in a `PendingReview` rules out repeated TempIds, absent parents or
parent cycles.
-/
namespace Bbr.Review

open Bbr.Bitbucket List

/-- Client-side Draft identifier, stable across persistence. -/
abbrev TempId := Nat

inductive DraftKind where
  | comment
  | suggestion
  deriving DecidableEq, Repr

/-- `bitbucket` is published by a Submission, `localOnly` never leaves the store. -/
inductive CommentTarget where
  | bitbucket
  | localOnly
  deriving DecidableEq, Repr

inductive DraftState where
  | draft
  | submitting
  | posted (id : CommentId)
  | failed (reason : ApiError)
  | outcomeUnknown
  deriving DecidableEq, Repr

/-- The states from which a Draft can be published. -/
def DraftState.isPending : DraftState → Bool
  | .draft => true
  | .failed _ => true
  | _ => false

/-- What a Reply attaches to: a pending Draft or a published Comment. -/
inductive Parent where
  | draft (id : TempId)
  | comment (id : CommentId)
  deriving DecidableEq, Repr

structure Draft where
  localId : TempId
  kind : DraftKind := .comment
  target : CommentTarget := .bitbucket
  scope : Option CommentScope := none
  anchor : Option Anchor := none
  snapshot : Option AnchorSnapshot := none
  parent : Option Parent := none
  body : Bytes := []
  state : DraftState := .draft
  deriving DecidableEq, Repr

def Draft.effectiveScope (self : Draft) : CommentScope :=
  match self.scope, self.anchor with
  | some scope, _ => scope
  | none, some anchor => .inline anchor
  | none, none => .review

/-- Structural parent equality, as every store adapter rechecks it. -/
def parentEql (a b : Option Parent) : Bool :=
  match a, b with
  | none, none => true
  | some (.draft x), some (.draft y) => x == y
  | some (.comment x), some (.comment y) => x == y
  | _, _ => false

@[simp] theorem parentEql_iff (a b : Option Parent) : parentEql a b = true ↔ a = b := by
  rcases a with _ | (a | a) <;> rcases b with _ | (b | b) <;> simp [parentEql]

/-- The whole graph of Drafts for one PullRequest. -/
structure PendingReview where
  prId : Nat := 0
  drafts : List Draft := []
  nextId : TempId := 1
  deriving DecidableEq, Repr

def findDraft (drafts : List Draft) (id : TempId) : Option Draft :=
  drafts.find? (fun d => d.localId == id)

namespace PendingReview

def DistinctTempIds (self : PendingReview) : Prop := (self.drafts.map Draft.localId).Nodup

instance (self : PendingReview) : Decidable self.DistinctTempIds :=
  inferInstanceAs (Decidable (self.drafts.map Draft.localId).Nodup)

def getConst (self : PendingReview) (id : TempId) : Option Draft := findDraft self.drafts id

end PendingReview

variable {drafts : List Draft} {id : TempId} {d : Draft}

theorem findDraft_localId (h : findDraft drafts id = some d) : d.localId = id := by
  have := find?_some h
  simpa using this

theorem findDraft_mem (h : findDraft drafts id = some d) : d ∈ drafts := mem_of_find?_eq_some h

theorem findDraft_isSome : (findDraft drafts id).isSome ↔ id ∈ drafts.map Draft.localId := by
  simp [findDraft]

/-- Among Drafts with distinct TempIds the lookup returns the Draft itself. -/
theorem findDraft_eq_of_mem (hd : (drafts.map Draft.localId).Nodup) (h : d ∈ drafts) :
    findDraft drafts d.localId = some d := by
  induction drafts with
  | nil => cases h
  | cons a tail ih =>
    simp only [map_cons, nodup_cons] at hd
    rcases mem_cons.mp h with rfl | ht
    · simp [findDraft]
    have hne : a.localId ≠ d.localId := by
      intro he
      exact hd.1 (he ▸ mem_map_of_mem ht)
    have := ih hd.2 ht
    simpa [findDraft, hne] using this

/-- Replace the first Draft with this TempId. -/
def updateDraft (id : TempId) (f : Draft → Draft) : List Draft → List Draft
  | [] => []
  | d :: rest => if d.localId = id then f d :: rest else d :: updateDraft id f rest

@[simp] theorem findDraft_updateDraft (id : TempId) (f : Draft → Draft)
    (hf : ∀ d, (f d).localId = d.localId) (drafts : List Draft) (other : TempId) :
    findDraft (updateDraft id f drafts) other =
      if other = id then (findDraft drafts id).map f else findDraft drafts other := by
  induction drafts with
  | nil => simp [updateDraft, findDraft]
  | cons d rest ih =>
    by_cases hd : d.localId = id
    · by_cases ho : other = id
      · subst ho; simp [updateDraft, findDraft, hd, hf]
      · have hne : id ≠ other := fun h => ho h.symm
        simp [updateDraft, findDraft, hd, hf, ho, hne]
    · by_cases hdo : d.localId = other
      · subst hdo; simp [updateDraft, findDraft, hd]
      have hdi : (d.localId == id) = false := by simpa using hd
      have hdo' : (d.localId == other) = false := by simpa using hdo
      simp only [findDraft] at ih
      simp only [updateDraft, hd, if_false, findDraft, find?_cons, hdo', hdi, ih]

def Draft.withState (self : Draft) (state : DraftState) : Draft := { self with state := state }

@[simp] theorem Draft.withState_localId (d : Draft) (st : DraftState) :
    (d.withState st).localId = d.localId := rfl
@[simp] theorem Draft.withState_target (d : Draft) (st : DraftState) :
    (d.withState st).target = d.target := rfl
@[simp] theorem Draft.withState_parent (d : Draft) (st : DraftState) :
    (d.withState st).parent = d.parent := rfl
@[simp] theorem Draft.withState_state (d : Draft) (st : DraftState) : (d.withState st).state = st := rfl

/-- Advance a Draft's lifecycle state; unknown ids change nothing. -/
def PendingReview.setState (self : PendingReview) (id : TempId) (state : DraftState) :
    PendingReview :=
  { self with drafts := updateDraft id (fun d => d.withState state) self.drafts }

variable (self : PendingReview)

@[simp] theorem PendingReview.getConst_setState (id other : TempId) (state : DraftState) :
    (self.setState id state).getConst other =
      if other = id then (self.getConst id).map (fun d => d.withState state)
      else self.getConst other :=
  findDraft_updateDraft id (fun d => d.withState state) (fun _ => rfl) self.drafts other

/-- The bounded walk up the parent chain; `hops` is what is left of `drafts.len + 1` checks. -/
def descendsWithin (drafts : List Draft) (root : TempId) : Nat → TempId → Bool
  | 0, _ => false
  | hops + 1, current =>
    if current = root then true
    else match findDraft drafts current with
      | none => false
      | some found => match found.parent with
        | some (.draft parentId) => descendsWithin drafts root hops parentId
        | _ => false

/-- Membership in the Draft subtree of `root`. -/
def descendsFrom (drafts : List Draft) (root id : TempId) : Bool :=
  descendsWithin drafts root (drafts.length + 1) id

/-- The accumulators of `topologicalOrder`: which positions are out, and the ids so far. -/
structure OrderState where
  emitted : List Bool
  order : List TempId
  progress : Bool

/-- A Draft is ready when it has no Draft parent, an absent one, or one already emitted. -/
def parentReady (drafts : List Draft) (d : Draft) (emitted : List Bool) : Bool :=
  match d.parent with
  | none => true
  | some (.comment _) => true
  | some (.draft pid) => match drafts.findIdx? (fun other => other.localId == pid) with
    | some i => emitted.getD i false
    | none => true

def emitReady (drafts : List Draft) (s : OrderState) (entry : Draft × Nat) : OrderState :=
  if s.emitted.getD entry.2 false then s
  else if parentReady drafts entry.1 s.emitted then
    ⟨s.emitted.set entry.2 true, s.order ++ [entry.1.localId], true⟩
  else s

/-- One pass of the `while (progress)` loop over all Drafts. -/
def orderPass (drafts : List Draft) (s : OrderState) : OrderState :=
  drafts.zipIdx.foldl (emitReady drafts) { s with progress := false }

/-- Passes until one makes no progress; every other pass emits at least one of the Drafts, so one
more pass than there are Drafts is enough. -/
def orderPasses (drafts : List Draft) : Nat → OrderState → OrderState
  | 0, s => s
  | passes + 1, s =>
    let s' := orderPass drafts s
    if s'.progress then orderPasses drafts passes s' else s'

def unemitted (drafts : List Draft) (emitted : List Bool) : List TempId :=
  (drafts.zipIdx.filter (fun entry => !emitted.getD entry.2 false)).map (fun entry => entry.1.localId)

/-- The Drafts in submission order: a Draft after its Draft parent, cyclic Drafts last. -/
def PendingReview.topologicalOrder (self : PendingReview) : List TempId :=
  let s := orderPasses self.drafts (self.drafts.length + 1)
    ⟨List.replicate self.drafts.length false, [], true⟩
  s.order ++ unemitted self.drafts s.emitted

/-- Emitting one position moves exactly its id from the open ids to the order. -/
theorem unemitted_set (drafts : List Draft) (emitted : List Bool) (entry : Draft × Nat)
    (hmem : entry ∈ drafts.zipIdx) (hlen : emitted.length = drafts.length)
    (hopen : emitted.getD entry.2 false = false) :
    (entry.1.localId :: unemitted drafts (emitted.set entry.2 true)).Perm
      (unemitted drafts emitted) := by
  have hlt : entry.2 < emitted.length := by
    have := snd_lt_of_mem_zipIdx hmem
    omega
  have hnodup : (drafts.zipIdx.filter (fun e => !emitted.getD e.2 false)).Nodup := by
    refine List.Nodup.filter _ (List.Nodup.of_map Prod.snd ?_)
    rw [zipIdx_map_snd]
    exact nodup_range'
  have hfilter : drafts.zipIdx.filter (fun e => !(emitted.set entry.2 true).getD e.2 false) =
      (drafts.zipIdx.filter (fun e => !emitted.getD e.2 false)).erase entry := by
    rw [hnodup.erase_eq_filter, filter_filter]
    refine filter_congr fun e he => ?_
    have hsnd : e.2 = entry.2 ↔ e = entry := by
      constructor
      · intro h
        have h₁ := mem_zipIdx' he
        have h₂ := mem_zipIdx' hmem
        refine Prod.ext ?_ h
        rw [h₁.2, h₂.2]
        simp only [h]
      · rintro rfl; rfl
    by_cases h : e.2 = entry.2
    · have : e = entry := hsnd.mp h
      simp [this, hlt]
    · have hne : e ≠ entry := fun he' => h (hsnd.mpr he')
      have h' : ¬ entry.2 = e.2 := fun he' => h he'.symm
      simp [h', hne]
  have hin : entry ∈ drafts.zipIdx.filter (fun e => !emitted.getD e.2 false) := by
    simp only [mem_filter, hmem, hopen, Bool.not_false, and_self]
  unfold unemitted
  rw [hfilter]
  exact (perm_cons_erase hin).symm.map (fun e => e.1.localId)

/-- What every pass keeps: the order so far and the open ids together are all the ids. -/
def OrderState.Complete (drafts : List Draft) (s : OrderState) : Prop :=
  s.emitted.length = drafts.length ∧
    (s.order ++ unemitted drafts s.emitted).Perm (drafts.map Draft.localId)

theorem emitReady_complete (drafts : List Draft) (s : OrderState) (entry : Draft × Nat)
    (hmem : entry ∈ drafts.zipIdx) (h : s.Complete drafts) :
    (emitReady drafts s entry).Complete drafts := by
  unfold emitReady
  split
  · exact h
  rename_i hopen
  split
  · have hp := unemitted_set drafts s.emitted entry hmem h.1 (by simpa using hopen)
    refine ⟨by simpa using h.1, List.Perm.trans ?_ h.2⟩
    simpa using hp.append_left s.order
  · exact h

theorem orderPass_complete (drafts : List Draft) (s : OrderState) (h : s.Complete drafts) :
    (orderPass drafts s).Complete drafts := by
  have hfold : ∀ (entries : List (Draft × Nat)) (s : OrderState), (∀ e ∈ entries, e ∈ drafts.zipIdx) →
      s.Complete drafts → (entries.foldl (emitReady drafts) s).Complete drafts := by
    intro entries
    induction entries with
    | nil => intro s _ hs; exact hs
    | cons e rest ih =>
      intro s hin hs
      exact ih _ (fun e' he' => hin e' (mem_cons_of_mem _ he'))
        (emitReady_complete drafts s e (hin e mem_cons_self) hs)
  exact hfold _ _ (fun _ he => he) h

theorem orderPasses_complete (drafts : List Draft) (passes : Nat) (s : OrderState)
    (h : s.Complete drafts) : (orderPasses drafts passes s).Complete drafts := by
  induction passes generalizing s with
  | zero => exact h
  | succ passes ih =>
    have hp := orderPass_complete drafts s h
    simp only [orderPasses]
    split
    · exact ih _ hp
    · exact hp

/-- Every Draft is in the order exactly once, whatever the parent links are. -/
theorem PendingReview.topologicalOrder_perm :
    self.topologicalOrder.Perm (self.drafts.map Draft.localId) := by
  refine (orderPasses_complete self.drafts _ _ ⟨by simp, ?_⟩).2
  have hopen : unemitted self.drafts (replicate self.drafts.length false) =
      self.drafts.map Draft.localId := by
    have hall : ∀ e ∈ self.drafts.zipIdx,
        (!(replicate self.drafts.length false).getD e.2 false) = true := by
      intro e _
      simp only [getD_eq_getElem?_getD, getElem?_replicate]
      split <;> rfl
    have hmap : self.drafts.zipIdx.map (fun e => e.1.localId) = self.drafts.map Draft.localId := by
      rw [← Function.comp_def Draft.localId Prod.fst, ← map_map, zipIdx_map_fst]
    unfold unemitted
    rw [filter_eq_self.mpr hall, hmap]
  simp [hopen]

theorem PendingReview.topologicalOrder_nodup (hd : self.DistinctTempIds) :
    self.topologicalOrder.Nodup :=
  self.topologicalOrder_perm.nodup_iff.mpr hd

theorem PendingReview.mem_topologicalOrder (id : TempId) :
    id ∈ self.topologicalOrder ↔ (self.getConst id).isSome := by
  rw [self.topologicalOrder_perm.mem_iff, PendingReview.getConst, findDraft_isSome]

end Bbr.Review
