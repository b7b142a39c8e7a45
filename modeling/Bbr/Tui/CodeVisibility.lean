import Bbr.Tui.CodeHighlightingLaws

/-!
# What becomes of a highlighted block

A block is told by its owner and its number. Every step of a run that keeps its body moves the block
in few ways, so an evicted block waits until it was out of sight and is in sight again.
-/
namespace Bbr.Tui.CodeHighlighting

open Bbr.Lib List
open Tui.Cards (Owner)

variable {Span : Type} {sizes : Sizes} {blockCount : Bytes → Nat}

namespace Storage

variable {s s' : Storage Span} {owner other : Owner} {ordinal index : Nat}

/-- The block, and whether its body is in sight. -/
def look (s : Storage Span) (owner : Owner) (ordinal : Nat) : Option (Bool × BlockState Span) :=
  (s.bodyFor owner).bind (fun body => (body.blocks[ordinal]?).map (fun block =>
    (body.visible, block)))

def blockInSight (entry : Bool × BlockState Span) : Bool := entry.2.visibleIn entry.1

variable {entry : Bool × BlockState Span}

theorem look_eq_some : s.look owner ordinal = some entry ↔
    ∃ body, s.bodyFor owner = some body ∧ body.blocks[ordinal]? = some entry.2 ∧
      body.visible = entry.1 := by
  obtain ⟨visible, block⟩ := entry
  simp [look, Option.bind_eq_some_iff]

theorem look_map {f : Body Span → Body Span} (howner : ∀ body, (f body).owner = body.owner)
    {g : Bool × BlockState Span → Bool × BlockState Span}
    (hf : ∀ body, body.owner = owner → ((f body).blocks[ordinal]?).map (fun block =>
        ((f body).visible, block)) =
      (body.blocks[ordinal]?).map (fun block => g (body.visible, block))) :
    ({ s with bodies := s.bodies.map f } : Storage Span).look owner ordinal =
      (s.look owner ordinal).map g := by
  unfold look
  rw [bodyFor_map f howner]
  cases hbody : s.bodyFor owner with
  | none => rfl
  | some body =>
    rw [Option.map_some, Option.bind_some, Option.bind_some, Option.map_map]
    exact hf body (bodyFor_eq_some hbody).2

theorem look_updateBlock (f : BlockState Span → BlockState Span) :
    (s.updateBlock other index f).look owner ordinal = (s.look owner ordinal).map (fun entry =>
        if owner = other ∧ ordinal = index then (entry.1, f entry.2) else entry) := by
  apply look_map
  · intro body
    split <;> rfl
  rintro body rfl
  by_cases hother : body.owner = other
  · by_cases hindex : ordinal = index
    · subst hindex
      cases hblock : body.blocks[ordinal]? <;> simp [hother, Body.updateBlock, hblock]
    · simp [hother, hindex, Body.updateBlock, Ne.symm hindex]
  · simp [hother]

theorem look_showBody (visible : Bool) :
    (s.updateBody other (fun body => { body with visible := visible })).look owner ordinal =
      (s.look owner ordinal).map (fun entry =>
        (if owner = other then visible else entry.1, entry.2)) := by
  apply look_map
  · intro body
    split <;> rfl
  · rintro body rfl
    by_cases hother : body.owner = other <;> simp [hother]

theorem look_dropBlocks (views : List (View Span)) :
    ({ s with bodies := s.bodies.map (dropBlocks views) } : Storage Span).look owner ordinal =
      (s.look owner ordinal).map (fun entry => (entry.1,
        if entry.2.result.isSome && !views.any (fun view => view.isOf owner ordinal) then
          entry.2.evict (blockInSight entry)
        else entry.2)) := by
  apply look_map
  · intro body
    rfl
  rintro body rfl
  unfold dropBlocks
  rw [getElem?_mapIdx]
  cases hblock : body.blocks[ordinal]? with
  | none => rfl
  | some block =>
    have hvisible : body.blockVisible ordinal = blockInSight (body.visible, block) := by
      simp [Body.blockVisible, hblock, blockInSight]
    simp only [Option.map_some, dropBlock]
    cases hr : block.result with
    | none => simp
    | some result => simp [unkept, Body.viewOf, hvisible]

theorem finishBlocks_block (visible : Bool) (clock : Nat) (blocks : List (BlockState Span))
    (ordinal : Nat) : ∃ now, (finishBlocks visible clock blocks).2[ordinal]? =
      (blocks[ordinal]?).map (fun block => (finishBlock visible now block).2) := by
  induction blocks generalizing clock ordinal with
  | nil => exact ⟨clock, by simp [finishBlocks]⟩
  | cons block rest ih =>
    cases ordinal with
    | zero => exact ⟨clock, by simp [finishBlocks]⟩
    | succ ordinal => simpa [finishBlocks] using ih (finishBlock visible clock block).1 ordinal

theorem finishBodies_find (clock : Nat) (bodies : List (Body Span)) (owner : Owner) :
    ∃ now, (finishBodies clock bodies).2.find? (fun body => body.owner = owner) =
      (bodies.find? (fun body => body.owner = owner)).map (fun body =>
        { body with blocks := (finishBlocks body.visible now body.blocks).2 }) := by
  induction bodies generalizing clock with
  | nil => exact ⟨clock, rfl⟩
  | cons body rest ih =>
    by_cases howner : body.owner = owner
    · exact ⟨clock, by simp [finishBodies, howner]⟩
    · simpa [finishBodies, howner] using ih (finishBlocks body.visible clock body.blocks).1

theorem look_finishVisibility (h : s.look owner ordinal = some entry) :
    ∃ now, s.finishVisibility.look owner ordinal =
      some (entry.1, (finishBlock entry.1 now entry.2).2) := by
  obtain ⟨body, hbody, hblock, hvisible⟩ := look_eq_some.mp h
  obtain ⟨clock, hfind⟩ := finishBodies_find s.clock s.bodies owner
  obtain ⟨now, hfinish⟩ := finishBlocks_block body.visible clock body.blocks ordinal
  refine ⟨now, look_eq_some.mpr ⟨_, hfind.trans (congrArg (Option.map _) hbody), ?_, hvisible⟩⟩
  rw [hblock, hvisible] at hfinish
  exact hvisible ▸ hfinish

theorem find?_eraseIdx {α : Type} {p : α → Bool} {items : List α}
    (h : ∀ a, items[index]? = some a → p a = false) :
    (items.eraseIdx index).find? p = items.find? p := by
  induction items generalizing index with
  | nil => rfl
  | cons a items ih =>
    cases index with
    | zero => rw [eraseIdx_cons_zero, find?_cons_of_neg (by simp [h a rfl])]
    | succ index =>
      rw [eraseIdx_cons_succ, find?_cons, find?_cons, ih h]

/-- The operation leaves the body of the owner in place. -/
def keepsBody (s : Storage Span) (owner : Owner) : Op Span → Prop
  | .remove index => ∀ body, s.bodies[index]? = some body → body.owner ≠ owner
  | .get other source suggestionPath _ => other = owner → ∀ body, s.bodyFor owner = some body →
      body.source = source ∧ body.suggestionPath = suggestionPath
  | _ => True

theorem remove_bodyFor (h : Inv sizes s) (hrun : s.remove sizes index = some s')
    (hindex : ∀ body, s.bodies[index]? = some body → body.owner ≠ owner) :
    s'.bodyFor owner = s.bodyFor owner := by
  obtain hlen | hlen := Nat.lt_or_ge index s.bodies.length
  · obtain ⟨after, hafter, -, hbodies⟩ := remove_inv h hlen
    obtain rfl := Option.some.inj (hrun.symm.trans hafter)
    unfold bodyFor
    rw [hbodies]
    exact find?_eraseIdx (fun body hbody => decide_eq_false (hindex body hbody))
  · unfold remove at hrun
    rw [getElem?_eq_none hlen] at hrun
    cases hrun

theorem create_bodyFor {body : Body Span} (hbody : s.bodyFor owner = some body) (source : Bytes)
    (path : Option Bytes) (allocated : Bool) :
    (s.create blockCount other source path allocated).1.bodyFor owner = some body := by
  unfold create
  cases allocated with
  | false => exact hbody
  | true =>
    unfold bodyFor at hbody ⊢
    rw [if_pos rfl, find?_append, hbody]
    rfl

variable {allocated : Bool}

theorem get_bodyFor (h : Inv sizes s) {source : Bytes} {path : Option Bytes} {got : Option (Body Span)}
    (hrun : s.get sizes blockCount other source path allocated = some (s', got))
    {body : Body Span} (hbody : s.bodyFor owner = some body)
    (hkeeps : other = owner → body.source = source ∧ body.suggestionPath = path) :
    s'.bodyFor owner = some body := by
  unfold get at hrun
  cases hother : s.bodyFor other with
  | none =>
    rw [hother] at hrun
    have hs' : s' = (s.create blockCount other source path allocated).1 :=
      (congrArg Prod.fst (Option.some.inj hrun)).symm
    rw [hs']
    exact create_bodyFor hbody source path allocated
  | some found =>
    rw [hother] at hrun
    by_cases hsame : found.source = source ∧ found.suggestionPath = path
    · dsimp only at hrun
      rw [if_pos hsame] at hrun
      cases hrun
      exact hbody
    have hne : other ≠ owner := by
      rintro rfl
      cases hother.symm.trans hbody
      exact hsame (hkeeps rfl)
    dsimp only at hrun
    rw [if_neg hsame, Option.map_eq_some_iff] at hrun
    obtain ⟨after, hremove, hcreate⟩ := hrun
    have hafter : after.bodyFor owner = some body := by
      rw [remove_bodyFor h hremove, hbody]
      intro gone hgone howner
      obtain ⟨hlt, hget⟩ := List.getElem?_eq_some_iff.mp hgone
      have hfound := List.findIdx_getElem (w := hlt)
      rw [hget] at hfound
      exact hne ((of_decide_eq_true hfound).symm.trans howner)
    have hs' : s' = (after.create blockCount other source path allocated).1 :=
      (congrArg Prod.fst hcreate).symm
    rw [hs']
    exact create_bodyFor hafter source path allocated

theorem look_congr (h : s'.bodyFor owner = s.bodyFor owner) :
    s'.look owner ordinal = s.look owner ordinal := by
  unfold look
  rw [h]

/-- What an admission leaves of the results: the new one, and old ones. Those that went rank no
higher than those that stay, and their blocks are evicted. -/
structure Admits (s s' : Storage Span) (new : View Span) : Prop where
  held_new : new ∈ s'.held
  held_old : ∀ view ∈ s'.held, view = new ∨ view ∈ s.held
  evicted : ∀ gone ∈ s.held, gone ∉ s'.held → ∀ kept ∈ s.held, kept ∈ s'.held →
    (s.inSight gone = true → s.inSight kept = true) ∧
      (s.inSight gone = s.inSight kept → s.lastUsed gone ≤ s.lastUsed kept)
  left : ∀ gone ∈ s.held, gone ∉ s'.held → ∃ entry, s'.look gone.owner gone.block = some entry ∧
    entry.2.state = .evicted ∧ entry.2.leftViewport = !blockInSight entry

theorem look_admitted (result : Result Span) (views : List (View Span)) (owner : Owner)
    (ordinal : Nat) (other : Owner) (index : Nat) :
    (s.admitted sizes owner ordinal result views).look other index =
      ((s.look other index).map (fun entry => (entry.1,
        if entry.2.result.isSome && !views.any (fun view => view.isOf other index) then
          entry.2.evict (blockInSight entry)
        else entry.2))).map (fun entry => if other = owner ∧ index = ordinal then
          (entry.1, { entry.2 with result := some result, state := .ready, used := s.clock + 1 })
        else entry) := by
  rw [← look_dropBlocks]
  exact look_updateBlock (s := { s with bodies := s.bodies.map (dropBlocks views) }) _

theorem look_held (h : (s.bodies.map Body.owner).Nodup) {view : View Span} (hv : view ∈ s.held) :
    ∃ visible block, s.look view.owner view.block = some (visible, block) ∧
      block.result = some ⟨view.spans⟩ := by
  obtain ⟨body, block, hbody, hblock, hr, -⟩ := held_found h hv
  exact ⟨body.visible, block, look_eq_some.mpr ⟨body, hbody, hblock, rfl⟩, hr⟩

variable {result : Result Span}

theorem admitted_admits (h : Inv sizes s) {body : Body Span} {block : BlockState Span}
    (hbody : s.bodyFor owner = some body) (hblock : body.blocks[ordinal]? = some block)
    (hnone : block.result = none) (room fuel : Nat) :
    Admits s (s.admitted sizes owner ordinal result
      (makeRoom s.rank (viewBytes sizes) room fuel s.views ++ [body.viewOf ordinal result]))
      (body.viewOf ordinal result) := by
  have hkey := key_new result h hbody hblock hnone
  have hsub : (makeRoom s.rank (viewBytes sizes) room fuel s.views).Sublist s.views :=
    makeRoom_sublist fuel s.views
  have hperm := kept_perm h hsub hkey
  have hheld := admitted_held result h hbody hblock hnone
    (makeRoom s.rank (viewBytes sizes) room fuel s.views ++ [body.viewOf ordinal result])
  have hgone : ∀ gone ∈ s.held, gone ∉ (s.admitted sizes owner ordinal result
      (makeRoom s.rank (viewBytes sizes) room fuel s.views ++ [body.viewOf ordinal result])).held →
      gone ∉ makeRoom s.rank (viewBytes sizes) room fuel s.views := by
    intro gone _ hno hin
    exact hno (hheld.mem_iff.mpr (mem_cons_of_mem _ (hperm.mem_iff.mp hin)))
  constructor
  · exact hheld.mem_iff.mpr mem_cons_self
  · intro view hview
    obtain rfl | hview := mem_cons.mp (hheld.mem_iff.mp hview)
    · exact .inl rfl
    · exact .inr (mem_filter.mp hview).1
  · intro gone hold hno kept hkeptOld hkept
    apply rank_le
    apply makeRoom_least (h.views.mem_iff.mpr hold) (hgone gone hold hno)
    obtain rfl | hkept := mem_cons.mp (hheld.mem_iff.mp hkept)
    · exact absurd (mem_map.mpr ⟨_, hkeptOld, rfl⟩) hkey
    · exact hperm.mem_iff.mpr hkept
  · intro gone hold hno
    obtain ⟨visible, goneBlock, hlook, hr⟩ := look_held h.owners hold
    have hunkept : (makeRoom s.rank (viewBytes sizes) room fuel s.views ++
        [body.viewOf ordinal result]).any (fun view => view.isOf gone.owner gone.block) = false := by
      rw [← Bool.not_eq_true, any_eq_true]
      rintro ⟨view, hview, his⟩
      have hkept := isKept_iff.mpr ⟨view, hview, isOf_iff.mp his⟩
      exact hno (hheld.mem_iff.mpr (mem_cons_of_mem _ (mem_filter.mpr ⟨hold, hkept⟩)))
    have hother : ¬(gone.owner = owner ∧ gone.block = ordinal) := by
      rintro ⟨ho, hi⟩
      rw [viewOf_key, (bodyFor_eq_some hbody).2, ← ho, ← hi] at hkey
      exact hkey (mem_map.mpr ⟨gone, hold, rfl⟩)
    rw [look_admitted, hlook]
    refine ⟨(visible, goneBlock.evict (blockInSight (visible, goneBlock))), ?_, rfl, rfl⟩
    simp [hr, hunkept, hother]

theorem admit_spec (h : Inv sizes s) (hallowed : (Op.admit_ owner ordinal result allocated).Allowed s) :
    ∃ body s' outcome, s.bodyFor owner = some body ∧
      s.admit_ sizes owner ordinal result allocated = some (s', outcome) ∧ Inv sizes s' ∧
      match outcome with
      | .admitted => Admits s s' (body.viewOf ordinal result) ∧
          ∃ views, s' = s.admitted sizes owner ordinal result views
      | .refused => s' = s.updateBlock owner ordinal (fun block => { block with state := .skipped })
      | .failed => s' = s := by
  obtain ⟨body, block, hbody, hblock, hnone⟩ := hallowed
  have hret : result.retainedBytes sizes = (body.viewOf ordinal result).resultBytes sizes := rfl
  by_cases hfits : viewBytes sizes (body.viewOf ordinal result) ≤ budgetBytes
  · have hsmall := hfits
    unfold viewBytes at hsmall
    cases allocated with
    | false =>
      refine ⟨body, s, .failed, hbody, ?_, h, rfl⟩
      unfold admit_
      rw [hbody]
      dsimp only
      rw [if_neg (by omega), if_pos rfl]
    | true =>
      refine ⟨body, _, .admitted, hbody, admit_eq h hbody hfits, ?_,
        admitted_admits h hbody hblock hnone _ _, _, rfl⟩
      apply admitted_inv h hbody hfits hblock hnone (makeRoom_sublist _ _)
      exact makeRoom_fits (Nat.le_succ s.views.length)
  · unfold viewBytes at hfits
    refine ⟨body, s.updateBlock owner ordinal (fun block => { block with state := .skipped }),
      .refused, hbody, ?_, updateBlock_inv h owner ordinal (fun _ => rfl), rfl⟩
    unfold admit_
    rw [hbody]
    dsimp only
    rw [if_pos (by omega)]

variable {op : Op Span}

theorem step_inv (h : Inv sizes s) (hallowed : op.Allowed s) :
    ∃ s', step sizes blockCount s op = some s' ∧ Inv sizes s' := by
  cases op with
  | get owner source suggestionPath allocated =>
    obtain ⟨s', body, hget, hinv⟩ := get_inv h owner source suggestionPath allocated
    exact ⟨s', congrArg (Option.map Prod.fst) hget, hinv⟩
  | remove index =>
    obtain ⟨s', hremove, hinv, -⟩ := remove_inv h hallowed
    exact ⟨s', hremove, hinv⟩
  | finishVisibility => exact ⟨_, rfl, finishVisibility_inv h⟩
  | showBody owner visible =>
    have hsame : ∀ body : Body Span, Body.SameHeld body { body with visible := visible } := by
      intro body
      have hview : ({ body with visible := visible } : Body Span).viewOf = body.viewOf := rfl
      exact ⟨rfl, heldFrom_congr hview (Eq.refl (body.blocks.map BlockState.result)) 0⟩
    exact ⟨_, rfl, updateBody_inv h owner hsame⟩
  | showPreview owner ordinal visible | progress owner ordinal state =>
    exact ⟨_, rfl, updateBlock_inv h owner ordinal (fun _ => rfl)⟩
  | admit_ owner ordinal result allocated =>
    obtain ⟨body, s', outcome, -, hadmit, hinv, -⟩ := admit_spec h hallowed
    exact ⟨s', congrArg (Option.map Prod.fst) hadmit, hinv⟩

/-- A block that a step moves waits again only when it comes back, and has left only when it was out
of sight. -/
structure Moves (op : Op Span) (before after : Bool × BlockState Span) : Prop where
  waits : after.2.state = .pending → before.2.state = .pending ∨
    op = .finishVisibility ∧ before.2.leftViewport = true ∧ blockInSight before = true
  leaves : after.2.leftViewport = true →
    before.2.leftViewport = true ∨ blockInSight before = false

variable {before : Bool × BlockState Span}

theorem moves_same {after : Bool × BlockState Span}
    (hstate : after.2.state = .pending → before.2.state = .pending)
    (hleft : after.2.leftViewport = before.2.leftViewport) : Moves op before after :=
  ⟨fun h => .inl (hstate h), fun h => .inl (hleft ▸ h)⟩

theorem moves_finish (before : Bool × BlockState Span) (now : Nat) :
    Moves .finishVisibility before (before.1, (finishBlock before.1 now before.2).2) := by
  unfold finishBlock
  by_cases hsight : before.2.visibleIn before.1 = true
  · rw [if_pos hsight]
    refine ⟨?_, fun h => by cases h⟩
    intro hstate
    split at hstate
    · next hback => exact .inr ⟨rfl, hback.2, hsight⟩
    · exact .inl hstate
  · rw [if_neg hsight]
    exact ⟨fun h => .inl h, fun _ => .inr (Bool.eq_false_iff.mpr hsight)⟩

theorem moves_admitted (op : Op Span) (gone : Bool) (target : Prop) [Decidable target]
    (result : Result Span) (used : Nat)
    (before : Bool × BlockState Span) : Moves op before
      (let dropped := (before.1, if gone then before.2.evict (blockInSight before) else before.2)
      if target then (dropped.1, { dropped.2 with
        result := some result, state := .ready, used := used }) else dropped) := by
  have hdropped : Moves op before
      (before.1, if gone then before.2.evict (blockInSight before) else before.2) := by
    cases gone with
    | false => exact moves_same id rfl
    | true =>
      constructor
      · intro h
        cases h
      · intro h
        exact .inr (by simpa [BlockState.evict] using h)
  by_cases htarget : target
  · simp only [if_pos htarget]
    constructor
    · intro h
      cases h
    · exact hdropped.leaves
  · simp only [if_neg htarget]
    exact hdropped

theorem look_step (h : Inv sizes s) (hallowed : op.Allowed s) (hkeeps : s.keepsBody owner op)
    (hstep : step sizes blockCount s op = some s') (hlook : s.look owner ordinal = some before) :
    ∃ after, s'.look owner ordinal = some after ∧ Moves op before after := by
  cases op with
  | get other source suggestionPath allocated =>
    obtain ⟨⟨after, got⟩, hget, rfl⟩ := Option.map_eq_some_iff.mp hstep
    obtain ⟨body, hbody, -⟩ := look_eq_some.mp hlook
    have hsame := get_bodyFor h hget hbody (fun ho => hkeeps ho body hbody)
    exact ⟨before, (look_congr (hsame.trans hbody.symm)).trans hlook, moves_same id rfl⟩
  | remove index =>
    exact ⟨before, (look_congr (remove_bodyFor h hstep hkeeps)).trans hlook, moves_same id rfl⟩
  | finishVisibility =>
    cases hstep
    obtain ⟨now, hafter⟩ := look_finishVisibility hlook
    exact ⟨_, hafter, moves_finish before now⟩
  | showBody other visible =>
    cases hstep
    exact ⟨_, (look_showBody visible).trans (congrArg _ hlook), moves_same id rfl⟩
  | showPreview other index visible =>
    cases hstep
    refine ⟨_, (look_updateBlock _).trans (congrArg _ hlook), ?_⟩
    split
    · exact moves_same id rfl
    · exact moves_same id rfl
  | progress other index state =>
    cases hstep
    refine ⟨_, (look_updateBlock _).trans (congrArg _ hlook), ?_⟩
    split
    · refine moves_same ?_ rfl
      rintro rfl
      obtain hstate | hstate | hstate := hallowed.1 <;> cases hstate
    · exact moves_same id rfl
  | admit_ other index result allocated =>
    obtain ⟨body, after, outcome, -, hadmit, -, houtcome⟩ := admit_spec h hallowed
    obtain rfl : after = s' :=
      Option.some.inj ((congrArg (Option.map Prod.fst) hadmit).symm.trans hstep)
    cases outcome with
    | failed =>
      obtain rfl := houtcome
      exact ⟨before, hlook, moves_same id rfl⟩
    | refused =>
      obtain rfl := houtcome
      refine ⟨_, (look_updateBlock _).trans (congrArg _ hlook), ?_⟩
      split
      · exact moves_same (fun hstate => by cases hstate) rfl
      · exact moves_same id rfl
    | admitted =>
      obtain ⟨-, views, rfl⟩ := houtcome
      rw [look_admitted, hlook]
      refine ⟨_, rfl, ?_⟩
      exact moves_admitted _ _ _ _ _ before

def Steps (sizes : Sizes) (blockCount : Bytes → Nat) (s : Storage Span) (op : Op Span)
    (s' : Storage Span) : Prop := op.Allowed s ∧ step sizes blockCount s op = some s'

/-- Steps that leave the body of the owner in place. -/
def KeepingSteps (sizes : Sizes) (blockCount : Bytes → Nat) (owner : Owner) (s : Storage Span)
    (op : Op Span) (s' : Storage Span) : Prop :=
  Steps sizes blockCount s op s' ∧ s.keepsBody owner op

theorem Steps.inv (hstep : Steps sizes blockCount s op s') (h : Inv sizes s) : Inv sizes s' := by
  obtain ⟨after, hafter, hinv⟩ := step_inv h hstep.1
  cases hstep.2.symm.trans hafter
  exact hinv

/-- The block was out of sight in a state of the run. -/
def WasOut (sizes : Sizes) (blockCount : Bytes → Nat) (owner : Owner) (ordinal : Nat)
    (s : Storage Span) (ops : List (Op Span)) (t : Storage Span) : Prop :=
  ∃ before after u entry, ops = before ++ after ∧ Run (KeepingSteps sizes blockCount owner) s before u ∧
    u.look owner ordinal = some entry ∧ blockInSight entry = false ∧
      Run (KeepingSteps sizes blockCount owner) u after t

/-- The block was out of sight, and later in sight at a `finishVisibility`. -/
def CameBack (sizes : Sizes) (blockCount : Bytes → Nat) (owner : Owner) (ordinal : Nat)
    (s : Storage Span) (ops : List (Op Span)) (t : Storage Span) : Prop :=
  ∃ before after u entry, ops = before ++ .finishVisibility :: after ∧
    WasOut sizes blockCount owner ordinal s before u ∧ u.look owner ordinal = some entry ∧
      blockInSight entry = true ∧
        Run (KeepingSteps sizes blockCount owner) u (.finishVisibility :: after) t

theorem WasOut.snoc {ops : List (Op Span)} {op : Op Span} {t t' : Storage Span}
    (h : WasOut sizes blockCount owner ordinal s ops t)
    (hstep : KeepingSteps sizes blockCount owner t op t') :
    WasOut sizes blockCount owner ordinal s (ops ++ [op]) t' := by
  obtain ⟨before, after, u, entry, rfl, hbefore, hlook, hsight, hafter⟩ := h
  exact ⟨before, after ++ [op], u, entry, append_assoc _ _ _, hbefore, hlook, hsight,
    hafter.append (.single hstep)⟩

theorem CameBack.snoc {ops : List (Op Span)} {op : Op Span} {t t' : Storage Span}
    (h : CameBack sizes blockCount owner ordinal s ops t)
    (hstep : KeepingSteps sizes blockCount owner t op t') :
    CameBack sizes blockCount owner ordinal s (ops ++ [op]) t' := by
  obtain ⟨before, after, u, entry, rfl, hout, hlook, hsight, hafter⟩ := h
  exact ⟨before, after ++ [op], u, entry, append_assoc _ _ _, hout, hlook, hsight,
    hafter.append (.single hstep)⟩

theorem waits_came_back {ops : List (Op Span)} {t : Storage Span} {last : Bool × BlockState Span}
    (h : Inv sizes s) (hrun : Run (KeepingSteps sizes blockCount owner) s ops t)
    (hlook : s.look owner ordinal = some entry) (hstate : entry.2.state = .evicted)
    (hleft : entry.2.leftViewport = !blockInSight entry)
    (hlast : t.look owner ordinal = some last) (hwaits : last.2.state = .pending) :
    CameBack sizes blockCount owner ordinal s ops t := by
  have hall := hrun.recorded (fun ops t => Inv sizes t ∧ Run (KeepingSteps sizes blockCount owner) s ops t ∧
    ∃ now, t.look owner ordinal = some now ∧ (CameBack sizes blockCount owner ordinal s ops t ∨
      now.2.state ≠ .pending ∧ (now.2.leftViewport = true →
        WasOut sizes blockCount owner ordinal s ops t))) ?_ ?_
  · obtain ⟨-, -, now, hnow, hback | ⟨hnot, -⟩⟩ := hall
    · exact hback
    · rw [hlast] at hnow
      cases hnow
      exact absurd hwaits hnot
  · rintro ops t op t' hstep ⟨hinv, hsofar, now, hnow, hcase⟩
    obtain ⟨next, hnext, hmoves⟩ := look_step hinv hstep.1.1 hstep.2 hstep.1.2 hnow
    refine ⟨hstep.1.inv hinv, hsofar.append (.single hstep), next, hnext, ?_⟩
    obtain hback | ⟨hnot, hout⟩ := hcase
    · exact .inl (hback.snoc hstep)
    by_cases hpending : next.2.state = .pending
    · obtain hbefore | ⟨rfl, hgone, hsight⟩ := hmoves.waits hpending
      · exact absurd hbefore hnot
      · exact .inl ⟨ops, [], t, now, rfl, hout hgone, hnow, hsight, .single hstep⟩
    · refine .inr ⟨hpending, fun hgone => ?_⟩
      obtain hbefore | hsight := hmoves.leaves hgone
      · exact (hout hbefore).snoc hstep
      · exact ⟨ops, [op], t, now, rfl, hsofar, hnow, hsight, .single hstep⟩
  · refine ⟨h, .nil s, entry, hlook, .inr ⟨?_, ?_⟩⟩
    · rw [hstate]
      decide
    · intro hgone
      rw [hleft, Bool.not_eq_true'] at hgone
      exact ⟨[], [], s, entry, rfl, .nil s, hlook, hgone, .nil s⟩

def results (s : Storage Span) : List (Result Span) :=
  s.bodies.flatMap (fun body => body.blocks.filterMap BlockState.result)

theorem heldFrom_results (body : Body Span) (first : Nat) (blocks : List (BlockState Span)) :
    (heldFrom body first blocks).map (View.resultBytes sizes) =
      (blocks.filterMap BlockState.result).map (Result.retainedBytes sizes) := by
  induction blocks generalizing first with
  | nil => rfl
  | cons block rest ih =>
    rw [heldFrom, map_append, ih]
    cases hr : block.result with
    | none => simp [hr]
    | some result => simp [hr, View.resultBytes, Body.viewOf]

theorem held_results (s : Storage Span) : s.held.map (View.resultBytes sizes) =
    s.results.map (Result.retainedBytes sizes) := by
  unfold held results Body.held
  rw [map_flatMap, map_flatMap]
  congr 1
  funext body
  exact heldFrom_results body 0 body.blocks

theorem mem_views (h : Inv sizes s) {view : View Span} : view ∈ s.views ↔ ∃ body ∈ s.bodies,
    ∃ block result, body.blocks[view.block]? = some block ∧ block.result = some result ∧
      view = body.viewOf view.block result := by
  rw [h.views.mem_iff, mem_storage_held]
  constructor
  · rintro ⟨body, hbody, hheld⟩
    obtain ⟨ordinal, block, result, hblock, hr, rfl⟩ := mem_held.mp hheld
    exact ⟨body, hbody, block, result, hblock, hr, rfl⟩
  · rintro ⟨body, hbody, block, result, hblock, hr, hview⟩
    exact ⟨body, hbody, mem_held.mpr ⟨view.block, block, result, hblock, hr, hview⟩⟩

/-- In every run the bytes are those of the results, every result has its one view, and all fits;
every allowed step is taken. An admission puts the lowest results out, one that fails or is refused
changes no result, and what is put out waits again only after it came back. -/
theorem results_accounted {ops : List (Op Span)} (h : Run (Steps sizes blockCount) {} ops s) :
    (s.retainedBytes = (s.results.map (Result.retainedBytes sizes)).sum ∧
      (s.views.map View.key).Nodup ∧
      (∀ view, view ∈ s.views ↔ ∃ body ∈ s.bodies, ∃ block result,
        body.blocks[view.block]? = some block ∧ block.result = some result ∧
          view = body.viewOf view.block result) ∧
      s.allRetainedBytes sizes ≤ budgetBytes) ∧
    (∀ op : Op Span, op.Allowed s → ∃ s', step sizes blockCount s op = some s') ∧
    ∀ owner ordinal result allocated, (Op.admit_ owner ordinal result allocated).Allowed s →
      ∃ body s' outcome, s.bodyFor owner = some body ∧
        s.admit_ sizes owner ordinal result allocated = some (s', outcome) ∧
        (outcome = .admitted → Admits s s' (body.viewOf ordinal result)) ∧
        (outcome ≠ .admitted → s'.held = s.held ∧ s'.views = s.views ∧
          s'.retainedBytes = s.retainedBytes) ∧
        ∀ gone ∈ s.held, gone ∉ s'.held → ∀ later t entry,
          Run (KeepingSteps sizes blockCount gone.owner) s' later t →
          t.look gone.owner gone.block = some entry → entry.2.state = .pending →
            CameBack sizes blockCount gone.owner gone.block s' later t := by
  have hinv : Inv sizes s := h.invariant (Inv sizes) Steps.inv (inv_empty sizes)
  refine ⟨⟨?_, ?_, fun view => mem_views hinv, hinv.budget⟩, ?_, ?_⟩
  · rw [← held_results]
    exact hinv.bytes
  · exact (hinv.views.map View.key).nodup_iff.mpr hinv.keys
  · intro op hallowed
    obtain ⟨s', hstep, -⟩ := step_inv hinv hallowed
    exact ⟨s', hstep⟩
  · intro owner ordinal result allocated hallowed
    obtain ⟨body, s', outcome, hbody, hadmit, hinv', houtcome⟩ := admit_spec hinv hallowed
    refine ⟨body, s', outcome, hbody, hadmit, ?_⟩
    cases outcome with
    | admitted =>
      obtain ⟨hadmits, -⟩ := houtcome
      refine ⟨fun _ => hadmits, fun hno => absurd rfl hno, ?_⟩
      intro gone hold hgone later t last hrun hlast hwaits
      obtain ⟨entry, hlook, hstate, hleft⟩ := hadmits.left gone hold hgone
      exact waits_came_back hinv' hrun hlook hstate hleft hlast hwaits
    | refused =>
      have hheld := updateBlock_held
        (f := fun block => { block with state := .skipped }) (fun _ => rfl) s owner ordinal
      refine ⟨fun hno => by (cases hno), fun _ => ?_, ?_⟩
      · rw [houtcome]
        exact ⟨hheld, rfl, rfl⟩
      · intro gone hold hgone
        rw [houtcome, hheld] at hgone
        exact absurd hold hgone
    | failed =>
      obtain rfl := houtcome
      exact ⟨fun hno => by (cases hno), fun _ => ⟨rfl, rfl, rfl⟩,
        fun gone hold hgone => absurd hold hgone⟩

/-- Two results of five mebibytes in one body; only one fits. -/
theorem results_accounted_evicts : ∃ s : Storage Nat,
    Run (Steps ⟨5 * 1024 * 1024, 8, 32⟩ (fun _ => 2)) {} [.get (.comment 1) [] none true,
      .admit_ (.comment 1) 0 ⟨[]⟩ true, .admit_ (.comment 1) 1 ⟨[7]⟩ true] s ∧
    s.views = [⟨.comment 1, [], 1, [7]⟩] ∧
    s.retainedBytes = (s.results.map (Result.retainedBytes ⟨5 * 1024 * 1024, 8, 32⟩)).sum ∧
    s.allRetainedBytes ⟨5 * 1024 * 1024, 8, 32⟩ ≤ budgetBytes := by
  have hrun : Run (Steps ⟨5 * 1024 * 1024, 8, 32⟩ (fun _ => 2)) {}
      [.get (.comment 1) [] none true, .admit_ (.comment 1) 0 ⟨[]⟩ true,
        .admit_ (.comment 1) 1 ⟨[7]⟩ true]
      ⟨[⟨.comment 1, [], none, [⟨.evicted, none, 1, true, false⟩, ⟨.ready, some ⟨[7]⟩, 2, false, false⟩],
        false⟩], [⟨.comment 1, [], 1, [7]⟩], 1, 2, 5 * 1024 * 1024 + 8⟩ :=
    .cons ⟨trivial, rfl⟩ (.cons ⟨⟨_, _, rfl, rfl, rfl⟩, rfl⟩ (.cons ⟨⟨_, _, rfl, rfl, rfl⟩, rfl⟩ (.nil _)))
  obtain ⟨⟨hbytes, -, -, hbudget⟩, -⟩ := results_accounted hrun
  exact ⟨_, hrun, rfl, hbytes, hbudget⟩

end Storage

end Bbr.Tui.CodeHighlighting
