import Bbr.Lib.Runs
import Bbr.Tui.CodeHighlighting

/-!
# The results are accounted for

In every state that a run reaches the views are those of the held results, the byte counter is the sum
of their sizes, and both stay within the budget. Nothing traps. What an admission evicts ranks no
higher than what it keeps: first the blocks out of sight, among them those used the longest ago.
-/
namespace Bbr.Tui.CodeHighlighting

open Bbr.Lib List View
open Tui.Cards (Owner)

variable {Span : Type} {sizes : Sizes} {blockCount : Bytes → Nat}

def View.key (self : View Span) : Owner × Nat := (self.owner, self.block)

@[simp] theorem viewOf_key (body : Body Span) (ordinal : Nat) (result : Result Span) :
    (body.viewOf ordinal result).key = (body.owner, ordinal) := rfl

variable {view : View Span}

theorem isOf_iff {owner : Owner} {ordinal : Nat} :
    view.isOf owner ordinal = true ↔ view.key = (owner, ordinal) := by
  simp [isOf, key]

variable {body : Body Span} {blocks : List (BlockState Span)}

theorem mem_heldFrom {first : Nat} : view ∈ heldFrom body first blocks ↔ ∃ k block result,
      blocks[k]? = some block ∧ block.result = some result ∧ view = body.viewOf (first + k) result := by
  induction blocks generalizing first with
  | nil => simp [heldFrom]
  | cons block rest ih =>
    rw [heldFrom, mem_append, ih]
    constructor
    · rintro (h | ⟨k, later, result, hk, hr, rfl⟩)
      · rw [Option.mem_toList, Option.map_eq_some_iff] at h
        obtain ⟨result, hr, rfl⟩ := h
        exact ⟨0, block, result, rfl, hr, rfl⟩
      · exact ⟨k + 1, later, result, hk, hr, by rw [Nat.add_right_comm, Nat.add_assoc]⟩
    · rintro ⟨k, later, result, hk, hr, rfl⟩
      cases k with
      | zero =>
        cases hk
        left
        rw [Option.mem_toList, Option.map_eq_some_iff]
        exact ⟨result, hr, rfl⟩
      | succ k =>
        exact .inr ⟨k, later, result, hk, hr, by rw [Nat.add_right_comm, Nat.add_assoc]⟩

theorem mem_held : view ∈ body.held ↔ ∃ ordinal block result,
    body.blocks[ordinal]? = some block ∧ block.result = some result ∧
      view = body.viewOf ordinal result := by
  simp [Body.held, mem_heldFrom]

theorem held_owner (h : view ∈ body.held) : view.owner = body.owner := by
  obtain ⟨ordinal, block, result, -, -, rfl⟩ := mem_held.mp h
  rfl

theorem heldFrom_keys (body : Body Span) (first : Nat) (blocks : List (BlockState Span)) :
    ((heldFrom body first blocks).map key).Nodup := by
  induction blocks generalizing first with
  | nil => simp [heldFrom]
  | cons block rest ih =>
    rw [heldFrom]
    cases hr : block.result with
    | none => simpa using ih (first + 1)
    | some result =>
      rw [Option.map_some, Option.toList_some, singleton_append, map_cons, nodup_cons]
      refine ⟨?_, ih (first + 1)⟩
      intro hmem
      obtain ⟨view, hv, hkey⟩ := mem_map.mp hmem
      obtain ⟨k, _, _, _, _, rfl⟩ := mem_heldFrom.mp hv
      have hblock := congrArg Prod.snd hkey
      change first + 1 + k = first at hblock
      omega

theorem heldFrom_congr {body' : Body Span} (hview : body'.viewOf = body.viewOf)
    {blocks' : List (BlockState Span)}
    (h : blocks'.map BlockState.result = blocks.map BlockState.result) (first : Nat) :
    heldFrom body' first blocks' = heldFrom body first blocks := by
  induction blocks generalizing blocks' first with
  | nil =>
    obtain rfl : blocks' = [] := by simpa using h
    rfl
  | cons block rest ih =>
    cases blocks' with
    | nil => simp at h
    | cons block' rest' =>
      obtain ⟨hfirst, hrest⟩ := cons.inj h
      rw [heldFrom, heldFrom, hfirst, hview, ih hrest]

namespace Storage

variable {s s' : Storage Span}

variable {view : View Span}

theorem mem_storage_held : view ∈ s.held ↔ ∃ body ∈ s.bodies, view ∈ body.held := mem_flatMap

theorem held_keys (h : (s.bodies.map Body.owner).Nodup) : (s.held.map key).Nodup := by
  unfold held
  generalize s.bodies = bodies at h
  induction bodies with
  | nil => simp
  | cons body rest ih =>
    rw [map_cons, nodup_cons] at h
    rw [flatMap_cons, map_append, nodup_append]
    refine ⟨heldFrom_keys body 0 body.blocks, ih h.2, ?_⟩
    intro key hkey key' hkey' heq
    obtain ⟨view, hv, rfl⟩ := mem_map.mp hkey
    obtain ⟨view', hv', rfl⟩ := mem_map.mp hkey'
    obtain ⟨other, hother, hheld⟩ := mem_flatMap.mp hv'
    have howner : other.owner = body.owner := by
      rw [← held_owner hheld, ← held_owner hv]
      exact (congrArg Prod.fst heq).symm
    exact h.1 (mem_map.mpr ⟨other, hother, howner⟩)

variable {rest : List (View Span)}

theorem eraseP_perm {views : List (View Span)} (h : views.Perm (view :: rest))
    (hkeys : ((view :: rest).map key).Nodup) :
    (views.eraseP (fun other => other.isOf view.owner view.block)).Perm rest := by
  have hfind : ∀ other ∈ views, other.isOf view.owner view.block = true → other = view := by
    intro other hmem his
    rw [isOf_iff] at his
    obtain rfl | hrest := mem_cons.mp (h.mem_iff.mp hmem)
    · rfl
    · rw [map_cons, nodup_cons] at hkeys
      exact absurd (mem_map.mpr ⟨other, hrest, his⟩) hkeys.1
  have hin : view ∈ views := h.mem_iff.mpr mem_cons_self
  obtain ⟨other, front, back, hfront, his, hviews, herase⟩ :=
    exists_of_eraseP (p := fun other => other.isOf view.owner view.block) hin (isOf_iff.mpr rfl)
  obtain rfl := hfind other (by rw [hviews]; simp) his
  rw [herase]
  rw [hviews] at h
  exact (perm_middle.symm.trans h).cons_inv

theorem forget_all (sizes : Sizes) {gone : List (View Span)} (h : s.views.Perm (gone ++ rest))
    (hkeys : ((gone ++ rest).map key).Nodup)
    (hbytes : s.retainedBytes = ((gone ++ rest).map (resultBytes sizes)).sum) :
    ∃ views, gone.foldlM (forget sizes) s = some { s with
      retainedBytes := (rest.map (resultBytes sizes)).sum, views := views } ∧
      views.Perm rest := by
  induction gone generalizing s with
  | nil =>
    refine ⟨s.views, ?_, h⟩
    change s.retainedBytes = (rest.map _).sum at hbytes
    rw [← hbytes]
    rfl
  | cons view gone ih =>
    have hsum : s.retainedBytes =
        view.resultBytes sizes + ((gone ++ rest).map (resultBytes sizes)).sum := by
      rw [hbytes, cons_append, map_cons, sum_cons]
    have hforget : s.forget sizes view = some { s with
        retainedBytes := ((gone ++ rest).map (resultBytes sizes)).sum
        views := s.views.eraseP (fun other => other.isOf view.owner view.block) } := by
      unfold forget
      rw [if_pos (by omega)]
      congr 2
      omega
    have hperm := eraseP_perm h hkeys
    obtain ⟨views, hrun, hviews⟩ := ih (s := { s with
        retainedBytes := ((gone ++ rest).map (resultBytes sizes)).sum
        views := s.views.eraseP (fun other => other.isOf view.owner view.block) })
      hperm (nodup_cons.mp hkeys).2 rfl
    refine ⟨views, ?_, hviews⟩
    rw [foldlM_cons, hforget]
    exact hrun

/-- Every owner has one body; views and bytes are those of the held results; all fits. -/
structure Inv (sizes : Sizes) (s : Storage Span) : Prop where
  owners : (s.bodies.map Body.owner).Nodup
  views : s.views.Perm s.held
  bytes : s.retainedBytes = (s.held.map (View.resultBytes sizes)).sum
  capacity : s.views.length ≤ s.viewCapacity
  budget : s.allRetainedBytes sizes ≤ budgetBytes

theorem inv_empty (sizes : Sizes) : Inv sizes ({} : Storage Span) where
  owners := nodup_nil
  views := List.Perm.refl []
  bytes := rfl
  capacity := Nat.le_refl 0
  budget := by
    unfold allRetainedBytes
    rw [Nat.zero_mul]
    exact Nat.zero_le _

theorem Inv.congr (h : Inv sizes s) (howners : s'.bodies.map Body.owner = s.bodies.map Body.owner)
    (hheld : s'.held = s.held) (hviews : s'.views = s.views) (hcap : s'.viewCapacity = s.viewCapacity)
    (hbytes : s'.retainedBytes = s.retainedBytes) : Inv sizes s' where
  owners := howners ▸ h.owners
  views := by
    rw [hviews, hheld]
    exact h.views
  bytes := by
    rw [hbytes, hheld]
    exact h.bytes
  capacity := by
    rw [hviews, hcap]
    exact h.capacity
  budget := by
    unfold allRetainedBytes
    rw [hbytes, hcap]
    exact h.budget

theorem Inv.keys (h : Inv sizes s) : (s.held.map key).Nodup := held_keys h.owners

theorem remove_inv (h : Inv sizes s) {index : Nat} (hi : index < s.bodies.length) :
    ∃ s', s.remove sizes index = some s' ∧ Inv sizes s' ∧ s'.bodies = s.bodies.eraseIdx index := by
  have hget : s.bodies[index]? = some s.bodies[index] := getElem?_eq_getElem hi
  have hsplit : s.bodies = s.bodies.take index ++ s.bodies[index] :: s.bodies.drop (index + 1) := by
    rw [getElem_cons_drop, take_append_drop]
  have hrest : s.bodies.eraseIdx index = s.bodies.take index ++ s.bodies.drop (index + 1) :=
    eraseIdx_eq_take_drop_succ s.bodies index
  have hperm : s.held.Perm (s.bodies[index].held ++ (s.bodies.eraseIdx index).flatMap Body.held) := by
    unfold held
    rw [hrest, flatMap_append]
    conv => lhs; rw [hsplit, flatMap_append, flatMap_cons]
    exact perm_append_comm_assoc _ _ _
  have hkeys := (hperm.map key).nodup_iff.mp h.keys
  have hbytes := h.bytes.trans (hperm.map (resultBytes sizes)).sum_nat
  obtain ⟨views, hrun, hviews⟩ := forget_all (s := { s with bodies := s.bodies.eraseIdx index }) sizes
    (h.views.trans hperm) hkeys hbytes
  refine ⟨{ s with
    bodies := s.bodies.eraseIdx index
    retainedBytes := (((s.bodies.eraseIdx index).flatMap Body.held).map (resultBytes sizes)).sum
    views := views }, ?_, ?_, rfl⟩
  · unfold remove
    rw [hget]
    exact hrun
  have hsum : ((s.bodies[index].held ++ (s.bodies.eraseIdx index).flatMap Body.held).map
      (resultBytes sizes)).sum =
      (s.bodies[index].held.map (resultBytes sizes)).sum +
        (((s.bodies.eraseIdx index).flatMap Body.held).map (resultBytes sizes)).sum := by
    rw [map_append, sum_append]
  have hlen := hviews.length_eq
  have hall := (h.views.trans hperm).length_eq
  rw [length_append] at hall
  have hcap := h.capacity
  have hbudget := h.budget
  constructor
  · exact h.owners.sublist ((eraseIdx_sublist s.bodies index).map Body.owner)
  · exact hviews
  · rfl
  · change views.length ≤ s.viewCapacity
    omega
  unfold allRetainedBytes at hbudget ⊢
  change (((s.bodies.eraseIdx index).flatMap Body.held).map (resultBytes sizes)).sum +
    s.viewCapacity * sizes.view ≤ budgetBytes
  omega

variable {owner : Owner}

theorem create_inv (h : Inv sizes s) (hnew : owner ∉ s.bodies.map Body.owner) (source : Bytes)
    (path : Option Bytes) (allocated : Bool) :
    Inv sizes (s.create blockCount owner source path allocated).1 := by
  cases allocated with
  | false => exact h
  | true =>
    have hheld : (Body.mk owner source path
        (replicate (blockCount source) ({} : BlockState Span)) false).held = [] := by
      rw [eq_nil_iff_forall_not_mem]
      intro view hv
      obtain ⟨ordinal, block, result, hblock, hr, -⟩ := mem_held.mp hv
      obtain rfl := eq_of_mem_replicate (mem_of_getElem? hblock)
      cases hr
    have hall : (s.bodies ++ [Body.mk owner source path
        (replicate (blockCount source) ({} : BlockState Span)) false]).flatMap Body.held =
        s.held := by
      rw [flatMap_append, flatMap_singleton, hheld, append_nil]
      rfl
    constructor
    · change ((s.bodies ++ [_]).map Body.owner).Nodup
      rw [map_append, nodup_append]
      refine ⟨h.owners, by simp, ?_⟩
      intro a ha b hb hab
      rw [map_singleton, mem_singleton] at hb
      rw [hab, hb] at ha
      exact hnew ha
    · change s.views.Perm ((s.bodies ++ [_]).flatMap Body.held)
      rw [hall]
      exact h.views
    · change s.retainedBytes = (((s.bodies ++ [_]).flatMap Body.held).map _).sum
      rw [hall]
      exact h.bytes
    · exact h.capacity
    · exact h.budget

theorem bodyFor_eq_none (h : s.bodyFor owner = none) : owner ∉ s.bodies.map Body.owner := by
  intro hmem
  obtain ⟨body, hb, rfl⟩ := mem_map.mp hmem
  have hno := find?_eq_none.mp h body hb
  simp at hno

theorem bodyFor_eq_some {body : Body Span} (h : s.bodyFor owner = some body) :
    body ∈ s.bodies ∧ body.owner = owner :=
  ⟨mem_of_find?_eq_some h, by simpa using find?_some h⟩

theorem owner_gone (h : (s.bodies.map Body.owner).Nodup) {index : Nat}
    (hi : index < s.bodies.length) (ho : s.bodies[index].owner = owner) :
    owner ∉ (s.bodies.eraseIdx index).map Body.owner := by
  intro hmem
  obtain ⟨body, hb, hbo⟩ := mem_map.mp hmem
  obtain ⟨j, hj, hget⟩ := mem_eraseIdx_iff_getElem?.mp hb
  obtain ⟨hlt, rfl⟩ := List.getElem?_eq_some_iff.mp hget
  have hlt' : j < (s.bodies.map Body.owner).length := by simpa using hlt
  have hi' : index < (s.bodies.map Body.owner).length := by simpa using hi
  refine hj ((List.Nodup.getElem_inj_iff h).mp
    (?_ : (s.bodies.map Body.owner)[j] = (s.bodies.map Body.owner)[index]))
  rw [getElem_map, getElem_map, ho, hbo]

theorem get_inv (h : Inv sizes s) (owner : Owner) (source : Bytes) (path : Option Bytes)
    (allocated : Bool) : ∃ s' body, s.get sizes blockCount owner source path allocated = some (s', body) ∧
      Inv sizes s' := by
  unfold get
  cases hb : s.bodyFor owner with
  | none => exact ⟨_, _, rfl, create_inv h (bodyFor_eq_none hb) source path allocated⟩
  | some body =>
    obtain ⟨hmem, howner⟩ := bodyFor_eq_some hb
    by_cases hsame : body.source = source ∧ body.suggestionPath = path
    · exact ⟨s, some body, if_pos hsame, h⟩
    have hi : s.bodies.findIdx (fun body => body.owner = owner) < s.bodies.length :=
      findIdx_lt_length_of_exists ⟨body, hmem, by simpa using howner⟩
    obtain ⟨s', hrem, hinv, hbodies⟩ := remove_inv h hi
    have hgone : owner ∉ s'.bodies.map Body.owner := by
      rw [hbodies]
      exact owner_gone h.owners hi (by simpa using findIdx_getElem (w := hi))
    refine ⟨(s'.create blockCount owner source path allocated).1,
      (s'.create blockCount owner source path allocated).2, ?_,
      create_inv hinv hgone source path allocated⟩
    dsimp only
    rw [if_neg hsame, hrem]
    rfl

/-- A body with the same owner, text and results. -/
def Body.SameHeld (body body' : Body Span) : Prop :=
  body'.owner = body.owner ∧ body'.held = body.held

theorem updateBody_owners (s : Storage Span) (owner : Owner) {f : Body Span → Body Span}
    (hf : ∀ body, (f body).owner = body.owner) :
    (s.updateBody owner f).bodies.map Body.owner = s.bodies.map Body.owner := by
  unfold updateBody
  rw [map_map]
  apply map_congr_left
  intro body _
  dsimp only [Function.comp_apply]
  split
  · exact hf body
  · rfl

theorem updateBody_held (s : Storage Span) (owner : Owner) {f : Body Span → Body Span}
    (hf : ∀ body, Body.SameHeld body (f body)) : (s.updateBody owner f).held = s.held := by
  unfold held updateBody
  rw [flatMap_map]
  congr 1
  funext body
  split
  · exact (hf body).2
  · rfl

theorem updateBody_inv (h : Inv sizes s) (owner : Owner) {f : Body Span → Body Span}
    (hf : ∀ body, Body.SameHeld body (f body)) : Inv sizes (s.updateBody owner f) :=
  h.congr (updateBody_owners s owner (fun body => (hf body).1)) (updateBody_held s owner hf) rfl rfl
    rfl

variable {f : BlockState Span → BlockState Span} {blocks : List (BlockState Span)}

section

variable (hf : ∀ block, (f block).result = block.result)
include hf

theorem modify_results (ordinal : Nat) :
    (blocks.modify ordinal f).map BlockState.result = blocks.map BlockState.result := by
  induction blocks generalizing ordinal with
  | nil => cases ordinal <;> rfl
  | cons block rest ih =>
    cases ordinal with
    | zero => simp [hf]
    | succ ordinal => simp [ih]

theorem updateBlock_same (body : Body Span) (ordinal : Nat) :
    Body.SameHeld body (body.updateBlock ordinal f) :=
  ⟨rfl, heldFrom_congr (show (body.updateBlock ordinal f).viewOf = body.viewOf from rfl)
    (modify_results hf ordinal) 0⟩

theorem updateBlock_held (s : Storage Span) (owner : Owner) (ordinal : Nat) :
    (s.updateBlock owner ordinal f).held = s.held :=
  updateBody_held s owner (fun body => updateBlock_same hf body ordinal)

end

theorem updateBlock_inv (h : Inv sizes s) (owner : Owner) (ordinal : Nat)
    (hf : ∀ block, (f block).result = block.result) : Inv sizes (s.updateBlock owner ordinal f) :=
  updateBody_inv h owner (fun body => updateBlock_same hf body ordinal)

theorem finishBlocks_results (bodyVisible : Bool) (clock : Nat) (blocks : List (BlockState Span)) :
    (finishBlocks bodyVisible clock blocks).2.map BlockState.result = blocks.map BlockState.result := by
  induction blocks generalizing clock with
  | nil => rfl
  | cons block rest ih =>
    have hblock : (finishBlock bodyVisible clock block).2.result = block.result := by
      unfold finishBlock
      split <;> rfl
    unfold finishBlocks
    rw [map_cons, map_cons, hblock, ih]

theorem finishBodies_same (clock : Nat) (bodies : List (Body Span)) :
    (finishBodies clock bodies).2.map Body.owner = bodies.map Body.owner ∧
      (finishBodies clock bodies).2.flatMap Body.held = bodies.flatMap Body.held := by
  induction bodies generalizing clock with
  | nil => exact ⟨rfl, rfl⟩
  | cons body rest ih =>
    obtain ⟨howners, hheld⟩ := ih (finishBlocks body.visible clock body.blocks).1
    have hview : ({ body with blocks := (finishBlocks body.visible clock body.blocks).2 } :
        Body Span).viewOf = body.viewOf := rfl
    have hbody := heldFrom_congr hview (finishBlocks_results body.visible clock body.blocks) 0
    unfold finishBodies
    constructor
    · rw [map_cons, map_cons, howners]
    · rw [flatMap_cons, flatMap_cons, hheld]
      exact congrArg (· ++ _) hbody

theorem finishVisibility_inv (h : Inv sizes s) : Inv sizes s.finishVisibility := by
  obtain ⟨howners, hheld⟩ := finishBodies_same s.clock s.bodies
  exact h.congr howners hheld rfl rfl rfl

/-- The block of a view is in sight. -/
def inSight (s : Storage Span) (view : View Span) : Bool :=
  (s.bodyFor view.owner).any (fun body => body.blockVisible view.block)

/-- When the block of a view was in sight last. -/
def lastUsed (s : Storage Span) (view : View Span) : Nat :=
  ((s.bodyFor view.owner).map (fun body => body.blockUsed view.block)).getD 0

/-- Blocks out of sight rank first, then the use decides. -/
def rank (s : Storage Span) (view : View Span) : Bool ×ₗ Nat :=
  toLex (s.inSight view, s.lastUsed view)

theorem rank_le {other : View Span} (h : s.rank view ≤ s.rank other) :
    (s.inSight view = true → s.inSight other = true) ∧
      (s.inSight view = s.inSight other → s.lastUsed view ≤ s.lastUsed other) := by
  unfold rank at h
  rw [Prod.Lex.toLex_le_toLex] at h
  change s.inSight view < s.inSight other ∨
    s.inSight view = s.inSight other ∧ s.lastUsed view ≤ s.lastUsed other at h
  obtain hlt | ⟨heq, hle⟩ := h
  · obtain ⟨hview, hother⟩ := Bool.lt_iff.mp hlt
    constructor
    · intro _
      exact hother
    · intro heq
      rw [hview, hother] at heq
      cases heq
  · exact ⟨fun hview => heq ▸ hview, fun _ => hle⟩

theorem goesBefore_eq {prior : View Span} {body priorBody : Body Span}
    (h : s.bodyFor view.owner = some body) (hprior : s.bodyFor prior.owner = some priorBody) :
    s.goesBefore view prior = decide (s.rank view < s.rank prior) := by
  unfold goesBefore rank inSight lastUsed
  rw [h, hprior, Bool.eq_iff_iff, decide_eq_true_iff, Prod.Lex.toLex_lt_toLex]
  simp [Bool.lt_iff]

theorem bodyFor_of_mem (h : (s.bodies.map Body.owner).Nodup) {body : Body Span}
    (hb : body ∈ s.bodies) : s.bodyFor body.owner = some body := by
  cases hfind : s.bodyFor body.owner with
  | none => exact absurd (mem_map.mpr ⟨body, hb, rfl⟩) (bodyFor_eq_none hfind)
  | some other =>
    obtain ⟨hother, howner⟩ := bodyFor_eq_some hfind
    rw [inj_on_of_nodup_map h hother hb howner]

theorem held_found (h : (s.bodies.map Body.owner).Nodup) (hv : view ∈ s.held) :
    ∃ body block, s.bodyFor view.owner = some body ∧ body.blocks[view.block]? = some block ∧
      block.result = some ⟨view.spans⟩ ∧ view.body = body.source := by
  obtain ⟨body, hb, hheld⟩ := mem_storage_held.mp hv
  obtain ⟨ordinal, block, result, hblock, hr, rfl⟩ := mem_held.mp hheld
  exact ⟨body, block, bodyFor_of_mem h hb, hblock, hr, rfl⟩

theorem foldl_goesBefore {items : List (View Span)} {offset : Nat} {best : Nat × View Span}
    (hitems : ∀ view ∈ items, ∃ body, s.bodyFor view.owner = some body)
    (hbest : ∃ body, s.bodyFor best.2.owner = some body) :
    (items.zipIdx offset).foldl (fun best entry =>
      if s.goesBefore entry.1 best.2 then (entry.2, entry.1) else best) best =
      (items.zipIdx offset).foldl (leastOf s.rank) best := by
  induction items generalizing offset best with
  | nil => rfl
  | cons view rest ih =>
    obtain ⟨body, hbody⟩ := hitems view mem_cons_self
    obtain ⟨priorBody, hprior⟩ := hbest
    have hstep : (if s.goesBefore view best.2 then (offset, view) else best) =
        leastOf s.rank best (view, offset) := by
      rw [goesBefore_eq hbody hprior]
      simp [leastOf]
    rw [zipIdx_cons, foldl_cons, foldl_cons, hstep]
    apply ih (fun other hother => hitems other (mem_cons_of_mem view hother))
    unfold leastOf
    split
    · exact ⟨body, hbody⟩
    · exact ⟨priorBody, hprior⟩

variable {old : List (View Span)}

theorem victim_eq (new : View Span) (hne : old ≠ [])
    (hold : ∀ view ∈ old, ∃ body, s.bodyFor view.owner = some body) :
    s.victim (old ++ [new]) = leastIndex s.rank old := by
  obtain ⟨first, rest, rfl⟩ := exists_cons_of_ne_nil hne
  unfold victim leastIndex
  rw [dropLast_concat]
  exact congrArg Prod.fst (foldl_goesBefore hold (hold first mem_cons_self))

/-- What a result takes with its view. -/
def viewBytes (sizes : Sizes) (view : View Span) : Nat := view.resultBytes sizes + sizes.view

theorem sum_viewBytes (sizes : Sizes) (views : List (View Span)) : (views.map (viewBytes sizes)).sum =
      (views.map (resultBytes sizes)).sum + views.length * sizes.view := by
  induction views with
  | nil => simp
  | cons view rest ih =>
    rw [map_cons, sum_cons, ih, map_cons, sum_cons, length_cons, Nat.succ_mul, viewBytes]
    omega

theorem chooseViews_eq (h : (s.bodies.map Body.owner).Nodup) {new : View Span}
    (hnew : viewBytes sizes new ≤ budgetBytes) {fuel : Nat} (hlen : old.length ≤ fuel)
    (hold : ∀ view ∈ old, view ∈ s.held) :
    s.chooseViews sizes fuel (old ++ [new])
      ((old.map (resultBytes sizes)).sum + new.resultBytes sizes) =
      some (makeRoom s.rank (viewBytes sizes) (budgetBytes - viewBytes sizes new) fuel old ++ [new]) := by
  have hsum (views : List (View Span)) := sum_viewBytes sizes views
  unfold viewBytes at hnew
  induction fuel generalizing old with
  | zero =>
    obtain rfl := eq_nil_of_length_eq_zero (Nat.le_zero.mp hlen)
    unfold chooseViews
    rw [if_pos (by simpa using hnew)]
    rfl
  | succ fuel ih =>
    unfold chooseViews makeRoom
    by_cases hfits : (old.map (viewBytes sizes)).sum ≤ budgetBytes - viewBytes sizes new
    · rw [if_pos hfits, if_pos]
      rw [hsum, viewBytes] at hfits
      rw [length_append, length_singleton, Nat.succ_mul]
      omega
    have hne : old ≠ [] := by
      rintro rfl
      exact hfits (Nat.zero_le _)
    rw [if_neg hfits, if_neg]
    · obtain ⟨view, hget, -⟩ := leastIndex_spec s.rank hne
      obtain ⟨hlt, hview⟩ := List.getElem?_eq_some_iff.mp hget
      obtain ⟨body, block, hbody, hblock, hr, -⟩ := held_found h (hold view (List.mem_of_getElem? hget))
      have hbytes := ((List.getElem_cons_eraseIdx_perm hlt).map (resultBytes sizes)).sum_nat
      rw [List.map_cons, List.sum_cons, hview] at hbytes
      have hres : s.resultOf view = some ⟨view.spans⟩ := by
        unfold resultOf
        rw [hbody, Option.bind_some, hblock, Option.bind_some, hr]
      have hret : Result.retainedBytes sizes ⟨view.spans⟩ = view.resultBytes sizes := rfl
      have hlen' : (old.eraseIdx (leastIndex s.rank old)).length ≤ fuel := by
        rw [length_eraseIdx_of_lt hlt]
        omega
      have hrest := ih hlen' (fun other hother => hold other (mem_of_mem_eraseIdx hother))
      rw [victim_eq new hne (fun other hother =>
        (held_found h (hold other hother)).imp (fun _ hfound => hfound.choose_spec.1)),
        getElem?_append_left hlt, hget, Option.bind_some, hres,
        eraseIdx_append_of_lt_length hlt]
      dsimp only
      rw [hret, if_pos (by omega), ← hrest]
      congr 1
      omega
    · rw [hsum, viewBytes] at hfits
      rw [length_append, length_singleton, Nat.succ_mul]
      omega

/-- A result that keeps its view. -/
def isKept (views : List (View Span)) (result : View Span) : Bool := !unkept views result

variable {views : List (View Span)}

theorem isKept_iff {result : View Span} :
    isKept views result = true ↔ ∃ view ∈ views, view.key = result.key := by
  unfold isKept unkept
  rw [Bool.not_not, any_eq_true]
  simp only [isOf_iff]
  rfl

theorem heldFrom_drop (views : List (View Span)) {body body' : Body Span}
    (hview : body'.viewOf = body.viewOf) (first : Nat) (blocks : List (BlockState Span)) :
    heldFrom body' first (blocks.mapIdx (fun i => dropBlock views body (first + i))) =
      (heldFrom body first blocks).filter (isKept views) := by
  induction blocks generalizing first with
  | nil => rfl
  | cons block rest ih =>
    have hrest : (fun i => dropBlock views body (first + (i + 1))) =
        fun i => dropBlock views body (first + 1 + i) := by
      funext i
      congr 1
      omega
    rw [mapIdx_cons, heldFrom, heldFrom, filter_append, hrest, ih (first + 1)]
    congr 1
    rw [Nat.add_zero, hview]
    unfold dropBlock
    cases hr : block.result with
    | none => simp [hr]
    | some result =>
      cases hkept : unkept views (body.viewOf first result) with
      | false => simp [hr, isKept, hkept]
      | true => simp [BlockState.evict, isKept, hkept]

theorem dropBlocks_held (views : List (View Span)) (body : Body Span) :
    (dropBlocks views body).held = body.held.filter (isKept views) := by
  have h := heldFrom_drop views (show (dropBlocks views body).viewOf = body.viewOf from rfl) 0
    body.blocks
  simp only [Nat.zero_add] at h
  exact h

theorem flatMap_dropBlocks (views : List (View Span)) (bodies : List (Body Span)) :
    (bodies.map (dropBlocks views)).flatMap Body.held =
      (bodies.flatMap Body.held).filter (isKept views) := by
  induction bodies with
  | nil => rfl
  | cons body rest ih =>
    rw [map_cons, flatMap_cons, flatMap_cons, filter_append, dropBlocks_held, ih]

theorem dropUnkept_eq (h : Inv sizes s) (views : List (View Span)) :
    ∃ rest, s.dropUnkept sizes views = some { s with
      bodies := s.bodies.map (dropBlocks views)
      retainedBytes := ((s.held.filter (isKept views)).map (resultBytes sizes)).sum
      views := rest } := by
  have hperm : s.held.Perm (s.held.filter (unkept views) ++ s.held.filter (isKept views)) :=
    (filter_append_perm (unkept views) s.held).symm
  have hkeys := (hperm.map key).nodup_iff.mp h.keys
  have hbytes := h.bytes.trans (hperm.map (resultBytes sizes)).sum_nat
  obtain ⟨rest, hrun, -⟩ := forget_all sizes (h.views.trans hperm) hkeys hbytes
  refine ⟨rest, ?_⟩
  unfold dropUnkept
  rw [hrun]
  rfl

variable {ordinal : Nat} {block : BlockState Span} {result : Result Span}

theorem heldFrom_set {body body' : Body Span} (hview : body'.viewOf = body.viewOf) (first : Nat)
    (hblock : blocks[ordinal]? = some block) (hnone : block.result = none)
    (hf : (f block).result = some result) :
    (heldFrom body' first (blocks.modify ordinal f)).Perm
      (body.viewOf (first + ordinal) result :: heldFrom body first blocks) := by
  induction blocks generalizing ordinal first with
  | nil => simp at hblock
  | cons head rest ih =>
    cases ordinal with
    | zero =>
      cases hblock
      have hrest := heldFrom_congr hview (Eq.refl (rest.map BlockState.result)) (first + 1)
      simp [heldFrom, hf, hnone, hview, hrest]
    | succ ordinal =>
      have hperm := ih (first + 1) hblock
      rw [Nat.add_right_comm, Nat.add_assoc] at hperm
      rw [modify_succ_cons, heldFrom, heldFrom, hview]
      exact (hperm.append_left _).trans perm_middle

theorem flatMap_set {bodies : List (Body Span)} (h : (bodies.map Body.owner).Nodup) {body : Body Span}
    (hmem : body ∈ bodies) {f : Body Span → Body Span}
    (hf : (f body).held.Perm (view :: body.held)) :
    ((bodies.map (fun other => if other.owner = body.owner then f other else other)).flatMap
      Body.held).Perm (view :: bodies.flatMap Body.held) := by
  induction bodies with
  | nil => cases hmem
  | cons first rest ih =>
    rw [map_cons, nodup_cons] at h
    rw [map_cons, flatMap_cons, flatMap_cons]
    obtain rfl | hmem := mem_cons.mp hmem
    · have hrest : rest.map (fun other => if other.owner = body.owner then f other else other) =
          rest := by
        conv => rhs; rw [← map_id rest]
        apply map_congr_left
        intro other hother
        exact if_neg (fun ho => h.1 (mem_map.mpr ⟨other, hother, ho⟩))
      rw [if_pos rfl, hrest]
      exact hf.append_right _
    · have hne : first.owner ≠ body.owner := fun ho => h.1 (mem_map.mpr ⟨body, hmem, ho.symm⟩)
      rw [if_neg hne]
      exact ((ih h.2 hmem).append_left _).trans perm_middle

theorem setResult_held (h : (s.bodies.map Body.owner).Nodup) {body : Body Span}
    (hbody : s.bodyFor owner = some body) (hblock : body.blocks[ordinal]? = some block)
    (hnone : block.result = none) (hf : (f block).result = some result) :
    (s.updateBlock owner ordinal f).held.Perm (body.viewOf ordinal result :: s.held) := by
  obtain ⟨hmem, rfl⟩ := bodyFor_eq_some hbody
  have hset := heldFrom_set (show (body.updateBlock ordinal f).viewOf = body.viewOf from rfl) 0
    hblock hnone hf
  rw [Nat.zero_add] at hset
  exact flatMap_set h hmem (f := fun other => other.updateBlock ordinal f) hset

theorem bodyFor_map (f : Body Span → Body Span) (hf : ∀ body, (f body).owner = body.owner)
    (owner : Owner) : ({ s with bodies := s.bodies.map f } : Storage Span).bodyFor owner =
      (s.bodyFor owner).map f := by
  unfold bodyFor
  rw [find?_map]
  congr 2
  funext body
  rw [Function.comp_apply, hf]

/-- The storage after an admission, with these old views kept. -/
def admitted (sizes : Sizes) (s : Storage Span) (owner : Owner) (ordinal : Nat)
    (result : Result Span) (views : List (View Span)) : Storage Span :=
  { (({ s with bodies := s.bodies.map (dropBlocks views) } : Storage Span).updateBlock owner ordinal
      (fun block => { block with result := some result, state := .ready, used := s.clock + 1 })) with
    views := views
    viewCapacity := views.length
    clock := s.clock + 1
    retainedBytes := ((s.held.filter (isKept views)).map (View.resultBytes sizes)).sum +
      result.retainedBytes sizes }

theorem dropBlocks_block {body : Body Span} (hblock : body.blocks[ordinal]? = some block) :
    (dropBlocks views body).blocks[ordinal]? = some (dropBlock views body ordinal block) := by
  unfold dropBlocks
  rw [getElem?_mapIdx, hblock]
  rfl

section Admit

variable {owner : Owner} {ordinal : Nat} {body : Body Span} {block : BlockState Span}
  {result : Result Span}

section

variable (h : Inv sizes s) (hbody : s.bodyFor owner = some body)
  (hblock : body.blocks[ordinal]? = some block) (hnone : block.result = none) (result)
include h hbody hblock hnone

theorem key_new : (body.viewOf ordinal result).key ∉ s.held.map key := by
  intro hmem
  obtain ⟨view, hv, hkey⟩ := mem_map.mp hmem
  obtain ⟨other, otherBlock, hother, hget, hr, -⟩ := held_found h.owners hv
  obtain ⟨-, rfl⟩ := bodyFor_eq_some hbody
  obtain ⟨howner, hord⟩ := Prod.mk.inj hkey
  rw [howner] at hother
  cases hbody.symm.trans hother
  rw [hord] at hget
  cases hblock.symm.trans hget
  rw [hnone] at hr
  cases hr

theorem admitted_held (views : List (View Span)) : (s.admitted sizes owner ordinal result views).held.Perm
      (body.viewOf ordinal result :: s.held.filter (isKept views)) := by
  have hdropped : ((s.bodies.map (dropBlocks views)).map Body.owner).Nodup := by
    rw [map_map]
    exact h.owners
  have hfound := bodyFor_map (s := s) (dropBlocks views) (fun _ => rfl) owner
  rw [hbody, Option.map_some] at hfound
  have hsame : dropBlock views body ordinal block = block := by
    unfold dropBlock
    rw [hnone]
  have hset := setResult_held hdropped hfound (dropBlocks_block hblock) (by rw [hsame]; exact hnone)
    (f := fun block => { block with result := some result, state := .ready, used := s.clock + 1 })
    (Eq.refl (some result))
  have hall : ({ s with bodies := s.bodies.map (dropBlocks views) } : Storage Span).held =
      s.held.filter (isKept views) := flatMap_dropBlocks views s.bodies
  rw [hall] at hset
  exact hset

end

variable {kept : List (View Span)}

theorem kept_perm (h : Inv sizes s) (hkept : kept.Sublist s.views) {new : View Span}
    (hnew : new.key ∉ s.held.map key) : kept.Perm (s.held.filter (isKept (kept ++ [new]))) := by
  have hviews : s.views.Nodup := (h.views.nodup_iff.mpr h.keys.of_map)
  rw [perm_ext_iff_of_nodup (hviews.sublist hkept) (h.keys.of_map.filter _)]
  intro view
  rw [mem_filter, isKept_iff]
  constructor
  · intro hmem
    exact ⟨h.views.mem_iff.mp (hkept.mem hmem), view, mem_append_left _ hmem, rfl⟩
  rintro ⟨hheld, other, hother, hkey⟩
  obtain hother | hother := mem_append.mp hother
  · have hold := h.views.mem_iff.mp (hkept.mem hother)
    rw [← inj_on_of_nodup_map h.keys hold hheld hkey]
    exact hother
  · obtain rfl := mem_singleton.mp hother
    exact absurd (mem_map.mpr ⟨view, hheld, hkey.symm⟩) hnew

section

variable (h : Inv sizes s) (hbody : s.bodyFor owner = some body)
  (hfits : viewBytes sizes (body.viewOf ordinal result) ≤ budgetBytes)
include h hbody hfits

theorem admitted_inv (hblock : body.blocks[ordinal]? = some block) (hnone : block.result = none)
    (hkept : kept.Sublist s.views)
    (hroom : (kept.map (viewBytes sizes)).sum ≤
      budgetBytes - viewBytes sizes (body.viewOf ordinal result)) :
    Inv sizes (s.admitted sizes owner ordinal result (kept ++ [body.viewOf ordinal result])) := by
  have hperm := kept_perm h hkept (key_new result h hbody hblock hnone)
  have hheld := admitted_held result h hbody hblock hnone (kept ++ [body.viewOf ordinal result])
  have hsum := (hperm.map (resultBytes sizes)).sum_nat
  have hret : result.retainedBytes sizes = (body.viewOf ordinal result).resultBytes sizes := rfl
  constructor
  · have howners := updateBody_owners
      ({ s with bodies := s.bodies.map (dropBlocks (kept ++ [body.viewOf ordinal result])) } :
        Storage Span) owner (f := fun other => other.updateBlock ordinal (fun block =>
          { block with result := some result, state := .ready, used := s.clock + 1 })) (fun _ => rfl)
    refine (congrArg List.Nodup howners).mpr ?_
    rw [map_map]
    exact h.owners
  · refine List.Perm.trans ?_ hheld.symm
    exact (perm_append_singleton _ _).trans (hperm.cons _)
  · rw [(hheld.map (resultBytes sizes)).sum_nat, map_cons, sum_cons, Nat.add_comm]
    rfl
  · exact Nat.le_refl _
  · rw [sum_viewBytes] at hroom
    unfold viewBytes at hfits hroom
    change (_ + result.retainedBytes sizes) + (kept ++ [_]).length * sizes.view ≤ budgetBytes
    rw [← hsum, hret, length_append, length_singleton, Nat.succ_mul]
    omega

/-- The admission in one piece: the candidates make room, the others go. -/
theorem admit_eq :
    s.admit_ sizes owner ordinal result true = some (s.admitted sizes owner ordinal result
      (makeRoom s.rank (viewBytes sizes) (budgetBytes - viewBytes sizes (body.viewOf ordinal result))
        (s.views.length + 1) s.views ++ [body.viewOf ordinal result]), .admitted) := by
  have hbytes : s.retainedBytes = (s.views.map (resultBytes sizes)).sum :=
    h.bytes.trans (h.views.map (resultBytes sizes)).sum_nat.symm
  have hret : result.retainedBytes sizes = (body.viewOf ordinal result).resultBytes sizes := rfl
  have hchoose := chooseViews_eq h.owners hfits (Nat.le_succ s.views.length)
    (fun view hview => h.views.mem_iff.mp hview)
  unfold viewBytes at hfits
  unfold admit_
  rw [hbody]
  dsimp only
  rw [if_neg (by omega), if_neg (by decide), hbytes, hret, hchoose]
  obtain ⟨rest, hdrop⟩ := dropUnkept_eq h (makeRoom s.rank (viewBytes sizes)
    (budgetBytes - viewBytes sizes (body.viewOf ordinal result)) (s.views.length + 1) s.views ++
      [body.viewOf ordinal result])
  dsimp only
  rw [hdrop]
  rfl

end

end Admit

end Storage

end Bbr.Tui.CodeHighlighting
