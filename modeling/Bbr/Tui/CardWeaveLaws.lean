import Bbr.Tui.CardGeometry
import Bbr.Tui.CardWeave
import Mathlib.Data.List.Flatten
import Mathlib.Data.List.Perm.Subperm

/-!
# Whole trees

Every step of the weave puts whole trees of cards behind the rows, and no Comment or Draft twice, so
a Buffer has the geometry of the forest of Replies.
-/
namespace Bbr.Tui.Cards

open Bbr.Bitbucket List Option Weave
open Bbr.Review

/-- Every Comment and every Draft is there once. -/
structure Distinct (opts : BuildOptions) : Prop where
  comments : ((opts.threads.flatMap Thread.comments).map Comment.id).Nodup
  drafts : (opts.drafts.map Draft.localId).Nodup

/-! ## Replies -/

def replyId : ReplyItem → Option CommentId
  | .comment comment => some comment.id
  | .draft _ => none

theorem filterMap_unique {α β : Type} {f : α → Option β} {entries : List α}
    (h : (entries.filterMap f).Nodup) {a b : α} {x : β} (ha : a ∈ entries) (hb : b ∈ entries)
    (hfa : f a = some x) (hfb : f b = some x) : a = b := by
  have hpair : entries.Pairwise (fun a b => f a = some x → f b = some x → a = b) :=
    (pairwise_filterMap.mp h).imp (fun hne ha hb => absurd rfl (hne x ha x hb))
  exact @Pairwise.forall_of_forall _ _ _ ⟨fun _ _ heq hb ha => (heq ha hb).symm⟩ (fun _ _ _ _ => rfl)
    hpair _ ha _ hb hfa hfb

section Replies

variable {opts : BuildOptions}

theorem threadReplies_ids (opts : BuildOptions) (thread : Thread) :
    ((opts.threadReplies thread).filterMap (fun pair => replyId pair.2)).Sublist
      (thread.comments.map Comment.id) := by
  have hreplies : (thread.replies.map (fun comment =>
      (opts.effectiveParent (.comment (comment.parentId.getD thread.root.id)),
        ReplyItem.comment comment))).filterMap (fun pair => replyId pair.2) =
          thread.replies.map Comment.id := by
    rw [filterMap_map, ← filterMap_eq_map]
    rfl
  rw [BuildOptions.threadReplies, filterMap_append, hreplies, Thread.comments, map_cons]
  cases thread.root.parentId with
  | none => exact sublist_cons_self _ _
  | some id =>
    by_cases hplaced : opts.placedRoot thread = true
    · simp [hplaced, replyId]
    · simp [hplaced]

theorem draftReply_ids (opts : BuildOptions) :
    (opts.drafts.zipIdx.filterMap opts.draftReply).filterMap (fun pair => replyId pair.2) = [] := by
  refine filterMap_eq_nil_iff.mpr (fun pair hpair => ?_)
  obtain ⟨draft, -, hdraft⟩ := mem_filterMap.mp hpair
  obtain ⟨parent, -, hparent⟩ := bind_eq_some_iff.mp hdraft
  split at hparent
  · cases hparent
  · obtain rfl := some.inj hparent
    rfl

theorem Distinct.replyIds (h : Distinct opts) :
    (opts.replyPairs.filterMap (fun pair => replyId pair.2)).Nodup := by
  rw [BuildOptions.replyPairs, filterMap_append, draftReply_ids, append_nil, filterMap_flatMap]
  have hsub := List.Sublist.flatMap_right
    (opts.threads.mergeSort (fun a b => decide (a.rootInputOrder ≤ b.rootInputOrder)))
    (fun thread _ => threadReplies_ids opts thread)
  refine List.Sublist.nodup hsub ?_
  have hperm := List.Perm.flatMap_right (fun thread : Thread => thread.comments.map Comment.id)
    (mergeSort_perm opts.threads (fun a b => decide (a.rootInputOrder ≤ b.rootInputOrder)))
  rw [hperm.nodup_iff, ← map_flatMap]
  exact h.comments

variable {parent : Parent}

theorem mem_replies {item : ReplyItem} :
    item ∈ opts.replies parent ↔ (parent, item) ∈ opts.replyPairs := by
  simp [BuildOptions.replies]

theorem Distinct.reply (h : Distinct opts) {p q : Parent} {a b : Comment}
    (ha : (p, .comment a) ∈ opts.replyPairs) (hb : (q, .comment b) ∈ opts.replyPairs)
    (hid : a.id = b.id) : p = q := by
  have hb' : replyId (q, ReplyItem.comment b).2 = some a.id := congrArg some hid.symm
  exact congrArg Prod.fst (filterMap_unique h.replyIds ha hb rfl hb')

theorem Distinct.repliesIds (h : Distinct opts) (parent : Parent) :
    ((opts.replies parent).filterMap replyId).Nodup := by
  have hperm := mergeSort_perm ((opts.replyPairs.filter (fun pair => pair.1 = parent)).map Prod.snd)
    (fun a b => !replyLessThan opts.drafts b a)
  rw [BuildOptions.replies, (hperm.filterMap replyId).nodup_iff, filterMap_map]
  exact List.Sublist.nodup (filter_sublist.filterMap _) h.replyIds

/-- A fetched Reply is of a Thread, and a root only when it is placed. -/
theorem reply_thread {comment : Comment} (h : (parent, .comment comment) ∈ opts.replyPairs) :
    ∃ thread ∈ opts.threads,
      (comment = thread.root ∧ opts.placedRoot thread = true) ∨ comment ∈ thread.replies := by
  cases mem_append.mp h with
  | inr hdraft =>
    have hid : comment.id ∈ (opts.drafts.zipIdx.filterMap opts.draftReply).filterMap
        (fun pair => replyId pair.2) := mem_filterMap.mpr ⟨_, hdraft, rfl⟩
    rw [draftReply_ids] at hid
    cases hid
  | inl hthread =>
    obtain ⟨thread, hmem, hpair⟩ := mem_flatMap.mp hthread
    refine ⟨thread, mem_mergeSort.mp hmem, ?_⟩
    cases mem_append.mp hpair with
    | inl hroot =>
      left
      cases hparent : thread.root.parentId with
      | none =>
        rw [hparent] at hroot
        cases hroot
      | some id =>
        rw [hparent] at hroot
        by_cases hplaced : opts.placedRoot thread = true
        · simp only [hplaced, if_true, mem_singleton, Prod.mk.injEq, ReplyItem.comment.injEq] at hroot
          exact ⟨hroot.2, hplaced⟩
        · simp [hplaced] at hroot
    | inr hreply =>
      right
      obtain ⟨reply, hmem', heq⟩ := mem_map.mp hreply
      obtain rfl : reply = comment := by simpa using congrArg Prod.snd heq
      exact hmem'

theorem Distinct.index (h : Distinct opts) {i j : Nat} {a b : Thread}
    (ha : opts.threads[i]? = some a) (hb : opts.threads[j]? = some b) {id : CommentId}
    (hida : id ∈ a.comments.map Comment.id) (hidb : id ∈ b.comments.map Comment.id) : i = j := by
  have hnodup := h.comments
  rw [map_flatMap, nodup_flatMap] at hnodup
  obtain ⟨hi, rfl⟩ := List.getElem?_eq_some_iff.mp ha
  obtain ⟨hj, rfl⟩ := List.getElem?_eq_some_iff.mp hb
  have hdis := pairwise_iff_getElem.mp hnodup.2
  obtain hlt | heq | hlt := Nat.lt_trichotomy i j
  · exact absurd hidb (hdis i j hi hj hlt hida)
  · exact heq
  · exact absurd hida (hdis j i hj hi hlt hidb)

theorem Distinct.thread (h : Distinct opts) {a b : Thread} (ha : a ∈ opts.threads)
    (hb : b ∈ opts.threads) {id : CommentId} (hida : id ∈ a.comments.map Comment.id)
    (hidb : id ∈ b.comments.map Comment.id) : a = b := by
  obtain ⟨i, hi⟩ := mem_iff_getElem?.mp ha
  obtain ⟨j, hj⟩ := mem_iff_getElem?.mp hb
  obtain rfl := h.index hi hj hida hidb
  exact some.inj (hi.symm.trans hj)

theorem Distinct.root (h : Distinct opts) {thread : Thread} (hthread : thread ∈ opts.threads)
    (hplaced : opts.placedRoot thread = false) {parent : Parent} {comment : Comment}
    (hreply : (parent, .comment comment) ∈ opts.replyPairs) : comment.id ≠ thread.root.id := by
  intro hid
  obtain ⟨other, hother, hown⟩ := reply_thread hreply
  have hroot : thread.root.id ∈ thread.comments.map Comment.id := mem_cons_self
  have hmem : comment.id ∈ other.comments.map Comment.id := by
    refine mem_map_of_mem ?_
    cases hown with
    | inl hroot => rw [hroot.1]; exact mem_cons_self
    | inr hreply => exact mem_cons_of_mem _ hreply
  rw [hid] at hmem
  obtain rfl := h.thread hthread hother hroot hmem
  cases hown with
  | inl hroot => rw [hplaced] at hroot; cases hroot.2
  | inr hreply =>
    have hnodup := h.comments
    rw [map_flatMap, nodup_flatMap] at hnodup
    have hown := hnodup.1 thread hthread
    rw [Thread.comments, map_cons, nodup_cons] at hown
    exact hown.1 (hid ▸ mem_map_of_mem hreply)

end Replies

/-! ## Owners -/

def ownerOf : Parent → Owner
  | .draft id => .draft id
  | .comment id => .comment id

def known (opts : BuildOptions) : List Owner :=
  (opts.threads.flatMap Thread.comments).map (fun comment => .comment comment.id) ++
    opts.drafts.map (fun draft => .draft draft.localId)

/-- What is shown already, and that a Reply is shown behind what it replies to. -/
structure Owned (opts : BuildOptions) (owners : List Owner) (emitted emittedThreads : List Bool) :
    Prop where
  nodup : owners.Nodup
  subset : owners ⊆ known opts
  drafts : ∀ (i : Nat) (draft : Draft), opts.drafts[i]? = some draft → emitted[i]? = some false →
    .draft draft.localId ∉ owners
  threads : ∀ (i : Nat) (thread : Thread), opts.threads[i]? = some thread →
    emittedThreads[i]? = some false →
      .comment thread.root.id ∉ owners ∧ opts.placedRoot thread = false
  below : ∀ parent comment, (parent, ReplyItem.comment comment) ∈ opts.replyPairs →
    .comment comment.id ∈ owners → ownerOf parent ∈ owners

section Owned

variable {opts : BuildOptions} {owners : List Owner} {emitted emittedThreads : List Bool}

theorem known_length (opts : BuildOptions) : (known opts).length = opts.ancestryLimit := by
  simp [known, BuildOptions.ancestryLimit]

theorem Owned.length (h : Owned opts owners emitted emittedThreads) :
    owners.length ≤ opts.ancestryLimit := by
  rw [← known_length]
  exact (List.Nodup.subperm h.nodup h.subset).length_le

theorem known_draft {i : Nat} {draft : Draft} (h : opts.drafts[i]? = some draft) :
    .draft draft.localId ∈ known opts :=
  mem_append_right _ (mem_map_of_mem (mem_of_getElem? h))

theorem known_root {i : Nat} {thread : Thread} (h : opts.threads[i]? = some thread) :
    .comment thread.root.id ∈ known opts :=
  mem_append_left _ (mem_map_of_mem (mem_flatMap.mpr ⟨thread, mem_of_getElem? h, mem_cons_self⟩))

variable {parent : Parent} {comment : Comment}

theorem known_reply (h : (parent, ReplyItem.comment comment) ∈ opts.replyPairs) :
    .comment comment.id ∈ known opts := by
  obtain ⟨thread, hthread, hown⟩ := reply_thread h
  refine mem_append_left _ (mem_map_of_mem (mem_flatMap.mpr ⟨thread, hthread, ?_⟩))
  cases hown with
  | inl hroot => rw [hroot.1]; exact mem_cons_self
  | inr hreply => exact mem_cons_of_mem _ hreply

theorem set_true {flags : List Bool} {i j : Nat} (h : (flags.set i true)[j]? = some false) :
    i ≠ j ∧ flags[j]? = some false := by
  rw [getElem?_set] at h
  by_cases heq : i = j
  · rw [if_pos heq] at h
    split at h <;> cases h
  · rw [if_neg heq] at h
    exact ⟨heq, h⟩

variable {emitted' emittedThreads' : List Bool}

section

variable (h : Owned opts owners emitted emittedThreads)
include h

theorem Owned.add {owner : Owner} (hnew : owner ∉ owners) (hknown : owner ∈ known opts)
    (hdrafts : ∀ (i : Nat) (draft : Draft), opts.drafts[i]? = some draft →
      emitted'[i]? = some false → emitted[i]? = some false ∧ owner ≠ .draft draft.localId)
    (hthreads : ∀ (i : Nat) (thread : Thread), opts.threads[i]? = some thread →
      emittedThreads'[i]? = some false → emittedThreads[i]? = some false ∧
        (opts.placedRoot thread = false → owner ≠ .comment thread.root.id))
    (hbelow : ∀ parent comment, (parent, ReplyItem.comment comment) ∈ opts.replyPairs →
      owner = .comment comment.id → ownerOf parent ∈ owners) :
    Owned opts (owners ++ [owner]) emitted' emittedThreads' := by
  have hmem : ∀ {other}, other ∉ owners → owner ≠ other → other ∉ owners ++ [owner] := by
    intro other hother hne habsurd
    cases mem_append.mp habsurd with
    | inl hin => exact hother hin
    | inr hin => exact hne (mem_singleton.mp hin).symm
  constructor
  case nodup => exact nodup_append.mpr ⟨h.nodup, nodup_singleton _, by
    rintro a ha b hb rfl
    exact hnew (mem_singleton.mp hb ▸ ha)⟩
  case subset => exact append_subset.mpr ⟨h.subset, cons_subset.mpr ⟨hknown, nil_subset _⟩⟩
  case drafts =>
    intro i draft hdraft hflag
    obtain ⟨hold, hne⟩ := hdrafts i draft hdraft hflag
    exact hmem (h.drafts i draft hdraft hold) hne
  case threads =>
    intro i thread hthread hflag
    obtain ⟨hold, hne⟩ := hthreads i thread hthread hflag
    obtain ⟨hroot, hplaced⟩ := h.threads i thread hthread hold
    exact ⟨hmem hroot (hne hplaced), hplaced⟩
  case below =>
    intro parent comment hreply hcomment
    cases mem_append.mp hcomment with
    | inl hin => exact mem_append_left _ (h.below parent comment hreply hin)
    | inr hin =>
      exact mem_append_left _ (hbelow parent comment hreply (mem_singleton.mp hin).symm)

theorem Owned.reply (hdistinct : Distinct opts)
    (hreply : (parent, ReplyItem.comment comment) ∈ opts.replyPairs)
    (hparent : ownerOf parent ∈ owners) (hnew : .comment comment.id ∉ owners) :
    Owned opts (owners ++ [.comment comment.id]) emitted emittedThreads := by
  refine h.add hnew (known_reply hreply) (fun i draft hdraft hflag => ⟨hflag, Owner.noConfusion⟩) ?_ ?_
  · intro i thread hthread hflag
    refine ⟨hflag, fun hplaced heq => ?_⟩
    exact hdistinct.root (mem_of_getElem? hthread) hplaced hreply (Owner.comment.inj heq)
  · intro other comment' hreply' heq
    rwa [hdistinct.reply hreply' hreply (Owner.comment.inj heq).symm]

theorem Owned.draft (hdistinct : Distinct opts) {i : Nat} {draft : Draft}
    (hdraft : opts.drafts[i]? = some draft) (hflag : emitted[i]? = some false) :
    Owned opts (owners ++ [.draft draft.localId]) (emitted.set i true) emittedThreads := by
  refine h.add (h.drafts i draft hdraft hflag) (known_draft hdraft) ?_
    (fun j thread hthread hflag => ⟨hflag, fun _ => Owner.noConfusion⟩)
    (fun parent comment hreply => Owner.noConfusion)
  intro j other hother hflag'
  obtain ⟨hne, hold⟩ := set_true hflag'
  refine ⟨hold, fun heq => hne ((getElem?_inj ?_ hdistinct.drafts).mp ?_)⟩
  · rw [length_map]
    exact (List.getElem?_eq_some_iff.mp hdraft).1
  · rw [List.getElem?_map, List.getElem?_map, hdraft, hother, map_some, map_some, Owner.draft.inj heq]

theorem Owned.root (hdistinct : Distinct opts) {i : Nat} {thread : Thread}
    (hthread : opts.threads[i]? = some thread) (hflag : emittedThreads[i]? = some false) :
    Owned opts (owners ++ [.comment thread.root.id]) emitted (emittedThreads.set i true) := by
  obtain ⟨hroot, hplaced⟩ := h.threads i thread hthread hflag
  refine h.add hroot (known_root hthread) (fun j draft hdraft hflag => ⟨hflag, Owner.noConfusion⟩) ?_ ?_
  · intro j other hother hflag'
    obtain ⟨hne, hold⟩ := set_true hflag'
    exact ⟨hold, fun _ heq => hne (hdistinct.index hthread hother mem_cons_self
      (Owner.comment.inj heq ▸ mem_cons_self))⟩
  · intro parent comment hreply heq
    exact absurd (Owner.comment.inj heq).symm (hdistinct.root (mem_of_getElem? hthread) hplaced hreply)

theorem Owned.hide (hdrafts : ∀ i : Nat, emitted'[i]? = some false → emitted[i]? = some false)
    (hthreads : ∀ i : Nat, emittedThreads'[i]? = some false → emittedThreads[i]? = some false) :
    Owned opts owners emitted' emittedThreads' :=
  ⟨h.nodup, h.subset, fun i draft hdraft hflag => h.drafts i draft hdraft (hdrafts i hflag),
    fun i thread hthread hflag => h.threads i thread hthread (hthreads i hflag), h.below⟩

end

end Owned

/-- The cards below one card, of one depth at least. -/
structure Level (indentation : CardIndentation) (depth : Nat) (cards : List CardBlock) : Prop where
  indentation : ∀ card ∈ cards, card.indentation = indentation
  least : ∀ card ∈ cards, depth ≤ card.first.depth
  first : ∀ card ∈ cards.head?, card.first.depth = depth
  chain : cards.IsChain (fun a b => b.first.depth ≤ a.first.depth + 1)

def ownersOf (cards : List CardBlock) : List Owner := cards.map (fun card => card.first.owner)

section Level

variable {indentation : CardIndentation} {depth : Nat}

theorem Level.nil : Level indentation depth [] :=
  ⟨fun _ h => (by cases h), fun _ h => (by cases h), fun _ h => (by cases h), .nil⟩

theorem Level.append {a b : List CardBlock} (ha : Level indentation depth a)
    (hb : Level indentation depth b) : Level indentation depth (a ++ b) := by
  constructor
  case indentation =>
    intro card hcard
    exact (mem_append.mp hcard).elim (ha.indentation card) (hb.indentation card)
  case least =>
    intro card hcard
    exact (mem_append.mp hcard).elim (ha.least card) (hb.least card)
  case first =>
    intro card hcard
    cases a with
    | nil => exact hb.first card hcard
    | cons first rest => exact ha.first card hcard
  case chain =>
    refine isChain_append.mpr ⟨ha.chain, hb.chain, fun last hlast next hnext => ?_⟩
    rw [hb.first next hnext]
    exact Nat.le_succ_of_le (ha.least last (mem_of_getLast? hlast))

theorem Level.node {card : CardBlock} {below : List CardBlock}
    (hindentation : card.indentation = indentation) (hdepth : card.first.depth = depth)
    (h : Level indentation (depth + 1) below) : Level indentation depth (card :: below) := by
  constructor
  case indentation =>
    intro other hother
    cases mem_cons.mp hother with
    | inl heq => rw [heq, hindentation]
    | inr hbelow => exact h.indentation other hbelow
  case least =>
    intro other hother
    cases mem_cons.mp hother with
    | inl heq => rw [heq, hdepth]
    | inr hbelow => exact Nat.le_of_succ_le (h.least other hbelow)
  case first =>
    intro other hother
    rw [head?_cons, mem_some_iff] at hother
    rw [← hother, hdepth]
  case chain =>
    refine isChain_cons.mpr ⟨fun next hnext => ?_, h.chain⟩
    rw [h.first next hnext, hdepth]

end Level

/-! ## Emission -/

section Emission

variable {opts : BuildOptions} {indentation : CardIndentation}

theorem projectInto_alike {options : Options} {row : ReviewCardRow}
    (h : row ∈ projectInto opts options) : ∃ part, row = makeRow options part := by
  rw [projectInto] at h
  rw [mem_append, mem_append, mem_cons] at h
  obtain ((heq | hbody) | hmark) | hend := h
  · exact ⟨_, heq⟩
  · obtain ⟨part, -, heq⟩ := mem_map.mp hbody
    exact ⟨part, heq.symm⟩
  · exact ⟨_, mem_singleton.mp (mem_ite_nil_right.mp hmark).2⟩
  · exact ⟨_, mem_singleton.mp hend⟩

def cardBlock (opts : BuildOptions) (options : Options) (indentation : CardIndentation)
    (hunit : 0 < indentation.unit) (hindent : options.indent = indentation.offset options.depth) :
    CardBlock where
  indentation := indentation
  first := makeRow options .header
  rest := (projectInto opts options).tail
  alike := by
    intro row hrow
    obtain ⟨part, rfl⟩ := projectInto_alike (List.mem_of_mem_tail hrow)
    exact ⟨rfl, rfl, rfl⟩
  unit := hunit
  indent := hindent

theorem projectCard_rows (options : Options) (hunit : 0 < indentation.unit)
    (hindent : options.indent = indentation.offset options.depth) (w : Weave) :
    (w.projectCard opts options).rows =
      w.rows ++ (cardBlock opts options indentation hunit hindent).rows := rfl

@[simp] theorem cardsOf_cards (cards : List CardBlock) : cardsOf (cards.map .card) = cards := by
  induction cards with
  | nil => rfl
  | cons card cards ih => rw [map_cons, cardsOf_card, ih]

/-- A Reply among the owners comes with what it replies to. -/
def Below (opts : BuildOptions) (parent : Parent) (owners : List Owner) : Prop :=
  ∀ q comment, (q, ReplyItem.comment comment) ∈ opts.replyPairs → .comment comment.id ∈ owners →
    q = parent ∨ ownerOf q ∈ owners

/-- Cards below a parent are put behind the rows. -/
structure Emits (opts : BuildOptions) (indentation : CardIndentation) (depth : Nat) (parent : Parent)
    (owners : List Owner) (cards : List CardBlock) (w w' : Weave) : Prop where
  rows : w'.rows = w.rows ++ rowsOf (cards.map .card)
  count : w'.cardCount = w.cardCount + cards.length
  starts : w'.treeStarts = w.treeStarts
  level : Level indentation depth cards
  owned : Owned opts (owners ++ ownersOf cards) w'.emitted w'.emittedThreads
  below : Below opts parent (ownersOf cards)

variable {depth : Nat} {parent : Parent} {owners : List Owner} {w w' w'' : Weave}

theorem Emits.nothing (h : Owned opts owners w.emitted w.emittedThreads) :
    Emits opts indentation depth parent owners [] w w := by
  refine ⟨(append_nil _).symm, rfl, rfl, .nil, ?_, fun q comment _ hmem => (by cases hmem)⟩
  rwa [ownersOf, map_nil, append_nil]

theorem Emits.append {a b : List CardBlock} (ha : Emits opts indentation depth parent owners a w w')
    (hb : Emits opts indentation depth parent (owners ++ ownersOf a) b w' w'') :
    Emits opts indentation depth parent owners (a ++ b) w w'' := by
  constructor
  case rows => rw [hb.rows, ha.rows, map_append, rowsOf_append, append_assoc]
  case count => rw [hb.count, ha.count, length_append, Nat.add_assoc]
  case starts => rw [hb.starts, ha.starts]
  case level => exact ha.level.append hb.level
  case owned =>
    rw [ownersOf, map_append, ← append_assoc]
    exact hb.owned
  case below =>
    intro q comment hreply hmem
    rw [ownersOf, map_append] at hmem ⊢
    cases mem_append.mp hmem with
    | inl hmem => exact (ha.below q comment hreply hmem).imp_right (mem_append_left _)
    | inr hmem => exact (hb.below q comment hreply hmem).imp_right (mem_append_right _)

theorem Emits.fresh {cards : List CardBlock} (h : Emits opts indentation depth parent owners cards w w')
    {q : Parent} {comment : Comment} (hreply : (q, ReplyItem.comment comment) ∈ opts.replyPairs)
    (hq : ownerOf q ∈ owners) (hne : q ≠ parent) (hnew : .comment comment.id ∉ owners) :
    .comment comment.id ∉ owners ++ ownersOf cards := by
  intro hmem
  have hmem := (mem_append.mp hmem).resolve_left hnew
  have hbelow := (h.below q comment hreply hmem).resolve_left hne
  exact (nodup_append.mp h.owned.nodup).2.2 _ hq _ hbelow rfl

/-- What puts the cards below a parent that has just been put, while owners are left. -/
def EmitsBelow (opts : BuildOptions) (indentation : CardIndentation) (fuel : Nat)
    (emitBelow : Parent → Nat → CardIndentation → Weave → Option Weave) : Prop :=
  ∀ parent depth w owners, Owned opts owners w.emitted w.emittedThreads → ownerOf parent ∈ owners →
    (∀ comment, (parent, ReplyItem.comment comment) ∈ opts.replyPairs →
      .comment comment.id ∉ owners) → opts.ancestryLimit < owners.length + fuel →
    ∃ w' cards, emitBelow parent depth indentation w = some w' ∧
      Emits opts indentation depth parent owners cards w w'

variable {emitBelow : Parent → Nat → CardIndentation → Weave → Option Weave} {fuel : Nat}

theorem EmitsBelow.card (h : EmitsBelow opts indentation fuel emitBelow)
    (hunit : 0 < indentation.unit) (parent own : Parent) (options : Options) (w w₀ : Weave)
    (howner : options.owner = ownerOf own) (hdepth : options.depth = depth)
    (hindent : options.indent = indentation.offset depth)
    (hsame : w₀.rows = w.rows ∧ w₀.cardCount = w.cardCount ∧ w₀.treeStarts = w.treeStarts)
    (hshown : Owned opts owners w.emitted w.emittedThreads)
    (howned : Owned opts (owners ++ [ownerOf own]) w₀.emitted w₀.emittedThreads)
    (hparent : ∀ q comment, (q, ReplyItem.comment comment) ∈ opts.replyPairs →
      .comment comment.id = ownerOf own → q = parent ∧ ownerOf q ∈ owners)
    (hlimit : opts.ancestryLimit < owners.length + (fuel + 1)) :
    ∃ w' card below, emitBelow own (depth + 1) indentation (w₀.projectCard opts options) = some w' ∧
      Emits opts indentation depth parent owners (card :: below) w w' ∧
        card.first.depth = depth ∧ Level indentation (depth + 1) below ∧
        ∀ q comment, (q, ReplyItem.comment comment) ∈ opts.replyPairs → ownerOf q ∈ owners →
          .comment comment.id ∉ owners → .comment comment.id ≠ ownerOf own →
            .comment comment.id ∉ owners ++ ownersOf (card :: below) := by
  subst hdepth
  obtain ⟨hrows, hcount, hstarts⟩ := hsame
  have hout : ownerOf own ∉ owners := fun hin =>
    (nodup_append.mp howned.nodup).2.2 _ hin _ (mem_singleton_self _) rfl
  have hchildren : ∀ comment, (own, ReplyItem.comment comment) ∈ opts.replyPairs →
      .comment comment.id ∉ owners ++ [ownerOf own] := by
    intro child hchild hmem
    cases mem_append.mp hmem with
    | inl hin => exact hout (hshown.below _ child hchild hin)
    | inr hin => exact hout (hparent _ child hchild (mem_singleton.mp hin)).2
  obtain ⟨w', below, hemit, hbelow⟩ := h own (options.depth + 1) (w₀.projectCard opts options)
    (owners ++ [ownerOf own]) howned (mem_append_right _ (mem_singleton_self _)) hchildren
    (by rw [length_append, length_singleton]; omega)
  have howners : owners ++ ownersOf (cardBlock opts options indentation hunit hindent :: below) =
      owners ++ [ownerOf own] ++ ownersOf below := by
    rw [ownersOf, map_cons, append_assoc, singleton_append, ← howner]
    rfl
  refine ⟨w', cardBlock opts options indentation hunit hindent, below, hemit, ?_, rfl, hbelow.level, ?_⟩
  · constructor
    case rows =>
      rw [hbelow.rows, projectCard_rows options hunit hindent, hrows, map_cons, rowsOf_cons,
        append_assoc, Block.rows]
    case count =>
      rw [hbelow.count, projectCard, hcount, length_cons]
      dsimp only
      omega
    case starts => rw [hbelow.starts, projectCard, hstarts]
    case level => exact Level.node rfl rfl hbelow.level
    case owned =>
      rw [howners]
      exact hbelow.owned
    case below =>
      intro q comment hreply hmem
      cases mem_cons.mp hmem with
      | inl heq => exact .inl (hparent q comment hreply (heq.trans howner)).1
      | inr hmem =>
        right
        cases hbelow.below q comment hreply hmem with
        | inl hq =>
          rw [hq, ← howner]
          exact mem_cons_self
        | inr hq => exact mem_cons_of_mem _ hq
  · intro q comment hreply hq hnew hne
    rw [howners]
    refine hbelow.fresh hreply (mem_append_left _ hq) (fun heq => hout (heq ▸ hq)) ?_
    intro hmem
    cases mem_append.mp hmem with
    | inl hin => exact hnew hin
    | inr hin => exact hne (mem_singleton.mp hin)

/-- Cards below a parent are put, and no other Reply to it. -/
def Replied (opts : BuildOptions) (indentation : CardIndentation) (depth : Nat) (parent : Parent)
    (owners : List Owner) (item : ReplyItem) (w w' : Weave) : Prop :=
  ∃ cards, Emits opts indentation depth parent owners cards w w' ∧
    ∀ other, (parent, ReplyItem.comment other) ∈ opts.replyPairs → .comment other.id ∉ owners →
      some other.id ≠ replyId item → .comment other.id ∉ owners ++ ownersOf cards

section

variable (h : EmitsBelow opts indentation fuel emitBelow) (hdistinct : Distinct opts)
  (hunit : 0 < indentation.unit) (howned : Owned opts owners w.emitted w.emittedThreads)
  (hparent : ownerOf parent ∈ owners) (hlimit : opts.ancestryLimit < owners.length + (fuel + 1))
include h hdistinct hunit howned hparent hlimit

theorem EmitsBelow.comment {comment : Comment}
    (hreply : (parent, ReplyItem.comment comment) ∈ opts.replyPairs)
    (hnew : .comment comment.id ∉ owners) :
    ∃ w', emitReply opts emitBelow depth indentation w (.comment comment) = some w' ∧
      Replied opts indentation depth parent owners (.comment comment) w w' := by
  have howner : ∀ q other, (q, ReplyItem.comment other) ∈ opts.replyPairs →
      .comment other.id = ownerOf (.comment comment.id) → q = parent ∧ ownerOf q ∈ owners := by
    intro q other hother heq
    obtain rfl := hdistinct.reply hother hreply (Owner.comment.inj heq)
    exact ⟨rfl, hparent⟩
  obtain ⟨w', card, below, hemit, hemits, -, -, hfresh⟩ := h.card hunit parent
    (.comment comment.id) (commentOptions opts comment depth indentation w) w w rfl rfl rfl
    ⟨rfl, rfl, rfl⟩ howned (howned.reply hdistinct hreply hparent hnew) howner hlimit
  refine ⟨w', hemit, card :: below, hemits, fun other hother hout hid => ?_⟩
  exact hfresh parent other hother hparent hout (fun heq => hid (congrArg some (Owner.comment.inj heq)))

theorem EmitsBelow.draft {index : Nat} :
    ∃ w', emitReply opts emitBelow depth indentation w (.draft index) = some w' ∧
      Replied opts indentation depth parent owners (.draft index) w w' := by
  have hnothing : Replied opts indentation depth parent owners (.draft index) w w :=
    ⟨[], .nothing howned, fun other _ hout _ => by rwa [ownersOf, map_nil, append_nil]⟩
  rw [emitReply, emitDraftAt]
  by_cases hflag : w.emitted[index]? = some false
  · rw [if_pos hflag]
    cases hdraft : opts.drafts[index]? with
    | none => exact ⟨w, rfl, hnothing⟩
    | some draft =>
      obtain ⟨w', card, below, hemit, hemits, -, -, hfresh⟩ := h.card hunit parent
        (.draft draft.localId) (draftOptions opts draft depth indentation w) w
        { w with emitted := w.emitted.set index true } rfl rfl rfl ⟨rfl, rfl, rfl⟩ howned
        (howned.draft hdistinct hdraft hflag) (fun q other _ heq => Owner.noConfusion heq) hlimit
      exact ⟨w', hemit, card :: below, hemits, fun other hother hout _ =>
        hfresh parent other hother hparent hout Owner.noConfusion⟩
  · rw [if_neg hflag]
    exact ⟨w, rfl, hnothing⟩

theorem EmitsBelow.items {items : List ReplyItem}
    (hitems : ∀ item ∈ items, (parent, item) ∈ opts.replyPairs)
    (hids : (items.filterMap replyId).Nodup)
    (hnew : ∀ comment, .comment comment ∈ items → .comment comment.id ∉ owners) :
    ∃ w' cards, items.foldlM (emitReply opts emitBelow depth indentation) w = some w' ∧
      Emits opts indentation depth parent owners cards w w' := by
  induction items generalizing w owners with
  | nil => exact ⟨w, [], rfl, .nothing howned⟩
  | cons item items ih =>
    have hstep : ∃ w', emitReply opts emitBelow depth indentation w item = some w' ∧
        Replied opts indentation depth parent owners item w w' := by
      cases item with
      | comment comment =>
        exact h.comment hdistinct hunit howned hparent hlimit (hitems _ mem_cons_self)
          (hnew comment mem_cons_self)
      | draft index => exact h.draft hdistinct hunit howned hparent hlimit
    obtain ⟨w', hemit, cards, hemits, hothers⟩ := hstep
    have hrest : (items.filterMap replyId).Nodup ∧
        ∀ comment, .comment comment ∈ items → some comment.id ≠ replyId item := by
      cases item with
      | draft index =>
        exact ⟨hids, fun comment _ heq => (by cases heq)⟩
      | comment first =>
        have hfirst : replyId (.comment first) = some first.id := rfl
        rw [filterMap_cons_some hfirst, nodup_cons] at hids
        exact ⟨hids.2, fun comment hmem heq =>
          hids.1 (mem_filterMap.mpr ⟨_, hmem, heq⟩)⟩
    obtain ⟨w'', below, hrun, hbelow⟩ := ih hemits.owned (mem_append_left _ hparent)
      (by rw [length_append]; omega)
      (fun other hmem => hitems other (mem_cons_of_mem _ hmem)) hrest.1
      (fun comment hmem => hothers comment (hitems _ (mem_cons_of_mem _ hmem))
        (hnew comment (mem_cons_of_mem _ hmem)) (hrest.2 comment hmem))
    exact ⟨w'', cards ++ below, by rw [foldlM_cons, hemit]; exact hrun, hemits.append hbelow⟩

end

/-- The recursion over Replies ends before it has gone through every Comment and Draft. -/
theorem emitRepliesTo_spec (hdistinct : Distinct opts) (hunit : 0 < indentation.unit) (fuel : Nat) :
    EmitsBelow opts indentation fuel (emitRepliesTo opts fuel) := by
  induction fuel with
  | zero =>
    intro parent depth w owners howned _ _ hlimit
    have := howned.length
    omega
  | succ fuel ih =>
    intro parent depth w owners howned hparent hnew hlimit
    exact ih.items hdistinct hunit howned hparent hlimit (fun item hitem => mem_replies.mp hitem)
      (hdistinct.repliesIds parent) (fun comment hmem => hnew comment (mem_replies.mp hmem))

end Emission

/-! ## Steps -/

/-- The weave has put whole trees. -/
structure Woven (opts : BuildOptions) (w : Weave) (blocks : List Block) : Prop where
  rows : w.rows = rowsOf blocks
  starts : w.treeStarts = treeStarts blocks
  count : w.cardCount = (cardsOf blocks).length
  chain : (.plain .section :: blocks).IsChain Follows
  budget : ∀ card ∈ cardsOf blocks,
    card.indentation.budget = cardContentWidth opts.cardWidth anchorCols - 40
  owned : Owned opts (ownersOf (cardsOf blocks)) w.emitted w.emittedThreads

section Steps

variable {opts : BuildOptions} {w w' : Weave} {blocks : List Block} {card : CardBlock}

theorem follows_root (block : Block) (h : card.first.depth = 0) : Follows block (.card card) := by
  cases block with
  | plain row => exact h
  | card other => exact .inl h

theorem chain_concat {first block : Block} {added : List Block}
    (h : (first :: blocks).IsChain Follows) (hadded : (block :: added).IsChain Follows)
    (hfollows : ∀ before, Follows before block) :
    (first :: (blocks ++ block :: added)).IsChain Follows := by
  refine isChain_append.mpr ⟨h, hadded, fun before _ next hnext => ?_⟩
  rw [head?_cons, mem_some_iff] at hnext
  exact hnext ▸ hfollows before

theorem Woven.arranged (h : Woven opts w blocks) : Arranged blocks := ⟨h.chain, h.owned.nodup⟩

theorem Woven.append (h : Woven opts w blocks) (row : PlainRow) :
    Woven opts (w.append row) (blocks ++ [.plain row]) := by
  have hcards : cardsOf (blocks ++ [.plain row]) = cardsOf blocks := by
    simp [cardsOf, Block.card?]
  constructor
  case rows =>
    rw [Weave.append, h.rows, rowsOf_append]
    rfl
  case starts =>
    rw [treeStarts, treeStartsFrom_append]
    exact h.starts.trans (append_nil _).symm
  case count => rw [hcards]; exact h.count
  case chain => exact chain_concat h.chain (.singleton _) (fun _ => trivial)
  case budget => rw [hcards]; exact h.budget
  case owned => rw [hcards]; exact h.owned

variable {indentation : CardIndentation} {cards : List CardBlock}

theorem Level.follows {depth : Nat} (h : Level indentation depth cards) :
    (cards.map Block.card).IsChain Follows := by
  rw [isChain_map]
  refine h.chain.imp_of_mem_imp (fun a b ha hb hstep => .inr ⟨hstep, ?_⟩)
  rw [h.indentation a ha, h.indentation b hb]

theorem treeStartsFrom_below {i : Nat} (h : ∀ card ∈ cards, 0 < card.first.depth) :
    treeStartsFrom i (cards.map Block.card) = [] := by
  induction cards generalizing i with
  | nil => rfl
  | cons card cards ih =>
    have hcard := h card mem_cons_self
    rw [map_cons, treeStartsFrom, if_neg (by omega), nil_append]
    exact ih (fun other hother => h other (mem_cons_of_mem _ hother))

theorem Woven.tree (h : Woven opts w blocks) {parent : Parent} {below : List CardBlock}
    (hemits : Emits opts indentation 0 parent (ownersOf (cardsOf blocks)) (card :: below) w w')
    (hroot : card.first.depth = 0) (hbelow : Level indentation 1 below)
    (hbudget : indentation.budget = cardContentWidth opts.cardWidth anchorCols - 40) :
    Woven opts { w' with treeStarts := w'.treeStarts ++ [w.rows.length] }
      (blocks ++ (card :: below).map .card) := by
  have hcards : cardsOf (blocks ++ (card :: below).map .card) = cardsOf blocks ++ (card :: below) := by
    rw [cardsOf_append, cardsOf_cards]
  constructor
  case rows => rw [rowsOf_append, ← h.rows, ← hemits.rows]
  case starts =>
    rw [treeStarts, treeStartsFrom_append, map_cons, treeStartsFrom, if_pos hroot,
      treeStartsFrom_below (fun other hother => hbelow.least other hother), hemits.starts, h.starts,
      h.rows, Nat.zero_add, append_nil]
    rfl
  case count => rw [hcards, length_append, hemits.count, h.count]
  case chain =>
    exact chain_concat h.chain hemits.level.follows (fun before => follows_root before hroot)
  case budget =>
    rw [hcards]
    intro other hother
    cases mem_append.mp hother with
    | inl hold => exact h.budget other hold
    | inr hnew => rw [hemits.level.indentation other hnew, hbudget]
  case owned =>
    rw [hcards, ownersOf, map_append]
    exact hemits.owned

theorem shrink_pos {deepest budget unit : Nat} (h : 0 < unit) :
    0 < CardIndentation.shrink deepest budget unit := by
  induction unit with
  | zero => exact h
  | succ unit ih =>
    rw [CardIndentation.shrink]
    split
    · next hlarge => exact ih hlarge.1
    · exact Nat.succ_pos unit

theorem init_unit (width deepest : Nat) : 0 < (CardIndentation.init width deepest).unit := by
  refine shrink_pos ?_
  split
  · decide
  · split
    · decide
    · split <;> decide

section

variable (h : Woven opts w blocks)
include h

theorem Woven.threadContent (hdistinct : Distinct opts) (index : Nat) :
    ∃ w' blocks', w.emitThreadContent opts index = some w' ∧ Woven opts w' blocks' := by
  rw [emitThreadContent]
  cases hthread : opts.threads[index]? with
  | none => exact ⟨w, blocks, rfl, h⟩
  | some thread =>
    dsimp only
    split
    · exact ⟨w, blocks, rfl, h⟩
    rename_i hflag
    rw [not_not] at hflag
    generalize hindentation : CardIndentation.init opts.cardWidth
      (opts.maxReplyDepth opts.ancestryLimit (.comment thread.root.id)) = indentation
    have hunit : 0 < indentation.unit := hindentation ▸ init_unit _ _
    have hplaced := (h.owned.threads index thread hthread hflag).2
    obtain ⟨w', card, below, hemit, hemits, hdepth, hbelow, -⟩ :=
      (emitRepliesTo_spec hdistinct hunit (replyFuel opts)).card hunit
        (.comment thread.root.id) (.comment thread.root.id)
        (commentOptions opts thread.root 0 indentation { w with
          emittedThreads := w.emittedThreads.set index true
          cardScope := thread.scope }) w
        { w with
          emittedThreads := w.emittedThreads.set index true
          cardScope := thread.scope } rfl rfl rfl ⟨rfl, rfl, rfl⟩ h.owned
        (h.owned.root hdistinct hthread hflag)
        (fun q comment hreply heq => absurd (Owner.comment.inj heq)
          (hdistinct.root (mem_of_getElem? hthread) hplaced hreply))
        (by rw [replyFuel]; omega)
    refine ⟨_, _, congrArg (Option.map _) hemit, h.tree hemits hdepth hbelow ?_⟩
    rw [← hindentation]
    rfl

theorem Woven.thread (hdistinct : Distinct opts) (index : Nat) :
    ∃ w' blocks', w.emitThread opts index = some w' ∧ Woven opts w' blocks' := by
  rw [emitThread]
  cases opts.threads[index]? with
  | none => exact ⟨w, blocks, rfl, h⟩
  | some thread =>
    dsimp only
    split
    · exact ⟨w, blocks, rfl, h⟩
    · split
      · exact ⟨_, _, rfl, h.append _⟩
      · exact h.threadContent hdistinct index

theorem Woven.hide {emitted emittedThreads : List Bool}
    (hdrafts : ∀ i : Nat, emitted[i]? = some false → w.emitted[i]? = some false)
    (hthreads : ∀ i : Nat, emittedThreads[i]? = some false → w.emittedThreads[i]? = some false) :
    Woven opts { w with emitted := emitted, emittedThreads := emittedThreads } blocks :=
  ⟨h.rows, h.starts, h.count, h.chain, h.budget, h.owned.hide hdrafts hthreads⟩

theorem Woven.draft (hdistinct : Distinct opts) (index : Nat) :
    ∃ w' blocks', w.emitDraft opts index = some w' ∧ Woven opts w' blocks' := by
  rw [emitDraft]
  cases hdraft : opts.drafts[index]? with
  | none => exact ⟨w, blocks, rfl, h⟩
  | some draft =>
    dsimp only
    split
    · exact ⟨_, blocks, rfl, h.hide (fun i hflag => (set_true hflag).2) (fun _ hflag => hflag)⟩
    rw [emitDraftAt]
    by_cases hflag : w.emitted[index]? = some false
    · rw [if_pos hflag]
      simp only [hdraft]
      generalize hindentation : CardIndentation.init opts.cardWidth
        (opts.maxReplyDepth opts.ancestryLimit (.draft draft.localId)) = indentation
      have hunit : 0 < indentation.unit := hindentation ▸ init_unit _ _
      generalize hscope : (opts.draftScopes[index]?).getD draft.effectiveScope = scope
      obtain ⟨w', card, below, hemit, hemits, hdepth, hbelow, -⟩ :=
        (emitRepliesTo_spec hdistinct hunit (replyFuel opts)).card hunit
          (.draft draft.localId) (.draft draft.localId)
          (draftOptions opts draft 0 indentation { w with cardScope := scope }) w
          { w with cardScope := scope, emitted := w.emitted.set index true }
          rfl rfl rfl ⟨rfl, rfl, rfl⟩ h.owned (h.owned.draft hdistinct hdraft hflag)
          (fun q comment _ heq => Owner.noConfusion heq)
          (by rw [replyFuel]; omega)
      have hgrown : w.rows.length < w'.rows.length := by
        have hpos := card.length_pos
        rw [hemits.rows, length_append, map_cons, rowsOf_cons, length_append, Block.rows]
        omega
      have htree := h.tree hemits hdepth hbelow (by rw [← hindentation]; rfl)
      refine ⟨_, blocks ++ (card :: below).map .card, congrArg (Option.map _) hemit, ?_⟩
      dsimp only
      rw [if_pos hgrown]
      exact htree
    · rw [if_neg hflag]
      refine ⟨_, blocks, rfl, ?_⟩
      dsimp only
      rw [if_neg (Nat.lt_irrefl _)]
      exact ⟨h.rows, h.starts, h.count, h.chain, h.budget, h.owned⟩

theorem Woven.snapshot (lines : List Bytes) : ∃ blocks',
    Woven opts (lines.foldl (fun w _ => w.append .snapshot) w) blocks' := by
  induction lines generalizing w blocks with
  | nil => exact ⟨blocks, h⟩
  | cons line lines ih => exact ih (h.append .snapshot)

theorem Woven.draftSnapshot (hdistinct : Distinct opts) (index : Nat) :
    ∃ w' blocks', w.emitDraftSnapshot opts index = some w' ∧ Woven opts w' blocks' := by
  rw [emitDraftSnapshot]
  cases opts.drafts[index]?.bind Draft.snapshot with
  | none => exact h.draft hdistinct index
  | some snapshot =>
    obtain ⟨blocks', hlines⟩ := h.snapshot (snapshot.text.splitOn 10)
    exact hlines.draft hdistinct index

theorem Woven.step (hdistinct : Distinct opts) (step : WeaveStep) :
    ∃ w' blocks', weaveStep opts w step = some w' ∧ Woven opts w' blocks' := by
  cases step with
  | row row => exact ⟨_, _, rfl, h.append row⟩
  | thread index => exact h.thread hdistinct index
  | threadContent index => exact h.threadContent hdistinct index
  | draft index => exact h.draft hdistinct index
  | draftSnapshot index => exact h.draftSnapshot hdistinct index
  | hideThread index =>
    exact ⟨_, blocks, rfl, h.hide (fun _ hflag => hflag) (fun i hflag => (set_true hflag).2)⟩
  | hideDraft index =>
    exact ⟨_, blocks, rfl, h.hide (fun i hflag => (set_true hflag).2) (fun _ hflag => hflag)⟩

theorem Woven.run (hdistinct : Distinct opts) (steps : List WeaveStep) :
    ∃ w' blocks', steps.foldlM (weaveStep opts) w = some w' ∧ Woven opts w' blocks' := by
  induction steps generalizing w blocks with
  | nil => exact ⟨w, blocks, rfl, h⟩
  | cons step steps ih =>
    obtain ⟨w', blocks', hstep, hwoven⟩ := h.step hdistinct step
    obtain ⟨w'', blocks'', hrun, hwoven'⟩ := ih hwoven
    exact ⟨w'', blocks'', by rw [foldlM_cons, hstep]; exact hrun, hwoven'⟩

end

theorem woven_start (opts : BuildOptions) : Woven opts (start opts) [] := by
  refine ⟨rfl, rfl, rfl, .singleton _, fun _ h => (by cases h), nodup_nil, nil_subset _,
    fun _ _ _ _ h => (by cases h), fun i thread hthread hflag => ⟨not_mem_nil, ?_⟩,
    fun _ _ _ h => (by cases h)⟩
  rw [start, getElem?_map, hthread, map_some] at hflag
  exact some.inj hflag

end Steps

variable {blocks : List Block}

theorem no_cards {i : Nat} {row : PlainRow} (h : treeStartsFrom i blocks = [])
    (hchain : (.plain row :: blocks).IsChain Follows) : cardsOf blocks = [] := by
  induction blocks generalizing i row with
  | nil => rfl
  | cons block blocks ih =>
    obtain ⟨hfollows, hrest⟩ := isChain_cons_cons.mp hchain
    cases block with
    | plain next => exact ih h hrest
    | card card =>
      have hroot : card.first.depth = 0 := hfollows
      rw [treeStartsFrom, if_pos hroot] at h
      cases h

theorem geometry_without (h : cardsOf blocks = []) (limit : Nat) :
    Geometry (rowsOf blocks) [] limit (rowsOf blocks) [] := by
  have hrows : ∀ r : Nat, (rowsOf blocks)[r]?.bind cardAt = none := by
    intro r
    by_contra hsome
    obtain ⟨value, hvalue⟩ := ne_none_iff_exists'.mp hsome
    obtain ⟨k, range, hrange, -⟩ := @range_of_row blocks 0 r value hvalue
    have := (List.getElem?_eq_some_iff.mp hrange).1
    rw [length_rangesFrom, h] at this
    exact Nat.not_lt_zero _ this
  have hnone : ∀ {r : Nat} {value : ReviewCardRow}, (rowsOf blocks)[r]?.bind cardAt ≠ some value := by
    intro r value hvalue
    rw [hrows r] at hvalue
    cases hvalue
  constructor
  case bare => rfl
  case row => exact fun r value hvalue => absurd hvalue hnone
  case columns => exact fun r value hvalue => absurd hvalue hnone
  case rails => exact fun r value k rail hvalue => absurd hvalue hnone
  case spans => exact fun r value k j s a b hvalue => absurd hvalue hnone
  case active =>
    intro cursor a
    rw [activePath, hrows]
    simp [ActivePath.holds]
  all_goals simp

/-- For every row list of `buildWithComments`, the geometry of the cards is that of the Replies. -/
theorem buildWithComments_geometry (opts : BuildOptions) (steps : List WeaveStep)
    (hdistinct : Distinct opts) : ∃ (w : Weave) (buffer : Buffer),
      steps.foldlM (weaveStep opts) (Weave.start opts) = some w ∧
        buildWithComments opts steps = some buffer ∧ buffer.cards.length = w.cardCount ∧
          Geometry w.rows w.treeStarts
            (anchorCols + (cardContentWidth opts.cardWidth anchorCols - 40))
            buffer.rows buffer.cards := by
  obtain ⟨w, blocks, hrun, hwoven⟩ := (woven_start opts).run hdistinct steps
  rw [buildWithComments, hrun]
  refine ⟨w, _, rfl, rfl, ?_⟩
  dsimp only
  rw [hwoven.count]
  by_cases hnone : w.treeStarts = []
  · have hcards : cardsOf blocks = [] :=
      no_cards (i := 0) (hwoven.starts.symm.trans hnone) hwoven.chain
    rw [if_pos hnone, hnone, hwoven.rows]
    exact ⟨by rw [hcards]; rfl, geometry_without hcards _⟩
  · rw [if_neg hnone, hwoven.rows, hwoven.starts]
    exact ⟨(firstPass hwoven.arranged).length, indexCards_geometry hwoven.arranged hwoven.budget⟩

/-- A Thread with two Replies, the second one below the first, and a Draft that replies to the root. -/
def repliedThread : BuildOptions where
  threads := [{
    root := { id := 1, body := [] }
    replies := [{ id := 2, parentId := some 1, body := [] }, { id := 3, parentId := some 2, body := [] }] }]
  drafts := [{ localId := 1, parent := some (.comment 1) }]

theorem repliedThread_geometry : ∃ (w : Weave) (buffer : Buffer),
    [WeaveStep.row .fileHeader, .thread 0, .draft 0].foldlM (weaveStep repliedThread)
      (Weave.start repliedThread) = some w ∧
      buildWithComments repliedThread [.row .fileHeader, .thread 0, .draft 0] = some buffer ∧
        buffer.cards.length = w.cardCount ∧ Geometry w.rows w.treeStarts
          (anchorCols + (cardContentWidth repliedThread.cardWidth anchorCols - 40))
          buffer.rows buffer.cards :=
  buildWithComments_geometry repliedThread [.row .fileHeader, .thread 0, .draft 0]
    ⟨by decide, by decide⟩

end Bbr.Tui.Cards
