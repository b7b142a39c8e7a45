import Bbr.Lib.Chains
import Bbr.Review.Comment
import Mathlib.Algebra.Order.BigOperators.Group.List
import Mathlib.Algebra.Order.Group.Nat

/-!
# Threads of a flat Comment list

Every Comment is filed under the root at the top of its parent chain. A Comment stands for its place
in the list, since the source tells Comments apart by their address and two may share an id. `none`
stands for a walk that has not ended.
-/
namespace Bbr.Review.Threads

open Bbr.Bitbucket Bbr.Lib List

structure Thread where
  root : Nat
  replies : List Nat := []
  resolved : Bool
  /-- Original input position, independent of an earlier encountered Reply. -/
  rootInputOrder : Nat
  deriving DecidableEq, Repr

def idAt (comments : List Comment) (i : Nat) : Option CommentId := comments[i]?.map Comment.id

/-- The map of ids, where the last Comment with an id replaces the others. -/
def byId (comments : List Comment) (id : CommentId) : Option Nat :=
  (range comments.length).reverse.find? (fun i => decide (idAt comments i = some id))

/-- Walks up to the ultimate root, with at most `fuel` looks at a Comment. -/
def rootOf (comments : List Comment) : Nat → Nat → Option Nat
  | 0, _ => none
  | fuel + 1, cur =>
    match comments[cur]?.bind Comment.parentId with
    | none => some cur
    | some pid => match byId comments pid with
      | none => some cur
      | some parent => rootOf comments fuel parent

/-- The slots so far: their map by the id of the root, the Threads and their Reply lists. -/
structure Slots where
  threadOf : CommentId → Option Nat := fun _ => none
  threads : List Thread := []
  replyLists : List (List Nat) := []

def Slots.openSlot (self : Slots) (root : Nat) (c : Comment) : Slots where
  threadOf id := if id = c.id then some self.threads.length else self.threadOf id
  threads := self.threads ++ [{ root := root, resolved := c.resolved, rootInputOrder := root }]
  replyLists := self.replyLists ++ [[]]

def Slots.file (self : Slots) (slot i : Nat) : Slots :=
  { self with replyLists := self.replyLists.modify slot (fun replies => replies ++ [i]) }

/-- One round of the loop, for the Comment at `i` with its root. -/
def Slots.place (comments : List Comment) (self : Slots) (i root : Nat) : Slots :=
  match comments[root]? with
  | none => self
  | some c =>
    if root = i then
      if (self.threadOf c.id).isSome then self else self.openSlot root c
    else match self.threadOf c.id with
      | some slot => self.file slot i
      | none => (self.openSlot root c).file self.threads.length i

def placeAll (comments : List Comment) (fuel : Nat) : List Nat → Slots → Option Slots
  | [], slots => some slots
  | i :: rest, slots => (rootOf comments fuel i).bind (fun root =>
      placeAll comments fuel rest (slots.place comments i root))

def build (comments : List Comment) (fuel : Nat) : Option (List Thread) :=
  (placeAll comments fuel (range comments.length) {}).map (fun slots =>
    slots.threads.zipWith (fun thread replies => { thread with replies := replies })
      slots.replyLists)

variable {comments : List Comment} {fuel i j r : Nat} {c : Comment}

/-- The place of the parent, if it is in the list. -/
def parentPlace (comments : List Comment) (i : Nat) : Option Nat :=
  (comments[i]?.bind Comment.parentId).bind (byId comments)

variable {id : CommentId}

theorem lt_of_idAt (h : idAt comments i = some id) : i < comments.length := by
  obtain ⟨c, hc, -⟩ := Option.map_eq_some_iff.mp h
  exact (List.getElem?_eq_some_iff.mp hc).1

theorem idAt_byId (h : byId comments id = some j) : idAt comments j = some id := by
  have hid := find?_some h
  exact of_decide_eq_true hid

theorem parentPlace_lt (h : parentPlace comments i = some j) :
    i < comments.length ∧ j < comments.length := by
  obtain ⟨pid, hpid, hj⟩ := Option.bind_eq_some_iff.mp h
  obtain ⟨c, hc, -⟩ := Option.bind_eq_some_iff.mp hpid
  exact ⟨(List.getElem?_eq_some_iff.mp hc).1, lt_of_idAt (idAt_byId hj)⟩

theorem rootOf_succ (fuel i : Nat) : rootOf comments (fuel + 1) i =
    match parentPlace comments i with
    | none => some i
    | some parent => rootOf comments fuel parent := by
  rw [rootOf, parentPlace]
  cases comments[i]?.bind Comment.parentId with
  | none => rfl
  | some pid => cases byId comments pid <;> rfl

theorem ends_of_rootOf (h : rootOf comments fuel i = some r) :
    EndsAt (parentPlace comments) i r ∧ (i < comments.length → r < comments.length) := by
  induction fuel generalizing i with
  | zero => cases h
  | succ fuel ih =>
    rw [rootOf_succ] at h
    cases hup : parentPlace comments i with
    | none =>
      rw [hup] at h
      cases h
      exact ⟨.self hup, id⟩
    | some parent =>
      rw [hup] at h
      obtain ⟨hends, hlt⟩ := ih h
      exact ⟨hends.head hup, fun _ => hlt (parentPlace_lt hup).2⟩

/-- Enough looks find the root. -/
theorem rootOf_of_ends (h : EndsAt (parentPlace comments) i r) :
    ∃ enough, ∀ fuel ≥ enough, rootOf comments fuel i = some r := by
  obtain ⟨⟨n, hn⟩, hr⟩ := h
  refine ⟨n + 1, ?_⟩
  induction n generalizing i with
  | zero =>
    cases hn
    intro fuel hfuel
    obtain ⟨fuel, rfl⟩ := Nat.exists_eq_add_of_le' hfuel
    rw [Nat.zero_add, rootOf_succ, hr]
  | succ n ih =>
    obtain ⟨parent, hup, hn⟩ := Option.bind_eq_some_iff.mp hn
    intro fuel hfuel
    obtain ⟨fuel, rfl⟩ := Nat.exists_eq_add_of_le' hfuel
    rw [← Nat.add_assoc, rootOf_succ, hup]
    exact ih hn _ (by omega)

/-- The Replies in `done` to a root with the id of this one. -/
def repliesIn (comments : List Comment) (rt : Nat → Nat) (done : List Nat) (root : Nat) : List Nat :=
  done.filter (fun i => decide (rt i ≠ i ∧ idAt comments (rt i) = idAt comments root))

/-- What the slots hold once the Comments of `done` are filed under their roots; the roots of `seen`
may be open. -/
structure Filed (comments : List Comment) (rt : Nat → Nat) (seen done : List Nat) (s : Slots) :
    Prop where
  slot : ∀ id k, s.threadOf id = some k ↔
    ∃ t, s.threads[k]? = some t ∧ idAt comments t.root = some id
  opened : ∀ t ∈ s.threads, t.rootInputOrder = t.root ∧
    comments[t.root]?.map Comment.resolved = some t.resolved ∧ ∃ i ∈ seen, rt i = t.root
  known : ∀ i ∈ done, ∃ t ∈ s.threads, idAt comments t.root = idAt comments (rt i)
  lists : s.replyLists.length = s.threads.length
  replies : ∀ (k : Nat) (t : Thread), s.threads[k]? = some t →
    s.replyLists[k]? = some (repliesIn comments rt done t.root)

variable {rt : Nat → Nat} {seen done : List Nat} {s : Slots}

theorem Filed.openSlot (h : Filed comments rt seen done s) (hr : comments[rt i]? = some c)
    (hnone : s.threadOf c.id = none) :
    Filed comments rt (seen ++ [i]) done (s.openSlot (rt i) c) := by
  have hid : idAt comments (rt i) = some c.id := by
    rw [idAt, hr]
    rfl
  have hfresh : ∀ t ∈ s.threads, idAt comments t.root ≠ some c.id := by
    intro t ht hsame
    obtain ⟨k, hk⟩ := mem_iff_getElem?.mp ht
    rw [(h.slot c.id k).mpr ⟨t, hk, hsame⟩] at hnone
    cases hnone
  have hat : ∀ (k : Nat) (t : Thread), (s.openSlot (rt i) c).threads[k]? = some t ↔
      s.threads[k]? = some t ∨ k = s.threads.length ∧ t = ⟨rt i, [], c.resolved, rt i⟩ := by
    intro k t
    rw [Slots.openSlot, getElem?_append, getElem?_singleton]
    split
    · next hlt => simp [Nat.ne_of_lt hlt]
    rename_i hge
    rw [getElem?_eq_none (Nat.not_lt.mp hge)]
    have hsub : k - s.threads.length = 0 ↔ k = s.threads.length := by omega
    by_cases hk : k = s.threads.length <;> simp [hsub, hk, eq_comm]
  refine ⟨?_, ?_, ?_, ?_, ?_⟩
  · intro id k
    simp only [hat, or_and_right, exists_or, ← h.slot id k]
    by_cases hsame : id = c.id
    · subst hsame
      simp [Slots.openSlot, hnone, hid, eq_comm]
    · simp [Slots.openSlot, hsame, hid, Ne.symm hsame]
  · intro t ht
    rcases mem_append.mp ht with ht | ht
    · obtain ⟨horder, hresolved, j, hj, hroot⟩ := h.opened t ht
      exact ⟨horder, hresolved, j, mem_append_left _ hj, hroot⟩
    · rw [mem_singleton.mp ht]
      exact ⟨rfl, by simp [hr], i, by simp, rfl⟩
  · intro j hj
    obtain ⟨t, ht, hsame⟩ := h.known j hj
    exact ⟨t, mem_append_left _ ht, hsame⟩
  · simp [Slots.openSlot, h.lists]
  · intro k t hk
    obtain hk | ⟨rfl, rfl⟩ := (hat k t).mp hk
    · have hlt : k < s.replyLists.length := h.lists ▸ (List.getElem?_eq_some_iff.mp hk).1
      rw [Slots.openSlot, getElem?_append_left hlt, h.replies k t hk]
    rw [Slots.openSlot, ← h.lists, getElem?_concat_length, eq_comm, Option.some_inj,
      repliesIn, filter_eq_nil_iff]
    intro j hj hsame
    obtain ⟨t, ht, htj⟩ := h.known j hj
    exact hfresh t ht (htj.trans ((of_decide_eq_true hsame).2.trans hid))

theorem Filed.file {k : Nat} (h : Filed comments rt seen done s) (hr : comments[rt i]? = some c)
    (hslot : s.threadOf c.id = some k) :
    Filed comments rt seen (done ++ [i]) (if rt i = i then s else s.file k i) := by
  have hid : idAt comments (rt i) = some c.id := by
    rw [idAt, hr]
    rfl
  obtain ⟨root, hroot, hrootId⟩ := (h.slot c.id k).mp hslot
  have hknown : ∀ j ∈ done ++ [i], ∃ t ∈ s.threads, idAt comments t.root = idAt comments (rt j) := by
    intro j hj
    rcases mem_append.mp hj with hj | hj
    · exact h.known j hj
    · rw [mem_singleton.mp hj]
      exact ⟨root, mem_of_getElem? hroot, hrootId.trans hid.symm⟩
  by_cases hown : rt i = i
  · rw [if_pos hown]
    refine ⟨h.slot, h.opened, hknown, h.lists, ?_⟩
    intro l t hl
    rw [h.replies l t hl, repliesIn, repliesIn, filter_append, filter_singleton]
    simp [hown]
  · rw [if_neg hown]
    refine ⟨h.slot, h.opened, hknown, ?_, ?_⟩
    · simp [Slots.file, h.lists]
    intro l t hl
    rw [Slots.file, getElem?_modify, h.replies l t hl, repliesIn, repliesIn, filter_append,
      filter_singleton]
    by_cases hk : k = l
    · subst hk
      cases hroot.symm.trans hl
      simp [hown, hid, hrootId]
    · have hne : idAt comments (rt i) ≠ idAt comments t.root := by
        intro hsame
        have hsame' := (h.slot c.id l).mpr ⟨t, hl, hsame.symm.trans hid⟩
        exact hk (Option.some.inj (hslot.symm.trans hsame'))
      simp [hown, hk, hne]

theorem Filed.place (h : Filed comments rt done done s) (hr : comments[rt i]? = some c) :
    Filed comments rt (done ++ [i]) (done ++ [i]) (s.place comments i (rt i)) := by
  have hseen : Filed comments rt (done ++ [i]) done s := by
    refine { h with opened := fun t ht => ?_ }
    obtain ⟨horder, hresolved, j, hj, hroot⟩ := h.opened t ht
    exact ⟨horder, hresolved, j, mem_append_left _ hj, hroot⟩
  rw [Slots.place, hr]
  dsimp only
  cases hslot : s.threadOf c.id with
  | some k => simpa using hseen.file hr hslot
  | none =>
    have hopen : (s.openSlot (rt i) c).threadOf c.id = some s.threads.length := by
      simp [Slots.openSlot]
    simpa using (h.openSlot hr hslot).file hr hopen

variable {rest : List Nat}

theorem Filed.placeAll (h : Filed comments rt done done s)
    (hrest : ∀ i ∈ rest, rootOf comments fuel i = some (rt i) ∧ rt i < comments.length) :
    ∃ s', placeAll comments fuel rest s = some s' ∧
      Filed comments rt (done ++ rest) (done ++ rest) s' := by
  induction rest generalizing done s with
  | nil => exact ⟨s, rfl, by rwa [append_nil]⟩
  | cons i rest ih =>
    obtain ⟨⟨hroot, hlt⟩, hrest⟩ := forall_mem_cons.mp hrest
    obtain ⟨s', hs', hfiled⟩ := ih (h.place (getElem?_eq_getElem hlt)) hrest
    rw [append_assoc] at hfiled
    exact ⟨s', by rw [Threads.placeAll, hroot]; exact hs', hfiled⟩

theorem rootOf_of_placeAll {s' : Slots} (h : placeAll comments fuel rest s = some s') :
    ∀ i ∈ rest, ∃ r, rootOf comments fuel i = some r := by
  induction rest generalizing s with
  | nil => simp
  | cons i rest ih =>
    obtain ⟨r, hr, hrest⟩ := Option.bind_eq_some_iff.mp h
    exact forall_mem_cons.mpr ⟨⟨r, hr⟩, ih hrest⟩

/-- The Threads, when `rt` tells the root of every Comment. -/
structure Built (comments : List Comment) (rt : Nat → Nat) (threads : List Thread) : Prop where
  distinct : (threads.map (fun t => idAt comments t.root)).Nodup
  thread : ∀ t ∈ threads, t.rootInputOrder = t.root ∧
    comments[t.root]?.map Comment.resolved = some t.resolved ∧
    (∃ i ∈ range comments.length, rt i = t.root) ∧
    t.replies = repliesIn comments rt (range comments.length) t.root
  known : ∀ i ∈ range comments.length, ∃ t ∈ threads, idAt comments t.root = idAt comments (rt i)

theorem build_built (hrt : ∀ i < comments.length, rootOf comments fuel i = some (rt i)) :
    ∃ threads, build comments fuel = some threads ∧ Built comments rt threads := by
  have hempty : Filed comments rt [] [] {} := ⟨by simp, by simp, by simp, rfl, by simp⟩
  have hroots : ∀ i ∈ range comments.length,
      rootOf comments fuel i = some (rt i) ∧ rt i < comments.length := by
    intro i hi
    have hi := mem_range.mp hi
    exact ⟨hrt i hi, (ends_of_rootOf (hrt i hi)).2 hi⟩
  obtain ⟨s, hs, hfiled⟩ := hempty.placeAll hroots
  refine ⟨_, by rw [build, hs]; rfl, ?_⟩
  have hat : ∀ (k : Nat) (t : Thread), (s.threads.zipWith
      (fun thread replies => { thread with replies := replies }) s.replyLists)[k]? = some t →
      ∃ u, s.threads[k]? = some u ∧
        t = { u with replies := repliesIn comments rt (range comments.length) u.root } := by
    intro k t hk
    obtain ⟨u, replies, hu, hreplies, rfl⟩ := getElem?_zipWith_eq_some.mp hk
    rw [hfiled.replies k u hu] at hreplies
    cases hreplies
    exact ⟨u, hu, rfl⟩
  refine ⟨?_, ?_, ?_⟩
  · rw [Nodup, pairwise_map, pairwise_iff_getElem]
    intro k l hk hl hkl hsame
    obtain ⟨u, hu, htu⟩ := hat k _ (getElem?_eq_getElem hk)
    obtain ⟨v, hv, htv⟩ := hat l _ (getElem?_eq_getElem hl)
    rw [htu, htv] at hsame
    obtain ⟨-, hresolved, -⟩ := hfiled.opened u (mem_of_getElem? hu)
    obtain ⟨c, hc, -⟩ := Option.map_eq_some_iff.mp hresolved
    have hid : idAt comments u.root = some c.id := by
      rw [idAt, hc]
      rfl
    have hslot := (hfiled.slot c.id k).mpr ⟨u, hu, hid⟩
    rw [(hfiled.slot c.id l).mpr ⟨v, hv, hsame.symm.trans hid⟩] at hslot
    exact Nat.ne_of_gt hkl (Option.some.inj hslot)
  · intro t ht
    obtain ⟨k, hk⟩ := mem_iff_getElem?.mp ht
    obtain ⟨u, hu, rfl⟩ := hat k t hk
    obtain ⟨horder, hresolved, hroot⟩ := hfiled.opened u (mem_of_getElem? hu)
    exact ⟨horder, hresolved, hroot, rfl⟩
  · intro i hi
    obtain ⟨u, hu, hsame⟩ := hfiled.known i hi
    obtain ⟨k, hk⟩ := mem_iff_getElem?.mp hu
    refine ⟨_, mem_of_getElem? (getElem?_zipWith_eq_some.mpr
      ⟨u, _, hk, hfiled.replies k u hk, rfl⟩), hsame⟩

/-- The Comments that share an id are never two roots. -/
def RootsDistinct (comments : List Comment) : Prop :=
  ∀ i j c d, comments[i]? = some c → comments[j]? = some d → parentPlace comments i = none →
    parentPlace comments j = none → c.id = d.id → i = j

section Built

variable {threads : List Thread} (h : Built comments rt threads)
  (hends : ∀ i < comments.length, EndsAt (parentPlace comments) i (rt i)) {t : Thread}

include h hends

theorem Built.root (ht : t ∈ threads) :
    parentPlace comments t.root = none ∧ t.root < comments.length ∧ rt t.root = t.root := by
  obtain ⟨-, hresolved, ⟨i, hi, hroot⟩, -⟩ := h.thread t ht
  have hnone : parentPlace comments t.root = none := hroot ▸ (hends i (mem_range.mp hi)).2
  obtain ⟨c, hc, -⟩ := Option.map_eq_some_iff.mp hresolved
  have hlt := (List.getElem?_eq_some_iff.mp hc).1
  exact ⟨hnone, hlt, (hends t.root hlt).unique (.self hnone)⟩

omit hends in
theorem Built.mem (ht : t ∈ threads) :
    i ∈ t.root :: t.replies ↔ i = t.root ∨ i < comments.length ∧ rt i ≠ i ∧
      idAt comments (rt i) = idAt comments t.root := by
  obtain ⟨-, -, -, hreplies⟩ := h.thread t ht
  rw [mem_cons, hreplies, repliesIn, mem_filter, mem_range, decide_eq_true_eq]

theorem Built.nodup : (threads.flatMap (fun t => t.root :: t.replies)).Nodup := by
  have hkey : ∀ t ∈ threads, ∀ i ∈ t.root :: t.replies,
      idAt comments (rt i) = idAt comments t.root := by
    intro t ht i hi
    obtain rfl | ⟨-, -, hsame⟩ := (h.mem ht).mp hi
    · rw [(h.root hends ht).2.2]
    · exact hsame
  rw [nodup_flatMap]
  constructor
  · intro t ht
    obtain ⟨-, -, -, hreplies⟩ := h.thread t ht
    rw [nodup_cons, hreplies, repliesIn]
    refine ⟨?_, nodup_range.filter _⟩
    intro hmem
    exact (of_decide_eq_true (mem_filter.mp hmem).2).1 (h.root hends ht).2.2
  · refine (pairwise_map.mp h.distinct).imp_of_mem ?_
    intro t u ht hu hne i hit hiu
    exact hne ((hkey t ht i hit).symm.trans (hkey u hu i hiu))

theorem Built.covers_iff : (∀ i < comments.length, ∃ t ∈ threads, i = t.root ∨ i ∈ t.replies) ↔
    RootsDistinct comments := by
  simp only [← mem_cons]
  constructor
  · intro hall i j c d hc hd hi hj hsame
    have hopen : ∀ {i : Nat}, i < comments.length → parentPlace comments i = none →
        ∃ t ∈ threads, i = t.root := by
      intro i hlt hnone
      obtain ⟨t, ht, hmem⟩ := hall i hlt
      obtain heq | ⟨-, hne, -⟩ := (h.mem ht).mp hmem
      · exact ⟨t, ht, heq⟩
      · exact absurd ((hends i hlt).unique (.self hnone)) hne
    obtain ⟨t, ht, rfl⟩ := hopen (List.getElem?_eq_some_iff.mp hc).1 hi
    obtain ⟨u, hu, rfl⟩ := hopen (List.getElem?_eq_some_iff.mp hd).1 hj
    have hid : idAt comments t.root = idAt comments u.root := by
      rw [idAt, idAt, hc, hd]
      exact congrArg some hsame
    rw [inj_on_of_nodup_map h.distinct ht hu hid]
  · intro hroots i hlt
    obtain ⟨t, ht, hsame⟩ := h.known i (mem_range.mpr hlt)
    refine ⟨t, ht, (h.mem ht).mpr ?_⟩
    by_cases hown : rt i = i
    · left
      obtain ⟨hnone, htlt, -⟩ := h.root hends ht
      have hi := (hends i hlt).2
      rw [hown] at hi hsame
      simp only [idAt, getElem?_eq_getElem htlt, getElem?_eq_getElem hlt] at hsame
      exact hroots i t.root _ _ (getElem?_eq_getElem hlt) (getElem?_eq_getElem htlt) hi
        hnone (Option.some.inj hsame).symm
    · exact .inr ⟨hlt, hown, hsame.symm⟩

end Built

/-- Without a cycle of parents there are looks enough for the whole list. -/
theorem build_ends (h : ∀ i, ¬OnCycle (parentPlace comments) i) :
    ∃ rt, (∀ i, EndsAt (parentPlace comments) i (rt i)) ∧ ∃ enough, ∀ fuel ≥ enough,
      (∀ i < comments.length, rootOf comments fuel i = some (rt i)) ∧
        ∃ threads, build comments fuel = some threads ∧ Built comments rt threads := by
  choose rt hrt using exists_ends (range comments.length)
    (fun _ _ hup => mem_range.mpr (parentPlace_lt hup).2) h
  choose looks hlooks using fun i => rootOf_of_ends (hrt i)
  refine ⟨rt, hrt, ((range comments.length).map looks).sum, fun fuel hfuel => ?_⟩
  have hroots : ∀ i < comments.length, rootOf comments fuel i = some (rt i) := by
    intro i hi
    have hle := single_le_sum (by simp) _ (mem_map_of_mem (f := looks) (mem_range.mpr hi))
    exact hlooks i fuel (Nat.le_trans hle hfuel)
  exact ⟨hroots, build_built hroots⟩

theorem built_of_build {threads : List Thread} (h : build comments fuel = some threads) :
    ∃ rt, (∀ i < comments.length, EndsAt (parentPlace comments) i (rt i)) ∧
      Built comments rt threads := by
  obtain ⟨s, hs, -⟩ := Option.map_eq_some_iff.mp h
  have hroots := rootOf_of_placeAll hs
  choose! rt hrt using hroots
  have hrt' : ∀ i < comments.length, rootOf comments fuel i = some (rt i) :=
    fun i hi => hrt i (mem_range.mpr hi)
  obtain ⟨threads', hthreads, hbuilt⟩ := build_built hrt'
  cases h.symm.trans hthreads
  exact ⟨rt, fun i hi => (ends_of_rootOf (hrt' i hi)).1, hbuilt⟩

/-- The Comment at `j` is the parent of the one at `i`. -/
def RepliesTo (comments : List Comment) (i j : Nat) : Prop :=
  ∃ c d, comments[i]? = some c ∧ comments[j]? = some d ∧ c.parentId = some d.id

theorem idAt_unique (hids : (comments.map Comment.id).Nodup) (hi : i < comments.length)
    (h : idAt comments i = idAt comments j) : i = j := by
  simp only [idAt, ← getElem?_map] at h
  exact (getElem?_inj (by simpa using hi) hids).mp h

theorem repliesTo_eq (hids : (comments.map Comment.id).Nodup) :
    RepliesTo comments = StepsTo (parentPlace comments) := by
  funext i j
  apply propext
  constructor
  · rintro ⟨c, d, hc, hd, hparent⟩
    have hid : idAt comments j = some d.id := by
      rw [idAt, hd]
      rfl
    have hfound : (byId comments d.id).isSome := by
      rw [byId, find?_isSome]
      exact ⟨j, by simpa using lt_of_idAt hid, by simp [hid]⟩
    obtain ⟨k, hk⟩ := Option.isSome_iff_exists.mp hfound
    obtain rfl := idAt_unique hids (lt_of_idAt hid) (hid.trans (idAt_byId hk).symm)
    rw [StepsTo, parentPlace, hc, Option.bind_some, hparent, Option.bind_some, hk]
  · intro h
    obtain ⟨pid, hpid, hj⟩ := Option.bind_eq_some_iff.mp h
    obtain ⟨c, hc, hparent⟩ := Option.bind_eq_some_iff.mp hpid
    obtain ⟨d, hd, rfl⟩ := Option.map_eq_some_iff.mp (idAt_byId hj)
    exact ⟨c, d, hc, hd, hparent⟩

/-- Every Comment is in one Thread, as its root when no parent is in the list, else as a Reply to its
last ancestor. -/
theorem build_partitions (hids : (comments.map Comment.id).Nodup)
    (hacyclic : ∀ i, ¬Relation.TransGen (RepliesTo comments) i i) :
    ∃ enough, ∀ fuel ≥ enough, ∃ threads, build comments fuel = some threads ∧
      (threads.flatMap (fun t => t.root :: t.replies)).Perm (range comments.length) ∧
      (∀ i < comments.length, i ∈ threads.map Thread.root ↔ ∀ j, ¬RepliesTo comments i j) ∧
      ∀ t ∈ threads, (∀ i ∈ t.replies, Relation.ReflTransGen (RepliesTo comments) i t.root) ∧
        t.replies.Pairwise (· < ·) ∧ t.rootInputOrder = t.root ∧
        comments[t.root]?.map Comment.resolved = some t.resolved := by
  rw [repliesTo_eq hids] at hacyclic ⊢
  obtain ⟨rt, hends, enough, hbuild⟩ :=
    build_ends (fun i hcycle => hacyclic i (onCycle_iff.mp hcycle))
  refine ⟨enough, fun fuel hfuel => ?_⟩
  obtain ⟨-, threads, hthreads, hbuilt⟩ := hbuild fuel hfuel
  have hends' := fun i (_ : i < comments.length) => hends i
  have hroots : RootsDistinct comments := by
    intro i j c d hc hd _ _ hsame
    exact idAt_unique hids (List.getElem?_eq_some_iff.mp hc).1 (by simp [idAt, hc, hd, hsame])
  have hcovers := (hbuilt.covers_iff hends').mpr hroots
  refine ⟨threads, hthreads, ?_, ?_, ?_⟩
  · refine (perm_ext_iff_of_nodup (hbuilt.nodup hends') nodup_range).mpr (fun i => ?_)
    simp only [mem_flatMap, mem_range]
    constructor
    · rintro ⟨t, ht, hi⟩
      obtain rfl | ⟨hlt, -⟩ := (hbuilt.mem ht).mp hi
      · exact (hbuilt.root hends' ht).2.1
      · exact hlt
    · intro hlt
      obtain ⟨t, ht, hi⟩ := hcovers i hlt
      exact ⟨t, ht, mem_cons.mpr hi⟩
  · intro i hi
    have hnone : (∀ j, ¬StepsTo (parentPlace comments) i j) ↔ parentPlace comments i = none := by
      rw [Option.eq_none_iff_forall_ne_some]
      rfl
    rw [hnone, mem_map]
    constructor
    · rintro ⟨t, ht, rfl⟩
      exact (hbuilt.root hends' ht).1
    · intro hup
      obtain ⟨t, ht, hmem⟩ := hcovers i hi
      obtain heq | ⟨-, hne, -⟩ := (hbuilt.mem ht).mp (mem_cons.mpr hmem)
      · exact ⟨t, ht, heq.symm⟩
      · exact absurd ((hends i).unique (.self hup)) hne
  · intro t ht
    obtain ⟨horder, hresolved, -, hreplies⟩ := hbuilt.thread t ht
    refine ⟨?_, ?_, horder, hresolved⟩
    · intro i hi
      rw [hreplies] at hi
      have hsame := (of_decide_eq_true (mem_filter.mp hi).2).2
      rw [idAt_unique hids (hbuilt.root hends' ht).2.1 hsame.symm]
      exact reaches_iff.mp (hends i).1
    · rw [hreplies]
      exact pairwise_lt_range.filter _

/-- A Reply to a Reply, then the Reply, then the root. -/
def repliesFirst : List Comment :=
  [{ id := 3, parentId := some 2, body := [] }, { id := 2, parentId := some 1, body := [] },
    { id := 1, body := [] }]

theorem build_partitions_repliesFirst : ∃ enough, ∀ fuel ≥ enough, ∃ threads,
    build repliesFirst fuel = some threads ∧
      (threads.flatMap (fun t => t.root :: t.replies)).Perm [0, 1, 2] := by
  have hlater : ∀ i < 3, ∀ j < 3, repliesFirst[i]?.bind Comment.parentId =
      repliesFirst[j]?.map Comment.id → i < j := by decide
  have hstep : ∀ i j, RepliesTo repliesFirst i j → i < j := by
    rintro i j ⟨c, d, hc, hd, hparent⟩
    have hi := (List.getElem?_eq_some_iff.mp hc).1
    have hj := (List.getElem?_eq_some_iff.mp hd).1
    exact hlater i hi j hj (by rw [hc, hd]; exact hparent)
  have hlt : ∀ i j, Relation.TransGen (RepliesTo repliesFirst) i j → i < j := by
    intro i j h
    induction h with
    | single h => exact hstep _ _ h
    | tail _ h ih => exact Nat.lt_trans ih (hstep _ _ h)
  obtain ⟨enough, h⟩ := @build_partitions repliesFirst (by decide)
    (fun i hi => Nat.lt_irrefl i (hlt i i hi))
  refine ⟨enough, fun fuel hfuel => ?_⟩
  obtain ⟨threads, hthreads, hperm, -⟩ := h fuel hfuel
  exact ⟨threads, hthreads, hperm⟩

/-- The walks end and nothing is dropped exactly when no parents make up a cycle, and no two Comments
that open a Thread share an id. -/
theorem build_ends_iff (comments : List Comment) :
    ((∀ i < comments.length, ∃ fuel root, rootOf comments fuel i = some root) ∧
      ∃ fuel threads, build comments fuel = some threads ∧
        ∀ i < comments.length, ∃ t ∈ threads, i = t.root ∨ i ∈ t.replies) ↔
    (∀ i, ¬OnCycle (parentPlace comments) i) ∧ RootsDistinct comments := by
  constructor
  · rintro ⟨hroots, fuel, threads, hbuild, hcovers⟩
    constructor
    · intro i hcycle
      obtain ⟨n, hn⟩ := id hcycle
      obtain ⟨j, hj, -⟩ := Option.bind_eq_some_iff.mp hn
      obtain ⟨fuel, root, hroot⟩ := hroots i (parentPlace_lt hj).1
      exact hcycle.not_ends (ends_of_rootOf hroot).1
    · obtain ⟨rt, hends, hbuilt⟩ := built_of_build hbuild
      exact (hbuilt.covers_iff hends).mp hcovers
  · rintro ⟨hacyclic, hroots⟩
    obtain ⟨rt, hends, enough, hbuild⟩ := build_ends hacyclic
    obtain ⟨hlooks, threads, hthreads, hbuilt⟩ := hbuild enough (Nat.le_refl _)
    exact ⟨fun i hi => ⟨enough, rt i, hlooks i hi⟩, enough, threads, hthreads,
      (hbuilt.covers_iff (fun i _ => hends i)).mpr hroots⟩

/-- A Comment that is its own parent. -/
def selfParent : List Comment := [{ id := 1, parentId := some 1, body := [] }]

theorem build_never_ends : ¬∀ comments : List Comment,
    (∀ i < comments.length, ∃ fuel root, rootOf comments fuel i = some root) ∧
      ∃ fuel threads, build comments fuel = some threads ∧
        ∀ i < comments.length, ∃ t ∈ threads, i = t.root ∨ i ∈ t.replies := by
  intro h
  obtain ⟨fuel, root, hroot⟩ := (h selfParent).1 0 (by decide)
  have hcycle : OnCycle (parentPlace selfParent) 0 := ⟨0, by decide⟩
  exact hcycle.not_ends (ends_of_rootOf hroot).1

end Bbr.Review.Threads
