import Bbr.Lib.Ancestors
import Bbr.Review.SubmissionSkips
import Bbr.Tui.SubmissionTree

/-!
# Walks and passes over a Submission tree

Where no parent stands after its Reply the walks end: `depth` counts the ancestors before an item and
`nearestBlockingAncestor` finds the nearest one that blocks. The two passes that rewrite the items end
with them.
-/
namespace Bbr.Tui

open Bbr.Bitbucket Bbr.Review Bbr.Lib List SubmissionItemProjection

def parentDraft : Option Parent → Option TempId
  | some (.draft id) => some id
  | _ => none

theorem parentDraft_eq_some {parent : Option Parent} {id : TempId} :
    parentDraft parent = some id ↔ parent = some (.draft id) := by
  rcases parent with _ | (_ | _) <;> simp [parentDraft]

namespace SubmissionItemProjection

def link (self : SubmissionItemProjection) : Link TempId :=
  ⟨self.tempId, parentDraft self.parent, self.blocks⟩

end SubmissionItemProjection

namespace SubmissionTree

variable {items items' : List SubmissionItemProjection} {item item' : SubmissionItemProjection}
  {parent : Option Parent} {review : PendingReview} {order : List TempId}

def bare (item : SubmissionItemProjection) : Link TempId :=
  ⟨item.tempId, parentDraft item.parent, false⟩

variable {g : SubmissionItemProjection → Link TempId}

section

variable (hid : ∀ item, (g item).id = item.tempId)
include hid

theorem findLink_items (items : List SubmissionItemProjection) (id : TempId) :
    findLink (items.map g) id = (findConst items id).map g := by
  unfold findLink findConst
  rw [find?_map]
  congr 2
  funext item
  rw [Function.comp_apply, hid]

theorem findConst_of_link {id : TempId} {link : Link TempId}
    (h : findLink (items.map g) id = some link) :
    ∃ item, findConst items id = some item ∧ g item = link := by
  rw [findLink_items hid] at h
  exact Option.map_eq_some_iff.mp h

theorem findConst_missing {id : TempId}
    (h : findLink (items.map g) id = none) : findConst items id = none := by
  rw [findLink_items hid] at h
  exact Option.map_eq_none_iff.mp h

end

theorem ends_succ {P Q : Nat → Prop} (h : ∃ fuel, ∀ more, fuel ≤ more → P more)
    (hnext : ∀ more, P more → Q (more + 1)) : ∃ fuel, ∀ more, fuel ≤ more → Q more := by
  obtain ⟨fuel, hfuel⟩ := h
  refine ⟨fuel + 1, fun more hmore => ?_⟩
  obtain ⟨more, rfl⟩ := Nat.exists_eq_add_of_le' (Nat.le_trans (Nat.le_add_left 1 fuel) hmore)
  exact hnext more (hfuel more (by omega))

theorem ends_now {Q : Nat → Prop} (hnow : ∀ more, Q (more + 1)) :
    ∃ fuel, ∀ more, fuel ≤ more → Q more :=
  ends_succ ⟨0, fun _ _ => trivial⟩ (fun more _ => hnow more)

theorem depth_ends {n : Nat} (h : Height (items.map bare) (parentDraft parent) n) :
    ∃ fuel, ∀ more, fuel ≤ more → depth items more parent = some n := by
  generalize hup : parentDraft parent = up at h
  induction h generalizing parent with
  | root =>
    match parent, hup with
    | none, _ | some (.comment _), _ => exact ends_now fun _ => rfl
  | missing hnone =>
    obtain rfl := parentDraft_eq_some.mp hup
    exact ends_now fun _ => by simp [depth, findConst_missing (fun _ => rfl) hnone]
  | above hsome _ ih =>
    obtain ⟨item, hfind, rfl⟩ := findConst_of_link (fun _ => rfl) hsome
    obtain rfl := parentDraft_eq_some.mp hup
    exact ends_succ (ih rfl) fun _ hrest => by simp [depth, hfind, hrest]

/-- Every blocking ancestor that an item names is its nearest one. -/
def NamesNearest (links : List (Link TempId)) (items : List SubmissionItemProjection) : Prop :=
  ∀ item ∈ items, ∀ ancestor, item.blockingAncestor = some ancestor →
    NearestStop links (parentDraft item.parent) (some ancestor)

theorem nearest_ends {found : Option TempId}
    (h : NearestStop (items.map link) (parentDraft parent) found)
    (hnames : NamesNearest (items.map link) items) :
    ∃ fuel, ∀ more, fuel ≤ more → nearestBlockingAncestor items more parent = some found := by
  generalize hup : parentDraft parent = up at h
  induction h generalizing parent with
  | root =>
    match parent, hup with
    | none, _ | some (.comment _), _ => exact ends_now fun _ => rfl
  | missing hnone =>
    obtain rfl := parentDraft_eq_some.mp hup
    exact ends_now fun _ => by
      simp [nearestBlockingAncestor, findConst_missing (fun _ => rfl) hnone]
  | here hsome hstops =>
    obtain ⟨item, hfind, rfl⟩ := findConst_of_link (fun _ => rfl) hsome
    obtain rfl := parentDraft_eq_some.mp hup
    have hblocks : item.blocks = true := hstops
    exact ends_now fun _ => by simp [nearestBlockingAncestor, hfind, hblocks]
  | above hsome hstops hrest ih =>
    obtain ⟨item, hfind, rfl⟩ := findConst_of_link (fun _ => rfl) hsome
    obtain rfl := parentDraft_eq_some.mp hup
    have hblocks : item.blocks = false := hstops
    refine ends_succ (ih rfl) fun more hmore => ?_
    cases hnamed : item.blockingAncestor with
    | none => simp [nearestBlockingAncestor, hfind, hblocks, hnamed, hmore]
    | some ancestor =>
      -- The named ancestor is the one that the walk would have found.
      have hnear := hnames item (mem_of_find?_eq_some hfind) ancestor hnamed
      rw [← hnear.unique hrest]
      simp [nearestBlockingAncestor, hfind, hblocks, hnamed]

/-- The items of an order, as far as their parents go. -/
def orderLinks (review : PendingReview) (order : List TempId) : List (Link TempId) :=
  order.map (fun tempId =>
    ⟨tempId, (review.getConst tempId).bind (fun draft => parentDraft draft.parent), false⟩)

/-- Items made from the Drafts of an order, each as deep as the items before it make it. -/
inductive Drawn (review : PendingReview) (make : TempId → Draft → Nat → SubmissionItemProjection) :
    List TempId → List SubmissionItemProjection → Prop where
  | nil : Drawn review make [] []
  | snoc {front : List TempId} {items : List SubmissionItemProjection} {tempId : TempId}
      {draft : Draft} {depth : Nat} (h : Drawn review make front items)
      (hdraft : review.getConst tempId = some draft)
      (hdepth : Height (orderLinks review front) (parentDraft draft.parent) depth) :
      Drawn review make (front ++ [tempId]) (items ++ [make tempId draft depth])

/-- The maker keeps the TempId, the parent and the depth. -/
structure Makes (make : TempId → Draft → Nat → SubmissionItemProjection) : Prop where
  tempId : ∀ tempId draft depth, (make tempId draft depth).tempId = tempId
  parent : ∀ tempId draft depth, (make tempId draft depth).parent = draft.parent
  depth : ∀ tempId draft depth, (make tempId draft depth).depth = depth

theorem newItem_makes (review : PendingReview) (order : List TempId) :
    Makes (newItem review order) := ⟨fun _ _ _ => rfl, fun _ _ _ => rfl, fun _ _ _ => rfl⟩

theorem persistedItem_makes (review : PendingReview) (order : List TempId) :
    Makes (persistedItem review order) := ⟨fun _ _ _ => rfl, fun _ _ _ => rfl, fun _ _ _ => rfl⟩

variable {make : TempId → Draft → Nat → SubmissionItemProjection}

section

variable (h : Drawn review make order items)
include h

theorem Drawn.bare (hmake : Makes make) : items.map bare = orderLinks review order := by
  induction h with
  | nil => rfl
  | snoc _ hdraft _ ih =>
    rw [map_append, ih]
    unfold orderLinks
    simp [SubmissionTree.bare, hmake.tempId, hmake.parent, hdraft]

theorem Drawn.length : items.length = order.length := by
  induction h with
  | nil => rfl
  | snoc _ _ _ ih => rw [length_append, length_append, ih]; rfl

theorem Drawn.made {i : Nat} (hi : items[i]? = some item) :
    ∃ tempId draft depth, order[i]? = some tempId ∧ review.getConst tempId = some draft ∧
      item = make tempId draft depth ∧
        Height ((orderLinks review order).take i) (parentDraft draft.parent) depth := by
  induction h with
  | nil => cases hi
  | @snoc front items tempId draft depth hfront hdraft hdepth ih =>
    have hlen := hfront.length
    have hlinks : (orderLinks review front).length = front.length := length_map _
    have hall : orderLinks review (front ++ [tempId]) =
        orderLinks review front ++ orderLinks review [tempId] := map_append
    rw [hall]
    obtain hlt | hge := Nat.lt_or_ge i items.length
    · rw [getElem?_append_left hlt] at hi
      obtain ⟨tempId', draft', depth', hat, hd, hitem, hheight⟩ := ih hi
      refine ⟨tempId', draft', depth', ?_, hd, hitem, ?_⟩
      · rw [getElem?_append_left (by omega)]
        exact hat
      · rw [take_append_of_le_length (by omega)]
        exact hheight
    · have hlast : i = items.length := by
        have := (List.getElem?_eq_some_iff.mp hi).1
        rw [List.length_append, List.length_singleton] at this
        omega
      subst hlast
      rw [getElem?_append_right (Nat.le_refl _), Nat.sub_self] at hi
      cases hi
      refine ⟨tempId, draft, depth, ?_, hdraft, rfl, ?_⟩
      · rw [hlen, getElem?_append_right (Nat.le_refl _), Nat.sub_self]
        rfl
      · rw [hlen, ← hlinks, take_left]
        exact hdepth

end

theorem orderLinks_ids (review : PendingReview) (order : List TempId) :
    (orderLinks review order).map Link.id = order := by
  unfold orderLinks
  rw [map_map]
  exact map_id order

theorem appendItems_ends (hmake : Makes make) (h : ParentsFirst (orderLinks review order))
    (hin : ∀ tempId ∈ order, (review.getConst tempId).isSome) :
    ∃ items, (∃ fuel, ∀ more, fuel ≤ more →
      appendItems more review make [] order = some (.ok items)) ∧ Drawn review make order items := by
  suffices hall : ∀ rest front items, order = front ++ rest → Drawn review make front items →
      ∃ all, (∃ fuel, ∀ more, fuel ≤ more →
        appendItems more review make items rest = some (.ok all)) ∧ Drawn review make order all from
    hall order [] [] rfl .nil
  intro rest
  induction rest with
  | nil =>
    intro front items horder hdrawn
    rw [append_nil] at horder
    exact ⟨items, ⟨0, fun _ _ => rfl⟩, horder ▸ hdrawn⟩
  | cons tempId rest ih =>
    intro front items horder hdrawn
    obtain ⟨draft, hdraft⟩ := Option.isSome_iff_exists.mp (hin tempId (by rw [horder]; simp))
    have hlinks : orderLinks review order =
        orderLinks review front ++ orderLinks review (tempId :: rest) := by
      rw [horder]
      exact map_append
    have hlen : (orderLinks review front).length = front.length := length_map _
    have hat : (orderLinks review order)[front.length]? =
        some ⟨tempId, parentDraft draft.parent, false⟩ := by
      rw [hlinks, getElem?_append_right (by omega), hlen, Nat.sub_self]
      simp [orderLinks, hdraft]
    obtain ⟨n, hheight, -⟩ := h.height_take hat (Nat.le_refl front.length)
    rw [hlinks, ← hlen, take_left] at hheight
    obtain ⟨fuel, hfuel⟩ := depth_ends (n := n) (by rw [hdrawn.bare hmake]; exact hheight)
    obtain ⟨all, ⟨fuel', hrest⟩, hall⟩ := ih (front ++ [tempId]) (items ++ [make tempId draft n])
      (by rw [horder, append_assoc]; rfl) (hdrawn.snoc hdraft hheight)
    refine ⟨all, ⟨max fuel fuel', fun more hmore => ?_⟩, hall⟩
    unfold appendItems
    rw [hdraft]
    dsimp only
    rw [hfuel more (by omega)]
    exact hrest more (by omega)

/-- Each item is one deeper than its parent, where that stands before it. -/
def DeeperByOne (items : List SubmissionItemProjection) : Prop :=
  ∀ (i j : Nat) item other, items[i]? = some item → items[j]? = some other → j < i →
    item.parent = some (.draft other.tempId) → item.depth = other.depth + 1

theorem Drawn.deeperByOne (h : Drawn review make order items) (hmake : Makes make)
    (hfirst : ParentsFirst (orderLinks review order)) : DeeperByOne items := by
  intro i j item other hi hj hji hparent
  obtain ⟨tempId, draft, depth, -, -, rfl, hheight⟩ := h.made hi
  obtain ⟨otherId, otherDraft, otherDepth, -, -, rfl, hother⟩ := h.made hj
  rw [hmake.parent, hmake.tempId] at hparent
  rw [hmake.depth, hmake.depth]
  rw [hparent] at hheight
  have hlink : (orderLinks review order)[j]? =
      some ⟨otherId, parentDraft otherDraft.parent, false⟩ := by
    rw [← h.bare hmake, getElem?_map, hj]
    simp [SubmissionTree.bare, hmake.tempId, hmake.parent]
  have hfind : findLink ((orderLinks review order).take i) otherId =
      some ⟨otherId, parentDraft otherDraft.parent, false⟩ := by
    have hnodup := hfirst.nodup.sublist ((take_sublist i _).map Link.id)
    have hmem : (⟨otherId, parentDraft otherDraft.parent, false⟩ : Link TempId) ∈
        (orderLinks review order).take i := by
      apply mem_of_getElem? (i := j)
      rw [getElem?_take_of_lt hji]
      exact hlink
    exact findLink_of_mem hnodup hmem
  obtain ⟨n, hn, hn'⟩ := hfirst.height_take hlink (Nat.le_of_lt hji)
  obtain rfl := hother.unique hn
  exact hheight.unique (.above hfind hn')

/-- A pass ends when each of its steps does; what holds of the items before a step holds after it. -/
theorem rewrite_ends {f : Nat → List SubmissionItemProjection → SubmissionItemProjection →
      Option SubmissionItemProjection} (inv : List SubmissionItemProjection → Prop)
    (becomes : SubmissionItemProjection → SubmissionItemProjection → Prop)
    (hstep : ∀ done item rest, inv (done ++ item :: rest) → ∃ item',
      (∃ fuel, ∀ more, fuel ≤ more → f more (done ++ item :: rest) item = some item') ∧
        becomes item item' ∧ inv (done ++ item' :: rest)) :
    ∀ rest done, inv (done ++ rest) → ∃ rest',
      (∃ fuel, ∀ more, fuel ≤ more → rewrite (f more) done rest = some (done ++ rest')) ∧
        List.Forall₂ becomes rest rest' ∧ inv (done ++ rest') := by
  intro rest
  induction rest with
  | nil =>
    intro done hinv
    exact ⟨[], ⟨0, fun _ _ => by rw [append_nil]; rfl⟩, .nil, hinv⟩
  | cons item rest ih =>
    intro done hinv
    obtain ⟨item', ⟨fuel, hfuel⟩, hbecomes, hinv'⟩ := hstep done item rest hinv
    have hsnoc : ∀ tail, done ++ item' :: tail = (done ++ [item']) ++ tail := by
      intro tail
      rw [append_assoc]
      rfl
    obtain ⟨rest', ⟨fuel', hfuel'⟩, hall, hend⟩ := ih (done ++ [item']) (hsnoc rest ▸ hinv')
    refine ⟨item' :: rest', ⟨max fuel fuel', fun more hmore => ?_⟩, .cons hbecomes hall, ?_⟩
    · unfold rewrite
      rw [hfuel more (by omega), hsnoc]
      exact hfuel' more (by omega)
    · rw [hsnoc]
      exact hend

section Pass

variable {links : List (Link TempId)} {done rest : List SubmissionItemProjection}

/-- The items of a pass: their links do not change, and what they name is right. -/
structure InPass (links : List (Link TempId)) (items : List SubmissionItemProjection) : Prop where
  same : items.map SubmissionItemProjection.link = links
  names : NamesNearest links items

theorem InPass.nearest (h : InPass links (done ++ item :: rest)) (hfirst : ParentsFirst links) :
    ∃ found, NearestStop links (parentDraft item.parent) found ∧ ∃ fuel, ∀ more, fuel ≤ more →
      nearestBlockingAncestor (done ++ item :: rest) more item.parent = some found := by
  have hat : links[done.length]? = some item.link := by
    rw [← h.same, getElem?_map, getElem?_append_right (Nat.le_refl _), Nat.sub_self]
    rfl
  obtain ⟨found, hfound⟩ := hfirst.nearest_at hat
  have hfound' : NearestStop links (parentDraft item.parent) found := hfound
  have hnear := hfound'
  have hnames := h.names
  rw [← h.same] at hnear hnames
  obtain ⟨fuel, hfuel⟩ := nearest_ends hnear hnames
  exact ⟨found, hfound', fuel, hfuel⟩

/-- An item that keeps its link and names what is nearest, or what it named before. -/
theorem InPass.replace (h : InPass links (done ++ item :: rest)) (hlink : item'.link = item.link)
    (hnames : ∀ ancestor, item'.blockingAncestor = some ancestor →
      NearestStop links (parentDraft item'.parent) (some ancestor)) :
    InPass links (done ++ item' :: rest) := by
  constructor
  · rw [← h.same, map_append, map_append, map_cons, map_cons, hlink]
  intro other hother ancestor hancestor
  obtain hdone | hother := mem_append.mp hother
  · exact h.names other (mem_append_left _ hdone) ancestor hancestor
  · obtain rfl | hrest := mem_cons.mp hother
    · exact hnames ancestor hancestor
    · exact h.names other (mem_append_right _ (mem_cons_of_mem _ hrest)) ancestor hancestor

/-- What the first pass makes of an item. -/
def Named (links : List (Link TempId)) (item item' : SubmissionItemProjection) : Prop :=
  ∃ ancestor, item' = { item with blockingAncestor := ancestor } ∧
    (item.state = .skipped → NearestStop links (parentDraft item.parent) ancestor) ∧
    (item.state ≠ .skipped → ancestor = item.blockingAncestor)

theorem nameBlocker_ends (h : InPass links items) (hfirst : ParentsFirst links) :
    ∃ items', (∃ fuel, ∀ more, fuel ≤ more → rewrite (nameBlocker more) [] items = some items') ∧
      List.Forall₂ (Named links) items items' := by
  have hpass := rewrite_ends (f := nameBlocker) (InPass links) (Named links) ?_ items [] h
  · obtain ⟨items', hfuel, hnamed, -⟩ := hpass
    exact ⟨items', hfuel, hnamed⟩
  · intro done item rest hinv
    by_cases hskipped : item.state = .skipped
    · obtain ⟨found, hfound, fuel, hfuel⟩ := hinv.nearest hfirst
      refine ⟨{ item with blockingAncestor := found }, ⟨fuel, fun more hmore => ?_⟩,
        ⟨found, rfl, fun _ => hfound, fun hnot => absurd hskipped hnot⟩, hinv.replace rfl ?_⟩
      · unfold nameBlocker
        rw [if_pos hskipped, hfuel more hmore]
        rfl
      · rintro ancestor rfl
        exact hfound
    · refine ⟨item, ⟨0, fun more _ => if_neg hskipped⟩,
        ⟨item.blockingAncestor, rfl, fun h => absurd h hskipped, fun _ => rfl⟩, hinv⟩

/-- The reason of the item with this TempId. -/
def reasonOf (items : List SubmissionItemProjection) (id : TempId) : Option ApiError :=
  (findConst items id).bind SubmissionItemProjection.reason

/-- What the second pass makes of an item; the reasons are those before the pass. -/
def Skipped (links : List (Link TempId)) (reasons : TempId → Option ApiError)
    (item item' : SubmissionItemProjection) : Prop :=
  (item.state ≠ .queued → item' = item) ∧
    (item.state = .queued → ∃ found, NearestStop links (parentDraft item.parent) found ∧
      item' = match found with
        | none => item
        | some ancestor => { item with
            state := .skipped
            blockingAncestor := some ancestor
            reason := reasons ancestor })

/-- Blocking items keep their reasons while queued ones are skipped. -/
def KeepsReasons (reasons : TempId → Option ApiError) (items : List SubmissionItemProjection) : Prop :=
  ∀ item ∈ items, item.blocks = true → item.reason = reasons item.tempId

theorem skipBlocked_ends (h : InPass links items) (hfirst : ParentsFirst links)
    {reasons : TempId → Option ApiError} (hreasons : KeepsReasons reasons items) :
    ∃ items', (∃ fuel, ∀ more, fuel ≤ more → rewrite (skipBlocked more) [] items = some items') ∧
      List.Forall₂ (Skipped links reasons) items items' := by
  have hpass := rewrite_ends (f := skipBlocked) (fun items => InPass links items ∧
    KeepsReasons reasons items) (Skipped links reasons) ?_ items [] ⟨h, hreasons⟩
  · obtain ⟨items', hfuel, hskipped, -⟩ := hpass
    exact ⟨items', hfuel, hskipped⟩
  · rintro done item rest ⟨hinv, hkeeps⟩
    by_cases hqueued : item.state = .queued
    · obtain ⟨found, hfound, fuel, hfuel⟩ := hinv.nearest hfirst
      cases found with
      | none =>
        refine ⟨item, ⟨fuel, fun more hmore => ?_⟩,
          ⟨fun hnot => absurd hqueued hnot, fun _ => ⟨none, hfound, rfl⟩⟩, hinv, hkeeps⟩
        unfold skipBlocked
        rw [if_neg (not_not_intro hqueued), hfuel more hmore]
        rfl
      | some ancestor =>
        obtain ⟨link, hlink, hstops⟩ := hfound.stops
        rw [← hinv.same] at hlink
        obtain ⟨blocked, hblocked, rfl⟩ := findConst_of_link (fun _ => rfl) hlink
        have hmem := mem_of_find?_eq_some hblocked
        have hid : blocked.tempId = ancestor := by simpa using find?_some hblocked
        have hreason : blocked.reason = reasons ancestor := hid ▸ hkeeps blocked hmem hstops
        refine ⟨_, ⟨fuel, fun more hmore => ?_⟩,
          ⟨fun hnot => absurd hqueued hnot, fun _ => ⟨some ancestor, hfound, rfl⟩⟩, ?_, ?_⟩
        · unfold skipBlocked
          rw [if_neg (not_not_intro hqueued), hfuel more hmore]
          simp only [Option.map_some, hblocked, hreason]
        · refine hinv.replace ?_ ?_
          · simp [link, blocks, hqueued]
          · rintro other hother
            cases hother
            exact hfound
        · intro other hother hblocks
          obtain hdone | hother := mem_append.mp hother
          · exact hkeeps other (mem_append_left _ hdone) hblocks
          · obtain rfl | hrest := mem_cons.mp hother
            · simp [blocks] at hblocks
            · exact hkeeps other (mem_append_right _ (mem_cons_of_mem _ hrest)) hblocks
    · exact ⟨item, ⟨0, fun more _ => if_pos hqueued⟩,
        ⟨fun _ => rfl, fun h => absurd h hqueued⟩, hinv, hkeeps⟩

end Pass

end SubmissionTree

end Bbr.Tui
