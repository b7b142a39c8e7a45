import Bbr.Lib.Chains
import Bbr.Review.StoreOp

/-!
# Replies in the store have their parents

No operation leaves a Reply to a Draft that is not stored. A put resolves the parent first, a deletion
takes the whole subtree, which the bounded walk up the parents finds, and a clean completion attaches
the Replies of every Draft that it removes to the Comment.
-/
namespace Bbr.Review

open Bbr.Bitbucket Bbr.Lib Option

/-- The Draft parent of a stored Draft. -/
def draftParent (drafts : List Draft) (id : TempId) : Option TempId :=
  match (findDraft drafts id).bind Draft.parent with
  | some (.draft parentId) => some parentId
  | _ => none

theorem draftParent_eq_some {drafts : List Draft} {id p : TempId} : draftParent drafts id = some p ↔
      ∃ d, findDraft drafts id = some d ∧ d.parent = some (.draft p) := by
  unfold draftParent
  cases findDraft drafts id with
  | none => simp
  | some d =>
    rcases hp : d.parent with _ | (q | q) <;> simp [hp]

theorem descendsWithin_iff {drafts : List Draft} {root : TempId} {n : Nat} {id : TempId} :
    descendsWithin drafts root n id = true ↔ ∃ k < n, ascend (draftParent drafts) k id = some root := by
  induction n generalizing id with
  | zero => simp [descendsWithin]
  | succ n ih =>
    unfold descendsWithin
    by_cases hroot : id = root
    · rw [if_pos hroot]
      exact ⟨fun _ => ⟨0, Nat.succ_pos n, congrArg some hroot⟩, fun _ => rfl⟩
    rw [if_neg hroot]
    have hup : (∃ k < n + 1, ascend (draftParent drafts) k id = some root) ↔
        ∃ p, draftParent drafts id = some p ∧ ∃ k < n, ascend (draftParent drafts) k p = some root := by
      constructor
      · rintro ⟨k, hk, hreach⟩
        cases k with
        | zero => exact absurd (some.inj hreach) hroot
        | succ k =>
          obtain ⟨p, hp, hrest⟩ := bind_eq_some_iff.mp hreach
          exact ⟨p, hp, k, by omega, hrest⟩
      · rintro ⟨p, hp, k, hk, hrest⟩
        exact ⟨k + 1, by omega, by simp only [ascend, hp, bind_some, hrest]⟩
    rw [hup]
    cases hfind : findDraft drafts id with
    | none => simp [draftParent, hfind]
    | some d =>
      rcases hparent : d.parent with _ | (p | c)
      · simp [draftParent, hfind, hparent]
      · simp [draftParent, hfind, hparent, ih]
      · simp [draftParent, hfind, hparent]

/-- The walk is long enough to find the root from every member of its subtree. -/
theorem descendsWithin_complete {drafts : List Draft} {root id : TempId} {n : Nat}
    (hn : drafts.length < n) :
    descendsWithin drafts root n id = true ↔ Reaches (draftParent drafts) id root := by
  rw [descendsWithin_iff]
  constructor
  · rintro ⟨k, -, hk⟩
    exact ⟨k, hk⟩
  intro h
  obtain ⟨k, hk, hreach⟩ := h.within (drafts.map Draft.localId) (by
    intro x y hxy
    obtain ⟨d, hd, -⟩ := draftParent_eq_some.mp hxy
    exact findDraft_isSome.mp (by rw [hd]; rfl))
  rw [List.length_map] at hk
  exact ⟨k, by omega, hreach⟩

/-- The stored Draft `a` is a Reply to the Draft `b`. -/
def ChildOf (drafts : List Draft) (a b : TempId) : Prop :=
  ∃ d ∈ drafts, d.localId = a ∧ d.parent = some (.draft b)

theorem stepsTo_draftParent {drafts : List Draft} (hids : (drafts.map Draft.localId).Nodup) :
    StepsTo (draftParent drafts) = ChildOf drafts := by
  funext a b
  apply propext
  rw [StepsTo, draftParent_eq_some]
  constructor
  · rintro ⟨d, hd, hp⟩
    exact ⟨d, findDraft_mem hd, findDraft_localId hd, hp⟩
  · rintro ⟨d, hd, rfl, hp⟩
    exact ⟨d, findDraft_eq_of_mem hids hd, hp⟩

namespace InMemoryStore

variable {st st' : InMemoryStore} {op : StoreOp} {key : RemoteReviewIdentity} {tempId : TempId}

section

variable (st) (key)

theorem findDraft_load (tempId : TempId) : findDraft (st.load key) tempId = st.draftEntry key tempId :=
  findDraft_rows st.entries.rows key tempId

theorem load_distinct : ((st.load key).map Draft.localId).Nodup := by
  have := st.loadReview_distinct key
  rwa [PendingReview.DistinctTempIds, loadReview_drafts] at this

theorem length_load_le : (st.load key).length ≤ st.entries.rows.length := by
  rw [load, List.length_map]
  exact List.length_filter_le _ _

/-- The store walks over the rows of the Review as `Review.descendsWithin` does over a list. -/
theorem descendsWithin_eq (root : TempId) (n : Nat) (t : TempId) :
    st.descendsWithin key root n t = Review.descendsWithin (st.load key) root n t := by
  induction n generalizing t with
  | zero => rfl
  | succ n ih =>
    rw [descendsWithin, Review.descendsWithin, findDraft_load]
    cases st.draftEntry key t with
    | none => rfl
    | some d => rcases hp : d.parent with _ | (p | c) <;> simp [hp, ih]

theorem descendsFrom_iff (root t : TempId) :
    st.descendsFrom key root t = true ↔ Reaches (draftParent (st.load key)) t root := by
  rw [descendsFrom, descendsWithin_eq]
  exact descendsWithin_complete (Nat.lt_succ_of_le (st.length_load_le key))

end

/-- The bounded walks decide reachability, over a list and over the rows of one Review. -/
theorem descendsFrom_exact (drafts : List Draft) (hids : (drafts.map Draft.localId).Nodup)
    (root id : TempId) :
    (Review.descendsFrom drafts root id = true ↔ Relation.ReflTransGen (ChildOf drafts) id root) ∧
      ∀ (st : InMemoryStore) (key : RemoteReviewIdentity), (st.load key).Perm drafts →
        st.descendsFrom key root id = Review.descendsFrom drafts root id := by
  have hlist : Review.descendsFrom drafts root id = true ↔
      Relation.ReflTransGen (ChildOf drafts) id root := by
    rw [← stepsTo_draftParent hids, ← reaches_iff]
    exact descendsWithin_complete (Nat.lt_succ_self _)
  refine ⟨hlist, fun st key hperm => ?_⟩
  have hsame : ChildOf (st.load key) = ChildOf drafts := by
    funext a b
    simp only [ChildOf, hperm.mem_iff]
  rw [Bool.eq_iff_iff, hlist, descendsFrom_iff, reaches_iff,
    stepsTo_draftParent (st.load_distinct key), hsame]

/-- A chain, and a cycle beside it. -/
theorem descendsFrom_exact_chain :
    let drafts : List Draft := [{ localId := 1 }, { localId := 2, parent := some (.draft 1) },
      { localId := 6, parent := some (.draft 7) }, { localId := 7, parent := some (.draft 6) }]
    Relation.ReflTransGen (ChildOf drafts) 2 1 ∧ ¬Relation.ReflTransGen (ChildOf drafts) 6 1 := by
  intro drafts
  have hids : (drafts.map Draft.localId).Nodup := by decide
  rw [← (descendsFrom_exact drafts hids 1 2).1, ← (descendsFrom_exact drafts hids 1 6).1]
  decide

theorem Deleted.whole {deletion : DraftSubtreeDelete} (h : st.Deleted key deletion st') {d : Draft}
    (hd : st.draftEntry key tempId = some d)
    (hdesc : st.descendsFrom key deletion.rootTempId tempId = true) :
    tempId ∈ deletion.cascade := by
  let subtree := ((st.load key).filter
    (fun d => st.descendsFrom key deletion.rootTempId d.localId)).map Draft.localId
  have hmem : ∀ t, t ∈ subtree ↔
      (st.draftEntry key t).isSome ∧ st.descendsFrom key deletion.rootTempId t = true := by
    intro t
    simp only [subtree, List.mem_map, List.mem_filter]
    constructor
    · rintro ⟨d, ⟨hd, hdesc⟩, rfl⟩
      refine ⟨?_, hdesc⟩
      rw [← findDraft_load, findDraft_eq_of_mem (st.load_distinct key) hd]
      rfl
    · rintro ⟨hsome, hdesc⟩
      obtain ⟨d, hd⟩ := isSome_iff_exists.mp hsome
      rw [← findDraft_load] at hd
      have hid := findDraft_localId hd
      exact ⟨d, ⟨findDraft_mem hd, by rw [hid]; exact hdesc⟩, hid⟩
  have hsub : deletion.cascade ⊆ subtree := fun t ht => (hmem t).mpr (h.members t ht)
  have hlen : subtree.length ≤ deletion.cascade.length := by
    have := h.counted
    simp only [subtree, List.length_map]
    omega
  have hperm : deletion.cascade.Perm subtree := (h.distinct.subperm hsub).perm_of_length_le hlen
  exact hperm.mem_iff.mpr ((hmem tempId).mpr ⟨by rw [hd]; rfl, hdesc⟩)

/-- Every Reply to a Draft has that Draft in its own Review. -/
def NoDangling (st : InMemoryStore) : Prop :=
  ∀ key tempId d p, st.draftEntry key tempId = some d → d.parent = some (.draft p) →
    (st.draftEntry key p).isSome

theorem NoDangling.same (hn : st.NoDangling) (h : st.SameParents st') : st'.NoDangling := by
  intro key t d' p hd' hp
  have hparent := h key t
  rw [hd', map_some] at hparent
  obtain ⟨d, hd, hsame⟩ := map_eq_some_iff.mp hparent.symm
  rw [h.isSome]
  exact hn key t d p hd (hsame.trans hp)

theorem putParent_stored {parent stored : Option Parent} {p : TempId}
    (h : st.putParent key parent = .ok stored) (hp : stored = some (.draft p)) :
    (st.draftEntry key p).isSome := by
  subst hp
  unfold putParent at h
  split at h
  · next q =>
    split at h
    · next hrow =>
      cases h
      exact hrow
    · split at h <;> cases h
  · next hother =>
    cases h
    exact absurd rfl (hother p)

theorem NoDangling.put {incoming : Draft} {stored : Option Parent} (hn : st.NoDangling)
    (h : st.put key incoming = (.ok stored, st')) : st'.NoDangling := by
  obtain ⟨-, hparent, rfl⟩ := put_ok h
  have hkept : ∀ key' t, (st.draftEntry key' t).isSome → (InMemoryStore.draftEntry
      { st with entries := st.entries.put ⟨key, { incoming with parent := stored }⟩ }
      key' t).isSome := by
    intro key' t hsome
    rw [draftEntry_putRow]
    split
    · rfl
    · exact hsome
  intro key' t d p hd hp
  apply hkept
  rw [draftEntry_putRow] at hd
  split at hd
  · next hrow =>
    cases hd
    rw [hrow.1]
    exact putParent_stored hparent hp
  · exact hn key' t d p hd hp

theorem NoDangling.delete {deletion : DraftSubtreeDelete} (hn : st.NoDangling)
    (h : st.Deleted key deletion st') : st'.NoDangling := by
  intro key' t d p hd hp
  rw [h.rows] at hd
  split at hd
  · cases hd
  rename_i hkept
  have hrow := hn key' t d p hd hp
  rw [h.rows, if_neg]
  · exact hrow
  · -- A removed parent reaches the root, and so does the Reply.
    rintro ⟨rfl, hin⟩
    apply hkept
    refine ⟨rfl, h.whole hd ?_⟩
    rw [descendsFrom_iff]
    have hup : draftParent (st.load key') t = some p :=
      draftParent_eq_some.mpr ⟨d, by rw [findDraft_load]; exact hd, hp⟩
    exact .step hup ((descendsFrom_iff st key' _ p).mp (h.members p hin).2)

theorem remapAll_parent {removed : List PostedDraft} {e : Entry} {p : TempId}
    (h : (remapAll removed e).draft.parent = some (.draft p)) :
    e.draft.parent = some (.draft p) ∧ (e.key, p) ∉ removed.map (fun r => (r.key, r.tempId)) := by
  induction removed generalizing e with
  | nil => exact ⟨h, by simp⟩
  | cons r rest ih =>
    obtain ⟨hparent, hrest⟩ := ih (e := remapReply r.key r.tempId r.commentId e) h
    unfold remapReply at hparent hrest
    split at hparent
    · cases hparent
    rename_i hother
    rw [if_neg hother] at hrest
    refine ⟨hparent, ?_⟩
    rw [List.map_cons, List.mem_cons, not_or]
    refine ⟨?_, hrest⟩
    intro heq
    obtain ⟨hk, ht⟩ := Prod.mk.inj heq
    exact hother ⟨hk, by rw [hparent, ht]⟩

theorem NoDangling.clean {removed : List PostedDraft} (hn : st.NoDangling)
    (h : st'.entries = removed.foldl removePosted st.entries) : st'.NoDangling := by
  intro key t d p hd hp
  rw [draftEntry, h, lookup_foldl_removePosted] at hd
  split at hd
  · cases hd
  obtain ⟨e', he', rfl⟩ := map_eq_some_iff.mp hd
  obtain ⟨e, he, rfl⟩ := map_eq_some_iff.mp he'
  obtain ⟨hparent, hkept⟩ := remapAll_parent hp
  have hkey : e.key = key := congrArg Prod.fst (Keyed.lookup_key he)
  have hrow := hn key t e.draft p (by rw [draftEntry, he, map_some]) hparent
  rw [draftEntry, h, lookup_foldl_removePosted, if_neg (hkey ▸ hkept)]
  rw [draftEntry] at hrow
  simpa using hrow

theorem NoDangling.apply (hn : st.NoDangling) (op : StoreOp) : (st.apply op).NoDangling := by
  cases st.apply_effect op with
  | same _ hrows _ => exact hn.same hrows
  | put hput => exact hn.put hput
  | delete hdeleted => exact hn.delete hdeleted
  | clean _ hclean _ => exact hn.clean hclean.2.2
  | reserve => exact hn.same (.of_entries (reserveTempId_entries st _))

/-- After every history of an empty store every Reply has its parent. -/
theorem no_dangling_reply (ops : List StoreOp) (key : RemoteReviewIdentity) (tempId p : TempId)
    (d : Draft) (hd : (({} : InMemoryStore).after ops).draftEntry key tempId = some d)
    (hp : d.parent = some (.draft p)) :
    ∃ parent, (({} : InMemoryStore).after ops).draftEntry key p = some parent := by
  have hempty : NoDangling {} := by
    intro key t d p hd
    cases hd
  have hn : (({} : InMemoryStore).after ops).NoDangling :=
    after_keeps (fun _ => True) NoDangling (fun _ hn => hn.apply _) (fun _ _ => trivial) hempty
  exact isSome_iff_exists.mp (hn key tempId d p hd hp)

/-- A Reply stays beside a deleted subtree. -/
theorem no_dangling_reply_deletion :
    ∃ parent, (({} : InMemoryStore).after [.put ⟨[], [], 7⟩ { localId := 1 },
      .put ⟨[], [], 7⟩ { localId := 2, parent := some (.draft 1) },
      .put ⟨[], [], 7⟩ { localId := 3, parent := some (.draft 2) },
      .put ⟨[], [], 7⟩ { localId := 4, parent := some (.draft 1) },
      .deleteDraftSubtree ⟨[], [], 7⟩ ⟨2, some (.draft 1), [2, 3]⟩]).draftEntry ⟨[], [], 7⟩ 1 =
        some parent :=
  no_dangling_reply _ ⟨[], [], 7⟩ 4 1 { localId := 4, parent := some (.draft 1) } rfl rfl

end InMemoryStore

end Bbr.Review
