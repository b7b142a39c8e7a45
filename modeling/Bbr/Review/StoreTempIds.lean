import Bbr.Review.StoreReplies

/-!
# TempIds are never given out twice

Histories of one store, shared by any number of processes, in which a Draft is put under an id that was
reserved for it. Until a counter row exists nothing has been removed and nothing reserved, so the
largest stored id bounds every id in use; every removal, and the first reservation, leaves a counter
that does.
-/
namespace Bbr.Review

open Bbr.Bitbucket Bbr.Lib List Option

namespace InMemoryStore

variable {st st' : InMemoryStore} {key : RemoteReviewIdentity} {tempId : TempId}
  {ops pre : List StoreOp} {op : StoreOp}

/-- The id that a reservation after this history returns. -/
def reservedAfter (st : InMemoryStore) (pre : List StoreOp) (key : RemoteReviewIdentity) : TempId :=
  ((st.after pre).reserveTempId key).1

/-- Some reservation of this history returned the id. -/
def Reserved (st : InMemoryStore) (pre : List StoreOp) (key : RemoteReviewIdentity)
    (tempId : TempId) : Prop :=
  ∃ earlier, (earlier ++ [.reserveTempId key]) <+: pre ∧ st.reservedAfter earlier key = tempId

/-- A Draft has been stored under the id, at the start or after some of the history. -/
def EverStored (st : InMemoryStore) (pre : List StoreOp) (key : RemoteReviewIdentity)
    (tempId : TempId) : Prop :=
  ∃ earlier, earlier <+: pre ∧ ((st.after earlier).draftEntry key tempId).isSome

/-- Every Draft is put under an id reserved for it and not stored under before, or replaces the
Draft that is still stored under its id. -/
def Authored (st : InMemoryStore) (ops : List StoreOp) (key : RemoteReviewIdentity) : Prop :=
  ∀ pre incoming, (pre ++ [.put key incoming]) <+: ops →
    ((st.after pre).draftEntry key incoming.localId).isSome ∨
      (st.Reserved pre key incoming.localId ∧ ¬ st.EverStored pre key incoming.localId)

/-- A clean completion of this history removed the Draft, which was posted as this Comment. -/
def RemovedAs (st : InMemoryStore) (pre : List StoreOp) (key : RemoteReviewIdentity)
    (tempId : TempId) (id : CommentId) : Prop :=
  ∃ earlier operationId, (earlier ++ [.completeSubmission operationId key .clean]) <+: pre ∧
    (∃ d, (st.after earlier).draftEntry key tempId = some d ∧ d.state = .posted id) ∧
    (st.after (earlier ++ [.completeSubmission operationId key .clean])).draftEntry key tempId = none

theorem Authored.earlier (h : st.Authored ops key) (hpre : pre <+: ops) : st.Authored pre key :=
  fun earlier incoming hearlier => h earlier incoming (hearlier.trans hpre)

theorem after_snoc (st : InMemoryStore) (pre : List StoreOp) (op : StoreOp) :
    st.after (pre ++ [op]) = (st.after pre).apply op := by
  rw [after_append, after_cons, after_nil]

theorem everStored_snoc : st.EverStored (pre ++ [op]) key tempId ↔
    st.EverStored pre key tempId ∨ (((st.after pre).apply op).draftEntry key tempId).isSome := by
  constructor
  · rintro ⟨earlier, hearlier, hrow⟩
    rcases prefix_concat_iff.mp hearlier with rfl | hearlier
    · rw [after_snoc] at hrow
      exact .inr hrow
    · exact .inl ⟨earlier, hearlier, hrow⟩
  · rintro (⟨earlier, hearlier, hrow⟩ | hrow)
    · exact ⟨earlier, hearlier.trans (prefix_append pre [op]), hrow⟩
    · exact ⟨pre ++ [op], prefix_rfl, by rw [after_snoc]; exact hrow⟩

theorem everStored_now (h : ((st.after pre).draftEntry key tempId).isSome) :
    st.EverStored pre key tempId := ⟨pre, prefix_rfl, h⟩

theorem reserved_snoc : st.Reserved (pre ++ [op]) key tempId ↔ st.Reserved pre key tempId ∨
      (op = .reserveTempId key ∧ st.reservedAfter pre key = tempId) := by
  constructor
  · rintro ⟨earlier, hearlier, hid⟩
    rcases prefix_concat_iff.mp hearlier with heq | hearlier
    · obtain ⟨rfl, hop⟩ := append_inj' heq rfl
      exact .inr ⟨(cons.inj hop).1.symm, hid⟩
    · exact .inl ⟨earlier, hearlier, hid⟩
  · rintro (⟨earlier, hearlier, hid⟩ | ⟨rfl, hid⟩)
    · exact ⟨earlier, hearlier.trans (prefix_append pre [op]), hid⟩
    · exact ⟨pre, prefix_rfl, hid⟩

theorem foldl_max_le (drafts : List Draft) (floor : TempId) :
    floor ≤ drafts.foldl (fun floor d => max floor (d.localId + 1)) floor ∧
      ∀ d ∈ drafts, d.localId < drafts.foldl (fun floor d => max floor (d.localId + 1)) floor := by
  induction drafts generalizing floor with
  | nil => simp
  | cons d rest ih =>
    obtain ⟨hfloor, hrest⟩ := ih (max floor (d.localId + 1))
    refine ⟨(Nat.le_max_left _ _).trans hfloor, ?_⟩
    intro d' hd'
    rcases mem_cons.mp hd' with rfl | hd'
    · exact Nat.lt_of_lt_of_le (Nat.lt_succ_self _) ((Nat.le_max_right _ _).trans hfloor)
    · exact hrest d' hd'

theorem lt_tempIdFloor (h : (st.draftEntry key tempId).isSome) : tempId < st.tempIdFloor key := by
  obtain ⟨d, hd⟩ := isSome_iff_exists.mp h
  rw [← findDraft_load] at hd
  have := (foldl_max_le (st.load key) 1).2 d (findDraft_mem hd)
  rwa [findDraft_localId hd] at this

/-- The counter is at least the one before and above every stored id. -/
structure Pins (st st' : InMemoryStore) (key : RemoteReviewIdentity) (next : TempId) : Prop where
  row : st'.tempCounters.lookup key = some ⟨key, next⟩
  counter : ∀ c, st.tempCounters.lookup key = some c → c.nextId ≤ next
  rows : ∀ t, (st.draftEntry key t).isSome → t < next

theorem retainTempIdFloor_pins (st : InMemoryStore) (key : RemoteReviewIdentity) :
    ∃ next, st.Pins (st.retainTempIdFloor key) key next := by
  unfold retainTempIdFloor
  split
  · next c hc =>
    refine ⟨max c.nextId (st.tempIdFloor key), ?_, ?_, ?_⟩
    · rw [Keyed.lookup_put, if_pos rfl]
    · intro c' hc'
      rw [hc, some.injEq] at hc'
      subst hc'
      exact Nat.le_max_left _ _
    · intro t ht
      exact Nat.lt_of_lt_of_le (lt_tempIdFloor ht) (Nat.le_max_right _ _)
  · next hnone =>
    refine ⟨st.tempIdFloor key, ?_, ?_, fun t ht => lt_tempIdFloor ht⟩
    · rw [Keyed.lookup_put, if_pos rfl]
    · rw [hnone]
      rintro c ⟨⟩

variable {key' : RemoteReviewIdentity}

theorem retainTempIdFloor_other (h : key ≠ key') :
    (st.retainTempIdFloor key').tempCounters.lookup key = st.tempCounters.lookup key := by
  unfold retainTempIdFloor
  split <;> rw [Keyed.lookup_put, if_neg h]

/-- A reservation returns the counter, or the floor when there is none, and leaves the id after. -/
theorem reserveTempId_cases (st : InMemoryStore) (key : RemoteReviewIdentity) :
    (st.reserveTempId key).2.tempCounters.lookup key = some ⟨key, (st.reserveTempId key).1 + 1⟩ ∧
      ((∃ c, st.tempCounters.lookup key = some c ∧ (st.reserveTempId key).1 = c.nextId) ∨
        (st.tempCounters.lookup key = none ∧ (st.reserveTempId key).1 = st.tempIdFloor key)) := by
  unfold reserveTempId
  split
  · next c hc => exact ⟨by rw [Keyed.lookup_put, if_pos rfl], .inl ⟨c, hc, rfl⟩⟩
  · next hnone => exact ⟨by rw [Keyed.lookup_put, if_pos rfl], .inr ⟨hnone, rfl⟩⟩

theorem reserveTempId_other (h : key ≠ key') :
    (st.reserveTempId key').2.tempCounters.lookup key = st.tempCounters.lookup key := by
  unfold reserveTempId
  split <;> rw [Keyed.lookup_put, if_neg h]

variable {incoming : Draft}

theorem draftEntry_put {stored : Option Parent} (h : st.put key' incoming = (.ok stored, st'))
    (t : TempId) :
    (st'.draftEntry key t).isSome =
      (decide (key = key' ∧ t = incoming.localId) || (st.draftEntry key t).isSome) := by
  obtain ⟨-, -, rfl⟩ := put_ok h
  rw [draftEntry_putRow]
  by_cases hrow : key = key' ∧ t = incoming.localId
  · simp [hrow]
  · rw [if_neg hrow, decide_eq_false hrow, Bool.false_or]

theorem Deleted.rows_le {deletion : DraftSubtreeDelete} (h : st.Deleted key' deletion st')
    (ht : (st'.draftEntry key tempId).isSome) : (st.draftEntry key tempId).isSome := by
  rw [h.rows] at ht
  split at ht
  · cases ht
  · exact ht

theorem draftEntry_clean {removed : List PostedDraft}
    (h : st'.entries = removed.foldl removePosted st.entries) :
    (st'.draftEntry key tempId).isSome =
      (decide ((key, tempId) ∉ removed.map (fun r => (r.key, r.tempId))) &&
        (st.draftEntry key tempId).isSome) := by
  rw [draftEntry, h, lookup_foldl_removePosted, draftEntry]
  split
  · next hin => simp [hin]
  · next hout => simp [hout]

variable {run : ActiveSubmissionRun} {rows : List Entry}

theorem mem_removals {r : PostedDraft} (h : r ∈ removals run rows) : r.key = run.key ∧
      ∃ e ∈ rows, e.id = (r.key, r.tempId) ∧ e.draft.state = .posted r.commentId := by
  obtain ⟨e, he, hr⟩ := mem_filterMap.mp h
  obtain ⟨id, hid, rfl⟩ := map_eq_some_iff.mp hr
  unfold isRemoved at hid
  split at hid
  · next hown =>
    split at hid
    · next hstate =>
      cases hid
      exact ⟨hown.1, e, he, rfl, hstate⟩
    · cases hid
  · cases hid

theorem clean_other (h : key ≠ run.key) :
    (key, tempId) ∉ (removals run rows).map (fun r => (r.key, r.tempId)) := by
  intro hin
  obtain ⟨r, hr, heq⟩ := mem_map.mp hin
  exact h ((Prod.mk.inj heq).1.symm.trans (mem_removals hr).1)

/-- The counter is above every id in use; while there is none, the ids in use are those of the rows
and none is reserved. -/
structure IdBound (st : InMemoryStore) (pre : List StoreOp) (key : RemoteReviewIdentity) : Prop where
  counted : ∀ c, (st.after pre).tempCounters.lookup key = some c →
    ∀ t, st.EverStored pre key t ∨ st.Reserved pre key t → t < c.nextId
  stored : (st.after pre).tempCounters.lookup key = none →
    ∀ t, st.EverStored pre key t → ((st.after pre).draftEntry key t).isSome
  unreserved : (st.after pre).tempCounters.lookup key = none → ∀ t, ¬ st.Reserved pre key t

theorem IdBound.start (hcounter : st.tempCounters.lookup key = none) : st.IdBound [] key where
  counted := by
    intro c hc
    rw [after_nil, hcounter] at hc
    cases hc
  stored := by
    rintro - t ⟨earlier, hearlier, hrow⟩
    rw [prefix_nil.mp hearlier] at hrow
    exact hrow
  unreserved := by
    rintro - t ⟨earlier, hearlier, -⟩
    simpa using prefix_nil.mp hearlier

section

variable (h : st.IdBound pre key)
include h

/-- A reservation after the history returns an id that is not in use. -/
theorem IdBound.fresh {t : TempId} (ht : st.EverStored pre key t ∨ st.Reserved pre key t) :
    t < st.reservedAfter pre key := by
  obtain ⟨-, ⟨c, hc, hid⟩ | ⟨hnone, hid⟩⟩ := (st.after pre).reserveTempId_cases key
  · rw [reservedAfter, hid]
    exact h.counted c hc t ht
  rw [reservedAfter, hid]
  rcases ht with ht | ht
  · exact lt_tempIdFloor (h.stored hnone t ht)
  · exact absurd ht (h.unreserved hnone t)

theorem IdBound.kept (hop : op ≠ .reserveTempId key)
    (hcounter : ((st.after pre).apply op).tempCounters.lookup key =
      (st.after pre).tempCounters.lookup key)
    (hkept : ∀ t, ((st.after pre).draftEntry key t).isSome →
      (((st.after pre).apply op).draftEntry key t).isSome)
    (hadded : ∀ t, (((st.after pre).apply op).draftEntry key t).isSome →
      ((st.after pre).draftEntry key t).isSome ∨ st.Reserved pre key t) :
    st.IdBound (pre ++ [op]) key where
  counted := by
    intro c hc t ht
    rw [after_snoc, hcounter] at hc
    apply h.counted c hc t
    rw [everStored_snoc, reserved_snoc] at ht
    rcases ht with (ht | ht) | (ht | ht)
    · exact .inl ht
    · exact (hadded t ht).imp everStored_now id
    · exact .inr ht
    · exact absurd ht.1 hop
  stored := by
    intro hnone t ht
    rw [after_snoc, hcounter] at hnone
    rw [after_snoc]
    rcases everStored_snoc.mp ht with ht | ht
    · exact hkept t (h.stored hnone t ht)
    · exact ht
  unreserved := by
    intro hnone t ht
    rw [after_snoc, hcounter] at hnone
    rcases reserved_snoc.mp ht with ht | ht
    · exact h.unreserved hnone t ht
    · exact absurd ht.1 hop

/-- An operation that raises the counter above every id in use and adds no row. -/
theorem IdBound.pinned (next : TempId) (hop : op ≠ .reserveTempId key)
    (hpins : (st.after pre).Pins ((st.after pre).apply op) key next)
    (hrows : ∀ t, (((st.after pre).apply op).draftEntry key t).isSome →
      ((st.after pre).draftEntry key t).isSome) : st.IdBound (pre ++ [op]) key where
  counted := by
    intro c hc t ht
    rw [after_snoc, hpins.row, some.injEq] at hc
    subst hc
    have hold : st.EverStored pre key t ∨ st.Reserved pre key t := by
      rw [everStored_snoc, reserved_snoc] at ht
      rcases ht with (ht | ht) | (ht | ht)
      · exact .inl ht
      · exact .inl (everStored_now (hrows t ht))
      · exact .inr ht
      · exact absurd ht.1 hop
    cases hc : (st.after pre).tempCounters.lookup key with
    | some c => exact Nat.lt_of_lt_of_le (h.counted c hc t hold) (hpins.counter c hc)
    | none =>
      rcases hold with hold | hold
      · exact hpins.rows t (h.stored hc t hold)
      · exact absurd hold (h.unreserved hc t)
  stored := by
    intro hnone
    rw [after_snoc, hpins.row] at hnone
    cases hnone
  unreserved := by
    intro hnone
    rw [after_snoc, hpins.row] at hnone
    cases hnone

theorem IdBound.reserved : st.IdBound (pre ++ [.reserveTempId key]) key := by
  have hrow : (st.after (pre ++ [.reserveTempId key])).tempCounters.lookup key =
      some ⟨key, st.reservedAfter pre key + 1⟩ := by
    rw [after_snoc]
    exact ((st.after pre).reserveTempId_cases key).1
  have hsame : ((st.after pre).apply (.reserveTempId key)).draftEntry = (st.after pre).draftEntry :=
    draftEntry_mk_entries _ _ (reserveTempId_entries (st.after pre) key)
  refine ⟨?_, ?_, ?_⟩
  · intro c hc t ht
    rw [hrow, some.injEq] at hc
    subst hc
    rw [everStored_snoc, reserved_snoc, hsame] at ht
    rcases ht with (ht | ht) | (ht | ⟨-, rfl⟩)
    · exact Nat.lt_succ_of_lt (h.fresh (.inl ht))
    · exact Nat.lt_succ_of_lt (h.fresh (.inl (everStored_now ht)))
    · exact Nat.lt_succ_of_lt (h.fresh (.inr ht))
    · exact Nat.lt_succ_self _
  · rw [hrow]
    intro hnone
    cases hnone
  · rw [hrow]
    intro hnone
    cases hnone

theorem IdBound.step (hauth : st.Authored (pre ++ [op]) key) : st.IdBound (pre ++ [op]) key := by
  generalize hs' : (st.after pre).apply op = s'
  have heffect := (st.after pre).apply_effect op
  rw [hs'] at heffect
  cases heffect with
  | same hop hrows hids =>
    refine h.kept (hop key) (by rw [hs', hids.1]) ?_ ?_
    · intro t ht
      rw [hs', hrows.isSome]
      exact ht
    · intro t ht
      rw [hs', hrows.isSome] at ht
      exact .inl ht
  | @put key' incoming stored _ hput =>
    refine h.kept (by simp) ?_ ?_ ?_
    · obtain ⟨-, -, hput'⟩ := put_ok hput
      rw [hs', hput']
    · intro t ht
      rw [hs', draftEntry_put hput, ht, Bool.or_true]
    intro t ht
    rw [hs', draftEntry_put hput, Bool.or_eq_true, decide_eq_true_eq] at ht
    rcases ht with ⟨rfl, rfl⟩ | ht
    · exact (hauth pre incoming prefix_rfl).imp id And.left
    · exact .inl ht
  | @delete key' deletion _ hdeleted =>
    have hcounters : s'.tempCounters = ((st.after pre).retainTempIdFloor key').tempCounters := by
      rw [hdeleted.result]
    by_cases hkey : key = key'
    · subst hkey
      obtain ⟨next, hpins⟩ := (st.after pre).retainTempIdFloor_pins key
      refine h.pinned next (by simp) ?_ ?_
      · rw [hs']
        exact ⟨by rw [hcounters]; exact hpins.row, hpins.counter, hpins.rows⟩
      · intro t ht
        rw [hs'] at ht
        exact hdeleted.rows_le ht
    · have hsame : ∀ t, s'.draftEntry key t = (st.after pre).draftEntry key t := by
        intro t
        rw [hdeleted.rows, if_neg (fun hand => hkey hand.1)]
      refine h.kept (by simp) ?_ ?_ ?_
      · rw [hs', hcounters, retainTempIdFloor_other hkey]
      · intro t ht
        rw [hs', hsame]
        exact ht
      · intro t ht
        rw [hs', hsame] at ht
        exact .inl ht
  | @clean operationId key' run _ hrun hclean hids =>
    have hrows : ∀ t, (s'.draftEntry key t).isSome → ((st.after pre).draftEntry key t).isSome := by
      intro t ht
      rw [draftEntry_clean hclean.2.2, Bool.and_eq_true] at ht
      exact ht.2
    by_cases hkey : key = key'
    · subst hkey
      obtain ⟨next, hpins⟩ := (st.after pre).retainTempIdFloor_pins key
      refine h.pinned next (by simp) ?_ ?_
      · rw [hs']
        exact ⟨by rw [hids.1]; exact hpins.row, hpins.counter, hpins.rows⟩
      · intro t ht
        rw [hs'] at ht
        exact hrows t ht
    · refine h.kept (by simp) ?_ ?_ ?_
      · rw [hs', hids.1, retainTempIdFloor_other hkey]
      · intro t ht
        rw [hs', draftEntry_clean hclean.2.2, ht, Bool.and_true, decide_eq_true_eq]
        exact clean_other (by rw [hrun.key]; exact hkey)
      · intro t ht
        rw [hs'] at ht
        exact .inl (hrows t ht)
  | @reserve key' =>
    by_cases hkey : key = key'
    · subst hkey
      exact h.reserved
    have hsame : ((st.after pre).apply (.reserveTempId key')).draftEntry = (st.after pre).draftEntry :=
      draftEntry_mk_entries _ _ (reserveTempId_entries (st.after pre) key')
    refine h.kept (by simpa using fun he => hkey he.symm) (reserveTempId_other hkey) ?_ ?_
    · intro t ht
      rw [hsame]
      exact ht
    · intro t ht
      rw [hsame] at ht
      exact .inl ht

end

theorem idBound (hcounter : st.tempCounters.lookup key = none) (hauth : st.Authored ops key) :
    st.IdBound ops key := by
  induction ops using reverseRecOn with
  | nil => exact .start hcounter
  | append_singleton pre op ih =>
    exact (ih (hauth.earlier (prefix_append pre [op]))).step hauth

theorem Authored.nil (st : InMemoryStore) (key : RemoteReviewIdentity) : st.Authored [] key := by
  intro pre incoming h
  simpa using prefix_nil.mp h

theorem Authored.snoc (h : st.Authored pre key) (hop : ∀ incoming, op = .put key incoming →
    ((st.after pre).draftEntry key incoming.localId).isSome ∨
      (st.Reserved pre key incoming.localId ∧ ¬ st.EverStored pre key incoming.localId)) :
    st.Authored (pre ++ [op]) key := by
  intro earlier incoming hearlier
  rcases prefix_concat_iff.mp hearlier with heq | hearlier
  · obtain ⟨rfl, hcons⟩ := append_inj' heq rfl
    exact hop incoming (cons.inj hcons).1.symm
  · exact h earlier incoming hearlier

theorem Authored.other (h : st.Authored pre key) (op : StoreOp)
    (hop : ∀ incoming, op ≠ .put key incoming) : st.Authored (pre ++ [op]) key :=
  h.snoc (fun incoming heq => absurd heq (hop incoming))

theorem Authored.author (hcounter : st.tempCounters.lookup key = none) (h : st.Authored pre key)
    (hid : incoming.localId = st.reservedAfter pre key) :
    st.Authored (pre ++ [.reserveTempId key] ++ [.put key incoming]) key := by
  refine (h.other (.reserveTempId key) (by simp)).snoc ?_
  rintro _ ⟨⟩
  rw [hid]
  refine .inr ⟨⟨pre, prefix_rfl, rfl⟩, ?_⟩
  rw [everStored_snoc]
  have hfresh : ¬ st.EverStored pre key (st.reservedAfter pre key) :=
    fun hstored => absurd ((idBound hcounter h).fresh (.inl hstored)) (Nat.lt_irrefl _)
  rintro (hstored | hrow)
  · exact hfresh hstored
  · rw [apply, perform, draftEntry_mk_entries _ _ (reserveTempId_entries (st.after pre) key)] at hrow
    exact hfresh (everStored_now hrow)

theorem gone_step (hauth : st.Authored (pre ++ [op]) key) (hstored : st.EverStored pre key tempId)
    (hgone : (st.after pre).draftEntry key tempId = none) :
    (st.after (pre ++ [op])).draftEntry key tempId = none := by
  have hgone' : ((st.after pre).draftEntry key tempId).isSome = false := by rw [hgone]; rfl
  rw [after_snoc, ← not_isSome_iff_eq_none, Bool.not_eq_true]
  generalize hs' : (st.after pre).apply op = s'
  have heffect := (st.after pre).apply_effect op
  rw [hs'] at heffect
  cases heffect with
  | same _ hrows _ => rw [hrows.isSome, hgone']
  | @put key' incoming stored _ hput =>
    rw [draftEntry_put hput, hgone', Bool.or_false, decide_eq_false_iff_not]
    rintro ⟨rfl, rfl⟩
    rcases hauth pre incoming prefix_rfl with hrow | ⟨-, hnever⟩
    · rw [hgone'] at hrow
      cases hrow
    · exact hnever hstored
  | delete hdeleted =>
    rw [Bool.eq_false_iff]
    intro hrow
    have := hdeleted.rows_le hrow
    rw [hgone'] at this
    cases this
  | clean _ hclean _ => rw [draftEntry_clean hclean.2.2, hgone', Bool.and_false]
  | reserve => rw [draftEntry_mk_entries _ _ (reserveTempId_entries (st.after pre) _), hgone']

theorem gone_stays (hauth : st.Authored ops key) (hpre : pre <+: ops)
    (hstored : st.EverStored pre key tempId)
    (hgone : (st.after pre).draftEntry key tempId = none) :
    (st.after ops).draftEntry key tempId = none := by
  obtain ⟨rest, rfl⟩ := hpre
  induction rest using reverseRecOn with
  | nil => rwa [append_nil]
  | append_singleton rest op ih =>
    rw [← append_assoc] at hauth ⊢
    have hprefix : pre ++ rest <+: pre ++ rest ++ [op] := prefix_append _ _
    obtain ⟨earlier, hearlier, hrow⟩ := hstored
    exact gone_step hauth ⟨earlier, hearlier.trans (prefix_append pre rest), hrow⟩
      (ih (hauth.earlier hprefix))

variable {id : CommentId}

theorem RemovedAs.mono (h : st.RemovedAs pre key tempId id) (hpre : pre <+: ops) :
    st.RemovedAs ops key tempId id := by
  obtain ⟨earlier, operationId, hearlier, hbefore, hafter⟩ := h
  exact ⟨earlier, operationId, hearlier.trans hpre, hbefore, hafter⟩

theorem RemovedAs.unique {id' : CommentId} (hauth : st.Authored ops key)
    (h : st.RemovedAs ops key tempId id) (h' : st.RemovedAs ops key tempId id') : id = id' := by
  -- After the earlier removal the Draft is gone, so the later one cannot find it.
  have hlater : ∀ {l₁ l₂ : List StoreOp} {op₁ : StoreOp} {d₁ d₂ : Draft}, l₁ ++ [op₁] <+: l₂ →
      l₂ <+: ops → (st.after l₁).draftEntry key tempId = some d₁ →
      (st.after (l₁ ++ [op₁])).draftEntry key tempId = none →
      (st.after l₂).draftEntry key tempId = some d₂ → False := by
    intro l₁ l₂ op₁ d₁ d₂ hl hl₂ h₁ hgone h₂
    have hstored : st.EverStored (l₁ ++ [op₁]) key tempId :=
      ⟨l₁, prefix_append l₁ [op₁], by rw [h₁]; rfl⟩
    rw [gone_stays (hauth.earlier hl₂) hl hstored hgone] at h₂
    cases h₂
  obtain ⟨l₁, o₁, hl₁, ⟨d₁, hd₁, hs₁⟩, hg₁⟩ := h
  obtain ⟨l₂, o₂, hl₂, ⟨d₂, hd₂, hs₂⟩, hg₂⟩ := h'
  have hl₁' := (prefix_append l₁ _).trans hl₁
  have hl₂' := (prefix_append l₂ _).trans hl₂
  rcases Nat.lt_trichotomy l₁.length l₂.length with hlt | heq | hlt
  · have hpre : l₁ ++ [.completeSubmission o₁ key .clean] <+: l₂ :=
      prefix_of_prefix_length_le hl₁ hl₂' (by rw [length_append]; exact hlt)
    exact (hlater hpre hl₂' hd₁ hg₁ hd₂).elim
  · obtain rfl : l₁ = l₂ := (prefix_of_prefix_length_le hl₁' hl₂' (Nat.le_of_eq heq)).eq_of_length heq
    rw [hd₁, some.injEq] at hd₂
    subst hd₂
    rw [hs₁] at hs₂
    exact DraftState.posted.inj hs₂
  · have hpre : l₂ ++ [.completeSubmission o₂ key .clean] <+: l₁ :=
      prefix_of_prefix_length_le hl₂ hl₁' (by rw [length_append]; exact hlt)
    exact (hlater hpre hl₁' hd₂ hg₂ hd₁).elim

theorem recorded (hposted : ∀ r ∈ st.postedDrafts, r.key ≠ key) (ops : List StoreOp) :
    ∀ r ∈ (st.after ops).postedDrafts, r.key = key → st.RemovedAs ops key r.tempId r.commentId := by
  induction ops using reverseRecOn with
  | nil => exact fun r hr hkey => absurd hkey (hposted r hr)
  | append_singleton pre op ih =>
    have hold : ∀ r ∈ (st.after pre).postedDrafts, r.key = key →
        st.RemovedAs (pre ++ [op]) key r.tempId r.commentId :=
      fun r hr hkey => (ih r hr hkey).mono (prefix_append pre [op])
    rw [after_snoc]
    generalize hs' : (st.after pre).apply op = s'
    have heffect := (st.after pre).apply_effect op
    rw [hs'] at heffect
    cases heffect with
    | same _ _ hids => rwa [hids.2]
    | put hput =>
      obtain ⟨-, -, rfl⟩ := put_ok hput
      exact hold
    | @delete key' deletion _ hdeleted =>
      have hsame : s'.postedDrafts = (st.after pre).postedDrafts := by
        rw [hdeleted.result]
        unfold retainTempIdFloor
        split <;> rfl
      rwa [hsame]
    | @clean operationId key' run _ hrun hclean hids =>
      rw [hids.2]
      intro r hr hkey
      rcases mem_append.mp hr with hr | hr
      · exact hold r hr hkey
      obtain ⟨hrkey, e, he, hid, hstate⟩ := mem_removals hr
      have hkeys : key' = key := hrun.key.symm.trans (hrkey.symm.trans hkey)
      subst hkeys
      have hlookup := Keyed.lookup_of_mem he
      rw [hid, hkey] at hlookup
      refine ⟨pre, operationId, prefix_rfl, ⟨e.draft, ?_, hstate⟩, ?_⟩
      · rw [draftEntry, hlookup, map_some]
      rw [after_snoc, hs', ← not_isSome_iff_eq_none, draftEntry_clean hclean.2.2,
        Bool.and_eq_true, decide_eq_true_eq]
      rintro ⟨hout, -⟩
      apply hout
      rw [← hkey]
      exact mem_map_of_mem hr
    | @reserve key' =>
      have hsame : ((st.after pre).reserveTempId key').2.postedDrafts =
          (st.after pre).postedDrafts := by
        unfold reserveTempId
        split <;> rfl
      rwa [hsame]

variable {p : TempId}

theorem postedComment_mem (h : st.postedComment key p = some id) : ⟨key, p, id⟩ ∈ st.postedDrafts := by
  obtain ⟨r, hr, rfl⟩ := map_eq_some_iff.mp h
  have hids : r.key = key ∧ r.tempId = p := by simpa using find?_some hr
  obtain ⟨rfl, rfl⟩ := hids
  exact mem_of_find?_eq_some hr

/-- A Reply to a Draft that is not stored is put under the Comment on record, or refused. -/
theorem put_reply_gone (hp : incoming.parent = some (.draft p)) (hgone : st.draftEntry key p = none) :
    (∃ id, (st.put key incoming).1 = .ok (some (.comment id)) ∧
      ⟨key, p, id⟩ ∈ st.postedDrafts) ∨ ∃ err, (st.put key incoming).1 = .error err := by
  rcases hput : st.put key incoming with ⟨err | stored, st'⟩
  · exact .inr ⟨err, rfl⟩
  obtain ⟨-, hparent, -⟩ := put_ok hput
  rw [hp] at hparent
  simp only [putParent, hgone, isSome_none, Bool.false_eq_true, if_false] at hparent
  split at hparent
  · next id hid =>
    cases hparent
    exact .inl ⟨id, rfl, postedComment_mem hid⟩
  · cases hparent

/-- In every history that authors its Drafts, over rows with no counter: a reservation returns an
id that no reservation has returned and no Draft has been stored under, and a Reply to a removed
Draft goes to the Comment on record for that Draft or is refused. -/
theorem tempIds_never_reused (hcounter : st.tempCounters.lookup key = none)
    (hposted : ∀ r ∈ st.postedDrafts, r.key ≠ key) (hauth : st.Authored ops key) :
    (∀ pre, (pre ++ [.reserveTempId key]) <+: ops →
      ¬ st.Reserved pre key (st.reservedAfter pre key) ∧
      ¬ st.EverStored pre key (st.reservedAfter pre key)) ∧
    (∀ pre incoming p, (pre ++ [.put key incoming]) <+: ops →
      incoming.parent = some (.draft p) → st.EverStored pre key p →
      (st.after pre).draftEntry key p = none →
      (∃ id, ((st.after pre).put key incoming).1 = .ok (some (.comment id)) ∧
        st.RemovedAs pre key p id ∧ ∀ id', st.RemovedAs pre key p id' → id' = id) ∨
      ∃ err, ((st.after pre).put key incoming).1 = .error err) := by
  constructor
  · intro pre hpre
    have hauth' := hauth.earlier ((prefix_append pre _).trans hpre)
    have hbound := idBound hcounter hauth'
    exact ⟨fun h => absurd (hbound.fresh (.inr h)) (Nat.lt_irrefl _),
      fun h => absurd (hbound.fresh (.inl h)) (Nat.lt_irrefl _)⟩
  · intro pre incoming p hpre hp _ hgone
    have hauth' := hauth.earlier ((prefix_append pre _).trans hpre)
    rcases put_reply_gone hp hgone with ⟨id, hput, hrecord⟩ | hrefused
    · have hremoved := recorded hposted pre _ hrecord rfl
      exact .inl ⟨id, hput, hremoved, fun id' h' => h'.unique hauth' hremoved⟩
    · exact .inr hrefused

/-- A Draft is authored, published and removed; a Reply to it is authored meanwhile. -/
def removedParent : List StoreOp :=
  [.reserveTempId ⟨[], [], 7⟩, .put ⟨[], [], 7⟩ { localId := 1 },
    .beginSubmission ⟨[], [], 7⟩ [] [⟨1, none⟩],
    .checkpointSubmission 1 ⟨[], [], 7⟩ 1 (.posted 70) none,
    .completeSubmission 1 ⟨[], [], 7⟩ .clean,
    .reserveTempId ⟨[], [], 7⟩, .put ⟨[], [], 7⟩ { localId := 2, parent := some (.draft 1) }]

theorem removedParent_authored : Authored {} removedParent ⟨[], [], 7⟩ := by
  have h₁ : Authored {} [.reserveTempId ⟨[], [], 7⟩, .put ⟨[], [], 7⟩ { localId := 1 }] ⟨[], [], 7⟩ :=
    Authored.author rfl (.nil {} ⟨[], [], 7⟩) rfl
  have h₂ := ((h₁.other (.beginSubmission ⟨[], [], 7⟩ [] [⟨1, none⟩]) (by simp)).other
    (.checkpointSubmission 1 ⟨[], [], 7⟩ 1 (.posted 70) none) (by simp)).other
    (.completeSubmission 1 ⟨[], [], 7⟩ .clean) (by simp)
  exact Authored.author rfl h₂ rfl

/-- The Reply goes to Comment 70, under an id that was not in use. -/
theorem tempIds_never_reused_removedParent :
    ¬ EverStored {} (removedParent.take 5) ⟨[], [], 7⟩ 2 ∧
    ((∃ id, ((({} : InMemoryStore).after (removedParent.take 6)).put ⟨[], [], 7⟩
        { localId := 2, parent := some (.draft 1) }).1 = .ok (some (.comment id)) ∧
      RemovedAs {} (removedParent.take 6) ⟨[], [], 7⟩ 1 id ∧
      ∀ id', RemovedAs {} (removedParent.take 6) ⟨[], [], 7⟩ 1 id' → id' = id) ∨
    ∃ err, ((({} : InMemoryStore).after (removedParent.take 6)).put ⟨[], [], 7⟩
      { localId := 2, parent := some (.draft 1) }).1 = .error err) := by
  have hcounter : ({} : InMemoryStore).tempCounters.lookup ⟨[], [], 7⟩ = none := rfl
  have h := tempIds_never_reused hcounter (by simp) removedParent_authored
  exact ⟨(h.1 (removedParent.take 5) ⟨removedParent.drop 6, rfl⟩).2,
    h.2 (removedParent.take 6) _ 1 ⟨[], rfl⟩ rfl ⟨removedParent.take 2, ⟨_, rfl⟩, rfl⟩ rfl⟩

end InMemoryStore

end Bbr.Review
