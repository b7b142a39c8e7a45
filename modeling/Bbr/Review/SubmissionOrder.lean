import Bbr.Lib.ParentFirst
import Bbr.Review.StoreReplies

/-!
# The submission order

The passes of `topologicalOrder` are the passes of a parent-first order over the TempIds. They come
to a standstill, and what they leave are the Drafts on or below a parent cycle.
-/
namespace Bbr.Review

open Bbr.Lib List

/-- The Draft parent of a Draft, when that Draft is present. -/
def presentParent (drafts : List Draft) (id : TempId) : Option TempId :=
  (draftParent drafts id).filter (fun pid => (findDraft drafts pid).isSome)

/-- The Draft sits on a parent cycle, or its chain of parents runs into one. -/
def OnOrBelowCycle (drafts : List Draft) (id : TempId) : Prop :=
  MeetsCycle (presentParent drafts) id

/-- What the `while (progress)` loop does: another pass as long as the last one made progress. -/
inductive PassesUntilStill (drafts : List Draft) : OrderState → OrderState → Prop where
  | still {s : OrderState} : s.progress = false → PassesUntilStill drafts s s
  | pass {s s' : OrderState} : s.progress = true → PassesUntilStill drafts (orderPass drafts s) s' →
    PassesUntilStill drafts s s'

variable {drafts : List Draft} {s s' : OrderState} {d : Draft} {id pid : TempId}

theorem presentParent_eq_some (hd : (drafts.map Draft.localId).Nodup) (h : d ∈ drafts) :
    presentParent drafts d.localId = some pid ↔
      d.parent = some (.draft pid) ∧ pid ∈ drafts.map Draft.localId := by
  have hparent : draftParent drafts d.localId = some pid ↔ d.parent = some (.draft pid) := by
    rw [draftParent_eq_some, findDraft_eq_of_mem hd h]
    simp
  unfold presentParent
  rw [Option.filter_eq_some_iff, hparent, findDraft_isSome]

theorem presentParent_mem (h : presentParent drafts id = some pid) :
    pid ∈ drafts.map Draft.localId := by
  unfold presentParent at h
  rw [Option.filter_eq_some_iff] at h
  exact findDraft_isSome.mp h.2

/-- The emitted positions are those whose TempId is in the order, and the order is parent-first. -/
structure Tracks (drafts : List Draft) (s : OrderState) : Prop where
  length : s.emitted.length = drafts.length
  emitted : ∀ entry ∈ drafts.zipIdx,
    s.emitted.getD entry.2 false = true ↔ entry.1.localId ∈ s.order
  nodup : s.order.Nodup
  present : ∀ id ∈ s.order, id ∈ drafts.map Draft.localId
  parentFirst : ParentFirst (presentParent drafts) s.order

section

variable (h : Tracks drafts s) (hd : (drafts.map Draft.localId).Nodup)
include h hd

theorem Tracks.parentReady (hm : d ∈ drafts) :
    parentReady drafts d s.emitted = ready (presentParent drafts) s.order d.localId := by
  rw [Bool.eq_iff_iff, ready_iff]
  unfold Review.parentReady
  rcases hp : d.parent with _ | (pid | cid)
  · simp [presentParent_eq_some hd hm, hp]
  · cases hi : drafts.findIdx? (fun other => other.localId == pid) with
    | none =>
      have habsent : pid ∉ drafts.map Draft.localId := by
        rw [findIdx?_eq_none_iff] at hi
        rintro hmem
        obtain ⟨other, ho, rfl⟩ := mem_map.mp hmem
        exact absurd (hi other ho) (by simp)
      simp only [hi, true_iff]
      intro b hb
      obtain ⟨he, hb⟩ := (presentParent_eq_some hd hm).mp hb
      rw [hp] at he
      cases he
      exact absurd hb habsent
    | some i =>
      obtain ⟨hlt, hid, -⟩ := findIdx?_eq_some_iff_getElem.mp hi
      have hid : drafts[i].localId = pid := by simpa using hid
      have hentry := h.emitted (drafts[i], i) (mem_zipIdx_iff_getElem?.mpr (getElem?_eq_getElem hlt))
      have hpresent : pid ∈ drafts.map Draft.localId := hid ▸ mem_map_of_mem (getElem_mem hlt)
      simp only [hi]
      rw [hentry, hid]
      constructor
      · intro hmem b hb
        obtain ⟨he, -⟩ := (presentParent_eq_some hd hm).mp hb
        rw [hp] at he
        cases he
        exact hmem
      · intro hall
        exact hall pid ((presentParent_eq_some hd hm).mpr ⟨hp, hpresent⟩)
  · simp [presentParent_eq_some hd hm, hp]

/-- One entry of a pass: the order is that of `admitOne`, and progress is told. -/
theorem Tracks.emitReady {entry : Draft × Nat} (hm : entry ∈ drafts.zipIdx) :
    Tracks drafts (emitReady drafts s entry) ∧ (Review.emitReady drafts s entry).order =
        admitOne (presentParent drafts) s.order entry.1.localId ∧
      ((Review.emitReady drafts s entry).progress = true ↔ s.progress = true ∨
        (Review.emitReady drafts s entry).order ≠ s.order) := by
  have hmem : entry.1 ∈ drafts := by
    obtain ⟨_, -, hget⟩ := mem_zipIdx hm
    rw [hget]
    exact getElem_mem _
  have hout := h.emitted entry hm
  have hready := h.parentReady hd hmem
  have hadmit := h.parentFirst.admitOne entry.1.localId
  have hnodup : (admitOne (presentParent drafts) s.order entry.1.localId).Nodup :=
    admitOne_nodup h.nodup entry.1.localId
  unfold Review.emitReady
  obtain ⟨he, hno⟩ | ⟨he, hnew, hr⟩ := admitOne_cases (presentParent drafts) s.order entry.1.localId
  · have hskip : (if s.emitted.getD entry.2 false then s
        else if Review.parentReady drafts entry.1 s.emitted then
          ⟨s.emitted.set entry.2 true, s.order ++ [entry.1.localId], true⟩
        else s) = s := by
      split
      · rfl
      rename_i ho
      obtain hin | hno := hno
      · exact absurd (hout.mpr hin) ho
      · rw [hready, hno, if_neg (by simp)]
    rw [hskip, he]
    exact ⟨h, rfl, by simp⟩
  · have ho : ¬ s.emitted.getD entry.2 false = true := fun ho => hnew (hout.mp ho)
    rw [if_neg ho, hready, hr, if_pos rfl, he]
    rw [he] at hadmit hnodup
    refine ⟨⟨by simpa using h.length, ?_, hnodup, ?_, hadmit⟩, rfl, by simp⟩
    · intro other hother
      have hlt : entry.2 < s.emitted.length := by
        have hlt := snd_lt_of_mem_zipIdx hm
        rw [h.length]
        omega
      have hsame : entry.2 = other.2 ↔ other.1.localId = entry.1.localId := by
        obtain ⟨a, i⟩ := entry
        rw [mem_zipIdx_iff_getElem?] at hm hother
        have hget {k : Nat} {c : Draft} (hk : drafts[k]? = some c) :
            (drafts.map Draft.localId)[k]? = some c.localId := by simp [hk]
        constructor
        · rintro rfl
          exact congrArg Draft.localId (Option.some.inj (hother.symm.trans hm))
        intro heq
        have hlt' : i < (drafts.map Draft.localId).length := (List.getElem?_eq_some_iff.mp (hget hm)).1
        exact (List.getElem?_inj hlt' hd).mp ((hget hm).trans (heq ▸ (hget hother).symm))
      by_cases heq : entry.2 = other.2
      · simp [heq ▸ hlt, hsame.mp heq, heq]
      have hne : ¬ other.1.localId = entry.1.localId := fun hid => heq (hsame.mpr hid)
      have hold := h.emitted other hother
      simp only [getD_eq_getElem?_getD] at hold
      simp [heq, hne, hold]
    · intro id hid
      obtain hid | hid := mem_append.mp hid
      · exact h.present id hid
      · rw [mem_singleton.mp hid]
        exact mem_map_of_mem hmem

theorem Tracks.foldl {entries : List (Draft × Nat)} (hm : ∀ entry ∈ entries, entry ∈ drafts.zipIdx) :
    Tracks drafts (entries.foldl (Review.emitReady drafts) s) ∧
      (entries.foldl (Review.emitReady drafts) s).order =
        admitAll (presentParent drafts) (entries.map (fun entry => entry.1.localId)) s.order ∧
      ((entries.foldl (Review.emitReady drafts) s).progress = true ↔ s.progress = true ∨
        (entries.foldl (Review.emitReady drafts) s).order ≠ s.order) := by
  induction entries generalizing s with
  | nil => exact ⟨h, rfl, by simp⟩
  | cons entry entries ih =>
    obtain ⟨h₁, ho₁, hp₁⟩ := h.emitReady hd (hm entry mem_cons_self)
    obtain ⟨h₂, ho₂, hp₂⟩ := ih h₁ (fun e he => hm e (mem_cons_of_mem _ he))
    refine ⟨h₂, by rw [foldl_cons, ho₂, ho₁]; rfl, ?_⟩
    have hpre₁ : s.order <+: (Review.emitReady drafts s entry).order := ho₁ ▸ admitOne_extends _ _ _
    have hpre₂ : (Review.emitReady drafts s entry).order <+:
        (entries.foldl (Review.emitReady drafts) (Review.emitReady drafts s entry)).order :=
      ho₂ ▸ admitAll_extends _ _ _
    rw [foldl_cons, hp₂, hp₁, or_assoc]
    apply or_congr_right
    constructor
    · rintro hne he
      obtain hne | hne := hne
      · exact hne (hpre₁.eq_of_length_le (he ▸ hpre₂.length_le)).symm
      · exact hne (hpre₂.eq_of_length_le (he ▸ hpre₁.length_le)).symm
    · intro hne
      by_cases he : (Review.emitReady drafts s entry).order = s.order
      · right
        rwa [he]
      · exact .inl he

end

theorem map_fst_zipIdx (drafts : List Draft) :
    drafts.zipIdx.map (fun entry => entry.1.localId) = drafts.map Draft.localId := by
  rw [← Function.comp_def Draft.localId Prod.fst, ← map_map, zipIdx_map_fst]

theorem Tracks.orderPass (h : Tracks drafts s) (hd : (drafts.map Draft.localId).Nodup) :
    Tracks drafts (orderPass drafts s) ∧ (Review.orderPass drafts s).order =
        admitAll (presentParent drafts) (drafts.map Draft.localId) s.order ∧
      ((Review.orderPass drafts s).progress = true ↔ (Review.orderPass drafts s).order ≠ s.order) := by
  have hreset : Tracks drafts { s with progress := false } :=
    ⟨h.length, h.emitted, h.nodup, h.present, h.parentFirst⟩
  have hfold := hreset.foldl hd (fun _ he => he)
  rw [map_fst_zipIdx] at hfold
  simpa [Review.orderPass] using hfold

theorem Tracks.length_le (h : Tracks drafts s) : s.order.length ≤ drafts.length := by
  have hle := (h.nodup.subperm h.present).length_le
  rwa [length_map] at hle

/-- Every pass but the last lengthens the order, which has room for every Draft once. -/
theorem Tracks.orderPasses (h : Tracks drafts s) (hd : (drafts.map Draft.localId).Nodup)
    (hp : s.progress = true) {passes : Nat} (hroom : drafts.length < passes + s.order.length) :
    PassesUntilStill drafts s (orderPasses drafts passes s) := by
  induction passes generalizing s with
  | zero =>
    have hle := h.length_le
    omega
  | succ passes ih =>
    obtain ⟨h₁, ho₁, hp₁⟩ := h.orderPass hd
    refine .pass hp ?_
    unfold Review.orderPasses
    dsimp only
    split
    · next hmore =>
      have hne := hp₁.mp hmore
      have hpre : s.order <+: (Review.orderPass drafts s).order := ho₁ ▸ admitAll_extends _ _ _
      have hlt : s.order.length < (Review.orderPass drafts s).order.length := by
        by_contra hge
        exact hne (hpre.eq_of_length_le (by omega)).symm
      exact ih h₁ hmore (by omega)
    · next hno => exact .still (by simpa using hno)

/-- Where the loop stands still: a pass would admitOne nothing, and the Drafts without a present Draft
parent are in the order as they were inserted. -/
structure Settled (drafts : List Draft) (s : OrderState) : Prop where
  tracks : Tracks drafts s
  still : admitAll (presentParent drafts) (drafts.map Draft.localId) s.order = s.order
  roots : s.order.filter (isRoot (presentParent drafts)) =
    (drafts.map Draft.localId).filter (isRoot (presentParent drafts))

theorem PassesUntilStill.settled (hd : (drafts.map Draft.localId).Nodup)
    (hrun : PassesUntilStill drafts s s') (h : Tracks drafts s)
    (hstill : s.progress = false →
      admitAll (presentParent drafts) (drafts.map Draft.localId) s.order = s.order)
    (hroots : s.order = [] ∧ s.progress = true ∨ s.order.filter (isRoot (presentParent drafts)) =
        (drafts.map Draft.localId).filter (isRoot (presentParent drafts))) :
    Settled drafts s' := by
  induction hrun with
  | still hno =>
    obtain ⟨-, hp⟩ | hroots := hroots
    · rw [hno] at hp
      cases hp
    · exact ⟨h, hstill hno, hroots⟩
  | @pass s s' hp hrest ih =>
    obtain ⟨h₁, ho₁, hp₁⟩ := h.orderPass hd
    apply ih h₁
    · intro hno
      have hsame : (Review.orderPass drafts s).order = s.order := by
        by_contra hne
        rw [hp₁.mpr hne] at hno
        cases hno
      rw [hsame, ← ho₁, hsame]
    · right
      rw [ho₁]
      obtain ⟨hnil, -⟩ | hroots := hroots
      · rw [hnil, filter_admitAll_new hd (fun _ _ => not_mem_nil)]
        rfl
      rw [filter_admitAll_old, hroots]
      intro a ha hroot
      have hin : a ∈ (drafts.map Draft.localId).filter (isRoot (presentParent drafts)) :=
        mem_filter.mpr ⟨ha, hroot⟩
      rw [← hroots] at hin
      exact (mem_filter.mp hin).1

/-- The state before the first pass. -/
def orderStart (drafts : List Draft) : OrderState := ⟨List.replicate drafts.length false, [], true⟩

theorem tracks_orderStart (drafts : List Draft) : Tracks drafts (orderStart drafts) := by
  constructor
  · simp [orderStart]
  · intro entry _
    simp only [orderStart, getD_eq_getElem?_getD, getElem?_replicate]
    split <;> simp
  · exact nodup_nil
  · simp [orderStart]
  · exact ParentFirst.nil _

theorem topologicalOrder_run (self : PendingReview) (hd : self.DistinctTempIds) :
    ∃ s, PassesUntilStill self.drafts (orderStart self.drafts) s ∧
      self.topologicalOrder = s.order ++ unemitted self.drafts s.emitted :=
  ⟨_, (tracks_orderStart self.drafts).orderPasses hd rfl (by simp [orderStart]), rfl⟩

theorem Tracks.unemitted (h : Tracks drafts s) : unemitted drafts s.emitted =
      (drafts.map Draft.localId).filter (fun id => decide (id ∉ s.order)) := by
  have hfilter : drafts.zipIdx.filter (fun entry => !s.emitted.getD entry.2 false) =
      drafts.zipIdx.filter ((fun id => decide (id ∉ s.order)) ∘ fun entry => entry.1.localId) := by
    apply filter_congr
    intro entry hentry
    have hiff := h.emitted entry hentry
    rw [Function.comp_apply, decide_not, Bool.not_inj_iff, Bool.eq_iff_iff, decide_eq_true_iff]
    exact hiff
  unfold Review.unemitted
  rw [hfilter, ← filter_map, map_fst_zipIdx]

/-- The order of a Submission: every TempId once, a Draft behind its present parent unless it sits on
or below a parent cycle, those that do behind all others as they were inserted, and the Drafts
without a present Draft parent as they were inserted. -/
structure StableParentFirst (drafts : List Draft) (order : List TempId) : Prop where
  nodup : order.Nodup
  complete : ∀ id, id ∈ order ↔ ∃ d ∈ drafts, d.localId = id
  parentFirst : ∀ d ∈ drafts, ∀ p ∈ drafts, d.parent = some (.draft p.localId) →
    ¬ OnOrBelowCycle drafts d.localId → order.idxOf p.localId < order.idxOf d.localId
  cyclicLast : ∃ first last, order = first ++ last ∧
    (∀ id ∈ first, ¬ OnOrBelowCycle drafts id) ∧ (∀ id ∈ last, OnOrBelowCycle drafts id) ∧
    last.Sublist (drafts.map Draft.localId)
  roots : order.filter (isRoot (presentParent drafts)) =
    (drafts.map Draft.localId).filter (isRoot (presentParent drafts))

theorem Settled.left_iff (h : Settled drafts s) (hid : id ∈ drafts.map Draft.localId) :
    id ∉ s.order ↔ OnOrBelowCycle drafts id :=
  left_iff_meetsCycle h.tracks.parentFirst h.still (fun _ _ => presentParent_mem) hid

theorem isRoot_of_cycle (h : OnOrBelowCycle drafts id) : isRoot (presentParent drafts) id = false := by
  obtain ⟨c, ⟨n, hn⟩, m, hm⟩ := h
  unfold isRoot
  cases hup : presentParent drafts id with
  | some p => rfl
  | none =>
    cases n with
    | zero =>
      obtain rfl := Option.some.inj hn
      simp [ascend, hup] at hm
    | succ n => simp [ascend, hup] at hn

/-- The order is found after finitely many passes and is a stable parent-first permutation. -/
theorem topologicalOrder_stable (self : PendingReview) (hd : self.DistinctTempIds) :
    (∃ s, PassesUntilStill self.drafts (orderStart self.drafts) s ∧
      self.topologicalOrder = s.order ++ unemitted self.drafts s.emitted) ∧
      StableParentFirst self.drafts self.topologicalOrder := by
  obtain ⟨s, hrun, horder⟩ := topologicalOrder_run self hd
  refine ⟨⟨s, hrun, horder⟩, ?_⟩
  have hset : Settled self.drafts s :=
    hrun.settled hd (tracks_orderStart _) (fun h => absurd h (by simp [orderStart]))
      (.inl ⟨rfl, rfl⟩)
  have hlast : ∀ id ∈ unemitted self.drafts s.emitted, OnOrBelowCycle self.drafts id := by
    intro id hid
    rw [hset.tracks.unemitted, mem_filter] at hid
    exact (hset.left_iff hid.1).mp (by simpa using hid.2)
  have hfirst : ∀ id ∈ s.order, ¬ OnOrBelowCycle self.drafts id := by
    intro id hid hc
    exact (hset.left_iff (hset.tracks.present id hid)).mpr hc hid
  constructor
  · exact self.topologicalOrder_nodup hd
  · intro id
    rw [self.topologicalOrder_perm.mem_iff, mem_map]
  · intro d hdm p hpm hparent hno
    have hdo : d.localId ∈ s.order := by
      by_contra hd'
      exact hno ((hset.left_iff (mem_map_of_mem hdm)).mp hd')
    have hup : presentParent self.drafts d.localId = some p.localId :=
      (presentParent_eq_some hd hdm).mpr ⟨hparent, mem_map_of_mem hpm⟩
    rw [horder]
    exact hset.tracks.parentFirst.append _ _ hdo _ hup
  · refine ⟨s.order, _, horder, hfirst, hlast, ?_⟩
    rw [hset.tracks.unemitted]
    exact filter_sublist
  · have hnone : (unemitted self.drafts s.emitted).filter (isRoot (presentParent self.drafts)) = [] := by
      rw [filter_eq_nil_iff]
      intro id hid
      simp [isRoot_of_cycle (hlast id hid)]
    rw [horder, filter_append, hnone, append_nil, hset.roots]

/-- Two Drafts that answer each other, and a Reply that was inserted before its parent. -/
theorem topologicalOrder_cycle :
    (({ drafts := [{ localId := 1, parent := some (.draft 2) }, { localId := 2, parent := some (.draft 1) },
      { localId := 3, parent := some (.draft 4) }, { localId := 4 }] } : PendingReview).topologicalOrder =
        [4, 3, 1, 2]) ∧
    StableParentFirst [{ localId := 1, parent := some (.draft 2) },
      { localId := 2, parent := some (.draft 1) }, { localId := 3, parent := some (.draft 4) },
      { localId := 4 }] [4, 3, 1, 2] := by
  refine ⟨by decide, ?_⟩
  have h := (topologicalOrder_stable { drafts := [{ localId := 1, parent := some (.draft 2) },
    { localId := 2, parent := some (.draft 1) }, { localId := 3, parent := some (.draft 4) },
    { localId := 4 }] } (by decide)).2
  exact h

end Bbr.Review
