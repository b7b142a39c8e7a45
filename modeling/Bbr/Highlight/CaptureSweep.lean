import Bbr.Highlight.Captures
import Mathlib.Data.List.Pairwise
import Mathlib.Data.List.Perm.Basic

/-!
# The sweep finds the winners

At every byte the winner is the covering interval that no other covering one precedes. The painting ends
with it and the pieces of the sweep carry it.
-/
namespace Bbr.Highlight

open List Option

/-- Intervals as they come from the matches of a query. -/
structure InMatchOrder (content : Bytes) (intervals : List CaptureInterval) : Prop where
  nonempty : ∀ i ∈ intervals, i.start < i.stop
  inside : ∀ i ∈ intervals, i.stop ≤ content.length
  order : intervals.Pairwise (fun a b => a.order < b.order)

def Covers (interval : CaptureInterval) (byte : Nat) : Prop :=
  interval.start ≤ byte ∧ byte < interval.stop

/-- A covering interval of the highest pattern, the latest of these. -/
structure Wins (intervals : List CaptureInterval) (byte : Nat) (w : CaptureInterval) : Prop where
  mem : w ∈ intervals
  covers : Covers w byte
  first : ∀ i ∈ intervals, Covers i byte → higherPrecedence i w = false

section Winners

variable {intervals cluster : List CaptureInterval} {byte : Nat} {a b c w : CaptureInterval}

theorem higherPrecedence_iff : higherPrecedence a b = true ↔
    b.patternIndex < a.patternIndex ∨ a.patternIndex = b.patternIndex ∧ b.order < a.order := by
  simp [higherPrecedence]

theorem higherPrecedence_self : higherPrecedence a a = false := by
  simp [higherPrecedence]

theorem not_higher_iff : higherPrecedence a b = false ↔
    a.patternIndex < b.patternIndex ∨ a.patternIndex = b.patternIndex ∧ a.order ≤ b.order := by
  rw [← Bool.not_eq_true, higherPrecedence_iff]
  omega

theorem not_higher_trans (hab : higherPrecedence a b = false) (hbc : higherPrecedence b c = false) :
    higherPrecedence a c = false := by
  rw [not_higher_iff] at *
  omega

theorem order_injective (h : intervals.Pairwise (fun a b => a.order < b.order)) (ha : a ∈ intervals)
    (hb : b ∈ intervals) (horder : a.order = b.order) : a = b := by
  induction intervals with
  | nil => cases ha
  | cons i intervals ih =>
    obtain ⟨hlater, hrest⟩ := pairwise_cons.mp h
    rcases mem_cons.mp ha with rfl | ha'
    · rcases mem_cons.mp hb with rfl | hb'
      · rfl
      · have hlt := hlater b hb'
        omega
    · rcases mem_cons.mp hb with rfl | hb'
      · have hlt := hlater a ha'
        omega
      · exact ih hrest ha' hb'

theorem Wins.unique (h : intervals.Pairwise (fun a b => a.order < b.order))
    (ha : Wins intervals byte a) (hb : Wins intervals byte b) : a = b := by
  have hab := ha.first b hb.mem hb.covers
  have hba := hb.first a ha.mem ha.covers
  rw [not_higher_iff] at hab hba
  exact order_injective h ha.mem hb.mem (by omega)

theorem Wins.of_cluster (h : Wins cluster byte w) (hsub : ∀ i ∈ cluster, i ∈ intervals)
    (hcover : ∀ i ∈ intervals, Covers i byte → i ∈ cluster) : Wins intervals byte w where
  mem := hsub w h.mem
  covers := h.covers
  first i hi hcovers := h.first i (hcover i hi hcovers) hcovers

/-- What a pass over some intervals leaves of the winner before it. -/
def Passed (before : Option CaptureInterval) (intervals : List CaptureInterval) (byte : Nat) :
    Option CaptureInterval → Prop
  | none => before = none ∧ ∀ i ∈ intervals, ¬Covers i byte
  | some w => (before = some w ∨ w ∈ intervals ∧ Covers w byte) ∧
      (∀ b ∈ before, higherPrecedence b w = false) ∧
        ∀ i ∈ intervals, Covers i byte → higherPrecedence i w = false

variable {before found : Option CaptureInterval}

theorem Passed.nil : Passed before [] byte before := by
  cases before with
  | none => exact ⟨rfl, by simp⟩
  | some w => exact ⟨.inl rfl, fun b hb => some.inj hb ▸ higherPrecedence_self, by simp⟩

theorem Passed.skip (hnot : ¬Covers a byte) (h : Passed before intervals byte found) :
    Passed before (a :: intervals) byte found := by
  cases found with
  | none => exact ⟨h.1, forall_mem_cons.mpr ⟨hnot, h.2⟩⟩
  | some w =>
    obtain ⟨hmem, hbefore, hall⟩ := h
    exact ⟨hmem.imp id (fun hw => ⟨mem_cons_of_mem _ hw.1, hw.2⟩), hbefore,
      forall_mem_cons.mpr ⟨fun hcovers => absurd hcovers hnot, hall⟩⟩

theorem Passed.take (hcovers : Covers a byte) (hbetter : ∀ b ∈ before, higherPrecedence b a = false)
    (h : Passed (some a) intervals byte found) : Passed before (a :: intervals) byte found := by
  cases found with
  | none => cases h.1
  | some w =>
    obtain ⟨hmem, hfirst, hall⟩ := h
    have haw := hfirst a rfl
    refine ⟨.inr ?_, fun b hb => not_higher_trans (hbetter b hb) haw,
      forall_mem_cons.mpr ⟨fun _ => haw, hall⟩⟩
    cases hmem with
    | inl heq => exact some.inj heq ▸ ⟨mem_cons_self, hcovers⟩
    | inr hw => exact ⟨mem_cons_of_mem _ hw.1, hw.2⟩

theorem Passed.keep (hworse : higherPrecedence a b = false)
    (h : Passed (some b) intervals byte found) : Passed (some b) (a :: intervals) byte found := by
  cases found with
  | none => cases h.1
  | some w =>
    obtain ⟨hmem, hfirst, hall⟩ := h
    exact ⟨hmem.imp id (fun hw => ⟨mem_cons_of_mem _ hw.1, hw.2⟩), hfirst,
      forall_mem_cons.mpr ⟨fun _ => not_higher_trans hworse (hfirst b rfl), hall⟩⟩

theorem Passed.wins (h : Passed none intervals byte (some w)) : Wins intervals byte w := by
  obtain ⟨hmem, -, hall⟩ := h
  cases hmem with
  | inl heq => cases heq
  | inr hw => exact ⟨hw.1, hw.2, hall⟩

section

variable (h : intervals.Pairwise (fun a b => a.order < b.order))
include h

theorem foldl_paint (hbefore : ∀ b ∈ before, ∀ i ∈ intervals, b.order < i.order) :
    Passed before intervals byte (intervals.foldl (paint byte) before) := by
  induction intervals generalizing before with
  | nil => exact .nil
  | cons i intervals ih =>
    obtain ⟨hlater, hrest⟩ := pairwise_cons.mp h
    have hnext := @ih before hrest (fun b hb j hj => hbefore b hb j (mem_cons_of_mem _ hj))
    rw [foldl_cons, paint]
    by_cases hcovers : Covers i byte
    · cases before with
      | none =>
        rw [if_pos ⟨hcovers, rfl⟩]
        exact .take hcovers (by simp) (ih hrest (fun b hb => some.inj hb ▸ hlater))
      | some b =>
        have horder := hbefore b rfl i mem_cons_self
        by_cases hpattern : b.patternIndex ≤ i.patternIndex
        · rw [if_pos ⟨hcovers, by simpa using hpattern⟩]
          refine .take hcovers (fun c hc => ?_) (ih hrest (fun c hc => some.inj hc ▸ hlater))
          rw [← some.inj hc, not_higher_iff]
          omega
        · rw [if_neg (fun hpaint => hpattern (by simpa using hpaint.2))]
          exact .keep (not_higher_iff.mpr (by omega)) hnext
    · rw [if_neg (fun hpaint => hcovers hpaint.1)]
      exact hnext.skip hcovers

theorem label_wins (hw : Wins intervals byte w) : label intervals byte = some w.captureId := by
  have hpassed : Passed none intervals byte (intervals.foldl (paint byte) none) :=
    foldl_paint h (by simp)
  rw [label]
  cases hfold : intervals.foldl (paint byte) none with
  | none =>
    rw [hfold] at hpassed
    exact absurd hw.covers (hpassed.2 w hw.mem)
  | some w' =>
    rw [hfold] at hpassed
    rw [hw.unique h hpassed.wins, map_some]

theorem wins_of_label {captureId : Nat} (hlabel : label intervals byte = some captureId) :
    ∃ w, Wins intervals byte w ∧ w.captureId = captureId := by
  have hpassed : Passed none intervals byte (intervals.foldl (paint byte) none) :=
    foldl_paint h (by simp)
  obtain ⟨w, hfold, hid⟩ := map_eq_some_iff.mp hlabel
  rw [hfold] at hpassed
  exact ⟨w, hpassed.wins, hid⟩

end

theorem label_none (h : ∀ i ∈ intervals, ¬Covers i byte) : label intervals byte = none := by
  have hfold : intervals.foldl (paint byte) none = none := by
    induction intervals with
    | nil => rfl
    | cons i intervals ih =>
      have hi : paint byte none i = none := if_neg (fun hpaint => h i mem_cons_self hpaint.1)
      rw [foldl_cons, hi]
      exact ih (fun j hj => h j (mem_cons_of_mem _ hj))
  rw [label, hfold, map_none]

end Winners

/-- From one place to another, the bytes of a piece have its capture and those between have none. -/
def Tells (labels : Nat → Option Nat) : Nat → List Piece → Nat → Prop
  | p, [], q => p ≤ q ∧ ∀ k, p ≤ k → k < q → labels k = none
  | p, piece :: pieces, q =>
    (p ≤ piece.start ∧ piece.start < piece.stop) ∧
      (∀ k, p ≤ k → k < piece.start → labels k = none) ∧
        (∀ k, piece.start ≤ k → k < piece.stop → labels k = some piece.captureId) ∧
          Tells labels piece.stop pieces q

section Tells

variable {labels : Nat → Option Nat} {pieces others : List Piece} {p q r : Nat}

theorem Tells.le (h : Tells labels p pieces q) : p ≤ q := by
  induction pieces generalizing p with
  | nil => exact h.1
  | cons piece pieces ih =>
    have hrest := ih h.2.2.2
    have hpiece := h.1
    omega

theorem Tells.before (hle : p ≤ q) (hnone : ∀ k, p ≤ k → k < q → labels k = none)
    (h : Tells labels q pieces r) : Tells labels p pieces r := by
  have hnone' : ∀ s, (∀ k, q ≤ k → k < s → labels k = none) → ∀ k, p ≤ k → k < s → labels k = none := by
    intro s hs k hk hlt
    by_cases hkq : k < q
    · exact hnone k hk hkq
    · exact hs k (by omega) hlt
  cases pieces with
  | nil => exact ⟨Nat.le_trans hle h.1, hnone' r h.2⟩
  | cons piece pieces =>
    exact ⟨⟨Nat.le_trans hle h.1.1, h.1.2⟩, hnone' piece.start h.2.1, h.2.2⟩

theorem Tells.append (h : Tells labels p pieces q) (hnext : Tells labels q others r) :
    Tells labels p (pieces ++ others) r := by
  induction pieces generalizing p with
  | nil => exact hnext.before h.1 h.2
  | cons piece pieces ih => exact ⟨h.1, h.2.1, h.2.2.1, ih h.2.2.2⟩

end Tells

section Sweep

variable {intervals cluster : List CaptureInterval} {position nextStart clusterEnd : Nat}

theorem pickWinner_next (cluster : List CaptureInterval) (winner : Option CaptureInterval)
    (hnext : position < nextStart) :
    position < (pickWinner position cluster winner nextStart).2 ∧
      (pickWinner position cluster winner nextStart).2 ≤ nextStart ∧ ∀ i ∈ cluster, position < i.start →
          (pickWinner position cluster winner nextStart).2 ≤ i.start := by
  induction cluster generalizing winner nextStart with
  | nil => exact ⟨hnext, Nat.le_refl _, by simp⟩
  | cons i cluster ih =>
    rw [pickWinner]
    split
    · next hlater =>
      obtain ⟨hpos, hle, hall⟩ := @ih (min nextStart i.start) winner (by omega)
      exact ⟨hpos, by omega, forall_mem_cons.mpr ⟨fun _ => by omega, hall⟩⟩
    · next hbegun =>
      split
      · obtain ⟨hpos, hle, hall⟩ := @ih nextStart (some i) hnext
        exact ⟨hpos, hle, forall_mem_cons.mpr ⟨fun h => absurd h hbegun, hall⟩⟩
      · obtain ⟨hpos, hle, hall⟩ := @ih nextStart winner hnext
        exact ⟨hpos, hle, forall_mem_cons.mpr ⟨fun h => absurd h hbegun, hall⟩⟩

theorem pickWinner_passed {winner : Option CaptureInterval} :
    Passed winner cluster position (pickWinner position cluster winner nextStart).1 := by
  induction cluster generalizing winner nextStart with
  | nil => exact .nil
  | cons i cluster ih =>
    rw [pickWinner]
    by_cases hlater : position < i.start
    · rw [if_pos hlater]
      exact ih.skip (fun hcovers => Nat.not_lt.mpr hcovers.1 hlater)
    rw [if_neg hlater]
    by_cases hcovers : position < i.stop
    · by_cases hbetter : winner.all (higherPrecedence i) = true
      · rw [if_pos ⟨hcovers, hbetter⟩]
        refine ih.take ⟨Nat.not_lt.mp hlater, hcovers⟩ (fun b hb => ?_)
        have hib : higherPrecedence i b = true := by
          cases hb
          exact hbetter
        rw [higherPrecedence_iff] at hib
        rw [not_higher_iff]
        omega
      · rw [if_neg (fun h => hbetter h.2)]
        cases winner with
        | none => exact absurd rfl hbetter
        | some b => exact ih.keep (by simpa using hbetter)
    · rw [if_neg (fun h => hcovers h.1)]
      exact ih.skip (fun h => hcovers h.2)

variable {w : CaptureInterval}

theorem pickWinner_wins (h : (pickWinner position cluster none nextStart).1 = some w) :
    Wins cluster position w :=
  Passed.wins (h ▸ pickWinner_passed)

theorem pickWinner_none (h : (pickWinner position cluster none nextStart).1 = none) :
    ∀ i ∈ cluster, ¬Covers i position := by
  have hpassed : Passed none cluster position (pickWinner position cluster none nextStart).1 :=
    pickWinner_passed
  rw [h] at hpassed
  exact hpassed.2

/-- Until it ends or another interval starts, the winner stays the winner. -/
theorem Wins.stays {k : Nat} (h : Wins cluster position w) (hk : position ≤ k)
    (hstop : k < w.stop) (hstarts : ∀ i ∈ cluster, position < i.start → k < i.start) :
    Wins cluster k w where
  mem := h.mem
  covers := ⟨Nat.le_trans h.covers.1 hk, hstop⟩
  first i hi hcovers := by
    refine h.first i hi ⟨?_, Nat.lt_of_le_of_lt hk hcovers.2⟩
    have hbegun := hcovers.1
    by_contra hlater
    have hlt := hstarts i hi (by omega)
    omega

variable {labels : Nat → Option Nat}

theorem sweepCluster_tells {fuel p : Nat} (hp : p ≤ position)
    (hfuel : clusterEnd - position ≤ fuel) (hle : position ≤ clusterEnd)
    (hwins : ∀ k w, p ≤ k → k < clusterEnd → Wins cluster k w → labels k = some w.captureId)
    (hnone : ∀ k, p ≤ k → k < clusterEnd → (∀ i ∈ cluster, ¬Covers i k) → labels k = none) :
    Tells labels position (sweepCluster cluster clusterEnd fuel position) clusterEnd := by
  induction fuel generalizing position with
  | zero => exact ⟨hle, fun k hk hlt => by omega⟩
  | succ fuel ih =>
    rw [sweepCluster]
    by_cases hlt : position < clusterEnd
    · obtain ⟨hpos, hend, hstarts⟩ := pickWinner_next cluster none hlt
      rw [if_pos hlt]
      dsimp only
      cases hpick : (pickWinner position cluster none clusterEnd).1 with
      | none =>
        have hempty := pickWinner_none hpick
        refine (ih (by omega) (by omega) hend).before (Nat.le_of_lt hpos) (fun k hk hltk => ?_)
        refine hnone k (by omega) (by omega) (fun i hi hcovers => hempty i hi ⟨?_, ?_⟩)
        · by_contra hlater
          have := hstarts i hi (by omega)
          have := hcovers.1
          omega
        · have := hcovers.2
          omega
      | some w =>
        have hw := pickWinner_wins hpick
        have hcovers := hw.covers.2
        have hnext := @ih (min w.stop (pickWinner position cluster none clusterEnd).2) (by omega)
          (by omega) (by omega)
        refine ⟨⟨Nat.le_refl _, by simp only; omega⟩, fun k hk hltk => by simp only at hltk; omega, ?_,
          hnext⟩
        intro k hk hltk
        simp only at hk hltk
        refine hwins k w (by omega) (by omega) (hw.stays hk (by omega) (fun i hi hlater => ?_))
        have := hstarts i hi hlater
        omega
    · rw [if_neg hlt]
      exact ⟨hle, fun k hk hltk => by omega⟩

theorem takeCluster_spec (clusterEnd : Nat) (h : intervals.Pairwise (fun a b => a.start ≤ b.start)) :
    (takeCluster clusterEnd intervals).1 ++ (takeCluster clusterEnd intervals).2.2 = intervals ∧
      clusterEnd ≤ (takeCluster clusterEnd intervals).2.1 ∧ (∀ i ∈ (takeCluster clusterEnd intervals).1,
          i.stop ≤ (takeCluster clusterEnd intervals).2.1) ∧
            ∀ i ∈ (takeCluster clusterEnd intervals).2.2,
              (takeCluster clusterEnd intervals).2.1 ≤ i.start := by
  induction intervals generalizing clusterEnd with
  | nil => simp [takeCluster]
  | cons i intervals ih =>
    obtain ⟨hlater, hrest⟩ := pairwise_cons.mp h
    rw [takeCluster]
    by_cases hlt : i.start < clusterEnd
    · rw [if_pos hlt]
      obtain ⟨happ, hend, hcluster, hbehind⟩ := ih (max clusterEnd i.stop) hrest
      exact ⟨congrArg (i :: ·) happ, Nat.le_trans (Nat.le_max_left _ _) hend,
        forall_mem_cons.mpr ⟨Nat.le_trans (Nat.le_max_right _ _) hend, hcluster⟩, hbehind⟩
    · rw [if_neg hlt]
      refine ⟨rfl, Nat.le_refl _, by simp, forall_mem_cons.mpr ⟨Nat.not_lt.mp hlt, ?_⟩⟩
      exact fun j hj => Nat.le_trans (Nat.not_lt.mp hlt) (hlater j hj)

theorem takeCluster_le {q : Nat} (hle : clusterEnd ≤ q) (h : ∀ i ∈ intervals, i.stop ≤ q) :
    (takeCluster clusterEnd intervals).2.1 ≤ q := by
  induction intervals generalizing clusterEnd with
  | nil => exact hle
  | cons i intervals ih =>
    obtain ⟨hi, hrest⟩ := forall_mem_cons.mp h
    rw [takeCluster]
    by_cases hlt : i.start < clusterEnd
    · rw [if_pos hlt]
      exact ih (Nat.max_le.mpr ⟨hle, hi⟩) hrest
    · rw [if_neg hlt]
      exact hle

theorem sweepClusters_tells {fuel p q : Nat} (hfuel : intervals.length ≤ fuel)
    (hsorted : intervals.Pairwise (fun a b => a.start ≤ b.start))
    (hpos : ∀ i ∈ intervals, i.start < i.stop) (hle : p ≤ q)
    (hrange : ∀ i ∈ intervals, p ≤ i.start ∧ i.stop ≤ q)
    (hwins : ∀ k w, p ≤ k → Wins intervals k w → labels k = some w.captureId)
    (hnone : ∀ k, p ≤ k → (∀ i ∈ intervals, ¬Covers i k) → labels k = none) :
    Tells labels p (sweepClusters fuel intervals) q := by
  induction fuel generalizing intervals p with
  | zero =>
    obtain rfl := length_eq_zero_iff.mp (Nat.le_zero.mp hfuel)
    exact ⟨hle, fun k hk _ => hnone k hk (by simp)⟩
  | succ fuel ih =>
    cases intervals with
    | nil => exact ⟨hle, fun k hk _ => hnone k hk (by simp)⟩
    | cons first intervals =>
      obtain ⟨hlater, hrest⟩ := pairwise_cons.mp hsorted
      obtain ⟨happ, hend, hcluster, hbehind⟩ := takeCluster_spec first.stop hrest
      have hq := takeCluster_le (hrange first mem_cons_self).2
        (fun i hi => (hrange i (mem_cons_of_mem _ hi)).2)
      rw [sweepClusters]
      generalize takeCluster first.stop intervals = taken at *
      obtain ⟨cluster, clusterEnd, rest⟩ := taken
      dsimp only at happ hend hcluster hbehind hq ⊢
      have hpos_first := hpos first mem_cons_self
      have hp_first := (hrange first mem_cons_self).1
      have hmem : ∀ i, i ∈ first :: intervals ↔ i ∈ first :: cluster ∨ i ∈ rest := by
        intro i
        rw [← happ, ← cons_append, mem_append]
      have hstart : ∀ i ∈ first :: intervals, first.start ≤ i.start :=
        forall_mem_cons.mpr ⟨Nat.le_refl _, hlater⟩
      have hstop : ∀ i ∈ first :: cluster, i.stop ≤ clusterEnd := forall_mem_cons.mpr ⟨hend, hcluster⟩
      have hrest_sub : ∀ i ∈ rest, i ∈ first :: intervals := fun i hi => (hmem i).mpr (.inr hi)
      have hbefore : ∀ k, p ≤ k → k < first.start → labels k = none := fun k hk hlt =>
        hnone k hk (fun i hi hcovers => by
          have := hstart i hi
          have := hcovers.1
          omega)
      have hcluster_only : ∀ k, k < clusterEnd → ∀ i ∈ first :: intervals, Covers i k →
          i ∈ first :: cluster := fun k hk i hi hcovers => ((hmem i).mp hi).resolve_right (fun hr => by
        have := hbehind i hr
        have := hcovers.1
        omega)
      have hrest_only : ∀ k, clusterEnd ≤ k → ∀ i ∈ first :: intervals, Covers i k → i ∈ rest :=
        fun k hk i hi hcovers => ((hmem i).mp hi).resolve_left (fun hc => by
          have := hstop i hc
          have := hcovers.2
          omega)
      refine Tells.before hp_first hbefore (.append (q := clusterEnd) ?_ ?_)
      · refine sweepCluster_tells hp_first (Nat.le_refl _) (by omega)
          (fun k w hk hlt hw => hwins k w hk (hw.of_cluster (fun i hi => (hmem i).mpr (.inl hi))
            (hcluster_only k hlt))) (fun k hk hlt hcl => hnone k hk (fun i hi hcovers =>
              hcl i (hcluster_only k hlt i hi hcovers) hcovers))
      refine ih ?_ ?_ (fun i hi => hpos i (hrest_sub i hi)) hq
        (fun i hi => ⟨hbehind i hi, (hrange i (hrest_sub i hi)).2⟩)
        (fun k w hk hw => hwins k w (by omega) (hw.of_cluster hrest_sub (hrest_only k hk)))
        (fun k hk hr => hnone k (by omega) (fun i hi hcovers =>
          hr i (hrest_only k hk i hi hcovers) hcovers))
      · rw [length_cons, ← happ, length_append] at hfuel
        omega
      · rw [← happ] at hrest
        exact (pairwise_append.mp hrest).2.1

end Sweep

variable {intervals : List CaptureInterval}

theorem isSorted_starts (h : isSorted intervals = true) :
    intervals.Pairwise (fun a b => a.start ≤ b.start) := by
  induction intervals with
  | nil => exact .nil
  | cons a intervals ih =>
    cases intervals with
    | nil => exact pairwise_singleton _ _
    | cons b intervals =>
      simp only [isSorted, intervalLessThan, Bool.and_eq_true, Bool.not_eq_true', decide_eq_false_iff_not]
        at h
      have hrest := ih h.2
      have hab : a.start ≤ b.start := by omega
      refine pairwise_cons.mpr ⟨forall_mem_cons.mpr ⟨hab, fun c hc => ?_⟩, hrest⟩
      exact Nat.le_trans hab ((pairwise_cons.mp hrest).1 c hc)

theorem sortIntervals_starts (intervals : List CaptureInterval) :
    (sortIntervals intervals).Pairwise (fun a b => a.start ≤ b.start) := by
  rw [sortIntervals]
  split
  · next h => exact isSorted_starts h
  have hsorted : (intervals.mergeSort (fun a b => !intervalLessThan b a)).Pairwise
      (fun a b => (!intervalLessThan b a) = true) :=
    pairwise_mergeSort (by simp [intervalLessThan]; omega) (by simp [intervalLessThan]; omega) intervals
  refine hsorted.imp (fun hab => ?_)
  simp [intervalLessThan] at hab
  omega

theorem sortIntervals_perm (intervals : List CaptureInterval) :
    (sortIntervals intervals).Perm intervals := by
  rw [sortIntervals]
  split
  · exact .refl _
  · exact mergeSort_perm _ _

theorem sweep_tells {content : Bytes} (h : InMatchOrder content intervals) :
    Tells (label intervals) 0 (sweepClusters intervals.length (sortIntervals intervals))
      content.length := by
  have hperm := sortIntervals_perm intervals
  refine sweepClusters_tells (Nat.le_of_eq hperm.length_eq) (sortIntervals_starts intervals)
    (fun i hi => h.nonempty i (hperm.mem_iff.mp hi)) (Nat.zero_le _)
    (fun i hi => ⟨Nat.zero_le _, h.inside i (hperm.mem_iff.mp hi)⟩) (fun k w _ hw => ?_)
    (fun k _ hnone => label_none (fun i hi => hnone i (hperm.mem_iff.mpr hi)))
  exact label_wins h.order (hw.of_cluster (fun i hi => hperm.mem_iff.mp hi)
    (fun i hi _ => hperm.mem_iff.mpr hi))

end Bbr.Highlight
