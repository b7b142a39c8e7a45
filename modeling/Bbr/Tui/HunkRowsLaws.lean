import Bbr.Tui.HunkRows
import Bbr.Tui.WholeFileLaws
import Mathlib.Data.Nat.Find

/-!
# No Line of a Hunk is lost or repeated

The folds of a Hunk are the longest runs of Lines that are far from every change. The walk shows the
Lines outside the collapsed ones and hides exactly those, unless a fold is empty: a collapsed empty fold
is never left again, and one behind the last Line has no identity.
-/
namespace Bbr.Tui

open Bbr.Diff List

/-! ## Context runs -/

def contextAt (lines : List Line) (k : Nat) : Prop :=
  ∃ line, lines[k]? = some line ∧ line.kind = .context

/-- A longest run of context Lines. -/
structure ContextRun (lines : List Line) (s e : Nat) : Prop where
  lt : s < e
  context : ∀ k, s ≤ k → k < e → contextAt lines k
  before : s = 0 ∨ ¬contextAt lines (s - 1)
  after : ¬contextAt lines e

/-- A Line that is not within the margin of a changed one, and not changed itself. -/
structure Hideable (lines : List Line) (margin k : Nat) : Prop where
  lt : k < lines.length
  far : ∀ j, j < lines.length → ¬contextAt lines j → j + margin < k ∨ k + margin < j

structure HideableRun (lines : List Line) (margin a b : Nat) : Prop where
  lt : a < b
  hideable : ∀ k, a ≤ k → k < b → Hideable lines margin k
  before : a = 0 ∨ ¬Hideable lines margin (a - 1)
  after : ¬Hideable lines margin b

variable {lines : List Line} {opts : BuildOptions} {s e i k : Nat}

theorem contextAt_lt (h : contextAt lines k) : k < lines.length := by
  obtain ⟨line, hline, -⟩ := h
  exact (List.getElem?_eq_some_iff.mp hline).1

theorem ContextRun.le (h : ContextRun lines s e) : e ≤ lines.length := by
  have hlt := h.lt
  have := contextAt_lt (h.context (e - 1) (by omega) (by omega))
  omega

theorem Hideable.contextAt {margin : Nat} (h : Hideable lines margin k) : contextAt lines k := by
  by_contra hchanged
  have := h.far k h.lt hchanged
  omega

/-- Runs that start at the same place are the same, and the next one starts behind the end. -/
theorem ContextRun.next (h : ContextRun lines i k) (h' : ContextRun lines s e) (his : i ≤ s) :
    (s = i ∧ e = k) ∨ k < s := by
  have hlt := h'.lt
  by_cases hks : k < s
  · exact .inr hks
  have hsk : s < k := by
    by_contra hge
    obtain rfl : s = k := by omega
    exact h.after (h'.context s (Nat.le_refl s) hlt)
  have hsi : s = i := by
    by_contra hne
    have hcontext := h.context (s - 1) (by omega) (by omega)
    cases h'.before with
    | inl hzero => omega
    | inr hchanged => exact hchanged hcontext
  refine .inl ⟨hsi, ?_⟩
  by_contra hne
  by_cases hek : e < k
  · exact h'.after (h.context e (by omega) hek)
  · exact h.after (h'.context k (by omega) (by omega))

theorem exists_start (h : contextAt lines k) :
    ∃ s, s ≤ k ∧ (∀ j, s ≤ j → j ≤ k → contextAt lines j) ∧ (s = 0 ∨ ¬contextAt lines (s - 1)) := by
  induction k with
  | zero =>
    refine ⟨0, Nat.le_refl 0, fun j _ hj => ?_, .inl rfl⟩
    rwa [Nat.le_zero.mp hj]
  | succ k ih =>
    by_cases hk : contextAt lines k
    · obtain ⟨s, hs, hall, hbefore⟩ := ih hk
      refine ⟨s, Nat.le_succ_of_le hs, fun j hsj hjk => ?_, hbefore⟩
      obtain hjk | rfl : j ≤ k ∨ j = k + 1 := by omega
      · exact hall j hsj hjk
      · exact h
    · refine ⟨k + 1, Nat.le_refl _, fun j hsj hjk => ?_, .inr hk⟩
      rwa [show j = k + 1 by omega]

theorem exists_run (h : contextAt lines k) : ∃ s e, ContextRun lines s e ∧ s ≤ k ∧ k < e := by
  obtain ⟨s, hs, hall, hbefore⟩ := exists_start h
  have hend : ∃ e, k ≤ e ∧ ¬contextAt lines e :=
    ⟨lines.length, (contextAt_lt h).le, fun hcontext => Nat.lt_irrefl _ (contextAt_lt hcontext)⟩
  classical
  obtain ⟨hke, hchanged⟩ := Nat.find_spec hend
  have hne : k ≠ Nat.find hend := fun heq => hchanged (heq ▸ h)
  refine ⟨s, Nat.find hend, ⟨by omega, fun j hsj hje => ?_, hbefore, hchanged⟩, hs, by omega⟩
  obtain hjk | hkj : j ≤ k ∨ k ≤ j := by omega
  · exact hall j hsj hjk
  · by_contra hj
    exact Nat.find_min hend hje ⟨hkj, hj⟩

theorem ContextRun.hideable_iff (h : ContextRun lines s e) (hs : s ≤ k) (he : k < e) :
    Hideable lines opts.contextMargin k ↔
      s + keepTop opts s ≤ k ∧ k + keepBottom opts lines.length e < e := by
  have hle := h.le
  constructor
  · intro hk
    constructor
    · unfold keepTop
      split
      · next hpos =>
        have := hk.far (s - 1) (by omega) (h.before.resolve_left (by omega))
        omega
      · exact hs
    · unfold keepBottom
      split
      · next hlt =>
        have := hk.far e hlt h.after
        omega
      · exact he
  · intro hk
    refine ⟨by omega, fun j hj hchanged => ?_⟩
    obtain hjs | hej : j < s ∨ e ≤ j := by
      by_contra hmid
      exact hchanged (h.context j (by omega) (by omega))
    · have htop : keepTop opts s = opts.contextMargin := if_pos (by omega)
      omega
    · have hbottom : keepBottom opts lines.length e = opts.contextMargin := if_pos (by omega)
      omega

/-- The longest runs of hideable Lines are what the context runs have between their margins. -/
theorem hideableRun_iff {a b : Nat} : HideableRun lines opts.contextMargin a b ↔
    ∃ s e, ContextRun lines s e ∧ a = s + keepTop opts s ∧ b + keepBottom opts lines.length e = e ∧
      a < b := by
  constructor
  · intro h
    have hlt := h.lt
    obtain ⟨s, e, hrun, hsa, hae⟩ := exists_run (h.hideable a (Nat.le_refl a) hlt).contextAt
    have hbe : b ≤ e := by
      by_contra hgt
      exact hrun.after (h.hideable e (by omega) (by omega)).contextAt
    have hfirst := (hrun.hideable_iff hsa hae).mp (h.hideable a (Nat.le_refl a) hlt)
    have hlast := (hrun.hideable_iff (k := b - 1) (by omega) (by omega)).mp
      (h.hideable (b - 1) (by omega) (by omega))
    refine ⟨s, e, hrun, ?_, ?_, hlt⟩
    · by_contra hne
      cases h.before with
      | inl hzero => omega
      | inr hbefore =>
        exact hbefore ((hrun.hideable_iff (by omega) (by omega)).mpr ⟨by omega, by omega⟩)
    · by_contra hne
      exact h.after ((hrun.hideable_iff (by omega) (by omega)).mpr ⟨by omega, by omega⟩)
  · rintro ⟨s, e, hrun, rfl, hb, hlt⟩
    have hmid : ∀ k, s + keepTop opts s ≤ k → k < b → Hideable lines opts.contextMargin k :=
      fun k hk hkb => (hrun.hideable_iff (by omega) (by omega)).mpr ⟨hk, by omega⟩
    refine ⟨hlt, hmid, ?_, fun hhide => ?_⟩
    · by_cases htop : keepTop opts s = 0
      · rw [htop, Nat.add_zero]
        exact hrun.before.imp id (fun hchanged hhide => hchanged hhide.contextAt)
      · refine .inr (fun hhide => ?_)
        have := (hrun.hideable_iff (by omega) (by omega)).mp hhide
        omega
    · by_cases hbottom : keepBottom opts lines.length e = 0
      · rw [hbottom, Nat.add_zero] at hb
        exact hrun.after (hb ▸ hhide.contextAt)
      · have := (hrun.hideable_iff (k := b) (by omega) (by omega)).mp hhide
        omega

/-! ## Folds -/

/-- A context run of which enough is left between its margins. -/
structure FoldedRun (opts : BuildOptions) (lines : List Line) (s e : Nat) : Prop where
  run : ContextRun lines s e
  fits : keepTop opts s + keepBottom opts lines.length e ≤ e - s
  enough : opts.minFold ≤ e - s - keepTop opts s - keepBottom opts lines.length e

def foldOf (opts : BuildOptions) (lines : List Line) (s e : Nat) : Fold where
  id := s + keepTop opts s
  lines := (lines.drop (s + keepTop opts s)).take
    (e - s - keepTop opts s - keepBottom opts lines.length e)

/-- A run from the place `i` on at which `computeFolds` traps. -/
def TrapsFrom (opts : BuildOptions) (lines : List Line) (i : Nat) : Prop :=
  ∃ s e, i ≤ s ∧ ContextRun lines s e ∧
    (usizeLimit ≤ keepTop opts s + keepBottom opts lines.length e ∨
      FoldedRun opts lines s e ∧ lines.length ≤ s + keepTop opts s)

/-- The folds of the runs from the place `i` on, in their order. -/
structure FoldsFrom (opts : BuildOptions) (lines : List Line) (i : Nat) (folds : List Fold) :
    Prop where
  mem : ∀ fold, fold ∈ folds ↔
    ∃ s e, i ≤ s ∧ FoldedRun opts lines s e ∧ fold = foldOf opts lines s e
  apart : folds.Pairwise (fun first second => first.id + first.lines.length < second.id)

theorem FoldedRun.length (h : FoldedRun opts lines s e) : (foldOf opts lines s e).lines.length =
    e - s - keepTop opts s - keepBottom opts lines.length e := by
  have hle := h.run.le
  simp only [foldOf, length_take, length_drop]
  omega

theorem dropWhile_drop {α : Type} (p : α → Bool) (l : List α) :
    l.dropWhile p = l.drop (l.takeWhile p).length := by
  have h := @drop_left _ (l.takeWhile p) (l.dropWhile p)
  rw [takeWhile_append_dropWhile] at h
  exact h.symm

theorem getElem?_drop_takeWhile (p : Line → Bool) (hk : i ≤ k)
    (hlt : k < i + ((lines.drop i).takeWhile p).length) :
    ∃ line, lines[k]? = some line ∧ p line = true := by
  have hk' : k - i < ((lines.drop i).takeWhile p).length := by omega
  have hmem := mem_takeWhile_imp (getElem_mem hk')
  have hget : lines[k]? = some ((lines.drop i).takeWhile p)[k - i] := by
    have hprefix := prefix_iff_getElem?.mp (List.takeWhile_prefix p) (k - i) hk'
    rw [getElem?_drop] at hprefix
    rw [← hprefix]
    congr 1
    omega
  exact ⟨_, hget, hmem⟩

theorem contextRun_takeWhile (h : contextAt lines i) (hstart : i = 0 ∨ ¬contextAt lines (i - 1)) :
    ContextRun lines i (i + ((lines.drop i).takeWhile (isKind .context)).length) := by
  obtain ⟨line, hline, hkind⟩ := h
  obtain ⟨hlt, rfl⟩ := List.getElem?_eq_some_iff.mp hline
  have hfirst : isKind .context lines[i] = true := decide_eq_true hkind
  refine ⟨?_, fun k hik hke => ?_, hstart, ?_⟩
  · rw [List.drop_eq_getElem_cons hlt, List.takeWhile_cons_of_pos hfirst]
    simp
  · obtain ⟨line, hget, hcontext⟩ := getElem?_drop_takeWhile _ hik hke
    exact ⟨line, hget, of_decide_eq_true hcontext⟩
  rintro ⟨next, hnext, hcontext⟩
  have hhead : ((lines.drop i).dropWhile (isKind .context)).head? = some next := by
    rw [dropWhile_drop, drop_drop, head?_drop, hnext]
  have hstop := head?_dropWhile_not (isKind .context) (lines.drop i)
  rw [hhead] at hstop
  simp [isKind, hcontext] at hstop

variable {j : Nat} {folds : List Fold}

section

variable (hij : i ≤ j) (hskip : ∀ s e, ContextRun lines s e → i ≤ s → j ≤ s)
include hij hskip

theorem FoldsFrom.skip (h : FoldsFrom opts lines j folds) : FoldsFrom opts lines i folds where
  mem fold := by
    rw [h.mem]
    constructor
    · rintro ⟨s, e, hs, hrun, heq⟩
      exact ⟨s, e, Nat.le_trans hij hs, hrun, heq⟩
    · rintro ⟨s, e, hs, hrun, heq⟩
      exact ⟨s, e, hskip s e hrun.run hs, hrun, heq⟩
  apart := h.apart

theorem trapsFrom_skip : TrapsFrom opts lines i ↔ TrapsFrom opts lines j := by
  constructor
  · rintro ⟨s, e, hs, hrun, htrap⟩
    exact ⟨s, e, hskip s e hrun hs, hrun, htrap⟩
  · rintro ⟨s, e, hs, hrun, htrap⟩
    exact ⟨s, e, Nat.le_trans hij hs, hrun, htrap⟩

end

theorem ContextRun.traps (h : ContextRun lines i e) : TrapsFrom opts lines i ↔
    (usizeLimit ≤ keepTop opts i + keepBottom opts lines.length e ∨
      FoldedRun opts lines i e ∧ lines.length ≤ i + keepTop opts i) ∨ TrapsFrom opts lines e := by
  have hlt := h.lt
  constructor
  · rintro ⟨s, e', hs, hrun, htrap⟩
    obtain ⟨rfl, rfl⟩ | hnext := h.next hrun hs
    · exact .inl htrap
    · exact .inr ⟨s, e', hnext.le, hrun, htrap⟩
  · rintro (htrap | ⟨s, e', hs, hrun, htrap⟩)
    · exact ⟨i, e, Nat.le_refl i, h, htrap⟩
    · exact ⟨s, e', by omega, hrun, htrap⟩

theorem ContextRun.folds_skip (h : ContextRun lines i e) (hskip : ¬FoldedRun opts lines i e)
    (hfolds : FoldsFrom opts lines e folds) :
    FoldsFrom opts lines i folds where
  mem fold := by
    rw [hfolds.mem]
    constructor
    · rintro ⟨s, e', hs, hrun, heq⟩
      have := h.lt
      exact ⟨s, e', by omega, hrun, heq⟩
    · rintro ⟨s, e', hs, hrun, heq⟩
      obtain ⟨rfl, rfl⟩ | hnext := h.next hrun.run hs
      · exact absurd hrun hskip
      · exact ⟨s, e', hnext.le, hrun, heq⟩
  apart := hfolds.apart

theorem FoldedRun.folds_cons (h : FoldedRun opts lines i e) (hfolds : FoldsFrom opts lines e folds) :
    FoldsFrom opts lines i (foldOf opts lines i e :: folds) where
  mem fold := by
    have hlt := h.run.lt
    rw [mem_cons, hfolds.mem]
    constructor
    · rintro (rfl | ⟨s, e', hs, hrun, heq⟩)
      · exact ⟨i, e, Nat.le_refl i, h, rfl⟩
      · exact ⟨s, e', by omega, hrun, heq⟩
    · rintro ⟨s, e', hs, hrun, rfl⟩
      obtain ⟨rfl, rfl⟩ | hnext := h.run.next hrun.run hs
      · exact .inl rfl
      · exact .inr ⟨s, e', hnext.le, hrun, rfl⟩
  apart := by
    refine pairwise_cons.mpr ⟨fun fold hfold => ?_, hfolds.apart⟩
    obtain ⟨s, e', hs, hrun, rfl⟩ := (hfolds.mem fold).mp hfold
    have hlt := h.run.lt
    have hfits := h.fits
    have hne : s ≠ e := fun heq =>
      h.run.after (heq ▸ hrun.run.context s (Nat.le_refl s) hrun.run.lt)
    rw [h.length]
    simp only [foldOf]
    omega

theorem take_drop_takeWhile (p : Line → Bool) {top count : Nat}
    (h : top + count ≤ ((lines.drop i).takeWhile p).length) :
    (((lines.drop i).takeWhile p).drop top).take count = (lines.drop (i + top)).take count := by
  rw [prefix_iff_eq_take.mp (List.takeWhile_prefix (l := lines.drop i) p), drop_take,
    take_take, drop_drop, Nat.min_eq_left (by omega)]

theorem foldsFrom_end (h : lines.length ≤ i) : ¬TrapsFrom opts lines i ∧ FoldsFrom opts lines i [] := by
  have hnone : ∀ s e, ContextRun lines s e → ¬i ≤ s := fun s e hrun hs => by
    have := hrun.lt
    have := hrun.le
    omega
  refine ⟨fun ⟨s, e, hs, hrun, _⟩ => hnone s e hrun hs, fun fold => ?_, .nil⟩
  exact ⟨fun hmem => absurd hmem not_mem_nil, fun ⟨s, e, hs, hrun, _⟩ => absurd hs (hnone s e hrun.run)⟩

theorem foldsFrom_run (fuel : Nat) (h : ContextRun lines i e) :
    foldsFrom opts lines.length (fuel + 1) i (lines.drop i) =
      let following := foldsFrom opts lines.length fuel e (lines.drop e)
      if usizeLimit ≤ keepTop opts i + keepBottom opts lines.length e then none
      else if e - i < keepTop opts i + keepBottom opts lines.length e then following
      else if e - i - keepTop opts i - keepBottom opts lines.length e < opts.minFold then following
      else if lines.length ≤ i + keepTop opts i then none
      else following.map (fun folds => foldOf opts lines i e :: folds) := by
  have hfirst := h.context i (Nat.le_refl i) h.lt
  have hend : e = i + ((lines.drop i).takeWhile (isKind .context)).length := by
    obtain ⟨-, hend⟩ | hlt := h.next (contextRun_takeWhile hfirst h.before) (Nat.le_refl i)
    · exact hend.symm
    · exact absurd (Nat.lt_trans h.lt hlt) (Nat.lt_irrefl i)
  have hslice := @take_drop_takeWhile lines i (isKind .context) (keepTop opts i)
    (e - i - keepTop opts i - keepBottom opts lines.length e)
  obtain ⟨line, hget, hkind⟩ := hfirst
  have hlength : ((lines.drop i).takeWhile (isKind .context)).length = e - i := by omega
  have hfollowing : (lines.drop i).drop (e - i) = lines.drop e := by
    rw [drop_drop, ← hlength, ← hend]
  have hplace : i + (e - i) = e := by omega
  cases hrest : lines.drop i with
  | nil => rw [← head?_drop, hrest] at hget; cases hget
  | cons first rest =>
    rw [← head?_drop, hrest] at hget
    cases hget
    rw [hrest] at hslice hlength hfollowing
    rw [foldsFrom, if_neg (not_not.mpr hkind)]
    simp only [hlength, hplace, hfollowing]
    split
    · rfl
    split
    · rfl
    · next hfits =>
      rw [hslice (by omega)]
      rfl

/-- The loop finds the folds of the runs left, or traps at one of them. -/
theorem foldsFrom_spec {fuel : Nat} (hfuel : lines.length ≤ i + fuel)
    (hstart : contextAt lines i → i = 0 ∨ ¬contextAt lines (i - 1)) :
    (foldsFrom opts lines.length fuel i (lines.drop i) = none ∧ TrapsFrom opts lines i) ∨
      ∃ folds, foldsFrom opts lines.length fuel i (lines.drop i) = some folds ∧
        ¬TrapsFrom opts lines i ∧ FoldsFrom opts lines i folds := by
  induction fuel generalizing i with
  | zero => exact .inr ⟨[], rfl, foldsFrom_end hfuel⟩
  | succ fuel ih =>
    by_cases hcontext : contextAt lines i
    · have hrun := contextRun_takeWhile hcontext (hstart hcontext)
      generalize i + ((lines.drop i).takeWhile (isKind .context)).length = e at hrun
      have hlt := hrun.lt
      have hnext := @ih e (by omega) (fun hcontext => absurd hcontext hrun.after)
      rw [foldsFrom_run fuel hrun, hrun.traps]
      by_cases hover : usizeLimit ≤ keepTop opts i + keepBottom opts lines.length e
      · rw [if_pos hover]
        exact .inl ⟨rfl, .inl (.inl hover)⟩
      by_cases hfolded : FoldedRun opts lines i e
      · rw [if_neg hover, if_neg (Nat.not_lt.mpr hfolded.fits), if_neg (Nat.not_lt.mpr hfolded.enough)]
        by_cases hbehind : lines.length ≤ i + keepTop opts i
        · rw [if_pos hbehind]
          exact .inl ⟨rfl, .inl (.inr ⟨hfolded, hbehind⟩)⟩
        rw [if_neg hbehind]
        obtain ⟨hnone, htraps⟩ | ⟨folds, hsome, htraps, hspec⟩ := hnext
        · rw [hnone]
          exact .inl ⟨rfl, .inr htraps⟩
        rw [hsome]
        refine .inr ⟨_, rfl, ?_, hfolded.folds_cons hspec⟩
        rintro ((h | h) | h)
        · exact hover h
        · exact hbehind h.2
        · exact htraps h
      · have hskip : (if e - i < keepTop opts i + keepBottom opts lines.length e then
            foldsFrom opts lines.length fuel e (lines.drop e)
          else if e - i - keepTop opts i - keepBottom opts lines.length e < opts.minFold then
            foldsFrom opts lines.length fuel e (lines.drop e)
          else if lines.length ≤ i + keepTop opts i then none
          else (foldsFrom opts lines.length fuel e (lines.drop e)).map
            (fun folds => foldOf opts lines i e :: folds)) =
            foldsFrom opts lines.length fuel e (lines.drop e) := by
          split
          · rfl
          rename_i hfits
          exact if_pos (by
            by_contra henough
            exact hfolded ⟨hrun, by omega, by omega⟩)
        rw [if_neg hover, hskip]
        obtain ⟨hnone, htraps⟩ | ⟨folds, hsome, htraps, hspec⟩ := hnext
        · exact .inl ⟨hnone, .inr htraps⟩
        refine .inr ⟨folds, hsome, ?_, hrun.folds_skip hfolded hspec⟩
        rintro ((h | h) | h)
        · exact hover h
        · exact hfolded h.1
        · exact htraps h
    · have hskip : ∀ s e, ContextRun lines s e → i ≤ s → i + 1 ≤ s := fun s e hrun hs => by
        have hne : i ≠ s := fun heq =>
          hcontext (heq ▸ hrun.context s (Nat.le_refl s) hrun.lt)
        omega
      cases hrest : lines.drop i with
      | nil => exact .inr ⟨[], rfl, foldsFrom_end (drop_eq_nil_iff.mp hrest)⟩
      | cons line rest =>
        have hget : lines[i]? = some line := by rw [← head?_drop, hrest, head?_cons]
        have htail : rest = lines.drop (i + 1) := by rw [← drop_drop, hrest]; rfl
        have hnext := @ih (i + 1) (by omega) (fun _ => .inr hcontext)
        rw [foldsFrom, if_pos (fun hkind => hcontext ⟨line, hget, hkind⟩), htail,
          trapsFrom_skip (Nat.le_succ i) hskip]
        exact hnext.imp id (Exists.imp (fun folds => And.imp id (And.imp id
          (FoldsFrom.skip (Nat.le_succ i) hskip))))

/-- Folds that start at context Lines and lie apart from each other. -/
structure FoldLayout (lines : List Line) (folds : List Fold) : Prop where
  starts : ∀ fold ∈ folds, contextAt lines fold.id
  hidden : ∀ fold ∈ folds, (lines.drop fold.id).take fold.lines.length = fold.lines
  apart : ∀ first ∈ folds, ∀ second ∈ folds, first = second ∨
    first.id + first.lines.length < second.id ∨ second.id + second.lines.length < first.id

theorem computeFolds_spec (opts : BuildOptions) (lines : List Line) :
    (computeFolds opts lines = none ∧ opts.foldContext = true ∧ TrapsFrom opts lines 0) ∨
      ∃ folds, computeFolds opts lines = some folds ∧
        (opts.foldContext = true → ¬TrapsFrom opts lines 0) ∧ FoldLayout lines folds ∧
        ∀ fold, fold ∈ folds ↔ opts.foldContext = true ∧
          ∃ s e, FoldedRun opts lines s e ∧ fold = foldOf opts lines s e := by
  unfold computeFolds
  by_cases hfold : opts.foldContext = false
  · rw [if_pos hfold]
    refine .inr ⟨[], rfl, fun h => absurd (hfold.symm.trans h) (by decide), ⟨?_, ?_, ?_⟩, ?_⟩
    all_goals simp [hfold]
  rw [if_neg hfold]
  rw [Bool.not_eq_false] at hfold
  have hspec := @foldsFrom_spec lines opts 0 lines.length (by omega) (fun _ => .inl rfl)
  obtain ⟨hnone, htraps⟩ | ⟨folds, hsome, htraps, hfolds⟩ := hspec
  · exact .inl ⟨hnone, hfold, htraps⟩
  refine .inr ⟨folds, hsome, fun _ => htraps, ⟨fun fold hmem => ?_, fun fold hmem => ?_, ?_⟩, ?_⟩
  · obtain ⟨s, e, hs, hrun, rfl⟩ := (hfolds.mem fold).mp hmem
    have hfirst : s + keepTop opts s < lines.length := by
      by_contra hbehind
      exact htraps ⟨s, e, hs, hrun.run, .inr ⟨hrun, by omega⟩⟩
    have hlt := hrun.run.lt
    have hfits := hrun.fits
    refine hrun.run.context _ (Nat.le_add_right _ _) ?_
    by_contra hge
    simp only [foldOf] at hge
    -- The run is as long as its top margin, so there is a changed Line behind it.
    have htop : keepTop opts s ≤ opts.contextMargin := by
      unfold keepTop
      split <;> omega
    have hbottom : keepBottom opts lines.length e = opts.contextMargin := if_pos (by omega)
    omega
  · obtain ⟨s, e, -, hrun, rfl⟩ := (hfolds.mem fold).mp hmem
    rw [hrun.length]
    rfl
  · intro first hfirst second hsecond
    by_cases heq : first = second
    · exact .inl heq
    have : Std.Symm (fun first second : Fold => first.id + first.lines.length < second.id ∨
        second.id + second.lines.length < first.id) := ⟨fun _ _ => Or.symm⟩
    have hpairs : folds.Pairwise (fun first second =>
        first.id + first.lines.length < second.id ∨
          second.id + second.lines.length < first.id) := hfolds.apart.imp (fun h => .inl h)
    exact .inr (hpairs.forall hfirst hsecond heq)
  · intro fold
    rw [hfolds.mem]
    simp [hfold]

/-! ## The walk -/

/-- Not hidden by a collapsed fold. -/
def Uncovered (folds : List Fold) (expanded : Nat → Bool) (k : Nat) : Prop :=
  ∀ fold ∈ folds, expanded fold.id = false → ¬(fold.id ≤ k ∧ k < fold.id + fold.lines.length)

def isDisclosure : HunkRow → Bool
  | .disclosure _ _ _ => true
  | _ => false

def coveredBy (folds : List Fold) (expanded : Nat → Bool) (k : Nat) : Bool :=
  folds.any (fun fold => !expanded fold.id && decide (fold.id ≤ k) &&
    decide (k < fold.id + fold.lines.length))

/-- The Lines from the place `i` on that no collapsed fold hides. -/
def visibleFrom (folds : List Fold) (expanded : Nat → Bool) : Nat → List Line → List Line
  | _, [] => []
  | i, line :: lines =>
    if coveredBy folds expanded i then visibleFrom folds expanded (i + 1) lines
    else line :: visibleFrom folds expanded (i + 1) lines

/-- What the rows of a layout's part are for the Lines it shows: one row for a context Line that
`fits`, and for changed Lines rows that show those the layout keeps. -/
structure PartLaws (part : Line → List Line → List HunkRow × Nat) (keep : Line → Bool)
    (cell : HunkRow → List Line) (fits : Line → Prop) (contextRow : Line → HunkRow) : Prop where
  plain : ∀ line rest, ∀ row ∈ (part line rest).1, isDisclosure row = false
  context : ∀ line rest, line.kind = .context → part line rest = ([contextRow line], 1)
  fits : ∀ line, line.kind = .context → fits line → cell (contextRow line) = [line].filter keep
  pos : ∀ line rest, 0 < (part line rest).2
  le : ∀ line rest, (part line rest).2 ≤ rest.length + 1
  changed : ∀ line rest, line.kind ≠ .context →
    (∀ other ∈ (line :: rest).take (part line rest).2, other.kind ≠ .context) ∧
      (part line rest).1.flatMap cell = ((line :: rest).take (part line rest).2).filter keep

section Walk

variable {part : Line → List Line → List HunkRow × Nat} {keep : Line → Bool}
  {cell : HunkRow → List Line} {fits : Line → Prop} {contextRow : Line → HunkRow}
  {folds : List Fold} {expanded : Nat → Bool}

theorem readRow_plain {row : HunkRow} (h : isDisclosure row = false) :
    readRow lines keep cell row = cell row := by
  cases row with
  | disclosure => cases h
  | line => rfl
  | linePair => rfl

variable {rows : List HunkRow}

theorem read_plain (h : ∀ row ∈ rows, isDisclosure row = false) :
    rows.flatMap (readRow lines keep cell) = rows.flatMap cell :=
  flatMap_congr fun row hrow => readRow_plain (h row hrow)

variable {fold : Fold}

theorem foldStartingAt_mem (h : foldStartingAt folds i = some fold) : fold ∈ folds ∧ fold.id = i :=
  ⟨mem_of_find?_eq_some h, by simpa using find?_some h⟩

theorem foldStartingAt_of_mem (hlayout : FoldLayout lines folds)
    (hmem : fold ∈ folds) : foldStartingAt folds fold.id = some fold := by
  cases h : foldStartingAt folds fold.id with
  | none =>
    have := find?_eq_none.mp h fold hmem
    simp at this
  | some other =>
    obtain ⟨hother, hid⟩ := foldStartingAt_mem h
    have := hlayout.apart other hother fold hmem
    rw [this.resolve_right (by omega)]

variable {line : Line} {rest : List Line}

/-- No fold starts among the Lines that the part shows with the first. -/
theorem PartLaws.no_start (h : PartLaws part keep cell fits contextRow)
    (hlayout : FoldLayout lines folds) (hrest : lines.drop i = line :: rest) (hmem : fold ∈ folds)
    (hlt : i < fold.id) : i + (part line rest).2 ≤ fold.id := by
  by_contra hgt
  by_cases hkind : line.kind = .context
  · rw [h.context line rest hkind] at hgt
    omega
  obtain ⟨other, hother, hcontext⟩ := hlayout.starts fold hmem
  refine (h.changed line rest hkind).1 other ?_ hcontext
  rw [← hrest]
  refine mem_of_getElem? (i := fold.id - i) ?_
  rw [getElem?_take_of_lt (by omega), getElem?_drop, ← hother]
  congr 1
  omega

/-- The Lines a row shows, without those it hides. -/
def showRow (cell : HunkRow → List Line) : HunkRow → List Line
  | .disclosure _ _ _ => []
  | row => cell row

theorem show_plain (h : ∀ row ∈ rows, isDisclosure row = false) :
    rows.flatMap (showRow cell) = rows.flatMap cell := by
  refine flatMap_congr fun row hrow => ?_
  cases row with
  | disclosure => cases h _ hrow
  | line => rfl
  | linePair => rfl

theorem coveredBy_eq_false : coveredBy folds expanded k = false ↔ Uncovered folds expanded k := by
  simp [coveredBy, Uncovered]

theorem visibleFrom_append (first second : List Line) : visibleFrom folds expanded i (first ++ second) =
      visibleFrom folds expanded i first ++ visibleFrom folds expanded (i + first.length) second := by
  induction first generalizing i with
  | nil => rfl
  | cons line first ih =>
    have hplace : i + 1 + first.length = i + (first.length + 1) := by omega
    rw [cons_append, visibleFrom, visibleFrom, ih, hplace]
    split <;> rfl

variable {run : List Line}

theorem visibleFrom_uncovered (h : ∀ k, i ≤ k → k < i + run.length → Uncovered folds expanded k) :
    visibleFrom folds expanded i run = run := by
  induction run generalizing i with
  | nil => rfl
  | cons line run ih =>
    rw [length_cons] at h
    rw [visibleFrom, coveredBy_eq_false.mpr (h i (Nat.le_refl i) (by omega)),
      ih (fun k hk hlt => h k (by omega) (by omega))]
    rfl

theorem visibleFrom_covered (h : ∀ k, i ≤ k → k < i + run.length → ¬Uncovered folds expanded k) :
    visibleFrom folds expanded i run = [] := by
  induction run generalizing i with
  | nil => rfl
  | cons line run ih =>
    rw [length_cons] at h
    have hfirst : coveredBy folds expanded i = true := by
      by_contra hne
      exact h i (Nat.le_refl i) (by omega) (coveredBy_eq_false.mp (Bool.not_eq_true _ ▸ hne))
    rw [visibleFrom, hfirst, ih (fun k hk hlt => h k (by omega) (by omega))]
    rfl

variable {fuel : Nat}

theorem emitHunkRows_mono {fuel' : Nat}
    (h : emitHunkRows part folds expanded fuel i rest = some rows) (hle : fuel ≤ fuel') :
    emitHunkRows part folds expanded fuel' i rest = some rows := by
  induction fuel generalizing fuel' i rest rows with
  | zero => cases h
  | succ fuel ih =>
    obtain ⟨fuel', rfl⟩ : ∃ n, fuel' = n + 1 := ⟨fuel' - 1, by omega⟩
    have hle : fuel ≤ fuel' := by omega
    cases rest with
    | nil => exact h
    | cons line rest =>
      rw [emitHunkRows] at h ⊢
      have hmap : ∀ {i rest rows} {f : List HunkRow → List HunkRow},
          (emitHunkRows part folds expanded fuel i rest).map f = some rows →
            (emitHunkRows part folds expanded fuel' i rest).map f = some rows := fun h => by
        obtain ⟨rows, hrows, rfl⟩ := Option.map_eq_some_iff.mp h
        rw [ih hrows hle]
        rfl
      cases hfind : foldStartingAt folds i with
      | none =>
        rw [hfind] at h
        exact hmap h
      | some fold =>
        rw [hfind] at h
        dsimp only at h ⊢
        split at h
        · next hexpanded =>
          rw [if_pos hexpanded]
          rw [Option.map_map] at h ⊢
          exact hmap h
        · next hexpanded =>
          rw [if_neg hexpanded]
          exact hmap h

/-- From the place `i` on, the context Lines that are not hidden stand on the side. -/
def FitsFrom (lines : List Line) (folds : List Fold) (expanded : Nat → Bool) (fits : Line → Prop)
    (i : Nat) : Prop :=
  ∀ k line, i ≤ k → lines[k]? = some line → line.kind = .context → Uncovered folds expanded k →
    fits line

theorem FitsFrom.mono (h : FitsFrom lines folds expanded fits i) (hle : i ≤ k) :
    FitsFrom lines folds expanded fits k := fun k' line hk => h k' line (Nat.le_trans hle hk)

/-- The collapsed folds that start before the place `i` end before it. -/
def FoldsBehind (folds : List Fold) (expanded : Nat → Bool) (i : Nat) : Prop :=
  ∀ fold ∈ folds, expanded fold.id = false → fold.id < i → fold.id + fold.lines.length ≤ i

/-- What the walk shows from the place `i` on, but for a fold that starts there. -/
structure ShowsBehind (lines : List Line) (folds : List Fold) (expanded : Nat → Bool)
    (keep : Line → Bool) (cell : HunkRow → List Line) (fits : Line → Prop)
    (contextRow : Line → HunkRow) (i : Nat) (rows : List HunkRow) : Prop where
  folded : ∀ fold ∈ folds, i < fold.id →
    .disclosure fold.id fold.lines.length (expanded fold.id) ∈ rows
  disclosed : ∀ id count shown, .disclosure id count shown ∈ rows →
    ∃ fold ∈ folds, fold.id = id ∧ fold.lines.length = count ∧ expanded id = shown
  context : ∀ k line, i ≤ k → lines[k]? = some line → line.kind = .context →
    Uncovered folds expanded k → contextRow line ∈ rows
  visible : FitsFrom lines folds expanded fits i →
    rows.flatMap (showRow cell) = (visibleFrom folds expanded i (lines.drop i)).filter keep

structure WalkShows (lines : List Line) (folds : List Fold) (expanded : Nat → Bool)
    (keep : Line → Bool) (cell : HunkRow → List Line) (fits : Line → Prop)
    (contextRow : Line → HunkRow) (i : Nat) (rows : List HunkRow) : Prop extends
    ShowsBehind lines folds expanded keep cell fits contextRow i rows where
  starts : ∀ fold ∈ folds, fold.id = i →
    .disclosure fold.id fold.lines.length (expanded fold.id) ∈ rows
  read : FitsFrom lines folds expanded fits i →
    rows.flatMap (readRow lines keep cell) = (lines.drop i).filter keep

theorem WalkShows.discloses (h : WalkShows lines folds expanded keep cell fits contextRow i rows)
    (hmem : fold ∈ folds) (hle : i ≤ fold.id) :
    .disclosure fold.id fold.lines.length (expanded fold.id) ∈ rows := by
  obtain heq | hlt := Nat.eq_or_lt_of_le hle
  · exact h.starts fold hmem heq.symm
  · exact h.folded fold hmem hlt

/-- The fold that starts here is disclosed in front of what is shown behind it. -/
theorem ShowsBehind.disclose
    (h : ShowsBehind lines folds expanded keep cell fits contextRow fold.id rows)
    (hmem : fold ∈ folds) (honly : ∀ other ∈ folds, other.id = fold.id → other = fold)
    (hread : FitsFrom lines folds expanded fits fold.id →
      (.disclosure fold.id fold.lines.length (expanded fold.id) :: rows).flatMap
        (readRow lines keep cell) = (lines.drop fold.id).filter keep) :
    WalkShows lines folds expanded keep cell fits contextRow fold.id
      (.disclosure fold.id fold.lines.length (expanded fold.id) :: rows) where
  folded other hother hlt := mem_cons_of_mem _ (h.folded other hother hlt)
  disclosed id count shown hshown := by
    obtain hfirst | hshown := mem_cons.mp hshown
    · cases hfirst
      exact ⟨fold, hmem, rfl, rfl, rfl⟩
    · exact h.disclosed id count shown hshown
  context k line hk hline hkind hun := mem_cons_of_mem _ (h.context k line hk hline hkind hun)
  visible hfits := by
    rw [flatMap_cons, h.visible hfits]
    rfl
  starts other hother heq := by
    rw [honly other hother heq]
    exact mem_cons_self
  read := hread

theorem WalkShows.nil (hlayout : FoldLayout lines folds) (hrest : lines.drop i = []) :
    WalkShows lines folds expanded keep cell fits contextRow i [] := by
  have hend := drop_eq_nil_iff.mp hrest
  have hnone : ∀ fold ∈ folds, ¬i ≤ fold.id := fun fold hmem hle => by
    have := contextAt_lt (hlayout.starts fold hmem)
    omega
  refine ⟨⟨fun fold hmem hlt => ?_, fun id count shown hmem => absurd hmem not_mem_nil,
    fun k line hk hline => ?_, fun _ => ?_⟩, fun fold hmem heq => ?_, fun _ => ?_⟩
  · exact absurd (Nat.le_of_lt hlt) (hnone fold hmem)
  · have := (List.getElem?_eq_some_iff.mp hline).1
    omega
  · rw [hrest]
    rfl
  · exact absurd (Nat.le_of_eq heq.symm) (hnone fold hmem)
  · rw [hrest]
    rfl

section

variable (hlayout : FoldLayout lines folds) (hmem : fold ∈ folds)
  (hclosed : expanded fold.id = false)
  (hrows : WalkShows lines folds expanded keep cell fits contextRow (fold.id + fold.lines.length) rows)
include hlayout hmem hclosed hrows

/-- Nothing of a collapsed fold is shown behind the place it starts at. -/
theorem WalkShows.behind_fold :
    ShowsBehind lines folds expanded keep cell fits contextRow fold.id rows where
  folded other hother hlt := by
    obtain rfl | hapart := hlayout.apart other hother fold hmem
    · exact absurd hlt (Nat.lt_irrefl _)
    · exact hrows.discloses hother (by omega)
  disclosed := hrows.disclosed
  context k line hk hline hkind hun := by
    have := hun fold hmem hclosed
    exact hrows.context k line (by omega) hline hkind hun
  visible hfits := by
    have hhidden : visibleFrom folds expanded fold.id (lines.drop fold.id) =
        visibleFrom folds expanded (fold.id + fold.lines.length)
          (lines.drop (fold.id + fold.lines.length)) := by
      conv_lhs => rw [← take_append_drop fold.lines.length (lines.drop fold.id)]
      rw [hlayout.hidden fold hmem, visibleFrom_append, drop_drop,
        visibleFrom_covered (fun k hk hlt hun => hun fold hmem hclosed ⟨hk, hlt⟩)]
      rfl
    rw [hrows.visible (hfits.mono (Nat.le_add_right _ _)), hhidden]

/-- The fold's own row reads the Lines it hides. -/
theorem WalkShows.discloses_collapsed (honly : ∀ other ∈ folds, other.id = fold.id → other = fold) :
    WalkShows lines folds expanded keep cell fits contextRow fold.id
      (.disclosure fold.id fold.lines.length false :: rows) := by
  rw [← hclosed]
  refine (hrows.behind_fold hlayout hmem hclosed).disclose hmem honly fun hfits => ?_
  rw [flatMap_cons, hrows.read (hfits.mono (Nat.le_add_right _ _)), hclosed, readRow,
    ← filter_append, ← drop_drop, take_append_drop]

end

section

variable (h : PartLaws part keep cell fits contextRow) (hlayout : FoldLayout lines folds)
include h hlayout

section

variable (hrest : lines.drop i = line :: rest)
  (hcollapsed : ∀ fold ∈ folds, fold.id = i → expanded fold.id = true)
  (hbehind : FoldsBehind folds expanded i)
include hrest hcollapsed hbehind

/-- A collapsed fold ends before the part or starts behind it. -/
theorem PartLaws.beside (hmem : fold ∈ folds) (hclosed : expanded fold.id = false) :
    fold.id + fold.lines.length ≤ i ∨ i + (part line rest).2 ≤ fold.id := by
  obtain hbefore | heq | hafter := Nat.lt_trichotomy fold.id i
  · exact .inl (hbehind fold hmem hclosed hbefore)
  · have := hcollapsed fold hmem heq
    rw [hclosed] at this
    cases this
  · exact .inr (h.no_start hlayout hrest hmem hafter)

theorem PartLaws.uncovered (hk : i ≤ k) (hlt : k < i + (part line rest).2) :
    Uncovered folds expanded k := fun _ hmem hclosed hcovers => by
  have := h.beside hlayout hrest hcollapsed hbehind hmem hclosed
  omega

theorem PartLaws.foldsBehind :
    FoldsBehind folds expanded (i + (part line rest).2) := fun _ hmem hclosed hlt => by
  have := h.beside hlayout hrest hcollapsed hbehind hmem hclosed
  omega

/-- The rows of the part show the Lines it takes. -/
theorem PartLaws.cells (hfits : FitsFrom lines folds expanded fits i) :
    (part line rest).1.flatMap cell = ((line :: rest).take (part line rest).2).filter keep := by
  have hget : lines[i]? = some line := by rw [← head?_drop, hrest, head?_cons]
  have hpos := h.pos line rest
  by_cases hkind : line.kind = .context
  · have hun := h.uncovered hlayout hrest hcollapsed hbehind (Nat.le_refl i) (by omega)
    have := h.fits line hkind (hfits i line (Nat.le_refl i) hget hkind hun)
    rw [h.context line rest hkind]
    simpa using this
  · rw [(h.changed line rest hkind).2]

section

variable
  (hrows : WalkShows lines folds expanded keep cell fits contextRow (i + (part line rest).2) rows)
include hrows

theorem WalkShows.behind_part :
    ShowsBehind lines folds expanded keep cell fits contextRow i ((part line rest).1 ++ rows) where
  folded fold hmem hlt := mem_append_right _ (hrows.discloses hmem (h.no_start hlayout hrest hmem hlt))
  disclosed id count shown hmem := by
    obtain hmem | hmem := mem_append.mp hmem
    · cases h.plain line rest _ hmem
    · exact hrows.disclosed id count shown hmem
  context k line' hk hline hkind hun := by
    have hget : lines[i]? = some line := by rw [← head?_drop, hrest, head?_cons]
    by_cases hlt : k < i + (part line rest).2
    · have hk' : k = i := by
        by_contra hne
        by_cases hfirst : line.kind = .context
        · rw [h.context line rest hfirst] at hlt
          omega
        refine (h.changed line rest hfirst).1 line' ?_ hkind
        rw [← hrest]
        refine mem_of_getElem? (i := k - i) ?_
        rw [getElem?_take_of_lt (by omega), getElem?_drop, ← hline]
        congr 1
        omega
      subst hk'
      rw [hget] at hline
      cases hline
      rw [h.context line rest hkind]
      exact mem_append_left _ mem_cons_self
    · exact mem_append_right _ (hrows.context k line' (by omega) hline hkind hun)
  visible hfits := by
    have hlength : ((line :: rest).take (part line rest).2).length = (part line rest).2 := by
      have := h.le line rest
      rw [length_take, length_cons]
      omega
    have hsplit : visibleFrom folds expanded i (lines.drop i) =
        (line :: rest).take (part line rest).2 ++
          visibleFrom folds expanded (i + (part line rest).2) (lines.drop (i + (part line rest).2)) := by
      rw [← drop_drop, hrest]
      conv_lhs => rw [← take_append_drop (part line rest).2 (line :: rest)]
      rw [visibleFrom_append, hlength, visibleFrom_uncovered
        (fun k hk hlt => h.uncovered hlayout hrest hcollapsed hbehind hk (hlength ▸ hlt))]
    rw [flatMap_append, show_plain (h.plain line rest),
      hrows.visible (hfits.mono (Nat.le_add_right i _)), hsplit,
      h.cells hlayout hrest hcollapsed hbehind hfits, filter_append]

theorem WalkShows.read_part (hfits : FitsFrom lines folds expanded fits i) :
    ((part line rest).1 ++ rows).flatMap (readRow lines keep cell) = (lines.drop i).filter keep := by
  have hsplit : (lines.drop i).filter keep = ((line :: rest).take (part line rest).2).filter keep ++
        (lines.drop (i + (part line rest).2)).filter keep := by
    rw [← filter_append, ← drop_drop, hrest, take_append_drop]
  rw [flatMap_append, read_plain (h.plain line rest),
    hrows.read (hfits.mono (Nat.le_add_right i _)), hsplit,
    h.cells hlayout hrest hcollapsed hbehind hfits]

end

end

theorem emitHunkRows_shows
    (hnonempty : ∀ fold ∈ folds, expanded fold.id = false → fold.lines ≠ []) (fuel : Nat)
    (hi : i ≤ lines.length) (hfuel : lines.length < i + fuel)
    (hbehind : FoldsBehind folds expanded i) :
    ∃ rows, emitHunkRows part folds expanded fuel i (lines.drop i) = some rows ∧
      WalkShows lines folds expanded keep cell fits contextRow i rows := by
  induction fuel generalizing i with
  | zero => omega
  | succ fuel ih =>
    cases hrest : lines.drop i with
    | nil => exact ⟨[], rfl, .nil hlayout hrest⟩
    | cons line rest =>
      have hlen : rest.length + 1 = lines.length - i := by
        rw [← length_drop, hrest, length_cons]
      have hpos := h.pos line rest
      have hle := h.le line rest
      have hskip : ∀ n, (line :: rest).drop n = lines.drop (i + n) := fun n => by
        rw [← hrest, drop_drop]
      -- Behind the part, when no collapsed fold starts here.
      have hpart : (∀ fold ∈ folds, fold.id = i → expanded fold.id = true) →
          ∃ rows, emitHunkRows part folds expanded fuel (i + (part line rest).2)
            ((line :: rest).drop (part line rest).2) = some rows ∧
              WalkShows lines folds expanded keep cell fits contextRow (i + (part line rest).2)
                rows := fun hcollapsed => by
        rw [hskip]
        exact ih (by omega) (by omega) (h.foldsBehind hlayout hrest hcollapsed hbehind)
      rw [emitHunkRows]
      cases hfind : foldStartingAt folds i with
      | none =>
        have hnone : ∀ fold ∈ folds, fold.id ≠ i := fun fold hmem hid => by
          rw [← hid, foldStartingAt_of_mem hlayout hmem] at hfind
          cases hfind
        have hcollapsed : ∀ fold ∈ folds, fold.id = i → expanded fold.id = true :=
          fun fold hmem hid => absurd hid (hnone fold hmem)
        obtain ⟨rows, hsome, hrows⟩ := hpart hcollapsed
        exact ⟨_, by rw [hsome]; rfl, hrows.behind_part h hlayout hrest hcollapsed hbehind,
          fun fold hmem hid => absurd hid (hnone fold hmem),
          hrows.read_part h hlayout hrest hcollapsed hbehind⟩
      | some fold =>
        obtain ⟨hmem, rfl⟩ := foldStartingAt_mem hfind
        have honly : ∀ other ∈ folds, other.id = fold.id → other = fold := fun other hother hid => by
          rw [← hid, foldStartingAt_of_mem hlayout hother] at hfind
          exact Option.some.inj hfind
        cases hexpanded : expanded fold.id with
        | true =>
          have hcollapsed : ∀ other ∈ folds, other.id = fold.id → expanded other.id = true :=
            fun other _ hid => hid ▸ hexpanded
          obtain ⟨rows, hsome, hrows⟩ := hpart hcollapsed
          dsimp only
          rw [if_pos hexpanded, hsome]
          refine ⟨_, rfl, hexpanded ▸ (hrows.behind_part h hlayout hrest hcollapsed hbehind).disclose
            hmem honly fun hfits => ?_⟩
          rw [flatMap_cons, hrows.read_part h hlayout hrest hcollapsed hbehind hfits, hexpanded]
          rfl
        | false =>
          have hlength : fold.lines.length ≠ 0 := fun hzero =>
            hnonempty fold hmem hexpanded (length_eq_zero_iff.mp hzero)
          have hfit : fold.id + fold.lines.length ≤ lines.length := by
            have hhidden := congrArg length (hlayout.hidden fold hmem)
            rw [length_take, length_drop] at hhidden
            omega
          obtain ⟨rows, hsome, hrows⟩ := @ih (fold.id + fold.lines.length) hfit (by omega)
            (fun other hother hclosed hid => by
              obtain rfl | hapart := hlayout.apart other hother fold hmem
              · exact Nat.le_refl _
              · omega)
          dsimp only
          rw [if_neg (by rw [hexpanded]; decide), hskip, hsome]
          exact ⟨_, rfl, hrows.discloses_collapsed hlayout hmem hexpanded honly⟩

theorem emitHunkRows_stuck (hmem : fold ∈ folds) (hclosed : expanded fold.id = false)
    (hempty : fold.lines = []) (fuel : Nat) (hi : i ≤ fold.id) :
    emitHunkRows part folds expanded fuel i (lines.drop i) = none := by
  induction fuel generalizing i with
  | zero => rfl
  | succ fuel ih =>
    have hlt := contextAt_lt (hlayout.starts fold hmem)
    cases hrest : lines.drop i with
    | nil =>
      have := drop_eq_nil_iff.mp hrest
      omega
    | cons line rest =>
      have hskip : ∀ n, (line :: rest).drop n = lines.drop (i + n) := fun n => by
        rw [← hrest, drop_drop]
      have hpart : i < fold.id → emitHunkRows part folds expanded fuel (i + (part line rest).2)
          ((line :: rest).drop (part line rest).2) = none := fun hlt => by
        rw [hskip]
        exact ih (h.no_start hlayout hrest hmem hlt)
      rw [emitHunkRows]
      cases hfind : foldStartingAt folds i with
      | none =>
        have hne : i ≠ fold.id := fun heq => by
          rw [heq, foldStartingAt_of_mem hlayout hmem] at hfind
          cases hfind
        simp [hpart (by omega)]
      | some other =>
        obtain ⟨hother, rfl⟩ := foldStartingAt_mem hfind
        obtain rfl | hapart := hlayout.apart other hother fold hmem
        · have hnext := ih (Nat.le_refl other.id)
          simp [hclosed, hempty, ← hrest, hnext]
        have hnext := @ih (other.id + other.lines.length) (by omega)
        have hpart := hpart (by omega)
        rw [hskip] at hpart
        simp [hskip, hpart, hnext]

end

section

variable (hlayout : FoldLayout lines folds) (h : PartLaws part keep cell fits contextRow)
  (hrows : emitHunkRows part folds expanded fuel 0 lines = some rows)
include hlayout h hrows

theorem FoldLayout.nonempty : ∀ fold ∈ folds, expanded fold.id = false → fold.lines ≠ [] :=
  fun fold hfold hclosed hempty => by
    have hstuck := emitHunkRows_stuck (i := 0) h hlayout hfold hclosed hempty fuel (Nat.zero_le _)
    rw [drop_zero, hrows] at hstuck
    cases hstuck

theorem FoldLayout.walkShows : WalkShows lines folds expanded keep cell fits contextRow 0 rows := by
  obtain ⟨shown, hshown, hwalk⟩ := emitHunkRows_shows (i := 0) h hlayout
    (hlayout.nonempty h hrows) (lines.length + 1) (Nat.zero_le _) (by omega)
    (fun fold _ _ hid => absurd hid (Nat.not_lt_zero _))
  have hsame : shown = rows := Option.some.inj
    ((emitHunkRows_mono hshown (Nat.le_max_left _ fuel)).symm.trans
      (emitHunkRows_mono hrows (Nat.le_max_right _ fuel)))
  exact hsame ▸ hwalk

end

end Walk

/-! ## The two layouts -/

theorem unifiedPart_laws :
    PartLaws unifiedPart (fun _ => true) lineCell (fun _ => True) HunkRow.line where
  plain line rest row hrow := by
    cases mem_singleton.mp hrow
    rfl
  context line rest _ := rfl
  fits line _ _ := rfl
  pos line rest := Nat.one_pos
  le line rest := Nat.le_add_left 1 rest.length
  changed line rest hkind := ⟨by simpa [unifiedPart] using hkind, rfl⟩

variable {kind : LineKind} {run : List Line}

theorem presentOn_kind (side : SelectedVersion) (hkind : kind ≠ .context)
    (h : ∀ line ∈ run, line.kind = kind) :
    run.filter (presentOn side) =
      if kind = .removed ∧ side = .old ∨ kind = .added ∧ side = .new then run else [] := by
  split
  · next hside =>
    refine filter_eq_self.mpr (fun line hline => ?_)
    rw [presentOn, h line hline]
    obtain ⟨rfl, rfl⟩ | ⟨rfl, rfl⟩ := hside <;> rfl
  · next hside =>
    refine filter_eq_nil_iff.mpr (fun line hline => ?_)
    rw [presentOn, h line hline]
    cases kind with
    | context => exact absurd rfl hkind
    | added | removed => simpa using hside

theorem flatMap_pairCell (side : SelectedVersion) (rows : List LinePair) :
    (rows.map HunkRow.linePair).flatMap (pairCell side) =
      rows.filterMap (match side with | .old => LinePair.left | .new => LinePair.right) := by
  induction rows with
  | nil => rfl
  | cons row rows ih =>
    rw [map_cons, flatMap_cons, ih]
    obtain ⟨left, right⟩ := row
    cases side with
    | old => cases left <;> rfl
    | new => cases right <;> rfl

theorem mem_takeWhile_kind : ∀ line ∈ run.takeWhile (isKind kind), line.kind = kind :=
  fun line hline => by simpa [isKind] using mem_takeWhile_imp hline

theorem takeWhile_length_pos {line : Line} (h : line.kind = kind) (rest : List Line) :
    0 < ((line :: rest).takeWhile (isKind kind)).length := by
  have hfirst : isKind kind line = true := decide_eq_true h
  rw [takeWhile_cons_of_pos hfirst]
  exact Nat.succ_pos _

section Weave

variable {F : Type} (costs : MatchCosts F) {line : Line}

theorem sideBySidePart_context (rest : List Line) (h : line.kind = .context) :
    sideBySidePart costs line rest = ([.linePair (emitContext line)], 1) := by
  rw [sideBySidePart, h]

theorem sideBySidePart_added (rest : List Line) (h : line.kind = .added) :
    ∃ run, run = (line :: rest).take (sideBySidePart costs line rest).2 ∧
      (∀ other ∈ run, other.kind = .added) ∧ 0 < run.length ∧
      (sideBySidePart costs line rest).2 = run.length ∧
      (sideBySidePart costs line rest).1 =
        (run.map (fun added => (⟨none, some added⟩ : LinePair))).map HunkRow.linePair := by
  refine ⟨(line :: rest).takeWhile (isKind .added), ?_, mem_takeWhile_kind,
    takeWhile_length_pos h rest, ?_, ?_⟩
  · rw [sideBySidePart, h]
    exact prefix_iff_eq_take.mp (List.takeWhile_prefix _)
  · rw [sideBySidePart, h]
  · rw [sideBySidePart, h, map_map]
    rfl

/-- A removed run stands on the left and the added run behind it on the right. -/
theorem sideBySidePart_removed (rest : List Line) (h : line.kind = .removed) :
    ∃ removed added, removed ++ added = (line :: rest).take (sideBySidePart costs line rest).2 ∧
      (∀ other ∈ removed, other.kind = .removed) ∧ (∀ other ∈ added, other.kind = .added) ∧
      0 < removed.length ∧ (sideBySidePart costs line rest).2 = removed.length + added.length ∧
      (sideBySidePart costs line rest).1 =
        (emitSideBySideChangeBlock costs removed added).map HunkRow.linePair := by
  refine ⟨(line :: rest).takeWhile (isKind .removed),
    ((line :: rest).dropWhile (isKind .removed)).takeWhile (isKind .added), ?_, mem_takeWhile_kind,
    mem_takeWhile_kind, takeWhile_length_pos h rest, ?_, ?_⟩
  · rw [sideBySidePart, h]
    rw [take_add, ← dropWhile_drop, ← prefix_iff_eq_take.mp (List.takeWhile_prefix _),
      ← prefix_iff_eq_take.mp (List.takeWhile_prefix _)]
  · rw [sideBySidePart, h]
  · rw [sideBySidePart, h]

theorem sideBySidePart_laws (side : SelectedVersion) :
    PartLaws (sideBySidePart costs) (presentOn side) (pairCell side)
      (fun line => line.oldNo ≠ 0 ∨ line.newNo ≠ 0) (fun line => .linePair (emitContext line)) where
  plain line rest row hrow := by
    have hrows : ∃ pairs : List LinePair,
        (sideBySidePart costs line rest).1 = pairs.map HunkRow.linePair := by
      cases hkind : line.kind with
      | context =>
        rw [sideBySidePart_context costs rest hkind]
        exact ⟨[emitContext line], rfl⟩
      | added =>
        obtain ⟨run, -, -, -, -, hrows⟩ := sideBySidePart_added costs rest hkind
        exact ⟨_, hrows⟩
      | removed =>
        obtain ⟨removed, added, -, -, -, -, -, hrows⟩ := sideBySidePart_removed costs rest hkind
        exact ⟨_, hrows⟩
    obtain ⟨pairs, hpairs⟩ := hrows
    rw [hpairs] at hrow
    obtain ⟨pair, -, rfl⟩ := mem_map.mp hrow
    rfl
  context line rest hkind := sideBySidePart_context costs rest hkind
  fits line hkind hsided := by
    have hpresent : presentOn side line = (sideNo side line != 0) := by rw [presentOn, hkind]
    rw [filter_cons, filter_nil, hpresent, emitContext]
    by_cases hnew : line.newNo = 0
    · have hold := hsided.resolve_right (not_not.mpr hnew)
      cases side <;> simp [pairCell, sideNo, hnew, hold]
    · by_cases hold : line.oldNo = 0 <;> cases side <;> simp [pairCell, sideNo, hnew, hold]
  pos line rest := by
    cases hkind : line.kind with
    | context => rw [sideBySidePart_context costs rest hkind]; exact Nat.one_pos
    | added =>
      obtain ⟨run, -, -, hpos, hsteps, -⟩ := sideBySidePart_added costs rest hkind
      rwa [hsteps]
    | removed =>
      obtain ⟨removed, added, -, -, -, hpos, hsteps, -⟩ := sideBySidePart_removed costs rest hkind
      omega
  le line rest := by
    cases hkind : line.kind with
    | context => rw [sideBySidePart_context costs rest hkind]; exact Nat.le_add_left 1 _
    | added =>
      obtain ⟨run, htake, -, -, hsteps, -⟩ := sideBySidePart_added costs rest hkind
      have := congrArg length htake
      simp at this
      omega
    | removed =>
      obtain ⟨removed, added, htake, -, -, -, hsteps, -⟩ := sideBySidePart_removed costs rest hkind
      have := congrArg length htake
      simp at this
      omega
  changed line rest hchanged := by
    cases hkind : line.kind with
    | context => exact absurd hkind hchanged
    | added =>
      obtain ⟨run, htake, hadded, -, -, hrows⟩ := sideBySidePart_added costs rest hkind
      rw [← htake]
      refine ⟨fun other hother => by rw [hadded other hother]; decide, ?_⟩
      rw [hrows, flatMap_pairCell, filterMap_map, presentOn_kind side (by decide) hadded]
      cases side with
      | old => exact filterMap_eq_nil_iff.mpr (fun _ _ => rfl)
      | new => exact filterMap_some
    | removed =>
      obtain ⟨removed, added, htake, hremoved, hadded, -, -, hrows⟩ :=
        sideBySidePart_removed costs rest hkind
      obtain ⟨hleft, hright⟩ := emitSideBySideChangeBlock_columns costs removed added
      rw [← htake]
      refine ⟨fun other hother => ?_, ?_⟩
      · obtain hother | hother := mem_append.mp hother
        · rw [hremoved other hother]; decide
        · rw [hadded other hother]; decide
      · rw [hrows, flatMap_pairCell, filter_append,
          presentOn_kind side (by decide) hremoved, presentOn_kind side (by decide) hadded]
        cases side with
        | old => simpa using hleft
        | new => simpa using hright

end Weave

/-! ## Hunks -/

/-- Collapsed folds hide enough Lines, all of them far from a change, and every longest run of
enough such Lines is a fold. -/
structure HidesContext (opts : BuildOptions) (expanded : Nat → Bool) (lines : List Line)
    (rows : List HunkRow) : Prop where
  hidden : ∀ id count, .disclosure id count false ∈ rows → opts.minFold ≤ count ∧
    ∀ k, id ≤ k → k < id + count → contextAt lines k ∧ Hideable lines opts.contextMargin k
  folded : opts.foldContext = true → ∀ a b, HideableRun lines opts.contextMargin a b →
    opts.minFold ≤ b - a → .disclosure a (b - a) (expanded a) ∈ rows

/-- Both layouts come to an end and show or hide each Line of the Hunk once, in order. -/
def ProjectsHunk {F : Type} (costs : MatchCosts F) (opts : BuildOptions) (expanded : Nat → Bool)
    (lines : List Line) : Prop :=
  ∃ folds fuel unified sideBySide,
    computeFolds opts lines = some folds ∧
    emitUnifiedHunk folds expanded fuel lines = some unified ∧
    emitFoldedSideBySideHunk costs folds expanded fuel lines = some sideBySide ∧
    unifiedLines lines unified = lines ∧
    (∀ side, column lines side sideBySide = lines.filter (presentOn side)) ∧
    HidesContext opts expanded lines unified ∧ HidesContext opts expanded lines sideBySide

/-- Folds without traps that are empty only where they are expanded, and context Lines that have a
side or are hidden. -/
structure Foldable (opts : BuildOptions) (expanded : Nat → Bool) (lines : List Line) : Prop where
  margins : opts.foldContext = true → ∀ s e, ContextRun lines s e →
    keepTop opts s + keepBottom opts lines.length e < usizeLimit
  empty : opts.foldContext = true → opts.minFold = 0 → ∀ s e, ContextRun lines s e →
    e - s = keepTop opts s + keepBottom opts lines.length e →
      e < lines.length ∧ expanded (s + keepTop opts s) = true
  sided : ∀ k line, lines[k]? = some line → line.kind = .context → line.oldNo = 0 →
    line.newNo = 0 → opts.foldContext = true ∧ ∃ a b, HideableRun lines opts.contextMargin a b ∧
      opts.minFold ≤ b - a ∧ expanded a = false ∧ a ≤ k ∧ k < b

section Hunks

variable {folds : List Fold} {expanded : Nat → Bool}

/-- What a folded run hides is a longest run of hideable Lines, unless it is empty. -/
theorem FoldedRun.hideableRun (h : FoldedRun opts lines s e)
    (hlines : (foldOf opts lines s e).lines ≠ []) :
    HideableRun lines opts.contextMargin (s + keepTop opts s)
      (s + keepTop opts s + (foldOf opts lines s e).lines.length) := by
  have hpos := length_pos_iff.mpr hlines
  rw [h.length] at hpos ⊢
  exact hideableRun_iff.mpr ⟨s, e, h.run, rfl, by omega, by omega⟩

theorem HideableRun.foldedRun {a b : Nat} (h : HideableRun lines opts.contextMargin a b)
    (hmin : opts.minFold ≤ b - a) : ∃ s e, FoldedRun opts lines s e ∧
      (foldOf opts lines s e).id = a ∧ (foldOf opts lines s e).lines.length = b - a := by
  obtain ⟨s, e, hrun, rfl, hb, hlt⟩ := hideableRun_iff.mp h
  have hfolded : FoldedRun opts lines s e := ⟨hrun, by omega, by omega⟩
  refine ⟨s, e, hfolded, rfl, ?_⟩
  rw [hfolded.length]
  omega

theorem WalkShows.hidesContext {keep : Line → Bool} {cell : HunkRow → List Line}
    {fits : Line → Prop} {contextRow : Line → HunkRow} {rows : List HunkRow}
    (h : WalkShows lines folds expanded keep cell fits contextRow 0 rows)
    (hmem : ∀ fold, fold ∈ folds ↔ opts.foldContext = true ∧
      ∃ s e, FoldedRun opts lines s e ∧ fold = foldOf opts lines s e) :
    HidesContext opts expanded lines rows where
  hidden id count hrow := by
    obtain ⟨fold, hfold, rfl, rfl, -⟩ := h.disclosed id count false hrow
    obtain ⟨-, s, e, hrun, rfl⟩ := (hmem fold).mp hfold
    refine ⟨hrun.length ▸ hrun.enough, fun k hk hlt => ?_⟩
    have hhide := (hrun.hideableRun (fun hnil => by simp [hnil] at hlt; omega)).hideable k hk hlt
    exact ⟨hhide.contextAt, hhide⟩
  folded hfold a b hrun hmin := by
    obtain ⟨s, e, hfolded, rfl, hlength⟩ := hrun.foldedRun hmin
    rw [← hlength]
    exact h.discloses ((hmem _).mpr ⟨hfold, s, e, hfolded, rfl⟩) (Nat.zero_le _)

variable {F : Type}

theorem ProjectsHunk.foldable {costs : MatchCosts F} :
    ProjectsHunk costs opts expanded lines → Foldable opts expanded lines := by
  rintro ⟨folds, fuel, unified, sideBySide, hfolds, hunified, hside, -, hcolumn, -, -⟩
  obtain ⟨hnone, -, -⟩ | ⟨folds', hsome, htraps, hlayout, hmem⟩ := computeFolds_spec opts lines
  · rw [hnone] at hfolds
    cases hfolds
  rw [hsome] at hfolds
  cases hfolds
  have hnonempty := hlayout.nonempty unifiedPart_laws hunified
  refine ⟨fun hfold s e hrun => ?_, fun hfold hzero s e hrun hlength => ?_,
    fun k line hline hkind hold hnew => ?_⟩
  · by_contra hover
    exact htraps hfold ⟨s, e, Nat.zero_le s, hrun, .inl (by omega)⟩
  · have hfolded : FoldedRun opts lines s e := ⟨hrun, hlength.ge, by omega⟩
    have hempty : (foldOf opts lines s e).lines = [] := by
      rw [← length_eq_zero_iff, hfolded.length]
      omega
    constructor
    · by_contra hge
      have hbottom : keepBottom opts lines.length e = 0 := if_neg hge
      exact htraps hfold ⟨s, e, Nat.zero_le s, hrun, .inr ⟨hfolded, by omega⟩⟩
    · by_contra hclosed
      exact hnonempty _ ((hmem _).mpr ⟨hfold, s, e, hfolded, rfl⟩) (Bool.not_eq_true _ ▸ hclosed) hempty
  · by_contra hshown
    have huncovered : Uncovered folds expanded k := fun fold hfold hclosed hcovers => by
      obtain ⟨hcontext, s, e, hfolded, rfl⟩ := (hmem fold).mp hfold
      have hrun := hfolded.hideableRun (hnonempty _ hfold hclosed)
      have henough := hfolded.enough
      rw [← hfolded.length] at henough
      exact hshown ⟨hcontext, _, _, hrun, by omega, hclosed, hcovers.1, hcovers.2⟩
    have hwalk := hlayout.walkShows (sideBySidePart_laws costs .old) hside
    have hrow := hwalk.context k line (Nat.zero_le k) hline hkind huncovered
    have hmem' : line ∈ column lines .old sideBySide :=
      mem_flatMap.mpr ⟨_, hrow, by simp [readRow, emitContext, hnew, pairCell]⟩
    rw [hcolumn .old] at hmem'
    have hpresent := (mem_filter.mp hmem').2
    rw [presentOn, hkind] at hpresent
    simp [sideNo, hold] at hpresent

theorem Foldable.projectsHunk (costs : MatchCosts F) (h : Foldable opts expanded lines) :
    ProjectsHunk costs opts expanded lines := by
  have htraps : opts.foldContext = true → ¬TrapsFrom opts lines 0 := by
    rintro hfold ⟨s, e, -, hrun, hover | ⟨hfolded, hbehind⟩⟩
    · have := h.margins hfold s e hrun
      omega
    · have hle := hrun.le
      have hfits := hfolded.fits
      have henough := hfolded.enough
      have hlt := hrun.lt
      have := (h.empty hfold (by omega) s e hrun (by omega)).1
      omega
  obtain ⟨-, hfold, htrap⟩ | ⟨folds, hsome, -, hlayout, hmem⟩ := computeFolds_spec opts lines
  · exact absurd htrap (htraps hfold)
  have hnonempty : ∀ fold ∈ folds, expanded fold.id = false → fold.lines ≠ [] :=
    fun fold hfold hclosed hempty => by
      obtain ⟨hcontext, s, e, hfolded, rfl⟩ := (hmem fold).mp hfold
      have hlength := hfolded.length
      have hfits := hfolded.fits
      have henough := hfolded.enough
      rw [hempty, length_nil] at hlength
      have hexpanded := (h.empty hcontext (by omega) s e hfolded.run (by omega)).2
      exact absurd (hclosed.symm.trans hexpanded) (by decide)
  have hbehind : ∀ fold ∈ folds, expanded fold.id = false → fold.id < 0 →
      fold.id + fold.lines.length ≤ 0 := fun fold _ _ hid => absurd hid (Nat.not_lt_zero _)
  have hsided : ∀ k line, 0 ≤ k → lines[k]? = some line → line.kind = .context →
      Uncovered folds expanded k → line.oldNo ≠ 0 ∨ line.newNo ≠ 0 :=
    fun k line _ hline hkind huncovered => by
      by_contra hnone
      obtain ⟨hfold, a, b, hrun, hmin, hclosed, hak, hkb⟩ :=
        h.sided k line hline hkind (by omega) (by omega)
      obtain ⟨s, e, hfolded, rfl, hlength⟩ := hrun.foldedRun hmin
      exact huncovered _ ((hmem _).mpr ⟨hfold, s, e, hfolded, rfl⟩) hclosed ⟨hak, by omega⟩
  have hwalk := fun side => emitHunkRows_shows (i := 0)
      (sideBySidePart_laws costs side) hlayout hnonempty (lines.length + 1) (Nat.zero_le _) (by omega)
      hbehind
  obtain ⟨unified, hunified, hunifiedShows⟩ := emitHunkRows_shows (i := 0)
    unifiedPart_laws hlayout hnonempty (lines.length + 1) (Nat.zero_le _) (by omega) hbehind
  obtain ⟨rows, hrows, hold⟩ := hwalk .old
  obtain ⟨rows', hrows', hnew⟩ := hwalk .new
  obtain rfl : rows = rows' := Option.some.inj (hrows.symm.trans hrows')
  refine ⟨folds, lines.length + 1, unified, rows, hsome, hunified, hrows, ?_, fun side => ?_,
    hunifiedShows.hidesContext hmem, hold.hidesContext hmem⟩
  · have hread := hunifiedShows.read (fun _ _ _ _ _ _ => trivial)
    simpa [unifiedLines] using hread
  · cases side with
    | old => simpa [column] using hold.read hsided
    | new => simpa [column] using hnew.read hsided

/-- Exactly the Hunks whose folds do not trap and are not left collapsed and empty, and whose shown
context Lines have a side, are shown without losing or repeating a Line. -/
theorem projectsHunk_iff {F : Type} (costs : MatchCosts F) (opts : BuildOptions)
    (expanded : Nat → Bool) (lines : List Line) :
    ProjectsHunk costs opts expanded lines ↔ Foldable opts expanded lines :=
  ⟨ProjectsHunk.foldable, Foldable.projectsHunk costs⟩

/-- A context Line before an added one. -/
def unchangedFirst : List Line := [⟨1, 1, .context, [97], true⟩, ⟨0, 2, .added, [98], true⟩]

/-- Without a least number of hidden Lines, a context Line before a change is its own margin and
leaves an empty fold, at which neither layout comes to an end. -/
theorem empty_fold_never_left :
    ¬ProjectsHunk plainCosts { foldContext := true, contextMargin := 1, minFold := 0 }
      (fun _ => false) unchangedFirst := by
  intro h
  have hrun : ContextRun unchangedFirst 0 1 := by
    refine ⟨Nat.one_pos, fun k _ hk => ?_, .inl rfl, ?_⟩
    · obtain rfl := Nat.lt_one_iff.mp hk
      exact ⟨_, rfl, rfl⟩
    · rintro ⟨line, hline, hkind⟩
      cases hline
      cases hkind
  exact absurd (h.foldable.empty rfl rfl 0 1 hrun rfl).2 (by decide)

end Hunks

end Bbr.Tui
