import Mathlib.Data.List.Induction
import Mathlib.Data.List.Sort
import Mathlib.Data.Prod.Lex

/-!
# Searching a sorted list

Bisection finds the first place where a test fails that fails from some place on. Entries are displayed
in the order of their rows and sorted by where they start. The first entry with a property is the same
in both orders if an entry that starts earlier but is displayed later has an echo, an entry with its
bounds that is displayed before the other.
-/
namespace Bbr.Lib

open List

def bisect (before : Nat → Bool) (low high : Nat) : Nat :=
  if _ : low < high then
    let middle := low + (high - low) / 2
    if before middle then bisect before (middle + 1) high else bisect before low middle
  else low
termination_by high - low
decreasing_by all_goals omega

section Bisect

variable {α : Type} {before : Nat → Bool} {low high n : Nat}

theorem bisect_spec (hmono : ∀ i j, i ≤ j → j < n → before j = true → before i = true)
    (hlow : ∀ i < low, before i = true) (hhigh : high < n → before high = false)
    (hle : low ≤ high) (hn : high ≤ n) :
    (∀ i < bisect before low high, before i = true) ∧
      (bisect before low high < n → before (bisect before low high) = false) := by
  induction low, high using bisect.induct before with
  | case1 low high hlt middle hbefore ih =>
    rw [bisect, dif_pos hlt]
    simp only [middle] at hbefore ih
    simp only [hbefore, if_true]
    exact ih (fun i hi => hmono i _ (by omega) (by omega) hbefore) hhigh (by omega) hn
  | case2 low high hlt middle hbefore ih =>
    rw [bisect, dif_pos hlt]
    simp only [middle] at hbefore ih
    simp only [hbefore]
    exact ih hlow (fun _ => by simpa using hbefore) (by omega) (by omega)
  | case3 low high hlt =>
    obtain rfl : low = high := by omega
    rw [bisect, dif_neg hlt]
    exact ⟨hlow, hhigh⟩

/-- The first entry with a property, if the test says that no entry up to the place has it. -/
theorem getElem?_bisect {l : List α} {p : α → Bool}
    (h : ∀ i < l.length, before i = true ↔ ∀ x ∈ l.take (i + 1), p x = false) :
    l[bisect before 0 l.length]? = l.find? p := by
  have hmono : ∀ i j, i ≤ j → j < l.length → before j = true → before i = true := by
    intro i j hij hj hbefore
    refine (h i (by omega)).mpr (fun x hx => (h j hj).mp hbefore x ?_)
    exact take_subset_take_left l (by omega) hx
  have hspec := @bisect_spec before 0 l.length l.length hmono (by omega) (by omega) (by omega)
    (Nat.le_refl _)
  generalize bisect before 0 l.length = r at hspec
  have hnone : ∀ j, ∀ hj : j < l.length, j < r → p l[j] = false := by
    intro j hj hjr
    exact (h j hj).mp (hspec.1 j hjr) _ (mem_take_iff_getElem.mpr ⟨j, by omega, rfl⟩)
  by_cases hr : r < l.length
  · have hfound : p l[r] = true := by
      by_contra hp
      have hbefore := (h r hr).mpr (fun x hx => ?_)
      · rw [hspec.2 hr] at hbefore
        exact Bool.false_ne_true hbefore
      · obtain ⟨j, hj, rfl⟩ := mem_take_iff_getElem.mp hx
        by_cases hjr : j = r
        · subst hjr
          simpa using hp
        · exact hnone j (by omega) (by omega)
    rw [getElem?_eq_getElem hr, eq_comm, find?_eq_some_iff_getElem]
    exact ⟨hfound, r, hr, rfl, fun j hj => by simp [hnone j (by omega) hj]⟩
  · rw [getElem?_eq_none (by omega), eq_comm, find?_eq_none]
    intro x hx
    obtain ⟨j, hj, rfl⟩ := getElem_of_mem hx
    simp [hnone j hj (by omega)]

end Bisect

section First

variable {α κ : Type} [LinearOrder κ] {key : α → κ} {l : List α} {p : α → Bool} {x y : α}

section

variable (h : l.Pairwise (fun a b => key a < key b))
include h

theorem key_injective (hx : x ∈ l) (hy : y ∈ l) (heq : key x = key y) : x = y := by
  have hnodup : (l.map key).Nodup := pairwise_map.mpr (h.imp ne_of_lt)
  exact inj_on_of_nodup_map hnodup hx hy heq

theorem find?_eq_some_iff_least :
    l.find? p = some x ↔ x ∈ l ∧ p x = true ∧ ∀ y ∈ l, p y = true → key x ≤ key y := by
  rw [find?_eq_some_iff_append]
  constructor
  · rintro ⟨hp, before, after, rfl, hnot⟩
    obtain ⟨-, hrest, -⟩ := pairwise_append.mp h
    refine ⟨by simp, hp, fun y hy hpy => ?_⟩
    rcases mem_append.mp hy with hbefore | hmem
    · have hpassed := hnot y hbefore
      simp [hpy] at hpassed
    · rcases mem_cons.mp hmem with rfl | hafter
      · exact le_rfl
      · exact le_of_lt ((pairwise_cons.mp hrest).1 y hafter)
  · rintro ⟨hx, hp, hleast⟩
    obtain ⟨before, after, rfl⟩ := append_of_mem hx
    refine ⟨hp, before, after, rfl, fun y hy => ?_⟩
    have hlt := (pairwise_append.mp h).2.2 y hy x mem_cons_self
    rw [Bool.not_eq_true']
    by_contra hpy
    exact absurd (hleast y (by simp [hy]) (Bool.eq_true_of_not_eq_false hpy)) (not_le_of_gt hlt)

theorem getLast?_eq_some_iff_greatest : l.getLast? = some x ↔ x ∈ l ∧ ∀ y ∈ l, key y ≤ key x := by
  constructor
  · intro hlast
    obtain ⟨front, rfl⟩ := getLast?_eq_some_iff.mp hlast
    refine ⟨by simp, fun y hy => ?_⟩
    cases mem_append.mp hy with
    | inl hfront => exact le_of_lt ((pairwise_append.mp h).2.2 y hfront x (by simp))
    | inr hyx => rw [mem_singleton.mp hyx]
  · intro ⟨hx, hgreatest⟩
    cases hlast : l.getLast? with
    | none => simp [getLast?_eq_none_iff.mp hlast] at hx
    | some z =>
      obtain ⟨front, rfl⟩ := getLast?_eq_some_iff.mp hlast
      have hle := hgreatest z (by simp)
      cases mem_append.mp hx with
      | inl hfront =>
        have hlt := (pairwise_append.mp h).2.2 x hfront z (by simp)
        exact absurd hle (not_le_of_gt hlt)
      | inr hxz => rw [mem_singleton.mp hxz]

end

end First

section Echoes

variable {α : Type} (start stop row : α → Nat)

/-- Sorted entries come in this order. -/
def sortKey (x : α) : ℕ ×ₗ ℕ := toLex (start x, row x)

def Same (x y : α) : Prop := start x = start y ∧ stop x = stop y

/-- Where an entry starts earlier than one that is displayed before it, an entry with its bounds is
displayed before the other, and one with the bounds of the other behind it. -/
def Echoed (l : List α) : Prop :=
  ∀ x ∈ l, ∀ y ∈ l, row x < row y → start y < start x →
    (∃ z ∈ l, row z < row x ∧ Same start stop z y) ∧
      ∃ z ∈ l, row y < row z ∧ Same start stop z x

variable {start stop row} {displayed sorted : List α} {p : α → Bool} {x : α}

theorem sortKey_le {y : α} : sortKey start row x ≤ sortKey start row y ↔
    start x < start y ∨ start x = start y ∧ row x ≤ row y := by
  simp [sortKey, Prod.Lex.toLex_le_toLex]

variable (start row) in
/-- The entries of a list, displayed and sorted. -/
structure Sorted (displayed sorted : List α) : Prop where
  rows : displayed.Pairwise (fun a b => row a < row b)
  keys : sorted.Pairwise (fun a b => sortKey start row a < sortKey start row b)
  mem : ∀ x, x ∈ sorted ↔ x ∈ displayed

theorem find?_none_congr (hmem : ∀ x, x ∈ sorted ↔ x ∈ displayed)
    (h : displayed.find? p = none) : sorted.find? p = none := by
  rw [find?_eq_none] at h ⊢
  exact fun x hx => h x ((hmem x).mp hx)

section

variable (h : Sorted start row displayed sorted) (hecho : Echoed start stop row displayed)
include h hecho

theorem Sorted.find?_eq (hp : ∀ x y, Same start stop x y → p y = true → p x = true) :
    sorted.find? p = displayed.find? p := by
  cases hfound : displayed.find? p with
  | none => exact find?_none_congr h.mem hfound
  | some x =>
    obtain ⟨hx, hpx, hfirst⟩ := (find?_eq_some_iff_least h.rows).mp hfound
    refine (find?_eq_some_iff_least h.keys).mpr ⟨(h.mem x).mpr hx, hpx, fun y hy hpy => ?_⟩
    have hy' := (h.mem y).mp hy
    have hrow := hfirst y hy' hpy
    rw [sortKey_le]
    by_contra hbefore
    have hearlier : start y < start x := by omega
    have hlater : row x < row y := by
      refine lt_of_le_of_ne hrow (fun heq => ?_)
      rw [key_injective h.rows hx hy' heq] at hearlier
      omega
    -- the echo of `y` is displayed before `x`
    obtain ⟨⟨z, hz, hrowz, hsame⟩, _⟩ := hecho x hx y hy' hlater hearlier
    have hle := hfirst z hz (hp z y hsame hpy)
    omega

theorem Sorted.getLast?_eq : sorted.getLast? = displayed.getLast? := by
  cases hfound : displayed.getLast? with
  | none =>
    have hnil := getLast?_eq_none_iff.mp hfound
    refine getLast?_eq_none_iff.mpr (eq_nil_iff_forall_not_mem.mpr (fun x hx => ?_))
    simpa [hnil] using (h.mem x).mp hx
  | some x =>
    obtain ⟨hx, hlast⟩ := (getLast?_eq_some_iff_greatest h.rows).mp hfound
    refine (getLast?_eq_some_iff_greatest h.keys).mpr ⟨(h.mem x).mpr hx, fun y hy => ?_⟩
    have hy' := (h.mem y).mp hy
    have hrow := hlast y hy'
    rw [sortKey_le]
    by_contra hbehind
    have hearlier : start x < start y := by omega
    have hlater : row y < row x := by
      refine lt_of_le_of_ne hrow (fun heq => ?_)
      rw [key_injective h.rows hy' hx heq] at hearlier
      omega
    obtain ⟨_, z, hz, hrowz, _⟩ := hecho y hy' x hx hlater hearlier
    have hle := hlast z hz
    omega

end

variable (start) in
/-- The first of the displayed entries that start earliest, and where it starts. -/
def nearest (p : α → Bool) (bound : Nat) (l : List α) : Option α × Nat :=
  l.foldl (fun best x => if p x = true ∧ start x < best.2 then (some x, start x) else best)
    (none, bound)

variable {bound : Nat}

theorem nearest_append (l : List α) (x : α) : nearest start p bound (l ++ [x]) =
      if p x = true ∧ start x < (nearest start p bound l).2 then (some x, start x)
      else nearest start p bound l := by
  rw [nearest, foldl_append]
  rfl

structure Nearest (start row : α → Nat) (p : α → Bool) (bound : Nat) (l : List α)
    (best : Option α × Nat) : Prop where
  absent : best.1 = none → best.2 = bound ∧ ∀ x ∈ l, p x = false
  found : ∀ x, best.1 = some x → best.2 = start x ∧ x ∈ l ∧ p x = true ∧
    ∀ y ∈ l, p y = true → sortKey start row x ≤ sortKey start row y

variable {l : List α} {best : Option α × Nat}

theorem Nearest.taken (h : Nearest start row p bound l best) (hpx : p x = true)
    (hlt : start x < best.2) :
    Nearest start row p bound (l ++ [x]) (some x, start x) where
  absent h := nomatch h
  found y heq := by
    obtain rfl := Option.some.inj heq
    refine ⟨rfl, by simp, hpx, fun y hy hpy => ?_⟩
    cases mem_append.mp hy with
    | inl hyl =>
      cases hbest : best.1 with
      | none => simp [(h.absent hbest).2 y hyl] at hpy
      | some z =>
        have hz := h.found z hbest
        have hle := sortKey_le.mp (hz.2.2.2 y hyl hpy)
        exact sortKey_le.mpr (.inl (by omega))
    | inr hyx => rw [mem_singleton.mp hyx]

theorem Nearest.passed (h : Nearest start row p bound l best) (hlast : ∀ y ∈ l, row y < row x)
    (hx : start x < bound) (hnot : ¬(p x = true ∧ start x < best.2)) :
    Nearest start row p bound (l ++ [x]) best where
  absent hbest := by
    obtain ⟨hbound, hnone⟩ := h.absent hbest
    refine ⟨hbound, fun y hy => ?_⟩
    cases mem_append.mp hy with
    | inl hyl => exact hnone y hyl
    | inr hyx =>
      rw [mem_singleton.mp hyx]
      by_contra hp
      exact hnot ⟨by simpa using hp, by omega⟩
  found z hbest := by
    obtain ⟨hstart, hz, hpz, hleast⟩ := h.found z hbest
    refine ⟨hstart, by simp [hz], hpz, fun y hy hpy => ?_⟩
    cases mem_append.mp hy with
    | inl hyl => exact hleast y hyl hpy
    | inr hyx =>
      obtain rfl := mem_singleton.mp hyx
      have hrow := hlast z hz
      have hle : start z ≤ start y := by
        by_contra hlt
        exact hnot ⟨hpy, by omega⟩
      exact sortKey_le.mpr (by omega)

theorem nearest_spec {bound : Nat} (hrows : displayed.Pairwise (fun a b => row a < row b))
    (hbound : ∀ x ∈ displayed, start x < bound) :
    Nearest start row p bound displayed (nearest start p bound displayed) := by
  induction displayed using reverseRecOn with
  | nil => exact ⟨fun _ => ⟨rfl, by simp⟩, by simp [nearest]⟩
  | append_singleton l x ih =>
    have hrest := ih (pairwise_append.mp hrows).1 (fun y hy => hbound y (by simp [hy]))
    have hlast : ∀ y ∈ l, row y < row x := fun y hy =>
      (pairwise_append.mp hrows).2.2 y hy x (by simp)
    rw [nearest_append]
    split
    · next htaken => exact hrest.taken htaken.1 htaken.2
    · next hpassed => exact hrest.passed hlast (hbound x (by simp)) hpassed

theorem Sorted.find?_nearest (h : Sorted start row displayed sorted)
    (hbound : ∀ x ∈ displayed, start x < bound) :
    (nearest start p bound displayed).1 = sorted.find? p := by
  have hspec := @nearest_spec α start row displayed p bound h.rows hbound
  cases hbest : (nearest start p bound displayed).1 with
  | none =>
    rw [eq_comm, find?_eq_none]
    intro x hx
    simp [(hspec.absent hbest).2 x ((h.mem x).mp hx)]
  | some x =>
    obtain ⟨_, hx, hpx, hleast⟩ := hspec.found x hbest
    refine ((find?_eq_some_iff_least h.keys).mpr ⟨(h.mem x).mpr hx, hpx, fun y hy => ?_⟩).symm
    exact hleast y ((h.mem y).mp hy)

/-- Entries that repeat one list of bounds, in which each starts behind the last, echo. -/
theorem echoed_of_blocks {blocks : List (List α)} {bounds : List (ℕ × ℕ)}
    (hblocks : ∀ block ∈ blocks, block = [] ∨ block.map (fun x => (start x, stop x)) = bounds)
    (hbounds : bounds.Pairwise (fun a b => a.1 < b.1))
    (hrows : blocks.flatten.Pairwise (fun a b => row a < row b)) :
    Echoed start stop row blocks.flatten := by
  intro x hx y hy _ hstart
  obtain ⟨first, hfirst, hx⟩ := mem_flatten.mp hx
  obtain ⟨second, hsecond, hy⟩ := mem_flatten.mp hy
  obtain ⟨i, hi, rfl⟩ := getElem_of_mem hx
  obtain ⟨j, hj, rfl⟩ := getElem_of_mem hy
  have hsame : first.map (fun x => (start x, stop x)) = second.map (fun x => (start x, stop x)) := by
    cases hblocks first hfirst with
    | inl hnil => simp [hnil] at hi
    | inr hmap => cases hblocks second hsecond with
      | inl hnil => simp [hnil] at hj
      | inr hmap' => rw [hmap, hmap']
  have hlen : first.length = second.length := by simpa using congrArg length hsame
  have hbounds' : ∀ k (hk : k < first.length) (hk' : k < second.length),
      Same start stop first[k] second[k] := by
    intro k hk hk'
    have hget := congrArg (fun l => l[k]?) hsame
    simpa [hk, hk', Same] using hget
  have hstarts : first.Pairwise (fun a b => start a < start b) := by
    cases hblocks first hfirst with
    | inl hnil => simp [hnil]
    | inr hmap => rwa [← hmap, pairwise_map] at hbounds
  have hji : j < i := by
    have hecho := hbounds' j (by omega) hj
    by_contra hij
    by_cases heq : i = j
    · subst heq
      have := hecho.1
      omega
    · have := pairwise_iff_getElem.mp hstarts i j hi (by omega) (by omega)
      have := hecho.1
      omega
  have hrows' := (pairwise_flatten.mp hrows).1
  constructor
  · refine ⟨first[j], mem_flatten.mpr ⟨first, hfirst, getElem_mem _⟩, ?_, hbounds' j (by omega) hj⟩
    exact pairwise_iff_getElem.mp (hrows' first hfirst) j i (by omega) hi hji
  refine ⟨second[i], mem_flatten.mpr ⟨second, hsecond, getElem_mem _⟩, ?_, ?_⟩
  · exact pairwise_iff_getElem.mp (hrows' second hsecond) j i hj (by omega) hji
  · have hecho := hbounds' i hi (by omega)
    exact ⟨hecho.1.symm, hecho.2.symm⟩

end Echoes

end Bbr.Lib
