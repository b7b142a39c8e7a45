import Mathlib.Data.List.Sort
import Mathlib.Data.List.TakeWhile

/-!
# Preorders as depths

The entries of a sequence are nodes of a forest in preorder, each with its depth. An entry lies above a
later one when all entries up to that one are deeper. A stack of open entries, cut whenever the depth
falls, holds the entries above the next one, nearest first.
-/
namespace Bbr.Lib.Preorder

open List

variable (depth : Nat → Nat)

def Above (j k : Nat) : Prop := j < k ∧ ∀ i, j < i → i ≤ k → depth j < depth i

/-- The entries above entry `k`, nearest first. -/
def path : Nat → List Nat
  | 0 => []
  | k + 1 => (k :: path k).dropWhile (fun j => decide (depth (k + 1) ≤ depth j))

/-- The next entry of the same depth below the same entry. -/
def Next (k s : Nat) : Prop :=
  k < s ∧ depth s = depth k ∧ ∀ i, k < i → i < s → depth k < depth i

/-- The first entry is a root, and every entry is one deeper than the one before it at most. -/
structure Steps (n : Nat) : Prop where
  first : depth 0 = 0
  step : ∀ k, k + 1 < n → depth (k + 1) ≤ depth k + 1

variable {depth} {j k : Nat}

theorem Above.trans {i : Nat} (hij : Above depth i j) (hjk : Above depth j k) :
    Above depth i k := by
  refine ⟨Nat.lt_trans hij.1 hjk.1, fun m him hmk => ?_⟩
  by_cases hmj : m ≤ j
  · exact hij.2 m him hmj
  · exact Nat.lt_trans (hij.2 j hij.1 (Nat.le_refl j)) (hjk.2 m (by omega) hmk)

theorem Above.between {i : Nat} (h : Above depth i k) (hij : i < j) (hjk : j ≤ k) :
    Above depth i j :=
  ⟨hij, fun m him hmj => h.2 m him (Nat.le_trans hmj hjk)⟩

theorem Above.depth_lt (h : Above depth j k) : depth j < depth k := h.2 k h.1 (Nat.le_refl k)

/-- From the nearest entry on, indices and depths fall. -/
def Falling (depth : Nat → Nat) (entries : List Nat) : Prop :=
  entries.Pairwise (fun a b => b < a ∧ depth b < depth a)

theorem mem_dropWhile {d : Nat} {entries : List Nat} (h : Falling depth entries) :
    j ∈ entries.dropWhile (fun j => decide (d ≤ depth j)) ↔ j ∈ entries ∧ depth j < d := by
  induction entries with
  | nil => simp
  | cons first entries ih =>
    obtain ⟨hfirst, hrest⟩ := pairwise_cons.mp h
    by_cases hd : d ≤ depth first
    · simp only [dropWhile_cons, hd, decide_true, if_true, ih hrest, mem_cons]
      constructor
      · exact fun hj => ⟨.inr hj.1, hj.2⟩
      · rintro ⟨rfl | hj, hlt⟩
        · omega
        · exact ⟨hj, hlt⟩
    · simp only [dropWhile_cons, hd, decide_false, Bool.false_eq_true, if_false]
      refine (and_iff_left_of_imp (fun hj => ?_)).symm
      cases mem_cons.mp hj with
      | inl heq => subst heq; omega
      | inr hj => have := hfirst j hj; omega

theorem mem_takeWhile {d : Nat} {entries : List Nat} (h : Falling depth entries) :
    j ∈ entries.takeWhile (fun j => decide (d ≤ depth j)) ↔ j ∈ entries ∧ d ≤ depth j := by
  constructor
  · intro hj
    exact ⟨(takeWhile_sublist _).subset hj, by simpa using mem_takeWhile_imp hj⟩
  rintro ⟨hj, hle⟩
  rw [← takeWhile_append_dropWhile (p := fun j => decide (d ≤ depth j)) (l := entries)] at hj
  refine (mem_append.mp hj).resolve_right (fun hdrop => ?_)
  have := ((mem_dropWhile h).mp hdrop).2
  omega

theorem stack_spec (depth : Nat → Nat) (k : Nat) : Falling depth (k :: path depth k) ∧
    ∀ j, j ∈ path depth k ↔ Above depth j k := by
  induction k with
  | zero =>
    refine ⟨pairwise_singleton _ _, fun j => ?_⟩
    simp [path, Above]
  | succ k ih =>
    obtain ⟨hfalling, hmem⟩ := ih
    have hpath : ∀ j, j ∈ path depth (k + 1) ↔ Above depth j (k + 1) := by
      intro j
      rw [path, mem_dropWhile hfalling, mem_cons, hmem]
      constructor
      · rintro ⟨hj, hlt⟩
        have hle : j ≤ k ∧ ∀ i, j < i → i ≤ k → depth j < depth i := by
          cases hj with
          | inl heq => subst heq; exact ⟨Nat.le_refl j, fun i hi hi' => by omega⟩
          | inr h => exact ⟨Nat.le_of_lt h.1, h.2⟩
        refine ⟨by omega, fun i hi hi' => ?_⟩
        by_cases heq : i = k + 1
        · rwa [heq]
        · exact hle.2 i hi (by omega)
      · intro h
        refine ⟨?_, h.depth_lt⟩
        by_cases heq : j = k
        · exact .inl heq
        · exact .inr (h.between (by have := h.1; omega) (by omega))
    refine ⟨pairwise_cons.mpr ⟨fun j hj => ?_, ?_⟩, hpath⟩
    · have habove := (hpath j).mp hj
      exact ⟨habove.1, habove.depth_lt⟩
    · exact hfalling.sublist (dropWhile_sublist _)

theorem mem_path : j ∈ path depth k ↔ Above depth j k := (stack_spec depth k).2 j

theorem mem_stack : j ∈ k :: path depth k ↔ j ≤ k ∧ ∀ i, j < i → i ≤ k → depth j < depth i := by
  rw [mem_cons, mem_path]
  constructor
  · rintro (rfl | h)
    · exact ⟨Nat.le_refl j, fun i hi hi' => by omega⟩
    · exact ⟨Nat.le_of_lt h.1, h.2⟩
  · rintro ⟨hle, h⟩
    by_cases heq : j = k
    · exact .inl heq
    · exact .inr ⟨by omega, h⟩

theorem path_falling (depth : Nat → Nat) (k : Nat) : Falling depth (path depth k) :=
  (pairwise_cons.mp (stack_spec depth k).1).2

theorem falling_eq {a b : List Nat} (ha : Falling depth a) (hb : Falling depth b)
    (h : ∀ j, j ∈ a ↔ j ∈ b) : a = b := by
  exact List.Pairwise.eq_of_mem_iff (ha.imp (fun hab => hab.1)) (hb.imp (fun hab => hab.1)) h

variable {p : Nat}

theorem path_tail {rest : List Nat} (h : path depth k = p :: rest) : rest = path depth p := by
  have hfalling := path_falling depth k
  rw [h] at hfalling
  obtain ⟨hfirst, hrest⟩ := pairwise_cons.mp hfalling
  have hp : Above depth p k := mem_path.mp (by rw [h]; exact mem_cons_self)
  refine falling_eq hrest (path_falling depth p) (fun j => ?_)
  rw [mem_path]
  constructor
  · intro hj
    have hjk : Above depth j k := mem_path.mp (by rw [h]; exact mem_cons_of_mem _ hj)
    exact hjk.between (hfirst j hj).1 (Nat.le_of_lt hp.1)
  · intro hj
    have hjk : j ∈ path depth k := mem_path.mpr (hj.trans hp)
    rw [h] at hjk
    exact (mem_cons.mp hjk).resolve_left (fun heq => by have := hj.1; omega)

/-- The nearest entry above is the latest earlier one that is less deep. -/
theorem head_path : (path depth k).head? = some p ↔ Above depth p k ∧ ∀ j, Above depth j k → j ≤ p := by
  cases hpath : path depth k with
  | nil =>
    simp only [head?_nil, reduceCtorEq, false_iff, not_and]
    intro h
    have := mem_path.mpr h
    rw [hpath] at this
    cases this
  | cons first rest =>
    have hfalling := path_falling depth k
    rw [hpath] at hfalling
    have hmem : ∀ j, Above depth j k ↔ j = first ∨ j ∈ rest := by
      intro j
      rw [← mem_path, hpath, mem_cons]
    rw [head?_cons, Option.some.injEq]
    constructor
    · rintro rfl
      refine ⟨(hmem _).mpr (.inl rfl), fun j hj => ?_⟩
      cases (hmem j).mp hj with
      | inl heq => omega
      | inr hj => exact Nat.le_of_lt ((pairwise_cons.mp hfalling).1 j hj).1
    · rintro ⟨hp, hlast⟩
      have hle := hlast first ((hmem first).mpr (.inl rfl))
      cases (hmem p).mp hp with
      | inl heq => exact heq.symm
      | inr hp => have := ((pairwise_cons.mp hfalling).1 p hp).1; omega

theorem above_iff_transGen : Above depth j k ↔
    Relation.TransGen (fun p c => (path depth c).head? = some p) j k := by
  constructor
  · intro h
    induction k using Nat.strong_induction_on with
    | _ k ih =>
      cases hpath : path depth k with
      | nil =>
        have := mem_path.mpr h
        rw [hpath] at this
        cases this
      | cons p rest =>
        have hparent : (path depth k).head? = some p := by rw [hpath, head?_cons]
        obtain ⟨hp, hlast⟩ := head_path.mp hparent
        by_cases heq : j = p
        · subst heq
          exact .single hparent
        · have := hlast j h
          exact .tail (ih p hp.1 (h.between (by omega) (Nat.le_of_lt hp.1))) hparent
  · intro h
    induction h with
    | single h => exact (head_path.mp h).1
    | tail _ h ih => exact ih.trans (head_path.mp h).1

theorem Next.path_eq {s : Nat} (h : Next depth k s) : path depth s = path depth k := by
  obtain ⟨hlt, heq, hdeep⟩ := h
  refine falling_eq (path_falling depth s) (path_falling depth k) (fun j => ?_)
  rw [mem_path, mem_path]
  constructor
  · intro hj
    have hjk : j < k := by
      by_contra hge
      have hdepth := hj.depth_lt
      by_cases hjeq : j = k
      · subst hjeq; omega
      · have := hdeep j (by omega) hj.1
        omega
    exact hj.between hjk (Nat.le_of_lt hlt)
  · intro hj
    refine ⟨Nat.lt_trans hj.1 hlt, fun i hji his => ?_⟩
    by_cases hik : i ≤ k
    · exact hj.2 i hji hik
    have hlt' := hj.depth_lt
    by_cases hieq : i = s
    · subst hieq; omega
    · have := hdeep i (by omega) (by omega)
      omega

theorem Next.unique {s t : Nat} (hs : Next depth k s) (ht : Next depth k t) : s = t := by
  obtain ⟨hks, hds, hs⟩ := hs
  obtain ⟨hkt, hdt, ht⟩ := ht
  by_contra hne
  by_cases hlt : s < t
  · have := ht s hks hlt
    omega
  · have := hs t hkt (by omega)
    omega

/-- The entry before the next one is the last that the cut of the stack takes. -/
theorem next_iff_stack {m : Nat} : Next depth k (m + 1) ↔
    k ∈ m :: path depth m ∧ depth k = depth (m + 1) := by
  rw [mem_stack]
  constructor
  · rintro ⟨hlt, heq, hdeep⟩
    exact ⟨⟨by omega, fun i hi hi' => hdeep i hi (by omega)⟩, heq.symm⟩
  · rintro ⟨⟨hle, hdeep⟩, heq⟩
    exact ⟨by omega, heq.symm, fun i hi hi' => hdeep i hi (by omega)⟩

variable {n : Nat}

section

variable (h : Steps depth n) (hk : k < n)
include h hk

theorem Steps.exists_above {d : Nat} (hd : d < depth k) : ∃ p, Above depth p k ∧ depth p = d := by
  induction k with
  | zero =>
    rw [h.first] at hd
    omega
  | succ k ih =>
    have hstep := h.step k hk
    by_cases hlt : d < depth k
    · obtain ⟨p, hp, hpd⟩ := ih (by omega) hlt
      refine ⟨p, ⟨by have := hp.1; omega, fun i hpi hi => ?_⟩, hpd⟩
      by_cases heq : i = k + 1
      · subst heq; omega
      · exact hp.2 i hpi (by omega)
    · refine ⟨k, ⟨Nat.lt_succ_self k, fun i hki hi => ?_⟩, by omega⟩
      obtain rfl : i = k + 1 := by omega
      omega

theorem Steps.parent_depth (hp : (path depth k).head? = some p) : depth k = depth p + 1 := by
  obtain ⟨habove, hlast⟩ := head_path.mp hp
  have hlt := habove.depth_lt
  obtain ⟨q, hq, hqd⟩ := h.exists_above (d := depth k - 1) hk (by omega)
  have hle := hlast q hq
  by_cases heq : q = p
  · subst heq; omega
  · have := (hq.between (by omega) (Nat.le_of_lt habove.1)).depth_lt
    omega

theorem Steps.parent_isSome : ((path depth k).head?).isSome ↔ 0 < depth k := by
  constructor
  · intro hsome
    obtain ⟨p, hp⟩ := Option.isSome_iff_exists.mp hsome
    rw [h.parent_depth hk hp]
    exact Nat.succ_pos _
  intro hpos
  obtain ⟨p, hp, -⟩ := h.exists_above hk hpos
  cases hpath : path depth k with
  | nil =>
    have := mem_path.mpr hp
    rw [hpath] at this
    cases this
  | cons p rest => rfl

/-- The nearest entry above is the latest earlier one that is one less deep. -/
theorem Steps.parent_iff : (path depth k).head? = some p ↔
      p < k ∧ depth p + 1 = depth k ∧ ∀ i, p < i → i < k → depth p < depth i := by
  constructor
  · intro hp
    have habove := (head_path.mp hp).1
    exact ⟨habove.1, (h.parent_depth hk hp).symm, fun i hi hi' => habove.2 i hi (Nat.le_of_lt hi')⟩
  rintro ⟨hlt, hd, hdeep⟩
  refine head_path.mpr ⟨⟨hlt, fun i hi hi' => ?_⟩, fun j hj => ?_⟩
  · by_cases heq : i = k
    · subst heq; omega
    · exact hdeep i hi (by omega)
  · by_contra hgt
    have hpj := hdeep j (by omega) hj.1
    have := hj.depth_lt
    omega

end

/-- The next entry of the same depth is the next one below the same entry. -/
theorem Steps.next_iff (h : Steps depth n) {s : Nat} (hs : s < n)
    (hp : (path depth k).head? = some p) : Next depth k s ↔ k < s ∧ (path depth s).head? = some p ∧
        ∀ i, k < i → i < s → (path depth i).head? ≠ some p := by
  have hpk := head_path.mp hp
  constructor
  · intro hnext
    refine ⟨hnext.1, by rw [hnext.path_eq, hp], fun i hki his hi => ?_⟩
    have hbelow : Above depth k i := ⟨hki, fun m hm hm' => hnext.2.2 m hm (by omega)⟩
    have := (head_path.mp hi).2 k hbelow
    have := hpk.1.1
    omega
  · rintro ⟨hlt, hps, hnone⟩
    have hdk := h.parent_depth (by omega) hp
    have hds := h.parent_depth hs hps
    refine ⟨hlt, by omega, fun i hki his => ?_⟩
    have hpi : Above depth p i :=
      (head_path.mp hps).1.between (Nat.lt_trans hpk.1.1 hki) (Nat.le_of_lt his)
    by_contra hle
    refine hnone i hki his (head_path.mpr ⟨hpi, fun j hj => ?_⟩)
    by_contra hgt
    have hpj := (hpi.between (by omega) (Nat.le_of_lt hj.1)).depth_lt
    have := hj.depth_lt
    omega

end Bbr.Lib.Preorder
