import Mathlib.Data.Finset.Card
import Mathlib.Data.List.Range
import Mathlib.Data.Nat.Find

/-!
# Chains of a partial function

Following a partial function from a value is a chain that may stop or run into a cycle. A value that
is reached at all is reached within as many steps as there are values that have a successor.
-/
namespace Bbr.Lib

open List Option

variable {α : Type} {up : α → Option α} {a b c : α} {m n : Nat}

/-- The value `n` steps up from `a`, when the chain is that long. -/
def ascend (up : α → Option α) : Nat → α → Option α
  | 0, a => some a
  | n + 1, a => (up a).bind (ascend up n)

@[simp] theorem ascend_zero (up : α → Option α) (a : α) : ascend up 0 a = some a := rfl

theorem ascend_add (up : α → Option α) (m n : Nat) (a : α) :
    ascend up (m + n) a = (ascend up m a).bind (ascend up n) := by
  induction m generalizing a with
  | zero => simp
  | succ m ih =>
    rw [Nat.succ_add]
    simp only [ascend, bind_assoc]
    exact congrArg _ (funext ih)

def Reaches (up : α → Option α) (a b : α) : Prop := ∃ n, ascend up n a = some b

theorem Reaches.refl (a : α) : Reaches up a a := ⟨0, rfl⟩

theorem Reaches.step (h : up a = some b) (hr : Reaches up b c) : Reaches up a c := by
  obtain ⟨n, hn⟩ := hr
  exact ⟨n + 1, by simp only [ascend, h, bind_some, hn]⟩

/-- Before the first arrival no value comes twice: a repetition could be cut out. -/
theorem ascend_injective (hn : ascend up n a = some b) (hfirst : ∀ k < n, ascend up k a ≠ some b)
    {i j : Nat} (hij : i < j) (hj : j < n) : ascend up i a ≠ ascend up j a := by
  intro heq
  have hsplit : ascend up (j + (n - j)) a = some b := by
    rw [Nat.add_sub_cancel' (Nat.le_of_lt hj)]
    exact hn
  rw [ascend_add, ← heq, ← ascend_add] at hsplit
  exact hfirst (i + (n - j)) (by omega) hsplit

theorem ascend_lt (hn : ascend up n a = some b) {i : Nat} (hi : i < n) :
    ∃ x y, ascend up i a = some x ∧ up x = some y := by
  have hsplit : ascend up (i + (n - i)) a = some b := by
    rw [Nat.add_sub_cancel' (Nat.le_of_lt hi)]
    exact hn
  rw [ascend_add] at hsplit
  obtain ⟨x, hx, hrest⟩ := bind_eq_some_iff.mp hsplit
  obtain ⟨k, hk⟩ : ∃ k, n - i = k + 1 := ⟨n - i - 1, by omega⟩
  rw [hk, ascend] at hrest
  obtain ⟨y, hy, -⟩ := bind_eq_some_iff.mp hrest
  exact ⟨x, y, hx, hy⟩

/-- A value that is reached is reached within the number of values that have a successor. -/
theorem Reaches.within (h : Reaches up a b) (support : List α)
    (hsupport : ∀ x y, up x = some y → x ∈ support) :
    ∃ n ≤ support.length, ascend up n a = some b := by
  classical
  have hn : ascend up (Nat.find h) a = some b := Nat.find_spec h
  have hfirst : ∀ k < Nat.find h, ascend up k a ≠ some b := fun k hk => Nat.find_min h hk
  refine ⟨Nat.find h, ?_, hn⟩
  let way := (range (Nat.find h)).map (fun i => (ascend up i a).getD a)
  have hway : ∀ i < Nat.find h, ascend up i a = some ((ascend up i a).getD a) := by
    intro i hi
    obtain ⟨x, -, hx, -⟩ := ascend_lt hn hi
    rw [hx, getD_some]
  have hnodup : way.Nodup := by
    refine List.Nodup.map_on ?_ nodup_range
    intro i hi j hj heq
    have hi' := mem_range.mp hi
    have hj' := mem_range.mp hj
    have hval : ascend up i a = ascend up j a := by rw [hway i hi', hway j hj', heq]
    by_contra hne
    rcases Nat.lt_or_gt_of_ne hne with hlt | hlt
    · exact ascend_injective hn hfirst hlt hj' hval
    · exact ascend_injective hn hfirst hlt hi' hval.symm
  have hsub : way ⊆ support := by
    intro x hx
    obtain ⟨i, hi, rfl⟩ := mem_map.mp hx
    obtain ⟨x, y, hx, hy⟩ := ascend_lt hn (mem_range.mp hi)
    rw [hx, getD_some]
    exact hsupport x y hy
  have hlen : way.length ≤ support.length := (hnodup.subperm hsub).length_le
  simp only [way, length_map, length_range] at hlen
  exact hlen

def OnCycle (up : α → Option α) (c : α) : Prop := ∃ n, ascend up (n + 1) c = some c

/-- On a cycle, or on a chain that runs into one. -/
def MeetsCycle (up : α → Option α) (a : α) : Prop := ∃ c, Reaches up a c ∧ OnCycle up c

/-- A chain that never stops comes back to one of finitely many values. -/
theorem meetsCycle_of_endless (support : List α)
    (h : ∀ n, ∃ b ∈ support, ascend up n a = some b) : MeetsCycle up a := by
  classical
  choose f hf hup using h
  obtain ⟨i, hi, j, hj, hne, heq⟩ : ∃ i ∈ Finset.range (support.toFinset.card + 1),
      ∃ j ∈ Finset.range (support.toFinset.card + 1), i ≠ j ∧ f i = f j := by
    apply Finset.exists_ne_map_eq_of_card_lt_of_maps_to (t := support.toFinset)
    · rw [Finset.card_range]
      exact Nat.lt_succ_self _
    · intro n _
      exact mem_toFinset.mpr (hf n)
  have hback {i j : Nat} (hlt : i < j) (heq : f i = f j) : MeetsCycle up a := by
    refine ⟨f i, ⟨i, hup i⟩, j - i - 1, ?_⟩
    have hsplit := ascend_add up i (j - i) a
    rw [Nat.add_sub_cancel' (Nat.le_of_lt hlt), hup j, hup i, bind_some] at hsplit
    rw [show j - i - 1 + 1 = j - i by omega, ← hsplit, heq]
  rcases Nat.lt_or_gt_of_ne hne with hlt | hlt
  · exact hback hlt heq
  · exact hback hlt heq.symm

def StepsTo (up : α → Option α) (a b : α) : Prop := up a = some b

theorem reaches_iff : Reaches up a b ↔ Relation.ReflTransGen (StepsTo up) a b := by
  constructor
  · rintro ⟨n, hn⟩
    induction n generalizing a with
    | zero =>
      cases hn
      exact .refl
    | succ n ih =>
      obtain ⟨x, hx, hn⟩ := bind_eq_some_iff.mp hn
      exact .head hx (ih hn)
  · intro h
    induction h using Relation.ReflTransGen.head_induction_on with
    | refl => exact .refl b
    | head hx _ ih => exact ih.step hx

theorem onCycle_iff : OnCycle up a ↔ Relation.TransGen (StepsTo up) a a := by
  rw [Relation.TransGen.head'_iff]
  simp only [← reaches_iff]
  constructor
  · rintro ⟨n, hn⟩
    obtain ⟨x, hx, hn⟩ := bind_eq_some_iff.mp hn
    exact ⟨x, hx, n, hn⟩
  · rintro ⟨x, hx, n, hn⟩
    exact ⟨n, bind_eq_some_iff.mpr ⟨x, hx, hn⟩⟩

/-- The chain of `a` stops at `b`. -/
def EndsAt (up : α → Option α) (a b : α) : Prop := Reaches up a b ∧ up b = none

theorem EndsAt.self (h : up a = none) : EndsAt up a a := ⟨.refl a, h⟩

theorem EndsAt.head (h : up a = some b) (he : EndsAt up b c) : EndsAt up a c := ⟨he.1.step h, he.2⟩

theorem EndsAt.tail (h : up a = some b) (he : EndsAt up a c) : EndsAt up b c := by
  obtain ⟨⟨n, hn⟩, hc⟩ := he
  cases n with
  | zero =>
    cases hn
    rw [h] at hc
    cases hc
  | succ n =>
    simp only [ascend, h, bind_some] at hn
    exact ⟨⟨n, hn⟩, hc⟩

theorem EndsAt.unique (h : EndsAt up a b) (h' : EndsAt up a c) : b = c := by
  obtain ⟨⟨n, hn⟩, hb⟩ := h
  induction n generalizing a with
  | zero =>
    cases hn
    obtain ⟨⟨m, hm⟩, -⟩ := h'
    cases m with
    | zero => exact some.inj hm
    | succ m => simp [ascend, hb] at hm
  | succ n ih =>
    obtain ⟨x, hx, hn⟩ := bind_eq_some_iff.mp hn
    exact ih (h'.tail hx) hn

/-- A chain among finitely many values stops, unless it runs into a cycle. -/
theorem exists_ends (support : List α) (hsupport : ∀ x y, up x = some y → y ∈ support)
    (h : ∀ c, ¬OnCycle up c) (a : α) : ∃ b, EndsAt up a b := by
  by_contra hnever
  obtain ⟨c, -, hc⟩ : MeetsCycle up a := by
    apply meetsCycle_of_endless (a :: support)
    intro n
    induction n with
    | zero => exact ⟨a, List.mem_cons_self, rfl⟩
    | succ n ih =>
      obtain ⟨b, -, hb⟩ := ih
      cases hup : up b with
      | none => exact absurd ⟨b, ⟨n, hb⟩, hup⟩ hnever
      | some d =>
        refine ⟨d, List.mem_cons_of_mem _ (hsupport b d hup), ?_⟩
        rw [ascend_add, hb]
        simp [ascend, hup]
  exact h c hc

/-- Nothing on a cycle stops: its chain comes back, and an end cannot be passed. -/
theorem OnCycle.not_ends (h : OnCycle up a) : ¬EndsAt up a b := by
  rintro ⟨⟨n, hn⟩, hb⟩
  obtain ⟨k, hk⟩ := h
  induction n generalizing a k with
  | zero =>
    cases hn
    simp [ascend, hb] at hk
  | succ n ih =>
    obtain ⟨x, hx, hn⟩ := bind_eq_some_iff.mp hn
    refine ih hn k ?_
    rw [ascend, hx, bind_some] at hk
    rw [ascend_add, hk]
    simp [ascend, hx]

end Bbr.Lib
