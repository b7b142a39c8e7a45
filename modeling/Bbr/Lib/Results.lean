import Mathlib.Data.List.Basic

/-!
# Computations that can fail

What a computation that succeeded says about its parts.
-/
namespace Bbr.Lib

open List

variable {ε α β : Type} {x : Except ε α} {f : α → Except ε β}

@[simp] theorem ok_bind (a : α) (f : α → Except ε β) : ((Except.ok a : Except ε α) >>= f) = f a := rfl

theorem bind_ok {b : β} (h : (x >>= f) = .ok b) : ∃ a, x = .ok a ∧ f a = .ok b := by
  cases x with
  | error e => cases h
  | ok a => exact ⟨a, rfl, h⟩

theorem map_ok {f : α → β} {b : β} (h : x.map f = .ok b) : ∃ a, x = .ok a ∧ f a = b := by
  cases x with
  | error e => cases h
  | ok a =>
    cases h
    exact ⟨a, rfl, rfl⟩

variable {a : α} {b : β} {l : List α} {out : List β}

theorem mapM_ok_iff : l.mapM f = .ok out ↔ l.map f = out.map .ok := by
  induction l generalizing out with
  | nil => cases out <;> exact iff_of_eq (by simp [pure, Except.pure])
  | cons a l ih =>
    rw [mapM_cons, map_cons]
    constructor
    · intro h
      obtain ⟨b, hb, h⟩ := bind_ok h
      obtain ⟨rest, hrest, h⟩ := bind_ok h
      cases h
      rw [hb, ih.mp hrest, map_cons]
    · intro h
      cases out with
      | nil => cases h
      | cons b out =>
        obtain ⟨hb, hout⟩ := cons.inj h
        rw [hb, ok_bind, ih.mpr hout]
        rfl

theorem mapM_cons_iff : (a :: l).mapM f = .ok (b :: out) ↔ f a = .ok b ∧ l.mapM f = .ok out := by
  rw [mapM_ok_iff, mapM_ok_iff, map_cons, map_cons, cons.injEq]

theorem mapM_map_iff {g : α → β} : l.mapM f = .ok (l.map g) ↔ ∀ a ∈ l, f a = .ok (g a) := by
  rw [mapM_ok_iff, map_map, map_inj_left]
  rfl

theorem mapM_length (h : l.mapM f = .ok out) : out.length = l.length := by
  simpa using (congrArg length (mapM_ok_iff.mp h)).symm

/-- A loop that succeeds answers every element, and every answer is that of an element. -/
theorem mapM_ok (h : l.mapM f = .ok out) :
    (∀ a ∈ l, ∃ b ∈ out, f a = .ok b) ∧ ∀ b ∈ out, ∃ a ∈ l, f a = .ok b := by
  have hmem : ∀ r, r ∈ l.map f ↔ r ∈ out.map .ok := by simp [mapM_ok_iff.mp h]
  refine ⟨fun a ha => ?_, fun b hb => mem_map.mp ((hmem _).mpr (mem_map_of_mem hb))⟩
  obtain ⟨b, hb, heq⟩ := mem_map.mp ((hmem _).mp (mem_map_of_mem ha))
  exact ⟨b, hb, heq.symm⟩

theorem foldlM_ok {step : β → α → Except ε β} {next : β → α → β} (l : List α) (start : β)
    (h : ∀ b, ∀ a ∈ l, step b a = .ok (next b a)) :
    l.foldlM step start = .ok (l.foldl next start) := by
  induction l generalizing start with
  | nil => rfl
  | cons a l ih =>
    rw [foldlM_cons, h start a mem_cons_self, ok_bind,
      ih _ (fun b a ha => h b a (mem_cons_of_mem _ ha)), foldl_cons]

end Bbr.Lib
