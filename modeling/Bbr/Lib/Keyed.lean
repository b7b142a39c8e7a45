import Mathlib.Data.List.Nodup

/-!
# Tables with one row for each key

A table is a list of rows whose keys are distinct; the proof travels with the rows, so a lookup by
key needs no side condition. Rows are changed in place by functions that keep the key, removed by
a filter, and added or replaced by `put`.
-/
namespace Bbr.Lib

open List

/-- Rows of type `α`, identified by `keyOf`. -/
structure Keyed {κ α : Type} (keyOf : α → κ) where
  rows : List α
  distinct : (rows.map keyOf).Nodup

namespace Keyed

variable {κ α : Type} {keyOf : α → κ}

def empty : Keyed keyOf := ⟨[], by simp⟩

instance : Inhabited (Keyed keyOf) := ⟨empty⟩

instance [DecidableEq α] : DecidableEq (Keyed keyOf) := fun a b =>
  decidable_of_iff (a.rows = b.rows) (by
    constructor
    · intro h; cases a; cases b; cases h; rfl
    · rintro rfl; rfl)

/-- Change every row, keeping its key. -/
def mapRows (t : Keyed keyOf) (f : α → α) (hf : ∀ a, keyOf (f a) = keyOf a) : Keyed keyOf where
  rows := t.rows.map f
  distinct := by
    have hkeys : (t.rows.map f).map keyOf = t.rows.map keyOf := by
      rw [List.map_map]
      exact List.map_congr_left (fun a _ => hf a)
    rw [hkeys]
    exact t.distinct

def filterRows (t : Keyed keyOf) (p : α → Bool) : Keyed keyOf where
  rows := t.rows.filter p
  distinct := t.distinct.sublist (List.filter_sublist.map keyOf)

variable [DecidableEq κ]

def lookup (t : Keyed keyOf) (k : κ) : Option α := t.rows.find? (fun a => decide (keyOf a = k))

def modify (t : Keyed keyOf) (k : κ) (f : α → α) (hf : ∀ a, keyOf (f a) = keyOf a) : Keyed keyOf :=
  t.mapRows (fun a => if keyOf a = k then f a else a)
    (fun a => by by_cases h : keyOf a = k <;> simp [h, hf])

/-- Replace the row with this key, else append. -/
def putRow (keyOf : α → κ) (a : α) (rows : List α) : List α :=
  if keyOf a ∈ rows.map keyOf then rows.map (fun b => if keyOf b = keyOf a then a else b)
  else rows ++ [a]

variable {rows : List α}

theorem putRow_nodup (a : α) (hd : (rows.map keyOf).Nodup) :
    ((putRow keyOf a rows).map keyOf).Nodup := by
  unfold putRow
  split
  · have hkeys : (rows.map (fun b => if keyOf b = keyOf a then a else b)).map keyOf =
        rows.map keyOf := by
      rw [map_map]
      refine map_congr_left (fun b _ => ?_)
      by_cases hb : keyOf b = keyOf a <;> simp [hb]
    rw [hkeys]
    exact hd
  · next h =>
    rw [map_append, nodup_append]
    refine ⟨hd, by simp, ?_⟩
    intro k hk k' hk'
    rw [map_singleton, mem_singleton] at hk'
    rintro rfl
    exact h (hk' ▸ hk)

theorem mem_putRow (a : α) (rows : List α) (b : α) :
    b ∈ putRow keyOf a rows ↔ b = a ∨ (b ∈ rows ∧ keyOf b ≠ keyOf a) := by
  unfold putRow
  split
  · next h =>
    constructor
    · intro hb
      obtain ⟨c, hc, rfl⟩ := mem_map.mp hb
      by_cases hk : keyOf c = keyOf a
      · exact .inl (by simp [hk])
      · exact .inr (by simp [hk, hc])
    · rintro (rfl | ⟨hb, hk⟩)
      · obtain ⟨c, hc, hkc⟩ := mem_map.mp h
        exact mem_map.mpr ⟨c, hc, by simp [hkc]⟩
      · exact mem_map.mpr ⟨b, hb, by simp [hk]⟩
  · next h =>
    rw [mem_append, mem_singleton]
    constructor
    · rintro (hb | rfl)
      · exact .inr ⟨hb, fun hk => h (hk ▸ mem_map_of_mem hb)⟩
      · exact .inl rfl
    · rintro (rfl | ⟨hb, -⟩)
      · exact .inr rfl
      · exact .inl hb

def put (t : Keyed keyOf) (a : α) : Keyed keyOf := ⟨putRow keyOf a t.rows, putRow_nodup a t.distinct⟩

variable {t : Keyed keyOf} {k : κ} {a : α}

theorem lookup_key (h : t.lookup k = some a) : keyOf a = k := by
  simpa using find?_some h

theorem lookup_mem (h : t.lookup k = some a) : a ∈ t.rows := mem_of_find?_eq_some h

theorem find?_of_mem (hd : (rows.map keyOf).Nodup) (h : a ∈ rows) :
    rows.find? (fun b => decide (keyOf b = keyOf a)) = some a := by
  cases hfind : rows.find? (fun b => decide (keyOf b = keyOf a)) with
  | none => exact absurd (decide_eq_true rfl) (find?_eq_none.mp hfind a h)
  | some b =>
    have hsame := find?_some (p := fun b => decide (keyOf b = keyOf a)) hfind
    rw [inj_on_of_nodup_map hd (mem_of_find?_eq_some hfind) h (of_decide_eq_true hsame)]

theorem lookup_of_mem (h : a ∈ t.rows) : t.lookup (keyOf a) = some a := find?_of_mem t.distinct h

theorem mem_iff_lookup : a ∈ t.rows ↔ t.lookup (keyOf a) = some a := ⟨lookup_of_mem, lookup_mem⟩

theorem lookup_eq_none : t.lookup k = none ↔ ∀ a ∈ t.rows, keyOf a ≠ k := by
  simp [lookup]

theorem lookup_mapRows (t : Keyed keyOf) (f : α → α) (hf : ∀ a, keyOf (f a) = keyOf a) (k : κ) :
    (t.mapRows f hf).lookup k = (t.lookup k).map f := by
  obtain ⟨rows, hd⟩ := t
  simp only [lookup, mapRows]
  induction rows with
  | nil => rfl
  | cons a rest ih => by_cases h : keyOf a = k <;> simp_all

@[simp] theorem lookup_modify (t : Keyed keyOf) (k : κ) (f : α → α)
    (hf : ∀ a, keyOf (f a) = keyOf a) (k' : κ) :
    (t.modify k f hf).lookup k' = if k' = k then (t.lookup k).map f else t.lookup k' := by
  rw [modify, lookup_mapRows]
  by_cases h : k' = k
  · subst h
    rw [if_pos rfl]
    cases hl : t.lookup k' with
    | none => rfl
    | some a => simp [lookup_key hl]
  · rw [if_neg h]
    cases hl : t.lookup k' with
    | none => rfl
    | some a => simp [lookup_key hl, h]

theorem lookup_filterRows (t : Keyed keyOf) (p : α → Bool) (k : κ) :
    (t.filterRows p).lookup k = (t.lookup k).filter p := by
  cases hl : t.lookup k with
  | none =>
    rw [lookup_eq_none] at hl
    rw [Option.filter_none, lookup_eq_none]
    intro a ha
    exact hl a (mem_of_mem_filter ha)
  | some a =>
    cases hp : p a with
    | true =>
      have hmem : a ∈ (t.filterRows p).rows := mem_filter.mpr ⟨lookup_mem hl, hp⟩
      have := lookup_of_mem hmem
      rw [lookup_key hl] at this
      simp [this, Option.filter, hp]
    | false =>
      have hnone : (t.filterRows p).lookup k = none := by
        rw [lookup_eq_none]
        intro b hb hk
        obtain ⟨hmem, hpb⟩ := mem_filter.mp hb
        have hb' := lookup_of_mem hmem
        rw [hk, hl] at hb'
        cases hb'
        rw [hp] at hpb
        cases hpb
      simp [hnone, Option.filter, hp]

theorem lookup_put (t : Keyed keyOf) (a : α) (k : κ) :
    (t.put a).lookup k = if k = keyOf a then some a else t.lookup k := by
  have hmem : ∀ b, b ∈ (t.put a).rows ↔ b = a ∨ (b ∈ t.rows ∧ keyOf b ≠ keyOf a) := mem_putRow a t.rows
  by_cases hk : k = keyOf a
  · subst hk
    rw [if_pos rfl]
    exact lookup_of_mem ((hmem a).mpr (.inl rfl))
  rw [if_neg hk]
  cases hl : t.lookup k with
  | none =>
    rw [lookup_eq_none] at hl ⊢
    intro b hb hkb
    rcases (hmem b).mp hb with rfl | ⟨hb', -⟩
    · exact hk hkb.symm
    · exact hl b hb' hkb
  | some b =>
    have hkb := lookup_key hl
    have hin := (hmem b).mpr (.inr ⟨lookup_mem hl, by rw [hkb]; exact hk⟩)
    have := lookup_of_mem hin
    rw [hkb] at this
    exact this

end Keyed

end Bbr.Lib
