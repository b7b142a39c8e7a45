import Mathlib.Data.List.Induction
import Mathlib.Data.List.Sort

/-!
# The best entry of every key

Entries arrive in some order. A list keeps the best entry of every key that arrived, where a better
one takes the place of the one before. What is kept does not depend on the order of arrival, but for
entries of one rank.
-/
namespace Bbr.Lib

open List

variable {α κ ρ : Type} [LinearOrder ρ] (key : α → κ) (rank : α → ρ)

/-- The kept entries are the best ones of the keys of all entries. -/
structure Champions (entries kept : List α) : Prop where
  nodup : (kept.map key).Nodup
  mem : ∀ a ∈ kept, a ∈ entries
  best : ∀ a ∈ kept, ∀ b ∈ entries, key b = key a → rank a ≤ rank b
  cover : ∀ b ∈ entries, ∃ a ∈ kept, key a = key b

variable {key rank} {entries entries' kept kept' : List α} {entry : α}

theorem champions_nil : Champions key rank [] [] where
  nodup := nodup_nil
  mem _ h := nomatch h
  best _ h := nomatch h
  cover _ h := nomatch h

section

variable (h : Champions key rank entries kept)
include h

theorem Champions.perm (hperm : kept'.Perm kept) : Champions key rank entries kept' where
  nodup := (hperm.map key).nodup_iff.mpr h.nodup
  mem a ha := h.mem a (hperm.mem_iff.mp ha)
  best a ha := h.best a (hperm.mem_iff.mp ha)
  cover b hb := by
    obtain ⟨a, ha, heq⟩ := h.cover b hb
    exact ⟨a, hperm.mem_iff.mpr ha, heq⟩

theorem Champions.mem_ranks {r : ρ} : r ∈ kept.map rank ↔
      ∃ a ∈ entries, rank a = r ∧ ∀ b ∈ entries, key b = key a → rank a ≤ rank b := by
  rw [mem_map]
  constructor
  · rintro ⟨a, ha, rfl⟩
    exact ⟨a, h.mem a ha, rfl, h.best a ha⟩
  · rintro ⟨a, ha, rfl, hbest⟩
    obtain ⟨c, hc, hkey⟩ := h.cover a ha
    exact ⟨c, hc, le_antisymm (h.best c hc a ha hkey.symm) (hbest c (h.mem c hc) hkey)⟩

theorem Champions.ranks_eq (h' : Champions key rank entries' kept')
    (hmem : ∀ a, a ∈ entries ↔ a ∈ entries') (hsorted : (kept.map rank).Pairwise (· < ·))
    (hsorted' : (kept'.map rank).Pairwise (· < ·)) : kept.map rank = kept'.map rank := by
  refine List.Pairwise.eq_of_mem_iff hsorted hsorted' (fun r => ?_)
  rw [h.mem_ranks, h'.mem_ranks]
  simp only [hmem]

/-- Where equal ranks have equal keys, sorted entries rise strictly. -/
theorem Champions.strict (hkey : ∀ a b, rank a = rank b → key a = key b)
    (hsorted : kept.Pairwise (fun a b => rank a ≤ rank b)) :
    kept.Pairwise (fun a b => rank a < rank b) := by
  have hne : kept.Pairwise (fun a b => key a ≠ key b) := pairwise_map.mp h.nodup
  exact (hsorted.and hne).imp (fun hab => lt_of_le_of_ne hab.1 (fun heq => hab.2 (hkey _ _ heq)))

end

variable [DecidableEq κ]

variable (key rank) in
/-- A better entry takes the place of the one of its key. -/
def keepBetter (entry : α) : List α → List α
  | [] => [entry]
  | kept :: rest =>
    if key kept = key entry then (if rank entry < rank kept then entry else kept) :: rest
    else kept :: keepBetter entry rest

/-- An entry of a new key is put last, another one changes no key. -/
theorem keepBetter_keys (key : α → κ) (rank : α → ρ) (entry : α) (kept : List α) :
    (keepBetter key rank entry kept).map key =
      if key entry ∈ kept.map key then kept.map key else kept.map key ++ [key entry] := by
  induction kept with
  | nil => simp [keepBetter]
  | cons first kept ih =>
    by_cases hkey : key first = key entry
    · have hhead : key (if rank entry < rank first then entry else first) = key first := by
        split
        · exact hkey.symm
        · rfl
      rw [keepBetter, if_pos hkey, map_cons, map_cons, hhead, hkey, if_pos mem_cons_self]
    · have hkey' : key entry ≠ key first := fun heq => hkey heq.symm
      rw [keepBetter, if_neg hkey, map_cons, ih, map_cons]
      by_cases hmem : key entry ∈ kept.map key
      · rw [if_pos hmem, if_pos (mem_cons_of_mem _ hmem)]
      · rw [if_neg hmem, if_neg (by simpa [hkey'] using hmem)]
        rfl

/-- A kept entry is the new one or an old one, the better of both if they have one key. -/
theorem mem_keepBetter (hnodup : (kept.map key).Nodup) {a : α}
    (h : a ∈ keepBetter key rank entry kept) :
    (a = entry ∧ ∀ b ∈ kept, key b = key entry → rank entry ≤ rank b) ∨
    (a ∈ kept ∧ (key a = key entry → rank a ≤ rank entry)) := by
  induction kept with
  | nil =>
    rw [keepBetter, mem_singleton] at h
    exact .inl ⟨h, fun b hb => nomatch hb⟩
  | cons first kept ih =>
    obtain ⟨hfirst, hnodup⟩ := nodup_cons.mp hnodup
    by_cases hkey : key first = key entry
    · have hother : ∀ b ∈ kept, key b ≠ key entry := fun b hb heq =>
        hfirst (mem_map.mpr ⟨b, hb, heq.trans hkey.symm⟩)
      rw [keepBetter, if_pos hkey] at h
      cases mem_cons.mp h with
      | inl h =>
        split at h
        · next hlt =>
          refine .inl ⟨h, fun b hb heq => ?_⟩
          cases mem_cons.mp hb with
          | inl hb => exact hb ▸ le_of_lt hlt
          | inr hb => exact absurd heq (hother b hb)
        · next hlt => exact .inr ⟨h ▸ mem_cons_self, fun _ => h ▸ le_of_not_gt hlt⟩
      | inr h => exact .inr ⟨mem_cons_of_mem _ h, fun heq => absurd heq (hother a h)⟩
    · rw [keepBetter, if_neg hkey] at h
      cases mem_cons.mp h with
      | inl h => exact .inr ⟨h ▸ mem_cons_self, fun heq => absurd (h ▸ heq) hkey⟩
      | inr h =>
        cases ih hnodup h with
        | inl h =>
          refine .inl ⟨h.1, fun b hb heq => ?_⟩
          cases mem_cons.mp hb with
          | inl hb => exact absurd (hb ▸ heq) hkey
          | inr hb => exact h.2 b hb heq
        | inr h => exact .inr ⟨mem_cons_of_mem _ h.1, h.2⟩

theorem Champions.arrive (h : Champions key rank entries kept) (entry : α) :
    Champions key rank (entries ++ [entry]) (keepBetter key rank entry kept) := by
  have hkeys := keepBetter_keys key rank entry kept
  have hcover : ∀ k, k ∈ (keepBetter key rank entry kept).map key ↔
      k = key entry ∨ k ∈ kept.map key := by
    intro k
    rw [hkeys]
    split
    · next hmem => exact ⟨.inr, fun hk => hk.elim (fun heq => heq ▸ hmem) id⟩
    · rw [mem_append, mem_singleton, or_comm]
  constructor
  · rw [hkeys]
    split
    · exact h.nodup
    rename_i hmem
    refine nodup_append.mpr ⟨h.nodup, nodup_singleton _, fun k hk k' hk' heq => ?_⟩
    rw [heq, mem_singleton.mp hk'] at hk
    exact hmem hk
  · intro a ha
    cases mem_keepBetter h.nodup ha with
    | inl ha => simp [ha.1]
    | inr ha => exact mem_append_left _ (h.mem a ha.1)
  · intro a ha b hb hkey
    cases mem_keepBetter h.nodup ha with
    | inl ha =>
      obtain ⟨rfl, hbest⟩ := ha
      cases mem_append.mp hb with
      | inl hb =>
        obtain ⟨c, hc, hck⟩ := h.cover b hb
        exact le_trans (hbest c hc (hck.trans hkey)) (h.best c hc b hb hck.symm)
      | inr hb => rw [mem_singleton.mp hb]
    | inr ha =>
      cases mem_append.mp hb with
      | inl hb => exact h.best a ha.1 b hb hkey
      | inr hb =>
        rw [mem_singleton.mp hb] at hkey ⊢
        exact ha.2 hkey.symm
  · intro b hb
    have hk : key b ∈ (keepBetter key rank entry kept).map key := by
      rw [hcover]
      cases mem_append.mp hb with
      | inl hb =>
        obtain ⟨c, hc, hck⟩ := h.cover b hb
        exact .inr (mem_map.mpr ⟨c, hc, hck⟩)
      | inr hb => exact .inl (by rw [mem_singleton.mp hb])
    exact mem_map.mp hk

theorem champions_foldl (key : α → κ) (rank : α → ρ) (entries : List α) : Champions key rank entries
    (entries.foldl (fun kept entry => keepBetter key rank entry kept) []) := by
  induction entries using reverseRecOn with
  | nil => exact champions_nil
  | append_singleton entries entry ih =>
    rw [foldl_append]
    exact ih.arrive entry

end Bbr.Lib
