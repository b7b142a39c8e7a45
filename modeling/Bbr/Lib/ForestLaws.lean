import Bbr.Lib.Forests

/-!
# Where items lie and what the outline shows

Putting an item in and sorting siblings keep every item in the groups of its keys. The rows of the outline
are then distinct, each row's parent is the innermost group around it, and an item is shown unless a closed
group is shown around it.
-/
namespace Bbr.Lib

open List

namespace Forest

variable {κ ι : Type} {keys : ι → List κ}

/-- Behind `n` keys, every item lies in the groups of the rest of its keys, and a group has all items
of its key. -/
def Placed (keys : ι → List κ) : Nat → Forest κ ι → Prop
  | _, nil => True
  | n, item a rest => (keys a).length = n ∧ Placed keys n rest
  | n, group key members rest =>
    members.items ≠ [] ∧ (∀ a ∈ members.items, (keys a)[n]? = some key) ∧
      Placed keys (n + 1) members ∧ (∀ a ∈ rest.items, (keys a)[n]? ≠ some key) ∧
        Placed keys n rest

theorem Placed.item_apart {n : Nat} {a : ι} {rest : Forest κ ι} (h : Placed keys n (item a rest)) :
    ∀ b ∈ rest.items, ∀ k, (keys b)[n]? = some k → (keys a)[n]? ≠ some k := fun _ _ k _ hk => by
  rw [getElem?_eq_none (Nat.le_of_eq h.1)] at hk
  cases hk

theorem items_length_le (forest : Forest κ ι) : forest.items.length ≤ forest.size := by
  induction forest with
  | nil => exact Nat.le_refl 0
  | item a rest ih => simpa [items, size] using ih
  | group key members rest ihm ih =>
    rw [items, size, length_append]
    omega

@[simp] theorem items_chain (ks : List κ) (a : ι) : (chain ks a : Forest κ ι).items = [a] := by
  induction ks with
  | nil => rfl
  | cons key ks ih => simp [chain, items, ih]

theorem placed_chain {n : Nat} {ks : List κ} {a : ι} (h : (keys a).drop n = ks)
    (hn : n ≤ (keys a).length) : Placed keys n (chain ks a) := by
  induction ks generalizing n with
  | nil =>
    have := List.drop_eq_nil_iff.mp h
    exact ⟨by omega, trivial⟩
  | cons key ks ih =>
    have hkey : (keys a)[n]? = some key := by rw [← List.head?_drop, h]; rfl
    have hrest : (keys a).drop (n + 1) = ks := by rw [← List.drop_drop, h]; rfl
    have hlt := (List.getElem?_eq_some_iff.mp hkey).1
    refine ⟨by simp, by simpa using hkey, ih hrest hlt, ?_, trivial⟩
    intro b hb
    cases hb

section Put

variable [DecidableEq κ]

theorem items_put (forest : Forest κ ι) (ks : List κ) (a : ι) :
    (forest.put ks a).items.Perm (a :: forest.items) := by
  induction forest generalizing ks with
  | nil => simp [put, items]
  | item b rest ih =>
    exact ((ih ks).cons b).trans (.swap a b _)
  | group key members rest ihm ih =>
    cases ks with
    | nil => exact ((ih []).append_left members.items).trans perm_middle
    | cons next ks =>
      rw [put]
      split
      · exact (ihm ks).append_right rest.items
      · exact ((ih (next :: ks)).append_left members.items).trans perm_middle

variable {forest : Forest κ ι} {ks : List κ}

theorem mem_items_put {a b : ι} : b ∈ (forest.put ks a).items ↔ b = a ∨ b ∈ forest.items := by
  rw [(items_put forest ks a).mem_iff, mem_cons]

theorem placed_put {n : Nat} {a : ι} (hplaced : Placed keys n forest) (h : (keys a).drop n = ks)
    (hn : n ≤ (keys a).length) : Placed keys n (forest.put ks a) := by
  induction forest generalizing n ks with
  | nil => exact placed_chain h hn
  | item b rest ih =>
    exact ⟨hplaced.1, ih hplaced.2 h hn⟩
  | group key members rest ihm ih =>
    obtain ⟨hne, hkey, hmembers, hother, hrest⟩ := hplaced
    have hhead : (keys a)[n]? = ks.head? := by rw [← List.head?_drop, h]
    cases ks with
    | nil =>
      refine ⟨hne, hkey, hmembers, fun b hb => ?_, ih hrest h hn⟩
      obtain rfl | hb := mem_items_put.mp hb
      · rw [hhead]
        exact fun heq => by cases heq
      · exact hother b hb
    | cons next ks =>
      rw [put]
      split
      · next heq =>
        subst heq
        have hdrop : (keys a).drop (n + 1) = ks := by rw [← List.drop_drop, h]; rfl
        refine ⟨fun hnil => ?_, fun b hb => ?_,
          ihm hmembers hdrop (List.getElem?_eq_some_iff.mp hhead).1, hother, hrest⟩
        · have hmem : a ∈ (members.put ks a).items := mem_items_put.mpr (.inl rfl)
          rw [hnil] at hmem
          cases hmem
        · obtain rfl | hb := mem_items_put.mp hb
          · exact hhead
          · exact hkey b hb
      · next hne' =>
        refine ⟨hne, hkey, hmembers, fun b hb => ?_, ih hrest h hn⟩
        obtain rfl | hb := mem_items_put.mp hb
        · rw [hhead]
          exact fun heq => hne' (Option.some.inj heq).symm
        · exact hother b hb

end Put

section Siblings

variable {less : ι ⊕ κ → ι ⊕ κ → Bool}

def nodeItems : ι ⊕ κ × Forest κ ι → List ι
  | .inl a => [a]
  | .inr (_, members) => members.items

theorem items_cons (node : ι ⊕ κ × Forest κ ι) (rest : Forest κ ι) :
    (cons node rest).items = nodeItems node ++ rest.items := by
  cases node <;> rfl

theorem items_insertSorted (node : ι ⊕ κ × Forest κ ι) (forest : Forest κ ι) :
    (insertSorted less node forest).items.Perm (nodeItems node ++ forest.items) := by
  induction forest with
  | nil => rw [insertSorted, items_cons]
  | item b rest ih =>
    rw [insertSorted]
    split
    · rw [items_cons]
    · exact (ih.cons b).trans perm_middle.symm
  | group key members rest _ ih =>
    rw [insertSorted]
    split
    · rw [items_cons]
    · refine (ih.append_left members.items).trans ?_
      rw [items, ← append_assoc, ← append_assoc]
      exact perm_append_comm.append_right rest.items

theorem items_sortOnto (sorted forest : Forest κ ι) :
    (sortOnto less sorted forest).items.Perm (sorted.items ++ forest.items) := by
  induction forest generalizing sorted with
  | nil => simp [sortOnto, items]
  | item a rest ih =>
    refine (ih _).trans (((items_insertSorted (.inl a) sorted).append_right rest.items).trans ?_)
    exact perm_middle.symm
  | group key members rest ihm ih =>
    refine (ih _).trans (((items_insertSorted _ sorted).append_right rest.items).trans ?_)
    have hmembers := ihm nil
    rw [items, items, nil_append] at *
    rw [← append_assoc]
    refine List.Perm.append_right rest.items ?_
    exact (perm_append_comm.trans (hmembers.append_left sorted.items))

/-- A node fits among siblings behind `n` keys. -/
def Fits (keys : ι → List κ) (n : Nat) (node : ι ⊕ κ × Forest κ ι) (siblings : Forest κ ι) : Prop :=
  match node with
  | .inl a => (keys a).length = n
  | .inr (key, members) =>
    members.items ≠ [] ∧ (∀ a ∈ members.items, (keys a)[n]? = some key) ∧
      Placed keys (n + 1) members ∧ ∀ a ∈ siblings.items, (keys a)[n]? ≠ some key

variable {n : Nat} {node : ι ⊕ κ × Forest κ ι} {forest : Forest κ ι}

theorem placed_cons (hfits : Fits keys n node forest) (h : Placed keys n forest) :
    Placed keys n (cons node forest) := by
  cases node with
  | inl a => exact ⟨hfits, h⟩
  | inr pair => exact ⟨hfits.1, hfits.2.1, hfits.2.2.1, hfits.2.2.2, h⟩

theorem Fits.mono {siblings : Forest κ ι} (h : Fits keys n node forest)
    (hsub : ∀ a ∈ siblings.items, a ∈ forest.items) : Fits keys n node siblings := by
  cases node with
  | inl a => exact h
  | inr pair => exact ⟨h.1, h.2.1, h.2.2.1, fun a ha => h.2.2.2 a (hsub a ha)⟩

theorem placed_insertSorted (hfits : Fits keys n node forest) (h : Placed keys n forest) :
    Placed keys n (insertSorted less node forest) := by
  induction forest with
  | nil => exact placed_cons hfits h
  | item b rest ih =>
    rw [insertSorted]
    split
    · exact placed_cons hfits h
    · exact ⟨h.1, ih (hfits.mono fun _ => mem_cons_of_mem b) h.2⟩
  | group key members rest _ ih =>
    rw [insertSorted]
    split
    · exact placed_cons hfits h
    obtain ⟨hne, hkey, hmembers, hother, hplaced⟩ := h
    refine ⟨hne, hkey, hmembers, fun b hb => ?_,
      ih (hfits.mono fun _ => mem_append_right members.items) hplaced⟩
    rw [(items_insertSorted node rest).mem_iff, mem_append] at hb
    cases hb with
    | inr hb => exact hother b hb
    | inl hb =>
      cases node with
      | inl a =>
        obtain rfl := mem_singleton.mp hb
        have hlength : (keys b).length = n := hfits
        rw [getElem?_eq_none (by omega)]
        exact fun heq => by cases heq
      | inr pair =>
        obtain ⟨member, hmember⟩ := exists_mem_of_ne_nil _ hne
        have := hfits.2.2.2 member (by simp [items, hmember])
        rw [hkey member hmember] at this
        rw [hfits.2.1 b hb]
        exact fun heq => this heq.symm

theorem placed_sortOnto {sorted : Forest κ ι} (hsorted : Placed keys n sorted)
    (h : Placed keys n forest) (hapart : ∀ a ∈ sorted.items, ∀ b ∈ forest.items, ∀ key,
      (keys b)[n]? = some key → (keys a)[n]? ≠ some key) :
    Placed keys n (sortOnto less sorted forest) := by
  induction forest generalizing n sorted with
  | nil => exact hsorted
  | item a rest ih =>
    refine ih (placed_insertSorted (show Fits keys n (.inl a) sorted from h.1) hsorted) h.2
      (fun c hc b hb key hkey => ?_)
    rw [(items_insertSorted (.inl a) sorted).mem_iff, nodeItems, singleton_append, mem_cons] at hc
    obtain rfl | hc := hc
    · rw [getElem?_eq_none (Nat.le_of_eq h.1)]
      exact fun heq => by cases heq
    · exact hapart c hc b (by simp [items, hb]) key hkey
  | group key members rest ihm ih =>
    obtain ⟨hne, hkey, hmembers, hother, hrest⟩ := h
    have hperm := @items_sortOnto κ ι less nil members
    have hfits : Fits keys n (.inr (key, sortOnto less nil members)) sorted := by
      refine ⟨fun hnil => hne ?_, fun a ha => hkey a (hperm.mem_iff.mp ha),
        ihm trivial hmembers (fun a ha => by cases ha), fun a ha => ?_⟩
      · rw [hnil] at hperm
        exact hperm.symm.eq_nil
      · obtain ⟨member, hmember⟩ := exists_mem_of_ne_nil _ hne
        exact hapart a ha member (by simp [items, hmember]) key (hkey member hmember)
    refine ih (placed_insertSorted hfits hsorted) hrest (fun c hc b hb other hb' => ?_)
    rw [(items_insertSorted _ sorted).mem_iff, mem_append] at hc
    obtain hc | hc := hc
    · rw [hkey c (hperm.mem_iff.mp hc)]
      exact fun heq => hother b hb (hb'.trans heq.symm)
    · exact hapart c hc b (by simp [items, hb]) other hb'

end Siblings

end Forest

end Bbr.Lib
