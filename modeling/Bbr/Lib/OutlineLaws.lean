import Bbr.Lib.ForestLaws

/-!
# The outline of well-placed items

A group key tells the keys above it, so groups with the same key are the same group. The outline of
well-placed items is a depth-first listing of the groups and items that no closed group hides.
-/
namespace Bbr.Lib

open List

namespace Forest

variable {κ ι : Type}

/-- The keys in front of a key are always the same. -/
def Coherent (keys : ι → List κ) (up : κ → List κ) : Prop :=
  ∀ a m g, (keys a)[m]? = some g → (keys a).take m = up g

def above (keys : ι → List κ) (up : κ → List κ) (row : Row κ ι) : List κ :=
  match row.node with
  | .inl g => up g
  | .inr a => keys a

/-- The rows behind the head of a group. -/
def inner (closed : κ → Bool) (key : κ) (members : Forest κ ι) (depth : Nat) : List (Row κ ι) :=
  if closed (chainEnd key members).1 then []
  else outline closed (chainEnd key members).2 (some (chainEnd key members).1) (depth + 1)

theorem outline_group (closed : κ → Bool) (key : κ) (members rest : Forest κ ι) (parent : Option κ)
    (depth : Nat) : outline closed (group key members rest) parent depth =
      ⟨parent, depth, .inl (chainEnd key members).1⟩ ::
        (inner closed key members depth ++ outline closed rest parent depth) := by
  rw [outline, inner]

variable {row : Row κ ι} {closed : κ → Bool} {members : Forest κ ι} {depth : Nat}

theorem mem_inner {key : κ} (h : row ∈ inner closed key members depth) :
    row ∈ outline closed (chainEnd key members).2 (some (chainEnd key members).1) (depth + 1) := by
  unfold inner at h
  split at h
  · cases h
  · exact h

theorem inner_of_mem {key : κ} (h : row ∈ inner closed key members depth) :
    inner closed key members depth =
      outline closed (chainEnd key members).2 (some (chainEnd key members).1) (depth + 1) := by
  unfold inner at h ⊢
  split at h
  · cases h
  · next hopen => exact if_neg hopen

theorem split_rows {α : Type} {first second before after : List α} {a : α}
    (h : first ++ second = before ++ a :: after) :
    (∃ middle, before = first ++ middle ∧ second = middle ++ a :: after) ∨
      ∃ middle, first = before ++ a :: middle ∧ after = middle ++ second := by
  obtain ⟨middle, hbefore, hsecond⟩ | ⟨_ | ⟨b, middle⟩, hfirst, hrest⟩ := append_eq_append_iff.mp h
  · exact .inl ⟨middle, hbefore, hsecond⟩
  · exact .inl ⟨[], by simpa using hfirst.symm, hrest.symm⟩
  · obtain ⟨rfl, hafter⟩ := cons.inj hrest
    exact .inr ⟨middle, hfirst, hafter⟩

variable {keys : ι → List κ} {up : κ → List κ} {closed : κ → Bool} {n : Nat}
  {forest members rest : Forest κ ι} {key : κ} {parent : Option κ} {depth : Nat}

variable {g : κ} {m : Nat}

theorem Coherent.level (h : Coherent keys up) {a b : ι} {m' : Nat} (hg : (keys a)[m]? = some g)
    (hg' : (keys b)[m']? = some g) : m = m' := by
  have hm := congrArg List.length (h a m g hg)
  have hm' := congrArg List.length (h b m' g hg')
  have hlt := (List.getElem?_eq_some_iff.mp hg).1
  have hlt' := (List.getElem?_eq_some_iff.mp hg').1
  rw [List.length_take] at hm hm'
  omega

theorem Coherent.shared (h : Coherent keys up) {a b : ι} {m' : Nat} (hg : (keys a)[m]? = some g)
    (hg' : (keys b)[m']? = some g) (hn : n ≤ m) : (keys a)[n]? = (keys b)[n]? := by
  obtain rfl := h.level hg hg'
  obtain rfl | hlt := Nat.eq_or_lt_of_le hn
  · rw [hg, hg']
  · rw [← getElem?_take_of_lt hlt, h a m g hg, ← h b m g hg', getElem?_take_of_lt hlt]

/-- What rows behind `n` keys stand for. -/
inductive At (keys : ι → List κ) (n : Nat) (forest : Forest κ ι) : κ ⊕ ι → Prop
  | item {a : ι} : a ∈ forest.items → n ≤ (keys a).length → At keys n forest (.inr a)
  | group {a : ι} {m : Nat} {g : κ} : a ∈ forest.items → n ≤ m → (keys a)[m]? = some g →
    At keys n forest (.inl g)

variable {other : Forest κ ι}

theorem At.mono {node : κ ⊕ ι} (h : At keys m forest node) (hn : n ≤ m)
    (hitems : ∀ a ∈ forest.items, a ∈ other.items) : At keys n other node := by
  cases h with
  | item ha hm => exact .item (hitems _ ha) (Nat.le_trans hn hm)
  | group ha hm hg => exact .group (hitems _ ha) (Nat.le_trans hn hm) hg

/-- The keys above a row are those of an item in front of its place. -/
theorem At.above (hcoh : Coherent keys up) (h : At keys n forest row.node) :
    ∃ a ∈ forest.items, ∃ m, n ≤ m ∧ Forest.above keys up row = (keys a).take m := by
  obtain ⟨parent, depth, node⟩ := row
  cases h with
  | item ha hn => exact ⟨_, ha, _, hn, take_length.symm⟩
  | group ha hm hg => exact ⟨_, ha, _, hm, (hcoh _ _ _ hg).symm⟩

/-- The group that a chain of groups stands for. -/
structure Chained (keys : ι → List κ) (n : Nat) (key : κ) (members : Forest κ ι) (m : Nat) :
    Prop where
  le : n ≤ m
  items : (chainEnd key members).2.items = members.items
  last : ∀ a ∈ members.items, (keys a)[m]? = some (chainEnd key members).1
  placed : Placed keys (m + 1) (chainEnd key members).2
  unchained : ∀ key' members', (chainEnd key members).2 ≠ group key' members' nil

theorem chained (hplaced : Placed keys (n + 1) members)
    (hkey : ∀ a ∈ members.items, (keys a)[n]? = some key) : ∃ m, Chained keys n key members m := by
  induction key, members using chainEnd.induct generalizing n with
  | case1 key next members ih =>
    obtain ⟨hne, hnext, hmembers, -, -⟩ := hplaced
    obtain ⟨m, h⟩ := ih hmembers hnext
    have hitems : (group next members (nil : Forest κ ι)).items = members.items := by
      simp [Forest.items]
    refine ⟨m, by have := h.le; omega, ?_, ?_, h.placed, h.unchained⟩
    · rw [hitems]; exact h.items
    · rw [hitems]; exact h.last
  | case2 key members hend =>
    have heq := chainEnd_self key hend
    refine ⟨n, Nat.le_refl n, ?_, ?_, ?_, fun key' members' hnot => ?_⟩
    · rw [heq]
    · rw [heq]; exact hkey
    · rw [heq]; exact hplaced
    · rw [heq] at hnot
      exact hend key' members' hnot

/-- Groups of a forest are not around items that none of its items shares the next key with. -/
theorem At.not_mem_keys (hcoh : Coherent keys up) (h : At keys n forest (.inl g)) {b : ι}
    (hapart : ∀ a ∈ forest.items, ∀ k, (keys a)[n]? = some k → (keys b)[n]? ≠ some k) :
    g ∉ keys b := by
  intro hmem
  obtain ⟨m', hg'⟩ := mem_iff_getElem?.mp hmem
  cases h with
  | group ha hm hg =>
    have hlt := (List.getElem?_eq_some_iff.mp hg).1
    obtain ⟨k, hk⟩ : ∃ k, (keys _)[n]? = some k :=
      ⟨_, List.getElem?_eq_getElem (Nat.lt_of_le_of_lt hm hlt)⟩
    exact hapart _ ha k hk ((hcoh.shared hg hg' hm).symm.trans hk)

theorem At.not_mem_above (hcoh : Coherent keys up) (h : At keys n forest (.inl g))
    (hrow : At keys m other row.node)
    (hapart : ∀ a ∈ forest.items, ∀ b ∈ other.items, ∀ k, (keys a)[n]? = some k →
      (keys b)[n]? ≠ some k) : g ∉ Forest.above keys up row := by
  obtain ⟨b, hb, m', -, habove⟩ := hrow.above hcoh
  rw [habove]
  exact fun hmem => h.not_mem_keys hcoh (fun a ha => hapart a ha b hb) (mem_of_mem_take hmem)

theorem outline_at (closed : κ → Bool) (parent : Option κ) (depth : Nat)
    (hplaced : Placed keys n forest) :
    ∀ row ∈ outline closed forest parent depth, At keys n forest row.node := by
  induction forest, parent, depth using outline.induct generalizing n with
  | case1 parent depth => exact fun row hrow => by rw [outline] at hrow; cases hrow
  | case2 a rest parent depth ih =>
    intro row hrow
    rw [outline] at hrow
    obtain rfl | hrow := mem_cons.mp hrow
    · exact .item mem_cons_self (Nat.le_of_eq hplaced.1.symm)
    · exact (ih hplaced.2 row hrow).mono (Nat.le_refl n) (fun b hb => mem_cons_of_mem a hb)
  | case3 key members rest parent depth ihm ih =>
    intro row hrow
    obtain ⟨hne, hkey, hmembers, -, hrest⟩ := hplaced
    obtain ⟨m, hchain⟩ := chained hmembers hkey
    have hsub : ∀ a ∈ members.items, a ∈ (group key members rest).items :=
      fun a ha => mem_append_left _ ha
    rw [outline_group] at hrow
    obtain rfl | hrow := mem_cons.mp hrow
    · obtain ⟨a, ha⟩ := exists_mem_of_ne_nil _ hne
      exact .group (hsub a ha) hchain.le (hchain.last a ha)
    obtain hrow | hrow := mem_append.mp hrow
    · have hle := hchain.le
      refine (ihm hchain.placed row (mem_inner hrow)).mono (by omega) (fun a ha => ?_)
      rw [hchain.items] at ha
      exact hsub a ha
    · exact (ih hrest row hrow).mono (Nat.le_refl n) (fun a ha => mem_append_right _ ha)

/-- What the rows of a group and of the siblings behind it stand for. -/
structure GroupRows (keys : ι → List κ) (up : κ → List κ) (closed : κ → Bool) (n : Nat) (key : κ)
    (members rest : Forest κ ι) (parent : Option κ) (depth m : Nat) : Prop where
  coherent : Coherent keys up
  chain : Chained keys n key members m
  member : members.items ≠ []
  behind : Placed keys n rest
  apart : ∀ a ∈ members.items, ∀ b ∈ rest.items, ∀ k, (keys a)[n]? = some k → (keys b)[n]? ≠ some k
  inside : ∀ row ∈ inner closed key members depth, At keys (m + 1) (chainEnd key members).2 row.node
  outside : ∀ row ∈ outline closed rest parent depth, At keys n rest row.node

theorem groupRows (hcoh : Coherent keys up) (h : Placed keys n (group key members rest))
    (closed : κ → Bool) (parent : Option κ) (depth : Nat) :
    ∃ m, GroupRows keys up closed n key members rest parent depth m := by
  obtain ⟨hne, hkey, hmembers, hother, hrest⟩ := h
  obtain ⟨m, hchain⟩ := chained hmembers hkey
  refine ⟨m, hcoh, hchain, hne, hrest, fun a ha b hb k hk hb' => ?_,
    fun row hrow => outline_at closed _ _ hchain.placed row (mem_inner hrow),
    outline_at closed parent depth hrest⟩
  rw [hkey a ha] at hk
  exact hother b hb (hb'.trans hk.symm)

namespace GroupRows

variable {m : Nat} (h : GroupRows keys up closed n key members rest parent depth m)
include h

theorem apart' : ∀ b ∈ rest.items, ∀ a ∈ members.items, ∀ k, (keys b)[n]? = some k →
    (keys a)[n]? ≠ some k :=
  fun b hb a ha k hk hk' => h.apart a ha b hb k hk' hk

theorem head_at : At keys n members (.inl (chainEnd key members).1) := by
  obtain ⟨a, ha⟩ := exists_mem_of_ne_nil _ h.member
  exact .group ha h.chain.le (h.chain.last a ha)

variable {row : Row κ ι}

theorem inside_at (hrow : row ∈ inner closed key members depth) : At keys n members row.node := by
  have hle := h.chain.le
  exact (h.inside row hrow).mono (by omega) (fun a ha => h.chain.items ▸ ha)

theorem head_not_inside :
    ¬At keys (m + 1) (chainEnd key members).2 (.inl (chainEnd key members).1) := fun hat => by
  obtain ⟨a, ha⟩ := exists_mem_of_ne_nil _ h.member
  cases hat with
  | group hb hle hg =>
    have := h.coherent.level (h.chain.last a ha) hg
    omega

theorem head_above (hrow : row ∈ inner closed key members depth) :
    (chainEnd key members).1 ∈ above keys up row := by
  obtain ⟨a, ha, m', hle, habove⟩ := (h.inside row hrow).above h.coherent
  rw [h.chain.items] at ha
  rw [habove]
  refine mem_of_getElem? (i := m) ?_
  rw [getElem?_take_of_lt (by omega)]
  exact h.chain.last a ha

theorem not_above_head (hg : At keys m members (.inl g) ∨ At keys n rest (.inl g)) :
    g ∉ up (chainEnd key members).1 := by
  obtain ⟨a, ha⟩ := exists_mem_of_ne_nil _ h.member
  have hlast := h.chain.last a ha
  rw [← h.coherent a m _ hlast]
  intro hmem
  cases hg with
  | inl hg =>
    obtain ⟨m', hm'⟩ := mem_iff_getElem?.mp hmem
    have hlt := (List.getElem?_eq_some_iff.mp hm').1
    rw [List.length_take] at hlt
    rw [List.getElem?_take_of_lt (by omega)] at hm'
    cases hg with
    | group hb hle hg =>
      have := h.coherent.level hg hm'
      omega
  | inr hg =>
    exact hg.not_mem_keys h.coherent (fun b hb => h.apart' b hb a ha) (mem_of_mem_take hmem)

theorem inside_not_above_outside (hg : At keys n members (.inl g))
    (hrow : row ∈ outline closed rest parent depth) : g ∉ above keys up row :=
  hg.not_mem_above h.coherent (h.outside row hrow) h.apart

theorem outside_not_above_inside (hg : At keys n rest (.inl g))
    (hrow : row ∈ inner closed key members depth) : g ∉ above keys up row :=
  hg.not_mem_above h.coherent (h.inside_at hrow) h.apart'

theorem not_both (hg : At keys n members (.inl g)) : ¬At keys n rest (.inl g) := by
  intro hg'
  cases hg' with
  | group hb hle hg' =>
    exact hg.not_mem_keys h.coherent (fun a ha => h.apart a ha _ hb) (mem_of_getElem? hg')

end GroupRows

theorem outline_nodup (hcoh : Coherent keys up) (hplaced : Placed keys n forest)
    (hnodup : forest.items.Nodup) :
    ((outline closed forest parent depth).map Row.node).Nodup := by
  induction forest, parent, depth using outline.induct generalizing n with
  | case1 parent depth => simp [outline]
  | case2 a rest parent depth ih =>
    rw [outline, map_cons, nodup_cons]
    obtain ⟨hnot, hrest⟩ := nodup_cons.mp hnodup
    refine ⟨fun hmem => ?_, ih hplaced.2 hrest⟩
    obtain ⟨row, hrow, heq⟩ := mem_map.mp hmem
    have hat := outline_at closed parent depth hplaced.2 row hrow
    rw [heq] at hat
    cases hat with
    | item ha _ => exact hnot ha
  | case3 key members rest parent depth ihm ih =>
    obtain ⟨m, h⟩ := groupRows hcoh hplaced closed parent depth
    obtain ⟨hmembers, hrest, hdisjoint⟩ := nodup_append.mp hnodup
    have hinner : ((inner closed key members depth).map Row.node).Nodup := by
      unfold inner
      split
      · simp
      · exact ihm h.chain.placed (by rw [h.chain.items]; exact hmembers)
    rw [outline_group, map_cons, map_append, nodup_cons]
    refine ⟨fun hmem => ?_, nodup_append.mpr ⟨hinner, ih h.behind hrest, ?_⟩⟩
    · obtain hmem | hmem := mem_append.mp hmem
      · obtain ⟨row, hrow, heq⟩ := mem_map.mp hmem
        have hat := h.inside row hrow
        rw [heq] at hat
        exact h.head_not_inside hat
      · obtain ⟨row, hrow, heq⟩ := mem_map.mp hmem
        have hat := h.outside row hrow
        rw [heq] at hat
        exact h.not_both h.head_at hat
    · intro x hx y hy heq
      subst heq
      obtain ⟨row, hrow, rfl⟩ := mem_map.mp hx
      obtain ⟨other, hother, heq⟩ := mem_map.mp hy
      have hat := h.inside_at hrow
      have hat' := h.outside other hother
      rw [heq] at hat'
      cases hnode : row.node with
      | inl g =>
        rw [hnode] at hat hat'
        exact h.not_both hat hat'
      | inr a =>
        rw [hnode] at hat hat'
        cases hat with
        | item ha _ =>
          cases hat' with
          | item hb _ => exact hdisjoint a ha a hb rfl

/-- The parent of a row is the innermost group around it, and without one it has the parent given. -/
def InnermostParent (keys : ι → List κ) (up : κ → List κ) (parent : Option κ)
    (rows : List (Row κ ι)) (row : Row κ ι) : Prop :=
  (row.parent = parent ∧ ∀ other ∈ rows, ∀ g, other.node = .inl g → g ∉ above keys up row) ∨
    ∃ other ∈ rows, ∃ g, other.node = .inl g ∧ row.parent = some g ∧ g ∈ above keys up row ∧
      ∀ another ∈ rows, ∀ g', another.node = .inl g' → g' ∈ above keys up row →
        g' = g ∨ g' ∈ up g

/-- Rows that are not around a row leave its parent what it is. -/
theorem InnermostParent.mono {rows rows' : List (Row κ ι)}
    (h : InnermostParent keys up parent rows row) (hsub : ∀ other ∈ rows, other ∈ rows')
    (hnew : ∀ other ∈ rows', other ∈ rows ∨ ∀ g, other.node = .inl g → g ∉ above keys up row) :
    InnermostParent keys up parent rows' row := by
  obtain ⟨hparent, hnone⟩ | ⟨other, hother, g, hg, hparent, habove, hinnermost⟩ := h
  · exact .inl ⟨hparent, fun other hother => (hnew other hother).elim (hnone other) id⟩
  · refine .inr ⟨other, hsub other hother, g, hg, hparent, habove,
      fun another hanother g' hg' habove' => ?_⟩
    obtain hanother | hnot := hnew another hanother
    · exact hinnermost another hanother g' hg' habove'
    · exact absurd habove' (hnot g' hg')

section

variable (hcoh : Coherent keys up) (hplaced : Placed keys n forest)
include hcoh hplaced

theorem outline_parent : ∀ row ∈ outline closed forest parent depth,
      InnermostParent keys up parent (outline closed forest parent depth) row := by
  induction forest, parent, depth using outline.induct generalizing n with
  | case1 parent depth => simp [outline]
  | case2 a rest parent depth ih =>
    have hat := outline_at closed parent depth hplaced.2
    rw [outline]
    intro row hrow
    obtain rfl | hrow := mem_cons.mp hrow
    · refine .inl ⟨rfl, fun other hother g hg => ?_⟩
      obtain rfl | hother := mem_cons.mp hother
      · cases hg
      have hgroup := hat other hother
      rw [hg] at hgroup
      exact hgroup.not_mem_keys hcoh hplaced.item_apart
    · refine (ih hplaced.2 row hrow).mono (fun _ => mem_cons_of_mem _) (fun other hother => ?_)
      obtain rfl | hother := mem_cons.mp hother
      · exact .inr (by rintro _ ⟨⟩)
      · exact .inl hother
  | case3 key members rest parent depth ihm ih =>
    obtain ⟨m, h⟩ := groupRows hcoh hplaced closed parent depth
    have houtside : ∀ other ∈ outline closed rest parent depth, ∀ g, other.node = .inl g →
        At keys n rest (.inl g) := fun other hother g hg => hg ▸ h.outside other hother
    have hinside : ∀ other ∈ inner closed key members depth, ∀ g, other.node = .inl g →
        At keys n members (.inl g) := fun other hother g hg => hg ▸ h.inside_at hother
    rw [outline_group]
    intro row hrow
    obtain rfl | hrow := mem_cons.mp hrow
    · refine .inl ⟨rfl, fun other hother g hg => h.not_above_head ?_⟩
      obtain rfl | hother := mem_cons.mp hother
      · cases hg
        obtain ⟨a, ha⟩ := exists_mem_of_ne_nil _ h.member
        exact .inl (.group ha (Nat.le_refl m) (h.chain.last a ha))
      · obtain hother | hother := mem_append.mp hother
        · have hat := h.inside other hother
          rw [hg] at hat
          exact .inl (hat.mono (Nat.le_succ m) (fun a ha => h.chain.items ▸ ha))
        · exact .inr (houtside other hother g hg)
    · obtain hrow | hrow := mem_append.mp hrow
      · have hrows := inner_of_mem hrow
        have hih := ihm h.chain.placed row (mem_inner hrow)
        rw [← hrows] at hih
        cases hih with
        | inl hih =>
          refine .inr ⟨_, mem_cons_self, _, rfl, hih.1, h.head_above hrow,
            fun another hanother g' hg' habove => ?_⟩
          obtain rfl | hanother := mem_cons.mp hanother
          · cases hg'
            exact .inl rfl
          obtain hanother | hanother := mem_append.mp hanother
          · exact absurd habove (hih.2 another hanother g' hg')
          · exact absurd habove (h.outside_not_above_inside (houtside another hanother g' hg') hrow)
        | inr hih =>
          obtain ⟨other, hother, g, hg, hparent, habove, hinnermost⟩ := hih
          refine .inr ⟨other, mem_cons_of_mem _ (mem_append_left _ hother), g, hg, hparent,
            habove, fun another hanother g' hg' habove' => ?_⟩
          obtain rfl | hanother := mem_cons.mp hanother
          · cases hg'
            have := h.head_above hother
            rw [Forest.above, hg] at this
            exact .inr this
          · obtain hanother | hanother := mem_append.mp hanother
            · exact hinnermost another hanother g' hg' habove'
            · exact absurd habove' (h.outside_not_above_inside (houtside another hanother g' hg') hrow)
      · -- Neither the head nor the rows inside are around a row outside.
        have hnot : ∀ another ∈ (⟨parent, depth, .inl (chainEnd key members).1⟩ : Row κ ι) ::
            inner closed key members depth, ∀ g', another.node = .inl g' →
              g' ∉ above keys up row := fun another hanother g' hg' => by
          obtain rfl | hanother := mem_cons.mp hanother
          · cases hg'
            exact h.inside_not_above_outside h.head_at hrow
          · exact h.inside_not_above_outside (hinside another hanother g' hg') hrow
        rw [← cons_append]
        exact (ih h.behind row hrow).mono (fun _ => mem_append_right _)
          (fun other hother => (mem_append.mp hother).symm.imp_right (hnot other))

/-- The rows inside a group follow its row at once, and there are none before it. -/
theorem outline_depthFirst {before after : List (Row κ ι)}
    (hrows : outline closed forest parent depth = before ++ row :: after) (hg : row.node = .inl g) :
    (∀ other ∈ before, g ∉ above keys up other) ∧ ∃ inside outside, after = inside ++ outside ∧
      (∀ other ∈ inside, g ∈ above keys up other) ∧ ∀ other ∈ outside, g ∉ above keys up other := by
  induction forest, parent, depth using outline.induct generalizing n before after with
  | case1 parent depth => simp [outline] at hrows
  | case2 a rest parent depth ih =>
    rw [outline] at hrows
    cases before with
    | nil =>
      cases hrows
      cases hg
    | cons first before =>
      obtain ⟨rfl, hrest⟩ := cons.inj hrows
      obtain ⟨hbefore, hafter⟩ := ih hplaced.2 hrest
      refine ⟨fun other hother => ?_, hafter⟩
      obtain rfl | hother := mem_cons.mp hother
      · have hat := outline_at closed parent depth hplaced.2 row (by rw [hrest]; simp)
        rw [hg] at hat
        exact hat.not_mem_keys hcoh hplaced.item_apart
      · exact hbefore other hother
  | case3 key members rest parent depth ihm ih =>
    obtain ⟨m, h⟩ := groupRows hcoh hplaced closed parent depth
    rw [outline_group] at hrows
    cases before with
    | nil =>
      obtain ⟨rfl, hafter⟩ := cons.inj hrows
      cases hg
      refine ⟨forall_mem_nil _, _, _, hafter.symm, fun other hother => h.head_above hother,
        fun other hother => h.inside_not_above_outside h.head_at hother⟩
    | cons first before =>
      obtain ⟨rfl, hrest⟩ := cons.inj hrows
      obtain ⟨middle, rfl, houter⟩ | ⟨middle, hinner, hafter⟩ := split_rows hrest
      · obtain ⟨hbefore, hafter⟩ := ih h.behind houter
        have hat := h.outside row (by rw [houter]; simp)
        rw [hg] at hat
        refine ⟨fun other hother => ?_, hafter⟩
        obtain rfl | hother := mem_cons.mp hother
        · exact h.not_above_head (.inr hat)
        · obtain hother | hother := mem_append.mp hother
          · exact h.outside_not_above_inside hat hother
          · exact hbefore other hother
      · have hmem : row ∈ inner closed key members depth := by rw [hinner]; simp
        have hopen := inner_of_mem hmem
        have hat := h.inside row hmem
        rw [hg] at hat
        obtain ⟨hbefore, inside, outside, rfl, hin, hout⟩ :=
          ihm h.chain.placed (hopen.symm.trans hinner)
        refine ⟨fun other hother => ?_, inside, outside ++ outline closed rest parent depth, ?_, hin,
          fun other hother => ?_⟩
        · obtain rfl | hother := mem_cons.mp hother
          · exact h.not_above_head (.inl (hat.mono (Nat.le_succ m) (fun a ha => h.chain.items ▸ ha)))
          · exact hbefore other hother
        · rw [hafter, append_assoc]
        · obtain hother | hother := mem_append.mp hother
          · exact hout other hother
          · have hat := h.inside_at hmem
            rw [hg] at hat
            exact h.inside_not_above_outside hat hother

theorem parent_at (hrow : row ∈ outline closed forest parent depth)
    (hparent : row.parent = some g) : parent = some g ∨ At keys n forest (.inl g) := by
  cases outline_parent hcoh hplaced row hrow with
  | inl h => exact .inl (h.1.symm.trans hparent)
  | inr h =>
    obtain ⟨other, hother, g', hg', hparent', -, -⟩ := h
    obtain rfl := Option.some.inj (hparent'.symm.trans hparent)
    have hat := outline_at closed parent depth hplaced other hother
    rw [hg'] at hat
    exact .inr hat

end

theorem outline_first (closed : κ → Bool) (hne : forest ≠ nil) (parent : Option κ) (depth : Nat) :
    ∃ row ∈ outline closed forest parent depth, row.parent = parent ∧ ((∃ a, row.node = .inr a) ∨
        ∃ key members rest, forest = group key members rest ∧
          row.node = .inl (chainEnd key members).1) := by
  cases forest with
  | nil => exact absurd rfl hne
  | item a rest =>
    rw [outline]
    exact ⟨_, mem_cons_self, rfl, .inl ⟨a, rfl⟩⟩
  | group key members rest =>
    rw [outline_group]
    exact ⟨_, mem_cons_self, rfl, .inr ⟨key, members, rest, rfl, rfl⟩⟩

variable {child : Row κ ι}

/-- The only member of an open group is an item, since a single group would be merged with it. -/
theorem GroupRows.single {m : Nat} (h : GroupRows keys up closed n key members rest parent depth m)
    (honly : ∀ other ∈ inner closed key members depth,
      other.parent = some (chainEnd key members).1 → other = child)
    (hchild : child ∈ inner closed key members depth) : ∃ a, child.node = .inr a := by
  have hopen := inner_of_mem hchild
  rw [hopen] at honly hchild
  have hplaced := h.chain.placed
  have hunchained := h.chain.unchained
  generalize (chainEnd key members).2 = siblings at *
  cases siblings with
  | nil => simp [outline] at hchild
  | item a rest' =>
    rw [outline] at honly
    exact ⟨a, (congrArg Row.node (honly _ mem_cons_self rfl)).symm⟩
  | group key' members' rest' =>
    obtain ⟨m', h'⟩ := groupRows h.coherent hplaced closed (some (chainEnd key members).1) (depth + 1)
    have hne : rest' ≠ nil := fun hnil => hunchained key' members' (by rw [hnil])
    obtain ⟨row, hrow, hparent, hnode⟩ :=
      outline_first closed hne (some (chainEnd key members).1) (depth + 1)
    rw [outline_group] at honly
    obtain rfl := honly row (mem_cons_of_mem _ (mem_append_right _ hrow)) hparent
    have hat := h'.outside row hrow
    rw [← honly _ mem_cons_self rfl] at hat
    exact absurd hat (h'.not_both h'.head_at)

theorem outline_single (hcoh : Coherent keys up) (hplaced : Placed keys n forest)
    (hparent : ∀ p, parent = some p → ¬At keys n forest (.inl p)) {row : Row κ ι}
    (hrow : row ∈ outline closed forest parent depth) (hg : row.node = .inl g)
    (hchild : child ∈ outline closed forest parent depth) (hchildParent : child.parent = some g)
    (honly : ∀ other ∈ outline closed forest parent depth, other.parent = some g → other = child) :
    ∃ a, child.node = .inr a := by
  induction forest, parent, depth using outline.induct generalizing n with
  | case1 parent depth => simp [outline] at hrow
  | case2 a rest parent depth ih =>
    have hmono : ∀ {g : κ}, At keys n rest (.inl g) → At keys n (item a rest) (.inl g) :=
      fun hat => hat.mono (Nat.le_refl n) (fun b hb => mem_cons_of_mem a hb)
    rw [outline] at hrow hchild honly
    obtain rfl | hrow := mem_cons.mp hrow
    · cases hg
    obtain rfl | hchild := mem_cons.mp hchild
    · exact ⟨a, rfl⟩
    · exact ih hplaced.2 (fun p hp hat => hparent p hp (hmono hat)) hrow hchild
        (fun other hother => honly other (mem_cons_of_mem _ hother))
  | case3 key members rest parent depth ihm ih =>
    obtain ⟨m, h⟩ := groupRows hcoh hplaced closed parent depth
    have hmembers : ∀ {g : κ}, At keys n members (.inl g) → parent ≠ some g := fun hat heq =>
      hparent _ heq (hat.mono (Nat.le_refl n) (fun b hb => mem_append_left _ hb))
    have hrest : ∀ {g : κ}, At keys n rest (.inl g) → parent ≠ some g := fun hat heq =>
      hparent _ heq (hat.mono (Nat.le_refl n) (fun b hb => mem_append_right _ hb))
    have hinside : ∀ {g : κ} {other : Row κ ι}, other ∈ inner closed key members depth →
        other.parent = some g → At keys n members (.inl g) := fun hother heq => by
      obtain heq | hat := parent_at hcoh h.chain.placed (mem_inner hother) heq
      · rw [← Option.some.inj heq]
        exact h.head_at
      · exact hat.mono (Nat.le_succ_of_le h.chain.le) (fun b hb => h.chain.items ▸ hb)
    rw [outline_group] at hrow hchild honly
    have honlyInner : ∀ other ∈ inner closed key members depth, other.parent = some g →
        other = child := fun other hother =>
      honly other (mem_cons_of_mem _ (mem_append_left _ hother))
    have honlyRest : ∀ other ∈ outline closed rest parent depth, other.parent = some g →
        other = child := fun other hother =>
      honly other (mem_cons_of_mem _ (mem_append_right _ hother))
    -- The child lies in the rows that its parent's group has.
    have hlies : (At keys n members (.inl g) → child ∈ inner closed key members depth) ∧
        (At keys n rest (.inl g) → child ∈ outline closed rest parent depth) := by
      obtain rfl | hchild := mem_cons.mp hchild
      · exact ⟨fun hat => absurd hchildParent (hmembers hat),
          fun hat => absurd hchildParent (hrest hat)⟩
      obtain hchild | hchild := mem_append.mp hchild
      · exact ⟨fun _ => hchild, fun hat => absurd hat (h.not_both (hinside hchild hchildParent))⟩
      refine ⟨fun hat => ?_, fun _ => hchild⟩
      obtain heq | hat' := parent_at hcoh h.behind hchild hchildParent
      · exact absurd heq (hmembers hat)
      · exact absurd hat' (h.not_both hat)
    obtain rfl | hrow := mem_cons.mp hrow
    · cases hg
      exact h.single honlyInner (hlies.1 h.head_at)
    obtain hrow | hrow := mem_append.mp hrow
    · have hat := h.inside_at hrow
      rw [hg] at hat
      have hchild := hlies.1 hat
      have hopen := inner_of_mem hchild
      rw [hopen] at hrow hchild honlyInner
      refine ihm h.chain.placed (fun p hp hat => ?_) hrow hchild honlyInner
      obtain rfl := Option.some.inj hp
      exact h.head_not_inside hat
    · have hat := h.outside row hrow
      rw [hg] at hat
      exact ih h.behind (fun p hp hat => hrest hat hp) hrow (hlies.2 hat) honlyRest

def groupOf (row : Row κ ι) : Option κ :=
  match row.node with
  | .inl g => some g
  | .inr _ => none

/-- The groups that have a row when nothing is closed, in their order. -/
def groups (forest : Forest κ ι) : List κ :=
  (outline (fun _ => false) forest none 0).filterMap groupOf

theorem outline_groups (closed : κ → Bool) (forest : Forest κ ι) (parent parent' : Option κ)
    (depth depth' : Nat) : (outline closed forest parent depth).filterMap groupOf =
      (outline closed forest parent' depth').filterMap groupOf := by
  induction forest, parent, depth using outline.induct generalizing parent' depth' with
  | case1 parent depth => simp [outline]
  | case2 a rest parent depth ih =>
    rw [outline, outline]
    exact ih parent' depth'
  | case3 key members rest parent depth ihm ih =>
    rw [outline_group, outline_group, filterMap_cons, filterMap_cons, filterMap_append,
      filterMap_append, ih parent' depth']
    have hinner : (inner closed key members depth).filterMap groupOf =
        (inner closed key members depth').filterMap groupOf := by
      unfold inner
      split
      · rfl
      · exact ihm _ _
    rw [hinner]
    rfl

theorem groups_group (key : κ) (members rest : Forest κ ι) : groups (group key members rest) =
    (chainEnd key members).1 :: (groups (chainEnd key members).2 ++ groups rest) := by
  rw [groups, outline_group, filterMap_cons, filterMap_append]
  have hinner : (inner (fun _ => false) key members 0).filterMap groupOf =
      groups (chainEnd key members).2 := outline_groups _ _ _ _ _ _
  rw [hinner]
  rfl

theorem groups_at (hplaced : Placed keys n forest) :
    ∀ g ∈ groups forest, At keys n forest (.inl g) := by
  intro g hg
  obtain ⟨row, hrow, hgroup⟩ := mem_filterMap.mp hg
  have hat := outline_at _ _ _ hplaced row hrow
  obtain ⟨parent, depth, node⟩ := row
  cases node with
  | inl g' =>
    cases hgroup
    exact hat
  | inr a => cases hgroup

/-- The group that the first row stands for. -/
def firstGroup : Forest κ ι → Option κ
  | nil => none
  | item _ _ => none
  | group key members _ => some (chainEnd key members).1

theorem outline_head (closed : κ → Bool) (forest : Forest κ ι) (parent : Option κ) (depth : Nat) :
    (outline closed forest parent depth).head?.bind groupOf = firstGroup forest := by
  cases forest with
  | nil => simp [outline, firstGroup]
  | item a rest => rw [outline]; rfl
  | group key members rest => rw [outline_group]; rfl

section Hiding

/-- An item is shown when nothing hides it; what hides it is the one closed group shown around it. -/
structure Hiding (keys : ι → List κ) (closed : κ → Bool) (rows : List (Row κ ι)) (a : ι)
    (hidden : Option κ) : Prop where
  item : (∃ row ∈ rows, row.node = .inr a) ↔ hidden = none
  shown : ∀ g, hidden = some g → ∃ row ∈ rows, row.node = .inl g
  only : ∀ row ∈ rows, ∀ g, row.node = .inl g → closed g = true → g ∈ keys a → hidden = some g

/-- A row that says nothing about an item. -/
def Apart (keys : ι → List κ) (closed : κ → Bool) (a : ι) (row : Row κ ι) : Prop :=
  row.node ≠ .inr a ∧ ∀ g, row.node = .inl g → closed g = true → g ∉ keys a

variable {a : ι}

theorem Hiding.among {rows : List (Row κ ι)} {hidden : Option κ}
    (h : Hiding keys closed rows a hidden) (front back : List (Row κ ι))
    (hfront : ∀ row ∈ front, Apart keys closed a row)
    (hback : ∀ row ∈ back, Apart keys closed a row) :
    Hiding keys closed (front ++ (rows ++ back)) a hidden := by
  have hmem : ∀ row ∈ front ++ (rows ++ back), row ∈ rows ∨ Apart keys closed a row := by
    intro row hrow
    obtain hrow | hrow := mem_append.mp hrow
    · exact .inr (hfront row hrow)
    · obtain hrow | hrow := mem_append.mp hrow
      · exact .inl hrow
      · exact .inr (hback row hrow)
  have hsub : ∀ row ∈ rows, row ∈ front ++ (rows ++ back) :=
    fun row hrow => mem_append_right _ (mem_append_left _ hrow)
  refine ⟨⟨?_, fun hnone => ?_⟩, fun g hg => ?_, fun row hrow g hg hclosed hkey => ?_⟩
  · rintro ⟨row, hrow, hnode⟩
    cases hmem row hrow with
    | inl hrow => exact h.item.mp ⟨row, hrow, hnode⟩
    | inr hapart => exact absurd hnode hapart.1
  · obtain ⟨row, hrow, hnode⟩ := h.item.mpr hnone
    exact ⟨row, hsub row hrow, hnode⟩
  · obtain ⟨row, hrow, hnode⟩ := h.shown g hg
    exact ⟨row, hsub row hrow, hnode⟩
  · cases hmem row hrow with
    | inl hrow => exact h.only row hrow g hg hclosed hkey
    | inr hapart => exact absurd hkey (hapart.2 g hg hclosed)

/-- Rows of items that share no next key with an item say nothing about it. -/
theorem At.apart (hcoh : Coherent keys up) (h : At keys n forest row.node) (ha : a ∉ forest.items)
    (hapart : ∀ b ∈ forest.items, ∀ k, (keys b)[n]? = some k → (keys a)[n]? ≠ some k) :
    Apart keys closed a row := by
  refine ⟨fun hnode => ?_, fun g hnode _ => ?_⟩
  · rw [hnode] at h
    cases h with
    | item hb _ => exact ha hb
  · rw [hnode] at h
    exact h.not_mem_keys hcoh hapart

variable [DecidableEq κ]

/-- The first closed group around an item. -/
def hidingGroup (keys : ι → List κ) (closed : κ → Bool) (forest : Forest κ ι) (a : ι) : Option κ :=
  (groups forest).find? (fun g => closed g && decide (g ∈ keys a))

theorem hidingGroup_outside (hcoh : Coherent keys up) (hplaced : Placed keys n forest)
    (hapart : ∀ b ∈ forest.items, ∀ k, (keys b)[n]? = some k → (keys a)[n]? ≠ some k) :
    hidingGroup keys closed forest a = none := by
  refine find?_eq_none.mpr (fun g hg => ?_)
  have hnot := (groups_at hplaced g hg).not_mem_keys hcoh hapart
  simp [hnot]

theorem hidingGroup_item (b a : ι) :
    hidingGroup keys closed (item b rest) a = hidingGroup keys closed rest a := by
  rw [hidingGroup, hidingGroup, groups, outline]
  rfl

theorem hidingGroup_group (a : ι) : hidingGroup keys closed (group key members rest) a =
    if closed (chainEnd key members).1 = true ∧ (chainEnd key members).1 ∈ keys a then
      some (chainEnd key members).1
    else (hidingGroup keys closed (chainEnd key members).2 a).or (hidingGroup keys closed rest a) := by
  rw [hidingGroup, groups_group, find?_cons, find?_append]
  by_cases h : closed (chainEnd key members).1 = true ∧ (chainEnd key members).1 ∈ keys a
  · simp [h]
  rw [if_neg h]
  have hfalse : (closed (chainEnd key members).1 && decide ((chainEnd key members).1 ∈ keys a)) =
      false := by simpa using h
  rw [hfalse]
  rfl

theorem hidingGroup_spec (hcoh : Coherent keys up) (hplaced : Placed keys n forest)
    (hnodup : forest.items.Nodup) (ha : a ∈ forest.items) :
    Hiding keys closed (outline closed forest parent depth) a (hidingGroup keys closed forest a) := by
  induction forest, parent, depth using outline.induct generalizing n with
  | case1 parent depth => cases ha
  | case2 b rest parent depth ih =>
    obtain ⟨hnot, hrest⟩ := nodup_cons.mp hnodup
    rw [hidingGroup_item, outline]
    obtain rfl | ha := mem_cons.mp ha
    · have hapart := hplaced.item_apart
      have hrows : ∀ row ∈ outline closed rest parent depth, Apart keys closed a row :=
        fun row hrow => (outline_at closed parent depth hplaced.2 row hrow).apart hcoh hnot hapart
      rw [hidingGroup_outside hcoh hplaced.2 hapart]
      have hself : Hiding keys closed [⟨parent, depth, .inr a⟩] a none :=
        ⟨iff_of_true ⟨_, mem_cons_self, rfl⟩ rfl, fun g hg => (by cases hg),
          fun row hrow g hg => by obtain rfl := mem_singleton.mp hrow; cases hg⟩
      exact hself.among [] _ (forall_mem_nil _) hrows
    · have hne : b ≠ a := fun heq => hnot (heq ▸ ha)
      have h := (ih hplaced.2 hrest ha).among [⟨parent, depth, .inr b⟩] [] (fun row hrow => by
          obtain rfl := mem_singleton.mp hrow
          exact ⟨fun heq => hne (Sum.inr.inj heq), fun g hg => by cases hg⟩)
        (forall_mem_nil _)
      rwa [append_nil, singleton_append] at h
  | case3 key members rest parent depth ihm ih =>
    obtain ⟨m, h⟩ := groupRows hcoh hplaced closed parent depth
    obtain ⟨hmembers, hrest, hdisjoint⟩ := nodup_append.mp hnodup
    rw [hidingGroup_group, outline_group]
    obtain ha | ha := mem_append.mp ha
    · have hkey : (chainEnd key members).1 ∈ keys a := mem_of_getElem? (h.chain.last a ha)
      have hnot : a ∉ rest.items := fun hmem => hdisjoint a ha a hmem rfl
      have hback : ∀ row ∈ outline closed rest parent depth, Apart keys closed a row :=
        fun row hrow => (h.outside row hrow).apart hcoh hnot (fun b hb => h.apart' b hb a ha)
      cases hclosed : closed (chainEnd key members).1 with
      | true =>
        rw [if_pos ⟨rfl, hkey⟩, inner, if_pos hclosed]
        have hself : Hiding keys closed [⟨parent, depth, .inl (chainEnd key members).1⟩] a
            (some (chainEnd key members).1) := by
          refine ⟨iff_of_false ?_ (by simp), fun g hg => ⟨_, mem_cons_self, ?_⟩,
            fun row hrow g hg _ _ => ?_⟩
          · rintro ⟨row, hrow, hnode⟩
            obtain rfl := mem_singleton.mp hrow
            cases hnode
          · cases hg
            rfl
          · obtain rfl := mem_singleton.mp hrow
            cases hg
            rfl
        exact hself.among [] _ (forall_mem_nil _) hback
      | false =>
        have hinner := ihm h.chain.placed (by rw [h.chain.items]; exact hmembers)
          (by rw [h.chain.items]; exact ha)
        rw [if_neg (by simp), inner, if_neg (by simp [hclosed]),
          hidingGroup_outside hcoh h.behind (fun b hb => h.apart' b hb a ha), Option.or_none]
        refine hinner.among [_] _ (fun row hrow => ?_) hback
        obtain rfl := mem_singleton.mp hrow
        refine ⟨fun hnode => (by cases hnode), fun g hg hg' => ?_⟩
        cases hg
        rw [hclosed] at hg'
        cases hg'
    · have hapart : ∀ b ∈ members.items, ∀ k, (keys b)[n]? = some k → (keys a)[n]? ≠ some k :=
        fun b hb => h.apart b hb a ha
      have hnot : a ∉ members.items := fun hmem => hdisjoint a hmem a ha rfl
      have hhead := h.head_at.not_mem_keys hcoh hapart
      have hnone : hidingGroup keys closed (chainEnd key members).2 a = none := by
        refine find?_eq_none.mpr (fun g hg => ?_)
        have hat : At keys n members (.inl g) := (groups_at h.chain.placed g hg).mono
          (Nat.le_succ_of_le h.chain.le) (fun b hb => h.chain.items ▸ hb)
        simp [hat.not_mem_keys hcoh hapart]
      rw [if_neg (fun hboth => hhead hboth.2), hnone, Option.none_or, ← cons_append]
      have hfront : ∀ row ∈ (⟨parent, depth, .inl (chainEnd key members).1⟩ : Row κ ι) ::
          inner closed key members depth, Apart keys closed a row := fun row hrow => by
        obtain rfl | hrow := mem_cons.mp hrow
        · refine ⟨fun hnode => (by cases hnode), fun g hg _ => ?_⟩
          cases hg
          exact hhead
        · exact (h.inside_at hrow).apart hcoh hnot hapart
      have hrows := (ih h.behind hrest ha).among _ [] hfront (forall_mem_nil _)
      rwa [append_nil] at hrows

end Hiding

section Toggle

variable {closed' : κ → Bool} {d : κ}

theorem outline_same (hsame : ∀ g, g ≠ d → closed' g = closed g)
    (h : ∀ row ∈ outline closed forest parent depth, row.node ≠ .inl d) :
    outline closed' forest parent depth = outline closed forest parent depth := by
  induction forest, parent, depth using outline.induct with
  | case1 parent depth => simp [outline]
  | case2 a rest parent depth ih =>
    rw [outline] at h
    rw [outline, outline, ih (fun row hrow => h row (mem_cons_of_mem _ hrow))]
  | case3 key members rest parent depth ihm ih =>
    rw [outline_group] at h
    have hhead : (chainEnd key members).1 ≠ d := fun heq =>
      h _ mem_cons_self (congrArg Sum.inl heq)
    have hinner : inner closed' key members depth = inner closed key members depth := by
      unfold inner
      rw [hsame _ hhead]
      split
      · rfl
      · next hopen =>
        refine ihm (fun row hrow => h row (mem_cons_of_mem _ (mem_append_left _ ?_)))
        rwa [inner, if_neg hopen]
    rw [outline_group, outline_group, hinner, ih (fun row hrow =>
      h row (mem_cons_of_mem _ (mem_append_right _ hrow)))]

theorem outline_toggle (hcoh : Coherent keys up) (hplaced : Placed keys n forest)
    (hsame : ∀ g, g ≠ d → closed' g = closed g) {before after : List (Row κ ι)}
    (hrows : outline closed forest parent depth = before ++ row :: after) (hd : row.node = .inl d) :
    ∃ inside inside' outside, after = inside ++ outside ∧
      outline closed' forest parent depth = before ++ row :: (inside' ++ outside) ∧
      (∀ other ∈ inside, d ∈ above keys up other) ∧
      ∀ other ∈ inside', d ∈ above keys up other := by
  induction forest, parent, depth using outline.induct generalizing n before after with
  | case1 parent depth => simp [outline] at hrows
  | case2 a rest parent depth ih =>
    rw [outline] at hrows
    cases before with
    | nil =>
      cases hrows
      cases hd
    | cons first before =>
      obtain ⟨rfl, hrest⟩ := cons.inj hrows
      obtain ⟨inside, inside', outside, hafter, hrows', hin, hin'⟩ := ih hplaced.2 hrest
      exact ⟨inside, inside', outside, hafter, by rw [outline, hrows', cons_append], hin, hin'⟩
  | case3 key members rest parent depth ihm ih =>
    obtain ⟨m, h⟩ := groupRows hcoh hplaced closed parent depth
    obtain ⟨m', h'⟩ := groupRows hcoh hplaced closed' parent depth
    rw [outline_group] at hrows
    have hrest : ∀ g, At keys n members (.inl g) → g = d →
        outline closed' rest parent depth = outline closed rest parent depth :=
      fun g hg heq => outline_same hsame (fun other hother hnode => by
        have hat := h.outside other hother
        rw [hnode] at hat
        exact h.not_both (heq ▸ hg) hat)
    cases before with
    | nil =>
      obtain ⟨rfl, hafter⟩ := cons.inj hrows
      cases hd
      refine ⟨_, inner closed' key members depth, _, hafter.symm, ?_,
        fun other hother => h.head_above hother, fun other hother => h'.head_above hother⟩
      rw [outline_group, hrest _ h.head_at rfl]
      rfl
    | cons first before =>
      obtain ⟨rfl, htail⟩ := cons.inj hrows
      obtain ⟨middle, rfl, houter⟩ | ⟨middle, hinner, hafter⟩ := split_rows htail
      · have hat := h.outside row (by rw [houter]; simp)
        rw [hd] at hat
        have hhead : (chainEnd key members).1 ≠ d := fun heq => h.not_both (heq ▸ h.head_at) hat
        have hinner : inner closed' key members depth = inner closed key members depth := by
          unfold inner
          rw [hsame _ hhead]
          split
          · rfl
          rename_i hopen
          refine outline_same hsame (fun other hother hnode => ?_)
          have hother : other ∈ inner closed key members depth := by rwa [inner, if_neg hopen]
          have hat' := h.inside_at hother
          rw [hnode] at hat'
          exact h.not_both hat' hat
        obtain ⟨inside, inside', outside, hafter, hrows', hin, hin'⟩ := ih h.behind houter
        exact ⟨inside, inside', outside, hafter,
          by rw [outline_group, hinner, hrows', cons_append, append_assoc], hin, hin'⟩
      · have hmem : row ∈ inner closed key members depth := by rw [hinner]; simp
        have hopen := inner_of_mem hmem
        have hat := h.inside row hmem
        have hat' := h.inside_at hmem
        rw [hd] at hat hat'
        obtain ⟨inside, inside', outside, rfl, hrows', hin, hin'⟩ :=
          ihm h.chain.placed (hopen.symm.trans hinner)
        have hhead : (chainEnd key members).1 ≠ d := fun heq => by
          rw [← heq] at hat
          exact h.head_not_inside hat
        have hclosed : closed (chainEnd key members).1 = false := by
          by_contra hne
          rw [inner, if_pos (by simpa using hne)] at hmem
          cases hmem
        have hinner' : inner closed' key members depth = outline closed' (chainEnd key members).2
            (some (chainEnd key members).1) (depth + 1) := by
          rw [inner, hsame _ hhead, hclosed]
          rfl
        refine ⟨inside, inside', outside ++ outline closed rest parent depth, ?_, ?_, hin, hin'⟩
        · rw [hafter, append_assoc]
        · rw [outline_group, hinner', hrows', hrest d hat' rfl, cons_append,
            append_assoc, cons_append, append_assoc]

end Toggle

end Forest

end Bbr.Lib
