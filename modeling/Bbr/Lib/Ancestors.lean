import Bbr.Lib.Pairings
import Mathlib.Data.List.Nodup

/-!
# Ancestors in a list of links

Every link names its parent, if it has one. Following the names ends where the parent is missing;
where parents stand before their children it always ends.
-/
namespace Bbr.Lib

open List

/-- An entry of a list, the entry it hangs on, and whether a search stops at it. -/
structure Link (ι : Type) where
  id : ι
  up : Option ι
  stops : Bool
  deriving DecidableEq, Repr

variable {ι : Type} [DecidableEq ι] {links : List (Link ι)} {link other : Link ι} {up : Option ι}
  {i j : Nat}

def findLink (links : List (Link ι)) (id : ι) : Option (Link ι) :=
  links.find? (fun link => decide (link.id = id))

theorem findLink_eq_some {id : ι} (h : findLink links id = some link) :
    link ∈ links ∧ link.id = id := by
  constructor
  · exact mem_of_find?_eq_some h
  · simpa using find?_some h

theorem findLink_eq_none {id : ι} : findLink links id = none ↔ id ∉ links.map Link.id := by
  unfold findLink
  simp

theorem findLink_of_mem (h : (links.map Link.id).Nodup) (hmem : link ∈ links) :
    findLink links link.id = some link := by
  cases hfind : findLink links link.id with
  | none => exact absurd (mem_map.mpr ⟨link, hmem, rfl⟩) (findLink_eq_none.mp hfind)
  | some found =>
    obtain ⟨hfound, hid⟩ := findLink_eq_some hfind
    rw [inj_on_of_nodup_map h hfound hmem hid]

/-- Ids do not repeat, and a parent that is there stands before its children. -/
structure ParentsFirst (links : List (Link ι)) : Prop where
  nodup : (links.map Link.id).Nodup
  before : ∀ (i j : Nat) (link other : Link ι), links[i]? = some link → links[j]? = some other →
    link.up = some other.id → j < i

omit [DecidableEq ι] in
theorem ParentsFirst.congr {links' : List (Link ι)} (h : ParentsFirst links)
    (hsame : links'.map (fun link => (link.id, link.up)) =
      links.map (fun link => (link.id, link.up))) : ParentsFirst links' := by
  have hids : links'.map Link.id = links.map Link.id := by
    have hfst := congrArg (map Prod.fst) hsame
    rwa [map_map, map_map] at hfst
  have hpair := forall₂_of_map_eq hsame.symm
  refine ⟨hids ▸ h.nodup, ?_⟩
  intro i j link other hi hj hup
  obtain ⟨link', hi', hlink⟩ := forall₂_at hpair hi
  obtain ⟨other', hj', hother⟩ := forall₂_at hpair hj
  rw [Prod.mk.injEq] at hlink hother
  exact h.before i j link' other' hi' hj' (by rw [hlink.2, hup, hother.1])

inductive NearestStop (links : List (Link ι)) : Option ι → Option ι → Prop where
  | root : NearestStop links none none
  | missing {id : ι} (h : findLink links id = none) : NearestStop links (some id) none
  | here {id : ι} {link : Link ι} (h : findLink links id = some link) (hstops : link.stops = true) :
      NearestStop links (some id) (some id)
  | above {id : ι} {link : Link ι} {found : Option ι} (h : findLink links id = some link)
      (hstops : link.stops = false) (hup : NearestStop links link.up found) :
      NearestStop links (some id) found

theorem NearestStop.unique {found found' : Option ι} (h : NearestStop links up found)
    (h' : NearestStop links up found') : found = found' := by
  induction h generalizing found' with
  | root => cases h' with | root => rfl
  | missing hnone =>
    cases h' with
    | missing => rfl
    | here hsome | above hsome => rw [hnone] at hsome; cases hsome
  | here hsome hstops =>
    cases h' with
    | missing hnone => rw [hsome] at hnone; cases hnone
    | here => rfl
    | above hsome' hgoes =>
      cases hsome.symm.trans hsome'
      rw [hstops] at hgoes
      cases hgoes
  | above hsome hgoes _ ih =>
    cases h' with
    | missing hnone => rw [hsome] at hnone; cases hnone
    | here hsome' hstops =>
      cases hsome.symm.trans hsome'
      rw [hstops] at hgoes
      cases hgoes
    | above hsome' _ hup' =>
      cases hsome.symm.trans hsome'
      exact ih hup'

theorem NearestStop.stops {ancestor : ι} (h : NearestStop links up (some ancestor)) :
    ∃ link, findLink links ancestor = some link ∧ link.stops = true := by
  generalize hfound : some ancestor = found at h
  induction h with
  | root | missing => cases hfound
  | here hsome hstops =>
    cases hfound
    exact ⟨_, hsome, hstops⟩
  | above _ _ _ ih => exact ih hfound

/-- The search for a parent ends, by induction on the place of the link that names it. -/
theorem ParentsFirst.nearest_at (h : ParentsFirst links) (hget : links[i]? = some link) :
    ∃ found, NearestStop links link.up found := by
  induction i using Nat.strongRecOn generalizing link with
  | _ i ih =>
    cases hup : link.up with
    | none => exact ⟨none, .root⟩
    | some id =>
      cases hfind : findLink links id with
      | none => exact ⟨none, .missing hfind⟩
      | some other =>
        obtain ⟨hmem, rfl⟩ := findLink_eq_some hfind
        obtain ⟨j, hj⟩ := mem_iff_getElem?.mp hmem
        cases hstops : other.stops with
        | true => exact ⟨some other.id, .here hfind hstops⟩
        | false =>
          obtain ⟨found, hfound⟩ := ih j (h.before i j link other hget hj hup) hj
          exact ⟨found, .above hfind hstops hfound⟩

/-- The number of links met on the way up. -/
inductive Height (links : List (Link ι)) : Option ι → Nat → Prop where
  | root : Height links none 0
  | missing {id : ι} (h : findLink links id = none) : Height links (some id) 0
  | above {id : ι} {link : Link ι} {n : Nat} (h : findLink links id = some link)
      (hup : Height links link.up n) : Height links (some id) (n + 1)

theorem Height.unique {m n : Nat} (h : Height links up m) (h' : Height links up n) : m = n := by
  induction h generalizing n with
  | root => cases h' with | root => rfl
  | missing hnone =>
    cases h' with
    | missing => rfl
    | above hsome => rw [hnone] at hsome; cases hsome
  | above hsome _ ih =>
    cases h' with
    | missing hnone => rw [hsome] at hnone; cases hnone
    | above hsome' hup' =>
      cases hsome.symm.trans hsome'
      rw [ih hup']

theorem ParentsFirst.height_take (h : ParentsFirst links) (hget : links[i]? = some link)
    (hij : i ≤ j) : ∃ n, Height (links.take i) link.up n ∧ Height (links.take j) link.up n := by
  induction i using Nat.strongRecOn generalizing link j with
  | _ i ih =>
    cases hup : link.up with
    | none => exact ⟨0, .root, .root⟩
    | some id =>
      by_cases hid : id ∈ links.map Link.id
      · obtain ⟨other, hmem, rfl⟩ := mem_map.mp hid
        obtain ⟨k, hk⟩ := mem_iff_getElem?.mp hmem
        have hki := h.before i k link other hget hk hup
        have hfind : ∀ l, i ≤ l → findLink (links.take l) other.id = some other := by
          intro l hl
          apply findLink_of_mem (h.nodup.sublist ((take_sublist l links).map Link.id))
          apply mem_of_getElem? (i := k)
          rw [getElem?_take_of_lt (by omega)]
          exact hk
        obtain ⟨n, hk', hi⟩ := ih k hki (j := i) hk (Nat.le_of_lt hki)
        obtain ⟨m, hk'', hj⟩ := ih k hki (j := j) hk (by omega)
        obtain rfl := hk'.unique hk''
        exact ⟨n + 1, .above (hfind i (Nat.le_refl i)) hi, .above (hfind j hij) hj⟩
      · have hnone : ∀ l, findLink (links.take l) id = none := by
          intro l
          rw [findLink_eq_none]
          intro hmem
          exact hid (((take_sublist l links).map Link.id).mem hmem)
        exact ⟨0, .missing (hnone i), .missing (hnone j)⟩

end Bbr.Lib
