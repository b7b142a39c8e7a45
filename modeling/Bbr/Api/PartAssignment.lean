import Bbr.Api.Potentials
import Bbr.Lib.Results

/-!
# Cheapest assignments

The placed rows own columns at their prices. A row is placed over a tree of columns, in which every
edge is at its price, up to a column that is free. The path back to the root then moves every row of
the path by one column.
-/
namespace Bbr.Api.MemberSearch
open Bbr.Lib List

variable {costs : Nat → Nat → Nat} {rows cols k hole row col : Nat} {tables : Tables}

/-- The prices undercut the costs, and only the open row was paid for. -/
structure Priced (costs : Nat → Nat → Nat) (rows cols : Nat) (tables : Tables) : Prop where
  undercut : ∀ r j, 1 ≤ r → r ≤ rows → 1 ≤ j → j ≤ cols →
    tables.u r + tables.v j ≤ costs (r - 1) (j - 1)
  row_nonneg : ∀ r, 0 ≤ tables.u r
  col_nonpos : ∀ j, tables.v j ≤ 0
  col_floor : ∀ j, tables.v 0 ≤ tables.v j
  balanced : balance rows cols tables = 0

/-- The first `k` rows own columns at their prices. The column `hole` does not count. -/
structure Placed (costs : Nat → Nat → Nat) (cols k hole : Nat) (tables : Tables) : Prop where
  range : ∀ j ≤ cols, j ≠ hole → tables.owner j ≤ k
  own : ∀ i ≤ cols, ∀ j ≤ cols, i ≠ hole → j ≠ hole → tables.owner i ≠ 0 →
    tables.owner i = tables.owner j → i = j
  cover : ∀ r, 1 ≤ r → r ≤ k → ∃ j ≤ cols, j ≠ hole ∧ tables.owner j = r
  tight : ∀ j, 1 ≤ j → j ≤ cols → j ≠ hole → tables.owner j ≠ 0 →
    tables.u (tables.owner j) + tables.v j = costs (tables.owner j - 1) (j - 1)
  free : ∀ j, 1 ≤ j → j ≤ cols → tables.owner j = 0 → tables.v j = 0

/-- The visited columns, the last one first. Every one but the root was reached from an earlier
one at its price. -/
def Tree (costs : Nat → Nat → Nat) (tables : Tables) : List Nat → Prop
  | [] => True
  | j :: visited => (visited = [] → j = 0) ∧
      (visited ≠ [] → tables.previous j ∈ visited ∧ slack costs tables (tables.previous j) j = 0) ∧
      Tree costs tables visited

/-- The visited columns are used, and the minima are the least slacks from them. -/
structure Searching (costs : Nat → Nat → Nat) (cols : Nat) (tables : Tables) (visited : List Nat) :
    Prop where
  used : ∀ j, tables.used j = true ↔ j ∈ visited
  range : ∀ j ∈ visited, j ≤ cols
  nodup : visited.Nodup
  owned : ∀ j ∈ visited, tables.owner j ≠ 0
  tree : Tree costs tables visited
  start : visited = [] → ∀ j, tables.minimum j = unreached
  root : visited ≠ [] → 0 ∈ visited
  reached : visited ≠ [] → ∀ j, 1 ≤ j → j ≤ cols → j ∉ visited →
    tables.previous j ∈ visited ∧ tables.minimum j = slack costs tables (tables.previous j) j
  least : ∀ j, 1 ≤ j → j ≤ cols → j ∉ visited → ∀ s ∈ visited,
    tables.minimum j ≤ slack costs tables s j

variable {visited : List Nat}

theorem Tree.congr {tables' : Tables} (h : Tree costs tables visited)
    (hprevious : ∀ j ∈ visited, tables'.previous j = tables.previous j)
    (hslack : ∀ s ∈ visited, ∀ j ∈ visited, slack costs tables' s j = slack costs tables s j) :
    Tree costs tables' visited := by
  induction visited with
  | nil => trivial
  | cons j visited ih =>
    obtain ⟨hroot, hedge, hrest⟩ := h
    refine ⟨hroot, fun hne => ?_, ih hrest (fun i hi => hprevious i (mem_cons_of_mem _ hi))
      (fun s hs i hi => hslack s (mem_cons_of_mem _ hs) i (mem_cons_of_mem _ hi))⟩
    have hj := hedge hne
    rw [hprevious j mem_cons_self]
    exact ⟨hj.1, (hslack _ (mem_cons_of_mem _ hj.1) j mem_cons_self).trans hj.2⟩

theorem Tree.suffix {rest : List Nat} (h : Tree costs tables (visited ++ rest)) :
    Tree costs tables rest := by
  induction visited with
  | nil => exact h
  | cons j visited ih => exact ih h.2.2

def mark (tables : Tables) (col : Nat) : Tables := { tables with used := put tables.used col true }

/-- How a column joins the visited ones: as the root, or over an edge at its price. -/
def Joins (costs : Nat → Nat → Nat) (tables : Tables) (visited : List Nat) (col : Nat) : Prop :=
  (visited = [] ∧ col = 0) ∨
  (visited ≠ [] ∧ tables.previous col ∈ visited ∧ slack costs tables (tables.previous col) col = 0)

theorem mem_columns {j : Nat} : j ∈ List.range' 1 cols ↔ 1 ≤ j ∧ j ≤ cols := by
  rw [mem_range'_1]
  omega

theorem Searching.mark_used (h : Searching costs cols tables visited) (j : Nat) :
    (mark tables col).used j = true ↔ j ∈ col :: visited := by
  by_cases hj : j = col
  · simp [mark, hj]
  · simp [mark, put_other _ _ hj, hj, h.used]

theorem Searching.scan (h : Searching costs cols tables visited) (hcol : col ≤ cols)
    (hnew : col ∉ visited) (howned : tables.owner col ≠ 0)
    (hjoins : Joins costs tables visited col)
    (hbound : visited = [] → ∀ j, 1 ≤ j → j ≤ cols → slack costs tables col j < unreached) :
    Searching costs cols (lowered costs col (mark tables col) (List.range' 1 cols))
      (col :: visited) := by
  have hunused : ∀ j, 1 ≤ j → j ≤ cols → j ∉ col :: visited →
      j ∈ range' 1 cols ∧ (mark tables col).used j = false := by
    intro j hj hj' hmem
    rw [← h.mark_used j, Bool.not_eq_true] at hmem
    exact ⟨mem_columns.mpr ⟨hj, hj'⟩, hmem⟩
  have hprevious : ∀ j ∈ col :: visited,
      (lowered costs col (mark tables col) (range' 1 cols)).previous j = tables.previous j := by
    intro j hj
    have hused := (h.mark_used j).mpr hj
    exact if_neg (fun hlow => by simp [hused] at hlow)
  constructor
  · exact fun j => h.mark_used j
  · intro j hj
    cases mem_cons.mp hj with
    | inl hj => exact hj ▸ hcol
    | inr hj => exact h.range j hj
  · exact nodup_cons.mpr ⟨hnew, h.nodup⟩
  · intro j hj
    cases mem_cons.mp hj with
    | inl hj => exact hj ▸ howned
    | inr hj => exact h.owned j hj
  · have hrest : Tree costs (lowered costs col (mark tables col) (range' 1 cols)) visited :=
      h.tree.congr (fun j hj => hprevious j (mem_cons_of_mem _ hj)) (fun _ _ _ _ => rfl)
    refine ⟨fun hnil => ?_, fun hne => ?_, hrest⟩
    · exact hjoins.elim (fun hroot => hroot.2) (fun hedge => absurd hnil hedge.1)
    · rw [hprevious col mem_cons_self]
      exact hjoins.elim (fun hroot => absurd hroot.1 hne) (fun hedge => hedge.2)
  · exact fun hnil => nomatch hnil
  · intro _
    cases hjoins with
    | inl hroot => exact hroot.2 ▸ mem_cons_self
    | inr hedge => exact mem_cons_of_mem _ (h.root hedge.1)
  · intro _ j hj hj' hmem
    obtain ⟨hcolumn, hfree⟩ := hunused j hj hj' hmem
    have hold : ¬slack costs tables col j < tables.minimum j → tables.previous j ∈ col :: visited ∧
        tables.minimum j = slack costs tables (tables.previous j) j := by
      intro hlt
      have hne : visited ≠ [] := by
        intro hnil
        rw [h.start hnil j] at hlt
        exact hlt (hbound hnil j hj hj')
      have hreached := h.reached hne j hj hj' (fun hin => hmem (mem_cons_of_mem _ hin))
      exact ⟨mem_cons_of_mem _ hreached.1, hreached.2⟩
    by_cases hlt : slack costs tables col j < tables.minimum j
    · have hprev : (lowered costs col (mark tables col) (range' 1 cols)).previous j = col :=
        if_pos ⟨hcolumn, hfree, hlt⟩
      have hmin : (lowered costs col (mark tables col) (range' 1 cols)).minimum j =
          min (tables.minimum j) (slack costs tables col j) := if_pos ⟨hcolumn, hfree⟩
      rw [hprev, hmin]
      exact ⟨mem_cons_self, Int.min_eq_right (Int.le_of_lt hlt)⟩
    · have hprev : (lowered costs col (mark tables col) (range' 1 cols)).previous j =
          tables.previous j := if_neg (fun hj => hlt hj.2.2)
      have hmin : (lowered costs col (mark tables col) (range' 1 cols)).minimum j =
          min (tables.minimum j) (slack costs tables col j) := if_pos ⟨hcolumn, hfree⟩
      rw [hprev, hmin, Int.min_eq_left (Int.not_lt.mp hlt)]
      exact hold hlt
  · intro j hj hj' hmem s hs
    obtain ⟨hcolumn, hfree⟩ := hunused j hj hj' hmem
    have hmin : (lowered costs col (mark tables col) (range' 1 cols)).minimum j =
        min (tables.minimum j) (slack costs tables col j) := if_pos ⟨hcolumn, hfree⟩
    rw [hmin]
    cases mem_cons.mp hs with
    | inl hs =>
      subst hs
      exact Int.min_le_right _ _
    | inr hs =>
      exact Int.le_trans (Int.min_le_left _ _)
        (h.least j hj hj' (fun hin => hmem (mem_cons_of_mem _ hin)) s hs)

section
variable {visited : List Nat} {delta : Int}

section

variable (h : Searching costs cols tables visited)
include h

/-- Every row of a visited column is paid for by that column alone. -/
theorem Searching.ownRows (hplaced : Placed costs cols k (cols + 1) tables) :
    OwnRows tables cols := by
  intro i hi j hj hused _ heq
  exact hplaced.own i hi j hj (by omega) (by omega) (h.owned i ((h.used i).mp hused)) heq

variable {s : Nat}

theorem Searching.shifted_u (delta : Int) (hs : s ∈ visited) :
    (shifted delta tables (List.range (cols + 1))).u (tables.owner s) =
      tables.u (tables.owner s) + delta :=
  if_pos ⟨s, mem_range.mpr (Nat.lt_succ_of_le (h.range s hs)), (h.used s).mpr hs, rfl⟩

theorem Searching.shifted_u_other (delta : Int) {r : Nat} (hr : ∀ s ∈ visited, tables.owner s ≠ r) :
    (shifted delta tables (List.range (cols + 1))).u r = tables.u r := by
  refine if_neg ?_
  rintro ⟨s, _, hused, heq⟩
  exact hr s ((h.used s).mp hused) heq

variable {j : Nat}

theorem Searching.shifted_v (delta : Int) (hj : j ∈ visited) :
    (shifted delta tables (List.range (cols + 1))).v j = tables.v j - delta :=
  if_pos ⟨mem_range.mpr (Nat.lt_succ_of_le (h.range j hj)), (h.used j).mpr hj⟩

theorem Searching.shifted_v_other (delta : Int) (hj : j ∉ visited) :
    (shifted delta tables (List.range (cols + 1))).v j = tables.v j :=
  if_neg (fun hused => hj ((h.used j).mp hused.2))

theorem Searching.shifted_slack (delta : Int) (hs : s ∈ visited) (hj : j ∈ visited) :
    slack costs (shifted delta tables (List.range (cols + 1))) s j = slack costs tables s j := by
  have hu := h.shifted_u delta hs
  have hv := h.shifted_v delta hj
  have howner : (shifted delta tables (List.range (cols + 1))).owner = tables.owner := rfl
  simp only [slack, howner, hu, hv]
  omega

theorem Searching.shifted_slack_other (delta : Int) (hs : s ∈ visited) (hj : j ∉ visited) :
    slack costs (shifted delta tables (List.range (cols + 1))) s j =
      slack costs tables s j - delta := by
  have hu := h.shifted_u delta hs
  have hv := h.shifted_v_other delta hj
  have howner : (shifted delta tables (List.range (cols + 1))).owner = tables.owner := rfl
  simp only [slack, howner, hu, hv]
  omega

theorem Searching.shift (hne : visited ≠ []) :
    Searching costs cols (shifted delta tables (List.range (cols + 1))) visited := by
  have hminimum : ∀ j, j ≤ cols → j ∉ visited →
      (shifted delta tables (List.range (cols + 1))).minimum j = tables.minimum j - delta := by
    intro j hj hmem
    rw [← h.used j, Bool.not_eq_true] at hmem
    exact if_pos ⟨List.mem_range.mpr (Nat.lt_succ_of_le hj), hmem⟩
  constructor
  · exact h.used
  · exact h.range
  · exact h.nodup
  · exact h.owned
  · exact h.tree.congr (fun _ _ => rfl) (fun s hs j hj => h.shifted_slack delta hs hj)
  · exact fun hnil => absurd hnil hne
  · exact h.root
  · intro _ j hj hj' hmem
    obtain ⟨hprevious, hmin⟩ := h.reached hne j hj hj' hmem
    refine ⟨hprevious, ?_⟩
    rw [hminimum j hj' hmem, hmin]
    exact (h.shifted_slack_other delta hprevious hmem).symm
  · intro j hj hj' hmem s hs
    have hle := h.least j hj hj' hmem s hs
    rw [hminimum j hj' hmem, h.shifted_slack_other delta hs hmem]
    omega

end

theorem Priced.shift (hpriced : Priced costs rows cols tables)
    (h : Searching costs cols tables visited) (hplaced : Placed costs cols k (cols + 1) tables)
    (hk : k ≤ rows) (hne : visited ≠ []) (hdelta : 0 ≤ delta)
    (hleast : ∀ j, 1 ≤ j → j ≤ cols → j ∉ visited → delta ≤ tables.minimum j) :
    Priced costs rows cols (shifted delta tables (List.range (cols + 1))) := by
  have hv : ∀ j, (shifted delta tables (range (cols + 1))).v j =
      if j ∈ visited then tables.v j - delta else tables.v j := by
    intro j
    split
    · next hj => exact h.shifted_v delta hj
    · next hj => exact h.shifted_v_other delta hj
  constructor
  · intro r j hr hr' hj hj'
    have hundercut := hpriced.undercut r j hr hr' hj hj'
    by_cases hrow : ∃ s ∈ visited, tables.owner s = r
    · obtain ⟨s, hs, rfl⟩ := hrow
      rw [h.shifted_u delta hs, hv]
      split
      · omega
      rename_i hmem
      have hslack := h.least j hj hj' hmem s hs
      have hle := hleast j hj hj' hmem
      simp only [slack] at hslack
      omega
    · rw [h.shifted_u_other delta (fun s hs heq => hrow ⟨s, hs, heq⟩), hv]
      split <;> omega
  · intro r
    have hnonneg := hpriced.row_nonneg r
    simp only [shifted]
    split <;> omega
  · intro j
    have hnonpos := hpriced.col_nonpos j
    rw [hv]
    split <;> omega
  · intro j
    have hfloor := hpriced.col_floor j
    rw [hv, hv, if_pos (h.root hne)]
    split <;> omega
  · rw [← shiftColumns_eq (h.ownRows hplaced), shiftColumns_balance]
    · exact hpriced.balanced
    · intro j hj hused
      have howned := h.owned j ((h.used j).mp hused)
      have hrange := hplaced.range j hj (by omega)
      omega

theorem Placed.shift (hplaced : Placed costs cols k (cols + 1) tables)
    (h : Searching costs cols tables visited) :
    Placed costs cols k (cols + 1) (shifted delta tables (List.range (cols + 1))) := by
  constructor
  · exact hplaced.range
  · exact hplaced.own
  · exact hplaced.cover
  · intro j hj hj' hhole howned
    have htight := hplaced.tight j hj hj' hhole howned
    by_cases hmem : j ∈ visited
    · have hu := h.shifted_u delta hmem
      have hv := h.shifted_v delta hmem
      simp only [show (shifted delta tables (List.range (cols + 1))).owner = tables.owner from rfl,
        hu, hv]
      omega
    · have hrow : ∀ s ∈ visited, tables.owner s ≠ tables.owner j := by
        intro s hs heq
        have hsj := hplaced.own s (h.range s hs) j hj' (by have := h.range s hs; omega) hhole
          (h.owned s hs) heq
        exact hmem (hsj ▸ hs)
      have hu := h.shifted_u_other delta hrow
      have hv := h.shifted_v_other delta hmem
      simp only [show (shifted delta tables (List.range (cols + 1))).owner = tables.owner from rfl,
        hu, hv]
      exact htight
  · intro j hj hj' hfree
    have hmem : j ∉ visited := fun hmem => h.owned j hmem hfree
    rw [h.shifted_v_other delta hmem]
    exact hplaced.free j hj hj' hfree

end

end Bbr.Api.MemberSearch
