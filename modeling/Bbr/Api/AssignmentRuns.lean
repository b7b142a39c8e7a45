import Bbr.Api.PartAssignment
import Mathlib.Algebra.BigOperators.Intervals

/-!
# Runs of the assignment

Every round visits one more column until it finds a free one. Placing a row this way keeps the
prices, and the rows placed last are at them, so that the last price of column 0 is the least cost.
-/
namespace Bbr.Api.MemberSearch
open Bbr.Lib List

variable {costs : Nat → Nat → Nat} {rows cols k hole row col : Nat} {tables : Tables}
  {tables' : Tables}

theorem Priced.congr (h : Priced costs rows cols tables) (hu : tables'.u = tables.u)
    (hv : tables'.v = tables.v) : Priced costs rows cols tables' where
  undercut := by rw [hu, hv]; exact h.undercut
  row_nonneg := by rw [hu]; exact h.row_nonneg
  col_nonpos := by rw [hv]; exact h.col_nonpos
  col_floor := by rw [hv]; exact h.col_floor
  balanced := by rw [balance, hu, hv]; exact h.balanced

theorem Placed.congr (h : Placed costs cols k hole tables) (hu : tables'.u = tables.u)
    (hv : tables'.v = tables.v) (howner : tables'.owner = tables.owner) :
    Placed costs cols k hole tables' where
  range := by rw [howner]; exact h.range
  own := by rw [howner]; exact h.own
  cover := by rw [howner]; exact h.cover
  tight := by rw [howner, hu, hv]; exact h.tight
  free := by rw [howner, hv]; exact h.free

theorem slack_lt (hcosts : ∀ r j, costs r j < 256) (hpriced : Priced costs rows cols tables)
    (hfloor : -tables.v 0 ≤ 255) (s j : Nat) : slack costs tables s j < unreached := by
  have hcost := hcosts (tables.owner s - 1) (j - 1)
  have hrow := hpriced.row_nonneg (tables.owner s)
  have hcol := hpriced.col_floor j
  simp only [slack, unreached]
  omega

theorem Placed.exists_free (h : Placed costs cols k 0 tables) (hk : k < cols) :
    ∃ j, 1 ≤ j ∧ j ≤ cols ∧ tables.owner j = 0 := by
  by_contra hnone
  have howned : ∀ j, 1 ≤ j → j ≤ cols → tables.owner j ≠ 0 := fun j hj hj' heq =>
    hnone ⟨j, hj, hj', heq⟩
  have hcard := Finset.card_le_card_of_injOn (s := Finset.Icc 1 cols) (t := Finset.Icc 1 k)
    tables.owner (by
      intro j hj
      have hj := Finset.mem_Icc.mp hj
      have hle := h.range j hj.2 (by omega)
      have hne := howned j hj.1 hj.2
      exact Finset.mem_coe.mpr (Finset.mem_Icc.mpr (by omega))) (by
      intro i hi j hj heq
      have hi := Finset.mem_Icc.mp hi
      have hj := Finset.mem_Icc.mp hj
      exact h.own i hi.2 j hj.2 (by omega) (by omega) (howned i hi.1 hi.2) heq)
  rw [Nat.card_Icc, Nat.card_Icc] at hcard
  omega

variable {visited : List Nat}

theorem round (hcosts : ∀ r j, costs r j < 256) (hpriced : Priced costs rows cols tables)
    (hplaced : Placed costs cols k (cols + 1) tables) (hk : k ≤ rows)
    (h : Searching costs cols tables visited) (hcol : col ≤ cols) (hnew : col ∉ visited)
    (howned : tables.owner col ≠ 0) (hjoins : Joins costs tables visited col)
    (hfloor : visited = [] → -tables.v 0 ≤ 255)
    (hfree : ∃ j, 1 ≤ j ∧ j ≤ cols ∧ tables.owner j = 0) {scan : Scan}
    (hscan : scanColumns costs cols col (mark tables col) = scan)
    (htables' : shiftColumns cols scan.delta scan.tables = tables') :
    1 ≤ scan.next ∧ scan.next ≤ cols ∧ scan.next ∉ col :: visited ∧
    Priced costs rows cols tables' ∧ Placed costs cols k (cols + 1) tables' ∧
    Searching costs cols tables' (col :: visited) ∧
    Joins costs tables' (col :: visited) scan.next ∧ tables'.owner = tables.owner := by
  have hscanned := scanColumns_scanned costs cols col (mark tables col)
  rw [hscan] at hscanned
  have hsearch := h.scan hcol hnew howned hjoins
    (fun hnil j _ _ => slack_lt hcosts hpriced (hfloor hnil) col j)
  rw [← hscanned.tables_eq] at hsearch
  have hfields : scan.tables.u = tables.u ∧ scan.tables.v = tables.v ∧
      scan.tables.owner = tables.owner ∧ scan.tables.used = (mark tables col).used := by
    rw [hscanned.tables_eq]
    exact ⟨rfl, rfl, rfl, rfl⟩
  obtain ⟨hu, hv, howner, hused⟩ := hfields
  have hpriced' := hpriced.congr hu hv
  have hplaced' := hplaced.congr hu hv howner
  have hunused : ∀ j, j ∉ col :: visited → (mark tables col).used j = false := by
    intro j hj
    rwa [← h.mark_used j, Bool.not_eq_true] at hj
  -- The free column is not visited and bounds the amount.
  have hdelta : scan.delta < unreached := by
    obtain ⟨j, hj, hj', hzero⟩ := hfree
    have hmem : j ∉ col :: visited := by
      intro hmem
      have hne := hsearch.owned j hmem
      rw [howner] at hne
      exact hne hzero
    have hle := hscanned.least j (mem_columns.mpr ⟨hj, hj'⟩) (hunused j hmem)
    have hslack := hsearch.least j hj hj' hmem col mem_cons_self
    have hcost := hcosts (scan.tables.owner col - 1) (j - 1)
    have hrow := hpriced'.row_nonneg (scan.tables.owner col)
    have hzero' := hplaced'.free j hj hj' (by rw [howner]; exact hzero)
    simp only [slack, hzero', unreached] at hslack ⊢
    omega
  obtain ⟨hnext, hnextUsed, hnextDelta⟩ := hscanned.found hdelta
  have hnextRange := mem_columns.mp hnext
  have hnextNew : scan.next ∉ col :: visited := by
    rw [← h.mark_used scan.next, hnextUsed]
    exact Bool.false_ne_true
  obtain ⟨hprevious, hminimum⟩ := hsearch.reached (cons_ne_nil _ _) scan.next hnextRange.1
    hnextRange.2 hnextNew
  have hnonneg : 0 ≤ scan.delta := by
    have hne := hsearch.owned _ hprevious
    have hle := hplaced'.range _ (hsearch.range _ hprevious)
      (by have := hsearch.range _ hprevious; omega)
    have hundercut := hpriced'.undercut _ scan.next (Nat.one_le_iff_ne_zero.mpr hne)
      (Nat.le_trans hle hk) hnextRange.1 hnextRange.2
    simp only [slack] at hminimum
    omega
  rw [shiftColumns_eq (hsearch.ownRows hplaced')] at htables'
  subst htables'
  refine ⟨hnextRange.1, hnextRange.2, hnextNew, ?_, hplaced'.shift hsearch,
    hsearch.shift (cons_ne_nil _ _), .inr ⟨cons_ne_nil _ _, hprevious, ?_⟩, howner⟩
  · exact hpriced'.shift hsearch hplaced' hk (cons_ne_nil _ _) hnonneg (fun j hj hj' hmem =>
      hscanned.least j (mem_columns.mpr ⟨hj, hj'⟩) (hunused j hmem))
  have hshift := hsearch.shifted_slack_other scan.delta hprevious hnextNew
  have hslack :
      slack costs scan.tables (scan.tables.previous scan.next) scan.next - scan.delta = 0 := by
    omega
  exact hshift.trans hslack

variable {fuel : Nat}

theorem findFree_ok (hcosts : ∀ r j, costs r j < 256) (hk : k ≤ rows)
    (hpriced : Priced costs rows cols tables) (hplaced : Placed costs cols k (cols + 1) tables)
    (h : Searching costs cols tables visited) (hcol : col ≤ cols) (hnew : col ∉ visited)
    (howned : tables.owner col ≠ 0) (hjoins : Joins costs tables visited col)
    (hfloor : visited = [] → -tables.v 0 ≤ 255)
    (hfree : ∃ j, 1 ≤ j ∧ j ≤ cols ∧ tables.owner j = 0)
    (hfuel : fuel + visited.length = cols + 1) :
    ∃ j tables' visited', findFree costs cols fuel col tables = .ok (j, tables') ∧
      j ≤ cols ∧ tables'.owner j = 0 ∧ j ∉ visited' ∧ Joins costs tables' visited' j ∧
      Priced costs rows cols tables' ∧ Placed costs cols k (cols + 1) tables' ∧
      Searching costs cols tables' visited' := by
  induction fuel generalizing col tables visited with
  | zero =>
    -- More columns than there are would have been visited.
    have hsub : (col :: visited).toFinset ⊆ Finset.range (cols + 1) := by
      intro j hj
      have hj := mem_toFinset.mp hj
      have hle : j ≤ cols := by
        cases mem_cons.mp hj with
        | inl hj => exact hj ▸ hcol
        | inr hj => exact h.range j hj
      exact Finset.mem_range.mpr (by omega)
    have hcard := Finset.card_le_card hsub
    rw [toFinset_card_of_nodup (nodup_cons.mpr ⟨hnew, h.nodup⟩), Finset.card_range,
      length_cons] at hcard
    omega
  | succ fuel ih =>
    obtain ⟨hnext, hnext', hnextNew, hpriced', hplaced', hsearch, hjoins', howner⟩ :=
      round hcosts hpriced hplaced hk h hcol hnew howned hjoins hfloor hfree rfl rfl
    by_cases hzero : (shiftColumns cols (scanColumns costs cols col (mark tables col)).delta
        (scanColumns costs cols col (mark tables col)).tables).owner
          (scanColumns costs cols col (mark tables col)).next = 0
    · exact ⟨_, _, _, if_pos hzero, hnext', hzero, hnextNew, hjoins', hpriced', hplaced', hsearch⟩
    have hrest := ih hpriced' hplaced' hsearch hnext' hnextNew hzero hjoins'
      (fun hnil => nomatch hnil) (by rw [howner]; exact hfree) (by rw [length_cons]; omega)
    obtain ⟨j, tables', visited', hrun, hresult⟩ := hrest
    exact ⟨j, tables', visited', (if_neg hzero).trans hrun, hresult⟩

/-- A column takes the row of the one before it, which does not count from then on. -/
theorem Placed.move {next : Nat} (h : Placed costs cols k col tables)
    (hcol' : col ≤ cols) (hne : next ≠ col) (hnext : next ≤ cols) (howned : tables.owner next ≠ 0)
    (hslack : slack costs tables next col = 0) :
    Placed costs cols k next { tables with owner := put tables.owner col (tables.owner next) } := by
  have hput : ∀ j, put tables.owner col (tables.owner next) j =
      if j = col then tables.owner next else tables.owner j := fun j => rfl
  constructor
  · intro j hj hhole
    simp only [hput]
    split
    · exact h.range next hnext hne
    · next hjc => exact h.range j hj hjc
  · intro i hi j hj hi' hj' hzero heq
    simp only [hput] at hzero heq
    split at heq
    · next hic =>
      split at heq
      · next hjc => rw [hic, hjc]
      · next hjc => exact absurd (h.own next hnext j hj hne hjc howned heq).symm hj'
    · next hic =>
      rw [if_neg hic] at hzero
      split at heq
      · next hjc => exact absurd (h.own i hi next hnext hic hne hzero heq) hi'
      · next hjc => exact h.own i hi j hj hic hjc hzero heq
  · intro r hr hr'
    obtain ⟨j, hj, hjc, howner⟩ := h.cover r hr hr'
    by_cases hjn : j = next
    · subst hjn
      exact ⟨col, hcol', fun heq => hne heq.symm, (put_same _ _ _).trans howner⟩
    · exact ⟨j, hj, hjn, (put_other _ _ hjc).trans howner⟩
  · intro j hj hj' hjn hzero
    simp only [hput] at hzero ⊢
    by_cases hjc : j = col
    · rw [if_pos hjc, hjc]
      simp only [slack] at hslack
      omega
    · rw [if_neg hjc] at hzero ⊢
      exact h.tight j hj hj' hjc hzero
  · intro j hj hj' hzero
    simp only [hput] at hzero
    split at hzero
    · exact absurd hzero howned
    · exact h.free j hj hj' hzero

theorem augment_ok (htree : Tree costs tables (col :: visited)) (hnodup : (col :: visited).Nodup)
    (hrange : ∀ j ∈ col :: visited, j ≤ cols) (howned : ∀ j ∈ visited, tables.owner j ≠ 0)
    (hplaced : Placed costs cols k col tables) (hfuel : visited.length < fuel) :
    ∃ tables', augment fuel col tables = .ok tables' ∧ Placed costs cols k 0 tables' ∧
      tables'.u = tables.u ∧ tables'.v = tables.v := by
  induction fuel generalizing col visited tables with
  | zero => omega
  | succ fuel ih =>
    rw [augment]
    by_cases hcol : col = 0
    · subst hcol
      exact ⟨tables, if_pos rfl, hplaced, rfl, rfl⟩
    obtain ⟨hroot, hedge, htree⟩ := htree
    obtain ⟨hprevious, hslack⟩ := hedge (fun hnil => hcol (hroot hnil))
    obtain ⟨pre, rest, rfl⟩ := append_of_mem hprevious
    have hlast := htree.suffix
    obtain ⟨hnew, hnodup⟩ := nodup_cons.mp hnodup
    have hkept : ∀ j ∈ pre ++ tables.previous col :: rest,
        put tables.owner col (tables.owner (tables.previous col)) j = tables.owner j :=
      fun j hj => put_other _ _ (fun heq => hnew (heq ▸ hj))
    have hsub : ∀ j ∈ tables.previous col :: rest, j ∈ pre ++ tables.previous col :: rest :=
      fun j hj => mem_append_right _ hj
    have hmove := hplaced.move (hrange col mem_cons_self)
      (fun heq => hnew (mem_append_right _ (by simp [heq])))
      (hrange _ (mem_cons_of_mem _ hprevious))
      (howned _ hprevious) hslack
    have htree : Tree costs
        { tables with owner := put tables.owner col (tables.owner (tables.previous col)) }
        (tables.previous col :: rest) :=
      hlast.congr (fun _ _ => rfl) (fun s hs j _ => by simp only [slack, hkept s (hsub s hs)])
    have hnext := ih htree (nodup_append.mp hnodup).2.1
      (fun j hj => hrange j (mem_cons_of_mem _ (hsub j hj)))
      (fun j hj => (hkept j (hsub j (mem_cons_of_mem _ hj))).trans_ne
        (howned j (hsub j (mem_cons_of_mem _ hj))))
      hmove (by simp only [length_append, length_cons] at hfuel; omega)
    rw [if_neg hcol]
    exact hnext

theorem Placed.enter (h : Placed costs cols k 0 tables) :
    Placed costs cols (k + 1) (cols + 1) (enterRow (k + 1) tables) := by
  have hzero : (enterRow (k + 1) tables).owner 0 = k + 1 := put_same tables.owner 0 (k + 1)
  have hother : ∀ j, j ≠ 0 → (enterRow (k + 1) tables).owner j = tables.owner j :=
    fun j hj => put_other _ _ hj
  constructor
  · intro j hj _
    by_cases hj0 : j = 0
    · rw [hj0, hzero]
    · have hle := h.range j hj hj0
      rw [hother j hj0]
      omega
  · intro i hi j hj _ _ hne heq
    by_cases hi0 : i = 0 <;> by_cases hj0 : j = 0
    · rw [hi0, hj0]
    · have hle := h.range j hj hj0
      rw [hi0, hzero, hother j hj0] at heq
      omega
    · have hle := h.range i hi hi0
      rw [hj0, hzero, hother i hi0] at heq
      omega
    · rw [hother i hi0] at hne heq
      rw [hother j hj0] at heq
      exact h.own i hi j hj hi0 hj0 hne heq
  · intro r hr hr'
    by_cases hlast : r = k + 1
    · exact ⟨0, Nat.zero_le _, by omega, hzero.trans hlast.symm⟩
    · obtain ⟨j, hj, hj0, hrow⟩ := h.cover r hr (by omega)
      exact ⟨j, hj, by omega, (hother j hj0).trans hrow⟩
  · intro j hj hj' _ hne
    rw [hother j (by omega)] at hne ⊢
    exact h.tight j hj hj' (by omega) hne
  · intro j hj hj' hfree
    rw [hother j (by omega)] at hfree
    exact h.free j hj hj' hfree

theorem Placed.ofFree (h : Placed costs cols k (cols + 1) tables) (hfree : tables.owner col = 0) :
    Placed costs cols k col tables where
  range j hj _ := h.range j hj (by omega)
  own i hi j hj _ _ := h.own i hi j hj (by omega) (by omega)
  cover r hr hr' := by
    obtain ⟨j, hj, _, howner⟩ := h.cover r hr hr'
    refine ⟨j, hj, ?_, howner⟩
    rintro rfl
    omega
  tight j hj hj' _ := h.tight j hj hj' (by omega)
  free := h.free

theorem searching_start (costs : Nat → Nat → Nat) (cols row : Nat) (tables : Tables) :
    Searching costs cols (enterRow row tables) [] where
  used j := by simp [enterRow]
  range _ hj := nomatch hj
  nodup := nodup_nil
  owned _ hj := nomatch hj
  tree := trivial
  start _ _ := rfl
  root hne := absurd rfl hne
  reached hne := absurd rfl hne
  least _ _ _ _ _ hs := nomatch hs

/-- The first `k` rows are placed at their prices. -/
structure Placing (costs : Nat → Nat → Nat) (rows cols k : Nat) (tables : Tables) : Prop where
  priced : Priced costs rows cols tables
  placed : Placed costs cols k 0 tables

theorem placeRow_ok (hcosts : ∀ r j, costs r j < 256) (h : Placing costs rows cols k tables)
    (hk : k < rows) (hrows : rows ≤ cols) (hfloor : -tables.v 0 ≤ 255) :
    ∃ tables', placeRow costs cols (k + 1) tables = .ok tables' ∧
      Placing costs rows cols (k + 1) tables' := by
  have hplaced := h.placed.enter
  have hpriced : Priced costs rows cols (enterRow (k + 1) tables) := h.priced.congr rfl rfl
  have hfree : ∃ j, 1 ≤ j ∧ j ≤ cols ∧ (enterRow (k + 1) tables).owner j = 0 := by
    obtain ⟨j, hj, hj', hzero⟩ := h.placed.exists_free (Nat.lt_of_lt_of_le hk hrows)
    exact ⟨j, hj, hj', (put_other _ _ (by omega)).trans hzero⟩
  obtain ⟨j, found, visited, hrun, hj, hzero, hnew, hjoins, hpriced, hplaced, hsearch⟩ :=
    findFree_ok hcosts hk hpriced hplaced (searching_start costs cols (k + 1) tables)
      (Nat.zero_le cols) not_mem_nil (by simp [enterRow]) (.inl ⟨rfl, rfl⟩) (fun _ => hfloor)
      hfree rfl
  have hlength : visited.length ≤ cols + 1 := by
    have hcard := Finset.card_le_card (s := visited.toFinset) (t := Finset.range (cols + 1))
      (fun i hi => Finset.mem_range.mpr (Nat.lt_succ_of_le (hsearch.range i (mem_toFinset.mp hi))))
    rwa [toFinset_card_of_nodup hsearch.nodup, Finset.card_range] at hcard
  have htree : Tree costs found (j :: visited) := by
    refine ⟨fun hnil => ?_, fun hne => ?_, hsearch.tree⟩
    · exact hjoins.elim (fun hroot => hroot.2) (fun hedge => absurd hnil hedge.1)
    · exact hjoins.elim (fun hroot => absurd hroot.1 hne) (fun hedge => hedge.2)
  obtain ⟨tables', haugment, hdone, hu, hv⟩ := augment_ok htree (nodup_cons.mpr ⟨hnew, hsearch.nodup⟩)
    (fun i hi => (mem_cons.mp hi).elim (fun heq => heq ▸ hj) (hsearch.range i))
    hsearch.owned (hplaced.ofFree hzero) (Nat.lt_succ_of_le hlength)
  refine ⟨tables', ?_, hpriced.congr hu hv, hdone⟩
  rw [placeRow, hrun]
  exact haugment

def Priced.prices (h : Priced costs rows cols tables) :
    Prices (fun (r : Fin rows) (j : Fin cols) => costs r j) where
  row r := tables.u (r + 1)
  col j := tables.v (j + 1)
  undercut r j := h.undercut (r + 1) (j + 1) (by omega) (by omega) (by omega) (by omega)
  rebate j := h.col_nonpos (j + 1)

theorem Priced.worth (h : Priced costs rows cols tables) : h.prices.worth = -tables.v 0 := by
  have hbalanced := h.balanced
  have hrow : ∑ r : Fin rows, tables.u (r + 1) = ∑ r ∈ Finset.Icc 1 rows, tables.u r := by
    rw [Fin.sum_univ_eq_sum_range (fun r => tables.u (r + 1)), Finset.range_eq_Ico,
      Finset.sum_Ico_add' tables.u 0 rows 1]
    rfl
  have hcol : ∑ j : Fin cols, tables.v (j + 1) = ∑ j ∈ Finset.range cols, tables.v (j + 1) :=
    Fin.sum_univ_eq_sum_range (fun j => tables.v (j + 1)) cols
  rw [balance, Finset.sum_range_succ'] at hbalanced
  simp only [Prices.worth, prices, hrow, hcol]
  omega

theorem Placing.exists_assignment (h : Placing costs rows cols rows tables) :
    ∃ f : Fin rows ↪ Fin cols, ∀ r : Fin rows, tables.owner (f r + 1) = r + 1 := by
  have hcolumn : ∀ r : Fin rows, ∃ j : Fin cols, tables.owner (j + 1) = r + 1 := by
    intro r
    obtain ⟨j, hj, hj0, howner⟩ := h.placed.cover (r + 1) (by omega) (by omega)
    exact ⟨⟨j - 1, by omega⟩, by simpa [Nat.sub_add_cancel (Nat.one_le_iff_ne_zero.mpr hj0)]⟩
  choose f hf using hcolumn
  refine ⟨⟨f, fun r r' heq => ?_⟩, hf⟩
  have howner := hf r
  rw [heq, hf r'] at howner
  omega

theorem Placing.isLeast (h : Placing costs rows cols rows tables) {n : Nat}
    (hn : (n : Int) = -tables.v 0) :
    IsLeast (assignmentTotals (fun (r : Fin rows) (j : Fin cols) => costs r j)) n := by
  obtain ⟨f, hf⟩ := h.exists_assignment
  have hworth := h.priced.prices.worth_eq f (fun r => by
      have htight := h.placed.tight (f r + 1) (by omega) (by omega) (by omega) (by rw [hf r]; omega)
      rw [hf r] at htight
      simpa [Priced.prices] using htight)
    (fun j hj => by
      refine h.placed.free (j + 1) (by omega) (by omega) ?_
      by_contra hne
      have hle := h.placed.range (j + 1) (by omega) (by omega)
      obtain ⟨r, hr⟩ : ∃ r : Fin rows, tables.owner (j + 1) = r + 1 :=
        ⟨⟨tables.owner (j + 1) - 1, by omega⟩, by simp only; omega⟩
      have hown := h.placed.own (f r + 1) (by omega) (j + 1) (by omega) (by omega) (by omega)
        (by rw [hf r]; omega) (by rw [hf r, hr])
      exact hj ⟨r, Fin.ext (by omega)⟩)
  have htotal : n = assignmentTotal (fun (r : Fin rows) (j : Fin cols) => costs r j) f := by
    have hprice := h.priced.worth
    omega
  rw [htotal]
  exact h.priced.prices.isLeast f hworth

/-- The answer is the least cost, if that is within the budget. -/
def AnswersLeast (costs : Nat → Nat → Nat) (rows cols budget : Nat) (answer : Option Nat) : Prop :=
  ∀ n, answer = some n ↔
    n ≤ budget ∧ IsLeast (assignmentTotals (fun (r : Fin rows) (j : Fin cols) => costs r j)) n

theorem answersLeast_none {budget : Nat}
    (h : ∀ n ∈ assignmentTotals (fun (r : Fin rows) (j : Fin cols) => costs r j), budget < n) :
    AnswersLeast costs rows cols budget none := by
  intro n
  constructor
  · exact fun hnone => nomatch hnone
  · rintro ⟨hle, hleast⟩
    have hlt := h n hleast.1
    omega

theorem placing_start (costs : Nat → Nat → Nat) (rows cols : Nat) : Placing costs rows cols 0 {} where
  priced :=
    { undercut := fun r j _ _ _ _ => by simp
      row_nonneg := fun _ => Int.le_refl _
      col_nonpos := fun _ => Int.le_refl _
      col_floor := fun _ => Int.le_refl _
      balanced := by simp [balance] }
  placed :=
    { range := fun _ _ _ => Nat.le_refl _
      own := fun _ _ _ _ _ _ hne => absurd rfl hne
      cover := fun r hr hr' => by omega
      tight := fun _ _ _ _ hne => absurd rfl hne
      free := fun _ _ _ _ => rfl }

theorem placeRows_ok (hcosts : ∀ r j, costs r j < 256) (hrows : rows ≤ cols) {budget n : Nat}
    (hbudget : budget ≤ 255) (h : Placing costs rows cols k tables) (hk : k + n = rows)
    (hfloor : -tables.v 0 ≤ budget) :
    ∃ answer, placeRows costs cols budget (List.range' (k + 1) n) tables = .ok answer ∧
      AnswersLeast costs rows cols budget answer := by
  induction n generalizing k tables with
  | zero =>
    have hdone : k = rows := hk
    subst hdone
    have hnonneg := h.priced.col_nonpos 0
    have hcast : ((-tables.v 0).toNat : Int) = -tables.v 0 := Int.toNat_of_nonneg (by omega)
    have hleast := h.isLeast hcast
    refine ⟨_, rfl, fun m => ⟨fun heq => ?_, fun hm => ?_⟩⟩
    · cases heq
      exact ⟨by omega, hleast⟩
    · rw [hm.2.unique hleast]
  | succ n ih =>
    obtain ⟨tables', hrun, hnext⟩ := placeRow_ok hcosts h (by omega) hrows (by omega)
    rw [range'_succ, placeRows, hrun, ok_bind]
    split
    · next hover =>
      refine ⟨none, rfl, answersLeast_none ?_⟩
      rintro _ ⟨f, rfl⟩
      have hworth := hnext.priced.prices.worth_le f
      rw [hnext.priced.worth] at hworth
      omega
    · next hover => exact ih hnext (by omega) (by omega)

theorem le_foldl_min {α : Type} (g : α → Nat) (l : List α) (start b : Nat) :
    b ≤ l.foldl (fun minimum a => min minimum (g a)) start ↔ b ≤ start ∧ ∀ a ∈ l, b ≤ g a := by
  induction l generalizing start with
  | nil => simp
  | cons a l ih => simp [ih, and_assoc]

theorem lowerBound_le (budget : Nat) (f : Fin rows ↪ Fin cols) : lowerBound costs rows cols budget ≤
      assignmentTotal (fun (r : Fin rows) (j : Fin cols) => costs r j) f := by
  have hsum := Fin.sum_univ_eq_sum_range (fun row =>
    (range cols).foldl (fun minimum col => min minimum (costs row col)) (budget + 1)) rows
  have hbound : lowerBound costs rows cols budget = ∑ r : Fin rows,
      (range cols).foldl (fun minimum col => min minimum (costs r col)) (budget + 1) :=
    hsum.symm
  rw [hbound]
  exact Finset.sum_le_sum (fun r _ =>
    ((le_foldl_min (costs r) _ _ _).mp (Nat.le_refl _)).2 _ (mem_range.mpr (f r).isLt))

theorem assignmentCost_ok (hcosts : ∀ r j, costs r j < 256) {budget : Nat} (hbudget : budget ≤ 255)
    (hrows : 0 < rows) :
    ∃ answer, assignmentCost costs rows cols budget = .ok answer ∧
      AnswersLeast costs rows cols budget answer := by
  rw [assignmentCost]
  split
  · next hnone =>
    refine ⟨none, rfl, answersLeast_none ?_⟩
    rintro _ ⟨f, -⟩
    have hcard := Fintype.card_le_of_embedding f
    rw [Fintype.card_fin, Fintype.card_fin] at hcard
    omega
  · next hsome =>
    split
    · next hover =>
      refine ⟨none, rfl, answersLeast_none ?_⟩
      rintro _ ⟨f, rfl⟩
      exact Nat.lt_of_lt_of_le hover (lowerBound_le budget f)
    · have hrun := placeRows_ok hcosts (by omega) hbudget (placing_start costs rows cols)
        (Nat.zero_add rows) (by simp)
      exact hrun

end Bbr.Api.MemberSearch
