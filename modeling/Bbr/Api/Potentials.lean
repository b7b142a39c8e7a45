import Bbr.Api.MemberSearch
import Bbr.Lib.Assignments
import Mathlib.Order.Interval.Finset.Nat

/-!
# Passes over the columns

A pass that scans the columns lowers their minima and finds the least one. A pass that shifts them
moves the same amount from the used columns to their rows. Every pass is described by one equation
for the arrays.
-/
namespace Bbr.Api.MemberSearch

open List

variable {costs : Nat → Nat → Nat} {tables : Tables} {col j r : Nat} {delta : Int} {α : Type}

@[simp] theorem put_same (array : Nat → α) (i : Nat) (value : α) :
    put array i value i = value := if_pos rfl

theorem put_other (array : Nat → α) (value : α) {i k : Nat} (h : k ≠ i) :
    put array i value k = array k := if_neg h

/-- The minima and their columns after a scan of some columns. -/
def lowered (costs : Nat → Nat → Nat) (col : Nat) (tables : Tables) (columns : List Nat) : Tables :=
  { tables with
    minimum := fun j =>
      if j ∈ columns ∧ tables.used j = false then min (tables.minimum j) (slack costs tables col j)
      else tables.minimum j
    previous := fun j =>
      if j ∈ columns ∧ tables.used j = false ∧ slack costs tables col j < tables.minimum j then col
      else tables.previous j }

theorem lowered_nil (costs : Nat → Nat → Nat) (col : Nat) (tables : Tables) :
    lowered costs col tables [] = tables := by
  simp [lowered]

variable {columns : List Nat}

theorem lowered_snoc (costs : Nat → Nat → Nat) (col : Nat) (tables : Tables) (hnew : j ∉ columns) :
    lowered costs col tables (columns ++ [j]) =
      if tables.used j then lowered costs col tables columns
      else if slack costs tables col j < tables.minimum j then
        { lowered costs col tables columns with
          minimum := put (lowered costs col tables columns).minimum j (slack costs tables col j)
          previous := put (lowered costs col tables columns).previous j col }
      else lowered costs col tables columns := by
  cases hused : tables.used j with
  | true =>
    have hne : ∀ k, tables.used k = false → k ≠ j := by
      rintro k hk rfl
      simp [hused] at hk
    have hmem : ∀ k, tables.used k = false → (k ∈ columns ++ [j] ↔ k ∈ columns) := by
      intro k hk
      simp [hne k hk]
    simp only [lowered, if_true, Tables.mk.injEq, true_and, and_true]
    constructor
    · funext k
      by_cases hk : tables.used k = false <;> simp [hk, hmem]
    · funext k
      by_cases hk : tables.used k = false <;> simp [hk, hmem]
  | false =>
    by_cases hlt : slack costs tables col j < tables.minimum j
    · simp only [lowered, if_false, hlt, if_true, Bool.false_eq_true, Tables.mk.injEq, true_and,
        and_true]
      constructor
      · funext k
        by_cases hk : k = j
        · subst hk
          simp [hused, hlt]
        · simp [put, hk]
      · funext k
        by_cases hk : k = j
        · subst hk
          simp [hused]
          omega
        · simp [put, hk]
    · simp only [lowered, if_false, hlt, Bool.false_eq_true, Tables.mk.injEq, true_and, and_true]
      constructor
      · funext k
        by_cases hk : k = j
        · subst hk
          simp [hlt, hnew]
        · simp [hk]
      · funext k
        by_cases hk : k = j
        · subst hk
          omega
        · simp [hk]

/-- What a scan of some columns has found. -/
structure Scanned (costs : Nat → Nat → Nat) (col : Nat) (tables : Tables) (columns : List Nat)
    (scan : Scan) : Prop where
  tables_eq : scan.tables = lowered costs col tables columns
  least : ∀ j ∈ columns, tables.used j = false → scan.delta ≤ scan.tables.minimum j
  found : scan.delta < unreached → scan.next ∈ columns ∧ tables.used scan.next = false ∧
    scan.delta = scan.tables.minimum scan.next

theorem scanned_nil (costs : Nat → Nat → Nat) (col : Nat) (tables : Tables) :
    Scanned costs col tables [] { tables } where
  tables_eq := (lowered_nil costs col tables).symm
  least _ hj := nomatch hj
  found h := absurd h (Int.lt_irrefl _)

/-- The arrays after the minimum of a column is lowered. -/
def lowerColumn (costs : Nat → Nat → Nat) (col : Nat) (tables : Tables) (j : Nat) : Tables :=
  if slack costs tables col j < tables.minimum j then
    { tables with
      minimum := put tables.minimum j (slack costs tables col j)
      previous := put tables.previous j col }
  else tables

variable {scan : Scan}

theorem scanColumn_used (h : scan.tables.used j = true) : scanColumn costs col scan j = scan := by
  simp [scanColumn, h]

theorem scanColumn_unused (h : scan.tables.used j = false) : scanColumn costs col scan j =
      if (lowerColumn costs col scan.tables j).minimum j < scan.delta then
        ⟨lowerColumn costs col scan.tables j, (lowerColumn costs col scan.tables j).minimum j, j⟩
      else { scan with tables := lowerColumn costs col scan.tables j } := by
  rw [scanColumn, if_neg (by simp [h])]
  rfl

theorem Scanned.step (h : Scanned costs col tables columns scan) (hnew : j ∉ columns) :
    Scanned costs col tables (columns ++ [j]) (scanColumn costs col scan j) := by
  have hused : scan.tables.used = tables.used := by rw [h.tables_eq]; rfl
  have hslack : slack costs scan.tables col j = slack costs tables col j := by rw [h.tables_eq]; rfl
  have hminimum : scan.tables.minimum j = tables.minimum j := by
    rw [h.tables_eq]
    exact if_neg (fun hj => hnew hj.1)
  have hnext := lowered_snoc costs col tables hnew
  cases hj : tables.used j with
  | true =>
    rw [scanColumn_used (by rw [hused, hj])]
    rw [hj, if_pos rfl] at hnext
    refine ⟨h.tables_eq.trans hnext.symm, fun k hk hk' => ?_, fun hlt => ?_⟩
    · cases mem_append.mp hk with
      | inl hk => exact h.least k hk hk'
      | inr hk =>
        rw [mem_singleton.mp hk, hj] at hk'
        exact nomatch hk'
    · obtain ⟨hmem, hrest⟩ := h.found hlt
      exact ⟨mem_append_left _ hmem, hrest⟩
  | false =>
    have htables : lowerColumn costs col scan.tables j = lowered costs col tables (columns ++ [j]) := by
      rw [hnext, hj, if_neg Bool.false_ne_true, lowerColumn, hslack, hminimum, ← h.tables_eq]
    have hkept : ∀ k, k ≠ j →
        (lowerColumn costs col scan.tables j).minimum k = scan.tables.minimum k := by
      intro k hk
      rw [lowerColumn]
      split
      · exact put_other _ _ hk
      · rfl
    have hne : ∀ k ∈ columns, k ≠ j := fun k hk heq => hnew (heq ▸ hk)
    rw [scanColumn_unused (by rw [hused, hj])]
    split
    · next hlt =>
      refine ⟨htables, fun k hk hk' => ?_, fun _ => ⟨by simp, hj, rfl⟩⟩
      cases mem_append.mp hk with
      | inl hk =>
        have hle := h.least k hk hk'
        rw [← hkept k (hne k hk)] at hle
        exact Int.le_trans (Int.le_of_lt hlt) hle
      | inr hk =>
        rw [mem_singleton.mp hk]
    · next hlt =>
      refine ⟨htables, fun k hk hk' => ?_, fun hdelta => ?_⟩
      · cases mem_append.mp hk with
        | inl hk =>
          have hle := h.least k hk hk'
          rwa [← hkept k (hne k hk)] at hle
        | inr hk =>
          rw [mem_singleton.mp hk]
          exact Int.not_lt.mp hlt
      · obtain ⟨hmem, hunused, heq⟩ := h.found hdelta
        refine ⟨mem_append_left _ hmem, hunused, ?_⟩
        rw [heq]
        exact (hkept scan.next (hne _ hmem)).symm

theorem scanned_foldl {columns rest : List Nat} {scan : Scan}
    (h : Scanned costs col tables columns scan) (hnodup : (columns ++ rest).Nodup) :
    Scanned costs col tables (columns ++ rest) (rest.foldl (scanColumn costs col) scan) := by
  induction rest generalizing columns scan with
  | nil => simpa using h
  | cons j rest ih =>
    have hnew : j ∉ columns := fun hj =>
      (nodup_append.mp hnodup).2.2 j hj j mem_cons_self rfl
    have hnext := ih (h.step hnew) (by simpa using hnodup)
    simpa using hnext

theorem scanColumns_scanned (costs : Nat → Nat → Nat) (cols col : Nat) (tables : Tables) :
    Scanned costs col tables (List.range' 1 cols) (scanColumns costs cols col tables) := by
  have h := @scanned_foldl costs tables col [] (range' 1 cols) _ (scanned_nil costs col tables)
    (by simpa using nodup_range')
  rwa [nil_append] at h

/-- The arrays after some columns are shifted. -/
def shifted (delta : Int) (tables : Tables) (columns : List Nat) : Tables :=
  { tables with
    u := fun r =>
      if ∃ j ∈ columns, tables.used j = true ∧ tables.owner j = r then tables.u r + delta
      else tables.u r
    v := fun j => if j ∈ columns ∧ tables.used j = true then tables.v j - delta else tables.v j
    minimum := fun j =>
      if j ∈ columns ∧ tables.used j = false then tables.minimum j - delta
      else tables.minimum j }

theorem shifted_nil (delta : Int) (tables : Tables) : shifted delta tables [] = tables := by
  simp [shifted]

theorem shifted_snoc (delta : Int) (hnew : j ∉ columns)
    (hrow : ∀ k ∈ columns, tables.used k = true → tables.used j = true →
      tables.owner k ≠ tables.owner j) :
    shifted delta tables (columns ++ [j]) = shiftColumn delta (shifted delta tables columns) j := by
  cases hj : tables.used j with
  | true =>
    have hnone : ¬∃ k ∈ columns, tables.used k = true ∧ tables.owner k = tables.owner j := by
      rintro ⟨k, hk, hused, heq⟩
      exact hrow k hk hused hj heq
    have hused : (shifted delta tables columns).used j = true := hj
    rw [shiftColumn, if_pos hused]
    simp only [shifted, Tables.mk.injEq, true_and, and_true]
    refine ⟨?_, ?_, ?_⟩
    · funext r
      by_cases hr : r = tables.owner j
      · subst hr
        simp [hnone, hj]
      · have hr' : tables.owner j ≠ r := fun heq => hr heq.symm
        simp [put_other _ _ hr, or_and_right, exists_or, hr']
    · funext k
      by_cases hk : k = j
      · subst hk
        simp [hnew, hj]
      · simp [put_other _ _ hk, hk]
    · funext k
      by_cases hk : k = j
      · subst hk
        simp [hj]
      · simp [hk]
  | false =>
    have hunused : ¬(shifted delta tables columns).used j = true := by simp [shifted, hj]
    rw [shiftColumn, if_neg hunused]
    simp only [shifted, Tables.mk.injEq, true_and, and_true]
    refine ⟨?_, ?_, ?_⟩
    · funext r
      simp [or_and_right, exists_or, hj]
    · funext k
      by_cases hk : k = j
      · subst hk
        simp [hj]
      · simp [hk]
    · funext k
      by_cases hk : k = j
      · subst hk
        simp [hnew, hj]
      · simp [put_other _ _ hk, hk]

theorem shifted_foldl (delta : Int) {columns rest : List Nat} (hnodup : (columns ++ rest).Nodup)
    (hrow : ∀ i ∈ columns ++ rest, ∀ j ∈ columns ++ rest, tables.used i = true →
      tables.used j = true → tables.owner i = tables.owner j → i = j) :
    rest.foldl (shiftColumn delta) (shifted delta tables columns) =
      shifted delta tables (columns ++ rest) := by
  induction rest generalizing columns with
  | nil => simp
  | cons j rest ih =>
    have hnew : ∀ k ∈ columns, k ≠ j := fun k hk =>
      (nodup_append.mp hnodup).2.2 k hk j mem_cons_self
    have hstep := shifted_snoc delta (fun hj => hnew j hj rfl) (fun k hk hk' hj heq =>
      hnew k hk (hrow k (by simp [hk]) j (by simp) hk' hj heq))
    have happend : columns ++ [j] ++ rest = columns ++ j :: rest := by simp
    rw [foldl_cons, ← hstep, ih (by rwa [happend]) (by rwa [happend]), happend]

/-- Every used column has its own row. -/
def OwnRows (tables : Tables) (cols : Nat) : Prop :=
  ∀ i ≤ cols, ∀ j ≤ cols, tables.used i = true → tables.used j = true →
    tables.owner i = tables.owner j → i = j

variable {cols : Nat}

theorem shiftColumns_eq (h : OwnRows tables cols) :
    shiftColumns cols delta tables = shifted delta tables (List.range (cols + 1)) := by
  have hfold := @shifted_foldl tables delta [] (range (cols + 1)) (by simpa using nodup_range) (by
      intro i hi j hj
      simp only [nil_append, mem_range] at hi hj
      exact h i (by omega) j (by omega))
  rwa [shifted_nil, nil_append] at hfold

/-- What the rows pay together and what the columns pay, the open row included. -/
def balance (rows cols : Nat) (tables : Tables) : Int :=
  ∑ r ∈ Finset.Icc 1 rows, tables.u r + ∑ j ∈ Finset.range (cols + 1), tables.v j

theorem sum_put {s : Finset Nat} (array : Nat → Int) (value : Int) {i : Nat} (hi : i ∈ s) :
    ∑ k ∈ s, put array i value k = ∑ k ∈ s, array k - array i + value := by
  rw [← Finset.add_sum_erase s _ hi, ← Finset.add_sum_erase s array hi, put_same]
  have hrest : ∑ k ∈ s.erase i, put array i value k = ∑ k ∈ s.erase i, array k :=
    Finset.sum_congr rfl (fun k hk => put_other _ _ (Finset.ne_of_mem_erase hk))
  omega

theorem shiftColumn_balance {rows : Nat} (hj : j ≤ cols)
    (hrow : tables.used j = true → 1 ≤ tables.owner j ∧ tables.owner j ≤ rows) :
    balance rows cols (shiftColumn delta tables j) = balance rows cols tables := by
  rw [shiftColumn]
  split
  · next hused =>
    have hu := sum_put tables.u (tables.u (tables.owner j) + delta) (Finset.mem_Icc.mpr (hrow hused))
    have hv := sum_put tables.v (tables.v j - delta) (Finset.mem_range.mpr (show j < cols + 1 by omega))
    simp only [balance, hu, hv]
    omega
  · rfl

theorem shiftColumns_balance {rows : Nat}
    (hrow : ∀ j ≤ cols, tables.used j = true → 1 ≤ tables.owner j ∧ tables.owner j ≤ rows) :
    balance rows cols (shiftColumns cols delta tables) = balance rows cols tables := by
  have hfold : ∀ (columns : List Nat) (t : Tables), (∀ j ∈ columns, j ≤ cols) →
      t.used = tables.used → t.owner = tables.owner →
      balance rows cols (columns.foldl (shiftColumn delta) t) = balance rows cols t := by
    intro columns
    induction columns with
    | nil => exact fun _ _ _ _ => rfl
    | cons j columns ih =>
      intro t hle hused howner
      have hj := hle j mem_cons_self
      have hkept : (shiftColumn delta t j).used = t.used ∧ (shiftColumn delta t j).owner = t.owner := by
        rw [shiftColumn]
        split <;> exact ⟨rfl, rfl⟩
      rw [foldl_cons, ih _ (fun k hk => hle k (mem_cons_of_mem _ hk))
        (hkept.1.trans hused) (hkept.2.trans howner)]
      exact shiftColumn_balance hj (by rw [hused, howner]; exact hrow j hj)
  exact hfold _ _ (fun j hj => by simpa [Nat.lt_succ_iff] using hj) rfl rfl

end Bbr.Api.MemberSearch
