import Bbr.Api.MemberSearch
import Bbr.Lib.Results
import Bbr.Lib.Transpositions

/-!
# Edit distance of names

The three rows hold the distances of the prefixes of the query read last and of the prefixes of the
candidate. A query of twice the accepted length stays inside them.
-/
namespace Bbr.Api.MemberSearch
open Bbr.Search (Scalar)
open Bbr.Lib List

variable {query candidate x y rest : List Scalar} {a b : Scalar} {rows : Rows}

/-- The cell of two prefixes holds their distance. -/
def CellOf (rows : Rows) (x y : List Scalar) : Prop :=
  rows (x.length % 3) y.length = some (swapDistance x y)

/-- The row of a prefix of the query is filled. -/
def RowOf (rows : Rows) (candidate x : List Scalar) : Prop :=
  ∀ y, y <+: candidate → CellOf rows x y

theorem readCell_of (h : CellOf rows x y) :
    readCell rows x.length y.length = .ok (swapDistance x y) := by
  simp [readCell, show rows (x.length % 3) y.length = _ from h]

variable {n : Nat}

theorem addWord_ok {m : Nat} (h : n + m < 2 ^ 16) : addWord n m = .ok (n + m) := if_pos h

theorem swap_condition (x y rest rest' : List Scalar) (a b : Scalar) :
    (2 ≤ x.length + 1 ∧ 2 ≤ y.length + 1 ∧ (y ++ b :: rest')[y.length + 1 - 2]? = some a ∧
      (x ++ a :: rest)[x.length + 1 - 2]? = some b) ↔
    ∃ x' y', x = x' ++ [b] ∧ y = y' ++ [a] := by
  constructor
  · rintro ⟨hx, hy, ha, hb⟩
    have hlast : ∀ (l : List Scalar) (c : Scalar) (t : List Scalar), 2 ≤ l.length + 1 →
        (l ++ t)[l.length + 1 - 2]? = some c → ∃ l', l = l' ++ [c] := by
      intro l c t hl hc
      rw [getElem?_append_left (by omega)] at hc
      have hlast : l.getLast? = some c := by
        rw [getLast?_eq_getElem?, ← hc]
        congr 1
      exact ⟨l.dropLast, (dropLast_append_getLast? c hlast).symm⟩
    obtain ⟨x', hx'⟩ := hlast x b _ hx hb
    obtain ⟨y', hy'⟩ := hlast y a _ hy ha
    exact ⟨x', y', hx', hy'⟩
  · rintro ⟨x', y', rfl, rfl⟩
    simp

/-- The rows with a value in the cell of a row and a column. -/
def withValue (rows : Rows) (row col n : Nat) : Rows :=
  fun r c => if r = row % 3 ∧ c = col then some n else rows r c

theorem writeCell_ok {row col : Nat} (hcol : col < rowCells) (hvalue : n < 2 ^ 16) :
    writeCell rows row col n = .ok (withValue rows row col n) := if_pos ⟨hcol, hvalue⟩

theorem readCell_withValue (rows : Rows) (row col n : Nat) :
    readCell (withValue rows row col n) row col = .ok n := by
  simp [readCell, withValue]

theorem withValue_withValue (rows : Rows) (row col n m : Nat) :
    withValue (withValue rows row col n) row col m = withValue rows row col m := by
  funext r c
  by_cases h : r = row % 3 ∧ c = col <;> simp [withValue, h]

theorem plainCell_eq (habove : CellOf rows x (y ++ [b])) (hleft : CellOf rows (x ++ [a]) y)
    (hcorner : CellOf rows x y) (hcol : y.length + 1 < rowCells)
    (hsum : x.length + y.length + 2 < 2 ^ 16) :
    plainCell (x.length + 1) a (y.length + 1) b rows =
      .ok (withValue rows (x.length + 1) (y.length + 1) (plainStep x y a b)) := by
  have hbound := swapDistance_le_add x (y ++ [b])
  have hbound' := swapDistance_le_add (x ++ [a]) y
  have hbound'' := swapDistance_le_add x y
  have hread := readCell_of habove
  have hread' := readCell_of hleft
  have hread'' := readCell_of hcorner
  have hif : (if a = b then 0 else 1) ≤ 1 := by split <;> omega
  simp only [length_append, length_singleton] at hbound hbound' hread hread'
  rw [plainCell, Nat.add_sub_cancel, Nat.add_sub_cancel, hread, ok_bind, addWord_ok (by omega),
    ok_bind, hread', ok_bind, addWord_ok (by omega), ok_bind, hread'', ok_bind,
    addWord_ok (by omega), ok_bind]
  exact writeCell_ok hcol (by omega)

variable {rest' : List Scalar}

theorem swapCell_plain (h : ¬∃ x' y', x = x' ++ [b] ∧ y = y' ++ [a]) :
    swapCell (x ++ a :: rest) (y ++ b :: rest') (x.length + 1) a (y.length + 1) b rows = .ok rows := by
  rw [swapCell, if_neg (by rwa [swap_condition])]

theorem swapCell_swap (x y : List Scalar) (hcell : CellOf rows x y)
    (hcol : y.length + 2 < rowCells) (hsum : x.length + y.length + 1 < 2 ^ 16) (hn : n < 2 ^ 16) :
    swapCell (x ++ [b] ++ a :: rest) (y ++ [a] ++ b :: rest') (x.length + 2) a (y.length + 2) b
        (withValue rows (x.length + 2) (y.length + 2) n) =
      .ok (withValue rows (x.length + 2) (y.length + 2) (min n (swapDistance x y + 1))) := by
  have hcond := (swap_condition (x ++ [b]) (y ++ [a]) rest rest' a b).mpr ⟨x, y, rfl, rfl⟩
  have hbound := swapDistance_le_add x y
  have hread : readCell (withValue rows (x.length + 2) (y.length + 2) n) x.length y.length =
      .ok (swapDistance x y) := by
    simp [readCell, withValue, show rows (x.length % 3) y.length = _ from hcell]
  simp only [length_append, length_singleton] at hcond
  rw [swapCell, if_pos hcond, readCell_withValue, ok_bind, Nat.add_sub_cancel, Nat.add_sub_cancel,
    hread, ok_bind, addWord_ok (by omega), ok_bind, writeCell_ok hcol (by omega),
    withValue_withValue]

theorem fillCell_eq (habove : CellOf rows x (y ++ [b])) (hleft : CellOf rows (x ++ [a]) y)
    (hcorner : CellOf rows x y)
    (hswap : ∀ x' y', x = x' ++ [b] → y = y' ++ [a] → CellOf rows x' y')
    (hcol : y.length + 1 < rowCells) (hsum : x.length + y.length + 2 < 2 ^ 16) :
    fillCell (x ++ a :: rest) (y ++ b :: rest') (x.length + 1) a (y.length + 1) b rows =
      .ok (withValue rows (x.length + 1) (y.length + 1) (swapDistance (x ++ [a]) (y ++ [b]))) := by
  rw [fillCell, plainCell_eq habove hleft hcorner hcol hsum, ok_bind]
  by_cases h : ∃ x' y', x = x' ++ [b] ∧ y = y' ++ [a]
  · obtain ⟨x', y', rfl, rfl⟩ := h
    have hbound := swapDistance_le_add (x' ++ [b] ++ [a]) (y' ++ [a])
    have hplain : plainStep (x' ++ [b]) (y' ++ [a]) a b < 2 ^ 16 := by
      simp only [plainStep, length_append, length_singleton] at hbound hsum ⊢
      omega
    simp only [length_append, length_singleton] at hcol hsum ⊢
    rw [swapCell_swap x' y' (hswap x' y' rfl rfl) hcol (by omega) hplain, swapDistance_swap]
  · rw [swapCell_plain h, swapDistance_plain (fun x' y' hx hy => h ⟨x', y', hx, hy⟩)]

theorem CellOf.withValue {row col : Nat} (h : CellOf rows x y)
    (hne : x.length % 3 ≠ row % 3 ∨ y.length ≠ col) : CellOf (withValue rows row col n) x y := by
  have hcell : ¬(x.length % 3 = row % 3 ∧ y.length = col) := by omega
  simpa [CellOf, MemberSearch.withValue, hcell] using h

theorem cellOf_withValue (rows : Rows) (x y : List Scalar) :
    CellOf (withValue rows x.length y.length (swapDistance x y)) x y := by
  simp [CellOf, withValue]

theorem prefix_snoc {z : List Scalar} : z <+: y ++ [b] ↔ z <+: y ∨ z = y ++ [b] := by
  rw [prefix_concat_iff, or_comm]

/-- A row is filled from the left, while the two before it are kept. -/
theorem fillRow_ok (hrow : RowOf rows candidate x)
    (hbefore : ∀ x' c, x = x' ++ [c] → RowOf rows candidate x') (hquery : query = x ++ a :: rest)
    (hcol : candidate.length < rowCells) (hsum : x.length + candidate.length + 1 < 2 ^ 16)
    (hcandidate : candidate = y ++ rest') (hdone : RowOf rows y (x ++ [a])) :
    ∃ rows', fillRow query candidate (x.length + 1) a (y.length + 1) rest' rows = .ok rows' ∧
      RowOf rows' candidate (x ++ [a]) ∧ RowOf rows' candidate x := by
  induction rest' generalizing y rows with
  | nil =>
    rw [append_nil] at hcandidate
    exact ⟨rows, rfl, hcandidate ▸ hdone, hrow⟩
  | cons b rest' ih =>
    have hlength : candidate.length = y.length + (rest'.length + 1) := by simp [hcandidate]
    have hprefix : y <+: candidate := ⟨b :: rest', hcandidate.symm⟩
    have hprefix' : y ++ [b] <+: candidate := ⟨rest', by simp [hcandidate]⟩
    have hfill : fillCell query candidate (x.length + 1) a (y.length + 1) b rows =
        .ok (withValue rows (x.length + 1) (y.length + 1) (swapDistance (x ++ [a]) (y ++ [b]))) := by
      rw [hquery, hcandidate]
      refine fillCell_eq (hrow _ hprefix') (hdone _ (prefix_refl y)) (hrow _ hprefix)
        (fun x' y' hx hy => hbefore x' b hx y' ?_) (by omega) (by omega)
      exact (hy ▸ prefix_append y' [a]).trans hprefix
    have hkept : ∀ x', x'.length % 3 ≠ (x.length + 1) % 3 → RowOf rows candidate x' →
        RowOf (withValue rows (x.length + 1) (y.length + 1)
          (swapDistance (x ++ [a]) (y ++ [b]))) candidate x' :=
      fun x' hne h z hz => (h z hz).withValue (.inl hne)
    have hlast : RowOf (withValue rows (x.length + 1) (y.length + 1)
        (swapDistance (x ++ [a]) (y ++ [b]))) (y ++ [b]) (x ++ [a]) := by
      intro z hz
      cases prefix_snoc.mp hz with
      | inl hz =>
        have hle := hz.length_le
        exact (hdone z hz).withValue (.inr (by omega))
      | inr hz =>
        subst hz
        simpa using cellOf_withValue rows (x ++ [a]) (y ++ [b])
    have hnext := ih (y := y ++ [b]) (hkept x (by omega) hrow)
      (fun x' c hx => hkept x' (by simp [hx]; omega) (hbefore x' c hx)) (by simp [hcandidate]) hlast
    rw [fillRow, hfill, ok_bind]
    simpa using hnext

theorem fillRows_ok (hrow : RowOf rows candidate x)
    (hbefore : ∀ x' c, x = x' ++ [c] → RowOf rows candidate x') (hquery : query = x ++ rest)
    (hcol : candidate.length < rowCells) (hsum : query.length + candidate.length < 2 ^ 16) :
    ∃ rows', fillRows query candidate (x.length + 1) rest rows = .ok rows' ∧
      RowOf rows' candidate query := by
  induction rest generalizing x rows with
  | nil =>
    rw [append_nil] at hquery
    exact ⟨rows, rfl, hquery ▸ hrow⟩
  | cons a rest ih =>
    have hlength : query.length = x.length + (rest.length + 1) := by simp [hquery]
    have hwrite : writeCell rows (x.length + 1) 0 (x.length + 1) =
        .ok (withValue rows (x.length + 1) 0 (x.length + 1)) :=
      writeCell_ok (by decide) (by omega)
    have hkept : ∀ x', x'.length % 3 ≠ (x.length + 1) % 3 → RowOf rows candidate x' →
        RowOf (withValue rows (x.length + 1) 0 (x.length + 1)) candidate x' :=
      fun x' hne h z hz => (h z hz).withValue (.inl hne)
    have hfirst : RowOf (withValue rows (x.length + 1) 0 (x.length + 1)) [] (x ++ [a]) := by
      intro z hz
      rw [prefix_nil.mp hz]
      simpa [swapDistance_nil_right] using cellOf_withValue rows (x ++ [a]) []
    obtain ⟨rows', hfill, hfilled, hrow'⟩ := fillRow_ok (hkept x (by omega) hrow)
      (fun x' c hx => hkept x' (by simp [hx]; omega) (hbefore x' c hx)) hquery hcol (by omega)
      (nil_append candidate).symm hfirst
    have hnext := ih (x := x ++ [a]) hfilled
      (fun x' c hx => (append_singleton_inj.mp hx).1 ▸ hrow') (by simp [hquery])
    rw [length_nil, Nat.zero_add] at hfill
    rw [fillRows, hwrite, ok_bind, hfill, ok_bind]
    simpa using hnext

theorem firstRow_ok (y : List Scalar) (hcol : y.length < rowCells) :
    ∃ rows, firstRow y.length = .ok rows ∧ RowOf rows y [] := by
  have hbound : rowCells < 2 ^ 16 := by decide
  induction y using reverseRecOn with
  | nil =>
    refine ⟨withValue (fun _ _ => none) 0 0 0, writeCell_ok hcol (by decide), fun z hz => ?_⟩
    rw [prefix_nil.mp hz]
    simpa [swapDistance_nil_right] using cellOf_withValue (fun _ _ => none) [] []
  | append_singleton y b ih =>
    rw [length_append, length_singleton] at hcol
    obtain ⟨rows, hrows, hrow⟩ := ih (by omega)
    refine ⟨withValue rows 0 (y.length + 1) (y.length + 1), ?_, fun z hz => ?_⟩
    · rw [length_append, length_singleton, firstRow, hrows, ok_bind]
      exact writeCell_ok hcol (by omega)
    cases prefix_snoc.mp hz with
    | inl hz =>
      have hle := hz.length_le
      exact (hrow z hz).withValue (.inr (by omega))
    | inr hz =>
      subst hz
      simpa [swapDistance_nil_left] using cellOf_withValue rows [] (y ++ [b])

/-- The distance within the budget, and never an index outside the rows. -/
theorem distance_eq (query candidate : List Scalar) (budget : Nat)
    (h : query.length + budget < rowCells) :
    distance query candidate budget = .ok (min (swapDistance query candidate) (budget + 1)) := by
  have hlengths := length_le_swapDistance query candidate
  rw [distance]
  split
  · next hgap => rw [Nat.min_eq_right (by omega)]
  rename_i hgap
  have hcells : rowCells < 2 ^ 15 := by decide
  obtain ⟨rows, hfirst, hrow⟩ := firstRow_ok candidate (by omega)
  obtain ⟨rows', hfill, hfilled⟩ := @fillRows_ok query candidate [] query rows hrow
    (fun x' c hx => by simp at hx) (nil_append query).symm (by omega) (by omega)
  have hread := readCell_of (hfilled candidate (prefix_refl candidate))
  rw [length_nil, Nat.zero_add] at hfill
  rw [hfirst, ok_bind, hfill, ok_bind, hread]
  rfl

end Bbr.Api.MemberSearch
