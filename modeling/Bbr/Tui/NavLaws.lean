import Bbr.Tui.Nav

/-!
# Navigation stays in range

Every operation keeps the cursor in the rows and in sight, and leaves no range; but the least `delta` has
no opposite.
-/
namespace Bbr.Tui.Nav

open Lib.Word

structure Placed (nav : Nav) : Prop where
  rowCount : nav.rowCount < 2 ^ usizeBits
  viewport : 0 < nav.viewport ∧ nav.viewport < 2 ^ usizeBits
  count : nav.count < 2 ^ usizeBits
  cursor : (0 < nav.rowCount → nav.cursor < nav.rowCount) ∧ (nav.rowCount = 0 → nav.cursor = 0)
  mark : ∀ mark ∈ nav.mark, 0 < nav.rowCount → mark < nav.rowCount

/-- The cursor is in the rows and in sight, and the last row is not scrolled up without need. -/
structure InRange (nav : Nav) : Prop extends Placed nav where
  visible : nav.scroll ≤ nav.cursor ∧ nav.cursor < nav.scroll + nav.viewport
  scroll : nav.scroll ≤ nav.rowCount - nav.viewport

section Steps

variable {nav : Nav}

theorem lastRow_eq (nav : Nav) : lastRow nav = some (nav.rowCount - 1) := by
  rw [lastRow]
  split
  · simp [*]
  · exact sub?_some (by omega)

theorem maxScroll_eq (nav : Nav) : maxScroll nav = some (nav.rowCount - nav.viewport) := by
  rw [maxScroll]
  split
  · exact sub?_some (by omega)
  · simp only [Option.some.injEq]
    omega

theorem Placed.clampScroll (h : Placed nav) : ∃ nav', clampScroll nav = some nav' ∧ InRange nav' := by
  obtain ⟨hrows, hview, hcount, hcursor, hmark⟩ := h
  have hscroll : ∃ s, shownScroll nav = some s ∧ s ≤ nav.cursor ∧ nav.cursor < s + nav.viewport := by
    rw [shownScroll]
    split
    · exact ⟨nav.cursor, rfl, Nat.le_refl _, by omega⟩
    split
    · next hbelow =>
      rw [satAdd_le (by omega)] at hbelow
      rw [add?_some (by omega), Option.bind_some, sub?_some (by omega)]
      exact ⟨_, rfl, by omega, by omega⟩
    · next habove =>
      rw [satAdd_le (by omega)] at habove
      exact ⟨_, rfl, by omega, by omega⟩
  obtain ⟨s, hs, hle, hlt⟩ := hscroll
  rw [Nav.clampScroll, hs, maxScroll_eq]
  refine ⟨_, rfl, ⟨hrows, hview, hcount, hcursor, hmark⟩, ?_, ?_⟩
  · dsimp only
    split <;> omega
  · dsimp only
    split <;> omega

theorem Placed.replace (h : Placed nav) {cursor scroll : Nat}
    (hcursor : (0 < nav.rowCount → cursor < nav.rowCount) ∧ (nav.rowCount = 0 → cursor = 0)) :
    Placed { uncounted nav with cursor := cursor, scroll := scroll } :=
  ⟨h.rowCount, h.viewport, Nat.two_pow_pos _, hcursor, h.mark⟩

theorem Placed.uncounted (h : Placed nav) : Placed (uncounted nav) :=
  ⟨h.rowCount, h.viewport, Nat.two_pow_pos _, h.cursor, h.mark⟩

theorem Placed.moveTo (h : Placed nav) (target : Nat) :
    ∃ nav', moveTo nav target = some nav' ∧ InRange nav' := by
  rw [Nav.moveTo, lastRow_eq]
  refine Placed.clampScroll ⟨h.rowCount, h.viewport, h.count, ?_, h.mark⟩
  dsimp only
  omega

variable {least : Nat}

theorem rowAbove_some (nav : Nav) (rows : Nat) (h : least ≤ 1) :
    ∃ row, rowAbove nav rows least = some row := by
  rw [rowAbove]
  split
  · exact ⟨0, rfl⟩
  · exact ⟨_, sub?_some (by omega)⟩

theorem Placed.above (h : Placed nav) (rows : Nat) (hleast : least ≤ 1) :
    ∃ nav', (rowAbove nav rows least).bind (Nav.moveTo (Nav.uncounted nav)) = some nav' ∧
      InRange nav' := by
  obtain ⟨row, hrow⟩ := rowAbove_some nav rows hleast
  rw [hrow]
  exact h.uncounted.moveTo row

theorem Placed.setViewport (h : Placed nav) {viewport : Nat} (hview : viewport < 2 ^ usizeBits) :
    ∃ nav', setViewport nav viewport = some nav' ∧ InRange nav' := by
  have hone : 1 < 2 ^ usizeBits := by decide
  refine Placed.clampScroll ⟨h.rowCount, ?_, h.count, h.cursor, h.mark⟩
  dsimp only
  omega

theorem cursorWithin_some (nav : Nav) (rowCount : Nat) : ∃ cursor,
    cursorWithin nav rowCount = some cursor ∧ (0 < rowCount → cursor < rowCount) ∧
      (rowCount = 0 → cursor = 0) := by
  rw [cursorWithin]
  split
  · split
    · exact ⟨0, rfl, by omega, by omega⟩
    · exact ⟨rowCount - 1, sub?_some (by omega), by omega, by omega⟩
  · exact ⟨nav.cursor, rfl, by omega, by omega⟩

theorem Placed.setRowCount (h : Placed nav) {rowCount : Nat} (hrows : rowCount < 2 ^ usizeBits) :
    ∃ nav', setRowCount nav rowCount = some nav' ∧ InRange nav' := by
  obtain ⟨cursor, hsome, hin⟩ := cursorWithin_some nav rowCount
  rw [Nav.setRowCount, hsome]
  exact Placed.clampScroll ⟨hrows, h.viewport, h.count, hin, fun mark hmark => (by cases hmark)⟩

theorem centeredScroll_some (nav : Nav) : ∃ scroll, centeredScroll nav = some scroll := by
  rw [centeredScroll]
  split
  · exact ⟨_, sub?_some (by omega)⟩
  · exact ⟨0, rfl⟩

theorem Placed.center (h : Placed nav) : ∃ nav', center nav = some nav' ∧ InRange nav' := by
  obtain ⟨scroll, hsome⟩ := centeredScroll_some nav
  rw [Nav.center, hsome]
  exact (h.replace h.cursor).clampScroll

theorem Placed.bottomScroll (h : Placed nav) : ∃ scroll, bottomScroll nav = some scroll := by
  have hnext : nav.cursor + 1 < 2 ^ usizeBits := by
    have hrows := h.rowCount
    have hcursor := h.cursor
    have hone : 1 < 2 ^ usizeBits := by decide
    omega
  rw [Nav.bottomScroll, add?_some hnext, Option.bind_some]
  split
  · exact ⟨_, sub?_some (by omega)⟩
  · exact ⟨0, rfl⟩

theorem Placed.scrollCursorBottom (h : Placed nav) :
    ∃ nav', scrollCursorBottom nav = some nav' ∧ InRange nav' := by
  obtain ⟨scroll, hsome⟩ := h.bottomScroll
  rw [Nav.scrollCursorBottom, hsome]
  exact (h.replace h.cursor).clampScroll

variable {delta : Int}

theorem InRange.scrolled (h : InRange nav)
    (hdelta : -2 ^ (usizeBits - 1) < delta ∧ delta < 2 ^ (usizeBits - 1)) :
    ∃ scroll, scrolled nav delta = some scroll ∧ scroll ≤ nav.rowCount - nav.viewport := by
  have hscroll := h.scroll
  rw [Nav.scrolled, maxScroll_eq, Option.bind_some]
  split
  · next hneg =>
    rw [neg?_natCast? hdelta.1 hneg (by decide)]
    exact ⟨_, rfl, Nat.le_trans (Nat.sub_le _ _) hscroll⟩
  · have hmax : usizeBits = 64 := rfl
    rw [natCast?, if_pos ⟨by omega, by rw [hmax] at hdelta ⊢; omega⟩]
    exact ⟨_, rfl, Nat.min_le_right _ _⟩

theorem InRange.carried (h : InRange nav) {scroll : Nat} (hle : scroll ≤ nav.rowCount - nav.viewport) :
    (0 < nav.rowCount → carried nav scroll < nav.rowCount) ∧
      (nav.rowCount = 0 → carried nav scroll = 0) ∧
        scroll ≤ carried nav scroll ∧ carried nav scroll < scroll + nav.viewport := by
  have hrows := h.rowCount
  have hview := h.viewport
  have hcursor := h.cursor
  have hedge : satAdd usizeBits scroll nav.viewport = scroll + nav.viewport := by
    by_cases hzero : scroll = 0
    · exact satAdd_eq (by omega)
    · exact satAdd_eq (by omega)
  simp only [Nav.carried, hedge]
  split <;> split <;> omega

/-- The viewport moves over the rows, and the cursor with its edges. -/
theorem InRange.scrollRows (h : InRange nav)
    (hdelta : -2 ^ (usizeBits - 1) < delta ∧ delta < 2 ^ (usizeBits - 1)) :
    ∃ nav', scrollRows nav delta = some nav' ∧ InRange nav' := by
  obtain ⟨scroll, hsome, hle⟩ := h.scrolled hdelta
  obtain ⟨hlt, hzero, hvisible⟩ := h.carried hle
  rw [Nav.scrollRows, hsome]
  exact ⟨_, rfl, ⟨h.rowCount, h.viewport, Nat.two_pow_pos _, ⟨hlt, hzero⟩, h.mark⟩, hvisible, hle⟩

theorem countedRow_some (nav : Nav) (row : Nat) : ∃ target,
    countedRow nav (some row) = some target := by
  rw [countedRow]
  split
  · exact ⟨row, rfl⟩
  · exact ⟨_, sub?_some (by omega)⟩

theorem Placed.counted (h : Placed nav) (row : Nat) :
    ∃ nav', (countedRow nav (some row)).bind (Nav.moveTo (Nav.uncounted nav)) = some nav' ∧
      InRange nav' := by
  obtain ⟨target, hsome⟩ := countedRow_some nav row
  rw [hsome]
  exact h.uncounted.moveTo target

end Steps

def leastDelta : Isize := ⟨-2 ^ (usizeBits - 1), by decide⟩

variable {nav : Nav}

theorem apply_inRange (h : InRange nav) {op : Op} (hop : op ≠ .scrollRows leastDelta) :
    ∃ nav', apply nav op = some nav' ∧ InRange nav' := by
  have hplaced := h.toPlaced
  have hmarked : ∀ {mark : Option Nat},
      (∀ m ∈ mark, 0 < nav.rowCount → m < nav.rowCount) → InRange { nav with mark := mark } :=
    fun hmark => ⟨⟨h.rowCount, h.viewport, h.count, h.cursor, hmark⟩, h.visible, h.scroll⟩
  have hcursor : ∀ m ∈ some nav.cursor, 0 < nav.rowCount → m < nav.rowCount := by
    intro m hm hpos
    rw [← Option.some.inj hm]
    exact h.cursor.1 hpos
  have hnone : ∀ m ∈ (none : Option Nat), 0 < nav.rowCount → m < nav.rowCount :=
    fun m hm => (by cases hm)
  cases op with
  | pushDigit d =>
    exact ⟨_, rfl, ⟨h.rowCount, h.viewport, satAdd_lt, h.cursor, h.mark⟩, h.visible, h.scroll⟩
  | setViewport viewport => exact hplaced.setViewport viewport.2
  | setRowCount rowCount => exact hplaced.setRowCount rowCount.2
  | toggleMark =>
    refine ⟨_, rfl, hmarked ?_⟩
    split
    · exact hcursor
    · exact hnone
  | ensureMark =>
    rw [apply, ensureMark]
    split
    · exact ⟨_, rfl, hmarked hcursor⟩
    · exact ⟨_, rfl, h⟩
  | clearMark => exact ⟨_, rfl, hmarked hnone⟩
  | down | halfPageDown | pageDown | cursorToViewTop => exact hplaced.uncounted.moveTo _
  | up | pageUp => exact hplaced.above _ (Nat.zero_le 1)
  | halfPageUp => exact hplaced.above _ (Nat.le_refl 1)
  | center => exact hplaced.center
  | scrollCursorTop => exact (hplaced.replace h.cursor).clampScroll
  | scrollCursorBottom => exact hplaced.scrollCursorBottom
  | scrollRows delta =>
    refine h.scrollRows ⟨?_, delta.2.2⟩
    refine Int.lt_iff_le_and_ne.mpr ⟨delta.2.1, fun heq => hop ?_⟩
    rw [Op.scrollRows.injEq]
    exact Subtype.ext heq.symm
  | cursorToViewMiddle =>
    have hmiddle : nav.scroll + nav.viewport / 2 < 2 ^ usizeBits := by
      have := h.rowCount
      have := h.viewport
      have := h.scroll
      omega
    rw [apply, cursorToViewMiddle, add?_some hmiddle]
    exact hplaced.uncounted.moveTo _
  | cursorToViewBottom | jumpTo target => exact hplaced.uncounted.moveTo _
  | toTop => exact hplaced.counted 0
  | toBottom =>
    rw [apply, toBottom, lastRow_eq]
    exact hplaced.counted _

theorem apply_least (nav : Nav) : apply nav (.scrollRows leastDelta) = none := by
  have hneg : (leastDelta : Int) < 0 := by decide
  rw [apply, scrollRows, scrolled, maxScroll_eq, Option.bind_some, if_pos hneg, leastDelta, neg?_least]
  rfl

theorem init_inRange (rowCount viewport : Usize) : InRange (init rowCount viewport) := by
  have hpos : 0 < max viewport.1 1 := Nat.le_max_right _ _
  have hview : max viewport.1 1 < 2 ^ usizeBits := by
    have hone : 1 < 2 ^ usizeBits := by decide
    omega
  refine ⟨⟨rowCount.2, ⟨hpos, hview⟩, Nat.two_pow_pos _, ?_, fun mark h => (by cases h)⟩, ?_, ?_⟩
  · exact ⟨fun h => h, fun _ => rfl⟩
  · exact ⟨Nat.le_refl 0, Nat.lt_of_lt_of_eq hpos (Nat.zero_add _).symm⟩
  · exact Nat.zero_le _

variable {ops : List Op}

theorem run_inRange (h : InRange nav) (hops : ∀ op ∈ ops, op ≠ .scrollRows leastDelta) :
    ∃ nav', run nav ops = some nav' ∧ InRange nav' := by
  induction ops generalizing nav with
  | nil => exact ⟨nav, rfl, h⟩
  | cons op ops ih =>
    obtain ⟨nav', hstep, hin⟩ := apply_inRange h (hops op List.mem_cons_self)
    rw [run, List.foldlM_cons, hstep]
    exact ih hin (fun other hother => hops other (List.mem_cons_of_mem _ hother))

theorem run_least (h : .scrollRows leastDelta ∈ ops) : run nav ops = none := by
  induction ops generalizing nav with
  | nil => cases h
  | cons op ops ih =>
    rw [run, List.foldlM_cons]
    cases List.mem_cons.mp h with
    | inl heq =>
      rw [← heq, apply_least]
      rfl
    | inr hmem =>
      cases apply nav op with
      | none => rfl
      | some nav' => exact ih hmem

/-- A run stays in range exactly when it never scrolls by the least `delta`. -/
theorem run_inRange_iff (rowCount viewport : Usize) (ops : List Op) :
    (∃ nav, run (init rowCount viewport) ops = some nav ∧ InRange nav) ↔
      ∀ op ∈ ops, op ≠ .scrollRows leastDelta := by
  constructor
  · rintro ⟨nav, hrun, -⟩ op hop rfl
    rw [run_least hop] at hrun
    cases hrun
  · exact run_inRange (init_inRange rowCount viewport)

/-- One scroll by the least `delta`. -/
theorem leastDelta_fails : ¬∀ (rowCount viewport : Usize) (ops : List Op),
    ∃ nav, run (init rowCount viewport) ops = some nav ∧ InRange nav := by
  intro h
  obtain ⟨nav, hrun, -⟩ := h ⟨20, by decide⟩ ⟨5, by decide⟩ [.scrollRows leastDelta]
  cases hrun

end Bbr.Tui.Nav
