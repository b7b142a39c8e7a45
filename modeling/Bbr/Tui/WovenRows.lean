import Bbr.Tui.HunkRowsLaws
import Bbr.Tui.NavigationRestoring

/-!
# The woven rows are a Buffer

Side by side the weave puts a removed Line on the left, an added one on the right, and a Line of the
context on both sides; in the unified layout each Line has a row. So the layout and the numbers of a
Line tell its place, and no Line has two.
-/
namespace Bbr.Tui

open Bbr.Diff List

/-- A Line on the new side has a number there, and one that is on the old side alone has none. -/
structure LinePair.Stands (pair : LinePair) : Prop where
  right : ∀ line, pair.right = some line → line.newNo ≠ 0
  left : ∀ line, pair.left = some line → pair.right = some line ∨ line.newNo = 0

theorem emitContext_stands (line : Line) : (emitContext line).Stands := by
  unfold emitContext
  split
  · next hnone =>
    exact ⟨by rintro other ⟨⟩, fun other hother => .inr (Option.some.inj hother ▸ hnone)⟩
  · next hsome =>
    split
    · exact ⟨fun other hother => Option.some.inj hother ▸ hsome, by rintro other ⟨⟩⟩
    · exact ⟨fun other hother => Option.some.inj hother ▸ hsome, fun other hother => .inl hother⟩

/-- Rows stand when the left column is not of the new side and the right one is. -/
theorem stands_of_columns {rows : List LinePair} {old new : List Line}
    (hleft : rows.filterMap LinePair.left = old) (hright : rows.filterMap LinePair.right = new)
    (hold : ∀ line ∈ old, line.newNo = 0) (hnew : ∀ line ∈ new, line.newNo ≠ 0) :
    ∀ row ∈ rows, row.Stands := by
  intro row hrow
  constructor
  · intro line hline
    exact hnew line (hright ▸ mem_filterMap.mpr ⟨row, hrow, hline⟩)
  · intro line hline
    exact .inr (hold line (hleft ▸ mem_filterMap.mpr ⟨row, hrow, hline⟩))

variable {run : List Line} {line : Line}

theorem Placed.removed (h : Placed line) (hkind : line.kind = .removed) : line.newNo = 0 := by
  by_contra hne
  exact h.2.mp hne hkind

theorem Placed.added (h : Placed line) (hkind : line.kind = .added) : line.newNo ≠ 0 :=
  h.2.mpr (by rw [hkind]; decide)

section Weave

variable {F : Type} (costs : MatchCosts F)

theorem changeBlock_stands {removed added : List Line}
    (hremoved : ∀ line ∈ removed, line.kind = .removed ∧ Placed line)
    (hadded : ∀ line ∈ added, line.kind = .added ∧ Placed line) :
    ∀ row ∈ emitSideBySideChangeBlock costs removed added, row.Stands := by
  obtain ⟨hleft, hright⟩ := emitSideBySideChangeBlock_columns costs removed added
  exact stands_of_columns hleft hright (fun line hline => (hremoved line hline).2.removed
    (hremoved line hline).1) (fun line hline => (hadded line hline).2.added (hadded line hline).1)

theorem sideBySidePart_stands (rest : List Line) (h : ∀ other ∈ line :: rest, Placed other) :
    ∀ row ∈ (sideBySidePart costs line rest).1, ∃ pair, row = .linePair pair ∧ pair.Stands := by
  intro row hrow
  have htake (n : Nat) (other : Line) (hother : other ∈ (line :: rest).take n) : Placed other :=
    h other (mem_of_mem_take hother)
  cases hkind : line.kind with
  | context =>
    rw [sideBySidePart_context costs rest hkind] at hrow
    exact ⟨_, mem_singleton.mp hrow, emitContext_stands line⟩
  | added =>
    obtain ⟨run, hrun, hadded, -, -, hrows⟩ := sideBySidePart_added costs rest hkind
    rw [hrows] at hrow
    obtain ⟨pair, hpair, rfl⟩ := List.mem_map.mp hrow
    obtain ⟨other, hother, rfl⟩ := List.mem_map.mp hpair
    have hplaced := htake _ other (hrun ▸ hother)
    refine ⟨_, rfl, ?_, by rintro left ⟨⟩⟩
    rintro right ⟨⟩
    exact hplaced.added (hadded other hother)
  | removed =>
    obtain ⟨removed, added, htaken, hremoved, hadded, -, -, hrows⟩ :=
      sideBySidePart_removed costs rest hkind
    rw [hrows] at hrow
    obtain ⟨pair, hpair, rfl⟩ := List.mem_map.mp hrow
    refine ⟨pair, rfl, changeBlock_stands costs (fun other hother => ?_) (fun other hother => ?_)
      pair hpair⟩
    · exact ⟨hremoved other hother, htake _ other (htaken ▸ mem_append_left _ hother)⟩
    · exact ⟨hadded other hother, htake _ other (htaken ▸ mem_append_right _ hother)⟩

end Weave

/-- What holds of disclosures and of the rows of each step holds of all rows of the walk. -/
theorem forall_emitHunkRows {P : HunkRow → Prop} {part : Line → List Line → List HunkRow × Nat}
    {folds : List Fold} {expanded : Nat → Bool} {fuel i : Nat} {rows : List HunkRow}
    (hfold : ∀ id count shown, P (.disclosure id count shown))
    (hpart : ∀ line rest, line :: rest ⊆ run → ∀ row ∈ (part line rest).1, P row)
    (h : emitHunkRows part folds expanded fuel i run = some rows) : ∀ row ∈ rows, P row := by
  induction fuel generalizing i run rows with
  | zero => cases h
  | succ fuel ih =>
    cases run with
    | nil =>
      cases h
      exact forall_mem_nil _
    | cons line rest =>
      have hbehind {n : Nat} {j : Nat} {rows : List HunkRow}
          (hrows : emitHunkRows part folds expanded fuel j ((line :: rest).drop n) = some rows) :
          ∀ row ∈ rows, P row :=
        ih (fun other others hsub => hpart other others (fun _ hmem => drop_subset n _ (hsub hmem))) hrows
      have hshown {rows : List HunkRow} (hrows : (emitHunkRows part folds expanded fuel
          (i + (part line rest).2) ((line :: rest).drop (part line rest).2)).map
            (fun rows => (part line rest).1 ++ rows) = some rows) : ∀ row ∈ rows, P row := by
        obtain ⟨after, hafter, rfl⟩ := Option.map_eq_some_iff.mp hrows
        intro row hrow
        obtain hrow | hrow := mem_append.mp hrow
        · exact hpart line rest (fun _ => id) row hrow
        · exact hbehind hafter row hrow
      have hcons {id count : Nat} {shown : Bool} {rows : List HunkRow}
          (hrows : ∀ row ∈ rows, P row) : ∀ row ∈ .disclosure id count shown :: rows, P row := by
        intro row hrow
        obtain rfl | hrow := mem_cons.mp hrow
        · exact hfold id count shown
        · exact hrows row hrow
      rw [emitHunkRows] at h
      split at h
      · exact hshown h
      · split at h
        · obtain ⟨after, hafter, rfl⟩ := Option.map_eq_some_iff.mp h
          exact hcons (hshown hafter)
        · obtain ⟨after, hafter, rfl⟩ := Option.map_eq_some_iff.mp h
          exact hcons (hbehind hafter)

end Bbr.Tui

namespace Bbr.Tui.Frame

open Bbr.Diff List

/-- The row of a Buffer for a row of a Hunk, whose Lines are at these addresses. -/
inductive RowOf (address : Line → Nat) : HunkRow → Row → Prop where
  | disclosure (id count : Nat) (expanded : Bool) (line : LineRef) :
    RowOf address (.disclosure id count expanded) (.disclosure (.fold line))
  | line (line : Line) : RowOf address (.line line) (.line ⟨address line, line⟩)
  | linePair (pair : Tui.LinePair) (shown : LinePair) :
    shown.left = pair.left.map (fun line => ⟨address line, line⟩) →
    shown.right = pair.right.map (fun line => ⟨address line, line⟩) →
      RowOf address (.linePair pair) (.linePair shown)

/-- Lines have rows of their own in the unified layout. Side by side they are in pairs, with a number
for the new side if and only if they are on the right. -/
def Row.Woven (layout : Layout) (row : Row) : Prop :=
  match layout, row with
  | .unified, .linePair _ => False
  | .sideBySide, .line _ => False
  | .sideBySide, .linePair pair => (∀ ref, pair.right = some ref → ref.line.newNo ≠ 0) ∧
      ∀ ref, pair.left = some ref → pair.right = some ref ∨ ref.line.newNo = 0
  | _, _ => True

def placeOf (layout : Layout) (ref : LineRef) : Place :=
  match layout with
  | .unified => .whole
  | .sideBySide => if ref.line.newNo = 0 then .left else .right

theorem Row.Woven.place {layout : Layout} {row : Row} (h : row.Woven layout) :
    ∀ a ∈ row.places, a.2 = placeOf layout a.1 := by
  intro a ha
  cases row with
  | line ref =>
    obtain rfl := mem_singleton.mp ha
    cases layout with
    | unified => rfl
    | sideBySide => exact absurd h id
  | linePair pair =>
    cases layout with
    | unified => exact absurd h id
    | sideBySide =>
      obtain ⟨hright, hleft⟩ := h
      obtain ha | ha := mem_append.mp ha
      · obtain ⟨ref, href, rfl⟩ := List.mem_map.mp ha
        exact (if_neg (hright ref (Option.mem_toList.mp href))).symm
      · obtain ⟨ref, href, rfl⟩ := List.mem_map.mp ha
        obtain ⟨href, hother⟩ := List.mem_filter.mp href
        have hnone := (hleft ref (Option.mem_toList.mp href)).resolve_left (of_decide_eq_true hother)
        exact (if_pos hnone).symm
  | _ => exact absurd ha not_mem_nil

def Buffer.ofWoven (layout : Layout) (rows : List Row) (h : ∀ row ∈ rows, row.Woven layout) :
    Buffer where
  rows := rows
  placed := by
    intro a ha b hb hsame
    obtain ⟨row, hrow, ha⟩ := mem_flatMap.mp ha
    obtain ⟨row', hrow', hb⟩ := mem_flatMap.mp hb
    rw [(h row hrow).place a ha, (h row' hrow').place b hb, hsame]

variable {address : Line → Nat} {hunkRow : HunkRow} {row : Row}

theorem RowOf.woven_pair {pair : Tui.LinePair} (h : RowOf address (.linePair pair) row)
    (hstands : pair.Stands) : row.Woven .sideBySide := by
  cases h with
  | linePair _ shown hleft hright =>
    constructor
    · intro ref href
      rw [hright] at href
      obtain ⟨line, hline, rfl⟩ := Option.map_eq_some_iff.mp href
      exact hstands.right line hline
    · intro ref href
      rw [hleft] at href
      obtain ⟨line, hline, rfl⟩ := Option.map_eq_some_iff.mp href
      rw [hright]
      exact (hstands.left line hline).imp_left (fun hsame => by rw [hsame]; rfl)

/-- The rows of a Hunk whose Lines are numbered are woven, side by side. -/
theorem woven_sideBySide {F : Type} (costs : MatchCosts F) {folds : List Fold}
    {expanded : Nat → Bool} {fuel : Nat} {lines : List Line} {rows : List HunkRow}
    (hplaced : ∀ line ∈ lines, Placed line)
    (h : emitFoldedSideBySideHunk costs folds expanded fuel lines = some rows) :
    ∀ hunkRow ∈ rows, ∀ row, RowOf address hunkRow row → row.Woven .sideBySide := by
  refine forall_emitHunkRows (fun id count shown row hrow => ?_) (fun line rest hsub => ?_) h
  · cases hrow
    trivial
  · intro hunkRow hmem row hrow
    obtain ⟨pair, rfl, hstands⟩ := sideBySidePart_stands costs rest
      (fun other hother => hplaced other (hsub hother)) hunkRow hmem
    exact hrow.woven_pair hstands

theorem woven_unified {folds : List Fold} {expanded : Nat → Bool} {fuel : Nat} {lines : List Line}
    {rows : List HunkRow} (h : emitUnifiedHunk folds expanded fuel lines = some rows) :
    ∀ hunkRow ∈ rows, ∀ row, RowOf address hunkRow row → row.Woven .unified := by
  refine forall_emitHunkRows (fun id count shown row hrow => ?_) (fun line rest _ => ?_) h
  · cases hrow
    trivial
  · intro hunkRow hmem row hrow
    obtain rfl := mem_singleton.mp hmem
    cases hrow
    trivial

end Bbr.Tui.Frame
