import Bbr.Tui.NavigationIndex
import Bbr.Tui.Wrapping
import Mathlib.Data.List.Find

/-!
# The index finds what the walk finds

The index keeps the first row of every owner and the spans of every Line and every card. Where the spans of
each Line echo, bisection over the sorted spans finds the row that the walk over the displayed rows finds.
-/
namespace Bbr.Tui.Frame

open Bbr.Lib List Option
open Bbr.Search (Range)

/-- The span of a row of the same card. -/
def cardSpan (wanted : RowOwner) (entry : VisualRow × Nat) : Option Span :=
  (cardOffset wanted entry.1.owner).map (fun start => ⟨start, entry.1.sourceEnd, entry.2, 0⟩)

def lineSpan (line : LineRef) (entry : VisualRow × Nat) : Option Span :=
  (lineRangeForOwner entry.1 line).map (fun range => ⟨range.start, range.stop, entry.2, 0⟩)

def CardsWhole (row : VisualRow) : Prop :=
  row.halves ≠ none → row.owner.isLine = true

namespace NavigationIndex

variable (self : NavigationIndex)

theorem owners_addSpans (row : VisualRow) (index : Nat) :
    (self.addSpans row index).owners = self.owners := by
  rw [addSpans]
  split
  · simp only [addHalves]
    split
    · split <;> split <;> rfl
    · split <;> rfl
  · split
    · rfl
    · split <;> rfl
    · split <;> rfl
    · rfl

theorem owners_addOwner (key owner : RowOwner) (index : Nat) : (self.addOwner owner index).owners key =
      (self.owners key <|> if owner = key then some index else none) := by
  rw [addOwner]
  split
  · next row hrow =>
    by_cases heq : owner = key
    · subst heq
      simp [hrow]
    · simp [heq]
  · next hnone =>
    by_cases heq : owner = key
    · subst heq
      simp [hnone]
    · have hne : key ≠ owner := fun h => heq h.symm
      simp [heq, hne]

theorem owners_foldl (key : RowOwner) (rows : List VisualRow) (k : Nat) :
    ((rows.zipIdx k).foldl addRow self).owners key = (self.owners key <|>
        (rows.findIdx? (fun row => decide (row.owner = key))).map (fun i => i + k)) := by
  induction rows generalizing self k with
  | nil => simp
  | cons row rows ih =>
    rw [zipIdx_cons, foldl_cons, ih, addRow, owners_addSpans, owners_addOwner, findIdx?_cons]
    by_cases heq : row.owner = key
    · cases self.owners key <;> simp [heq]
    · cases self.owners key <;> simp [heq, Option.map_map, Function.comp_def, Nat.add_assoc,
        Nat.add_comm 1]

@[simp] theorem spans_addOwner (owner : RowOwner) (index : Nat) :
    (self.addOwner owner index).spans = self.spans := by
  rw [addOwner]
  split <;> rfl

theorem spans_add (key owner : RowOwner) (start stop row : Nat) :
    (self.add owner start stop row).spans key =
      self.spans key ++ if owner = key then [⟨start, stop, row, 0⟩] else [] := by
  by_cases heq : owner = key
  · subst heq
    simp [add]
  · have hne : key ≠ owner := fun h => heq h.symm
    simp [add, heq, hne]

theorem spans_addSpans_line (line : LineRef) (row : VisualRow) (index : Nat) :
    (self.addSpans row index).spans (.line line) =
      self.spans (.line line) ++ (lineSpan line (row, index)).toList := by
  simp only [addSpans, lineSpan, lineRangeForOwner]
  cases row.halves with
  | none =>
    cases row.owner with
    | line other =>
      by_cases heq : other = line
      · simp [spans_add, heq]
      · simp [spans_add, heq]
    | comment id offset part => by_cases hpart : part = some .header <;> simp [spans_add, hpart]
    | draft id offset part => by_cases hpart : part = some .header <;> simp [spans_add, hpart]
    | _ => simp
  | some halves =>
    obtain ⟨left, right⟩ := halves
    cases right with
    | none =>
      cases left with
      | none => simp [addHalves]
      | some left =>
        by_cases hleft : left.line = line <;>
          simp [addHalves, addHalf, spans_add, filter_some, hleft]
    | some right =>
      cases left with
      | none =>
        by_cases hright : right.line = line <;>
          simp [addHalves, addHalf, spans_add, filter_some, hright]
      | some left =>
        by_cases hsame : right.line = left.line
        · by_cases hright : left.line = line <;>
            simp [addHalves, addHalf, spans_add, filter_some, hsame, hright]
        by_cases hright : right.line = line
        · have hleft : left.line ≠ line := fun h => hsame (hright.trans h.symm)
          simp [addHalves, addHalf, spans_add, filter_some, hright, hleft, hleft.symm]
        · by_cases hleft : left.line = line <;>
            simp [addHalves, addHalf, spans_add, filter_some, hright, hsame, hleft]

theorem spans_addHalf {key : RowOwner} (hkey : key.isLine = false) (half : VisualHalf)
    (index : Nat) : (self.addHalf half index).spans key = self.spans key := by
  have hne : RowOwner.line half.line ≠ key := by
    intro heq
    simp [← heq, RowOwner.isLine] at hkey
  simp [addHalf, spans_add, hne]

theorem spans_addHalves {key : RowOwner} (hkey : key.isLine = false) (halves : Halves)
    (index : Nat) : (self.addHalves halves index).spans key = self.spans key := by
  simp only [addHalves]
  cases halves.left with
  | none => cases halves.right <;> simp [spans_addHalf _ hkey]
  | some left =>
    cases halves.right with
    | none => simp [spans_addHalf _ hkey]
    | some right =>
      simp only
      split <;> simp [spans_addHalf _ hkey]

theorem isLine_spanKey {wanted key : RowOwner} (hkey : spanKey wanted = some key) :
    key.isLine = wanted.isLine := by
  cases wanted <;> simp only [spanKey, some.injEq, reduceCtorEq] at hkey
  all_goals (subst hkey; rfl)

theorem cardOffset_line {wanted owner : RowOwner} (h : owner.isLine = true) :
    cardOffset wanted owner = none := by
  cases owner <;> simp [RowOwner.isLine] at h
  cases wanted <;> rfl

theorem spans_addSpans_card (wanted : RowOwner) (key : RowOwner)
    (hkey : spanKey wanted = some key) (hcard : wanted.isLine = false) (row : VisualRow)
    (hwhole : CardsWhole row) (index : Nat) :
    (self.addSpans row index).spans key = self.spans key ++ (cardSpan wanted (row, index)).toList := by
  simp only [addSpans]
  cases hhalves : row.halves with
  | some halves =>
    have hline : row.owner.isLine = true := hwhole (by simp [hhalves])
    have hkey' := (isLine_spanKey hkey).trans hcard
    simp [spans_addHalves _ hkey', cardSpan, cardOffset_line hline]
  | none =>
    cases wanted with
    | comment id offset part | draft id offset part =>
      simp only [spanKey, Option.some.injEq] at hkey
      subst hkey
      cases howner : row.owner with
      | comment other offset' part' | draft other offset' part' =>
        by_cases hpart : part' = some .header <;>
          simp [hpart, cardSpan, cardOffset, howner, spans_add]
        try by_cases hid : other = id <;> simp [hid]
      | _ => simp [cardSpan, cardOffset, howner, spans_add]
    | line line => simp [RowOwner.isLine] at hcard
    | _ => simp [spanKey] at hkey

theorem spans_foldl_line (line : LineRef) (entries : List (VisualRow × Nat)) :
    (entries.foldl addRow self).spans (.line line) =
      self.spans (.line line) ++ entries.filterMap (lineSpan line) := by
  induction entries generalizing self with
  | nil => simp
  | cons entry entries ih =>
    rw [foldl_cons, ih, addRow, spans_addSpans_line, spans_addOwner, filterMap_cons_toList,
      append_assoc]

theorem spans_foldl_card (wanted : RowOwner) (key : RowOwner) (hkey : spanKey wanted = some key)
    (hcard : wanted.isLine = false) (entries : List (VisualRow × Nat))
    (hwhole : ∀ entry ∈ entries, CardsWhole entry.1) :
    (entries.foldl addRow self).spans key = self.spans key ++ entries.filterMap (cardSpan wanted) := by
  induction entries generalizing self with
  | nil => simp
  | cons entry entries ih =>
    rw [foldl_cons, ih _ (fun entry h => hwhole entry (.tail _ h)), addRow,
      spans_addSpans_card _ wanted key hkey hcard entry.1 (hwhole entry (by simp)), spans_addOwner,
      filterMap_cons_toList, append_assoc]

end NavigationIndex

theorem spanLess_iff {a b : Span} : NavigationIndex.spanLess a b = true ↔
    sortKey Span.start Span.row a < sortKey Span.start Span.row b := by
  simp [NavigationIndex.spanLess, sortKey, Prod.Lex.toLex_lt_toLex]

/-- The sorted spans of displayed ones. -/
def sortSpans (spans : List Span) : List Span :=
  spans.mergeSort (fun a b => !NavigationIndex.spanLess b a)

theorem not_spanLess_iff {a b : Span} : (!NavigationIndex.spanLess b a) = true ↔
    sortKey Span.start Span.row a ≤ sortKey Span.start Span.row b := by
  rw [Bool.not_eq_true', ← Bool.not_eq_true, spanLess_iff, not_lt]

theorem sorted_sortSpans {spans : List Span} (hrows : spans.Pairwise (fun a b => a.row < b.row)) :
    Sorted Span.start Span.row spans (sortSpans spans) where
  rows := hrows
  keys := by
    have hsorted : (sortSpans spans).Pairwise (fun a b => (!NavigationIndex.spanLess b a) = true) := by
      refine pairwise_mergeSort (fun a b c hab hbc => ?_) (fun a b => ?_) spans
      · rw [not_spanLess_iff] at hab hbc ⊢
        exact le_trans hab hbc
      · rw [Bool.or_eq_true, not_spanLess_iff, not_spanLess_iff]
        exact le_total _ _
    have hdistinct : (sortSpans spans).Pairwise (fun a b => a.row ≠ b.row) :=
      ((mergeSort_perm spans _).pairwise_iff (fun h => h.symm)).mpr
        (hrows.imp (fun h => Nat.ne_of_lt h))
    refine (hsorted.and hdistinct).imp (fun ⟨hle, hne⟩ => ?_)
    refine lt_of_le_of_ne (not_spanLess_iff.mp hle) (fun heq => hne ?_)
    simpa [sortKey] using congrArg (fun key => (ofLex key).2) heq
  mem x := mem_mergeSort

section PrefixEnds

open NavigationIndex (prefixEnds)

variable {offset furthest : Nat} {spans : List Span} {p : Span → Bool}

theorem prefixEnd_le_iff {i : Nat} {span : Span} (h : (prefixEnds furthest spans)[i]? = some span) :
    span.prefixEnd ≤ offset ↔ furthest ≤ offset ∧
      ∀ x ∈ (prefixEnds furthest spans).take (i + 1), x.stop ≤ offset := by
  induction spans generalizing furthest i with
  | nil => simp [prefixEnds] at h
  | cons first spans ih =>
    cases i with
    | zero =>
      obtain rfl : { first with prefixEnd := max furthest first.stop } = span := by
        simpa [prefixEnds] using h
      simp [prefixEnds]
    | succ i =>
      have hrest := @ih (max furthest first.stop) i (by simpa [prefixEnds] using h)
      rw [hrest]
      simp [prefixEnds, and_assoc]

theorem find?_prefixEnds {β : Type} (f : Span → β)
    (hp : ∀ span e, p { span with prefixEnd := e } = p span)
    (hf : ∀ span e, f { span with prefixEnd := e } = f span) :
    ((prefixEnds furthest spans).find? p).map f = (spans.find? p).map f := by
  induction spans generalizing furthest with
  | nil => rfl
  | cons span spans ih =>
    rw [prefixEnds, find?_cons, find?_cons, hp]
    cases p span with
    | true => simp [hf]
    | false => exact ih

theorem getLast?_prefixEnds :
    (prefixEnds furthest spans).getLast?.map Span.row = spans.getLast?.map Span.row := by
  induction spans generalizing furthest with
  | nil => rfl
  | cons span spans ih =>
    cases spans with
    | nil => rfl
    | cons next spans => simpa [prefixEnds] using @ih (max furthest span.stop)

theorem map_start_prefixEnds : (prefixEnds furthest spans).map Span.start = spans.map Span.start := by
  induction spans generalizing furthest with
  | nil => rfl
  | cons span spans ih => simp [prefixEnds, ih]

/-- Up to a place, no span that starts before the offset starts behind it. -/
theorem start_lt_of_sorted (h : spans.Pairwise (fun a b => a.start ≤ b.start)) {i : Nat}
    {span : Span} (hspan : spans[i]? = some span) (hlt : span.start < offset) :
    ∀ x ∈ spans.take (i + 1), x.start < offset := by
  intro x hx
  obtain ⟨j, hj, rfl⟩ := List.mem_take_iff_getElem.mp hx
  obtain ⟨hi, rfl⟩ := List.getElem?_eq_some_iff.mp hspan
  by_cases heq : j = i
  · subst heq
    exact hlt
  · have hle := List.pairwise_iff_getElem.mp h j i (by omega) hi (by omega)
    omega

theorem containing_prefixEnds : NavigationIndex.containing (prefixEnds 0 spans) offset =
      ((prefixEnds 0 spans).find? (fun span => decide (offset < span.stop))).filter
        (fun span => decide (span.start ≤ offset)) := by
  rw [NavigationIndex.containing, getElem?_bisect]
  intro i hi
  have hspan := getElem?_eq_getElem hi
  rw [hspan]
  simp [prefixEnd_le_iff hspan]

theorem following_prefixEnds (h : spans.Pairwise (fun a b => a.start ≤ b.start)) :
    NavigationIndex.following (prefixEnds 0 spans) offset = (prefixEnds 0 spans).find?
        (fun span => decide (offset < span.stop) || decide (offset ≤ span.start)) := by
  have hsorted : (prefixEnds 0 spans).Pairwise (fun a b => a.start ≤ b.start) := by
    rwa [← pairwise_map (R := (· ≤ ·)), map_start_prefixEnds, pairwise_map]
  rw [NavigationIndex.following, getElem?_bisect]
  intro i hi
  have hspan := getElem?_eq_getElem hi
  rw [hspan]
  simp only [any_some, Bool.and_eq_true, decide_eq_true_eq, Bool.or_eq_false_iff,
    decide_eq_false_iff_not, not_lt, not_le]
  constructor
  · intro ⟨hend, hlt⟩ x hx
    exact ⟨((prefixEnd_le_iff hspan).mp hend).2 x hx, start_lt_of_sorted hsorted hspan hlt x hx⟩
  · intro hall
    refine ⟨(prefixEnd_le_iff hspan).mpr ⟨Nat.zero_le _, fun x hx => (hall x hx).1⟩, ?_⟩
    exact (hall _ (mem_take_iff_getElem.mpr ⟨i, by omega, rfl⟩)).2

end PrefixEnds

section Lines

open NavigationIndex (prefixEnds)

variable {displayed sorted : List Span} {offset : Nat}

def contains (offset : Nat) (span : Span) : Bool :=
  decide (span.start ≤ offset) && decide (offset < span.stop)

def behind (offset : Nat) (span : Span) : Bool := decide (offset ≤ span.start)

/-- The first sorted span that ends behind the offset holds it, if any span does. -/
theorem find?_contains (h : Sorted Span.start Span.row displayed sorted) :
    (sorted.find? (fun span => decide (offset < span.stop))).filter
        (fun span => decide (span.start ≤ offset)) = sorted.find? (contains offset) := by
  cases hfound : sorted.find? (contains offset) with
  | none =>
    rw [find?_eq_none] at hfound
    refine eq_none_iff_forall_not_mem.mpr (fun span hspan => ?_)
    obtain ⟨hspan, hstart⟩ := filter_eq_some_iff.mp hspan
    have hstop := find?_some hspan
    exact hfound span (mem_of_find?_eq_some hspan) (by simp_all [contains])
  | some span =>
    obtain ⟨hspan, hcontains, hfirst⟩ := (find?_eq_some_iff_least h.keys).mp hfound
    have hbounds : span.start ≤ offset ∧ offset < span.stop := by simpa [contains] using hcontains
    have hends : sorted.find? (fun span => decide (offset < span.stop)) = some span := by
      refine (find?_eq_some_iff_least h.keys).mpr ⟨hspan, by simpa using hbounds.2, ?_⟩
      intro other hother hstop
      by_cases hstart : other.start ≤ offset
      · exact hfirst other hother (by simp_all [contains])
      · exact sortKey_le.mpr (.inl (by omega))
    rw [hends]
    exact filter_some_pos (by simpa using hbounds.1)

theorem filter_map_row (found : Option Span) :
    (found.filter (fun span => decide (span.start ≤ offset))).map Span.row =
      (found.map (fun span => if span.start ≤ offset then some span.row else none)).join := by
  cases found with
  | none => rfl
  | some span => by_cases h : span.start ≤ offset <;> simp [filter_some]

theorem findLine_eq (h : Sorted Span.start Span.row displayed sorted)
    (hecho : Echoed Span.start Span.stop Span.row displayed) :
    NavigationIndex.findLine (prefixEnds 0 sorted) offset =
      (displayed.find? (contains offset) <|> displayed.find? (behind offset) <|>
        displayed.getLast?).map Span.row := by
  have hstarts : sorted.Pairwise (fun a b => a.start ≤ b.start) := h.keys.imp (fun hlt => by
      have := sortKey_le.mp (le_of_lt hlt)
      omega)
  have hcontaining : (NavigationIndex.containing (prefixEnds 0 sorted) offset).map Span.row =
      (displayed.find? (contains offset)).map Span.row := by
    rw [containing_prefixEnds, filter_map_row, find?_prefixEnds _ (fun _ _ => rfl) (fun _ _ => rfl),
      ← filter_map_row, find?_contains h, h.find?_eq hecho]
    intro x y hsame hy
    simpa [contains, hsame.1, hsame.2] using hy
  have hlast : (prefixEnds 0 sorted).getLast?.map Span.row = displayed.getLast?.map Span.row := by
    rw [getLast?_prefixEnds, h.getLast?_eq hecho]
  have hfollowing : displayed.find? (contains offset) = none →
      (NavigationIndex.following (prefixEnds 0 sorted) offset).map Span.row =
        (displayed.find? (behind offset)).map Span.row := by
    intro hnone
    have hsame : sorted.find? (fun span => decide (offset < span.stop) || decide (offset ≤ span.start))
        = sorted.find? (behind offset) := by
      refine find?_congr (fun span hspan => ?_)
      have hnot := find?_eq_none.mp hnone span ((h.mem span).mp hspan)
      by_cases hstart : span.start ≤ offset
      · simp_all [contains, behind]
      · simp [behind, Nat.le_of_not_le hstart]
    rw [following_prefixEnds hstarts, find?_prefixEnds _ (fun _ _ => rfl) (fun _ _ => rfl), hsame,
      h.find?_eq hecho]
    intro x y hsame hy
    simpa [behind, hsame.1] using hy
  simp only [NavigationIndex.findLine, orElse_eq_orElse, orElse_eq_or, map_or]
  rw [hcontaining, hlast]
  cases hfound : displayed.find? (contains offset) with
  | some span => simp
  | none => simp [hfollowing hfound]

theorem scanLine_eq (line : LineRef) (entries : List (VisualRow × Nat)) (following final : Option Nat) :
    scanLine line offset entries following final =
      (((entries.filterMap (lineSpan line)).find? (contains offset)).map Span.row <|>
        following <|> ((entries.filterMap (lineSpan line)).find? (behind offset)).map Span.row <|>
          (entries.filterMap (lineSpan line)).getLast?.map Span.row <|> final) := by
  induction entries generalizing following final with
  | nil => simp [scanLine]
  | cons entry entries ih =>
    obtain ⟨row, index⟩ := entry
    cases hrange : lineRangeForOwner row line with
    | none =>
      have hspan : lineSpan line (row, index) = none := by simp [lineSpan, hrange]
      rw [filterMap_cons_none hspan, scanLine, hrange, ih]
    | some range =>
      have hspan : lineSpan line (row, index) = some ⟨range.start, range.stop, index, 0⟩ := by
        simp [lineSpan, hrange]
      have hstep : scanLine line offset ((row, index) :: entries) following final =
          if range.start ≤ offset ∧ offset < range.stop then some index
          else scanLine line offset entries
            (if following = none ∧ offset ≤ range.start then some index else following)
            (some index) := by
        rw [scanLine, hrange]
      rw [filterMap_cons_some hspan, hstep, ih, find?_cons, find?_cons, getLast?_cons]
      generalize entries.filterMap (lineSpan line) = spans
      by_cases hholds : range.start ≤ offset ∧ offset < range.stop
      · simp [hholds, contains]
      have hnot : contains offset ⟨range.start, range.stop, index, 0⟩ = false := by
        simpa [contains] using hholds
      simp only [hholds, if_false, hnot]
      by_cases hbehind : offset ≤ range.start
      · cases following <;> cases spans.find? (contains offset) <;> simp [behind, hbehind]
      · cases following <;> cases spans.find? (contains offset) <;>
          cases spans.find? (behind offset) <;> cases spans.getLast? <;>
          simp [behind, hbehind]

end Lines

section CardSpans

open NavigationIndex (prefixEnds)

variable {wanted : RowOwner} {displayed sorted : List Span} {offset bound : Nat}

def near (offset : Nat) (span : Span) : Bool :=
  (decide (span.start ≤ offset) && decide (offset < span.stop)) || decide (offset ≤ span.start)

theorem near_eq (offset : Nat) :
    near offset = fun span => decide (offset < span.stop) || decide (offset ≤ span.start) := by
  funext span
  rw [Bool.eq_iff_iff]
  simp [near]
  omega

theorem following_eq (h : Sorted Span.start Span.row displayed sorted)
    (hbound : ∀ span ∈ displayed, span.start < bound) :
    (NavigationIndex.following (prefixEnds 0 sorted) offset).map Span.row =
      (nearest Span.start (near offset) bound displayed).1.map Span.row := by
  have hstarts : sorted.Pairwise (fun a b => a.start ≤ b.start) := h.keys.imp (fun hlt => by
      have := sortKey_le.mp (le_of_lt hlt)
      omega)
  rw [following_prefixEnds hstarts, find?_prefixEnds _ (fun _ _ => rfl) (fun _ _ => rfl),
    h.find?_nearest hbound, near_eq]

theorem foldl_nearer (entries : List (VisualRow × Nat)) (best : Option Span × Nat) :
    entries.foldl (nearer wanted) (best.1.map Span.row, best.2) =
      (((entries.filterMap (cardSpan wanted)).foldl (fun best span =>
          if near wanted.offset span = true ∧ span.start < best.2 then (some span, span.start)
          else best) best).1.map Span.row,
        ((entries.filterMap (cardSpan wanted)).foldl (fun best span =>
          if near wanted.offset span = true ∧ span.start < best.2 then (some span, span.start)
          else best) best).2) := by
  induction entries generalizing best with
  | nil => rfl
  | cons entry entries ih =>
    cases hoffset : cardOffset wanted entry.1.owner with
    | none =>
      have hspan : cardSpan wanted entry = none := by simp [cardSpan, hoffset]
      rw [filterMap_cons_none hspan, foldl_cons, nearer, hoffset, ih]
    | some start =>
      have hspan : cardSpan wanted entry = some ⟨start, entry.1.sourceEnd, entry.2, 0⟩ := by
        simp [cardSpan, hoffset]
      have hstep : nearer wanted (best.1.map Span.row, best.2) entry =
          if near wanted.offset ⟨start, entry.1.sourceEnd, entry.2, 0⟩ = true ∧ start < best.2 then
            (some entry.2, start)
          else (best.1.map Span.row, best.2) := by
        simp [nearer, hoffset, near]
      rw [filterMap_cons_some hspan, foldl_cons, foldl_cons, hstep]
      split
      · exact ih (some ⟨start, entry.1.sourceEnd, entry.2, 0⟩, start)
      · exact ih best

theorem pairwise_filterMap_rows {f : VisualRow × Nat → Option Span}
    (hf : ∀ entry span, f entry = some span → span.row = entry.2) (rows : List VisualRow) (k : Nat) :
    ((rows.zipIdx k).filterMap f).Pairwise (fun a b => a.row < b.row) := by
  rw [pairwise_filterMap]
  have hindex : (rows.zipIdx k).Pairwise (fun a b => a.2 < b.2) := by
    rw [← pairwise_map (R := (· < ·)), zipIdx_map_snd]
    exact pairwise_lt_range'
  refine hindex.imp (fun hlt a ha b hb => ?_)
  rw [hf _ _ ha, hf _ _ hb]
  exact hlt

end CardSpans

/-- Visual rows that the index can tell apart. -/
structure Searchable (rows : List VisualRow) : Prop where
  whole : ∀ row ∈ rows, CardsWhole row
  offsets : ∀ row ∈ rows, ∀ wanted start, cardOffset wanted row.owner = some start →
    start < 2 ^ usizeBits - 1
  echoed : ∀ line, Echoed Span.start Span.stop Span.row (rows.zipIdx.filterMap (lineSpan line))

section Search

open NavigationIndex (prefixEnds build spanKey)

variable {rows : List VisualRow} {wanted : VisualRow}

theorem owners_build (rows : List VisualRow) (key : RowOwner) :
    (build rows).owners key = rows.findIdx? (fun row => decide (row.owner = key)) := by
  have h := NavigationIndex.owners_foldl {} key rows 0
  simpa [build] using h

theorem spans_build_line (rows : List VisualRow) (line : LineRef) : (build rows).spans (.line line) =
      prefixEnds 0 (sortSpans (rows.zipIdx.filterMap (lineSpan line))) := by
  have h := NavigationIndex.spans_foldl_line {} line rows.zipIdx
  simp only [nil_append] at h
  rw [← h]
  rfl

theorem spans_build_card (h : Searchable rows) {owner key : RowOwner}
    (hkey : spanKey owner = some key) (hcard : owner.isLine = false) :
    (build rows).spans key = prefixEnds 0 (sortSpans (rows.zipIdx.filterMap (cardSpan owner))) := by
  have hspans := NavigationIndex.spans_foldl_card {} owner key hkey hcard rows.zipIdx
    (fun entry hentry => h.whole entry.1 (fst_mem_of_mem_zipIdx hentry))
  simp only [nil_append] at hspans
  rw [← hspans]
  rfl

theorem row_lineSpan (line : LineRef) (entry : VisualRow × Nat) (span : Span)
    (h : lineSpan line entry = some span) : span.row = entry.2 := by
  obtain ⟨range, _, rfl⟩ := map_eq_some_iff.mp h
  rfl

theorem row_cardSpan (owner : RowOwner) (entry : VisualRow × Nat) (span : Span)
    (h : cardSpan owner entry = some span) : span.row = entry.2 := by
  obtain ⟨start, _, rfl⟩ := map_eq_some_iff.mp h
  rfl

theorem find_line (h : Searchable rows) (line : LineRef) (howner : wanted.owner = .line line) :
    (build rows).find wanted = findVisualRow rows wanted := by
  have hrows := pairwise_filterMap_rows (row_lineSpan line) rows 0
  have hindex : (build rows).find wanted =
      NavigationIndex.findLine ((build rows).spans (.line line)) wanted.sourceStart := by
    simp [NavigationIndex.find, howner, RowOwner.isLine, spanKey, NavigationIndex.wantedOffset]
  have hreference : findVisualRow rows wanted =
      scanLine line wanted.sourceStart rows.zipIdx none none := by
    simp [findVisualRow, howner]
  rw [hindex, hreference, spans_build_line, scanLine_eq,
    findLine_eq (sorted_sortSpans hrows) (h.echoed line)]
  generalize rows.zipIdx.filterMap (lineSpan line) = spans
  cases spans.find? (contains wanted.sourceStart) <;>
    cases spans.find? (behind wanted.sourceStart) <;> cases spans.getLast? <;> rfl

theorem findOwner_eq (rows : List VisualRow) (owner : RowOwner) : findOwner rows owner =
      (rows.findIdx? (fun row => decide (row.owner = owner)) <|>
        (nearest Span.start (near owner.offset) (2 ^ usizeBits - 1)
          (rows.zipIdx.filterMap (cardSpan owner))).1.map Span.row) := by
  have hfold := @foldl_nearer owner rows.zipIdx (none, 2 ^ usizeBits - 1)
  simp only [map_none] at hfold
  rw [findOwner, hfold]
  cases rows.findIdx? (fun row => decide (row.owner = owner)) <;> rfl

theorem find_card (h : Searchable rows) {key : RowOwner} (hkey : spanKey wanted.owner = some key)
    (hcard : wanted.owner.isLine = false) :
    (build rows).find wanted = findOwner rows wanted.owner := by
  have hrows := pairwise_filterMap_rows (row_cardSpan wanted.owner) rows 0
  have hbound : ∀ span ∈ rows.zipIdx.filterMap (cardSpan wanted.owner),
      span.start < 2 ^ usizeBits - 1 := by
    intro span hspan
    obtain ⟨entry, hentry, hsome⟩ := mem_filterMap.mp hspan
    obtain ⟨start, hstart, rfl⟩ := map_eq_some_iff.mp hsome
    exact h.offsets entry.1 (fst_mem_of_mem_zipIdx hentry) wanted.owner start hstart
  have hoffset : NavigationIndex.wantedOffset wanted = wanted.owner.offset := by
    cases howner : wanted.owner with
    | line line => simp [howner, RowOwner.isLine] at hcard
    | comment id start part => simp [NavigationIndex.wantedOffset, howner, RowOwner.offset]
    | draft id start part => simp [NavigationIndex.wantedOffset, howner, RowOwner.offset]
    | _ => simp [howner, spanKey] at hkey
  rw [findOwner_eq, NavigationIndex.find, hcard, owners_build, hkey]
  cases rows.findIdx? (fun row => decide (row.owner = wanted.owner)) with
  | some row => rfl
  | none =>
    simp only [Bool.false_eq_true, if_false, bind_some]
    rw [spans_build_card h hkey hcard, following_eq (sorted_sortSpans hrows) hbound, hoffset]
    rfl

theorem cardOffset_of_spanKey_none {owner other : RowOwner} (hkey : spanKey owner = none) :
    cardOffset owner other = none := by
  cases owner <;> first | rfl | simp [spanKey] at hkey

theorem find_other (hkey : spanKey wanted.owner = none) :
    (build rows).find wanted = findOwner rows wanted.owner := by
  have hspans : rows.zipIdx.filterMap (cardSpan wanted.owner) = [] :=
    filterMap_eq_nil_iff.mpr (fun entry _ => by
      simp [cardSpan, cardOffset_of_spanKey_none hkey])
  have hline : wanted.owner.isLine = false := by
    cases howner : wanted.owner <;> simp_all [RowOwner.isLine, spanKey]
  rw [findOwner_eq, NavigationIndex.find, hline, owners_build, hkey, hspans]
  cases rows.findIdx? (fun row => decide (row.owner = wanted.owner)) <;> rfl

theorem find_eq (h : Searchable rows) (wanted : VisualRow) :
    (build rows).find wanted = findVisualRow rows wanted := by
  cases hline : wanted.owner.isLine with
  | true =>
    cases howner : wanted.owner with
    | line line => exact find_line h line howner
    | _ => simp [howner, RowOwner.isLine] at hline
  | false =>
    have hreference : findVisualRow rows wanted = findOwner rows wanted.owner := by
      cases howner : wanted.owner <;> simp_all [findVisualRow, RowOwner.isLine]
    rw [hreference]
    cases hkey : spanKey wanted.owner with
    | some key => exact find_card h hkey hline
    | none => exact find_other hkey

end Search

end Bbr.Tui.Frame
