import Bbr.Tui.WholeFile
import Bbr.Lib.Blocks
import Mathlib.Data.List.Nodup
import Mathlib.Data.List.Range

/-!
# What the whole-file view shows

The Hunks of a unified diff lay out each side as gaps and blocks. `spliceSide` gives this layout back
unless its cursor comes to stand at zero or behind the Lines of a Hunk; the side-by-side rows follow it
as long as the walk over the marked Lines keeps in step.
-/
namespace Bbr.Tui

open Bbr.Diff List
open Bbr.Lib

/-- The numbers of Lines behind `o` old and `n` new ones. -/
def Numbered : Nat → Nat → List Line → Prop
  | _, _, [] => True
  | o, n, line :: lines =>
    line.inHunk = true ∧
      match line.kind with
      | .context => line.oldNo = o + 1 ∧ line.newNo = n + 1 ∧ Numbered (o + 1) (n + 1) lines
      | .removed => line.oldNo = o + 1 ∧ line.newNo = 0 ∧ Numbered (o + 1) n lines
      | .added => line.oldNo = 0 ∧ line.newNo = n + 1 ∧ Numbered o (n + 1) lines

/-- A range without Lines names the Line before it. -/
structure ValidHunk (o n : Nat) (hunk : Hunk) : Prop where
  numbered : Numbered o n hunk.lines
  nonempty : hunk.lines ≠ []
  oldCount : hunk.oldCount = (sideLines .old hunk.lines).length
  newCount : hunk.newCount = (sideLines .new hunk.lines).length
  oldStart : hunk.oldStart = if hunk.oldCount = 0 then o else o + 1
  newStart : hunk.newStart = if hunk.newCount = 0 then n else n + 1

/-- Hunks that are a unified diff between the Lines left of two versions, behind `o` old and `n` new
ones. -/
inductive Unified : Nat → Nat → List Hunk → List Bytes → List Bytes → Prop
  | done (o n : Nat) (common : List Bytes) : Unified o n [] common common
  | hunk {o n : Nat} {hunk : Hunk} {hunks : List Hunk} {old new : List Bytes} (gap : List Bytes) :
    ValidHunk (o + gap.length) (n + gap.length) hunk →
      Unified (o + gap.length + hunk.oldCount) (n + gap.length + hunk.newCount) hunks old new →
        Unified o n (hunk :: hunks) (gap ++ (sideLines .old hunk.lines).map Line.text ++ old)
          (gap ++ (sideLines .new hunk.lines).map Line.text ++ new)

/-- A File whose Hunks are a unified diff between two contents. -/
structure DiffOf (file : File) (old new : List Bytes) : Prop where
  unified : Unified 0 0 file.hunks old new
  added : file.status = .added → old = []
  removed : file.status = .removed → new = []

/-- The Lines of a content, numbered, each the Hunk's own where a Hunk covers it. -/
structure ShowsSide (side : SelectedVersion) (hunks : List Hunk) (content : List Bytes)
    (lines : List Line) : Prop where
  texts : lines.map Line.text = content
  numbers : lines.map (sideNo side) = List.range' 1 content.length
  own : ∀ line ∈ lines, ∀ hunk ∈ hunks, ∀ own ∈ hunk.lines, sideNo side own = sideNo side line →
    line = own
  plain : ∀ line ∈ lines,
    (∀ hunk ∈ hunks, ∀ own ∈ hunk.lines, sideNo side own ≠ sideNo side line) →
      line = gapLine side (sideNo side line) line.text

/-- The new number of an unchanged old Line, behind a Hunk that ends at `o` and `n`. -/
def counterpart (o n : Nat) : List Hunk → Nat → Nat
  | [], i => n + (i - o)
  | hunk :: hunks, i =>
    let last := if hunk.oldCount = 0 then hunk.oldStart else hunk.oldStart + hunk.oldCount - 1
    let newLast := if hunk.newCount = 0 then hunk.newStart else hunk.newStart + hunk.newCount - 1
    if last < i then counterpart last newLast hunks i else n + (i - o)

/-- What the side-by-side view of a whole File shows. -/
structure ShowsWholeFile {F : Type} (costs : MatchCosts F) (file : File) (old new : Option Bytes) :
    Prop where
  oldSide : ShowsSide .old file.hunks (splitBlobLines (old.getD []))
    (spliceSide file (old.getD []) .old)
  newSide : ShowsSide .new file.hunks (splitBlobLines (new.getD []))
    (spliceSide file (new.getD []) .new)
  left : (wholeFileRows costs file old new).filterMap LinePair.left =
    spliceSide file (old.getD []) .old
  right : (wholeFileRows costs file old new).filterMap LinePair.right =
    spliceSide file (new.getD []) .new
  gaps : ∀ row ∈ wholeFileRows costs file old new, ∀ l r, row.left = some l → row.right = some r →
    l.inHunk = false ∨ r.inHunk = false →
      l.text = r.text ∧ counterpart 0 0 file.hunks l.oldNo = r.newNo

/-- No range without Lines names a Line that the cursor has passed, and none at the top is followed
by an unchanged Line. -/
def Spliceable (side : SelectedVersion) (total : Nat) : Nat → List Hunk → Prop
  | cursor, [] => cursor = 0 → total = 0
  | cursor, hunk :: hunks =>
    (cursor = 0 → sideStart side hunk ≤ 1) ∧
      (0 < sideStart side hunk → sideCount side hunk = 0 → cursor ≤ sideStart side hunk) ∧
        Spliceable side total (sideStart side hunk + sideCount side hunk) hunks

def coveredCount (side : SelectedVersion) : List Hunk → Nat
  | [] => 0
  | hunk :: hunks => sideCount side hunk + coveredCount side hunks

/-- Before a Hunk with Lines of the side, the Hunk before it has some as well and an unchanged Line
lies between them, or else no unchanged Line follows. -/
def Steady (side : SelectedVersion) (total : Nat) : List Hunk → Prop
  | [] => True
  | hunk :: hunks =>
    (match hunks with
      | [] => True
      | next :: later => 0 < sideCount side next →
        (0 < sideCount side hunk ∧
          sideStart side hunk + sideCount side hunk < sideStart side next) ∨
          total + 1 = sideStart side next + sideCount side next + coveredCount side later) ∧
      Steady side total hunks

/-- Hunks that the splice and the walk follow on both sides. -/
structure Followed (hunks : List Hunk) (old new : List Bytes) : Prop where
  oldCursor : Spliceable .old old.length 1 hunks
  newCursor : Spliceable .new new.length 1 hunks
  oldSteady : Steady .old old.length hunks
  newSteady : Steady .new new.length hunks

def gapLines (side : SelectedVersion) : Nat → List Bytes → List Line
  | _, [] => []
  | m, text :: texts => gapLine side (m + 1) text :: gapLines side (m + 1) texts

/-- A Hunk as one side sees it, behind `m` Lines. -/
structure Sided (side : SelectedVersion) (m : Nat) (hunk : Hunk) : Prop where
  numbers : (sideLines side hunk.lines).map (sideNo side) = List.range' (m + 1) (sideCount side hunk)
  start : sideStart side hunk = if sideCount side hunk = 0 then m else m + 1
  marked : ∀ line ∈ hunk.lines, line.inHunk = true

/-- The gaps and blocks of a side's content behind `m` Lines. -/
inductive LaidOut (side : SelectedVersion) :
    Nat → List Hunk → List Bytes → Laid Line → List Line → Prop
  | tail (m : Nat) (common : List Bytes) : LaidOut side m [] common [] (gapLines side m common)
  | piece {m : Nat} {hunk : Hunk} {hunks : List Hunk} {rest : List Bytes} {laid : Laid Line}
      {tail : List Line} (gap : List Bytes) :
    Sided side (m + gap.length) hunk →
      LaidOut side (m + gap.length + sideCount side hunk) hunks rest laid tail →
        LaidOut side m (hunk :: hunks) (gap ++ (sideLines side hunk.lines).map Line.text ++ rest)
          ((gapLines side m gap, sideLines side hunk.lines) :: laid) tail

variable {side : SelectedVersion} {m : Nat} {hunk : Hunk} {hunks : List Hunk}
  {content lines : List Bytes} {laid : Laid Line} {tail : List Line}

@[simp] theorem sideNo_gapLine (text : Bytes) : sideNo side (gapLine side m text) = m := by
  cases side <;> rfl

theorem gapLines_texts (side : SelectedVersion) (m : Nat) (texts : List Bytes) :
    (gapLines side m texts).map Line.text = texts := by
  induction texts generalizing m with
  | nil => rfl
  | cons text texts ih =>
    rw [gapLines, map_cons, ih]
    rfl

theorem gapLines_numbers (side : SelectedVersion) (m : Nat) (texts : List Bytes) :
    (gapLines side m texts).map (sideNo side) = List.range' (m + 1) texts.length := by
  induction texts generalizing m with
  | nil => rfl
  | cons text texts ih =>
    rw [gapLines, map_cons, ih, sideNo_gapLine, length_cons, range'_succ]

theorem gapLines_unmarked : ∀ line ∈ gapLines side m lines, line.inHunk = false := by
  induction lines generalizing m with
  | nil => exact forall_mem_nil _
  | cons text texts ih =>
    intro line h
    obtain rfl | h := mem_cons.mp h
    · rfl
    · exact ih line h

theorem gapLines_append (first second : List Bytes) : gapLines side m (first ++ second) =
      gapLines side m first ++ gapLines side (m + first.length) second := by
  induction first generalizing m with
  | nil => rfl
  | cons text texts ih =>
    rw [cons_append, gapLines, gapLines, ih, cons_append, length_cons]
    have hm : m + 1 + texts.length = m + (texts.length + 1) := by omega
    rw [hm]

theorem Sided.length (h : Sided side m hunk) :
    (sideLines side hunk.lines).length = sideCount side hunk := by
  rw [← length_map (sideNo side), h.numbers, length_range']

theorem blobLine_drop (lines : List Bytes) (m : Nat) :
    blobLine lines (m + 1) = (lines.drop m).head? := by
  unfold blobLine
  rw [head?_drop]
  split
  · rename_i h
    rw [getElem?_eq_none (by omega)]
  · rfl

theorem fill_drop (side : SelectedVersion) (lines : List Bytes) (steps m : Nat) :
    fill side lines steps (m + 1) = gapLines side m ((lines.drop m).take steps) := by
  induction steps generalizing m with
  | zero => rfl
  | succ steps ih =>
    rw [fill, blobLine_drop]
    cases hrest : lines.drop m with
    | nil => rfl
    | cons text texts =>
      have hnext : lines.drop (m + 1) = texts := by
        rw [← drop_drop, hrest]
        rfl
      rw [head?_cons, take_succ_cons, gapLines, ih, hnext]

theorem fill_zero (side : SelectedVersion) (lines : List Bytes) (steps : Nat) :
    fill side lines steps 0 = [] := by
  cases steps <;> rfl

section

variable (h : LaidOut side m hunks content laid tail)
include h

theorem LaidOut.texts : (flat laid tail).map Line.text = content := by
  induction h with
  | tail m common => exact gapLines_texts side m common
  | piece gap hsided _ ih =>
    rw [flat, map_append, map_append, gapLines_texts, ih]

theorem LaidOut.numbers : (flat laid tail).map (sideNo side) = List.range' (m + 1) content.length := by
  induction h with
  | tail m common => exact gapLines_numbers side m common
  | @piece m hunk hunks rest laid tail gap hsided _ ih =>
    have hfirst : m + 1 + gap.length = m + gap.length + 1 := by omega
    have hsecond : m + 1 + (gap.length + sideCount side hunk) =
        m + gap.length + sideCount side hunk + 1 := by omega
    rw [flat, map_append, map_append, gapLines_numbers, ih, hsided.numbers,
      length_append, length_append, length_map, hsided.length, ← range'_append_1,
      ← range'_append_1, hfirst, hsecond]

theorem LaidOut.marked : Marked Line.inHunk laid tail := by
  induction h with
  | tail m common => exact ⟨forall_mem_nil _, gapLines_unmarked⟩
  | piece gap hsided _ ih =>
    refine ⟨fun piece hp => ?_, ih.2⟩
    obtain rfl | hp := mem_cons.mp hp
    · exact ⟨gapLines_unmarked, fun x hx => hsided.marked x (mem_of_mem_filter hx)⟩
    · exact ih.1 piece hp

theorem LaidOut.blocks : laid.map Prod.snd = hunks.map (fun hunk => sideLines side hunk.lines) := by
  induction h with
  | tail m common => rfl
  | piece gap _ _ ih => rw [map_cons, map_cons, ih]

end

theorem LaidOut.behind (h : LaidOut side (m + 1) hunks content laid tail) (text : Bytes) :
    ∃ laid' tail', LaidOut side m hunks (text :: content) laid' tail' ∧
      flat laid' tail' = gapLine side (m + 1) text :: flat laid tail := by
  cases h with
  | tail => exact ⟨[], _, .tail m (text :: content), rfl⟩
  | @piece _ hunk hunks rest laid tail gap hsided hrest =>
    have hm : m + 1 + gap.length = m + (text :: gap).length := by
      rw [length_cons]
      omega
    rw [hm] at hsided hrest
    exact ⟨_, _, .piece (text :: gap) hsided hrest, rfl⟩

/-! ### The cursor -/

variable {rest : List Bytes}

theorem drop_piece {gap block : List Bytes} (hdrop : lines.drop m = gap ++ block ++ rest) :
    lines.drop (m + gap.length + block.length) = rest := by
  rw [Nat.add_assoc, ← drop_drop, hdrop, ← length_append, drop_left]

theorem spliceFrom_behind (h : LaidOut side (m + 1) hunks content laid tail) (hm : m < lines.length) :
    ∃ x rest, spliceFrom side lines (m + 1) hunks = x :: rest ∧ sideNo side x = m + 1 := by
  have hhead : ∀ steps, ∃ rest, fill side lines (steps + 1) (m + 1) =
      gapLine side (m + 1) lines[m] :: rest := by
    intro steps
    rw [fill_drop, drop_eq_getElem_cons hm]
    exact ⟨_, rfl⟩
  induction hunks generalizing content laid tail with
  | nil =>
    obtain ⟨rest, hfill⟩ := hhead (lines.length - m - 1)
    have hsteps : lines.length + 1 - (m + 1) = lines.length - m - 1 + 1 := by omega
    rw [spliceFrom, hsteps, hfill]
    exact ⟨_, rest, rfl, sideNo_gapLine _⟩
  | cons hunk hunks ih =>
    cases h with
    | @piece _ _ _ rest laid tail gap hsided hrest =>
      rw [spliceFrom]
      cases hsteps : sideStart side hunk - (m + 1) with
      | succ steps =>
        obtain ⟨rest, hfill⟩ := hhead steps
        rw [hfill]
        exact ⟨_, _, rfl, sideNo_gapLine _⟩
      | zero =>
        have hstart := hsided.start
        by_cases hcount : sideCount side hunk = 0
        · rw [if_pos hcount] at hstart
          have hblock : sideLines side hunk.lines = [] := by
            rw [← length_eq_zero_iff, hsided.length, hcount]
          have hgap : gap.length = 0 := by omega
          rw [hgap, hcount] at hrest
          obtain ⟨x, rest, hnext, hx⟩ := ih hrest
          have hcursor : sideStart side hunk + sideCount side hunk = m + 1 := by omega
          rw [hblock, hcursor, hnext]
          exact ⟨x, rest, rfl, hx⟩
        · rw [if_neg hcount] at hstart
          omega

/-- From a cursor behind the Lines shown, and from zero. -/
structure Restores (side : SelectedVersion) (lines : List Bytes) (hunks : List Hunk) : Prop where
  next : ∀ {m content laid tail}, LaidOut side m hunks content laid tail → lines.drop m = content →
    m ≤ lines.length →
      (spliceFrom side lines (m + 1) hunks = flat laid tail ↔
        Spliceable side lines.length (m + 1) hunks)
  zero : ∀ {laid tail}, LaidOut side 0 hunks lines laid tail →
    (spliceFrom side lines 0 hunks = flat laid tail ↔ Spliceable side lines.length 0 hunks)

theorem Restores.nil : Restores side lines [] where
  next h hdrop _ := by
    cases h with
    | tail =>
      have hsteps : ∀ m, lines.length + 1 - (m + 1) = (lines.drop m).length := by
        intro m
        rw [length_drop, Nat.add_sub_add_right]
      rw [spliceFrom, fill_drop, hsteps, take_length, hdrop]
      exact ⟨fun _ h => absurd h (Nat.succ_ne_zero _), fun _ => rfl⟩
  zero h := by
    cases h with
    | tail =>
      rw [spliceFrom, fill_zero, flat, Spliceable]
      constructor
      · intro heq _
        rw [← gapLines_texts side 0 lines, ← heq]
        rfl
      · intro hempty
        rw [length_eq_zero_iff.mp (hempty rfl)]
        rfl

theorem Sided.block (h : Sided side m hunk) (hcount : sideCount side hunk = 0) :
    sideLines side hunk.lines = [] := by
  rw [← length_eq_zero_iff, h.length, hcount]

theorem le_of_drop (hdrop : lines.drop m = rest) (hm : m ≤ lines.length) :
    m + rest.length = lines.length := by
  rw [← hdrop, length_drop]
  omega

theorem flat_head_number (h : LaidOut side m hunks content laid tail) {x : Line} {rest : List Line}
    (hflat : x :: rest = flat laid tail) : sideNo side x = m + 1 := by
  have hnumbers := h.numbers
  rw [← hflat, map_cons] at hnumbers
  cases hlength : content.length with
  | zero =>
    rw [hlength] at hnumbers
    cases hnumbers
  | succ n =>
    rw [hlength, range'_succ] at hnumbers
    exact (cons.inj hnumbers).1

theorem Restores.cons_next (ih : Restores side lines hunks)
    (h : LaidOut side m (hunk :: hunks) content laid tail) (hdrop : lines.drop m = content)
    (hm : m ≤ lines.length) :
    spliceFrom side lines (m + 1) (hunk :: hunks) = flat laid tail ↔
      Spliceable side lines.length (m + 1) (hunk :: hunks) := by
  cases h with
  | @piece _ _ _ rest laid tail gap hsided hrest =>
    have hstart := hsided.start
    have hrestDrop := drop_piece hdrop
    have hfill : ∀ steps (first second : List Bytes), gap = first ++ second →
        steps = first.length → fill side lines steps (m + 1) = gapLines side m first := by
      intro steps first second hgap hsteps
      rw [fill_drop, hdrop, hgap, hsteps, append_assoc, append_assoc, take_left']
      rfl
    rw [length_map, hsided.length] at hrestDrop
    have hlength := le_of_drop hdrop hm
    rw [length_append, length_append, length_map, hsided.length] at hlength
    rw [spliceFrom, flat, Spliceable]
    by_cases hcount : sideCount side hunk = 0
    · rw [if_pos hcount] at hstart
      rw [hcount, Nat.add_zero] at hrest hrestDrop
      rw [hsided.block hcount, hcount, Nat.add_zero, append_nil, append_nil]
      obtain rfl | ⟨first, text, rfl⟩ := eq_nil_or_concat gap
      · rw [length_nil, Nat.add_zero] at hstart hrest hrestDrop
        rw [hstart, hfill _ [] [] rfl (by rw [length_nil]; omega)]
        change spliceFrom side lines m hunks = flat laid tail ↔ _
        cases m with
        | zero =>
          rw [drop_zero] at hrestDrop
          rw [ih.zero (hrestDrop ▸ hrest)]
          exact ⟨fun h => ⟨fun _ => Nat.zero_le 1, fun h => absurd h (Nat.lt_irrefl 0), h⟩,
            fun h => h.2.2⟩
        | succ k =>
          have hbound : k < lines.length := by omega
          obtain ⟨x, more, hnext, hx⟩ := spliceFrom_behind hrest hbound
          rw [hnext]
          constructor
          · intro heq
            have hnumber := flat_head_number hrest heq
            omega
          · rintro ⟨-, hpassed, -⟩
            exact absurd (hpassed (Nat.succ_pos k) rfl) (by omega)
      · have hlen : (first ++ [text]).length = first.length + 1 := length_append
        rw [concat_eq_append] at *
        rw [hlen, ← Nat.add_assoc] at hstart hrest hrestDrop
        obtain ⟨laid', tail', hbehind, hflat⟩ := hrest.behind text
        have hdrop' : lines.drop (m + first.length) = text :: rest := by
          rw [← drop_drop, hdrop, append_assoc, append_assoc, drop_left, hsided.block hcount]
          rfl
        have hbound : m + first.length ≤ lines.length := by omega
        rw [hstart, hfill _ first [text] rfl (by omega), gapLines_append, append_assoc,
          append_cancel_left_eq]
        change _ = gapLine side (m + first.length + 1) text :: flat laid tail ↔ _
        rw [← hflat, ih.next hbehind hdrop' hbound]
        exact ⟨fun h => ⟨fun h => absurd h (Nat.succ_ne_zero m), fun _ _ => by omega, h⟩,
          fun h => h.2.2⟩
    · rw [if_neg hcount] at hstart
      have hcursor : sideStart side hunk + sideCount side hunk =
          m + gap.length + sideCount side hunk + 1 := by omega
      rw [hfill _ gap [] (append_nil gap).symm (by omega), append_cancel_left_eq, hcursor,
        ih.next hrest hrestDrop (by omega)]
      exact ⟨fun h => ⟨fun h => absurd h (Nat.succ_ne_zero m), fun _ h => absurd h hcount, h⟩,
        fun h => h.2.2⟩

theorem Restores.cons_zero (ih : Restores side lines hunks)
    (h : LaidOut side 0 (hunk :: hunks) lines laid tail) :
    spliceFrom side lines 0 (hunk :: hunks) = flat laid tail ↔
      Spliceable side lines.length 0 (hunk :: hunks) := by
  obtain ⟨content, hcontent⟩ : ∃ content, content = lines := ⟨lines, rfl⟩
  rw [← hcontent] at h
  cases h with
  | @piece _ _ _ rest laid tail gap hsided hrest =>
    have hstart := hsided.start
    have hrestDrop := drop_piece (m := 0) hcontent.symm
    have hlength := congrArg length hcontent
    rw [length_append, length_append, length_map, hsided.length] at hlength
    rw [length_map, hsided.length, Nat.zero_add] at hrestDrop
    rw [Nat.zero_add] at hstart hrest
    rw [spliceFrom, fill_zero, nil_append, flat, Spliceable]
    by_cases hcount : sideCount side hunk = 0
    · rw [if_pos hcount] at hstart
      rw [hcount, Nat.add_zero] at hrest hrestDrop
      rw [hsided.block hcount, hcount, Nat.add_zero, append_nil, nil_append, hstart]
      cases gap with
      | nil =>
        rw [length_nil, drop_zero] at hrestDrop
        change spliceFrom side lines 0 hunks = flat laid tail ↔ _
        rw [ih.zero (hrestDrop ▸ hrest)]
        exact ⟨fun h => ⟨fun _ => Nat.zero_le 1, fun _ _ => Nat.zero_le 0, h⟩, fun h => h.2.2⟩
      | cons text gap =>
        rw [length_cons] at *
        cases gap with
        | nil =>
          obtain ⟨laid', tail', hbehind, hflat⟩ :
              ∃ laid' tail', LaidOut side 0 hunks (text :: rest) laid' tail' ∧
                flat laid' tail' = gapLine side 1 text :: flat laid tail := hrest.behind text
          have hdrop : lines.drop 0 = text :: rest := by
            rw [← hcontent, hsided.block hcount]
            rfl
          change spliceFrom side lines 1 hunks = gapLine side 1 text :: flat laid tail ↔ _
          rw [← hflat, ih.next hbehind hdrop (Nat.zero_le _)]
          exact ⟨fun h => ⟨fun _ => Nat.le_refl 1, fun _ _ => Nat.zero_le 1, h⟩, fun h => h.2.2⟩
        | cons next gap =>
          rw [length_cons] at *
          have hbound : gap.length + 1 < lines.length := by omega
          obtain ⟨x, more, hnext, hx⟩ := spliceFrom_behind hrest hbound
          rw [hnext]
          constructor
          · intro heq
            rw [(cons.inj heq).1] at hx
            rw [sideNo_gapLine] at hx
            omega
          · rintro ⟨hfirst, -⟩
            exact absurd (hfirst rfl) (by omega)
    · rw [if_neg hcount] at hstart
      have hcursor : sideStart side hunk + sideCount side hunk =
          gap.length + sideCount side hunk + 1 := by omega
      have hbound : gap.length + sideCount side hunk ≤ lines.length := by omega
      cases gap with
      | nil =>
        rw [hcursor, hstart, gapLines, nil_append, append_cancel_left_eq,
          ih.next hrest hrestDrop hbound]
        exact ⟨fun h => ⟨fun _ => Nat.le_refl 1, fun _ h => absurd h hcount, h⟩, fun h => h.2.2⟩
      | cons text gap =>
        rw [length_cons] at hstart
        constructor
        · intro heq
          cases hblock : sideLines side hunk.lines with
          | nil =>
            rw [← hsided.length, hblock] at hcount
            exact absurd rfl hcount
          | cons x block =>
            rw [hblock] at heq
            have hx : x ∈ sideLines side hunk.lines := by
              rw [hblock]
              exact mem_cons_self
            have hmarked := hsided.marked x (mem_of_mem_filter hx)
            rw [(cons.inj heq).1] at hmarked
            cases hmarked
        · rintro ⟨hfirst, -⟩
          exact absurd (hfirst rfl) (by omega)

theorem restores (side : SelectedVersion) (lines : List Bytes) (hunks : List Hunk) :
    Restores side lines hunks := by
  induction hunks with
  | nil => exact .nil
  | cons hunk hunks ih => exact ⟨ih.cons_next, ih.cons_zero⟩

variable {file : File} {blob : Bytes}

/-- `spliceSide` gives the layout back if and only if the cursor keeps behind the Lines shown. -/
theorem spliceSide_eq_iff (h : LaidOut side 0 file.hunks (splitBlobLines blob) laid tail) :
    spliceSide file blob side = flat laid tail ↔
      Spliceable side (splitBlobLines blob).length 1 file.hunks :=
  (restores side _ _).next h drop_zero (Nat.zero_le _)

/-! ### The side as a whole -/

theorem gapLines_plain : ∀ line ∈ gapLines side m lines,
    line = gapLine side (sideNo side line) line.text := by
  induction lines generalizing m with
  | nil => exact forall_mem_nil _
  | cons text texts ih =>
    intro line h
    obtain rfl | h := mem_cons.mp h
    · rw [sideNo_gapLine]
      rfl
    · exact ih line h

theorem LaidOut.plain (h : LaidOut side m hunks content laid tail) :
    ∀ line ∈ flat laid tail, line.inHunk = false →
      line = gapLine side (sideNo side line) line.text := by
  induction h with
  | tail m common => exact fun line hline _ => gapLines_plain line hline
  | piece gap hsided _ ih =>
    intro line hline hmark
    rw [flat, mem_append, mem_append] at hline
    obtain (hline | hline) | hline := hline
    · exact gapLines_plain line hline
    · rw [hsided.marked line (mem_of_mem_filter hline)] at hmark
      cases hmark
    · exact ih line hline hmark

theorem LaidOut.mem_marked (h : LaidOut side m hunks content laid tail) {line : Line} :
    (line ∈ flat laid tail ∧ line.inHunk = true) ↔
      ∃ hunk ∈ hunks, line ∈ sideLines side hunk.lines := by
  rw [← mem_filter, filter_flat h.marked, h.blocks, mem_flatten]
  constructor
  · rintro ⟨_, hblock, hline⟩
    obtain ⟨hunk, hhunk, rfl⟩ := mem_map.mp hblock
    exact ⟨hunk, hhunk, hline⟩
  · rintro ⟨hunk, hhunk, hline⟩
    exact ⟨_, mem_map_of_mem hhunk, hline⟩

theorem LaidOut.showsSide (h : LaidOut side 0 hunks content laid tail) :
    ShowsSide side hunks content (flat laid tail) where
  texts := h.texts
  numbers := h.numbers
  own line hline hunk hhunk own hown hsame := by
    have hnumber : sideNo side line ∈ range' 1 content.length := by
      rw [← h.numbers]
      exact mem_map_of_mem hline
    have hpositive : sideNo side own ≠ 0 := by
      rw [mem_range'_1] at hnumber
      omega
    have hmem : own ∈ sideLines side hunk.lines := mem_filter.mpr ⟨hown, bne_iff_ne.mpr hpositive⟩
    have hshown := (h.mem_marked.mpr ⟨hunk, hhunk, hmem⟩).1
    have hnodup : ((flat laid tail).map (sideNo side)).Nodup := by
      rw [h.numbers]
      exact nodup_range'
    exact (inj_on_of_nodup_map hnodup hshown hline hsame).symm
  plain line hline hnone := by
    cases hmark : line.inHunk with
    | false => exact h.plain line hline hmark
    | true =>
      obtain ⟨hunk, hhunk, hmem⟩ := h.mem_marked.mp ⟨hline, hmark⟩
      exact absurd rfl (hnone hunk hhunk line (mem_of_mem_filter hmem))

theorem ShowsSide.unique {first second : List Line} (h : ShowsSide side hunks content first)
    (h' : ShowsSide side hunks content second) : first = second := by
  have hlength : first.length = second.length := by
    rw [← length_map Line.text, h.texts, ← h'.texts, length_map]
  refine ext_getElem hlength (fun i hi hi' => ?_)
  have hnumber : sideNo side first[i] = sideNo side second[i] := by
    have heq := h.numbers.trans h'.numbers.symm
    have hget := congrArg (fun numbers => numbers[i]?) heq
    simpa [hi, hi'] using hget
  have htext : first[i].text = second[i].text := by
    have hget := congrArg (fun texts => texts[i]?) (h.texts.trans h'.texts.symm)
    simpa [hi, hi'] using hget
  have hmem := getElem_mem hi
  have hmem' := getElem_mem hi'
  by_cases hown : ∃ hunk ∈ hunks, ∃ own ∈ hunk.lines, sideNo side own = sideNo side first[i]
  · obtain ⟨hunk, hhunk, own, hown, hsame⟩ := hown
    rw [h.own _ hmem hunk hhunk own hown hsame,
      h'.own _ hmem' hunk hhunk own hown (hsame.trans hnumber)]
  · have hnone : ∀ hunk ∈ hunks, ∀ own ∈ hunk.lines, sideNo side own ≠ sideNo side first[i] :=
      fun hunk hhunk own hmem hsame => hown ⟨hunk, hhunk, own, hmem, hsame⟩
    rw [h.plain _ hmem hnone, h'.plain _ hmem' (hnumber ▸ hnone), hnumber, htext]

theorem showsSide_iff (h : LaidOut side 0 file.hunks (splitBlobLines blob) laid tail) :
    ShowsSide side file.hunks (splitBlobLines blob) (spliceSide file blob side) ↔
      Spliceable side (splitBlobLines blob).length 1 file.hunks := by
  rw [← spliceSide_eq_iff h]
  constructor
  · exact fun hshows => hshows.unique h.showsSide
  · intro heq
    rw [heq]
    exact h.showsSide

section

variable (h : LaidOut side m hunks content laid tail)
include h

theorem LaidOut.length_blocks : ((laid.map Prod.snd).flatten).length = coveredCount side hunks := by
  induction h with
  | tail m common => rfl
  | piece gap hsided _ ih =>
    rw [map_cons, flatten_cons, length_append, ih, hsided.length, coveredCount]

/-- No unchanged Line is left if the Hunks cover as many Lines as there are. -/
theorem LaidOut.settled_iff :
    (∀ line ∈ flat laid tail, line.inHunk = true) ↔ content.length = coveredCount side hunks := by
  rw [← h.length_blocks, ← filter_flat h.marked, ← length_filter_eq_length_iff, ← h.texts, length_map]
  exact eq_comm

theorem LaidOut.inStep_iff {total : Nat} (htotal : m + content.length = total) :
    InStep Line.inHunk laid tail ↔ Steady side total hunks := by
  induction hunks generalizing m content laid tail with
  | nil =>
    cases h with
    | tail => exact Iff.rfl
  | cons hunk hunks ih =>
    have hmarked := h.marked
    cases h with
    | @piece _ _ _ rest laid tail gap hsided hrest =>
      rw [length_append, length_append, length_map, hsided.length] at htotal
      have ih := ih hrest (by omega)
      cases hrest with
      | tail => exact ⟨fun _ => ⟨trivial, trivial⟩, fun _ => inStep_single hmarked⟩
      | @piece _ next later rest laid tail gap' hsided' hrest' =>
        rw [inStep_cons_cons hmarked, hrest'.settled_iff, Steady, ← ih]
        have hblock := hsided.length
        have hblock' := hsided'.length
        have hstart := hsided.start
        have hstart' := hsided'.start
        rw [length_append, length_append, length_map, hblock'] at htotal
        refine and_congr_left' ?_
        rw [← length_pos_iff, hblock']
        refine forall_congr' (fun hpositive => ?_)
        rw [← length_pos_iff, hblock, ← length_pos_iff]
        have hgap : (gapLines side (m + gap.length + sideCount side hunk) gap').length =
            gap'.length := by
          rw [← length_map Line.text, gapLines_texts]
        rw [if_neg (by omega)] at hstart'
        by_cases hcount : sideCount side hunk = 0
        · omega
        · rw [if_neg hcount] at hstart
          omega

end

/-! ### The rows -/

theorem pairUp_left (old new : List Line) : (pairUp old new).filterMap LinePair.left = old := by
  induction old generalizing new with
  | nil =>
    rw [pairUp, filterMap_map]
    exact filterMap_eq_nil_iff.mpr (fun _ _ => rfl)
  | cons line old ih =>
    cases new with
    | nil =>
      rw [pairUp, filterMap_map]
      · exact filterMap_some
      · exact cons_ne_nil line old
    | cons other new => exact congrArg (line :: ·) (ih new)

theorem pairUp_right (old new : List Line) : (pairUp old new).filterMap LinePair.right = new := by
  induction old generalizing new with
  | nil =>
    rw [pairUp, filterMap_map]
    exact filterMap_some
  | cons line old ih =>
    cases new with
    | nil =>
      rw [pairUp, filterMap_map]
      · exact filterMap_eq_nil_iff.mpr (fun _ _ => rfl)
      · exact cons_ne_nil line old
    | cons other new => exact congrArg (other :: ·) (ih new)

theorem pairUp_both {old new : List Line} {row : LinePair} (hrow : row ∈ pairUp old new) {l r : Line}
    (hl : row.left = some l) (hr : row.right = some r) : (l, r) ∈ old.zip new := by
  induction old generalizing new with
  | nil =>
    obtain ⟨line, -, rfl⟩ := mem_map.mp hrow
    cases hl
  | cons line old ih =>
    cases new with
    | nil =>
      rw [pairUp] at hrow
      · obtain ⟨line, -, rfl⟩ := mem_map.mp hrow
        cases hr
      · exact cons_ne_nil line old
    | cons other new =>
      obtain rfl | hrow := mem_cons.mp hrow
      · cases hl
        cases hr
        exact mem_cons_self
      · exact mem_cons_of_mem _ (ih hrow)

section Weave

variable {F : Type} (costs : MatchCosts F)

theorem chooseMatch_operation {current candidate : MatchCell F} {p : MatchOperation → Prop}
    (h : p current.operation) (h' : p candidate.operation) :
    p (chooseMatch costs current candidate).operation := by
  unfold chooseMatch
  dsimp only
  split
  · exact h'
  · exact h

theorem rowCells_operation (below : List Line → Nat → MatchCell F) (old new : Line)
    (oldCursor newCursor : Nat) (added : List Line) :
    (rowCells costs below old oldCursor (new :: added) newCursor).operation ≠ .done := by
  have halone : ∀ operation next, operation ≠ .done →
      (alone costs operation next).operation ≠ .done := fun _ _ h => h
  have hright := halone .right (rowCells costs below old oldCursor added (newCursor + 1)) (by decide)
  have hleft := halone .left (below (new :: added) newCursor) (by decide)
  refine chooseMatch_operation costs (p := (· ≠ .done)) ?_ hright
  split
  · refine chooseMatch_operation costs (p := (· ≠ .done)) ?_ hleft
    exact fun h => MatchOperation.noConfusion h
  · exact hleft

variable {fuel : Nat}

theorem emitMatched_columns {removed added : List Line} {oldCursor newCursor : Nat}
    (hfuel : removed.length + added.length ≤ fuel) :
    (emitMatched costs fuel removed oldCursor added newCursor).filterMap LinePair.left = removed ∧
      (emitMatched costs fuel removed oldCursor added newCursor).filterMap LinePair.right = added := by
  induction fuel generalizing removed added oldCursor newCursor with
  | zero =>
    rw [length_eq_zero_iff.mp (by omega : removed.length = 0),
      length_eq_zero_iff.mp (by omega : added.length = 0)]
    exact ⟨rfl, rfl⟩
  | succ fuel ih =>
    unfold emitMatched
    cases removed with
    | nil =>
      cases added with
      | nil => exact ⟨rfl, rfl⟩
      | cons new added =>
        rw [length_cons] at hfuel
        obtain ⟨hleft, hright⟩ := @ih [] added oldCursor (newCursor + 1) (by omega)
        exact ⟨hleft, congrArg (new :: ·) hright⟩
    | cons old removed =>
      rw [length_cons] at hfuel
      cases added with
      | nil =>
        obtain ⟨hleft, hright⟩ := @ih removed [] (oldCursor + 1) newCursor (by omega)
        exact ⟨congrArg (old :: ·) hleft, hright⟩
      | cons new added =>
        rw [length_cons] at hfuel
        have hcell := rowCells_operation costs
          (fun added newCursor => cells costs removed (oldCursor + 1) added newCursor) old new
          oldCursor newCursor added
        change (cells costs (old :: removed) oldCursor (new :: added) newCursor).operation ≠ _ at hcell
        revert hcell
        cases (cells costs (old :: removed) oldCursor (new :: added) newCursor).operation with
        | pair =>
          intro _
          obtain ⟨hleft, hright⟩ := @ih removed added (oldCursor + 1) (newCursor + 1) (by omega)
          exact ⟨congrArg (old :: ·) hleft, congrArg (new :: ·) hright⟩
        | left =>
          intro _
          obtain ⟨hleft, hright⟩ := @ih removed (new :: added) (oldCursor + 1) newCursor
            (by rw [length_cons]; omega)
          exact ⟨congrArg (old :: ·) hleft, hright⟩
        | right =>
          intro _
          obtain ⟨hleft, hright⟩ := @ih (old :: removed) added oldCursor (newCursor + 1)
            (by rw [length_cons]; omega)
          exact ⟨hleft, congrArg (new :: ·) hright⟩
        | done => exact fun hcell => absurd rfl hcell

theorem emitSideBySideChangeBlock_columns (removed added : List Line) :
    (emitSideBySideChangeBlock costs removed added).filterMap LinePair.left = removed ∧
      (emitSideBySideChangeBlock costs removed added).filterMap LinePair.right = added := by
  unfold emitSideBySideChangeBlock
  dsimp only
  split
  · exact ⟨pairUp_left removed added, pairUp_right removed added⟩
  · exact emitMatched_columns costs (Nat.le_refl _)

/-- A Line has the sides that its kind says. -/
def Placed (line : Line) : Prop :=
  (line.oldNo ≠ 0 ↔ line.kind ≠ .added) ∧ (line.newNo ≠ 0 ↔ line.kind ≠ .removed)

theorem sideLines_cons {line : Line} (h : sideNo side line ≠ 0) (run : List Line) :
    sideLines side (line :: run) = line :: sideLines side run :=
  filter_cons_of_pos (bne_iff_ne.mpr h)

variable {line : Line}

theorem sideLines_skip (h : sideNo side line = 0) (run : List Line) :
    sideLines side (line :: run) = sideLines side run := by
  refine filter_cons_of_neg ?_
  rw [h]
  decide

variable {run : List Line}

theorem sideLines_all (h : ∀ line ∈ run, sideNo side line ≠ 0) : sideLines side run = run :=
  filter_eq_self.mpr (fun line hline => bne_iff_ne.mpr (h line hline))

theorem sideLines_none (h : ∀ line ∈ run, sideNo side line = 0) : sideLines side run = [] := by
  refine filter_eq_nil_iff.mpr (fun line hline => ?_)
  rw [h line hline]
  decide

variable {kind : LineKind}

theorem mem_run : ∀ line ∈ run.takeWhile (isKind kind), line ∈ run ∧ line.kind = kind := by
  intro line hline
  have hkind : isKind kind line = true := mem_takeWhile_imp hline
  exact ⟨(List.takeWhile_prefix _).subset hline, of_decide_eq_true hkind⟩

theorem sideLines_run (side : SelectedVersion) (kind : LineKind) (run : List Line) :
    sideLines side run =
      sideLines side (run.takeWhile (isKind kind)) ++ sideLines side (run.dropWhile (isKind kind)) := by
  unfold sideLines
  rw [← filter_append, takeWhile_append_dropWhile]

theorem missing_run (h : ∀ line ∈ run, line.kind = kind → sideNo side line = 0) :
    sideLines side run = sideLines side (run.dropWhile (isKind kind)) := by
  rw [sideLines_run side kind run, sideLines_none, nil_append]
  intro line hline
  obtain ⟨hmem, hkind⟩ := mem_run line hline
  exact h line hmem hkind

theorem present_run (h : ∀ line ∈ run, line.kind = kind → sideNo side line ≠ 0) : sideLines side run =
      run.takeWhile (isKind kind) ++ sideLines side (run.dropWhile (isKind kind)) := by
  rw [sideLines_run side kind run, sideLines_all]
  intro line hline
  obtain ⟨hmem, hkind⟩ := mem_run line hline
  exact h line hmem hkind

theorem added_run (h : ∀ line ∈ run, Placed line) :
    sideLines .old run = sideLines .old (run.dropWhile (isKind .added)) ∧ sideLines .new run =
        run.takeWhile (isKind .added) ++ sideLines .new (run.dropWhile (isKind .added)) :=
  ⟨missing_run fun line hm hk => not_not.mp fun hne => (h line hm).1.mp hne hk,
    present_run fun line hm hk => (h line hm).2.mpr (by rw [hk]; decide)⟩

theorem removed_run (h : ∀ line ∈ run, Placed line) : sideLines .old run =
        run.takeWhile (isKind .removed) ++ sideLines .old (run.dropWhile (isKind .removed)) ∧
      sideLines .new run = sideLines .new (run.dropWhile (isKind .removed)) :=
  ⟨present_run fun line hm hk => (h line hm).1.mpr (by rw [hk]; decide),
    missing_run fun line hm hk => not_not.mp fun hne => (h line hm).2.mp hne hk⟩

theorem length_run (hkind : line.kind = kind) (hfuel : (line :: run).length ≤ fuel + 1) :
    ((line :: run).dropWhile (isKind kind)).length ≤ fuel := by
  have hfirst : isKind kind line = true := decide_eq_true hkind
  rw [dropWhile_cons_of_pos hfirst]
  exact Nat.le_trans (dropWhile_suffix _).length_le (Nat.le_of_succ_le_succ hfuel)

theorem emitSideBySideHunk_columns (hfuel : run.length ≤ fuel) (h : ∀ line ∈ run, Placed line) :
    (emitSideBySideHunk costs fuel run).filterMap LinePair.left = sideLines .old run ∧
      (emitSideBySideHunk costs fuel run).filterMap LinePair.right = sideLines .new run := by
  induction fuel generalizing run with
  | zero =>
    rw [length_eq_zero_iff.mp (Nat.le_zero.mp hfuel)]
    exact ⟨rfl, rfl⟩
  | succ fuel ih =>
    cases run with
    | nil => exact ⟨rfl, rfl⟩
    | cons line run =>
      have hline := h line mem_cons_self
      have hdrop : ∀ kind, ∀ x ∈ (line :: run).dropWhile (isKind kind), Placed x :=
        fun kind x hx => h x ((dropWhile_suffix _).subset hx)
      rw [emitSideBySideHunk]
      cases hkind : line.kind with
      | context =>
        unfold Placed at hline
        rw [hkind] at hline
        obtain ⟨hleft, hright⟩ := ih (Nat.le_of_succ_le_succ hfuel)
          (fun x hx => h x (mem_cons_of_mem _ hx))
        have hold : line.oldNo ≠ 0 := hline.1.mpr (by decide)
        have hnew : line.newNo ≠ 0 := hline.2.mpr (by decide)
        have hrow : emitContext line = ⟨some line, some line⟩ := by
          rw [emitContext, if_neg hnew, if_neg hold]
        rw [hrow, @sideLines_cons .old line hold, @sideLines_cons .new line hnew]
        exact ⟨congrArg (line :: ·) hleft, congrArg (line :: ·) hright⟩
      | added =>
        obtain ⟨hleft, hright⟩ := ih (length_run hkind hfuel) (hdrop .added)
        obtain ⟨hold, hnew⟩ := added_run h
        rw [filterMap_append, filterMap_append, hleft, hright, filterMap_map, filterMap_map, hold, hnew]
        exact ⟨congrArg (· ++ _) (filterMap_eq_nil_iff.mpr (fun _ _ => rfl)),
          congrArg (· ++ _) filterMap_some⟩
      | removed =>
        have hshorter := length_run hkind hfuel
        have hfollowing := hdrop .removed
        obtain ⟨hold, hnew⟩ := removed_run h
        obtain ⟨hold', hnew'⟩ := added_run hfollowing
        obtain ⟨hleft, hright⟩ := ih
          (Nat.le_trans (dropWhile_suffix (isKind .added)).length_le hshorter)
          (fun x hx => hfollowing x ((dropWhile_suffix _).subset hx))
        obtain ⟨hblockLeft, hblockRight⟩ := emitSideBySideChangeBlock_columns costs
          ((line :: run).takeWhile (isKind .removed))
          (((line :: run).dropWhile (isKind .removed)).takeWhile (isKind .added))
        rw [filterMap_append, filterMap_append, hleft, hright, hblockLeft, hblockRight, hold,
          hnew, hold', hnew']
        exact ⟨rfl, rfl⟩

end Weave

/-! ### Both sides of a diff -/

variable {o n : Nat} {run : List Line}

theorem Numbered.each (h : Numbered o n run) : ∀ line ∈ run, line.inHunk = true ∧ Placed line := by
  induction run generalizing o n with
  | nil => exact forall_mem_nil _
  | cons first run ih =>
    obtain ⟨hmark, h⟩ := h
    have hfirst : Placed first ∧ ∃ o n, Numbered o n run := by
      unfold Placed
      cases hkind : first.kind with
      | context | added | removed =>
        rw [hkind] at h
        obtain ⟨hold, hnew, h⟩ := h
        rw [hold, hnew]
        exact ⟨⟨by simp, by simp⟩, _, _, h⟩
    obtain ⟨hplaced, _, _, hrun⟩ := hfirst
    intro line hline
    obtain rfl | hline := mem_cons.mp hline
    · exact ⟨hmark, hplaced⟩
    · exact ih hrun line hline

theorem Numbered.sides (h : Numbered o n run) :
    (sideLines .old run).map (sideNo .old) = List.range' (o + 1) (sideLines .old run).length ∧
      (sideLines .new run).map (sideNo .new) = List.range' (n + 1) (sideLines .new run).length := by
  induction run generalizing o n with
  | nil => exact ⟨rfl, rfl⟩
  | cons first run ih =>
    obtain ⟨-, h⟩ := h
    cases hkind : first.kind with
    | context =>
      rw [hkind] at h
      obtain ⟨hold, hnew, h⟩ := h
      change sideNo .old first = o + 1 at hold
      change sideNo .new first = n + 1 at hnew
      obtain ⟨ihold, ihnew⟩ := ih h
      rw [sideLines_cons (by rw [hold]; exact Nat.succ_ne_zero o),
        sideLines_cons (by rw [hnew]; exact Nat.succ_ne_zero n), map_cons, map_cons, ihold,
        ihnew, hold, hnew]
      exact ⟨range'_succ.symm, range'_succ.symm⟩
    | added =>
      rw [hkind] at h
      obtain ⟨hold, hnew, h⟩ := h
      change sideNo .old first = 0 at hold
      change sideNo .new first = n + 1 at hnew
      obtain ⟨ihold, ihnew⟩ := ih h
      rw [sideLines_skip hold, sideLines_cons (by rw [hnew]; exact Nat.succ_ne_zero n), map_cons,
        ihold, ihnew, hnew]
      exact ⟨rfl, range'_succ.symm⟩
    | removed =>
      rw [hkind] at h
      obtain ⟨hold, hnew, h⟩ := h
      change sideNo .old first = o + 1 at hold
      change sideNo .new first = 0 at hnew
      obtain ⟨ihold, ihnew⟩ := ih h
      rw [sideLines_cons (by rw [hold]; exact Nat.succ_ne_zero o), sideLines_skip hnew, map_cons,
        ihold, ihnew, hold]
      exact ⟨range'_succ.symm, rfl⟩

theorem ValidHunk.sided (h : ValidHunk o n hunk) : Sided .old o hunk ∧ Sided .new n hunk := by
  obtain ⟨hold, hnew⟩ := h.numbered.sides
  rw [← h.oldCount] at hold
  rw [← h.newCount] at hnew
  have hmarked := fun line hline => (h.numbered.each line hline).1
  exact ⟨⟨hold, h.oldStart, hmarked⟩, ⟨hnew, h.newStart, hmarked⟩⟩

theorem ValidHunk.blocks (h : ValidHunk o n hunk) :
    sideLines .old hunk.lines ≠ [] ∨ sideLines .new hunk.lines ≠ [] := by
  obtain ⟨line, hline⟩ := exists_mem_of_ne_nil _ h.nonempty
  obtain ⟨-, hold, hnew⟩ := h.numbered.each line hline
  by_cases hkind : line.kind = .added
  · have hmem : line ∈ sideLines .new hunk.lines :=
      mem_filter.mpr ⟨hline, bne_iff_ne.mpr (hnew.mpr (by rw [hkind]; decide))⟩
    exact .inr (ne_nil_of_mem hmem)
  · have hmem : line ∈ sideLines .old hunk.lines :=
      mem_filter.mpr ⟨hline, bne_iff_ne.mpr (hold.mpr hkind)⟩
    exact .inl (ne_nil_of_mem hmem)

/-- Two unchanged Lines that correspond under the Hunks, behind `o` old and `n` new Lines. -/
def Same (o n : Nat) (hunks : List Hunk) (l r : Line) : Prop :=
  o < l.oldNo ∧ l.text = r.text ∧ counterpart o n hunks l.oldNo = r.newNo

theorem gapLines_same (k : Nat) (gap : List Bytes)
    (h : ∀ i, i ≤ k + gap.length → counterpart o n hunks (o + i) = n + i) :
    List.Forall₂ (Same o n hunks) (gapLines .old (o + k) gap) (gapLines .new (n + k) gap) := by
  induction gap generalizing k with
  | nil => exact .nil
  | cons text gap ih =>
    rw [length_cons] at h
    refine .cons ⟨?_, rfl, h (k + 1) (by omega)⟩ (ih (k + 1) (fun i hi => h i (by omega)))
    change o < o + k + 1
    omega

theorem ValidHunk.counterpart_eq (h : ValidHunk o n hunk) (o' n' i : Nat) :
    counterpart o' n' (hunk :: hunks) i =
      if o + hunk.oldCount < i then
        counterpart (o + hunk.oldCount) (n + hunk.newCount) hunks i
      else n' + (i - o') := by
  have hlast : (if hunk.oldCount = 0 then hunk.oldStart else hunk.oldStart + hunk.oldCount - 1) =
      o + hunk.oldCount := by
    rw [h.oldStart]
    split <;> omega
  have hnewLast : (if hunk.newCount = 0 then hunk.newStart else hunk.newStart + hunk.newCount - 1) =
      n + hunk.newCount := by
    rw [h.newStart]
    split <;> omega
  rw [counterpart, hlast, hnewLast]

theorem Unified.layout {old new : List Bytes} (h : Unified o n hunks old new) :
    ∃ laid tail laid' tail', LaidOut .old o hunks old laid tail ∧
      LaidOut .new n hunks new laid' tail' ∧ Facing (Same o n hunks) laid laid' tail tail' := by
  induction h with
  | done o n common =>
    refine ⟨_, _, _, _, .tail o common, .tail n common, .tail (gapLines_same 0 common ?_)⟩
    intro i _
    rw [counterpart, Nat.add_sub_cancel_left]
  | @hunk o n hunk hunks old new gap hvalid _ ih =>
    obtain ⟨laid, tail, laid', tail', hold, hnew, hfacing⟩ := ih
    obtain ⟨hsided, hsided'⟩ := hvalid.sided
    refine ⟨_, _, _, _, .piece gap hsided hold, .piece gap hsided' hnew,
      .piece (gapLines_same 0 gap ?_) hvalid.blocks (hfacing.mono ?_)⟩
    · intro i hi
      rw [hvalid.counterpart_eq, if_neg (by omega), Nat.add_sub_cancel_left]
    rintro l r ⟨hbehind, htext, hnumber⟩
    refine ⟨by omega, htext, ?_⟩
    rw [hvalid.counterpart_eq, if_pos hbehind]
    exact hnumber

theorem Unified.each {old new : List Bytes} (h : Unified o n hunks old new) :
    ∀ hunk ∈ hunks, ∀ line ∈ hunk.lines, line.inHunk = true ∧ Placed line := by
  induction h with
  | done => exact forall_mem_nil _
  | hunk gap hvalid _ ih =>
    intro hunk hhunk
    obtain rfl | hhunk := mem_cons.mp hhunk
    · exact hvalid.numbered.each
    · exact ih hunk hhunk

/-! ### The view -/

section Weave

variable {F : Type} (costs : MatchCosts F) {file : File} {old new : List Bytes}

theorem LaidOut.blocks_nil (h : LaidOut side m hunks [] laid tail) :
    ∀ hunk ∈ hunks, sideLines side hunk.lines = [] := by
  induction hunks generalizing m laid with
  | nil => exact forall_mem_nil _
  | cons first hunks ih =>
    obtain ⟨content, hcontent⟩ : ∃ content : List Bytes, content = [] := ⟨_, rfl⟩
    rw [← hcontent] at h
    cases h with
    | piece gap hsided hrest =>
      obtain ⟨hfirst, hnil⟩ := append_eq_nil_iff.mp hcontent
      rw [hnil] at hrest
      intro hunk hhunk
      obtain rfl | hhunk := mem_cons.mp hhunk
      · exact map_eq_nil_iff.mp (append_eq_nil_iff.mp hfirst).2
      · exact ih hrest hunk hhunk

theorem fill_nil (side : SelectedVersion) (steps cursor : Nat) : fill side [] steps cursor = [] := by
  cases cursor with
  | zero => exact fill_zero side [] steps
  | succ cursor =>
    rw [fill_drop, drop_nil, take_nil]
    rfl

theorem spliceFrom_nil (h : ∀ hunk ∈ hunks, sideLines side hunk.lines = []) (cursor : Nat) :
    spliceFrom side [] cursor hunks = [] := by
  induction hunks generalizing cursor with
  | nil => exact fill_nil side _ cursor
  | cons hunk hunks ih =>
    rw [spliceFrom, fill_nil, h hunk mem_cons_self,
      ih (fun hunk hhunk => h hunk (mem_cons_of_mem _ hhunk))]
    rfl

theorem spliced_getD {blob : Option Bytes}
    (h : LaidOut side 0 file.hunks (splitBlobLines (blob.getD [])) laid tail) :
    ((wholeFileUsableContent blob).map (fun blob => spliceSide file blob side)).getD [] =
      spliceSide file (blob.getD []) side := by
  have hempty : splitBlobLines [] = splitBlobLines (blob.getD []) → [] = spliceSide file [] side := by
    intro hlines
    rw [← hlines] at h
    exact (spliceFrom_nil h.blocks_nil 1).symm
  cases blob with
  | none => exact hempty rfl
  | some bytes =>
    cases bytes with
    | nil => exact hempty rfl
    | cons b bytes => rfl

theorem emitWholeFileSideHunk_columns (run : List Line) :
    (emitWholeFileSideHunk run .old).filterMap LinePair.left = sideLines .old run ∧
      (emitWholeFileSideHunk run .old).filterMap LinePair.right = [] ∧
        (emitWholeFileSideHunk run .new).filterMap LinePair.left = [] ∧
          (emitWholeFileSideHunk run .new).filterMap LinePair.right = sideLines .new run := by
  unfold emitWholeFileSideHunk
  rw [filterMap_map, filterMap_map, filterMap_map, filterMap_map]
  exact ⟨filterMap_some, filterMap_eq_nil_iff.mpr (fun _ _ => rfl),
    filterMap_eq_nil_iff.mpr (fun _ _ => rfl), filterMap_some⟩

theorem emitHunk_columns (h : DiffOf file old new) : ∀ hunk ∈ file.hunks,
      (emitHunk costs file.status hunk).filterMap LinePair.left = sideLines .old hunk.lines ∧
        (emitHunk costs file.status hunk).filterMap LinePair.right = sideLines .new hunk.lines := by
  intro hunk hhunk
  obtain ⟨laid, tail, laid', tail', hold, hnew, -⟩ := h.unified.layout
  obtain ⟨holdLeft, holdRight, hnewLeft, hnewRight⟩ := emitWholeFileSideHunk_columns hunk.lines
  have hplaced := fun line hline => (h.unified.each hunk hhunk line hline).2
  cases hstatus : file.status with
  | added =>
    rw [h.added hstatus] at hold
    rw [hold.blocks_nil hunk hhunk]
    exact ⟨hnewLeft, hnewRight⟩
  | removed =>
    rw [h.removed hstatus] at hnew
    rw [hnew.blocks_nil hunk hhunk]
    exact ⟨holdLeft, holdRight⟩
  | modified | renamed => exact emitSideBySideHunk_columns costs (Nat.le_refl _) hplaced

variable {status : FileStatus}

theorem emitWholeFileHunks_columns (oldLines newLines : List Line) (h : ∀ hunk ∈ hunks,
      (emitHunk costs status hunk).filterMap LinePair.left = sideLines .old hunk.lines ∧
        (emitHunk costs status hunk).filterMap LinePair.right = sideLines .new hunk.lines) :
    (emitWholeFileHunks costs status oldLines newLines hunks).filterMap LinePair.left =
        Lib.walk Line.inHunk oldLines (hunks.map (fun hunk => sideLines .old hunk.lines)) ∧
      (emitWholeFileHunks costs status oldLines newLines hunks).filterMap LinePair.right =
        Lib.walk Line.inHunk newLines (hunks.map (fun hunk => sideLines .new hunk.lines)) := by
  induction hunks generalizing oldLines newLines with
  | nil => exact ⟨pairUp_left oldLines newLines, pairUp_right oldLines newLines⟩
  | cons hunk hunks ih =>
    obtain ⟨hleft, hright⟩ := h hunk mem_cons_self
    obtain ⟨ihleft, ihright⟩ := ih (passHunk oldLines) (passHunk newLines)
      (fun hunk hhunk => h hunk (mem_cons_of_mem _ hhunk))
    rw [emitWholeFileHunks, emitWholeFileGap, filterMap_append, filterMap_append,
      filterMap_append, filterMap_append, pairUp_left, pairUp_right, hleft, hright, ihleft,
      ihright]
    exact ⟨rfl, rfl⟩

/-- A row with both sides is one of a Hunk, or one that the two walks pair. -/
theorem emitWholeFileHunks_both {oldLines newLines : List Line} {row : LinePair}
    (hrow : row ∈ emitWholeFileHunks costs status oldLines newLines hunks) {l r : Line}
    (hl : row.left = some l) (hr : row.right = some r) :
    (∃ hunk ∈ hunks, row ∈ emitHunk costs status hunk) ∨
      (l, r) ∈ meets Line.inHunk Line.inHunk hunks.length oldLines newLines := by
  induction hunks generalizing oldLines newLines with
  | nil => exact .inr (pairUp_both hrow hl hr)
  | cons hunk hunks ih =>
    rw [emitWholeFileHunks, mem_append, mem_append] at hrow
    obtain (hrow | hrow) | hrow := hrow
    · exact .inr (mem_append_left _ (pairUp_both hrow hl hr))
    · exact .inl ⟨hunk, mem_cons_self, hrow⟩
    · obtain ⟨other, hother, hrow⟩ | hmeets := ih hrow
      · exact .inl ⟨other, mem_cons_of_mem _ hother, hrow⟩
      · exact .inr (mem_append_right _ hmeets)

end Weave

theorem LaidOut.walk_iff (h : LaidOut side 0 hunks content laid tail) :
    Lib.walk Line.inHunk (flat laid tail) (hunks.map (fun hunk => sideLines side hunk.lines)) =
        flat laid tail ↔ Steady side content.length hunks := by
  rw [← h.blocks, walk_eq_iff h.marked]
  exact h.inStep_iff (Nat.zero_add _)

/-- The view shows both contents, with unchanged Lines beside their counterparts, if and only if the
Hunks can be followed. -/
theorem showsWholeFile_iff {F : Type} (costs : MatchCosts F) (file : File) (old new : Option Bytes)
    (h : DiffOf file (splitBlobLines (old.getD [])) (splitBlobLines (new.getD []))) :
    ShowsWholeFile costs file old new ↔
      Followed file.hunks (splitBlobLines (old.getD [])) (splitBlobLines (new.getD [])) := by
  obtain ⟨laid, tail, laid', tail', hold, hnew, hfacing⟩ := h.unified.layout
  have hrows : wholeFileRows costs file old new = emitWholeFileHunks costs file.status
      (spliceSide file (old.getD []) .old) (spliceSide file (new.getD []) .new) file.hunks := by
    rw [wholeFileRows, emitSideBySideWholeFile, spliced_getD hold, spliced_getD hnew]
  have hhunk := emitHunk_columns costs h
  obtain ⟨hleft, hright⟩ := emitWholeFileHunks_columns costs (spliceSide file (old.getD []) .old)
    (spliceSide file (new.getD []) .new) hhunk
  rw [← hrows] at hleft hright
  constructor
  · intro hshows
    have holdCursor := (showsSide_iff hold).mp hshows.oldSide
    have hnewCursor := (showsSide_iff hnew).mp hshows.newSide
    have holdWalk := hleft.symm.trans hshows.left
    have hnewWalk := hright.symm.trans hshows.right
    rw [(spliceSide_eq_iff hold).mpr holdCursor] at holdWalk
    rw [(spliceSide_eq_iff hnew).mpr hnewCursor] at hnewWalk
    exact ⟨holdCursor, hnewCursor, hold.walk_iff.mp holdWalk, hnew.walk_iff.mp hnewWalk⟩
  · intro hfollowed
    have holdFlat := (spliceSide_eq_iff hold).mpr hfollowed.oldCursor
    have hnewFlat := (spliceSide_eq_iff hnew).mpr hfollowed.newCursor
    have holdWalk := hold.walk_iff.mpr hfollowed.oldSteady
    have hnewWalk := hnew.walk_iff.mpr hfollowed.newSteady
    refine ⟨(showsSide_iff hold).mpr hfollowed.oldCursor,
      (showsSide_iff hnew).mpr hfollowed.newCursor, ?_, ?_, ?_⟩
    · rw [hleft, holdFlat, holdWalk]
    · rw [hright, hnewFlat, hnewWalk]
    · intro row hrow l r hl hr hgap
      rw [hrows] at hrow
      obtain ⟨hunk, hmem, hrow⟩ | hmeets := emitWholeFileHunks_both costs hrow hl hr
      · obtain ⟨hcolumn, hcolumn'⟩ := hhunk hunk hmem
        have hlmem : l ∈ sideLines .old hunk.lines := by
          rw [← hcolumn]
          exact mem_filterMap.mpr ⟨row, hrow, hl⟩
        have hrmem : r ∈ sideLines .new hunk.lines := by
          rw [← hcolumn']
          exact mem_filterMap.mpr ⟨row, hrow, hr⟩
        have hlmark := (h.unified.each hunk hmem l (mem_of_mem_filter hlmem)).1
        have hrmark := (h.unified.each hunk hmem r (mem_of_mem_filter hrmem)).1
        rw [hlmark, hrmark] at hgap
        obtain hgap | hgap := hgap <;> cases hgap
      · have hlength : file.hunks.length = laid.length := by
          rw [← length_map Prod.snd, hold.blocks, length_map]
        rw [holdFlat, hnewFlat, hlength] at hmeets
        have hsame := meets_same hfacing hold.marked hnew.marked
          ((hold.inStep_iff (Nat.zero_add _)).mpr hfollowed.oldSteady)
          ((hnew.inStep_iff (Nat.zero_add _)).mpr hfollowed.newSteady) (l, r) hmeets
        exact hsame.2

/-- Costs that tell equal texts from texts without anything in common. -/
def plainCosts : MatchCosts Int where
  matchingSimilarity old new := if old = new then 1 else 0
  zero := 0
  plusOne cost := cost + 1
  minus cost score := cost - score
  atLeastThreshold score := decide (1 ≤ score)
  tiny delta := decide (delta = 0)
  negative delta := decide (delta < 0)

/-- The second Line of `a`, `b` becomes `x`. -/
def changed : File where
  oldPath := [102]
  newPath := [102]
  status := .modified
  hunks := [⟨2, 1, 2, 1, [], [⟨2, 0, .removed, [98], true⟩, ⟨0, 2, .added, [120], true⟩]⟩]

theorem changed_diffOf : DiffOf changed [[97], [98]] [[97], [120]] where
  unified := .hunk [[97]]
    ⟨⟨rfl, rfl, rfl, rfl, rfl, rfl, trivial⟩, List.cons_ne_nil _ _, rfl, rfl, rfl, rfl⟩
    (.done 2 2 [])
  added h := by cases h
  removed h := by cases h

theorem showsWholeFile_changed :
    ShowsWholeFile plainCosts changed (some [97, 10, 98, 10]) (some [97, 10, 120, 10]) :=
  (showsWholeFile_iff plainCosts changed (some [97, 10, 98, 10]) (some [97, 10, 120, 10])
    changed_diffOf).mpr
    ⟨by simp [Spliceable, changed, sideStart, sideCount],
      by simp [Spliceable, changed, sideStart, sideCount], ⟨trivial, trivial⟩, ⟨trivial, trivial⟩⟩

/-- A Line `x` is inserted above `a`, without context. -/
def inserted : File where
  oldPath := [102]
  newPath := [102]
  status := .modified
  hunks := [⟨0, 0, 1, 1, [], [⟨0, 1, .added, [120], true⟩]⟩]

theorem inserted_diffOf : DiffOf inserted [[97]] [[120], [97]] where
  unified := .hunk [] ⟨⟨rfl, rfl, rfl, trivial⟩, List.cons_ne_nil _ _, rfl, rfl, rfl, rfl⟩
    (.done 0 1 [[97]])
  added h := by cases h
  removed h := by cases h

/-- The old content is not shown at all. -/
theorem showsWholeFile_inserted :
    DiffOf inserted (splitBlobLines [97, 10]) (splitBlobLines [120, 10, 97, 10]) ∧
      ¬ShowsWholeFile plainCosts inserted (some [97, 10]) (some [120, 10, 97, 10]) := by
  refine ⟨inserted_diffOf, fun hshows => ?_⟩
  have htexts := hshows.oldSide.texts
  revert htexts
  decide

end Bbr.Tui
