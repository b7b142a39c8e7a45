import Bbr.Tui.Intraline

/-!
# Changed runs of a pair of Lines

The lexical parts that a longest common subsequence keeps are common, the others are emphasized, and
neighbours of one verdict make up a segment.
-/
namespace Bbr.Tui

open List

/-- Largest product of lexical parts that is compared. -/
def workLimit : Nat := 500 * 500

structure Segment where
  text : Bytes
  emphasis : Bool
  deriving DecidableEq, Repr

structure SegmentPair where
  old : List Segment
  new : List Segment
  wholeLine : Bool := false
  deriving DecidableEq, Repr

inductive Direction where
  | common | skipOld | skipNew
  deriving DecidableEq, Repr

/-- The lengths for one old part, from those of the part behind it, and the directions; the cells
stand for what is left of the new parts. -/
def directionRow (old : Bytes) : List Bytes → List Nat → List Nat × List Direction
  | [], _ => ([0], [])
  | new :: parts, next =>
    let row := directionRow old parts next.tail
    if old = new then ((next.tail.headD 0 + 1) :: row.1, .common :: row.2)
    else if row.1.headD 0 ≤ next.headD 0 then (next.headD 0 :: row.1, .skipOld :: row.2)
    else (row.1.headD 0 :: row.1, .skipNew :: row.2)

def directions (newParts : List Bytes) : List Bytes → List Nat × List (List Direction)
  | [] => (List.replicate (newParts.length + 1) 0, [])
  | old :: oldParts =>
    let below := directions newParts oldParts
    let row := directionRow old newParts below.1
    (row.1, row.2 :: below.2)

/-- Marks the common parts; every step passes a part. -/
def walk (rows : List (List Direction)) : Nat → Nat → Nat → List Bool → List Bool →
    List Bool × List Bool
  | 0, _, _, oldMatched, newMatched => (oldMatched, newMatched)
  | fuel + 1, oi, ni, oldMatched, newMatched =>
    match rows[oi]?.bind (fun row => row[ni]?) with
    | none => (oldMatched, newMatched)
    | some .common => walk rows fuel (oi + 1) (ni + 1) (oldMatched.set oi true) (newMatched.set ni true)
    | some .skipOld => walk rows fuel (oi + 1) ni oldMatched newMatched
    | some .skipNew => walk rows fuel oi (ni + 1) oldMatched newMatched

/-- At most `fuel` runs of parts with one verdict. -/
def segmentsFrom : Nat → List (Bytes × Bool) → List Segment
  | 0, _ => []
  | _, [] => []
  | fuel + 1, (part, matched) :: parts =>
    { text := part ++ (parts.takeWhile (fun p => decide (p.2 = matched))).flatMap Prod.fst
      emphasis := !matched } ::
      segmentsFrom fuel (parts.dropWhile (fun p => decide (p.2 = matched)))

def segmentsFor (parts : List Bytes) (matched : List Bool) : List Segment :=
  segmentsFrom parts.length (parts.zip matched)

def wholeLine (text : Bytes) : List Segment :=
  if text = [] then [] else [{ text := text, emphasis := true }]

/-- The source's `diff`. -/
def wordDiff (oldText newText : Bytes) : SegmentPair :=
  if workLimit < lexicalPartCount none oldText * lexicalPartCount none newText then
    { old := wholeLine oldText, new := wholeLine newText, wholeLine := true }
  else
    let old := tokenize oldText
    let new := tokenize newText
    let matched := walk (directions new old).2 (old.length + new.length) 0 0
      (List.replicate old.length false) (List.replicate new.length false)
    { old := segmentsFor old matched.1, new := segmentsFor new matched.2 }

/-- Segments with bytes that make up the Line. -/
structure Partition (text : Bytes) (segments : List Segment) : Prop where
  flat : segments.flatMap Segment.text = text
  nonempty : ∀ segment ∈ segments, segment.text ≠ []

theorem walk_length {rows : List (List Direction)} {fuel oi ni : Nat} {old new : List Bool} :
    (walk rows fuel oi ni old new).1.length = old.length ∧
      (walk rows fuel oi ni old new).2.length = new.length := by
  induction fuel generalizing oi ni old new with
  | zero => exact ⟨rfl, rfl⟩
  | succ fuel ih =>
    rw [walk]
    split
    · exact ⟨rfl, rfl⟩
    · simpa using @ih (oi + 1) (ni + 1) (old.set oi true) (new.set ni true)
    · exact ih
    · exact ih

variable {parts : List (Bytes × Bool)}

theorem segmentsFrom_flatMap {fuel : Nat} (h : parts.length ≤ fuel) :
    (segmentsFrom fuel parts).flatMap Segment.text = parts.flatMap Prod.fst := by
  induction fuel generalizing parts with
  | zero => simp [segmentsFrom, length_eq_zero_iff.mp (Nat.le_zero.mp h)]
  | succ fuel ih =>
    cases parts with
    | nil => rfl
    | cons p parts =>
      obtain ⟨part, matched⟩ := p
      have hlen := (dropWhile_sublist (l := parts) (fun p => decide (p.2 = matched))).length_le
      rw [length_cons] at h
      rw [segmentsFrom, flatMap_cons, ih (by omega), append_assoc, ← flatMap_append,
        takeWhile_append_dropWhile]
      rfl

theorem segmentsFrom_nonempty {fuel : Nat} (h : ∀ p ∈ parts, p.1 ≠ []) :
    ∀ segment ∈ segmentsFrom fuel parts, segment.text ≠ [] := by
  induction fuel generalizing parts with
  | zero => simp [segmentsFrom]
  | succ fuel ih =>
    cases parts with
    | nil => simp [segmentsFrom]
    | cons p parts =>
      obtain ⟨part, matched⟩ := p
      refine forall_mem_cons.mpr ⟨?_, ih (fun p hp => ?_)⟩
      · simp [h (part, matched) mem_cons_self]
      · exact h p (mem_cons_of_mem _ ((dropWhile_sublist _).mem hp))

variable {text : Bytes}

theorem tokenizeFrom_nonempty {fuel : Nat} : ∀ part ∈ tokenizeFrom fuel text, part ≠ [] := by
  induction fuel generalizing text with
  | zero => simp [tokenizeFrom]
  | succ fuel ih =>
    cases text with
    | nil => simp [tokenizeFrom]
    | cons b text =>
      rw [tokenizeFrom]
      split
      · exact forall_mem_cons.mpr ⟨by simp, ih⟩
      · exact forall_mem_cons.mpr ⟨by simp, ih⟩

theorem segmentsFor_partition {matched : List Bool} (h : matched.length = (tokenize text).length) :
    Partition text (segmentsFor (tokenize text) matched) where
  flat := by
    have hzip : ((tokenize text).zip matched).flatMap Prod.fst = (tokenize text).flatten := by
      rw [flatMap_def, map_fst_zip (by omega)]
    rw [segmentsFor, segmentsFrom_flatMap (by simp), hzip, tokenize_flatten]
  nonempty := segmentsFrom_nonempty (fun _ hp => tokenizeFrom_nonempty _ (of_mem_zip hp).1)

theorem wholeLine_partition (text : Bytes) : Partition text (wholeLine text) := by
  rw [wholeLine]
  split
  · next h => exact ⟨h.symm, by simp⟩
  · next h => exact ⟨by simp, by simpa using h⟩

theorem wordDiff_partition (oldText newText : Bytes) :
    Partition oldText (wordDiff oldText newText).old ∧
      Partition newText (wordDiff oldText newText).new := by
  rw [wordDiff]
  split
  · exact ⟨wholeLine_partition oldText, wholeLine_partition newText⟩
  · exact ⟨segmentsFor_partition (by simp [walk_length]), segmentsFor_partition (by simp [walk_length])⟩

end Bbr.Tui
