import Bbr.Diff.RoundTrip
import Bbr.Lib.Edits
import Bbr.Review.Anchor

/-!
# Anchors follow the text

A transition is an edit script from the old content to the new one, told by the Hunks of a unified
diff with any amount of context. The image of an old line is where its text went. The mapping of the
resolver is the image, except that lines inserted without context push the line before them.
-/
namespace Bbr.Review

open Bbr.Diff Bbr.Lib List Option

/-- A printed line as an edit of the text. -/
def edit (l : PrintedLine) : Edit Bytes :=
  match l.kind with
  | .context => .keep l.text
  | .added => .insert l.text
  | .removed => .delete l.text

/-- The Hunk stands at old line `o` and new line `n` and lists the lines of its body. A count of 0
names the line before. -/
structure Stands (o n : Nat) (hunk : Hunk) (body : List PrintedLine) : Prop where
  oldCount : hunk.oldCount = oldLines body
  newCount : hunk.newCount = newLines body
  oldStart : hunk.oldStart = if hunk.oldCount = 0 then o - 1 else o
  newStart : hunk.newStart = if hunk.newCount = 0 then n - 1 else n
  lines : hunk.lines = numberLines hunk.oldStart hunk.newStart body

/-- The Hunks tell the script from old line `o` and new line `n` on; outside of them every line is
kept. -/
inductive Covers : Nat → Nat → List (Edit Bytes) → List Hunk → Prop where
  | done (o n : Nat) : Covers o n [] []
  | keep {o n : Nat} {script : List (Edit Bytes)} {hunks : List Hunk} (text : Bytes) :
    Covers (o + 1) (n + 1) script hunks → Covers o n (.keep text :: script) hunks
  | hunk {o n : Nat} {script : List (Edit Bytes)} {hunks : List Hunk} {hunk : Hunk}
    {body : List PrintedLine} : Stands o n hunk body →
    Covers (o + hunk.oldCount) (n + hunk.newCount) script hunks →
    Covers o n (body.map edit ++ script) (hunk :: hunks)

/-- The diff of two trees as far as one old path is concerned: an edit script between the contents,
and the Hunks of the File with that old path, or none. Contents have 32-bit line numbers. -/
structure Transition (diff : Diff) (path : Bytes) (old new : List Bytes) where
  script : List (Edit Bytes)
  hunks : List Hunk
  fromOld : source script = old
  toNew : target script = new
  covers : Covers 1 1 script hunks
  unchanged : diff.files.find? (fun file => file.oldPath = path) = none → hunks = []
  listed : ∀ file, diff.files.find? (fun file => file.oldPath = path) = some file →
    file.hunks = hunks
  removed : ∀ file, diff.files.find? (fun file => file.oldPath = path) = some file →
    file.status = .removed → new = []
  oldBound : old.length + 1 < u32Limit
  newBound : new.length + 1 < u32Limit

/-- Where the text of an old line went. -/
def Transition.image {diff : Diff} {path : Bytes} {old new : List Bytes}
    (tr : Transition diff path old new) (line : Nat) : Option Nat := imageFrom 1 1 tr.script line

/-- An old line has the same text in the new content, where its image is. -/
theorem Transition.image_text {diff : Diff} {path : Bytes} {old new : List Bytes} {line image : Nat}
    (tr : Transition diff path old new) (h : tr.image line = some image) :
    ∃ text, old[line - 1]? = some text ∧ new[image - 1]? = some text := by
  obtain ⟨text, hold, hnew⟩ := imageFrom_same h
  rw [tr.fromOld] at hold
  rw [tr.toNew] at hnew
  exact ⟨text, hold, hnew⟩

/-- The line is among the old lines that a Hunk lists. -/
def Listed (hunks : List Hunk) (line : Nat) : Prop :=
  ∃ hunk ∈ hunks, hunk.oldStart ≤ line ∧ line < hunk.oldStart + hunk.oldCount

instance (hunks : List Hunk) (line : Nat) : Decidable (Listed hunks line) :=
  inferInstanceAs (Decidable (∃ hunk ∈ hunks, _))

/-- How many lines are inserted right behind the line by Hunks that list no old line. -/
def insertedBehind : List Hunk → Nat → Nat
  | [], _ => 0
  | hunk :: rest, line =>
    (if hunk.oldCount = 0 ∧ hunk.oldStart = line then hunk.newCount else 0) +
      insertedBehind rest line

/-- How far the resolver pushes a line too much. -/
def push (hunks : List Hunk) (line : Nat) : Nat :=
  if Listed hunks line then 0 else insertedBehind hunks line

variable (body : List PrintedLine)

theorem source_edits : (source (body.map edit)).length = oldLines body := by
  induction body with
  | nil => rfl
  | cons l rest ih =>
    unfold oldLines at ih ⊢
    cases hk : l.kind <;> simp [edit, hk, source, ih]

theorem target_edits : (target (body.map edit)).length = newLines body := by
  induction body with
  | nil => rfl
  | cons l rest ih =>
    unfold newLines at ih ⊢
    cases hk : l.kind <;> simp [edit, hk, target, ih]

variable {o n t : Nat} {script : List (Edit Bytes)} {hunks : List Hunk}

theorem Covers.starts (h : Covers o n script hunks) : ∀ hunk ∈ hunks, o ≤ hunk.oldStart + 1 := by
  induction h with
  | done o n => simp
  | keep text h ih =>
    intro hunk hm
    have hle := ih hunk hm
    omega
  | hunk hs h ih =>
    intro hunk hm
    rw [mem_cons] at hm
    obtain rfl | hm := hm
    · rw [hs.oldStart]
      split <;> omega
    · have hle := ih hunk hm
      omega

theorem insertedBehind_cons (hunk : Hunk) (hunks : List Hunk) (line : Nat) :
    insertedBehind (hunk :: hunks) line =
      (if hunk.oldCount = 0 ∧ hunk.oldStart = line then hunk.newCount else 0) +
        insertedBehind hunks line := rfl

theorem insertedBehind_zero {line : Nat} (h : ∀ hunk ∈ hunks, line < hunk.oldStart) :
    insertedBehind hunks line = 0 := by
  induction hunks with
  | nil => rfl
  | cons hunk rest ih =>
    have hfirst := h hunk mem_cons_self
    rw [insertedBehind_cons, ih (fun g hg => h g (mem_cons_of_mem _ hg)), if_neg]
    rintro ⟨-, he⟩
    omega

theorem listed_cons (hunk : Hunk) (hunks : List Hunk) (line : Nat) : Listed (hunk :: hunks) line ↔
      (hunk.oldStart ≤ line ∧ line < hunk.oldStart + hunk.oldCount) ∨ Listed hunks line := by
  simp [Listed]

/-- Before the line in front of `o` no Hunk lists or names anything. -/
theorem Covers.before (h : Covers o n script hunks) (ht : t + 1 < o) :
    ¬ Listed hunks t ∧ insertedBehind hunks t = 0 := by
  have hstarts := h.starts
  constructor
  · rintro ⟨hunk, hm, hle, -⟩
    have hs := hstarts hunk hm
    omega
  · apply insertedBehind_zero
    intro hunk hm
    have hs := hstarts hunk hm
    omega

theorem Covers.not_listed (h : Covers o n script hunks) (ht : t + 1 = o) : ¬ Listed hunks t := by
  induction h with
  | done o n => simp [Listed]
  | keep text h ih => exact (h.before (by omega)).1
  | @hunk o n script hunks hunk body hs h ih =>
    rw [listed_cons]
    rintro (⟨hle, hlt⟩ | hl)
    · have hstart := hs.oldStart
      split at hstart <;> omega
    · by_cases hc : hunk.oldCount = 0
      · exact ih (by omega) hl
      · exact (h.before (by omega)).1 hl

theorem Covers.mapFrom_before (h : Covers o n script hunks) (ht : t + 1 < o) (delta : Int) :
    mapFrom delta hunks t = .ok (applyDelta t delta) := by
  have hstarts := h.starts
  cases hunks with
  | nil => rfl
  | cons hunk rest =>
    have hs := hstarts hunk mem_cons_self
    unfold mapFrom
    rw [if_pos (by omega)]

variable {hunk : Hunk}

theorem mapFrom_behind (ht : hunk.oldStart + hunk.oldCount ≤ t) (hb : t < u32Limit) (delta : Int) :
    mapFrom delta (hunk :: hunks) t = mapFrom (delta + (hunk.newCount - hunk.oldCount)) hunks t := by
  have hsum : lineSum hunk.oldStart hunk.oldCount = .ok (hunk.oldStart + hunk.oldCount) :=
    if_pos (by omega)
  rw [mapFrom, if_neg (by omega), hsum]
  exact if_neg (by omega)

/-- The mapping of the line in front of `o`: every Hunk without old lines pushes it. -/
theorem Covers.mapFrom_front (h : Covers o n script hunks) (ht : t + 1 = o) (hb : t < u32Limit) :
    mapFrom ((n : Int) - o) hunks t = .ok (applyDelta t ((n : Int) - o + insertedBehind hunks t)) := by
  induction h with
  | done o n => simp [mapFrom, insertedBehind]
  | keep text h ih =>
    rw [h.mapFrom_before (by omega), (h.before (by omega)).2]
    simp
  | @hunk o n script hunks hunk body hs h ih =>
    have hstart := hs.oldStart
    rw [insertedBehind_cons]
    by_cases hc : hunk.oldCount = 0
    · rw [if_pos hc] at hstart
      have hrest := ih (by omega)
      rw [mapFrom_behind (by omega) hb, if_pos (by omega)]
      have hdelta : (n : Int) - o + (hunk.newCount - hunk.oldCount) =
          ((n + hunk.newCount : Nat) : Int) - ((o + hunk.oldCount : Nat) : Int) := by omega
      rw [hdelta, hrest]
      congr 2
      omega
    · rw [if_neg hc] at hstart
      have hbehind := (h.before (t := t) (by omega)).2
      rw [mapFrom, if_pos (by omega), if_neg (by omega), hbehind]
      simp

theorem applyDelta_eq {a b : Nat} {d e : Int} (h : (a : Int) + d = b + e) :
    applyDelta a d = applyDelta b e := by
  unfold applyDelta
  rw [h]

theorem lineInHunk_numberLines (ho : 1 ≤ o) (hn : 1 ≤ n) (ht : 1 ≤ t) :
    lineInHunk (numberLines o n body) t = imageFrom o n (body.map edit) t := by
  unfold lineInHunk
  induction body generalizing o n with
  | nil => rfl
  | cons l rest ih =>
    have hcontext := ih (o := o + 1) (n := n + 1) (by omega) (by omega)
    have hadded := ih (o := o) (n := n + 1) ho (by omega)
    have hremoved := ih (o := o + 1) (n := n) (by omega) hn
    cases hk : l.kind with
    | context =>
      by_cases hto : o = t
      · have hne : n ≠ 0 := by omega
        simp [numberLines, hk, edit, imageFrom, hto, Line.newLine, hne]
      · have hot : t ≠ o := fun h => hto h.symm
        simpa [numberLines, hk, edit, imageFrom, hto, hot] using hcontext
    | added =>
      have hzero : (0 : Nat) ≠ t := by omega
      simpa [numberLines, hk, edit, imageFrom, hzero] using hadded
    | removed =>
      by_cases hto : o = t
      · simp [numberLines, hk, edit, imageFrom, hto, Line.newLine]
      · have hot : t ≠ o := fun h => hto h.symm
        simpa [numberLines, hk, edit, imageFrom, hto, hot] using hremoved

/-- A Hunk without new lines removes all it lists, whatever its new start. -/
theorem lineInHunk_removed (h : newLines body = 0) (n n' : Nat) :
    lineInHunk (numberLines o n body) t = none ∧ imageFrom o n' (body.map edit) t = none := by
  unfold lineInHunk
  induction body generalizing o with
  | nil => exact ⟨rfl, rfl⟩
  | cons l rest ih =>
    unfold newLines at h ih
    cases hk : l.kind with
    | context | added => simp [hk] at h
    | removed =>
      have hrest := ih (o := o + 1) (by simpa [hk] using h)
      by_cases hto : o = t
      · simp [numberLines, hk, edit, imageFrom, hto, Line.newLine]
      · have hot : t ≠ o := fun h => hto h.symm
        simpa [numberLines, hk, edit, imageFrom, hto, hot] using hrest

variable {body : List PrintedLine}

theorem Stands.lineInHunk_eq (hs : Stands o n hunk body)
    (ho : 1 ≤ o) (hn : 1 ≤ n) (ht : o ≤ t) (hc : hunk.oldCount ≠ 0) :
    lineInHunk hunk.lines t = imageFrom o n (body.map edit) t := by
  have hold := hs.oldStart
  have hnew := hs.newStart
  rw [if_neg hc] at hold
  rw [hs.lines, hold]
  by_cases hz : hunk.newCount = 0
  · rw [if_pos hz] at hnew
    have hnone := lineInHunk_removed (o := o) (t := t) body (hs.newCount ▸ hz) hunk.newStart n
    rw [hnone.1, hnone.2]
  · rw [if_neg hz] at hnew
    rw [hnew]
    exact lineInHunk_numberLines body ho hn (by omega)

theorem push_of_listed (h : Listed hunks t) : push hunks t = 0 := if_pos h

theorem Covers.push_front (h : Covers o n script hunks) (ht : t + 1 = o) :
    push hunks t = insertedBehind hunks t := if_neg (h.not_listed ht)

section

variable (hs : Stands o n hunk body)
include hs

theorem Stands.push_inside (ht : o ≤ t) (hlt : t < o + hunk.oldCount) : push (hunk :: hunks) t = 0 := by
  have hstart := hs.oldStart
  rw [if_neg (by omega)] at hstart
  apply push_of_listed
  rw [listed_cons]
  left
  omega

theorem Stands.push_behind
    (ho : 1 ≤ o) (ht : o + hunk.oldCount ≤ t) : push (hunk :: hunks) t = push hunks t := by
  have hstart := hs.oldStart
  have hnot : ¬ (hunk.oldStart ≤ t ∧ t < hunk.oldStart + hunk.oldCount) := by
    split at hstart <;> omega
  have hname : ¬ (hunk.oldCount = 0 ∧ hunk.oldStart = t) := by
    rintro ⟨hc, he⟩
    rw [if_pos hc] at hstart
    omega
  have hlisted : Listed (hunk :: hunks) t ↔ Listed hunks t := by
    rw [listed_cons, or_iff_right hnot]
  unfold push
  rw [insertedBehind_cons, if_neg hname, Nat.zero_add]
  simp only [hlisted]

theorem Stands.imageFrom_inside (ht : o ≤ t) (hlt : t < o + hunk.oldCount) :
    imageFrom o n (body.map edit ++ script) t = imageFrom o n (body.map edit) t := by
  apply imageFrom_append_left _ _ _ ht
  rw [source_edits, ← hs.oldCount]
  exact hlt

theorem Stands.imageFrom_behind
    (ht : o + hunk.oldCount ≤ t) : imageFrom o n (body.map edit ++ script) t =
      imageFrom (o + hunk.oldCount) (n + hunk.newCount) script t := by
  have happ := imageFrom_append (o := o) (n := n) (t := t) (body.map edit) script
    (by rw [source_edits, ← hs.oldCount]; exact ht)
  rw [happ, source_edits, target_edits, hs.oldCount, hs.newCount]

end

section

variable (h : Covers o n script hunks)
include h

/-- The mapping of an old line is its image, pushed by what is inserted behind it. -/
theorem Covers.mapFrom_eq (ho : 1 ≤ o) (hn : 1 ≤ n) (ht : o ≤ t)
    (hlt : t < o + (source script).length) (hb : o + (source script).length < u32Limit)
    (hbn : n + (target script).length < u32Limit) :
    mapFrom ((n : Int) - o) hunks t =
      .ok ((imageFrom o n script t).bind (fun m => applyDelta m (push hunks t))) := by
  induction h with
  | done o n =>
    simp only [source, length_nil] at hlt
    omega
  | @keep o n script hunks text h ih =>
    simp only [source, target, length_cons] at hlt hb hbn
    have hdelta : (n : Int) - o = ((n + 1 : Nat) : Int) - ((o + 1 : Nat) : Int) := by omega
    by_cases hto : t = o
    · subst hto
      have hfront := h.mapFrom_front rfl (by omega)
      rw [hdelta, hfront, h.push_front rfl]
      simp only [imageFrom, if_true, bind_some]
      congr 1
      apply applyDelta_eq
      omega
    · have hrest := ih (by omega) (by omega) (by omega) (by omega) (by omega) (by omega)
      rw [hdelta, hrest]
      simp only [imageFrom, hto, if_false]
  | @hunk o n script hunks hunk body hs h ih =>
    have hso : (source (body.map edit)).length = hunk.oldCount :=
      (source_edits body).trans hs.oldCount.symm
    have hta : (target (body.map edit)).length = hunk.newCount :=
      (target_edits body).trans hs.newCount.symm
    rw [source_append, length_append, hso] at hlt hb
    rw [target_append, length_append, hta] at hbn
    have hstart := hs.oldStart
    by_cases hin : t < o + hunk.oldCount
    · have hc : hunk.oldCount ≠ 0 := by omega
      rw [if_neg hc] at hstart
      rw [hs.imageFrom_inside ht hin, hs.push_inside ht hin]
      have hsum : lineSum hunk.oldStart hunk.oldCount = .ok (hunk.oldStart + hunk.oldCount) :=
        if_pos (by omega)
      have himage : (imageFrom o n (body.map edit) t).bind (fun m => applyDelta m ((0 : Nat) : Int)) =
          imageFrom o n (body.map edit) t := by
        cases hi : imageFrom o n (body.map edit) t with
        | none => rfl
        | some m =>
          have hm := imageFrom_bounds hi
          have hin' : ¬ ((m : Int) + ((0 : Nat) : Int) < 1 ∨ (m : Int) + ((0 : Nat) : Int) ≥ u32Limit) := by
            omega
          rw [bind_some]
          unfold applyDelta
          rw [if_neg hin']
          rfl
      rw [himage, mapFrom, if_neg (by omega), hsum]
      change (if t < hunk.oldStart + hunk.oldCount then _ else _) = _
      rw [if_pos (by omega), hs.lineInHunk_eq ho hn ht hc]
      rfl
    · have hdelta : (n : Int) - o + (hunk.newCount - hunk.oldCount) =
          ((n + hunk.newCount : Nat) : Int) - ((o + hunk.oldCount : Nat) : Int) := by omega
      have hrest := ih (by omega) (by omega) (by omega) (by omega) (by omega) (by omega)
      have hle : hunk.oldStart + hunk.oldCount ≤ t := by
        split at hstart <;> omega
      rw [mapFrom_behind hle (by omega), hdelta, hrest, hs.imageFrom_behind (by omega),
        hs.push_behind ho (by omega)]

/-! ## How far a line is pushed -/

theorem Covers.inserted_le (ht : t + 1 = o) : insertedBehind hunks t ≤ (target script).length := by
  induction h with
  | done o n => simp [insertedBehind]
  | keep text h ih =>
    rw [(h.before (by omega)).2]
    exact Nat.zero_le _
  | @hunk o n script hunks hunk body hs h ih =>
    rw [insertedBehind_cons, target_append, length_append, target_edits, ← hs.newCount]
    split
    · next hc =>
      omega
    rename_i hc
    by_cases hz : hunk.oldCount = 0
    · have hstart := hs.oldStart
      omega
    · rw [(h.before (t := t) (by omega)).2]
      exact Nat.zero_le _

theorem Covers.inserted_image (ht : t + 1 = o) {t' m' : Nat}
    (hi : imageFrom o n script t' = some m') : n + insertedBehind hunks t ≤ m' := by
  induction h with
  | done o n => simp [imageFrom] at hi
  | keep text h ih =>
    have hb := imageFrom_bounds hi
    rw [(h.before (by omega)).2]
    omega
  | @hunk o n script hunks hunk body hs h ih =>
    have hb := imageFrom_bounds hi
    rw [insertedBehind_cons]
    split
    · next hc =>
      rw [hs.imageFrom_behind (by omega)] at hi
      have hrest := ih (by omega) hi
      omega
    · next hc =>
      by_cases hz : hunk.oldCount = 0
      · have hstart := hs.oldStart
        rw [if_pos hz] at hstart
        omega
      · rw [(h.before (t := t) (by omega)).2]
        omega

theorem Covers.push_bound (ho : 1 ≤ o) {m : Nat} (hi : imageFrom o n script t = some m) :
    m + push hunks t < n + (target script).length := by
  have hb := imageFrom_bounds hi
  induction h with
  | done o n => simp [imageFrom] at hi
  | @keep o n script hunks text h ih =>
    unfold imageFrom at hi
    simp only [target, length_cons]
    split at hi
    · next hto =>
      have hm : n = m := some.inj hi
      have hle := h.inserted_le (t := t) (by omega)
      rw [h.push_front (by omega)]
      omega
    · have hrest := ih (by omega) hi (imageFrom_bounds hi)
      omega
  | @hunk o n script hunks hunk body hs h ih =>
    by_cases hin : t < o + hunk.oldCount
    · rw [hs.push_inside hb.1.1 hin]
      omega
    rw [hs.imageFrom_behind (by omega)] at hi
    rw [hs.push_behind ho (by omega), target_append, length_append, target_edits, ← hs.newCount]
    have hrest := ih (by omega) hi (imageFrom_bounds hi)
    omega

theorem Covers.push_next (ho : 1 ≤ o) {m m' t' : Nat} (hi : imageFrom o n script t = some m)
    (hlt : t < t') (hi' : imageFrom o n script t' = some m') : m + push hunks t < m' := by
  have hb := imageFrom_bounds hi
  induction h with
  | done o n => simp [imageFrom] at hi
  | @keep o n script hunks text h ih =>
    unfold imageFrom at hi hi'
    rw [if_neg (by omega)] at hi'
    split at hi
    · next hto =>
      have hm : n = m := some.inj hi
      have hle := h.inserted_image (t := t) (by omega) hi'
      rw [h.push_front (by omega)]
      omega
    · exact ih (by omega) hi hi' (imageFrom_bounds hi)
  | @hunk o n script hunks hunk body hs h ih =>
    by_cases hin : t < o + hunk.oldCount
    · rw [hs.push_inside hb.1.1 hin]
      exact imageFrom_lt hi hi' hlt
    rw [hs.imageFrom_behind (by omega)] at hi
    rw [hs.imageFrom_behind (by omega)] at hi'
    rw [hs.push_behind ho (by omega)]
    exact ih (by omega) hi hi' (imageFrom_bounds hi)

theorem Covers.imageFrom_unchanged (hh : hunks = []) (ht : o ≤ t)
    (hlt : t < o + (source script).length) : imageFrom o n script t = some (n + (t - o)) := by
  induction h with
  | done o n =>
    simp only [source, length_nil] at hlt
    omega
  | @keep o n script hunks text h ih =>
    simp only [source, length_cons] at hlt
    unfold imageFrom
    split
    · next hto => rw [hto, Nat.sub_self, Nat.add_zero]
    · rw [ih hh (by omega) (by omega)]
      congr 1
      omega
  | hunk hs h ih => exact absurd hh (by simp)

end

namespace Transition

variable {diff : Diff} {path : Bytes} {old new : List Bytes} (tr : Transition diff path old new)

/-- Where the resolver sees an old line. -/
def mapped (line : Nat) : Option Nat :=
  (tr.image line).map (fun line' => line' + push tr.hunks line)

variable {file : File} {line : Nat}

theorem mapOldLine_eq (hf : diff.files.find? (fun file => file.oldPath = path) = some file)
    (h₁ : 1 ≤ line) (h₂ : line ≤ old.length) : mapOldLine file line = .ok (tr.mapped line) := by
  have hold := tr.oldBound
  have hnew := tr.newBound
  rw [← tr.fromOld] at hold h₂
  rw [← tr.toNew] at hnew
  have hmap := tr.covers.mapFrom_eq (t := line) (Nat.le_refl 1) (Nat.le_refl 1) h₁ (by omega)
    (by omega) (by omega)
  have hdelta : (0 : Int) = ((1 : Nat) : Int) - ((1 : Nat) : Int) := by omega
  unfold mapOldLine
  rw [tr.listed file hf, hdelta, hmap]
  congr 1
  unfold mapped image
  cases hi : imageFrom 1 1 tr.script line with
  | none => rfl
  | some m =>
    have hbound := tr.covers.push_bound (Nat.le_refl 1) hi
    have hlow := (imageFrom_bounds hi).2.1
    have hin : ¬ ((m : Int) + ((push tr.hunks line : Nat) : Int) < 1 ∨
        (m : Int) + ((push tr.hunks line : Nat) : Int) ≥ u32Limit) := by
      omega
    rw [bind_some, map_some]
    unfold applyDelta
    rw [if_neg hin]
    rfl

variable {m : Nat}

theorem mapped_some (h : tr.mapped line = some m) :
    ∃ m', tr.image line = some m' ∧ m' + push tr.hunks line = m := by
  unfold mapped at h
  rw [map_eq_some_iff] at h
  exact h

theorem mapped_lt (h : tr.mapped line = some m) : m + 1 < u32Limit := by
  obtain ⟨m', hi, rfl⟩ := tr.mapped_some h
  have hbound := tr.covers.push_bound (Nat.le_refl 1) hi
  have hnew := tr.newBound
  rw [← tr.toNew] at hnew
  omega

variable {lineNo : Nat}

theorem mapLines_gone (h : mapOldLine file lineNo = .ok none) (bottom fuel : Nat)
    (soFar : Option (Nat × Nat)) : mapLines file bottom (fuel + 1) lineNo soFar = .ok none := by
  unfold mapLines
  rw [h]
  rfl

theorem mapLines_first (h : mapOldLine file lineNo = .ok (some m)) (bottom fuel : Nat) :
    mapLines file bottom (fuel + 1) lineNo none =
      if lineNo = bottom then .ok (some (m, m))
      else mapLines file bottom fuel (lineNo + 1) (some (m, m)) := by
  rw [mapLines, h]
  rfl

theorem mapLines_next (h : mapOldLine file lineNo = .ok (some m)) (bottom fuel mappedTop : Nat)
    {previous : Nat} (hp : previous + 1 < u32Limit) :
    mapLines file bottom (fuel + 1) lineNo (some (mappedTop, previous)) =
      if m ≠ previous + 1 then .ok none
      else if lineNo = bottom then .ok (some (mappedTop, m))
      else mapLines file bottom fuel (lineNo + 1) (some (mappedTop, m)) := by
  have hsum : lineSum previous 1 = .ok (previous + 1) := if_pos hp
  rw [mapLines, h]
  change (lineSum previous 1 >>= _) = _
  rw [hsum]
  rfl

theorem together_single {image : Nat → Option Nat} (h : image line = some m) :
    Together image line line m := by
  intro i hi
  obtain rfl : i = 0 := by omega
  exact h

/-- The loop behind its first line: it goes on exactly as long as the mapped lines follow each
other. -/
theorem mapLines_some
    (hf : diff.files.find? (fun file => file.oldPath = path) = some file) {bottom : Nat}
    (hbottom : bottom ≤ old.length) (fuel lineNo mappedTop previous : Nat) (h₁ : 1 ≤ lineNo)
    (hle : lineNo ≤ bottom) (hfuel : bottom < lineNo + fuel) (hp : previous + 1 < u32Limit) :
    (Together tr.mapped lineNo bottom (previous + 1) ∧
      mapLines file bottom fuel lineNo (some (mappedTop, previous)) =
        .ok (some (mappedTop, previous + 1 + (bottom - lineNo)))) ∨
    (¬ Together tr.mapped lineNo bottom (previous + 1) ∧
      mapLines file bottom fuel lineNo (some (mappedTop, previous)) = .ok none) := by
  induction fuel generalizing lineNo previous with
  | zero => omega
  | succ fuel ih =>
    have hline := tr.mapOldLine_eq hf h₁ (Nat.le_trans hle hbottom)
    cases hm : tr.mapped lineNo with
    | none =>
      right
      rw [hm] at hline
      refine ⟨?_, mapLines_gone hline _ _ _⟩
      intro h
      exact absurd ((h.head hle).symm.trans hm) (by simp)
    | some m =>
      rw [hm] at hline
      rw [mapLines_next hline _ _ _ hp]
      by_cases hnext : m = previous + 1
      · subst hnext
        rw [if_neg (by simp)]
        by_cases hlast : lineNo = bottom
        · left
          subst hlast
          rw [if_pos rfl, Nat.sub_self]
          exact ⟨together_single hm, rfl⟩
        rw [if_neg hlast]
        obtain ⟨ht, hrun⟩ | ⟨ht, hrun⟩ := ih (lineNo + 1) (previous + 1) (by omega) (by omega)
          (by omega) (tr.mapped_lt hm)
        · left
          refine ⟨ht.cons hm, hrun.trans ?_⟩
          congr 3
          omega
        · right
          exact ⟨fun h => ht h.tail, hrun⟩
      · right
        rw [if_pos hnext]
        refine ⟨?_, rfl⟩
        intro h
        exact hnext (some.inj (hm.symm.trans (h.head hle)))

theorem mapLines_none
    (hf : diff.files.find? (fun file => file.oldPath = path) = some file) {top bottom fuel : Nat}
    (hbottom : bottom ≤ old.length) (h₁ : 1 ≤ top) (hle : top ≤ bottom)
    (hfuel : bottom < top + fuel) :
    (∃ m, Together tr.mapped top bottom m ∧
      mapLines file bottom fuel top none = .ok (some (m, m + (bottom - top)))) ∨
    ((¬ ∃ m, Together tr.mapped top bottom m) ∧ mapLines file bottom fuel top none = .ok none) := by
  obtain _ | fuel := fuel
  · omega
  have hline := tr.mapOldLine_eq hf h₁ (Nat.le_trans hle hbottom)
  cases hm : tr.mapped top with
  | none =>
    right
    rw [hm] at hline
    refine ⟨?_, mapLines_gone hline _ _ _⟩
    rintro ⟨m, h⟩
    exact absurd ((h.head hle).symm.trans hm) (by simp)
  | some m =>
    rw [hm] at hline
    rw [mapLines_first hline]
    by_cases hlast : top = bottom
    · left
      subst hlast
      rw [if_pos rfl]
      exact ⟨m, together_single hm, by rw [Nat.sub_self]; rfl⟩
    rw [if_neg hlast]
    obtain ⟨ht, hrun⟩ | ⟨ht, hrun⟩ := tr.mapLines_some hf hbottom fuel (top + 1) m m (by omega)
      (by omega) (by omega) (tr.mapped_lt hm)
    · left
      refine ⟨m, ht.cons hm, hrun.trans ?_⟩
      congr 3
      omega
    · right
      refine ⟨?_, hrun⟩
      rintro ⟨m', h⟩
      obtain rfl : m = m' := some.inj (hm.symm.trans (h.head hle))
      exact ht h.tail

end Transition

/-! ## The resolution -/

/-- The Anchor is a one-sided ascending range inside the old content. -/
structure Anchor.Spans (authored : Anchor) (old : List Bytes) (top bottom : Nat) : Prop where
  oneSide : authored.toLine.isSome = !authored.fromLine.isSome
  newSide : authored.toLine.isSome → authored.startFrom = none
  oldSide : authored.fromLine.isSome → authored.startTo = none
  first : authored.top = some top
  last : authored.line = some bottom
  inside : 1 ≤ top ∧ top ≤ bottom ∧ bottom ≤ old.length

/-- The path of the old File on the new side. -/
def newPath (diff : Diff) (path : Bytes) : Bytes :=
  match diff.files.find? (fun file => file.oldPath = path) with
  | none => path
  | some file => projectedPath file path

variable {authored : Anchor} {old : List Bytes}

theorem Anchor.Spans.resolved {top bottom : Nat} (h : authored.Spans old top bottom) :
    (authored.startTo.or authored.startFrom).or authored.line = some top := by
  obtain ⟨hone, hnew, hold, hfirst, hlast, -⟩ := h
  unfold Anchor.top at hfirst
  unfold Anchor.line at hlast ⊢
  cases ht : authored.toLine with
  | some line =>
    cases hst : authored.startTo <;> simp_all
  | none =>
    cases hsf : authored.startFrom <;> simp_all

theorem Anchor.Spans.project_range {top bottom : Nat} (h : authored.Spans old top bottom)
    (path : Bytes) (m : Nat) :
    (project authored path m (m + (bottom - top))).top = some m ∧
      (project authored path m (m + (bottom - top))).line = some (m + (bottom - top)) := by
  obtain ⟨hone, hnew, hold, hfirst, hlast, -⟩ := h
  unfold Anchor.top at hfirst ⊢
  unfold Anchor.line at hlast ⊢
  unfold project
  cases ht : authored.toLine with
  | some line =>
    cases hst : authored.startTo with
    | some first => simp
    | none =>
      have heq : line = top := by simpa [ht, hst] using hfirst
      have heq' : line = bottom := by simpa [ht] using hlast
      have hzero : bottom - top = 0 := by omega
      simp [hzero]
  | none =>
    cases hsf : authored.startFrom with
    | some first => simp
    | none =>
      cases hfl : authored.fromLine with
      | none => simp [ht, hfl] at hlast
      | some line =>
        have heq : line = top := by simpa [ht, hfl, hsf] using hfirst
        have heq' : line = bottom := by simpa [ht, hfl] using hlast
        have hzero : bottom - top = 0 := by omega
        simp [hzero]

variable {diff : Diff} {authored : Anchor} {old new : List Bytes} {top bottom : Nat}

/-- What the resolver answers: a range where the mapped lines stay together, else outdated. -/
inductive Transition.Answer (tr : Transition diff authored.path old new) (top bottom : Nat) :
    AnchorResolution → Prop where
  | range {m : Nat} {state : AnchorState} {anchor : Anchor} :
    Together tr.mapped top bottom m → anchor.top = some m →
    anchor.line = some (m + (bottom - top)) →
    state = (if newPath diff authored.path ≠ authored.path ∨ m ≠ top then .moved else .current) →
    Answer tr top bottom (.resolved ⟨state, anchor⟩)
  | outdated {anchor : Anchor} : (¬ ∃ m, Together tr.mapped top bottom m) →
    Answer tr top bottom (.resolved ⟨.outdated, anchor⟩)

variable (tr : Transition diff authored.path old new)

section

variable (hs : authored.Spans old top bottom)
include hs

theorem Transition.resolve_unchanged
    (hf : diff.files.find? (fun file => file.oldPath = authored.path) = none) :
    ∃ r, resolveAgainst authored diff = .ok r ∧ tr.Answer top bottom r := by
  have hhunks := tr.unchanged hf
  obtain ⟨h₁, hle, hin⟩ := hs.inside
  have hpath : newPath diff authored.path = authored.path := by
    unfold newPath
    rw [hf]
  refine ⟨.resolved ⟨.current, authored⟩, ?_, ?_⟩
  · unfold resolveAgainst
    rw [hf]
  have hlast : bottom = top + (bottom - top) := by omega
  refine .range (m := top) ?_ hs.first (hlast ▸ hs.last) (by simp [hpath])
  intro i hi
  have hlen : (source tr.script).length = old.length := congrArg length tr.fromOld
  have himage := tr.covers.imageFrom_unchanged (t := top + i) hhunks (by omega) (by omega)
  have hpush : push tr.hunks (top + i) = 0 := by
    rw [hhunks]
    rfl
  unfold mapped image
  rw [himage, hpush, map_some]
  congr 1
  omega

variable {file : File}

section

variable (hf : diff.files.find? (fun file => file.oldPath = authored.path) = some file)
include hf

theorem Transition.resolve_removed (hst : file.status = .removed) :
    ∃ r, resolveAgainst authored diff = .ok r ∧ tr.Answer top bottom r := by
  refine ⟨outdatedAt authored authored.path, ?_, ?_⟩
  · unfold resolveAgainst
    rw [hf]
    exact if_pos hst
  · apply Answer.outdated
    rintro ⟨m, hm⟩
    obtain ⟨m', hi, -⟩ := tr.mapped_some (hm.head hs.inside.2.1)
    have hb := (imageFrom_bounds hi).2
    rw [tr.toNew, tr.removed file hf hst] at hb
    simp only [length_nil] at hb
    omega

theorem Transition.resolve_changed (hst : file.status ≠ .removed) :
    ∃ r, resolveAgainst authored diff = .ok r ∧ tr.Answer top bottom r := by
  obtain ⟨h₁, hle, hin⟩ := hs.inside
  have hold := tr.oldBound
  have hpath : newPath diff authored.path = projectedPath file authored.path := by
    unfold newPath
    rw [hf]
  have hfuel : bottom < top + (u32Limit - top) := by omega
  have hrun := tr.mapLines_none hf hin h₁ hle hfuel
  unfold resolveAgainst
  rw [hf]
  dsimp only
  rw [if_neg hst, hs.resolved, hs.last]
  dsimp only
  obtain ⟨m, ht, hloop⟩ | ⟨ht, hloop⟩ := hrun
  · rw [hloop]
    have hwidth : ¬ (m + (bottom - top) - m ≠ bottom - top) := by omega
    obtain ⟨hfirst, hlast⟩ := hs.project_range (projectedPath file authored.path) m
    refine ⟨_, if_neg hwidth, .range ht hfirst hlast ?_⟩
    rw [hpath]
  · rw [hloop]
    exact ⟨_, rfl, .outdated ht⟩

end

theorem Transition.resolve : ∃ r, resolveAgainst authored diff = .ok r ∧ tr.Answer top bottom r := by
  cases hf : diff.files.find? (fun file => file.oldPath = authored.path) with
  | none => exact tr.resolve_unchanged hs hf
  | some file =>
    by_cases hst : file.status = .removed
    · exact tr.resolve_removed hs hf hst
    · exact tr.resolve_changed hs hf hst

end

/-! ## Following the text -/

/-- The resolution follows the text: a resolved range holds the images of the authored lines in
order, the range is outdated exactly when the images are not together, and it is current exactly
when they are where the lines were. -/
structure Transition.Follows (tr : Transition diff authored.path old new) (top bottom : Nat)
    (r : AnchorResolution) : Prop where
  range : ∀ state anchor, r = .resolved ⟨state, anchor⟩ → state ≠ .outdated →
    ∃ top' bottom', anchor.top = some top' ∧ anchor.line = some bottom' ∧
      bottom' = top' + (bottom - top) ∧ ∀ i, top + i ≤ bottom → tr.image (top + i) = some (top' + i)
  outdated : (∃ anchor, r = .resolved ⟨.outdated, anchor⟩) ↔ ¬ ∃ m, Together tr.image top bottom m
  current : (∃ anchor, r = .resolved ⟨.current, anchor⟩) ↔
    newPath diff authored.path = authored.path ∧ Together tr.image top bottom top

/-- Lines inserted without context mislead the resolver: they stand right behind the last line of a
range that moved as a whole, or right behind the first line of a range that they alone break. -/
def Transition.Misled (tr : Transition diff authored.path old new) (top bottom : Nat) : Prop :=
  (∃ m, Together tr.image top bottom m ∧ 0 < push tr.hunks bottom) ∨
    (top < bottom ∧ 0 < push tr.hunks top ∧ push tr.hunks bottom = 0 ∧
      ∃ m, tr.image top = some m ∧
        Together tr.image (top + 1) bottom (m + push tr.hunks top + 1))

variable {m : Nat}

theorem Transition.together_mapped (h : Together tr.image top bottom m)
    (hp : push tr.hunks bottom = 0) : Together tr.mapped top bottom m := by
  intro i hi
  have hm := h i hi
  have hpush : push tr.hunks (top + i) = 0 := by
    by_cases hlast : top + i = bottom
    · rw [hlast, hp]
    · have hnext := h (i + 1) (by omega)
      have hlt := tr.covers.push_next (Nat.le_refl 1) hm (Nat.lt_succ_self _) hnext
      omega
  unfold mapped
  rw [hm, hpush]
  rfl

/-- Where the mapped lines stay together only the first one can be pushed. -/
theorem Transition.together_image (h : Together tr.mapped top bottom m) (hlt : top < bottom) :
    Together tr.image (top + 1) bottom (m + 1) ∧ push tr.hunks bottom = 0 := by
  have hstep (i : Nat) (hi : top + (i + 1) ≤ bottom) :
      tr.image (top + (i + 1)) = some (m + (i + 1)) ∧ push tr.hunks (top + (i + 1)) = 0 := by
    obtain ⟨a, ha, hma⟩ := tr.mapped_some (h i (by omega))
    obtain ⟨b, hb, hmb⟩ := tr.mapped_some (h (i + 1) hi)
    have hnext := tr.covers.push_next (Nat.le_refl 1) ha (Nat.lt_succ_self _) hb
    have hzero : push tr.hunks (top + (i + 1)) = 0 := by omega
    refine ⟨?_, hzero⟩
    rw [hb]
    congr 1
    omega
  constructor
  · intro i hi
    have hi' := (hstep i (by omega)).1
    rw [Nat.add_right_comm, Nat.add_assoc top, Nat.add_right_comm m, Nat.add_assoc m]
    exact hi'
  · have hlast := (hstep (bottom - top - 1) (by omega)).2
    rw [show top + (bottom - top - 1 + 1) = bottom by omega] at hlast
    exact hlast

theorem Transition.range_iff (hle : top ≤ bottom) (ht : Together tr.mapped top bottom m) :
    Together tr.image top bottom m ↔ ¬ tr.Misled top bottom := by
  obtain ⟨a, hi, hma⟩ := tr.mapped_some (ht.head hle)
  constructor
  · intro h
    have ham : a = m := some.inj (hi.symm.trans (h.head hle))
    have hfirst : push tr.hunks top = 0 := by omega
    have hlast : push tr.hunks bottom = 0 := by
      by_cases hlt : top < bottom
      · exact (tr.together_image ht hlt).2
      · rw [show bottom = top by omega, hfirst]
    rintro (⟨-, -, hp⟩ | ⟨-, hp, -⟩) <;> omega
  · intro h
    by_cases hlt : top < bottom
    · obtain ⟨hrest, hlast⟩ := tr.together_image ht hlt
      have hfirst : push tr.hunks top = 0 := by
        apply Nat.eq_zero_of_not_pos
        intro hp
        exact h (.inr ⟨hlt, hp, hlast, a, hi, hma ▸ hrest⟩)
      have ham : a = m := by omega
      exact hrest.cons (ham ▸ hi)
    · have hsame : top = bottom := by omega
      subst hsame
      have hfirst : push tr.hunks top = 0 := by
        apply Nat.eq_zero_of_not_pos
        intro hp
        exact h (.inl ⟨a, together_single hi, hp⟩)
      have ham : a = m := by omega
      exact together_single (ham ▸ hi)

theorem Transition.outdated_iff (ht : ¬ ∃ m, Together tr.mapped top bottom m) :
    (¬ ∃ m, Together tr.image top bottom m) ↔ ¬ tr.Misled top bottom := by
  constructor
  · rintro h (⟨m, hm, -⟩ | ⟨-, -, hlast, m, hi, hrest⟩)
    · exact h ⟨m, hm⟩
    · apply ht
      have hhead : tr.mapped top = some (m + push tr.hunks top) := by
        unfold mapped
        rw [hi]
        rfl
      exact ⟨_, (tr.together_mapped hrest hlast).cons hhead⟩
  · rintro h ⟨m, hm⟩
    have hlast : push tr.hunks bottom = 0 := by
      apply Nat.eq_zero_of_not_pos
      intro hp
      exact h (.inl ⟨m, hm, hp⟩)
    exact ht ⟨m, tr.together_mapped hm hlast⟩

theorem Transition.follows_iff {r : AnchorResolution} (hle : top ≤ bottom)
    (ha : tr.Answer top bottom r) : tr.Follows top bottom r ↔ ¬ tr.Misled top bottom := by
  cases ha with
  | @range m state anchor ht hfirst hlast hstate =>
    have hres : state ≠ .outdated := by
      rw [hstate]
      split <;> simp
    rw [← tr.range_iff hle ht]
    constructor
    · intro h
      obtain ⟨top', bottom', htop, -, -, himages⟩ := h.range state anchor rfl hres
      obtain rfl : m = top' := some.inj (hfirst.symm.trans htop)
      exact himages
    intro h
    constructor
    · intro state' anchor' heq _
      cases heq
      exact ⟨m, _, hfirst, hlast, rfl, h⟩
    · constructor
      · rintro ⟨anchor', heq⟩
        cases heq
        exact absurd rfl hres
      · exact fun hno => absurd ⟨m, h⟩ hno
    · have hcurrent : (∃ anchor', AnchorResolution.resolved ⟨state, anchor⟩ =
          .resolved ⟨.current, anchor'⟩) ↔ state = .current := by
        constructor
        · rintro ⟨anchor', heq⟩
          cases heq
          rfl
        · rintro rfl
          exact ⟨anchor, rfl⟩
      rw [hcurrent, hstate]
      constructor
      · intro hc
        split at hc
        · exact absurd hc (by simp)
        · next hsame =>
          rw [not_or, not_not, not_not] at hsame
          exact ⟨hsame.1, hsame.2 ▸ h⟩
      · rintro ⟨hpath, htop⟩
        rw [if_neg]
        rw [not_or, not_not, not_not]
        exact ⟨hpath, h.unique hle htop⟩
  | @outdated anchor ht =>
    rw [← tr.outdated_iff ht]
    constructor
    · intro h
      exact h.outdated.mp ⟨anchor, rfl⟩
    intro h
    constructor
    · intro state' anchor' heq hne
      cases heq
      exact absurd rfl hne
    · exact ⟨fun _ => h, fun _ => ⟨anchor, rfl⟩⟩
    · constructor
      · rintro ⟨anchor', heq⟩
        cases heq
      · rintro ⟨-, htop⟩
        exact absurd ⟨top, htop⟩ h

/-- The resolver always answers, and the answer follows the text exactly when no lines inserted
without context mislead it. -/
theorem anchor_follows_text {diff : Diff} {authored : Anchor} {old new : List Bytes}
    {top bottom : Nat} (tr : Transition diff authored.path old new)
    (hs : authored.Spans old top bottom) :
    (∃ r, resolveAgainst authored diff = .ok r ∧ tr.Follows top bottom r) ↔
      ¬ tr.Misled top bottom := by
  obtain ⟨r, hr, ha⟩ := tr.resolve hs
  rw [← tr.follows_iff hs.inside.2.1 ha]
  constructor
  · rintro ⟨r', hr', hf⟩
    rw [hr] at hr'
    cases hr'
    exact hf
  · intro hf
    exact ⟨r, hr, hf⟩

def lineTwo : Anchor := { path := ascii "f", toLine := some 2 }

theorem lineTwo_spans (new : List Bytes) :
    lineTwo.Spans (ascii "one" :: ascii "two" :: new) 2 2 :=
  ⟨rfl, fun _ => rfl, fun _ => rfl, rfl, rfl, by simp⟩

/-- One line inserted in front of a context line. -/
def withContext : Diff :=
  ⟨[⟨ascii "f", ascii "f", .modified, [⟨1, 2, 1, 3, ascii "@@ -1,2 +1,3 @@",
    numberLines 1 1 [⟨.context, ascii "one", false⟩, ⟨.added, ascii "new", false⟩,
      ⟨.context, ascii "two", false⟩]⟩], {}⟩]⟩

def withContextTransition : Transition withContext lineTwo.path [ascii "one", ascii "two"]
    [ascii "one", ascii "new", ascii "two"] :=
  { script := [.keep (ascii "one"), .insert (ascii "new"), .keep (ascii "two")]
    hunks := [⟨1, 2, 1, 3, ascii "@@ -1,2 +1,3 @@",
      numberLines 1 1 [⟨.context, ascii "one", false⟩, ⟨.added, ascii "new", false⟩,
        ⟨.context, ascii "two", false⟩]⟩]
    fromOld := rfl
    toNew := rfl
    covers :=
      have hs : Stands 1 1 _ [⟨.context, ascii "one", false⟩, ⟨.added, ascii "new", false⟩,
        ⟨.context, ascii "two", false⟩] := ⟨rfl, rfl, rfl, rfl, rfl⟩
      .hunk hs (.done _ _)
    unchanged := fun h => by cases h
    listed := fun file h => by cases h; rfl
    removed := fun file h hs => by cases h; cases hs
    oldBound := by decide
    newBound := by decide }

theorem anchor_follows_text_context :
    ∃ r, resolveAgainst lineTwo withContext = .ok r ∧ withContextTransition.Follows 2 2 r := by
  apply (anchor_follows_text withContextTransition (lineTwo_spans [])).mpr
  rintro (⟨m, -, hp⟩ | ⟨hlt, -⟩)
  · exact absurd hp (by decide)
  · exact absurd hlt (by decide)

/-- Two lines inserted behind line 2 without context. -/
def withoutContext : Diff :=
  ⟨[⟨ascii "f", ascii "f", .modified, [⟨2, 0, 3, 2, ascii "@@ -2,0 +3,2 @@",
    numberLines 2 3 [⟨.added, ascii "x", false⟩, ⟨.added, ascii "y", false⟩]⟩], {}⟩]⟩

def withoutContextTransition : Transition withoutContext lineTwo.path [ascii "one", ascii "two"]
    [ascii "one", ascii "two", ascii "x", ascii "y"] :=
  { script := [.keep (ascii "one"), .keep (ascii "two"), .insert (ascii "x"), .insert (ascii "y")]
    hunks := [⟨2, 0, 3, 2, ascii "@@ -2,0 +3,2 @@",
      numberLines 2 3 [⟨.added, ascii "x", false⟩, ⟨.added, ascii "y", false⟩]⟩]
    fromOld := rfl
    toNew := rfl
    covers :=
      have hs : Stands 3 3 _ [⟨.added, ascii "x", false⟩, ⟨.added, ascii "y", false⟩] :=
        ⟨rfl, rfl, rfl, rfl, rfl⟩
      .keep _ (.keep _ (.hunk hs (.done _ _)))
    unchanged := fun h => by cases h
    listed := fun file h => by cases h; rfl
    removed := fun file h hs => by cases h; cases hs
    oldBound := by decide
    newBound := by decide }

/-- The unchanged line 2 is shown at line 4, where another text stands. -/
theorem anchor_follows_text_noContext :
    ¬ ∀ (diff : Diff) (authored : Anchor) (old new : List Bytes) (top bottom : Nat)
      (tr : Transition diff authored.path old new), authored.Spans old top bottom →
      ∃ r, resolveAgainst authored diff = .ok r ∧ tr.Follows top bottom r := by
  intro h
  obtain ⟨r, hr, hf⟩ := h withoutContext lineTwo _ _ 2 2 withoutContextTransition (lineTwo_spans [])
  cases hr
  obtain ⟨top', bottom', htop, -, -, himages⟩ := hf.range _ _ rfl (by decide)
  cases htop
  exact absurd (himages 0 (by decide)) (by decide)

/-- Wherever the resolver sees two old lines, it sees them in their order and apart, pushed or not. -/
theorem mapOldLine_keeps_order {diff : Diff} {path : Bytes} {old new : List Bytes} {file : File}
    {first second a b : Nat} (tr : Transition diff path old new)
    (hf : diff.files.find? (fun file => file.oldPath = path) = some file) (h₁ : 1 ≤ first)
    (hlt : first < second) (h₂ : second ≤ old.length) (ha : mapOldLine file first = .ok (some a))
    (hb : mapOldLine file second = .ok (some b)) : a < b := by
  rw [tr.mapOldLine_eq hf h₁ (by omega)] at ha
  rw [tr.mapOldLine_eq hf (by omega) h₂] at hb
  obtain ⟨a', himage, rfl⟩ := tr.mapped_some (Except.ok.inj ha)
  obtain ⟨b', himage', rfl⟩ := tr.mapped_some (Except.ok.inj hb)
  have hnext := tr.covers.push_next (Nat.le_refl 1) himage hlt himage'
  omega

/-- The pushed line stays behind the one before it. -/
theorem mapOldLine_keeps_order_noContext : ∃ file, withoutContext.files = [file] ∧ ∃ a b,
    mapOldLine file 1 = .ok (some a) ∧ mapOldLine file 2 = .ok (some b) ∧ a < b :=
  ⟨_, rfl, 1, 4, rfl, rfl, mapOldLine_keeps_order withoutContextTransition rfl (Nat.le_refl 1)
    (Nat.lt_succ_self 1) (Nat.le_refl 2) rfl rfl⟩

end Bbr.Review
