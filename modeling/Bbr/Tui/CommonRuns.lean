import Bbr.Tui.Segments
import Mathlib.Data.List.TakeWhile

/-!
# The common runs of a pair of Lines

Where two Lines are compared, the lexical parts that stay without emphasis are a longest common
subsequence of the parts of both. A cell of the directions stands for what is left of either side, so the
walk from the first cell keeps as many parts as there are to keep.
-/
namespace Bbr.Tui

open Bbr.Lib List

/-- Where the table sends the walk when `old :: oldParts` and `new :: newParts` are left. -/
def directionOf (old : Bytes) (oldParts : List Bytes) (new : Bytes) (newParts : List Bytes) :
    Direction :=
  if old = new then .common
  else if heaviestCommon (fun _ => 1) (old :: oldParts) newParts ≤
    heaviestCommon (fun _ => 1) oldParts (new :: newParts) then .skipOld
  else .skipNew

/-- The lengths for what is left of the new parts. -/
def lengths (oldParts newParts : List Bytes) : List Nat :=
  newParts.tails.map (heaviestCommon (fun _ => 1) oldParts)

theorem lengths_headD (oldParts newParts : List Bytes) :
    (lengths oldParts newParts).headD 0 = heaviestCommon (fun _ => 1) oldParts newParts := by
  cases newParts <;> simp [lengths]

theorem lengths_cons (oldParts : List Bytes) (new : Bytes) (newParts : List Bytes) :
    lengths oldParts (new :: newParts) =
      heaviestCommon (fun _ => 1) oldParts (new :: newParts) :: lengths oldParts newParts := by
  rw [lengths, tails_cons, map_cons, lengths]

theorem directionRow_cons (old : Bytes) (oldParts : List Bytes) (new : Bytes) (newParts : List Bytes)
    (ih : (directionRow old newParts (lengths oldParts newParts)).1 =
      lengths (old :: oldParts) newParts) :
    directionRow old (new :: newParts) (lengths oldParts (new :: newParts)) =
      (lengths (old :: oldParts) (new :: newParts), directionOf old oldParts new newParts ::
          (directionRow old newParts (lengths oldParts newParts)).2) := by
  simp only [directionRow, lengths_cons, tail_cons, headD_cons, ih, lengths_headD, directionOf,
    heaviestCommon_cons]
  by_cases hsame : old = new
  · simp only [if_pos hsame]
  simp only [if_neg hsame]
  split
  · next hle => rw [max_eq_left hle]
  · next hlt => rw [max_eq_right (Nat.le_of_not_le hlt)]

theorem directionRow_fst (old : Bytes) (oldParts newParts : List Bytes) :
    (directionRow old newParts (lengths oldParts newParts)).1 = lengths (old :: oldParts) newParts := by
  induction newParts with
  | nil => simp [directionRow, lengths]
  | cons new newParts ih => rw [directionRow_cons old oldParts new newParts ih]

theorem directionRow_at (old : Bytes) (oldParts newParts : List Bytes) (j : Nat) :
    (directionRow old newParts (lengths oldParts newParts)).2[j]? =
      match newParts.drop j with
      | [] => none
      | new :: parts => some (directionOf old oldParts new parts) := by
  induction newParts generalizing j with
  | nil => simp [directionRow]
  | cons new newParts ih =>
    rw [directionRow_cons old oldParts new newParts (directionRow_fst old oldParts newParts)]
    cases j with
    | zero => rfl
    | succ j => exact ih j

theorem directions_fst (newParts oldParts : List Bytes) :
    (directions newParts oldParts).1 = lengths oldParts newParts := by
  induction oldParts with
  | nil =>
    have hzero : heaviestCommon (fun _ => 1) ([] : List Bytes) = fun _ => 0 :=
      funext (heaviestCommon_nil _)
    rw [directions, lengths, hzero, map_const', length_tails]
  | cons old oldParts ih => rw [directions, ih, directionRow_fst]

theorem directions_at (newParts oldParts : List Bytes) (i j : Nat) :
    (directions newParts oldParts).2[i]?.bind (fun row => row[j]?) =
      match oldParts.drop i, newParts.drop j with
      | old :: olds, new :: news => some (directionOf old olds new news)
      | _, _ => none := by
  induction oldParts generalizing i with
  | nil => simp [directions]
  | cons old oldParts ih =>
    rw [directions, directions_fst]
    cases i with
    | zero =>
      rw [getElem?_cons_zero, Option.bind_some, directionRow_at, drop_zero]
      cases newParts.drop j <;> rfl
    | succ i => exact ih i

def marked (parts : List Bytes) (matched : List Bool) : List Bytes :=
  ((parts.zip matched).filter Prod.snd).map Prod.fst

@[simp] theorem marked_nil (matched : List Bool) : marked [] matched = [] := rfl

@[simp] theorem marked_true (part : Bytes) (parts : List Bytes) (matched : List Bool) :
    marked (part :: parts) (true :: matched) = part :: marked parts matched := rfl

@[simp] theorem marked_false (part : Bytes) (parts : List Bytes) (matched : List Bool) :
    marked (part :: parts) (false :: matched) = marked parts matched := rfl

@[simp] theorem marked_replicate (parts : List Bytes) (n : Nat) :
    marked parts (List.replicate n false) = [] := by
  induction parts generalizing n with
  | nil => rfl
  | cons part parts ih =>
    cases n with
    | zero => rfl
    | succ n => exact ih n

/-- Marks for what is left of either side that keep a longest common subsequence. -/
structure Marks (olds news : List Bytes) (old new : List Bool) : Prop where
  oldLength : old.length = olds.length
  newLength : new.length = news.length
  same : marked olds old = marked news new
  longest : (marked olds old).length = heaviestCommon (fun _ => 1) olds news

theorem set_behind (front : List Bool) (part : Bytes) (parts : List Bytes) :
    (front ++ List.replicate (part :: parts).length false).set front.length true =
      (front ++ [true]) ++ List.replicate parts.length false := by
  simp [replicate_succ]

theorem skip_behind (front : List Bool) (part : Bytes) (parts : List Bytes) :
    front ++ List.replicate (part :: parts).length false =
      (front ++ [false]) ++ List.replicate parts.length false := by
  simp [replicate_succ]

variable {parts : List Bytes}

theorem drop_behind {rest : List Bytes} {part : Bytes} {front : List Bool} (mark : Bool)
    (h : parts.drop front.length = part :: rest) : parts.drop (front ++ [mark]).length = rest := by
  rw [length_append, length_singleton, ← tail_drop, h, tail_cons]

theorem walk_marks {oldParts newParts olds news : List Bytes} {fuel : Nat} {front back : List Bool}
    (hold : oldParts.drop front.length = olds) (hnew : newParts.drop back.length = news)
    (hfuel : olds.length + news.length ≤ fuel) :
    ∃ old new, Marks olds news old new ∧
      walk (directions newParts oldParts).2 fuel front.length back.length
        (front ++ List.replicate olds.length false) (back ++ List.replicate news.length false) =
      (front ++ old, back ++ new) := by
  induction fuel generalizing front back olds news with
  | zero =>
    obtain rfl : olds = [] := length_eq_zero_iff.mp (by omega)
    obtain rfl : news = [] := length_eq_zero_iff.mp (by omega)
    exact ⟨[], [], ⟨rfl, rfl, rfl, by simp⟩, rfl⟩
  | succ fuel ih =>
    rw [walk, directions_at, hold, hnew]
    cases olds with
    | nil => exact ⟨_, _, ⟨by simp, by simp, by simp, by simp⟩, rfl⟩
    | cons a olds =>
      cases news with
      | nil => exact ⟨_, _, ⟨by simp, by simp, by simp, by simp⟩, rfl⟩
      | cons b news =>
        simp only [length_cons] at hfuel
        by_cases hsame : a = b
        · subst hsame
          have hdir : directionOf a olds a news = .common := if_pos rfl
          obtain ⟨old, new, hm, hwalk⟩ := ih (drop_behind true hold) (drop_behind true hnew) (by omega)
          refine ⟨true :: old, true :: new, ⟨?_, ?_, ?_, ?_⟩, ?_⟩
          · rw [length_cons, length_cons, hm.oldLength]
          · rw [length_cons, length_cons, hm.newLength]
          · rw [marked_true, marked_true, hm.same]
          · rw [marked_true, length_cons, hm.longest, heaviestCommon_cons, if_pos rfl]
          · simpa only [hdir, set_behind, append_assoc, singleton_append, length_append,
              length_singleton] using hwalk
        · by_cases hle : heaviestCommon (fun _ => 1) (a :: olds) news ≤
              heaviestCommon (fun _ => 1) olds (b :: news)
          · have hdir : directionOf a olds b news = .skipOld := by
              rw [directionOf, if_neg hsame, if_pos hle]
            obtain ⟨old, new, hm, hwalk⟩ := ih (drop_behind false hold) hnew (by rw [length_cons]; omega)
            refine ⟨false :: old, new, ⟨?_, hm.newLength, hm.same, ?_⟩, ?_⟩
            · rw [length_cons, length_cons, hm.oldLength]
            · rw [marked_false, hm.longest, heaviestCommon_cons, if_neg hsame, max_eq_left hle]
            · rw [skip_behind front a olds]
              simpa [hdir] using hwalk
          · have hdir : directionOf a olds b news = .skipNew := by
              rw [directionOf, if_neg hsame, if_neg hle]
            obtain ⟨old, new, hm, hwalk⟩ := ih hold (drop_behind false hnew) (by rw [length_cons]; omega)
            refine ⟨old, false :: new, ⟨hm.oldLength, ?_, hm.same, ?_⟩, ?_⟩
            · rw [length_cons, length_cons, hm.newLength]
            · rw [hm.longest, heaviestCommon_cons, if_neg hsame, max_eq_right (Nat.le_of_not_le hle)]
            · rw [skip_behind back b news]
              simpa [hdir] using hwalk

/-- A run of word or space bytes, or a single other byte. -/
def IsPart (part : Bytes) : Prop :=
  ∃ b text, part = b :: text ∧ (∀ d ∈ text, classOf d = classOf b) ∧ (classOf b = .other → text = [])

/-- Two neighbours that are not one part. -/
def Separate (part next : Bytes) : Prop :=
  ∀ b ∈ part.head?, ∀ d ∈ next.head?, classOf d = classOf b → classOf b = .other

structure Lexical (parts : List Bytes) : Prop where
  arePart : ∀ part ∈ parts, IsPart part
  separate : parts.IsChain Separate

theorem Lexical.run {run : List Bytes} (h : Lexical parts) (hrun : run <:+: parts) : Lexical run :=
  ⟨fun part hpart => h.arePart part (hrun.subset hpart), h.separate.infix hrun⟩

variable {fuel : Nat} {text : Bytes}

theorem tokenizeFrom_head? : ∀ part ∈ (tokenizeFrom fuel text).head?, part.head? = text.head? := by
  cases fuel with
  | zero => simp [tokenizeFrom]
  | succ fuel =>
    cases text with
    | nil => simp [tokenizeFrom]
    | cons b text =>
      rw [tokenizeFrom]
      split <;> simp

theorem tokenizeFrom_lexical (fuel : Nat) (text : Bytes) : Lexical (tokenizeFrom fuel text) := by
  induction fuel generalizing text with
  | zero => exact ⟨by simp [tokenizeFrom], by simp [tokenizeFrom]⟩
  | succ fuel ih =>
    cases text with
    | nil => exact ⟨by simp [tokenizeFrom], by simp [tokenizeFrom]⟩
    | cons b text =>
      rw [tokenizeFrom]
      split
      · next hother =>
        refine ⟨forall_mem_cons.mpr ⟨⟨b, [], rfl, by simp, fun _ => rfl⟩, (ih text).arePart⟩, ?_⟩
        refine isChain_cons.mpr ⟨fun next _ c hc d _ _ => ?_, (ih text).separate⟩
        obtain rfl : b = c := by simpa using hc
        exact hother
      · next hother =>
        let rest := text.dropWhile (fun d => decide (classOf d = classOf b))
        refine ⟨forall_mem_cons.mpr ⟨⟨b, _, rfl, ?_, fun h => absurd h hother⟩, (ih rest).arePart⟩, ?_⟩
        · intro d hd
          simpa using mem_takeWhile_imp hd
        refine isChain_cons.mpr ⟨fun next hnext c hc d hd hsame => ?_, (ih rest).separate⟩
        obtain rfl : b = c := by simpa using hc
        rw [tokenizeFrom_head? next hnext] at hd
        have hstop := head?_dropWhile_not (fun d => decide (classOf d = classOf b)) text
        rw [Option.mem_def.mp hd] at hstop
        simp [hsame] at hstop

theorem Lexical.stops {b : UInt8} (h : Lexical ((b :: text) :: parts))
    (hother : classOf b ≠ .other) : ∀ d ∈ parts.flatten.head?, classOf d ≠ classOf b := by
  intro d hd hsame
  cases parts with
  | nil => simp at hd
  | cons next parts =>
    obtain ⟨c, rest, rfl, -, -⟩ := h.arePart next (by simp)
    obtain rfl : c = d := by simpa using hd
    exact hother ((isChain_cons.mp h.separate).1 _ rfl b rfl c rfl hsame)

theorem tokenizeFrom_flatten_of_lexical (h : Lexical parts) (hfuel : parts.flatten.length ≤ fuel) :
    tokenizeFrom fuel parts.flatten = parts := by
  induction parts generalizing fuel with
  | nil => cases fuel <;> rfl
  | cons part parts ih =>
    have hrest := h.run (suffix_cons part parts).isInfix
    obtain ⟨b, text, rfl, hsame, hother⟩ := h.arePart part mem_cons_self
    simp only [flatten_cons, cons_append, length_cons, length_append] at hfuel ⊢
    obtain ⟨fuel, rfl⟩ := Nat.exists_eq_add_of_le' (Nat.le_trans (Nat.le_add_left 1 _) hfuel)
    rw [tokenizeFrom]
    split
    · next hb => rw [hother hb, nil_append, ih hrest (by omega)]
    rename_i hb
    have hall : ∀ d ∈ text, decide (classOf d = classOf b) = true :=
      fun d hd => decide_eq_true (hsame d hd)
    have hstops := h.stops hb
    rw [takeWhile_append_of_pos hall, dropWhile_append_of_pos hall]
    cases hflat : parts.flatten with
    | nil =>
      rw [hflat] at ih hfuel
      simp [ih hrest (Nat.zero_le _)]
    | cons d rest =>
      rw [hflat] at ih hfuel hstops
      have hd : classOf d ≠ classOf b := hstops d rfl
      simp [hd, ih hrest (show (d :: rest).length ≤ fuel by omega)]

theorem tokenize_flatten_of_lexical (h : Lexical parts) :
    tokenize parts.flatten = parts := tokenizeFrom_flatten_of_lexical h (Nat.le_refl _)

theorem segmentsFrom_head? {parts : List (Bytes × Bool)} :
    ∀ segment ∈ (segmentsFrom fuel parts).head?, ∃ p ∈ parts.head?, segment.emphasis = !p.2 := by
  cases fuel with
  | zero => simp [segmentsFrom]
  | succ fuel =>
    cases parts with
    | nil | cons p parts => simp [segmentsFrom]

def Alternating (segments : List Segment) : Prop :=
  segments.IsChain (fun a b => a.emphasis ≠ b.emphasis)

theorem segmentsFrom_alternating (fuel : Nat) (parts : List (Bytes × Bool)) :
    Alternating (segmentsFrom fuel parts) := by
  induction fuel generalizing parts with
  | zero => simp [segmentsFrom, Alternating]
  | succ fuel ih =>
    cases parts with
    | nil => simp [segmentsFrom, Alternating]
    | cons p parts =>
      refine isChain_cons.mpr ⟨fun next hnext hsame => ?_, ih _⟩
      obtain ⟨q, hq, hemphasis⟩ := segmentsFrom_head? next hnext
      have hstop := head?_dropWhile_not (fun q : Bytes × Bool => decide (q.2 = p.2)) parts
      rw [Option.mem_def.mp hq] at hstop
      have hne : q.2 ≠ p.2 := by simpa using hstop
      rw [hemphasis] at hsame
      exact hne (Bool.not_inj hsame).symm

/-- The segments without emphasis. -/
def commonSegments (segments : List Segment) : List Segment :=
  segments.filter (fun segment => !segment.emphasis)

theorem filter_run {p : Bytes × Bool} {parts : List (Bytes × Bool)} :
    (p :: parts.takeWhile (fun q => decide (q.2 = p.2))).filter Prod.snd =
      if p.2 then p :: parts.takeWhile (fun q => decide (q.2 = p.2)) else [] := by
  have hrun : ∀ q ∈ p :: parts.takeWhile (fun q => decide (q.2 = p.2)), q.2 = p.2 :=
    forall_mem_cons.mpr ⟨rfl, fun q hq => by simpa using mem_takeWhile_imp hq⟩
  split
  · next hp => exact filter_eq_self.mpr (fun q hq => (hrun q hq).trans hp)
  · next hp => exact filter_eq_nil_iff.mpr (fun q hq => by rw [hrun q hq]; exact hp)

theorem segmentsFrom_parts {parts : List (Bytes × Bool)} (hlex : Lexical (parts.map Prod.fst))
    (h : parts.length ≤ fuel) :
    (commonSegments (segmentsFrom fuel parts)).flatMap (fun segment => tokenize segment.text) =
      (parts.filter Prod.snd).map Prod.fst := by
  induction fuel generalizing parts with
  | zero => simp [segmentsFrom, commonSegments, length_eq_zero_iff.mp (Nat.le_zero.mp h)]
  | succ fuel ih =>
    cases parts with
    | nil => rfl
    | cons p parts =>
      let run := p :: parts.takeWhile (fun q => decide (q.2 = p.2))
      let rest := parts.dropWhile (fun q => decide (q.2 = p.2))
      have hsplit : run ++ rest = p :: parts := by simp [run, rest, takeWhile_append_dropWhile]
      have hlen : rest.length ≤ fuel :=
        Nat.le_trans (dropWhile_sublist _).length_le (Nat.le_of_succ_le_succ h)
      rw [← hsplit, map_append] at hlex
      have hrest := ih (hlex.run (suffix_append _ _).isInfix) hlen
      have hrun : tokenize (run.map Prod.fst).flatten = run.map Prod.fst :=
        tokenize_flatten_of_lexical (hlex.run (prefix_append _ _).isInfix)
      have hhead : segmentsFrom (fuel + 1) (p :: parts) =
          ⟨(run.map Prod.fst).flatten, !p.2⟩ :: segmentsFrom fuel rest := by
        simp [segmentsFrom, run, rest, flatMap_def]
      have hkept : run.filter Prod.snd = if p.2 then run else [] := filter_run
      rw [hhead, ← hsplit, filter_append, map_append, ← hrest, hkept]
      cases p.2 with
      | true => simp [commonSegments, hrun]
      | false => simp [commonSegments]

theorem segmentsFor_parts {matched : List Bool} (h : matched.length = (tokenize text).length) :
    (commonSegments (segmentsFor (tokenize text) matched)).flatMap
      (fun segment => tokenize segment.text) = marked (tokenize text) matched := by
  apply segmentsFrom_parts
  · rw [map_fst_zip (Nat.le_of_eq h.symm)]
    exact tokenizeFrom_lexical _ _
  · rw [length_zip]
    exact Nat.min_le_left _ _

def commonText (segments : List Segment) : Bytes := (commonSegments segments).flatMap Segment.text

def commonPartCount (segments : List Segment) : Nat :=
  ((commonSegments segments).map (fun segment => lexicalPartCount none segment.text)).sum

theorem commonText_eq (segments : List Segment) : commonText segments =
    ((commonSegments segments).flatMap (fun segment => tokenize segment.text)).flatten := by
  rw [commonText]
  induction commonSegments segments with
  | nil => rfl
  | cons segment segments ih =>
    rw [flatMap_cons, flatMap_cons, flatten_append, tokenize_flatten, ih]

theorem commonPartCount_eq (segments : List Segment) : commonPartCount segments =
    ((commonSegments segments).flatMap (fun segment => tokenize segment.text)).length := by
  simp [commonPartCount]

/-- The parts that stay without emphasis are those of a longest common subsequence. -/
theorem wordDiff_parts {oldText newText : Bytes}
    (h : lexicalPartCount none oldText * lexicalPartCount none newText ≤ workLimit) :
    ∃ common : List Bytes, LongestCommon (tokenize oldText) (tokenize newText) common.length ∧
      (commonSegments (wordDiff oldText newText).old).flatMap
        (fun segment => tokenize segment.text) = common ∧
      (commonSegments (wordDiff oldText newText).new).flatMap
        (fun segment => tokenize segment.text) = common := by
  obtain ⟨old, new, hm, hwalk⟩ :=
    @walk_marks (tokenize oldText) (tokenize newText) _ _ _ [] [] rfl rfl (Nat.le_refl _)
  refine ⟨marked (tokenize oldText) old, hm.longest ▸ longestCommon _ _, ?_⟩
  rw [wordDiff, if_neg (Nat.not_lt.mpr h)]
  simp only [length_nil, nil_append, drop_zero] at hm hwalk
  simp only [hwalk]
  exact ⟨segmentsFor_parts hm.oldLength, by rw [segmentsFor_parts hm.newLength, hm.same]⟩

theorem wholeLine_alternating (text : Bytes) :
    Alternating (wholeLine text) ∧ commonSegments (wholeLine text) = [] := by
  rw [wholeLine]
  split <;> simp [Alternating, commonSegments]

theorem wordDiff_alternating (oldText newText : Bytes) :
    Alternating (wordDiff oldText newText).old ∧ Alternating (wordDiff oldText newText).new := by
  rw [wordDiff]
  split
  · exact ⟨(wholeLine_alternating oldText).1, (wholeLine_alternating newText).1⟩
  · exact ⟨segmentsFrom_alternating _ _, segmentsFrom_alternating _ _⟩

theorem wordDiff_commonText (oldText newText : Bytes) :
    commonText (wordDiff oldText newText).old = commonText (wordDiff oldText newText).new := by
  by_cases h : lexicalPartCount none oldText * lexicalPartCount none newText ≤ workLimit
  · obtain ⟨common, -, hold, hnew⟩ := wordDiff_parts h
    rw [commonText_eq, commonText_eq, hold, hnew]
  · rw [wordDiff, if_pos (Nat.lt_of_not_le h), commonText, commonText,
      (wholeLine_alternating oldText).2, (wholeLine_alternating newText).2]

/-- The segments of either side make up its Line with alternating emphasis, the text without emphasis
is the same on both sides, and as many parts are in it as two Lines of this size share. -/
theorem wordDiff_optimal (oldText newText : Bytes) :
    let pair := wordDiff oldText newText
    Partition oldText pair.old ∧ Partition newText pair.new ∧
      Alternating pair.old ∧ Alternating pair.new ∧
      commonText pair.old = commonText pair.new ∧
      (lexicalPartCount none oldText * lexicalPartCount none newText ≤ workLimit →
        LongestCommon (tokenize oldText) (tokenize newText) (commonPartCount pair.old) ∧
          LongestCommon (tokenize oldText) (tokenize newText) (commonPartCount pair.new)) := by
  intro pair
  obtain ⟨hold, hnew⟩ := wordDiff_partition oldText newText
  obtain ⟨haltOld, haltNew⟩ := wordDiff_alternating oldText newText
  refine ⟨hold, hnew, haltOld, haltNew, wordDiff_commonText oldText newText, fun h => ?_⟩
  obtain ⟨common, hlongest, hcommonOld, hcommonNew⟩ := wordDiff_parts h
  rw [commonPartCount_eq, commonPartCount_eq, hcommonOld, hcommonNew]
  exact ⟨hlongest, hlongest⟩

/-- A word that has moved: the two words that stay in order are the longest that can be kept. -/
theorem wordDiff_optimal_moved :
    LongestCommon (tokenize [120, 32, 97, 32, 98]) (tokenize [97, 32, 98, 32, 120]) 3 ∧
    wordDiff [120, 32, 97, 32, 98] [97, 32, 98, 32, 120] =
      { old := [⟨[120, 32], true⟩, ⟨[97, 32, 98], false⟩]
        new := [⟨[97, 32, 98], false⟩, ⟨[32, 120], true⟩] } := by
  have hlongest := (wordDiff_optimal [120, 32, 97, 32, 98] [97, 32, 98, 32, 120]).2.2.2.2.2 (by decide)
  have hcount : commonPartCount (wordDiff [120, 32, 97, 32, 98] [97, 32, 98, 32, 120]).old = 3 := by
    decide
  rw [hcount] at hlongest
  exact ⟨hlongest.1, by decide⟩

end Bbr.Tui
