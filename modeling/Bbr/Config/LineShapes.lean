import Bbr.Config.LineParser
import Bbr.Diff.PathLaws
import Bbr.Lib.Trims

/-!
# Shapes of lines

What the parser of a line reads, as a text in front of what is left, and that it reads it again in
front of anything else.
-/
namespace Bbr.Config.LineParser

open List

open Bbr.Lib (Stops takeWhile_stops exists_stops)

variable {self after : LineParser} {pos : Nat} {c : UInt8} {p : UInt8 → Bool}
  {front rest item : Bytes}

theorem advance_append (pos : Nat) (front rest : Bytes) :
    (⟨pos, front ++ rest⟩ : LineParser).advance front.length = ⟨pos + front.length, rest⟩ := by
  rw [advance, drop_left]

theorem newline_not_mem_splitOn (source : Bytes) : ∀ line ∈ source.splitOn newline, newline ∉ line := by
  induction source with
  | nil => simp
  | cons c source ih =>
    rw [splitOn_cons_eq_if_modifyHead]
    split
    · simpa using ih
    rename_i hc
    obtain ⟨first, lines, hsplit⟩ := exists_cons_of_ne_nil (splitOn_ne_nil newline source)
    have hne : newline ≠ c := fun heq => hc (by simp [heq])
    rw [hsplit] at ih ⊢
    simpa [hne] using ih

theorem skip_eq (hfront : ∀ c ∈ front, p c = true) (h : Stops p rest) :
    (⟨pos, front ++ rest⟩ : LineParser).skip p = ⟨pos + front.length, rest⟩ := by
  rw [skip, takeWhile_stops hfront h, advance_append]

theorem skip_spec (self : LineParser) (p : UInt8 → Bool) :
    ∃ front, self.text = front ++ (self.skip p).text ∧ (∀ c ∈ front, p c = true) ∧
      Stops p (self.skip p).text ∧ (self.skip p).pos = self.pos + front.length := by
  obtain ⟨rest, htext, hfront, hrest⟩ := exists_stops p self.text
  obtain ⟨pos, text⟩ := self
  have hskip := @skip_eq pos p (text.takeWhile p) rest hfront hrest
  rw [← htext] at hskip
  rw [hskip]
  exact ⟨_, htext, hfront, hrest, rfl⟩

def Blanks (front : Bytes) : Prop := ∀ c ∈ front, isSpace c = true

theorem space_eq (hfront : Blanks front) (h : Stops isSpace rest) :
    (⟨pos, front ++ rest⟩ : LineParser).space = ⟨pos + front.length, rest⟩ := skip_eq hfront h

theorem space_spec (self : LineParser) :
    ∃ front, self.text = front ++ self.space.text ∧ Blanks front ∧ Stops isSpace self.space.text ∧
      self.space.pos = self.pos + front.length := skip_spec self isSpace

theorem stops_cons (h : p c = false) : Stops p (c :: rest) := by
  intro d hd
  cases hd
  exact h

theorem take_eq : (⟨pos, c :: rest⟩ : LineParser).take c = some ⟨pos + 1, rest⟩ := by
  simp [take, advance]

theorem take_spec (h : self.take c = some after) :
    self.text = c :: after.text ∧ after.pos = self.pos + 1 := by
  rw [take] at h
  split at h
  · next hhead =>
    cases h
    obtain ⟨rest, hrest⟩ := head?_eq_some_iff.mp hhead
    simp [hrest, advance]
  · cases h

def Plain (item : Bytes) : Prop := ∀ c ∈ item, isPlain c = true

/-- A string between its quotes. -/
def quote_ (item : Bytes) : Bytes := quote :: item ++ [quote]

theorem quoted_eq (h : Plain item) : (⟨pos, quote_ item ++ rest⟩ : LineParser).quoted =
      .ok (item, ⟨pos + (quote_ item).length, rest⟩) := by
  have hstop : Stops isPlain (quote :: rest) := stops_cons rfl
  have hskip := @skip_eq (pos + 1) isPlain item (quote :: rest) h hstop
  have htext : quote_ item ++ rest = quote :: (item ++ quote :: rest) := by simp [quote_]
  rw [htext, quoted, take_eq]
  simp only [hskip, takeWhile_stops h hstop]
  rw [if_neg (by decide)]
  simp only [advance, quote_, length_append, length_cons, length_nil, drop_succ_cons, drop_zero]
  congr 3
  omega

theorem quoted_spec (h : self.quoted = .ok (item, after)) :
    self.text = quote_ item ++ after.text ∧ Plain item ∧
      after.pos = self.pos + (quote_ item).length := by
  rw [quoted] at h
  split at h
  · cases h
  rename_i start htake
  obtain ⟨htext, hpos⟩ := take_spec htake
  obtain ⟨front, hfront, hplain, hstop, hskip⟩ := skip_spec start isPlain
  have hitem : start.text.takeWhile isPlain = front := by
    rw [hfront]
    exact takeWhile_stops hplain hstop
  simp only [hitem] at h
  split at h
  · cases h
  rename_i c rest hrest
  split at h
  · cases h
  rename_i hne
  cases h
  have hquote : c = quote := by
    have hc := hstop c (by rw [hrest]; rfl)
    simp only [isPlain, Bool.and_eq_false_iff, bne_eq_false_iff_eq] at hc
    cases hc with
    | inl hc => exact hc
    | inr hc => exact absurd hc hne
  rw [hquote] at hrest
  refine ⟨?_, hplain, ?_⟩
  · rw [htext, hfront, hrest, advance_text, hrest]
    simp [quote_]
  · simp only [advance, hskip, hpos, quote_, length_append, length_cons, length_nil]
    omega

/-- The text of a key, bare or between quotes. -/
inductive KeyText : Bytes → Bytes → Prop where
  | bare {key : Bytes} (hne : key ≠ []) (h : ∀ c ∈ key, isKeyByte c = true) : KeyText key key
  | quoted {key : Bytes} (h : Plain key) : KeyText (quote_ key) key

theorem key_eq {text key : Bytes} (h : KeyText text key) (hrest : Stops isKeyByte rest) :
    (⟨pos, text ++ rest⟩ : LineParser).key = .ok (key, ⟨pos + text.length, rest⟩) := by
  cases h with
  | bare hne h =>
    cases text with
    | nil => exact absurd rfl hne
    | cons c text =>
      have hc : c ≠ quote := by
        rintro rfl
        exact absurd (h quote mem_cons_self) (by decide)
      rw [LineParser.key, if_neg (by simpa using hc), run, takeWhile_stops h hrest, skip_eq h hrest]
      simp
  | quoted h =>
    rw [LineParser.key, if_pos (by simp [quote_]), quoted_eq h]

theorem key_spec {key : Bytes} (h : self.key = .ok (key, after)) :
    ∃ text, self.text = text ++ after.text ∧ KeyText text key ∧
      after.pos = self.pos + text.length ∧ (text = key → Stops isKeyByte after.text) := by
  rw [LineParser.key] at h
  split at h
  · obtain ⟨htext, hplain, hpos⟩ := quoted_spec h
    refine ⟨_, htext, .quoted hplain, hpos, fun heq => ?_⟩
    have hlength := congrArg length heq
    simp only [quote_, length_append, length_cons, length_nil] at hlength
    omega
  · rw [run] at h
    obtain ⟨front, hfront, hkey, hstop, hpos⟩ := skip_spec self isKeyByte
    have htake : self.text.takeWhile isKeyByte = front := by
      rw [hfront]
      exact takeWhile_stops hkey hstop
    simp only [htake] at h
    split at h
    · cases h
    · next hne =>
      cases h
      exact ⟨_, hfront, .bare hne hkey, hpos, fun _ => hstop⟩

theorem KeyText.stops_space {text key : Bytes} (h : KeyText text key) (rest : Bytes) :
    Stops isSpace (text ++ rest) ∧ (⟨pos, text ++ rest⟩ : LineParser).trailing = false ∧
      (text ++ rest).head? ≠ some openBracket := by
  cases h with
  | bare hne h =>
    cases text with
    | nil => exact absurd rfl hne
    | cons c text =>
      have hc := h c mem_cons_self
      have hbyte : ∀ c, isKeyByte c = true → isSpace c = false ∧ (c == hash) = false ∧
          c ≠ openBracket := Diff.forall_byte (by decide +kernel)
      obtain ⟨hspace, hhash, hbracket⟩ := hbyte c hc
      exact ⟨stops_cons hspace, hhash, by simpa using hbracket⟩
  | quoted h => exact ⟨stops_cons rfl, rfl, by simp [quote_, quote, openBracket]⟩

/-- A key, an equals sign, and blanks around them. -/
def EntryFront (front key : Bytes) : Prop :=
  ∃ before text between behind, Blanks before ∧ KeyText text key ∧ Blanks between ∧ Blanks behind ∧
    front = before ++ (text ++ (between ++ equals :: behind))

/-- What the readers do in front of a value. -/
structure Entry (line key : Bytes) (value : LineParser) : Prop where
  open_ : (LineParser.space { text := line }).trailing = false
  entry : (LineParser.space { text := line }).text.head? ≠ some openBracket
  reads : ∃ parser start, (LineParser.space { text := line }).key = .ok (key, parser) ∧
    parser.space.take equals = some start ∧ start.space = value

theorem EntryFront.reads {key : Bytes} (h : EntryFront front key) (hrest : Stops isSpace rest) :
    Entry (front ++ rest) key ⟨front.length, rest⟩ := by
  obtain ⟨before, text, between, behind, hbefore, htext, hbetween, hbehind, rfl⟩ := h
  obtain ⟨hstart, htrailing, hbracket⟩ :=
    @KeyText.stops_space before.length text key htext (between ++ equals :: (behind ++ rest))
  have hline : before ++ (text ++ (between ++ equals :: behind)) ++ rest =
      before ++ (text ++ (between ++ equals :: (behind ++ rest))) := by simp
  have hspace := @space_eq 0 _ _ hbefore hstart
  rw [Nat.zero_add] at hspace
  have hequals : Stops isSpace (equals :: (behind ++ rest)) := stops_cons rfl
  have hkey : Stops isKeyByte (between ++ equals :: (behind ++ rest)) := by
    have hbyte : ∀ c, isSpace c = true → isKeyByte c = false := Diff.forall_byte (by decide +kernel)
    cases between with
    | nil => exact stops_cons rfl
    | cons c between => exact stops_cons (hbyte c (hbetween c mem_cons_self))
  rw [hline]
  refine ⟨by rw [hspace]; exact htrailing, by rw [hspace]; exact hbracket, ?_⟩
  rw [hspace]
  refine ⟨_, ⟨before.length + text.length + between.length + 1, behind ++ rest⟩,
    key_eq htext hkey, ?_, ?_⟩
  · rw [space_eq hbetween hequals, take_eq]
  rw [space_eq hbehind hrest]
  simp only [length_append, length_cons]
  congr 1
  omega

theorem Entry.shape {line key : Bytes} {value : LineParser} (h : Entry line key value) :
    ∃ front, line = front ++ value.text ∧ EntryFront front key ∧ value.pos = front.length ∧
      Stops isSpace value.text := by
  obtain ⟨_, _, parser, start, hkey, htake, rfl⟩ := h
  obtain ⟨before, hbefore, hblanks, _, hpos⟩ := space_spec { text := line }
  obtain ⟨text, htext, hshape, hkeypos, _⟩ := key_spec hkey
  obtain ⟨between, hbetween, hmiddle, _, hmidpos⟩ := space_spec parser
  obtain ⟨hequals, hequalspos⟩ := take_spec htake
  obtain ⟨behind, hbehind, hlast, hstop, hlastpos⟩ := space_spec start
  refine ⟨_, ?_, ⟨before, text, between, behind, hblanks, hshape, hmiddle, hlast, rfl⟩, ?_, hstop⟩
  · simp only at hbefore
    rw [hbefore, htext, hbetween, hequals, hbehind]
    simp
  · simp only [length_append, length_cons]
    simp only at hpos
    omega

/-- The text of the strings of an array, with the gaps between them. -/
inductive Strings (gap string : Bytes → Prop) : List Bytes → Bytes → Prop where
  | one {item back : Bytes} (hitem : string item) (hback : gap back) :
      Strings gap string [item] (quote_ item ++ back)
  | cons {item back front text : Bytes} {items : List Bytes} (hitem : string item)
      (hback : gap back) (hfront : gap front) (hrest : Strings gap string items text) :
      Strings gap string (item :: items) (quote_ item ++ (back ++ comma :: (front ++ text)))

theorem strings_spec {room : Nat} {items : List Bytes} (h : strings room self = .ok (items, after)) :
    ∃ text, self.text = text ++ closeBracket :: after.text ∧ Strings Blanks Plain items text ∧
      items.length ≤ room := by
  induction room generalizing self items with
  | zero => cases h
  | succ room ih =>
    rw [strings] at h
    split at h
    · cases h
    rename_i item stop hquoted
    obtain ⟨htext, hplain, _⟩ := quoted_spec hquoted
    obtain ⟨back, hback, hblanks, _⟩ := space_spec stop
    simp only at h
    split at h
    · next close hclose =>
      cases h
      have hclosed := (take_spec hclose).1
      exact ⟨_, by rw [htext, hback, hclosed]; simp, .one hplain hblanks, by simp⟩
    split at h
    · cases h
    rename_i next hcomma
    have hnext := (take_spec hcomma).1
    obtain ⟨front, hfront, hblanks', _⟩ := space_spec next
    split at h
    · cases h
    rename_i rest stop' hrest
    cases h
    obtain ⟨text, htext', hstrings, hlength⟩ := ih hrest
    refine ⟨_, ?_, .cons hplain hblanks hblanks' hstrings, by simpa using hlength⟩
    rw [htext, hback, hnext, hfront, htext']
    simp

theorem stringArray_spec {items : List Bytes} (h : self.stringArray = .ok (items, after))
    (hne : items ≠ []) :
    ∃ front text, self.text = openBracket :: (front ++ (text ++ closeBracket :: after.text)) ∧
      Blanks front ∧ Strings Blanks Plain items text ∧ items.length ≤ maxItems := by
  rw [stringArray] at h
  split at h
  · cases h
  rename_i start hopen
  obtain ⟨front, hfront, hblanks, _⟩ := space_spec start
  simp only at h
  split at h
  · cases h
    exact absurd rfl hne
  · obtain ⟨text, htext, hstrings, hlength⟩ := strings_spec h
    exact ⟨front, text, by rw [(take_spec hopen).1, hfront, htext], hblanks, hstrings, hlength⟩

def Comment (text : Bytes) : Prop := text = [] ∨ text.head? = some hash

theorem trailing_iff : self.trailing = true ↔ Comment self.text := by
  rw [LineParser.trailing, Comment]
  cases self.text with
  | nil => simp
  | cons c rest => simp

theorem space_trailing (h : self.space.trailing = true) :
    ∃ front comment, self.text = front ++ comment ∧ Blanks front ∧ Comment comment := by
  obtain ⟨front, htext, hblanks, _⟩ := space_spec self
  exact ⟨front, _, htext, hblanks, trailing_iff.mp h⟩

/-- The name of a table, as the text between its brackets. -/
def TableName (name : Bytes) : Prop := name ≠ [] ∧ closeBracket ∉ name

theorem section_spec {name : Bytes} (h : self.section_ = .ok (name, after)) :
    self.text = openBracket :: (name ++ closeBracket :: after.text) ∧ TableName name := by
  rw [section_] at h
  split at h
  · cases h
  rename_i start hopen
  obtain ⟨front, hfront, hname, hstop, _⟩ := skip_spec start (· != closeBracket)
  have htake : start.text.takeWhile (· != closeBracket) = front := by
    rw [hfront]
    exact takeWhile_stops hname hstop
  simp only [htake] at h
  split at h
  · cases h
  rename_i hne
  rw [not_or] at hne
  cases h
  obtain ⟨c, rest, hrest⟩ := exists_cons_of_ne_nil hne.1
  have hc : c = closeBracket := by simpa using hstop c (by rw [hrest]; rfl)
  refine ⟨?_, hne.2, fun hmem => by simpa using hname _ hmem⟩
  rw [(take_spec hopen).1, hfront, hrest, advance_text, hrest, hc]
  rfl

end Bbr.Config.LineParser
