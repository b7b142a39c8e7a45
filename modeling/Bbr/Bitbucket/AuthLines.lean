import Bbr.Bitbucket.Auth
import Bbr.Diff.PrintLaws

/-!
# Lines of a credential file

What the reader does with each kind of line that is written.
-/
namespace Bbr.Bitbucket.Auth

open List

open Bbr.Diff (ascii joinRows)
open Bbr.Lib (trimBoth trimEnd Trimmed)

/-- A value that a string can hold. -/
def Clean (value : Bytes) : Prop := ∀ c ∈ value, isForbiddenStringByte c = false

def escape (value : Bytes) : Bytes := value.flatMap escapeByte

theorem escape_cons (c : UInt8) (value : Bytes) : escape (c :: value) = escapeByte c ++ escape value := by
  simp [escape]

variable {value : Bytes}

theorem escapeInto_eq (h : Clean value) : escapeInto value = .ok (escape value) := by
  have hany : value.any isForbiddenStringByte = false := by
    rw [any_eq_false]
    intro c hc
    simp [h c hc]
  simp [escapeInto, hany, escape]

variable {c : UInt8}

theorem escapeByte_special (h : c = doubleQuote ∨ c = backslash) : escapeByte c = [backslash, c] := by
  obtain rfl | rfl := h <;> rfl

theorem escapeByte_plain (h : ¬(c = doubleQuote ∨ c = backslash)) : escapeByte c = [c] := by
  rw [not_or] at h
  rw [escapeByte, if_neg h.1, if_neg h.2]

theorem unescape_special (h : c = doubleQuote ∨ c = backslash) (rest : Bytes) :
    unescape (backslash :: c :: rest) = (unescape rest).map (c :: ·) := by
  have hback : backslash ≠ doubleQuote := by decide
  rw [unescape.eq_def]
  simp only [if_neg hback, if_true, if_pos h]

theorem unescape_plain (h : ¬(c = doubleQuote ∨ c = backslash))
    (hclean : isForbiddenStringByte c = false) (rest : Bytes) :
    unescape (c :: rest) = (unescape rest).map (c :: ·) := by
  rw [not_or] at h
  rw [unescape.eq_def]
  simp [h.1, h.2, hclean]

theorem unescape_escape (h : Clean value) : unescape (escape value ++ [doubleQuote]) = some value := by
  induction value with
  | nil => rfl
  | cons c value ih =>
    have hrest := ih (fun d hd => h d (mem_cons_of_mem _ hd))
    rw [escape_cons, append_assoc]
    by_cases hspecial : c = doubleQuote ∨ c = backslash
    · rw [escapeByte_special hspecial, cons_append, singleton_append,
        unescape_special hspecial, hrest, Option.map_some]
    · rw [escapeByte_plain hspecial, singleton_append,
        unescape_plain hspecial (h c mem_cons_self), hrest, Option.map_some]

theorem newline_not_mem_escape (h : Clean value) : newline ∉ escape value := by
  intro hmem
  obtain ⟨c, hc, hbyte⟩ := mem_flatMap.mp hmem
  have hclean := h c hc
  rw [escapeByte] at hbyte
  split at hbyte
  · simp [newline, backslash, doubleQuote] at hbyte
  split at hbyte
  · simp [newline, backslash] at hbyte
  · rw [← mem_singleton.mp hbyte] at hclean
    exact absurd hclean (by decide)

theorem beforeComment_plain {plain : Bytes} (h : ∀ c ∈ plain, c ≠ hash ∧ c ≠ doubleQuote)
    (rest : Bytes) : beforeComment false false (plain ++ rest) =
      (beforeComment false false rest).map (plain ++ ·) := by
  induction plain with
  | nil => simp
  | cons c plain ih =>
    have hc := h c mem_cons_self
    have hquote : (c == doubleQuote) = false := by simpa using hc.2
    rw [cons_append, beforeComment, if_neg hc.1, hquote,
      ih (fun d hd => h d (mem_cons_of_mem _ hd)), Option.map_map]
    rfl

theorem beforeComment_backslash (c : UInt8) (rest : Bytes) :
    beforeComment true false (backslash :: c :: rest) =
      (beforeComment true false rest).map ([backslash, c] ++ ·) := by
  rw [beforeComment, if_neg (by decide), if_pos rfl, beforeComment, if_pos rfl, Option.map_map]
  rfl

theorem beforeComment_inner (h : ¬(c = doubleQuote ∨ c = backslash)) (rest : Bytes) :
    beforeComment true false (c :: rest) = (beforeComment true false rest).map ([c] ++ ·) := by
  rw [not_or] at h
  have hquote : (c != doubleQuote) = true := by simpa using h.1
  rw [beforeComment, if_neg (by decide), if_neg h.2, hquote]
  rfl

theorem beforeComment_escape (value rest : Bytes) :
    beforeComment true false (escape value ++ doubleQuote :: rest) =
      (beforeComment false false rest).map (fun before => escape value ++ doubleQuote :: before) := by
  induction value with
  | nil =>
    rfl
  | cons c value ih =>
    rw [escape_cons, append_assoc]
    by_cases hspecial : c = doubleQuote ∨ c = backslash
    · rw [escapeByte_special hspecial, cons_append, singleton_append,
        beforeComment_backslash, ih, Option.map_map]
      rfl
    · rw [escapeByte_plain hspecial, singleton_append, beforeComment_inner hspecial, ih, Option.map_map]
      rfl

variable {line : Bytes}

theorem stripTrailingComment_eq (h : beforeComment false false line = none) :
    stripTrailingComment line = line := by
  rw [stripTrailingComment, h]

/-- A key or a name: no blank, and none of the characters that mean anything. -/
def isWordByte (c : UInt8) : Bool := isAlphanumeric c || c == 0x2d || c == 0x5f

def Word (word : Bytes) : Prop := word ≠ [] ∧ ∀ c ∈ word, isWordByte c = true

theorem isWordByte_ne {d : UInt8} (h : isWordByte c = true) (hd : isWordByte d = false) : c ≠ d := by
  rintro rfl
  rw [h] at hd
  cases hd

theorem isBlank_word (h : isWordByte c = true) : isBlank c = false := by
  have hspace : c ≠ 0x20 := isWordByte_ne h (by decide)
  have htab : c ≠ 0x09 := isWordByte_ne h (by decide)
  simp [isBlank, hspace, htab]

variable {word : Bytes}

theorem Word.trimmed (h : Word word) : Trimmed isBlank word where
  head c hc := isBlank_word (h.2 c (mem_of_head? hc))
  last c hc := isBlank_word (h.2 c (mem_of_getLast? hc))

theorem Word.plain (h : Word word) : ∀ c ∈ word, c ≠ hash ∧ c ≠ doubleQuote :=
  fun c hc => ⟨isWordByte_ne (h.2 c hc) (by decide), isWordByte_ne (h.2 c hc) (by decide)⟩

variable {name : Bytes}

theorem word_of_valid (h : isValidProfileName name = true) : Word name := by
  cases name with
  | nil => simp [isValidProfileName] at h
  | cons first rest =>
    simp only [isValidProfileName, Bool.and_eq_true, all_eq_true] at h
    refine ⟨by simp, fun c hc => ?_⟩
    cases hc with
    | head => simp [isWordByte, h.1.2]
    | tail _ hc => exact h.2 c hc

def fieldLine (key value : Bytes) : Bytes :=
  key ++ (ascii " = " ++ (doubleQuote :: (escape value ++ [doubleQuote])))

def headerLine (name : Bytes) : Bytes := ascii "[profiles." ++ (name ++ [closeBracket])

theorem contentOf_eq (h : Trimmed isBlank line) (hend : line.getLast? ≠ some carriageReturn) :
    contentOf line = line := by
  rw [contentOf, if_neg hend, h.trimBoth_eq]

theorem getLast?_fieldLine (key value : Bytes) : (fieldLine key value).getLast? = some doubleQuote := by
  have hcut : fieldLine key value =
      (key ++ (ascii " = " ++ (doubleQuote :: escape value))) ++ [doubleQuote] := by
    simp [fieldLine]
  rw [hcut, getLast?_concat]

theorem Word.head_append (h : Word word) (rest : Bytes) :
    ∃ c, isWordByte c = true ∧ (word ++ rest).head? = some c := by
  cases word with
  | nil => exact absurd rfl h.1
  | cons c word => exact ⟨c, h.2 c mem_cons_self, rfl⟩

variable {key : Bytes}

section

variable (h : Word key) (value)
include h

theorem contentOf_fieldLine : contentOf (fieldLine key value) = fieldLine key value := by
  obtain ⟨c, hc, hhead⟩ := h.head_append
    (ascii " = " ++ (doubleQuote :: (escape value ++ [doubleQuote])))
  refine contentOf_eq ⟨fun d hd => ?_, fun d hd => ?_⟩ ?_
  · rw [fieldLine, hhead] at hd
    rw [← Option.some.inj hd]
    exact isBlank_word hc
  · rw [getLast?_fieldLine] at hd
    rw [← Option.some.inj hd]
    rfl
  · rw [getLast?_fieldLine]
    decide

theorem stripTrailingComment_fieldLine :
    stripTrailingComment (fieldLine key value) = fieldLine key value := by
  have hequals : ∀ c ∈ ascii " = ", c ≠ hash ∧ c ≠ doubleQuote := by decide +kernel
  refine stripTrailingComment_eq ?_
  rw [fieldLine, beforeComment_plain h.plain, beforeComment_plain hequals, beforeComment,
    if_neg (by decide), beq_self_eq_true, beforeComment_escape]
  rfl

theorem idxOf?_fieldLine : (fieldLine key value).idxOf? equals = some (key.length + 1) := by
  have hfront : (key ++ [0x20]).findIdx? (fun c => c == equals) = none := by
    rw [findIdx?_eq_none_iff]
    intro c hc
    rw [mem_append, mem_singleton] at hc
    cases hc with
    | inl hkey =>
      have hne : c ≠ equals := isWordByte_ne (h.2 c hkey) (by decide)
      simpa using hne
    | inr hspace =>
      rw [hspace]
      decide
  have hcut : fieldLine key value =
      (key ++ [0x20]) ++ (equals :: 0x20 :: doubleQuote :: (escape value ++ [doubleQuote])) := by
    simp [fieldLine, ascii, equals]
  rw [idxOf?, hcut, findIdx?_append, hfront]
  simp [findIdx?_cons]

theorem key_fieldLine : trimBoth isBlank ((fieldLine key value).take (key.length + 1)) = key := by
  have hcut : fieldLine key value =
      (key ++ [0x20]) ++ (equals :: 0x20 :: doubleQuote :: (escape value ++ [doubleQuote])) := by
    simp [fieldLine, ascii, equals]
  rw [hcut, take_left' (by simp), Lib.trimBoth_append_right (by decide +kernel), h.trimmed.trimBoth_eq]

end

theorem value_fieldLine (h : Clean value) :
    parseBasicString (trimBoth isBlank ((fieldLine key value).drop (key.length + 2))) =
      some value := by
  have hcut : fieldLine key value =
      (key ++ ascii " =") ++ ([0x20] ++ (doubleQuote :: (escape value ++ [doubleQuote]))) := by
    simp [fieldLine, ascii]
  have htrimmed : Trimmed isBlank (doubleQuote :: (escape value ++ [doubleQuote])) := by
    refine ⟨fun c hc => ?_, fun c hc => ?_⟩
    · rw [← Option.some.inj hc]
      rfl
    have hlast : (doubleQuote :: (escape value ++ [doubleQuote])).getLast? =
        some doubleQuote := by
      rw [← cons_append, getLast?_concat]
    rw [hlast] at hc
    rw [← Option.some.inj hc]
    rfl
  rw [hcut, drop_left' (by simp [ascii]), Lib.trimBoth_append_left (by decide +kernel),
    htrimmed.trimBoth_eq, parseBasicString, if_pos rfl, unescape_escape h]

variable {state : State} {rest : List Bytes}

theorem parseLines_blank : parseLines ([] :: rest) state = parseLines rest state := by
  rw [parseLines]
  have hline : stripTrailingComment (contentOf []) = [] := rfl
  simp [hline]

theorem parseLines_fieldLine (hkey : Word key) (hvalue : Clean value)
    (hknown : state.table.knows key = true) :
    parseLines (fieldLine key value :: rest) state =
      match setKnown state key value with
      | .error e => .error e
      | .ok state => parseLines rest state := by
  obtain ⟨c, hc, hhead⟩ := hkey.head_append
    (ascii " = " ++ (doubleQuote :: (escape value ++ [doubleQuote])))
  have hhead' : (fieldLine key value).head? = some c := hhead
  have hne : fieldLine key value ≠ [] := by
    intro hnil
    simp [hnil] at hhead'
  have hhash : c ≠ hash := isWordByte_ne hc (by decide)
  have hbracket : c ≠ openBracket := isWordByte_ne hc (by decide)
  rw [parseLines]
  cases hset : setKnown state key value <;>
    simp only [contentOf_fieldLine _ hkey, stripTrailingComment_fieldLine _ hkey, hhead', hne,
      Option.some.injEq, hhash, hbracket, or_self, if_false, idxOf?_fieldLine _ hkey,
      key_fieldLine _ hkey, hkey.1, hknown, Bool.not_true, Bool.false_eq_true, value_fieldLine hvalue,
      hset]

theorem contentOf_headerLine (name : Bytes) : contentOf (headerLine name) = headerLine name := by
  have hlast : (headerLine name).getLast? = some closeBracket := by
    rw [headerLine, ← append_assoc, getLast?_concat]
  refine contentOf_eq ⟨fun c hc => ?_, fun c hc => ?_⟩ ?_
  · rw [← Option.some.inj hc]
    rfl
  · rw [hlast] at hc
    rw [← Option.some.inj hc]
    rfl
  · rw [hlast]
    decide

/-- A header opens the profile of this name, or a new one. -/
def State.declare (self : State) (name : Bytes) : State :=
  match findIndex self.profiles name with
  | some index => { self with table := .profile index }
  | none => { self with
      profiles := self.profiles ++ [{ name := name }]
      table := .profile self.profiles.length }

theorem openTable_profile (h : isValidProfileName name = true) :
    openTable state (profilesPrefix ++ name) = .ok (state.declare name) := by
  have hprefix : profilesPrefix.isPrefixOf (profilesPrefix ++ name) = true := by simp
  rw [openTable, if_pos hprefix, State.declare]
  simp only [drop_left, (word_of_valid h).trimmed.trimBoth_eq, h, Bool.not_true,
    Bool.false_eq_true, if_false]
  cases findIndex state.profiles name <;> rfl

theorem parseLines_headerLine (h : isValidProfileName name = true) :
    parseLines (headerLine name :: rest) state = parseLines rest (state.declare name) := by
  have hword := word_of_valid h
  have hplain : ∀ c ∈ ascii "[profiles.", c ≠ hash ∧ c ≠ doubleQuote := by decide +kernel
  have hstrip : stripTrailingComment (headerLine name) = headerLine name := by
    refine stripTrailingComment_eq ?_
    rw [headerLine, beforeComment_plain hplain, beforeComment_plain hword.plain]
    rfl
  have hlast : (headerLine name).getLast? = some closeBracket := by
    rw [headerLine, ← append_assoc, getLast?_concat]
  have hinner : ((headerLine name).drop 1).dropLast = profilesPrefix ++ name := by
    have hcut : (headerLine name).drop 1 = (profilesPrefix ++ name) ++ [closeBracket] := by
      simp [headerLine, profilesPrefix, ascii]
    rw [hcut, dropLast_concat]
  have htrimmed : Trimmed isBlank (profilesPrefix ++ name) := by
    refine ⟨fun c hc => ?_, fun c hc => ?_⟩
    · rw [← Option.some.inj hc]
      rfl
    cases hlast : name.getLast? with
    | none => exact absurd (getLast?_eq_none_iff.mp hlast) hword.1
    | some d =>
      rw [getLast?_append, hlast] at hc
      rw [← Option.some.inj hc]
      exact hword.trimmed.last d hlast
  have hhead : (headerLine name).head? = some openBracket := rfl
  have hne : headerLine name ≠ [] := by simp [headerLine, ascii]
  have hhash : openBracket ≠ hash := by decide
  rw [parseLines]
  simp only [contentOf_headerLine, hstrip, hhead, hne, Option.some.injEq, hhash, or_self, if_false,
    if_true, hlast, ne_eq, not_true_eq_false, hinner, htrimmed.trimBoth_eq, openTable_profile h]

end Bbr.Bitbucket.Auth
