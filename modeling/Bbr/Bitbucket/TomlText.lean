import Bbr.Bitbucket.AuthLines

/-!
# Texts of TOML

The keys and values of TOML as texts. The scanning of delimiters ends exactly behind a value, over
all its lines.
-/
namespace Bbr.Bitbucket.Auth

open List

open Bbr.Diff (ascii)

/-- The inside of a basic string on one line. -/
inductive BasicText : Bytes → Prop where
  | nil : BasicText []
  | byte {c : UInt8} {rest : Bytes} (hquote : c ≠ doubleQuote) (hback : c ≠ backslash)
      (hline : c ≠ newline) (hrest : BasicText rest) : BasicText (c :: rest)
  | escape {c : UInt8} {rest : Bytes} (hline : c ≠ newline) (hrest : BasicText rest) :
      BasicText (backslash :: c :: rest)

/-- The inside of a literal string on one line. -/
def LiteralText (text : Bytes) : Prop := ∀ c ∈ text, c ≠ singleQuote ∧ c ≠ newline

/-- The inside of a string over several lines. It begins with a number of quotes, and nowhere do
three of them stand together. -/
inductive LongText (quote : UInt8) : Nat → Bytes → Prop where
  | nil : LongText quote 0 []
  | byte {c : UInt8} {n : Nat} {rest : Bytes} (hquote : c ≠ quote)
      (hback : quote = doubleQuote → c ≠ backslash) (hrest : LongText quote n rest) :
      LongText quote 0 (c :: rest)
  | escape {c : UInt8} {n : Nat} {rest : Bytes} (hbasic : quote = doubleQuote)
      (hrest : LongText quote n rest) : LongText quote 0 (backslash :: c :: rest)
  | quote {n : Nat} {rest : Bytes} (hn : n < 2) (hrest : LongText quote n rest) :
      LongText quote (n + 1) (quote :: rest)

variable {text : Bytes}

theorem longText_plain {quote : UInt8} (h : ∀ c ∈ text, c ≠ quote ∧ c ≠ backslash) :
    LongText quote 0 text := by
  induction text with
  | nil => exact .nil
  | cons c text ih =>
    obtain ⟨hquote, hback⟩ := h c mem_cons_self
    exact .byte hquote (fun _ => hback) (ih (fun d hd => h d (mem_cons_of_mem _ hd)))

inductive StringText : Bytes → Prop where
  | basic {text : Bytes} (h : BasicText text) : StringText (doubleQuote :: text ++ [doubleQuote])
  | literal {text : Bytes} (h : LiteralText text) : StringText (singleQuote :: text ++ [singleQuote])
  | long {quote : UInt8} {n : Nat} {text : Bytes} (hquote : quote = doubleQuote ∨ quote = singleQuote)
      (h : LongText quote n text) :
      StringText ([quote, quote, quote] ++ text ++ [quote, quote, quote])

def Blanks (text : Bytes) : Prop := ∀ c ∈ text, isBlank c = true

/-- A bare key, or a quoted one on one line. -/
inductive KeyPart : Bytes → Prop where
  | bare {text : Bytes} (h : Word text) : KeyPart text
  | basic {text : Bytes} (h : BasicText text) : KeyPart (doubleQuote :: text ++ [doubleQuote])
  | literal {text : Bytes} (h : LiteralText text) : KeyPart (singleQuote :: text ++ [singleQuote])

def dot : UInt8 := 0x2e

/-- Parts with dots between them. -/
inductive KeyText : Bytes → Prop where
  | part {text : Bytes} (h : KeyPart text) : KeyText text
  | dotted {text before after rest : Bytes} (h : KeyPart text) (hbefore : Blanks before)
      (hafter : Blanks after) (hrest : KeyText rest) :
      KeyText (text ++ before ++ dot :: after ++ rest)

/-- A byte of a number, a boolean or a date. -/
def isScalarByte (c : UInt8) : Bool :=
  isWordByte c || c == 0x2b || c == dot || c == 0x3a || c == 0x20

def comma : UInt8 := 0x2c

inductive Part where
  | gap
  | value
  | items
  | fields

/-- Values, and what stands between the brackets of arrays and inline tables: lines may end there,
and comments stand at the ends of lines. -/
inductive Derives : Part → Bytes → Prop where
  | gap_nil : Derives .gap []
  | blank {c : UInt8} {rest : Bytes} (hc : isBlank c = true ∨ c = carriageReturn ∨ c = newline)
      (hrest : Derives .gap rest) : Derives .gap (c :: rest)
  | comment {text rest : Bytes} (htext : newline ∉ text) (hrest : Derives .gap rest) :
      Derives .gap (hash :: text ++ newline :: rest)
  | scalar {text : Bytes} (hne : text ≠ []) (htext : ∀ c ∈ text, isScalarByte c = true) :
      Derives .value text
  | string {text : Bytes} (h : StringText text) : Derives .value text
  | array {text : Bytes} (h : Derives .items text) :
      Derives .value (openBracket :: text ++ [closeBracket])
  | table {text : Bytes} (h : Derives .fields text) : Derives .value (0x7b :: text ++ [0x7d])
  | items_end {text : Bytes} (h : Derives .gap text) : Derives .items text
  | item {before value after : Bytes} (hbefore : Derives .gap before) (hvalue : Derives .value value)
      (hafter : Derives .gap after) : Derives .items (before ++ value ++ after)
  | item_next {before value after rest : Bytes} (hbefore : Derives .gap before)
      (hvalue : Derives .value value) (hafter : Derives .gap after) (hrest : Derives .items rest) :
      Derives .items (before ++ value ++ after ++ comma :: rest)
  | fields_end {text : Bytes} (h : Derives .gap text) : Derives .fields text
  | field {before key mid eq value after : Bytes} (hbefore : Derives .gap before)
      (hkey : KeyText key) (hmid : Blanks mid) (heq : Blanks eq) (hvalue : Derives .value value)
      (hafter : Derives .gap after) :
      Derives .fields (before ++ key ++ mid ++ equals :: eq ++ value ++ after)
  | field_next {before key mid eq value after rest : Bytes} (hbefore : Derives .gap before)
      (hkey : KeyText key) (hmid : Blanks mid) (heq : Blanks eq) (hvalue : Derives .value value)
      (hafter : Derives .gap after) (hrest : Derives .fields rest) :
      Derives .fields (before ++ key ++ mid ++ equals :: eq ++ value ++ after ++ comma :: rest)

def firstLine (text : Bytes) : Bytes := (text.splitOn newline).headD []

def laterLines (text : Bytes) : List Bytes := (text.splitOn newline).tail

theorem splitOn_eq (text : Bytes) : text.splitOn newline = firstLine text :: laterLines text := by
  obtain ⟨first, lines, hsplit⟩ := exists_cons_of_ne_nil (splitOn_ne_nil newline text)
  simp [firstLine, laterLines, hsplit]

@[simp] theorem firstLine_nil : firstLine [] = [] := by simp [firstLine]

@[simp] theorem laterLines_nil : laterLines [] = [] := by simp [laterLines]

@[simp] theorem firstLine_newline (text : Bytes) : firstLine (newline :: text) = [] := by
  simp [firstLine, splitOn_cons_eq_if_modifyHead]

@[simp] theorem laterLines_newline (text : Bytes) :
    laterLines (newline :: text) = firstLine text :: laterLines text := by
  rw [← splitOn_eq text]
  simp [laterLines, splitOn_cons_eq_if_modifyHead]

variable {c : UInt8}

theorem splitOn_cons (h : c ≠ newline) (text : Bytes) :
    (c :: text).splitOn newline = (c :: firstLine text) :: laterLines text := by
  rw [splitOn_cons_eq_if_modifyHead, if_neg (by simpa using h), splitOn_eq text]
  rfl

theorem firstLine_cons (h : c ≠ newline) (text : Bytes) :
    firstLine (c :: text) = c :: firstLine text := by
  rw [firstLine, splitOn_cons h]
  rfl

theorem laterLines_cons (h : c ≠ newline) (text : Bytes) :
    laterLines (c :: text) = laterLines text := by
  rw [laterLines, splitOn_cons h]
  rfl

variable {front : Bytes}

theorem lines_append (h : newline ∉ front) (text : Bytes) :
    firstLine (front ++ text) = front ++ firstLine text ∧
      laterLines (front ++ text) = laterLines text := by
  induction front with
  | nil => simp
  | cons c front ih =>
    simp only [mem_cons, not_or] at h
    obtain ⟨hfirst, hlater⟩ := ih h.2
    rw [cons_append, firstLine_cons (Ne.symm h.1), laterLines_cons (Ne.symm h.1), hfirst, hlater]
    simp

variable {q : UInt8}

/-- A text that does not begin with a quote has a first line that does not. -/
theorem firstLine_head (h : text.head? ≠ some q) : (firstLine text).head? ≠ some q := by
  cases text with
  | nil => simp
  | cons c text =>
    by_cases hc : c = newline
    · simp [hc]
    · rw [firstLine_cons hc]
      simpa using h

@[simp] theorem scan_nil (state : Open) : scanDelimiters state [] = some state := by
  rw [scanDelimiters]

/-- A byte that is not a delimiter. -/
def Inert (c : UInt8) : Prop :=
  c ≠ hash ∧ c ≠ doubleQuote ∧ c ≠ singleQuote ∧ c ≠ openBracket ∧ c ≠ 0x7b ∧ c ≠ closeBracket ∧
    c ≠ 0x7d

/-- Brackets are open, and no string. -/
def inBrackets (depth : Nat) : Open := { depth := depth }

def inString (depth : Nat) (quote : UInt8) : Open := { depth := depth, quote := some quote }

def inLong (depth : Nat) (quote : UInt8) : Open :=
  { depth := depth, quote := some quote, multiline := true }

theorem scan_inert (h : Inert c) (depth : Nat) (rest : Bytes) :
    scanDelimiters (inBrackets depth) (c :: rest) = scanDelimiters (inBrackets depth) rest := by
  obtain ⟨hhash, hdouble, hsingle, hopen, hbrace, hclose, hend⟩ := h
  rw [scanDelimiters]
  simp [inBrackets, hhash, hdouble, hsingle, hopen, hbrace, hclose, hend]

theorem scan_inerts (h : ∀ c ∈ front, Inert c) (depth : Nat) (rest : Bytes) :
    scanDelimiters (inBrackets depth) (front ++ rest) = scanDelimiters (inBrackets depth) rest := by
  induction front with
  | nil => rfl
  | cons c front ih =>
    rw [cons_append, scan_inert (h c mem_cons_self), ih (fun d hd => h d (mem_cons_of_mem _ hd))]

theorem scan_hash (depth : Nat) (rest : Bytes) :
    scanDelimiters (inBrackets depth) (hash :: rest) = some (inBrackets depth) := by
  rw [scanDelimiters]
  simp [inBrackets]

theorem scan_open (h : c = openBracket ∨ c = 0x7b) (depth : Nat) (rest : Bytes) :
    scanDelimiters (inBrackets depth) (c :: rest) = scanDelimiters (inBrackets (depth + 1)) rest := by
  have hquote : ¬(c = doubleQuote ∨ c = singleQuote) := by obtain rfl | rfl := h <;> decide
  have hhash : c ≠ hash := by obtain rfl | rfl := h <;> decide
  rw [scanDelimiters]
  simp only [inBrackets, if_neg hhash, if_neg hquote, if_pos h]

theorem scan_close (h : c = closeBracket ∨ c = 0x7d) (depth : Nat) (rest : Bytes) :
    scanDelimiters (inBrackets (depth + 1)) (c :: rest) = scanDelimiters (inBrackets depth) rest := by
  have hquote : ¬(c = doubleQuote ∨ c = singleQuote) := by obtain rfl | rfl := h <;> decide
  have hopen : ¬(c = openBracket ∨ c = 0x7b) := by obtain rfl | rfl := h <;> decide
  have hhash : c ≠ hash := by obtain rfl | rfl := h <;> decide
  rw [scanDelimiters]
  simp only [inBrackets, if_neg hhash, if_neg hquote, if_neg hopen, if_pos h]
  simp

theorem startsTwice_cons (c d e : UInt8) (rest : Bytes) :
    startsTwice c (d :: e :: rest) = (c == d && c == e) := by
  simp [startsTwice, isPrefixOf]

variable {rest : Bytes}

theorem startsTwice_ne (h : rest.head? ≠ some c) : startsTwice c rest = false := by
  cases rest with
  | nil => rfl
  | cons d rest =>
    have hne : (c == d) = false := by
      apply beq_false_of_ne
      rintro rfl
      exact h rfl
    simp [startsTwice, isPrefixOf, hne]

theorem scan_quote (hq : q = doubleQuote ∨ q = singleQuote) (depth : Nat)
    (h : startsTwice q rest = false) :
    scanDelimiters (inBrackets depth) (q :: rest) = scanDelimiters (inString depth q) rest := by
  have hhash : q ≠ hash := by obtain rfl | rfl := hq <;> decide
  rw [scanDelimiters]
  simp [inBrackets, inString, hhash, hq, h]

theorem scan_quotes (hq : q = doubleQuote ∨ q = singleQuote) (depth : Nat) (rest : Bytes) :
    scanDelimiters (inBrackets depth) (q :: q :: q :: rest) = scanDelimiters (inLong depth q) rest := by
  have hhash : q ≠ hash := by obtain rfl | rfl := hq <;> decide
  rw [scanDelimiters]
  simp [inBrackets, inLong, hhash, hq, startsTwice_cons]

variable {multiline : Bool}

theorem scan_inside (hback : q = doubleQuote → c ≠ backslash) (hc : c ≠ q) (depth : Nat)
    (rest : Bytes) :
    scanDelimiters ⟨depth, some q, multiline⟩ (c :: rest) =
      scanDelimiters ⟨depth, some q, multiline⟩ rest := by
  rw [scanDelimiters]
  have hnot : ¬(q = doubleQuote ∧ c = backslash) := fun h => hback h.1 h.2
  simp [hnot, hc]

theorem scan_escape (depth : Nat) (rest : Bytes) :
    scanDelimiters ⟨depth, some doubleQuote, multiline⟩ (backslash :: rest) =
      scanDelimiters ⟨depth, some doubleQuote, multiline⟩ (rest.drop 1) := by
  rw [scanDelimiters]
  simp

section

variable (hq : q = doubleQuote ∨ q = singleQuote)
include hq

theorem ne_backslash : q ≠ backslash := by
  obtain rfl | rfl := hq <;> decide

theorem scan_unquote (depth : Nat) (rest : Bytes) :
    scanDelimiters (inString depth q) (q :: rest) = scanDelimiters (inBrackets depth) rest := by
  rw [scanDelimiters]
  simp [inBrackets, inString, ne_backslash hq]

theorem scan_long_quote (depth : Nat) (h : startsTwice q rest = false) :
    scanDelimiters (inLong depth q) (q :: rest) = scanDelimiters (inLong depth q) rest := by
  rw [scanDelimiters]
  simp [inLong, ne_backslash hq, h]

/-- The end of a long string takes the quotes in front of it along. -/
theorem scan_unquotes (depth n : Nat) (h : rest.head? ≠ some q) :
    scanDelimiters (inLong depth q) (List.replicate (n + 3) q ++ rest) =
      scanDelimiters (inBrackets depth) rest := by
  have hdrop : (replicate n q ++ rest).dropWhile (· == q) = rest := by
    rw [List.dropWhile_append_of_pos (by simp)]
    apply Lib.dropWhile_eq_self
    intro c hc
    rw [hc] at h
    simpa using h
  rw [replicate_succ, cons_append, scanDelimiters]
  simp [inLong, inBrackets, ne_backslash hq, replicate_succ, startsTwice_cons, hdrop]

end

/-- The lines behind a value that begins with the text and goes on with the lines behind it. -/
def skipText (state : Open) (text : Bytes) (lines : List Bytes) : Option (List Bytes) :=
  skipUnknownValue state (firstLine text) (laterLines text ++ lines)

variable {state state' : Open}

theorem skipUnknownValue_congr {raw raw' : Bytes}
    (h : scanDelimiters state raw = scanDelimiters state' raw') (lines : List Bytes) :
    skipUnknownValue state raw lines = skipUnknownValue state' raw' lines := by
  rw [skipUnknownValue, skipUnknownValue.eq_def state' raw', h]

/-- A text on one line that takes the scanner from one state to another. -/
theorem skipText_append (hfront : newline ∉ front)
    (h : scanDelimiters state (front ++ firstLine rest) = scanDelimiters state' (firstLine rest))
    (lines : List Bytes) : skipText state (front ++ rest) lines = skipText state' rest lines := by
  obtain ⟨hfirst, hlater⟩ := lines_append hfront rest
  rw [skipText, hfirst, hlater, skipUnknownValue_congr h, skipText]

/-- A value goes on behind the end of a line. -/
def Continues (state : Open) : Prop :=
  (state.quote = none ∧ state.depth ≠ 0) ∨ (state.quote.isSome ∧ state.multiline)

theorem skipText_newline (h : Continues state) (rest : Bytes) (lines : List Bytes) :
    skipText state (newline :: rest) lines = skipText state rest lines := by
  rw [skipText, firstLine_newline, laterLines_newline, skipUnknownValue, scan_nil]
  obtain ⟨hquote, hdepth⟩ | ⟨hquote, hmulti⟩ := h
  · simp [hquote, hdepth, skipText]
  · obtain ⟨q, hq⟩ := Option.isSome_iff_exists.mp hquote
    simp [hq, hmulti, skipText]

theorem skipText_nil (lines : List Bytes) : skipText (inBrackets 0) [] lines = some lines := by
  rw [skipText, firstLine_nil, laterLines_nil, skipUnknownValue, scan_nil]
  simp [inBrackets]

theorem skipText_cons (hc : c ≠ newline)
    (h : scanDelimiters state (c :: firstLine rest) = scanDelimiters state' (firstLine rest))
    (lines : List Bytes) : skipText state (c :: rest) lines = skipText state' rest lines := by
  have hfront : newline ∉ [c] := by simpa using Ne.symm hc
  exact skipText_append hfront h lines

theorem newline_not_mem_basic (h : BasicText text) : newline ∉ text := by
  induction h with
  | nil => simp
  | byte _ _ hline _ ih => simp [Ne.symm hline, ih]
  | escape hline _ ih =>
    have hback : newline ≠ backslash := by decide
    simp [Ne.symm hline, hback, ih]

theorem newline_not_mem_literal (h : LiteralText text) : newline ∉ text :=
  fun hmem => (h newline hmem).2 rfl

theorem scan_basic (h : BasicText text) (depth : Nat) (rest : Bytes) :
    scanDelimiters (inString depth doubleQuote) (text ++ doubleQuote :: rest) =
      scanDelimiters (inBrackets depth) rest := by
  induction h with
  | nil => exact scan_unquote (.inl rfl) depth rest
  | byte hquote hback hline hrest ih =>
    rw [cons_append, inString, scan_inside (fun _ => hback) hquote]
    exact ih
  | escape hline hrest ih =>
    rw [cons_append, inString, scan_escape]
    exact ih

theorem scan_literal (h : LiteralText text) (depth : Nat) (rest : Bytes) :
    scanDelimiters (inString depth singleQuote) (text ++ singleQuote :: rest) =
      scanDelimiters (inBrackets depth) rest := by
  have hsingle : singleQuote ≠ doubleQuote := by decide
  induction text with
  | nil => exact scan_unquote (.inr rfl) depth rest
  | cons c text ih =>
    have hc := (h c mem_cons_self).1
    rw [cons_append, inString, scan_inside (fun heq => absurd heq hsingle) hc]
    exact ih (fun d hd => h d (mem_cons_of_mem _ hd))

theorem startsTwice_text (htext : text.head? ≠ some q) (hrest : rest.head? ≠ some q) :
    startsTwice q (text ++ q :: rest) = false := by
  cases text with
  | nil =>
    cases rest with
    | nil => simp [startsTwice, isPrefixOf]
    | cons d rest =>
      have hne : q ≠ d := by
        rintro rfl
        exact hrest rfl
      simp [startsTwice_cons, hne]
  | cons c text => exact startsTwice_ne htext

theorem basic_head (h : BasicText text) : text.head? ≠ some doubleQuote := by
  cases h with
  | nil => simp
  | byte hquote _ _ _ => simpa using hquote
  | escape _ _ => simp [backslash, doubleQuote]

theorem literal_head (h : LiteralText text) : text.head? ≠ some singleQuote := by
  cases text with
  | nil => simp
  | cons c text => simpa using (h c mem_cons_self).1

variable {n : Nat}

/-- The quotes at the front of a long string, and a text behind them that begins with none. -/
theorem long_front (hq : q = doubleQuote ∨ q = singleQuote) (h : LongText q n text) :
    n ≤ 2 ∧ ∃ rest, text = List.replicate n q ++ rest ∧ rest.head? ≠ some q := by
  induction h with
  | nil => exact ⟨by omega, [], by simp⟩
  | byte hquote _ _ _ => exact ⟨by omega, _, rfl, by simpa using hquote⟩
  | escape _ _ _ => exact ⟨by omega, _, rfl, by simpa using (ne_backslash hq).symm⟩
  | quote hn _ ih =>
    obtain ⟨_, rest, htext, hhead⟩ := ih
    exact ⟨by omega, rest, by rw [htext, replicate_succ, cons_append], hhead⟩

theorem startsTwice_few (hn : n < 2) (h : rest.head? ≠ some q) :
    startsTwice q (List.replicate n q ++ rest) = false := by
  match n with
  | 0 => exact startsTwice_ne h
  | 1 =>
    cases rest with
    | nil => simp [startsTwice, isPrefixOf]
    | cons c rest =>
      have hne : q ≠ c := by
        rintro rfl
        exact h rfl
      simp [startsTwice_cons, hne]

theorem newline_not_mem_quotes (hq : q = doubleQuote ∨ q = singleQuote) (n : Nat) :
    newline ∉ List.replicate n q := by
  have hne : newline ≠ q := by obtain rfl | rfl := hq <;> decide
  simp [hne]

/-- The quotes that end a long string, the ones of the string in front of them. -/
theorem skip_unquotes (hq : q = doubleQuote ∨ q = singleQuote) (n depth : Nat)
    (hrest : rest.head? ≠ some q) (lines : List Bytes) :
    skipText (inLong depth q) (List.replicate (n + 3) q ++ rest) lines =
      skipText (inBrackets depth) rest lines :=
  skipText_append (newline_not_mem_quotes hq _) (scan_unquotes hq depth n (firstLine_head hrest)) lines

theorem skip_byte (hc : c ≠ q) (hback : q = doubleQuote → c ≠ backslash) (depth : Nat)
    (rest : Bytes) (lines : List Bytes) :
    skipText (inLong depth q) (c :: rest) lines = skipText (inLong depth q) rest lines := by
  by_cases hline : c = newline
  · rw [hline]
    exact skipText_newline (.inr (by simp [inLong])) rest lines
  · exact skipText_cons hline (scan_inside hback hc depth _) lines

theorem skip_escape (c : UInt8) (depth : Nat) (rest : Bytes) (lines : List Bytes) :
    skipText (inLong depth doubleQuote) (backslash :: c :: rest) lines =
      skipText (inLong depth doubleQuote) rest lines := by
  have hback : backslash ≠ newline := by decide
  by_cases hline : c = newline
  · rw [hline, skipText_cons hback (h := ?_)]
    · exact skipText_newline (.inr (by simp [inLong])) rest lines
    · rw [firstLine_newline, inLong, scan_escape, drop_nil]
  · have hfront : newline ∉ [backslash, c] := by simp [Ne.symm hback, Ne.symm hline]
    exact skipText_append hfront (scan_escape depth _) lines

theorem skip_long (hq : q = doubleQuote ∨ q = singleQuote) (h : LongText q n text) (depth : Nat)
    (hrest : rest.head? ≠ some q) (lines : List Bytes) :
    skipText (inLong depth q) (text ++ (List.replicate 3 q ++ rest)) lines =
      skipText (inBrackets depth) rest lines := by
  induction h with
  | nil => exact skip_unquotes hq 0 depth hrest lines
  | byte hquote hback _ ih => rw [cons_append, skip_byte hquote hback, ih]
  | escape hbasic _ ih =>
    subst hbasic
    rw [cons_append, cons_append, skip_escape, ih]
  | @quote n text hn htext ih =>
    obtain ⟨_, back, rfl, hhead⟩ := long_front hq htext
    cases back with
    | nil =>
      -- the quotes of the string and the ones that end it are one run
      have hrun : q :: (replicate n q ++ []) ++ (replicate 3 q ++ rest) =
          replicate (n + 1 + 3) q ++ rest := by
        rw [append_nil, ← replicate_succ, ← append_assoc, replicate_append_replicate]
      rw [hrun]
      exact skip_unquotes hq (n + 1) depth hrest lines
    | cons c back =>
      have hline : q ≠ newline := by obtain rfl | rfl := hq <;> decide
      have hfirst := (lines_append (newline_not_mem_quotes hq n)
        (c :: back ++ (replicate 3 q ++ rest))).1
      rw [cons_append, skipText_cons hline, ih]
      apply scan_long_quote hq
      rw [append_assoc, hfirst]
      apply startsTwice_few hn
      apply firstLine_head
      simpa using hhead

/-- The text does not go on with a quote. -/
def NoQuote (text : Bytes) : Prop :=
  ∀ q, q = doubleQuote ∨ q = singleQuote → text.head? ≠ some q

theorem skip_basic (h : BasicText text) (depth : Nat) (hrest : NoQuote rest) (lines : List Bytes) :
    skipText (inBrackets depth) (doubleQuote :: text ++ [doubleQuote] ++ rest) lines =
      skipText (inBrackets depth) rest lines := by
  apply skipText_append
  · have hquote : newline ≠ doubleQuote := by decide
    simp [newline_not_mem_basic h, hquote]
  have hhead := firstLine_head (hrest doubleQuote (.inl rfl))
  have hstart := startsTwice_text (basic_head h) hhead
  rw [append_assoc, cons_append, singleton_append, scan_quote (.inl rfl) depth hstart, scan_basic h]

theorem skip_literal (h : LiteralText text) (depth : Nat) (hrest : NoQuote rest) (lines : List Bytes) :
    skipText (inBrackets depth) (singleQuote :: text ++ [singleQuote] ++ rest) lines =
      skipText (inBrackets depth) rest lines := by
  apply skipText_append
  · have hquote : newline ≠ singleQuote := by decide
    simp [newline_not_mem_literal h, hquote]
  have hhead := firstLine_head (hrest singleQuote (.inr rfl))
  have hstart := startsTwice_text (literal_head h) hhead
  rw [append_assoc, cons_append, singleton_append, scan_quote (.inr rfl) depth hstart, scan_literal h]

theorem skip_string (h : StringText text) (depth : Nat) (hrest : NoQuote rest) (lines : List Bytes) :
    skipText (inBrackets depth) (text ++ rest) lines = skipText (inBrackets depth) rest lines := by
  cases h with
  | basic h => exact skip_basic h depth hrest lines
  | literal h => exact skip_literal h depth hrest lines
  | @long q n text hquote h =>
    have hfront : newline ∉ [q, q, q] := newline_not_mem_quotes hquote 3
    rw [append_assoc, append_assoc, skipText_append hfront (scan_quotes hquote depth _)]
    exact skip_long hquote h depth (hrest q hquote) lines

theorem skip_inerts (h : ∀ c ∈ text, Inert c ∧ c ≠ newline) (depth : Nat)
    (rest : Bytes) (lines : List Bytes) :
    skipText (inBrackets depth) (text ++ rest) lines = skipText (inBrackets depth) rest lines :=
  skipText_append (fun hmem => (h newline hmem).2 rfl) (scan_inerts (fun c hc => (h c hc).1) depth _)
    lines

instance (c : UInt8) : Decidable (Inert c) := by
  unfold Inert
  infer_instance

theorem isScalarByte_inert (c : UInt8) (h : isScalarByte c = true) : Inert c ∧ c ≠ newline := by
  revert c
  exact Diff.forall_byte (by decide +kernel)

theorem isBlank_inert (c : UInt8) (h : isBlank c = true) : Inert c ∧ c ≠ newline := by
  revert c
  exact Diff.forall_byte (by decide +kernel)

theorem isWordByte_scalar (h : isWordByte c = true) : isScalarByte c = true := by
  simp [isScalarByte, h]

theorem skip_blanks (h : Blanks text) (depth : Nat) (rest : Bytes) (lines : List Bytes) :
    skipText (inBrackets depth) (text ++ rest) lines = skipText (inBrackets depth) rest lines :=
  skip_inerts (fun c hc => isBlank_inert c (h c hc)) depth rest lines

theorem skip_part (h : KeyPart text) (depth : Nat) (hrest : NoQuote rest) (lines : List Bytes) :
    skipText (inBrackets depth) (text ++ rest) lines = skipText (inBrackets depth) rest lines := by
  cases h with
  | bare h =>
    exact skip_inerts (fun c hc => isScalarByte_inert c (isWordByte_scalar (h.2 c hc))) depth rest lines
  | basic h => exact skip_basic h depth hrest lines
  | literal h => exact skip_literal h depth hrest lines

theorem noQuote_cons (h : c ≠ doubleQuote ∧ c ≠ singleQuote) (rest : Bytes) : NoQuote (c :: rest) := by
  intro q hq heq
  obtain rfl : c = q := by simpa using heq
  obtain rfl | rfl := hq
  · exact h.1 rfl
  · exact h.2 rfl

theorem noQuote_blanks (h : Blanks text) (hrest : NoQuote rest) : NoQuote (text ++ rest) := by
  cases text with
  | nil => exact hrest
  | cons c text =>
    obtain ⟨_, hdouble, hsingle, _⟩ := (isBlank_inert c (h c mem_cons_self)).1
    exact noQuote_cons ⟨hdouble, hsingle⟩ _

theorem skip_key (h : KeyText text) (depth : Nat) (hrest : NoQuote rest) (lines : List Bytes) :
    skipText (inBrackets depth) (text ++ rest) lines = skipText (inBrackets depth) rest lines := by
  induction h with
  | part h => exact skip_part h depth hrest lines
  | @dotted text before after back h hbefore hafter _ ih =>
    have hdot : NoQuote (dot :: (after ++ (back ++ rest))) := noQuote_cons (by decide) _
    have hline : dot ≠ newline := by decide
    simp only [append_assoc, cons_append]
    rw [skip_part h depth (noQuote_blanks hbefore hdot), skip_blanks hbefore,
      skipText_cons hline (scan_inert (by decide) depth _), skip_blanks hafter, ih]

theorem noQuote_gap (h : Derives .gap text) (hrest : NoQuote rest) : NoQuote (text ++ rest) := by
  cases h with
  | gap_nil => exact hrest
  | blank hc _ =>
    apply noQuote_cons
    obtain hc | rfl | rfl := hc
    · obtain ⟨_, hdouble, hsingle, _⟩ := (isBlank_inert _ hc).1
      exact ⟨hdouble, hsingle⟩
    · decide
    · decide
  | comment _ _ => exact noQuote_cons (by decide) _

theorem skip_open (h : c = openBracket ∨ c = 0x7b) (depth : Nat) (rest : Bytes) (lines : List Bytes) :
    skipText (inBrackets depth) (c :: rest) lines = skipText (inBrackets (depth + 1)) rest lines := by
  have hline : c ≠ newline := by obtain rfl | rfl := h <;> decide
  exact skipText_cons hline (scan_open h depth _) lines

theorem skip_close (h : c = closeBracket ∨ c = 0x7d) (depth : Nat) (rest : Bytes) (lines : List Bytes) :
    skipText (inBrackets (depth + 1)) (c :: rest) lines = skipText (inBrackets depth) rest lines := by
  have hline : c ≠ newline := by obtain rfl | rfl := h <;> decide
  exact skipText_cons hline (scan_close h depth _) lines

variable {depth : Nat}

theorem skip_line (h : depth ≠ 0) (rest : Bytes) (lines : List Bytes) :
    skipText (inBrackets depth) (newline :: rest) lines = skipText (inBrackets depth) rest lines :=
  skipText_newline (.inl ⟨rfl, h⟩) rest lines

theorem skip_comment (htext : newline ∉ text) (h : depth ≠ 0) (rest : Bytes) (lines : List Bytes) :
    skipText (inBrackets depth) (hash :: text ++ newline :: rest) lines =
      skipText (inBrackets depth) rest lines := by
  have hhash : newline ≠ hash := by decide
  have hfront : newline ∉ hash :: text := by simp [htext, hhash]
  rw [skipText_append hfront (h := ?_), skip_line h]
  rw [firstLine_newline, append_nil, scan_hash, scan_nil]

theorem skip_inert (h : Inert c ∧ c ≠ newline) (depth : Nat) (rest : Bytes) (lines : List Bytes) :
    skipText (inBrackets depth) (c :: rest) lines = skipText (inBrackets depth) rest lines :=
  skipText_cons h.2 (scan_inert h.1 depth _) lines

theorem comma_inert : Inert comma ∧ comma ≠ newline := by decide

theorem equals_inert : Inert equals ∧ equals ≠ newline := by decide

/-- What stands between brackets is scanned without closing them, and a value wherever it stands. -/
theorem skip_derives {part : Part} (h : Derives part text) (depth : Nat)
    (hdepth : part = .value ∨ depth ≠ 0) (hrest : part = .gap ∨ NoQuote rest) (lines : List Bytes) :
    skipText (inBrackets depth) (text ++ rest) lines = skipText (inBrackets depth) rest lines := by
  induction h generalizing depth rest with
  | gap_nil => rfl
  | @blank c text hc _ ih =>
    have hopen : depth ≠ 0 := by simpa using hdepth
    have hskip : skipText (inBrackets depth) (c :: (text ++ rest)) lines =
        skipText (inBrackets depth) (text ++ rest) lines := by
      obtain hc | rfl | rfl := hc
      · exact skip_inert (isBlank_inert c hc) depth _ lines
      · exact skip_inert (by decide) depth _ lines
      · exact skip_line hopen _ lines
    rw [cons_append, hskip, ih depth (.inr hopen) (.inl rfl)]
  | comment htext _ ih =>
    have hopen : depth ≠ 0 := by simpa using hdepth
    rw [append_assoc, cons_append (a := newline), skip_comment htext hopen,
      ih depth (.inr hopen) (.inl rfl)]
  | scalar _ htext =>
    exact skip_inerts (fun c hc => isScalarByte_inert c (htext c hc)) depth rest lines
  | string h => exact skip_string h depth (hrest.resolve_left nofun) lines
  | array _ ih =>
    have hclose : NoQuote (closeBracket :: rest) := noQuote_cons (by decide) _
    simp only [append_assoc, cons_append, nil_append]
    rw [skip_open (.inl rfl), ih _ (.inr (Nat.succ_ne_zero depth)) (.inr hclose), skip_close (.inl rfl)]
  | table _ ih =>
    have hclose : NoQuote (0x7d :: rest) := noQuote_cons (by decide) _
    simp only [append_assoc, cons_append, nil_append]
    rw [skip_open (.inr rfl), ih _ (.inr (Nat.succ_ne_zero depth)) (.inr hclose), skip_close (.inr rfl)]
  | items_end _ ih | fields_end _ ih => exact ih depth (.inr (hdepth.resolve_left nofun)) (.inl rfl)
  | item hbefore hvalue hafter ihbefore ihvalue ihafter =>
    have hopen : depth ≠ 0 := hdepth.resolve_left nofun
    have hend := noQuote_gap hafter (hrest.resolve_left nofun)
    rw [append_assoc, append_assoc, ihbefore depth (.inr hopen) (.inl rfl),
      ihvalue depth (.inl rfl) (.inr hend), ihafter depth (.inr hopen) (.inl rfl)]
  | @item_next before value after back hbefore hvalue hafter _ ihbefore ihvalue ihafter ih =>
    have hopen : depth ≠ 0 := hdepth.resolve_left nofun
    have hcomma : NoQuote (comma :: (back ++ rest)) := noQuote_cons (by decide) _
    simp only [append_assoc, cons_append]
    rw [ihbefore depth (.inr hopen) (.inl rfl),
      ihvalue depth (.inl rfl) (.inr (noQuote_gap hafter hcomma)),
      ihafter depth (.inr hopen) (.inl rfl), skip_inert comma_inert,
      ih depth (.inr hopen) (.inr (hrest.resolve_left nofun))]
  | @field before key mid eq value after hbefore hkey hmid heq hvalue hafter ihbefore ihvalue ihafter =>
    have hopen : depth ≠ 0 := hdepth.resolve_left nofun
    have hend := noQuote_gap hafter (hrest.resolve_left nofun)
    have hequals : NoQuote (equals :: (eq ++ (value ++ (after ++ rest)))) := noQuote_cons (by decide) _
    simp only [append_assoc, cons_append]
    rw [ihbefore depth (.inr hopen) (.inl rfl), skip_key hkey depth (noQuote_blanks hmid hequals),
      skip_blanks hmid, skip_inert equals_inert, skip_blanks heq,
      ihvalue depth (.inl rfl) (.inr hend), ihafter depth (.inr hopen) (.inl rfl)]
  | @field_next before key mid eq value after back hbefore hkey hmid heq hvalue hafter _ ihbefore
      ihvalue ihafter ih =>
    have hopen : depth ≠ 0 := hdepth.resolve_left nofun
    have hcomma : NoQuote (comma :: (back ++ rest)) := noQuote_cons (by decide) _
    have hequals : NoQuote (equals :: (eq ++ (value ++ (after ++ comma :: (back ++ rest))))) :=
      noQuote_cons (by decide) _
    simp only [append_assoc, cons_append]
    rw [ihbefore depth (.inr hopen) (.inl rfl), skip_key hkey depth (noQuote_blanks hmid hequals),
      skip_blanks hmid, skip_inert equals_inert, skip_blanks heq,
      ihvalue depth (.inl rfl) (.inr (noQuote_gap hafter hcomma)),
      ihafter depth (.inr hopen) (.inl rfl), skip_inert comma_inert,
      ih depth (.inr hopen) (.inr (hrest.resolve_left nofun))]

/-- What is cut from the end of a line. -/
def isCut (c : UInt8) : Bool := isBlank c || c == carriageReturn

theorem isCut_inert (c : UInt8) (h : isCut c = true) : Inert c ∧ c ≠ backslash := by
  revert c
  exact Diff.forall_byte (by decide +kernel)

def Quotes (state : Open) : Prop := ∀ q, state.quote = some q → q = doubleQuote ∨ q = singleQuote

theorem isCut_ne_quote (hq : q = doubleQuote ∨ q = singleQuote) (hc : isCut c = true) : c ≠ q := by
  obtain ⟨_, hdouble, hsingle, _⟩ := (isCut_inert c hc).1
  obtain rfl | rfl := hq
  · exact hdouble
  · exact hsingle

variable {back : Bytes}

theorem scan_cuts (h : Quotes state) (hback : ∀ c ∈ back, isCut c = true) :
    scanDelimiters state back = some state := by
  induction back with
  | nil => exact scan_nil state
  | cons c back ih =>
    obtain ⟨depth, quote, multiline⟩ := state
    obtain ⟨hinert, hescape⟩ := isCut_inert c (hback c mem_cons_self)
    rw [← ih (fun d hd => hback d (mem_cons_of_mem _ hd))]
    cases quote with
    | none =>
      obtain ⟨hhash, hdouble, hsingle, hopen, hbrace, hclose, hend⟩ := hinert
      rw [scanDelimiters]
      simp [hhash, hdouble, hsingle, hopen, hbrace, hclose, hend]
    | some q =>
      have hne := isCut_ne_quote (h q rfl) (hback c mem_cons_self)
      exact scan_inside (fun _ => hescape) hne depth back

theorem startsTwice_cuts (hq : q = doubleQuote ∨ q = singleQuote) (rest : Bytes)
    (hback : ∀ c ∈ back, isCut c = true) : startsTwice q (rest ++ back) = startsTwice q rest := by
  have hstop : back.head? ≠ some q := by
    intro hhead
    exact isCut_ne_quote hq (hback q (mem_of_mem_head? hhead)) rfl
  match rest with
  | [] => exact startsTwice_ne hstop
  | [c] =>
    cases back with
    | nil => rfl
    | cons d back =>
      have hne : q ≠ d := by
        rintro rfl
        exact hstop rfl
      simp [startsTwice, isPrefixOf, hne]
  | c :: d :: rest => simp [startsTwice_cons]

theorem length_of_startsTwice (h : startsTwice q rest = true) : 2 ≤ rest.length := by
  match rest with
  | [] => cases h
  | [c] => simp [startsTwice, isPrefixOf] at h
  | c :: d :: rest => simp

theorem dropQuotes_cuts (hq : q = doubleQuote ∨ q = singleQuote) (rest : Bytes)
    (hback : ∀ c ∈ back, isCut c = true) :
    (rest ++ back).dropWhile (· == q) = rest.dropWhile (· == q) ++ back := by
  have hstop : back.dropWhile (· == q) = back := by
    apply Lib.dropWhile_eq_self
    intro c hc
    have hne := isCut_ne_quote hq (hback c (mem_of_mem_head? hc))
    simpa using hne
  rw [dropWhile_append]
  split
  · next hempty => rw [hstop, isEmpty_iff.mp hempty, nil_append]
  · rfl

theorem scan_cut (h : Quotes state) (raw : Bytes) (hback : ∀ c ∈ back, isCut c = true) :
    scanDelimiters state (raw ++ back) = scanDelimiters state raw := by
  fun_induction scanDelimiters state raw with
  | case1 state => exact scan_cuts h hback
  | case2 state c rest quote hquote hescape ih =>
    rw [cons_append, scanDelimiters]
    simp only [hquote, if_pos hescape]
    cases rest with
    | nil =>
      rw [drop_nil, scan_nil]
      exact scan_cuts h (fun d hd => hback d (mem_of_mem_drop hd))
    | cons d rest => exact ih h
  | case3 state rest quote hquote hsingle hescape ih =>
    rw [cons_append, scanDelimiters]
    simp only [hquote, if_neg hescape, if_true, if_pos hsingle]
    exact ih nofun
  | case4 state rest quote hquote hmulti hstart hescape ih =>
    have hq := h quote hquote
    have hlength := length_of_startsTwice hstart
    rw [cons_append, scanDelimiters]
    simp only [hquote, if_neg hescape, if_true, if_neg hmulti, startsTwice_cuts hq rest hback, hstart,
      drop_append_of_le_length hlength, dropQuotes_cuts hq _ hback]
    exact ih nofun
  | case5 state rest quote hquote hmulti hstart hescape ih =>
    rw [cons_append, scanDelimiters]
    simp only [hquote, if_neg hescape, if_true, if_neg hmulti,
      startsTwice_cuts (h quote hquote) rest hback, if_neg hstart]
    exact ih h
  | case6 state c rest quote hquote hescape hne ih =>
    rw [cons_append, scanDelimiters]
    simp only [hquote, if_neg hescape, if_neg hne]
    exact ih h
  | case7 state rest hquote =>
    rw [cons_append, scanDelimiters]
    simp [hquote]
  | case8 state c rest hquote hhash hc hstart ih =>
    have hlength := length_of_startsTwice hstart
    rw [cons_append, scanDelimiters]
    simp only [hquote, if_neg hhash, if_pos hc, startsTwice_cuts hc rest hback, if_pos hstart,
      drop_append_of_le_length hlength]
    apply ih
    rintro q ⟨⟩
    exact hc
  | case9 state c rest hquote hhash hc hstart ih =>
    rw [cons_append, scanDelimiters]
    simp only [hquote, if_neg hhash, if_pos hc, startsTwice_cuts hc rest hback, if_neg hstart]
    apply ih
    rintro q ⟨⟩
    exact hc
  | case10 state c rest hquote hhash hc hopen ih =>
    rw [cons_append, scanDelimiters]
    simp only [hquote, if_neg hhash, if_neg hc, if_pos hopen]
    simp only [hquote] at ih
    exact ih nofun
  | case11 state c rest hquote hhash hc hopen hclose hdepth =>
    rw [cons_append, scanDelimiters]
    simp only [hquote, if_neg hhash, if_neg hc, if_neg hopen, if_pos hclose, if_pos hdepth]
  | case12 state c rest hquote hhash hc hopen hclose hdepth ih =>
    rw [cons_append, scanDelimiters]
    simp only [hquote, if_neg hhash, if_neg hc, if_neg hopen, if_pos hclose, if_neg hdepth]
    simp only [hquote] at ih
    exact ih nofun
  | case13 state c rest hquote hhash hc hopen hclose ih =>
    rw [cons_append, scanDelimiters]
    simp only [hquote, if_neg hhash, if_neg hc, if_neg hopen, if_neg hclose]
    exact ih h

end Bbr.Bitbucket.Auth
