import Bbr.Bitbucket.TomlText
import Bbr.Config.LineShapes
import Mathlib.Data.List.Induction

/-!
# What is not known

Entries and tables of TOML with a key that is not known, put between the lines of a credential file.
-/
namespace Bbr.Bitbucket.Auth

open List

open Bbr.Diff (ascii)
open Bbr.Lib (trimBoth trimEnd Trimmed Stops)

variable {state : State} {post : List Bytes}

/-- What stands behind a value or a header on its line. -/
inductive LineEnd : Bytes → Prop where
  | bare {front back : Bytes} (hfront : Blanks front) (hback : back = [] ∨ back = [carriageReturn]) :
      LineEnd (front ++ back)
  | comment {front text : Bytes} (hfront : Blanks front) (htext : newline ∉ text) :
      LineEnd (front ++ hash :: text)

theorem blanks_space : Blanks [0x20] := by simp [Blanks, isBlank]

theorem lineEnd_nil : LineEnd [] := by
  have h : LineEnd ([] ++ []) := .bare nofun (.inl rfl)
  exact h

theorem Blanks.cut {text : Bytes} (h : Blanks text) : ∀ c ∈ text, isCut c = true := by
  intro c hc
  simp [isCut, h c hc]

theorem Blanks.newline_not_mem {text : Bytes} (h : Blanks text) : newline ∉ text :=
  fun hmem => absurd (h newline hmem) (by decide)

theorem Blanks.no_return {text : Bytes} (h : Blanks text) : carriageReturn ∉ text :=
  fun hmem => absurd (h carriageReturn hmem) (by decide)

theorem LineEnd.newline_not_mem {text : Bytes} (h : LineEnd text) : newline ∉ text := by
  cases h with
  | bare hfront hback =>
    have hreturn : newline ≠ carriageReturn := by decide
    obtain rfl | rfl := hback <;> simp [hfront.newline_not_mem, hreturn]
  | comment hfront htext =>
    have hhash : newline ≠ hash := by decide
    simp [hfront.newline_not_mem, htext, hhash]

theorem LineEnd.noQuote {text : Bytes} (h : LineEnd text) : NoQuote text := by
  cases h with
  | bare hfront hback =>
    apply noQuote_blanks hfront
    obtain rfl | rfl := hback
    · exact fun _ _ => nofun
    · exact noQuote_cons (by decide) _
  | comment hfront _ => exact noQuote_blanks hfront (noQuote_cons (by decide) _)

variable {front : Bytes} {c : UInt8}

/-- The text of a line, from its first byte that is not a blank to behind one that is not cut. -/
theorem contentOf_stop {indent : Bytes} (hindent : Blanks indent)
    (hfront : Stops isBlank (front ++ [c])) (hc : isCut c = false) (back : Bytes) :
    ∃ rest cut, back = rest ++ cut ∧ (∀ d ∈ cut, isCut d = true) ∧
      contentOf (indent ++ (front ++ c :: back)) = front ++ c :: rest := by
  have hblank : isBlank c = false := by
    simp only [isCut, Bool.or_eq_false_iff] at hc
    exact hc.1
  have hstops : ∀ back, Stops isBlank (front ++ c :: back) := by
    intro back d hd
    apply hfront d
    cases front with
    | nil | cons e front => exact hd
  have htrim : ∀ back, trimBoth isBlank (indent ++ (front ++ c :: back)) =
      front ++ c :: trimEnd isBlank back := by
    intro back
    rw [Lib.trimBoth_append_left hindent, trimBoth, Lib.dropWhile_eq_self (hstops back),
      Lib.trimEnd_append_stop hblank]
  by_cases hend : (indent ++ (front ++ c :: back)).getLast? = some carriageReturn
  · induction back using reverseRecOn with
    | nil =>
      have hlast : (indent ++ (front ++ [c])).getLast? = some c := by
        rw [← append_assoc, getLast?_concat]
      rw [hlast] at hend
      rw [Option.some.inj hend] at hc
      cases hc
    | append_singleton inner d _ =>
      have hraw : indent ++ (front ++ c :: (inner ++ [d])) =
          (indent ++ (front ++ c :: inner)) ++ [d] := by simp
      rw [hraw, getLast?_concat] at hend
      obtain ⟨cut, hcut, hall⟩ := Lib.exists_trimEnd isBlank inner
      refine ⟨trimEnd isBlank inner, cut ++ [d], ?_, fun e he => ?_, ?_⟩
      · rw [← append_assoc, ← hcut]
      · cases mem_append.mp he with
        | inl he => exact Blanks.cut hall e he
        | inr he =>
          rw [mem_singleton.mp he, Option.some.inj hend]
          rfl
      · rw [contentOf, hraw, getLast?_concat, if_pos hend, dropLast_concat, htrim]
  · obtain ⟨cut, hcut, hall⟩ := Lib.exists_trimEnd isBlank back
    refine ⟨trimEnd isBlank back, cut, hcut, Blanks.cut hall, ?_⟩
    rw [contentOf, if_neg hend, htrim]

theorem contentOf_bare {indent text back : Bytes} (hindent : Blanks indent)
    (htext : Trimmed isBlank text) (hend : text.getLast? ≠ some carriageReturn)
    (hfront : Blanks front) (hback : back = [] ∨ back = [carriageReturn]) :
    contentOf (indent ++ (text ++ (front ++ back))) = text := by
  have hbetween := htext.trimBoth_between hindent hfront
  obtain rfl | rfl := hback
  · have hlast : (indent ++ (text ++ front)).getLast? ≠ some carriageReturn := by
      rw [getLast?_append, getLast?_append]
      intro hlast
      obtain hlast | ⟨_, hlast⟩ := Option.or_eq_some_iff.mp hlast
      · obtain hlast | ⟨_, hlast⟩ := Option.or_eq_some_iff.mp hlast
        · exact hfront.no_return (mem_of_getLast? hlast)
        · exact hend hlast
      · exact hindent.no_return (mem_of_getLast? hlast)
    rw [append_nil, contentOf, if_neg hlast, hbetween]
  · have hraw : indent ++ (text ++ (front ++ [carriageReturn])) =
        (indent ++ (text ++ front)) ++ [carriageReturn] := by simp
    rw [hraw, contentOf, getLast?_concat, if_pos rfl, dropLast_concat, hbetween]

/-- Behind a text without a comment the search for one goes on, inside a string or not. -/
theorem beforeComment_append {text : Bytes} {inString escaped : Bool}
    (h : beforeComment inString escaped text = none) :
    ∃ inString' escaped', ∀ rest, beforeComment inString escaped (text ++ rest) =
      (beforeComment inString' escaped' rest).map (text ++ ·) := by
  induction text generalizing inString escaped with
  | nil => exact ⟨inString, escaped, fun rest => by simp⟩
  | cons c text ih =>
    have hmap : ∀ (f : Option Bytes), (f.map (text ++ ·)).map (c :: ·) = f.map (c :: text ++ ·) := by
      intro f
      rw [Option.map_map]
      rfl
    cases inString with
    | false =>
      rw [beforeComment] at h
      split at h
      · cases h
      rename_i hhash
      obtain ⟨inString', escaped', hrest⟩ := ih (Option.map_eq_none_iff.mp h)
      refine ⟨inString', escaped', fun rest => ?_⟩
      rw [cons_append, beforeComment, if_neg hhash, hrest, hmap]
    | true =>
      have h := Option.map_eq_none_iff.mp h
      split at h
      · next hescaped =>
        obtain ⟨inString', escaped', hrest⟩ := ih h
        refine ⟨inString', escaped', fun rest => ?_⟩
        rw [cons_append, beforeComment, if_pos hescaped, hrest, hmap]
      rename_i hescaped
      split at h
      · next hback =>
        obtain ⟨inString', escaped', hrest⟩ := ih h
        refine ⟨inString', escaped', fun rest => ?_⟩
        rw [cons_append, beforeComment, if_neg hescaped, if_pos hback, hrest, hmap]
      · next hback =>
        obtain ⟨inString', escaped', hrest⟩ := ih h
        refine ⟨inString', escaped', fun rest => ?_⟩
        rw [cons_append, beforeComment, if_neg hescaped, if_neg hback, hrest, hmap]

theorem beforeComment_none {text : Bytes} (h : hash ∉ text) (inString escaped : Bool) :
    beforeComment inString escaped text = none := by
  induction text generalizing inString escaped with
  | nil => cases inString <;> rfl
  | cons c text ih =>
    simp only [mem_cons, not_or] at h
    cases inString with
    | false => rw [beforeComment, if_neg (Ne.symm h.1), ih h.2, Option.map_none]
    | true =>
      rw [beforeComment]
      simp only [ih h.2, ite_self, Option.map_none]

theorem beforeComment_both {back : Bytes} (hfront : beforeComment false false front = none)
    (hback : hash ∉ back) : beforeComment false false (front ++ back) = none := by
  obtain ⟨inString, escaped, happend⟩ := beforeComment_append hfront
  rw [happend, beforeComment_none hback, Option.map_none]

/-- A comment is cut behind a byte that is not a blank, or further back. -/
theorem stripTrailingComment_stop (hc : isBlank c = false)
    (h : beforeComment false false (front ++ [c]) = none) (back : Bytes) :
    ∃ rest, stripTrailingComment (front ++ c :: back) = front ++ c :: rest := by
  obtain ⟨inString, escaped, happend⟩ := beforeComment_append h
  have hline : front ++ c :: back = front ++ [c] ++ back := by simp
  rw [stripTrailingComment, hline, happend]
  cases beforeComment inString escaped back with
  | none => exact ⟨back, by simp⟩
  | some before =>
    refine ⟨trimEnd isBlank before, ?_⟩
    rw [Option.map_some, append_assoc, singleton_append]
    exact Lib.trimEnd_append_stop hc front before

/-- A key with a value, over as many lines as the value has. -/
structure Entry where
  indent : Bytes
  key : Bytes
  mid : Bytes
  gap : Bytes
  value : Bytes
  trail : Bytes
  hindent : Blanks indent
  hkey : KeyText key
  hmid : Blanks mid
  hgap : Blanks gap
  hvalue : Derives .value value
  htrail : LineEnd trail

namespace Entry

def tail (e : Entry) : Bytes := e.gap ++ (e.value ++ e.trail)

def text (e : Entry) : Bytes := e.indent ++ (e.key ++ e.mid ++ equals :: e.tail)

def lines (e : Entry) : List Bytes := e.text.splitOn newline

/-- No equals sign stands in a quoted part of the key, and no `#` in a literal one, by what the
search for a comment takes for strings. -/
def Readable (e : Entry) : Prop := equals ∉ e.key ∧ beforeComment false false e.key = none

end Entry

theorem skip_end {trail : Bytes} (h : LineEnd trail) (lines : List Bytes) :
    skipText (inBrackets 0) trail lines = some lines := by
  cases h with
  | bare hfront hback =>
    rw [skip_blanks hfront]
    obtain rfl | rfl := hback
    · exact skipText_nil lines
    · rw [skip_inert (by decide), skipText_nil]
  | @comment front text hfront htext =>
    have hhash : newline ∉ hash :: text := by
      have hne : newline ≠ hash := by decide
      simp [hne, htext]
    rw [skip_blanks hfront, ← append_nil (hash :: text), skipText_append hhash (h := ?_), skipText_nil]
    rw [firstLine_nil, append_nil, scan_hash, scan_nil]

theorem Entry.skip_tail (e : Entry) (lines : List Bytes) :
    skipText (inBrackets 0) e.tail lines = some lines := by
  rw [Entry.tail, skip_blanks e.hgap, skip_derives e.hvalue 0 (.inl rfl) (.inr e.htrail.noQuote),
    skip_end e.htrail]

/-! ## Reading an entry -/

/-- A byte that begins or ends a key. -/
def isKeyEnd (c : UInt8) : Bool := isWordByte c || c == doubleQuote || c == singleQuote

theorem isKeyEnd_facts (c : UInt8) (h : isKeyEnd c = true) :
    isBlank c = false ∧ c ≠ hash ∧ c ≠ openBracket := by
  revert c
  exact Diff.forall_byte (by decide +kernel)

/-- A text that begins and ends as a key does. -/
structure KeyEnds (text : Bytes) : Prop where
  head : ∃ c, text.head? = some c ∧ isKeyEnd c = true
  last : ∃ c, text.getLast? = some c ∧ isKeyEnd c = true

theorem keyEnds_quoted {q : UInt8} (hq : isKeyEnd q = true) (text : Bytes) :
    KeyEnds (q :: text ++ [q]) :=
  ⟨⟨q, rfl, hq⟩, ⟨q, getLast?_concat, hq⟩⟩

theorem KeyPart.ends {text : Bytes} (h : KeyPart text) : KeyEnds text := by
  cases h with
  | bare h =>
    obtain ⟨hne, hword⟩ := h
    constructor
    · refine ⟨text.head hne, head?_eq_some_head hne, ?_⟩
      simp [isKeyEnd, hword _ (head_mem hne)]
    · refine ⟨text.getLast hne, getLast?_eq_some_getLast hne, ?_⟩
      simp [isKeyEnd, hword _ (getLast_mem hne)]
  | basic _ | literal _ => exact keyEnds_quoted (by decide) _

theorem KeyText.ends {text : Bytes} (h : KeyText text) : KeyEnds text := by
  induction h with
  | part h => exact h.ends
  | @dotted text before after rest h _ _ _ ih =>
    constructor
    · obtain ⟨c, hc, hkey⟩ := h.ends.head
      refine ⟨c, ?_, hkey⟩
      rw [append_assoc, append_assoc, head?_append, hc, Option.some_or]
    · obtain ⟨c, hc, hkey⟩ := ih.last
      refine ⟨c, ?_, hkey⟩
      rw [getLast?_append, hc, Option.some_or]

theorem KeyPart.newline_not_mem {text : Bytes} (h : KeyPart text) : newline ∉ text := by
  have hdouble : newline ≠ doubleQuote := by decide
  have hsingle : newline ≠ singleQuote := by decide
  cases h with
  | bare h => exact fun hmem => absurd (h.2 newline hmem) (by decide)
  | basic h => simp [newline_not_mem_basic h, hdouble]
  | literal h => simp [newline_not_mem_literal h, hsingle]

theorem KeyText.newline_not_mem {text : Bytes} (h : KeyText text) : newline ∉ text := by
  have hdot : newline ≠ dot := by decide
  induction h with
  | part h => exact h.newline_not_mem
  | dotted h hbefore hafter _ ih =>
    simp [h.newline_not_mem, hbefore.newline_not_mem, hafter.newline_not_mem, hdot, ih]

theorem KeyEnds.trimmed {text : Bytes} (h : KeyEnds text) : Trimmed isBlank text where
  head c hc := by
    obtain ⟨d, hd, hkey⟩ := h.head
    rw [hd] at hc
    rw [← Option.some.inj hc]
    exact (isKeyEnd_facts d hkey).1
  last c hc := by
    obtain ⟨d, hd, hkey⟩ := h.last
    rw [hd] at hc
    rw [← Option.some.inj hc]
    exact (isKeyEnd_facts d hkey).1

theorem KeyEnds.head_append {text : Bytes} (h : KeyEnds text) (rest : Bytes) :
    ∃ c, (text ++ rest).head? = some c ∧ isKeyEnd c = true := by
  obtain ⟨c, hc, hkey⟩ := h.head
  exact ⟨c, by rw [head?_append, hc, Option.some_or], hkey⟩

theorem equals_not_mem_blanks {text : Bytes} (h : Blanks text) : equals ∉ text :=
  fun hmem => absurd (h equals hmem) (by decide)

theorem hash_not_mem_blanks {text : Bytes} (h : Blanks text) : hash ∉ text :=
  fun hmem => absurd (h hash hmem) (by decide)

theorem Entry.lines_eq (e : Entry) :
    e.lines = (e.indent ++ (e.key ++ e.mid ++ equals :: firstLine e.tail)) :: laterLines e.tail := by
  have hequals : newline ≠ equals := by decide
  have hfront : newline ∉ e.indent ++ (e.key ++ e.mid ++ [equals]) := by
    simp [e.hindent.newline_not_mem, e.hkey.newline_not_mem, e.hmid.newline_not_mem, hequals]
  have htext : e.text = e.indent ++ (e.key ++ e.mid ++ [equals]) ++ e.tail := by simp [Entry.text]
  obtain ⟨hfirst, hlater⟩ := lines_append hfront e.tail
  rw [Entry.lines, htext, splitOn_eq, hfirst, hlater]
  simp

theorem idxOf?_equals {front : Bytes} (h : equals ∉ front) (rest : Bytes) :
    (front ++ equals :: rest).idxOf? equals = some front.length := by
  have hfront : front.findIdx? (fun c => c == equals) = none := by
    rw [findIdx?_eq_none_iff]
    intro c hc
    simpa using fun heq : c = equals => h (heq ▸ hc)
  rw [idxOf?, findIdx?_append, hfront]
  simp [findIdx?_cons]

theorem parseLines_entry (e : Entry) (h : e.Readable) (hknown : state.table.knows e.key = false) :
    parseLines (e.lines ++ post) state = parseLines post state := by
  have hends := e.hkey.ends
  obtain ⟨hequals, hcomment⟩ := h
  have hstops : Stops isBlank (e.key ++ e.mid ++ [equals]) := by
    intro d hd
    obtain ⟨c, hc, hkey⟩ := hends.head_append (e.mid ++ [equals])
    rw [append_assoc, hc] at hd
    rw [← Option.some.inj hd]
    exact (isKeyEnd_facts c hkey).1
  obtain ⟨rest, cut, hrest, hcut, hcontent⟩ :=
    contentOf_stop e.hindent hstops (by decide) (firstLine e.tail)
  have hnone : beforeComment false false (e.key ++ e.mid ++ [equals]) = none := by
    rw [append_assoc]
    apply beforeComment_both hcomment
    have hne : hash ≠ equals := by decide
    simp [hash_not_mem_blanks e.hmid, hne]
  obtain ⟨rest', hline⟩ := stripTrailingComment_stop (by decide) hnone rest
  obtain ⟨c, hhead, hkey⟩ := hends.head_append (e.mid ++ equals :: rest')
  rw [← append_assoc] at hhead
  obtain ⟨_, hhash, hbracket⟩ := isKeyEnd_facts c hkey
  have hne : e.key ++ e.mid ++ equals :: rest' ≠ [] := by simp
  have hfront : equals ∉ e.key ++ e.mid := by simp [hequals, equals_not_mem_blanks e.hmid]
  have hkeyText : trimBoth isBlank (e.key ++ e.mid) = e.key := by
    rw [Lib.trimBoth_append_right e.hmid, hends.trimmed.trimBoth_eq]
  have hkeyNe : e.key ≠ [] := by
    intro hnil
    obtain ⟨d, hd, _⟩ := hends.head
    rw [hnil] at hd
    cases hd
  have hdrop : (e.key ++ e.mid ++ equals :: rest).drop ((e.key ++ e.mid).length + 1) = rest := by
    rw [drop_append]
    simp
  have hskip : skipUnknownValue {} rest (laterLines e.tail ++ post) = some post := by
    have hquotes : Quotes {} := nofun
    have hscan := scan_cut hquotes rest hcut
    rw [← hrest] at hscan
    rw [← skipUnknownValue_congr hscan]
    exact e.skip_tail post
  rw [e.lines_eq, cons_append, parseLines]
  simp only [hcontent, hline, hhead, hne, Option.some.injEq, hhash, hbracket, or_self, if_false,
    idxOf?_equals hfront, take_left, hkeyText, hkeyNe, hknown, Bool.not_false, if_true]
  split
  · next hfail =>
    rw [hcontent, hdrop, hskip] at hfail
    cases hfail
  · next after hsome =>
    rw [hcontent, hdrop, hskip] at hsome
    cases hsome
    rfl

/-- A table's header, or with brackets twice that of an array of tables. -/
structure Header where
  indent : Bytes
  twice : Bool
  before : Bytes
  name : Bytes
  after : Bytes
  trail : Bytes
  hindent : Blanks indent
  hbefore : Blanks before
  hname : KeyText name
  hafter : Blanks after
  htrail : LineEnd trail

namespace Header

/-- What stands between the outer brackets. -/
def inner (h : Header) : Bytes :=
  if h.twice then openBracket :: (h.before ++ h.name ++ h.after) ++ [closeBracket]
  else h.before ++ h.name ++ h.after

def bracketed (h : Header) : Bytes := openBracket :: h.inner ++ [closeBracket]

def line (h : Header) : Bytes := h.indent ++ (h.bracketed ++ h.trail)

/-- The header declares a profile. -/
def Known (h : Header) : Prop :=
  h.twice = false ∧ profilesPrefix.isPrefixOf h.name = true ∧
    isValidProfileName (trimBoth isBlank (h.name.drop profilesPrefix.length)) = true

/-- The table is not one below the profiles, and the search for a comment takes no `#` of the name
for one and finds the one behind the header. -/
def Readable (h : Header) : Prop :=
  (h.twice = true ∨ profilesPrefix.isPrefixOf h.name = false) ∧
    beforeComment false false h.name = none ∧
    (hash ∈ h.trail → beforeComment false false (h.name ++ [hash]) = some h.name)

end Header

/-- A line of a table that says nothing, or an entry. -/
inductive Item where
  | idle (indent trail : Bytes) (hindent : Blanks indent) (htrail : LineEnd trail)
  | entry (e : Entry)

namespace Item

def lines : Item → List Bytes
  | idle indent trail _ _ => [indent ++ trail]
  | entry e => e.lines

def Readable : Item → Prop
  | idle _ _ _ _ => True
  | entry e => e.Readable

end Item

structure TableText where
  header : Header
  items : List Item

namespace TableText

def lines (t : TableText) : List Bytes := t.header.line :: t.items.flatMap Item.lines

def Readable (t : TableText) : Prop := t.header.Readable ∧ ∀ item ∈ t.items, item.Readable

end TableText

/-! ## Reading a table -/

theorem contentOf_idle {indent trail : Bytes} (hindent : Blanks indent) (htrail : LineEnd trail) :
    contentOf (indent ++ trail) = [] ∨ ∃ rest, contentOf (indent ++ trail) = hash :: rest := by
  cases htrail with
  | @bare front back hfront hback =>
    have htrimmed : Trimmed isBlank ([] : Bytes) := ⟨nofun, nofun⟩
    exact .inl (contentOf_bare hindent htrimmed nofun hfront hback)
  | @comment front text hfront htext =>
    have hboth : Blanks (indent ++ front) := by
      intro c hc
      cases mem_append.mp hc with
      | inl hc => exact hindent c hc
      | inr hc => exact hfront c hc
    have hstops : Stops isBlank ([] ++ [hash]) := by
      rintro d ⟨⟩
      rfl
    obtain ⟨rest, _, _, _, hcontent⟩ := contentOf_stop hboth hstops (by decide) text
    rw [append_assoc, nil_append] at hcontent
    exact .inr ⟨rest, hcontent⟩

theorem parseLines_idle {indent trail : Bytes} (hindent : Blanks indent) (htrail : LineEnd trail) :
    parseLines ((indent ++ trail) :: post) state = parseLines post state := by
  have hline : stripTrailingComment (contentOf (indent ++ trail)) = [] := by
    obtain hcontent | ⟨rest, hcontent⟩ := contentOf_idle hindent htrail
    · rw [hcontent]
      rfl
    · rw [hcontent]
      rfl
  rw [parseLines]
  simp [hline]

theorem parseLines_items {items : List Item} (h : ∀ item ∈ items, item.Readable)
    (hstate : state.table = .unknown) :
    parseLines (items.flatMap Item.lines ++ post) state = parseLines post state := by
  induction items with
  | nil => rfl
  | cons item items ih =>
    have hitems := ih (fun i hi => h i (mem_cons_of_mem _ hi))
    have hitem := h item mem_cons_self
    rw [flatMap_cons, append_assoc]
    cases item with
    | idle indent trail hindent htrail =>
      rw [← hitems]
      exact parseLines_idle hindent htrail
    | entry e =>
      rw [← hitems]
      exact parseLines_entry e hitem (by rw [hstate]; rfl)

namespace Header

/-- The name with what stands around it, where no comment and no string begins. -/
theorem bracketed_eq (h : Header) : ∃ front back, h.bracketed = front ++ (h.name ++ back) ∧
    (∀ c ∈ front, c ≠ hash ∧ c ≠ doubleQuote) ∧ (∀ c ∈ back, c ≠ hash ∧ c ≠ doubleQuote) := by
  have hblank : ∀ {text : Bytes}, Blanks text → ∀ c ∈ text, c ≠ hash ∧ c ≠ doubleQuote := by
    intro text htext c hc
    obtain ⟨hhash, hdouble, _⟩ := (isBlank_inert c (htext c hc)).1
    exact ⟨hhash, hdouble⟩
  have hopen : openBracket ≠ hash ∧ openBracket ≠ doubleQuote := by decide
  have hclose : closeBracket ≠ hash ∧ closeBracket ≠ doubleQuote := by decide
  have hbefore := hblank h.hbefore
  have hafter := hblank h.hafter
  rw [bracketed, inner]
  split
  · refine ⟨openBracket :: openBracket :: h.before, h.after ++ [closeBracket, closeBracket],
      by simp, ?_, ?_⟩
    · simpa [hopen] using hbefore
    · simpa [or_imp, forall_and, hclose] using hafter
  · refine ⟨openBracket :: h.before, h.after ++ [closeBracket], by simp, ?_, ?_⟩
    · simpa [hopen] using hbefore
    · simpa [or_imp, forall_and, hclose] using hafter

theorem bracketed_trimmed (h : Header) : Trimmed isBlank h.bracketed where
  head c hc := by
    rw [← Option.some.inj hc]
    rfl
  last c hc := by
    rw [bracketed, getLast?_concat] at hc
    rw [← Option.some.inj hc]
    rfl

end Header

theorem beforeComment_escaped (escaped : Bool) (text : Bytes) :
    beforeComment false escaped text = beforeComment false false text := by
  cases text <;> rfl

/-- Behind a text that has a comment put right behind it no string is open. -/
theorem beforeComment_closed {text : Bytes} (h : beforeComment false false text = none)
    (hclosed : beforeComment false false (text ++ [hash]) = some text) (rest : Bytes) :
    beforeComment false false (text ++ rest) = (beforeComment false false rest).map (text ++ ·) := by
  obtain ⟨inString, escaped, happend⟩ := beforeComment_append h
  cases inString with
  | false => rw [happend, beforeComment_escaped]
  | true =>
    rw [happend, beforeComment] at hclosed
    simp [beforeComment] at hclosed

theorem Header.strip (h : Header) (hreadable : h.Readable) :
    stripTrailingComment (contentOf h.line) = h.bracketed := by
  obtain ⟨front, back, hbracketed, hfront, hback⟩ := h.bracketed_eq
  obtain ⟨_, hname, hcomment⟩ := hreadable
  have htrimmed := h.bracketed_trimmed
  have htrail := h.htrail
  rw [Header.line]
  generalize htext : h.trail = trail at htrail hcomment
  cases htrail with
  | bare hblank hend =>
    have hlast : h.bracketed.getLast? ≠ some carriageReturn := by
      rw [Header.bracketed, getLast?_concat]
      decide
    have hhash : hash ∉ back := fun hmem => (hback hash hmem).1 rfl
    rw [contentOf_bare h.hindent htrimmed hlast hblank hend]
    apply stripTrailingComment_eq
    rw [hbracketed, beforeComment_plain hfront, beforeComment_both hname hhash, Option.map_none]
  | @comment blanks text hblank _ =>
    have hclosed := hcomment (by simp)
    have hstops : Stops isBlank (h.bracketed ++ blanks ++ [hash]) := by
      rintro d ⟨⟩
      rfl
    have hblanks : ∀ c ∈ blanks, c ≠ hash ∧ c ≠ doubleQuote := by
      intro c hc
      obtain ⟨hhash, hdouble, _⟩ := (isBlank_inert c (hblank c hc)).1
      exact ⟨hhash, hdouble⟩
    obtain ⟨rest, _, _, _, hcontent⟩ := contentOf_stop h.hindent hstops (by decide) text
    have hbefore : beforeComment false false (h.bracketed ++ blanks ++ hash :: rest) =
        some (h.bracketed ++ blanks) := by
      rw [hbracketed, append_assoc, append_assoc, append_assoc,
        beforeComment_plain hfront, beforeComment_closed hname hclosed, beforeComment_plain hback,
        beforeComment_plain hblanks, beforeComment, if_pos rfl]
      simp
    rw [← append_assoc h.bracketed, hcontent, stripTrailingComment, hbefore]
    show trimEnd isBlank (h.bracketed ++ blanks) = h.bracketed
    rw [Lib.trimEnd_append_all hblank, Lib.trimEnd_eq_self htrimmed.last]

theorem Header.trimBoth_inner (h : Header) (hreadable : h.Readable) :
    profilesPrefix.isPrefixOf (trimBoth isBlank h.inner) = false := by
  rw [Header.inner]
  cases htwice : h.twice with
  | true =>
    have htrimmed : Trimmed isBlank (openBracket :: (h.before ++ h.name ++ h.after) ++ [closeBracket]) := by
      refine ⟨fun c hc => ?_, fun c hc => ?_⟩
      · rw [← Option.some.inj hc]
        rfl
      · rw [getLast?_concat] at hc
        rw [← Option.some.inj hc]
        rfl
    rw [if_pos rfl, htrimmed.trimBoth_eq]
    rfl
  | false =>
    have hname := hreadable.1.resolve_left (by simp [htwice])
    rw [if_neg (by simp), append_assoc, h.hname.ends.trimmed.trimBoth_between h.hbefore h.hafter]
    exact hname

theorem parseLines_header (h : Header) (hreadable : h.Readable) :
    parseLines (h.line :: post) state = parseLines post { state with table := .unknown } := by
  have hne : h.bracketed ≠ [] := by simp [Header.bracketed]
  have hhead : h.bracketed.head? = some openBracket := rfl
  have hlast : h.bracketed.getLast? = some closeBracket := by
    rw [Header.bracketed, getLast?_concat]
  have hinner : (h.bracketed.drop 1).dropLast = h.inner := by
    rw [Header.bracketed, cons_append, drop_succ_cons, drop_zero, dropLast_concat]
  have hbracket : openBracket ≠ hash := by decide
  have hopen : openTable state (trimBoth isBlank h.inner) = .ok { state with table := .unknown } := by
    rw [openTable, h.trimBoth_inner hreadable]
    rfl
  rw [parseLines]
  simp only [h.strip hreadable, hne, hhead, Option.some.injEq, hbracket, or_self, if_false, if_true,
    hlast, ne_eq, not_true, hinner, hopen]

theorem parseLines_table (t : TableText) (h : t.Readable) :
    parseLines (t.lines ++ post) state = parseLines post { state with table := .unknown } := by
  rw [TableText.lines, cons_append, parseLines_header t.header h.1]
  exact parseLines_items h.2 rfl

variable {raw : Bytes}

theorem skipUnknownValue_append {state : Open} {lines rest : List Bytes}
    (h : skipUnknownValue state raw lines = some rest) (post : List Bytes) :
    skipUnknownValue state raw (lines ++ post) = some (rest ++ post) := by
  fun_induction skipUnknownValue state raw lines with
  | case1 | case2 | case4 => cases h
  | case3 state raw lines state' hscan hquote hdone =>
    cases h
    rw [skipUnknownValue, hscan]
    simp only [if_neg hquote, if_pos hdone]
  | case5 state raw state' hscan hquote hdone next lines ih =>
    rw [cons_append, skipUnknownValue, hscan]
    simp only [if_neg hquote, if_neg hdone]
    exact ih h

/-- Lines that are read to their end are read so in front of any others. -/
theorem parseLines_append {before : List Bytes} {state' : State}
    (h : parseLines before state = .ok state') (after : List Bytes) :
    parseLines (before ++ after) state = parseLines after state' := by
  fun_induction parseLines before state with
  | case1 =>
    cases h
    rfl
  | case2 state raw lines content line hline ih =>
    rw [cons_append, parseLines]
    rw [if_pos hline]
    exact ih h
  | case3 | case4 | case7 | case8 | case9 | case11 | case12 => cases h
  | case5 state raw lines content line hline hbracket hlast state₁ hopen ih =>
    rw [cons_append, parseLines]
    rw [if_neg hline, if_pos hbracket, if_neg hlast, hopen]
    exact ih h
  | case6 state raw lines content line hline hbracket hequals htable ih =>
    rw [cons_append, parseLines]
    rw [if_neg hline, if_neg hbracket, hequals]
    rw [if_pos htable]
    exact ih h
  | case10 state raw lines content line hline hbracket eq hequals key hkey hknown rest hskip ih =>
    rw [cons_append, parseLines]
    rw [if_neg hline, if_neg hbracket, hequals]
    dsimp only
    rw [if_neg hkey, if_pos hknown]
    have hskip' := skipUnknownValue_append hskip after
    split
    · next hfail =>
      rw [hskip'] at hfail
      cases hfail
    · next rest' hsome =>
      rw [hskip'] at hsome
      cases hsome
      exact ih h
  | case13 state raw lines content line hline hbracket eq hequals key hkey hknown value hvalue state₁
      hset ih =>
    rw [cons_append, parseLines]
    rw [if_neg hline, if_neg hbracket, hequals]
    dsimp only
    rw [if_neg hkey, if_neg hknown, hvalue]
    dsimp only
    rw [hset]
    exact ih h

/-! ## Insertions -/

def OpensTable (raw : Bytes) : Prop :=
  (stripTrailingComment (contentOf raw)).head? = some openBracket

theorem openTable_table (table : Table) (header : Bytes) :
    openTable { state with table := table } header = openTable state header := by
  simp [openTable]

theorem parseLines_opens (h : OpensTable raw) (table : Table) (rest : List Bytes) :
    parseLines (raw :: rest) { state with table := table } = parseLines (raw :: rest) state := by
  have hne : stripTrailingComment (contentOf raw) ≠ [] := by
    intro hnil
    rw [OpensTable, hnil] at h
    cases h
  have hhash : openBracket ≠ hash := by decide
  have hopens : (stripTrailingComment (contentOf raw)).head? = some openBracket := h
  rw [parseLines, parseLines]
  simp only [hopens, hne, Option.some.injEq, hhash, or_self, if_false, if_true, openTable_table]

/-- An entry or a table that is put between the lines of a file. -/
inductive Foreign where
  | entry (e : Entry)
  | table (t : TableText)

namespace Foreign

def lines : Foreign → List Bytes
  | entry e => e.lines
  | table t => t.lines

def Readable : Foreign → Prop
  | entry e => e.Readable
  | table t => t.Readable

/-- The place is one where its key is not known: anywhere in a table, or in front of a header. -/
def Fits (f : Foreign) (state : State) (after : List Bytes) : Prop :=
  match f with
  | entry e => state.table.knows e.key = false
  | table t => ¬t.header.Known ∧ ∃ raw rest, after = raw :: rest ∧ OpensTable raw

/-- Wherever it fits in an accepted file, the same profiles are read with it as without. -/
def Ignored (f : Foreign) : Prop :=
  ∀ (source : Bytes) (before after : List Bytes) (state : State) (file : AuthFile),
    source.splitOn newline = before ++ after → parse source = .ok file →
    parseLines before {} = .ok state → f.Fits state after →
    parse ([newline].intercalate (before ++ (f.lines ++ after))) = .ok file

theorem parseLines_eq (f : Foreign) (h : f.Readable) {after : List Bytes}
    (hfits : f.Fits state after) : parseLines (f.lines ++ after) state = parseLines after state := by
  cases f with
  | entry e => exact parseLines_entry e h hfits
  | table t =>
    obtain ⟨_, raw, rest, rfl, hopens⟩ := hfits
    exact (parseLines_table t h).trans (parseLines_opens hopens _ _)

theorem newline_not_mem_lines (f : Foreign) : ∀ line ∈ f.lines, newline ∉ line := by
  have hentry : ∀ e : Entry, ∀ line ∈ e.lines, newline ∉ line := fun e =>
    Config.LineParser.newline_not_mem_splitOn e.text
  cases f with
  | entry e => exact hentry e
  | table t =>
    intro line hline
    rw [lines, TableText.lines, mem_cons, mem_flatMap] at hline
    obtain rfl | ⟨item, _, hitem⟩ := hline
    · have hopen : newline ≠ openBracket := by decide
      have hclose : newline ≠ closeBracket := by decide
      have hname : newline ∉ t.header.before ++ t.header.name ++ t.header.after := by
        simp [t.header.hbefore.newline_not_mem, t.header.hname.newline_not_mem,
          t.header.hafter.newline_not_mem]
      have hinner : newline ∉ t.header.inner := by
        rw [Header.inner]
        split
        · simpa [hopen, hclose] using hname
        · exact hname
      simp [Header.line, Header.bracketed, t.header.hindent.newline_not_mem,
        t.header.htrail.newline_not_mem, hinner, hopen, hclose]
    · cases item with
      | idle indent trail hindent htrail =>
        rw [mem_singleton.mp hitem]
        simp [hindent.newline_not_mem, htrail.newline_not_mem]
      | entry e => exact hentry e line hitem

theorem lines_ne_nil (f : Foreign) : f.lines ≠ [] := by
  cases f with
  | entry e => exact splitOn_ne_nil newline e.text
  | table t => simp [lines, TableText.lines]

/-- What is not known is ignored, over all its lines. -/
theorem ignored (f : Foreign) (h : f.Readable) : f.Ignored := by
  intro source before after state file hsource hparse hbefore hfits
  have hsplit : ([newline].intercalate (before ++ (f.lines ++ after))).splitOn newline =
      before ++ (f.lines ++ after) := by
    apply splitOn_intercalate newline
    · intro line hline
      obtain hline | hline | hline : line ∈ before ∨ line ∈ f.lines ∨ line ∈ after := by
        simpa using hline
      · apply Config.LineParser.newline_not_mem_splitOn source
        exact hsource ▸ mem_append_left _ hline
      · exact f.newline_not_mem_lines line hline
      · apply Config.LineParser.newline_not_mem_splitOn source
        exact hsource ▸ mem_append_right _ hline
    · simp [f.lines_ne_nil]
  have hlines : parseLines (before ++ (f.lines ++ after)) {} = parseLines (before ++ after) {} := by
    rw [parseLines_append hbefore, parseLines_append hbefore, f.parseLines_eq h hfits]
  rw [parse, hsplit, hlines, ← hsource]
  exact hparse

theorem ok_of_toOption {ε α : Type} {r : Except ε α} {a : α} (h : r.toOption = some a) : r = .ok a := by
  cases r with
  | ok b => exact congrArg Except.ok (Option.some.inj h)
  | error e => cases h

/-- A string over several lines, one of which looks like a token. -/
def note : Entry where
  indent := []
  key := ascii "note"
  mid := [0x20]
  gap := [0x20]
  value := [singleQuote, singleQuote, singleQuote] ++ ascii "\ntoken = \"x\"\n" ++
    [singleQuote, singleQuote, singleQuote]
  trail := []
  hindent := nofun
  hkey := .part (.bare ⟨by decide, by decide +kernel⟩)
  hmid := blanks_space
  hgap := blanks_space
  hvalue := .string (.long (.inr rfl) (longText_plain (by decide +kernel)))
  htrail := lineEnd_nil

theorem ignored_note :
    parse (ascii "[profiles.work]\nnote = '''\ntoken = \"x\"\n'''\ntoken = \"t\"\n") =
      .ok ⟨ascii "default", [⟨ascii "work", [], ascii "t", []⟩]⟩ :=
  ignored (.entry note) ⟨by decide, by decide⟩
    (ascii "[profiles.work]\ntoken = \"t\"\n") [ascii "[profiles.work]"] [ascii "token = \"t\"", []]
    ⟨none, [⟨ascii "work", [], [], []⟩], .profile 0⟩
    ⟨ascii "default", [⟨ascii "work", [], ascii "t", []⟩]⟩ rfl
    (ok_of_toOption (by decide +kernel)) (ok_of_toOption (by decide +kernel)) rfl

/-- A quoted key with an equals sign in it. -/
def quotedKey : Entry where
  indent := []
  key := doubleQuote :: [0x61, equals, 0x62] ++ [doubleQuote]
  mid := [0x20]
  gap := [0x20]
  value := [0x31]
  trail := []
  hindent := nofun
  hkey := .part (.basic (.byte (by decide) (by decide) (by decide)
    (.byte (by decide) (by decide) (by decide) (.byte (by decide) (by decide) (by decide) .nil))))
  hmid := blanks_space
  hgap := blanks_space
  hvalue := .scalar (by decide) (by decide +kernel)
  htrail := lineEnd_nil

/-- The line `"a=b" = 1` in an empty file is an error. -/
theorem not_ignored : ¬∀ f : Foreign, f.Ignored := by
  intro h
  have hparse := h (.entry quotedKey) [] [] [[]] {} ⟨defaultProfile, []⟩ rfl
    (ok_of_toOption (by decide +kernel)) (ok_of_toOption (by decide +kernel)) rfl
  have herror : (parse ([newline].intercalate
      ([] ++ ((Foreign.entry quotedKey).lines ++ [[]])))).toOption = none := by decide +kernel
  rw [hparse] at herror
  cases herror

end Foreign

end Bbr.Bitbucket.Auth
