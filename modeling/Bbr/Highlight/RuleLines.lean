import Bbr.Config.Tables
import Bbr.Highlight.RuleArrays

/-!
# Lines of grammar tables

What the reader of the overrides makes of a line that the strict parser takes: it finds the rule of
the line if and only if the line is plain.
-/
namespace Bbr.Highlight.GrammarCli

open Bbr.Config List
open Config.LineParser (Plain quote_ Blanks Strings isSpace KeyText EntryFront Entry Comment)
open Bbr.Diff (ascii)
open Bbr.Lib (trimBoth trimEnd Trimmed)

variable {before keyText between behind front text back comment : Bytes} {items : List Bytes}
  {kind : RuleKind} {raw key : Bytes}

/-- An entry with an array, from its parts. -/
def entryText (before keyText between behind front text back comment : Bytes) : Bytes :=
  before ++ (keyText ++ (between ++ equals :: (behind ++ openBracket :: (front ++ (text ++
    closeBracket :: (back ++ comment))))))

theorem KeyText.cons (h : KeyText keyText key) : ∃ c rest, keyText = c :: rest ∧ isSpace c = false := by
  obtain ⟨hstops, _, _⟩ := @LineParser.KeyText.stops_space 0 keyText key h []
  cases h with
  | bare hne _ =>
    obtain ⟨c, rest, rfl⟩ := exists_cons_of_ne_nil hne
    exact ⟨c, rest, rfl, hstops c rfl⟩
  | quoted _ => exact ⟨_, _, rfl, rfl⟩

theorem trim_entryText (hbefore : Blanks before) (hkey : KeyText keyText key) :
    trimBoth isSpace (entryText before keyText between behind front text back comment) =
      keyText ++ (between ++ equals :: (behind ++ openBracket :: (front ++ (text ++
        closeBracket :: trimEnd isSpace (back ++ comment))))) := by
  obtain ⟨c, rest, rfl, hc⟩ := KeyText.cons hkey
  have htail := @Lib.trimEnd_append_stop _ isSpace closeBracket rfl
    (rest ++ (between ++ equals :: (behind ++ openBracket :: (front ++ text)))) (back ++ comment)
  rw [entryText, cons_append, Lib.trimBoth_stop hbefore hc]
  simp only [append_assoc, cons_append] at htail ⊢
  rw [htail]

theorem trimEnd_blanks (h : Blanks back) : trimEnd isSpace back = [] := by
  rw [Lib.trimEnd, reverse_eq_nil_iff, dropWhile_eq_nil_iff]
  exact fun c hc => h c (mem_reverse.mp hc)

theorem startsComment_tail (hback : Blanks back) (hcomment : Comment comment) :
    startsComment (trimBoth isBlank (trimEnd isSpace (back ++ comment))) = true ↔
      comment = [] ∨ Tabs back := by
  cases hcomment with
  | inl hnil =>
    rw [hnil, append_nil, trimEnd_blanks hback]
    simp [startsComment, trimBoth, Lib.trimEnd]
  | inr hhash =>
    obtain ⟨rest, rfl⟩ := head?_eq_some_iff.mp hhash
    rw [Lib.trimEnd_append_stop (show isSpace hash = false from rfl)]
    simp only [reduceCtorEq, false_or]
    constructor
    · intro hstart
      obtain ⟨stop, hstop, htabs, hfirst⟩ := Lib.exists_stops isBlank back
      cases stop with
      | nil =>
        rw [hstop, append_nil]
        exact htabs
      | cons c stop =>
        have hhead : trimBoth isBlank (back ++ hash :: trimEnd isSpace rest) =
            c :: trimEnd isBlank (stop ++ hash :: trimEnd isSpace rest) := by
          rw [hstop, append_assoc]
          exact Lib.trimBoth_stop htabs (hfirst c rfl) _
        rw [hhead] at hstart
        have hspace := hback c (by rw [hstop]; simp)
        have hne : c ≠ hash := by
          rintro rfl
          cases hspace
        simp [startsComment, hne] at hstart
    · intro htabs
      rw [Lib.trimBoth_stop htabs (show isBlank hash = false from rfl)]
      simp [startsComment]

theorem close_mem_tail (hback : Blanks back) :
    closeBracket ∈ trimEnd isSpace (back ++ comment) ↔ closeBracket ∈ comment := by
  have hblank := not_mem_blanks hback (show isSpace closeBracket = false from rfl)
  constructor
  · intro hmem
    cases mem_append.mp (Lib.mem_of_trimEnd hmem) with
    | inl hmem => exact absurd hmem hblank
    | inr hmem => exact hmem
  · exact fun hmem => Lib.mem_trimEnd (mem_append_right _ hmem) rfl

theorem tail_comment (hback : Blanks back) (hcomment : Comment comment) :
    (startsComment (trimBoth isBlank (trimEnd isSpace (back ++ comment))) = true ∧
      closeBracket ∉ trimEnd isSpace (back ++ comment)) ↔
    (comment = [] ∨ Tabs back ∧ closeBracket ∉ comment) := by
  rw [startsComment_tail hback hcomment, close_mem_tail hback]
  constructor
  · rintro ⟨hnil | htabs, hclose⟩
    · exact .inl hnil
    · exact .inr ⟨htabs, hclose⟩
  · rintro (rfl | ⟨htabs, hclose⟩)
    · exact ⟨.inl rfl, by simp⟩
    · exact ⟨.inr htabs, hclose⟩

/-- An entry that both readers find the same strings in: its key is bare, no carriage return stands
between its parts, no string has a comma, and no comment has a closing bracket. -/
def PlainEntry (raw key : Bytes) (items : List Bytes) : Prop :=
  ∃ before between behind front text back comment,
    raw = entryText before key between behind front text back comment ∧ Blanks before ∧
      Tabs between ∧ Tabs behind ∧ Tabs front ∧ Strings Tabs Whole items text ∧ items ≠ [[]] ∧
      Blanks back ∧ Comment comment ∧ (comment = [] ∨ Tabs back ∧ closeBracket ∉ comment)

/-- An entry of a grammar table as the strict parser takes it. -/
structure StrictEntry (raw : Bytes) (kind : RuleKind) (key : Bytes) (items : List Bytes) : Prop where
  idle : isIdle raw = false
  header : isHeader raw = false
  kind_ : ruleKind key = some kind
  items_ : items ≠ []
  reads : ∃ value after, entryOf raw = some (key, value) ∧ value.stringArray = .ok (items, after) ∧
    after.space.trailing = true

theorem StrictEntry.shape (h : StrictEntry raw kind key items) :
    ∃ before keyText between behind front text back comment,
      raw = entryText before keyText between behind front text back comment ∧ Blanks before ∧
        KeyText keyText key ∧ Blanks between ∧ Blanks behind ∧ Blanks front ∧
        Strings Blanks Plain items text ∧ Blanks back ∧ Comment comment := by
  obtain ⟨value, after, hentry, harray, htrailing⟩ := h.reads
  have hline : Entry raw key value := by
    refine ⟨h.idle, of_decide_eq_false h.header, ?_⟩
    rw [entryOf] at hentry
    split at hentry
    · cases hentry
    rename_i name parser hkey
    obtain ⟨start, htake, heq⟩ := Option.map_eq_some_iff.mp hentry
    cases heq
    exact ⟨parser, start, hkey, htake, rfl⟩
  obtain ⟨_, hraw, ⟨before, keyText, between, behind, hbefore, hkey, hbetween, hbehind, rfl⟩, _, _⟩ :=
    hline.shape
  obtain ⟨front, text, htext, hfront, hstrings, _⟩ := LineParser.stringArray_spec harray h.items_
  obtain ⟨back, comment, hback, hblanks, hcomment⟩ := LineParser.space_trailing htrailing
  refine ⟨before, keyText, between, behind, front, text, back, comment, ?_, hbefore, hkey, hbetween,
    hbehind, hfront, hstrings, hblanks, hcomment⟩
  rw [hraw, htext, hback, entryText]
  simp

theorem ruleKind_bytes (h : ruleKind key = some kind) :
    key ≠ [] ∧ ∀ c ∈ key, LineParser.isKeyByte c = true := by
  unfold ruleKind at h
  split_ifs at h with h1 h2 h3 h4
  · rw [h1]
    exact ⟨by decide, by decide +kernel⟩
  · rw [h2]
    exact ⟨by decide, by decide +kernel⟩
  · rw [h3]
    exact ⟨by decide, by decide +kernel⟩
  · rw [h4]
    exact ⟨by decide, by decide +kernel⟩

theorem keyByte_props : ∀ c, LineParser.isKeyByte c = true →
    c ≠ equals ∧ isBlank c = false ∧ c ≠ quote ∧ isSpace c = false :=
  Diff.forall_byte (by decide +kernel)

section

variable (hkey : KeyText keyText key) (hkind : ruleKind key = some kind) (hbetween : Blanks between)
include hkey hkind hbetween

theorem equals_not_mem : equals ∉ keyText ++ between := by
  have hbytes := (ruleKind_bytes hkind).2
  have hname : equals ∉ key := fun hmem => (keyByte_props _ (hbytes _ hmem)).1 rfl
  have htext : equals ∉ keyText := by
    cases hkey with
    | bare _ _ => exact hname
    | quoted _ =>
      simp only [quote_, cons_append, mem_cons, mem_append, not_or]
      exact ⟨by decide, hname, by decide, by simp⟩
  rw [mem_append, not_or]
  exact ⟨htext, not_mem_blanks hbetween rfl⟩

theorem ruleLine_entryText (rest : Bytes) : ruleLine (keyText ++ (between ++ equals :: rest)) =
      (parseRuleArray (trimBoth isBlank rest)).bind (fun values =>
        match ruleKind (trimBoth isBlank (keyText ++ between)) with
        | none => .error .invalidUserGrammarConfiguration
        | some kind => .ok (kind, values)) := by
  have hindex := idxOf?_middle (equals_not_mem hkey hkind hbetween) rest
  rw [← append_assoc, ruleLine, hindex]
  simp only [take_left, drop_append, drop_eq_nil_of_le (Nat.le_succ _),
    nil_append, Nat.add_sub_cancel_left, drop_succ_cons, drop_zero]
  rfl

end

theorem trim_key (hkey : ruleKind key = some kind) (hbetween : Tabs between) :
    trimBoth isBlank (key ++ between) = key := by
  obtain ⟨_, hbytes⟩ := ruleKind_bytes hkey
  have htrimmed : Trimmed isBlank key :=
    ⟨fun c hc => (keyByte_props c (hbytes c (mem_of_head? hc))).2.1,
      fun c hc => (keyByte_props c (hbytes c (mem_of_getLast? hc))).2.1⟩
  rw [Lib.trimBoth_append_right hbetween, htrimmed.trimBoth_eq]

theorem trim_array (hbehind : Tabs behind) (content : Bytes) :
    trimBoth isBlank (behind ++ openBracket :: (content ++ closeBracket ::
      trimEnd isSpace (back ++ comment))) =
      openBracket :: (content ++ closeBracket :: trimEnd isSpace (back ++ comment)) := by
  have hend : trimEnd isBlank (trimEnd isSpace (back ++ comment)) =
      trimEnd isSpace (back ++ comment) := by
    apply Lib.trimEnd_eq_self
    intro c hc
    have hlast := Lib.trimEnd_last isSpace (back ++ comment) c hc
    have hblank := space_of_blank c
    cases hcase : isBlank c with
    | false => rfl
    | true =>
      rw [hblank hcase] at hlast
      cases hlast
  rw [Lib.trimBoth_stop hbehind rfl, Lib.trimEnd_append_stop rfl, hend]

theorem PlainEntry.ruleLine (h : PlainEntry raw key items) (hkind : ruleKind key = some kind) :
    ruleLine (trimBoth isSpace raw) = .ok (kind, items) := by
  obtain ⟨before, between, behind, front, text, back, comment, rfl, hbefore, hbetween, hbehind,
    hfront, hstrings, hfilled, hback, hcomment, hplain⟩ := h
  obtain ⟨hne, hbytes⟩ := ruleKind_bytes hkind
  have hkey : KeyText key key := .bare hne hbytes
  obtain ⟨hstarts, hclose⟩ := (tail_comment hback hcomment).mpr hplain
  have harray : PlainArray front text (trimEnd isSpace (back ++ comment)) items :=
    ⟨hfront, hstrings, hfilled, hclose, hstarts⟩
  have htrim := @trim_array behind back comment hbehind (front ++ text)
  rw [append_assoc] at htrim
  rw [trim_entryText hbefore hkey, ruleLine_entryText hkey hkind hbetween.blanks, htrim,
    harray.parse, trim_key hkind hbetween]
  simp [Except.bind, hkind]

theorem tabs_of_blanks (h : Blanks text) (hreturn : (0x0d : UInt8) ∉ text) : Tabs text := by
  have hbyte : ∀ c, isSpace c = true → c = 0x0d ∨ isBlank c = true :=
    Diff.forall_byte (by decide +kernel)
  intro c hc
  cases hbyte c (h c hc) with
  | inl heq =>
    rw [heq] at hc
    exact absurd hc hreturn
  | inr hblank => exact hblank

variable {kind' : RuleKind}

/-- A key that the reader knows is written bare, and no carriage return follows it. -/
theorem key_of_ruleKind (hkey : KeyText keyText key) (hkind : ruleKind key = some kind)
    (hbetween : Blanks between)
    (h : ruleKind (trimBoth isBlank (keyText ++ between)) = some kind') :
    keyText = key ∧ Tabs between ∧ kind' = kind := by
  have hbytes := (ruleKind_bytes h).2
  have hbare : keyText = key := by
    cases hkey with
    | bare _ _ => rfl
    | quoted _ =>
      have hmem : quote ∈ trimBoth isBlank (quote_ key ++ between) :=
        Lib.mem_trimBoth (by simp [quote_]) rfl
      exact absurd rfl (keyByte_props _ (hbytes _ hmem)).2.2.1
  have htabs : Tabs between := by
    apply tabs_of_blanks hbetween
    intro hmem
    have hreturn : (0x0d : UInt8) ∈ trimBoth isBlank (keyText ++ between) :=
      Lib.mem_trimBoth (mem_append_right _ hmem) rfl
    have hspace := (keyByte_props _ (hbytes _ hreturn)).2.2.2
    cases hspace
  rw [hbare, trim_key hkind htabs, hkind] at h
  cases h
  exact ⟨hbare, htabs, rfl⟩

theorem parseRuleArray_head (h : parseRuleArray raw = .ok items) : raw.head? = some openBracket := by
  rw [parseRuleArray] at h
  split at h
  · cases h
  split at h
  · cases h
  · next hgood =>
    simp only [not_or, ne_eq, not_not] at hgood
    exact hgood.2.1

/-- An array that the reader takes stands right behind the equals sign. -/
theorem tabs_of_array (hbehind : Blanks behind) {rest : Bytes}
    (h : parseRuleArray (trimBoth isBlank (behind ++ openBracket :: rest)) = .ok items) :
    Tabs behind := by
  obtain ⟨stop, hstop, htabs, hfirst⟩ := Lib.exists_stops isBlank behind
  cases stop with
  | nil =>
    rw [hstop, append_nil]
    exact htabs
  | cons c stop =>
    have htrim : trimBoth isBlank (behind ++ openBracket :: rest) =
        c :: trimEnd isBlank (stop ++ openBracket :: rest) := by
      rw [hstop, append_assoc]
      exact Lib.trimBoth_stop htabs (hfirst c rfl) _
    have hhead := parseRuleArray_head h
    rw [htrim] at hhead
    cases hhead
    have hspace := hbehind openBracket (by rw [hstop]; simp)
    cases hspace

/-- What the reader finds in a line of the strict parser is a rule of the same kind. -/
theorem StrictEntry.ruleLine_ok {values : List Bytes} (h : StrictEntry raw kind key items)
    (hread : ruleLine (trimBoth isSpace raw) = .ok (kind', values)) :
    kind' = kind ∧ values ≠ [] := by
  obtain ⟨before, keyText, between, behind, front, text, back, comment, rfl, hbefore, hkey, hbetween,
    _⟩ := h.shape
  rw [trim_entryText hbefore hkey, ruleLine_entryText hkey h.kind_ hbetween] at hread
  cases harray : parseRuleArray (trimBoth isBlank (behind ++ openBracket :: (front ++ (text ++
      closeBracket :: trimEnd isSpace (back ++ comment))))) with
  | error e => simp [harray, Except.bind] at hread
  | ok values' =>
    simp only [harray, Except.bind] at hread
    split at hread
    · cases hread
    · next hkind =>
      cases hread
      exact ⟨(key_of_ruleKind hkey h.kind_ hbetween hkind).2.2, parseRuleArray_ne harray⟩

theorem StrictEntry.plain (h : StrictEntry raw kind key items) (hfilled : items ≠ [[]])
    (hread : ruleLine (trimBoth isSpace raw) = .ok (kind', items)) : PlainEntry raw key items := by
  obtain ⟨before, keyText, between, behind, front, text, back, comment, rfl, hbefore, hkey, hbetween,
    hbehind, hfront, hstrings, hback, hcomment⟩ := h.shape
  rw [trim_entryText hbefore hkey, ruleLine_entryText hkey h.kind_ hbetween] at hread
  cases harray : parseRuleArray (trimBoth isBlank (behind ++ openBracket :: (front ++ (text ++
      closeBracket :: trimEnd isSpace (back ++ comment))))) with
  | error e => simp [harray, Except.bind] at hread
  | ok values =>
    simp only [harray, Except.bind] at hread
    split at hread
    · cases hread
    rename_i hkind
    cases hread
    obtain ⟨rfl, htabs, _⟩ := key_of_ruleKind hkey h.kind_ hbetween hkind
    have hbehind' := tabs_of_array hbehind harray
    have htrim := @trim_array behind back comment hbehind' (front ++ text)
    rw [append_assoc] at htrim
    rw [htrim] at harray
    have hplain := plainArray_of_parse hfront hstrings hfilled harray
    exact ⟨before, between, behind, front, text, back, comment, rfl, hbefore, htabs, hbehind',
      hplain.gap, hplain.strings, hfilled, hback, hcomment,
      (tail_comment hback hcomment).mp ⟨hplain.comment, hplain.close⟩⟩

/-- A header that both readers take: no carriage return in front of its comment. -/
def PlainHeader (raw : Bytes) : Prop :=
  ∃ before name back comment,
    raw = before ++ openBracket :: (name ++ closeBracket :: (back ++ comment)) ∧ Blanks before ∧
      LineParser.TableName name ∧ Comment comment ∧ (comment = [] ∧ Blanks back ∨ Tabs back)

/-- A header as the strict parser takes it. -/
structure StrictHeader (raw : Bytes) (name : Bytes) : Prop where
  header : isHeader raw = true
  reads : ∃ after, (LineParser.space { text := raw }).section_ = .ok (name, after) ∧
    after.space.trailing = true

variable {name : Bytes}

theorem StrictHeader.shape (h : StrictHeader raw name) :
    ∃ before back comment, raw = before ++ openBracket :: (name ++ closeBracket :: (back ++ comment)) ∧
      Blanks before ∧ LineParser.TableName name ∧ Blanks back ∧ Comment comment := by
  obtain ⟨after, hsection, htrailing⟩ := h.reads
  obtain ⟨before, hraw, hbefore, _⟩ := LineParser.space_spec { text := raw }
  obtain ⟨htext, hname⟩ := LineParser.section_spec hsection
  obtain ⟨back, comment, hback, hblanks, hcomment⟩ := LineParser.space_trailing htrailing
  refine ⟨before, back, comment, ?_, hbefore, hname, hblanks, hcomment⟩
  rw [← hback, ← htext]
  exact hraw

theorem trim_header (hbefore : Blanks before) :
    trimBoth isSpace (before ++ openBracket :: (name ++ closeBracket :: (back ++ comment))) =
      openBracket :: (name ++ closeBracket :: trimEnd isSpace (back ++ comment)) := by
  rw [Lib.trimBoth_stop hbefore rfl, Lib.trimEnd_append_stop rfl]

theorem header_prefix (name : Bytes) : header.isPrefixOf (openBracket :: (name ++ [closeBracket])) =
      (ascii "grammars.").isPrefixOf name := by
  have hheader : header = openBracket :: ascii "grammars." := by decide
  rw [Bool.eq_iff_iff, isPrefixOf_iff_prefix, isPrefixOf_iff_prefix, hheader,
    cons_prefix_cons, prefix_concat_iff]
  constructor
  · rintro ⟨_, heq | hbegins⟩
    · have hmem : closeBracket ∈ ascii "grammars." := by
        rw [heq]
        simp
      exact absurd hmem (by decide)
    · exact hbegins
  · exact fun hbegins => ⟨rfl, .inr hbegins⟩

theorem header_name (h : (ascii "grammars.").isPrefixOf name = true) :
    ((openBracket :: (name ++ [closeBracket])).drop header.length).dropLast = name.drop 9 := by
  obtain ⟨rest, rfl⟩ := isPrefixOf_iff_prefix.mp h
  have hlength : (ascii "grammars.").length = 9 := by decide
  have hheader : header.length = (ascii "grammars.").length + 1 := by decide
  rw [hheader, drop_succ_cons, append_assoc, drop_left, ← hlength, drop_left, dropLast_concat]

theorem readHeader_eq {tail : Bytes} (hname : closeBracket ∉ name) (state : State) :
    readHeader (openBracket :: (name ++ closeBracket :: tail)) state =
      if startsComment (trimBoth isBlank tail) = false then .error .invalidUserGrammarConfiguration
      else if (ascii "grammars.").isPrefixOf name then
        if state.overrides.any (fun override => override.name == name.drop 9) then
          .error .duplicateUserGrammarConfiguration
        else .ok ⟨state.overrides ++ [⟨name.drop 9, {}⟩], some state.overrides.length⟩
      else .ok { state with current := none } := by
  have hopen : closeBracket ∉ openBracket :: name := by
    rw [mem_cons, not_or]
    exact ⟨by decide, hname⟩
  have hindex := idxOf?_middle hopen tail
  have hline : openBracket :: (name ++ closeBracket :: tail) =
      (openBracket :: (name ++ [closeBracket])) ++ tail := by simp
  have hlength : name.length + 1 + 1 = (openBracket :: (name ++ [closeBracket])).length := by simp
  have htake : (openBracket :: (name ++ closeBracket :: tail)).take (name.length + 1 + 1) =
      openBracket :: (name ++ [closeBracket]) := by rw [hline, hlength, take_left]
  have hdrop : (openBracket :: (name ++ closeBracket :: tail)).drop (name.length + 1 + 1) = tail := by
    rw [hline, hlength, drop_left]
  have hlast : (openBracket :: (name ++ [closeBracket])).getLast? = some closeBracket := by
    rw [← cons_append, getLast?_concat]
  rw [cons_append, length_cons] at hindex
  rw [readHeader, hindex]
  simp only [htake, hdrop, header_prefix, hlast, and_true, Bool.not_eq_true']
  by_cases hbegins : (ascii "grammars.").isPrefixOf name = true
  · simp only [header_name hbegins]
  · simp only [hbegins, Bool.false_eq_true, if_false]

/-- What a header does that its name decides. -/
def openTable (name : Bytes) (state : State) : Except OverrideError State :=
  if (ascii "grammars.").isPrefixOf name then
    if state.overrides.any (fun override => override.name == name.drop 9) then
      .error .duplicateUserGrammarConfiguration
    else .ok ⟨state.overrides ++ [⟨name.drop 9, {}⟩], some state.overrides.length⟩
  else .ok { state with current := none }

theorem trim_idle (h : isIdle raw = true) :
    trimBoth isSpace raw = [] ∨ (trimBoth isSpace raw).head? = some hash := by
  obtain ⟨before, hraw, hbefore, _⟩ := LineParser.space_spec { text := raw }
  have hcomment := LineParser.trailing_iff.mp h
  cases hcomment with
  | inl hnil =>
    rw [hnil, append_nil] at hraw
    have hdrop : raw.dropWhile isSpace = [] := by
      rw [dropWhile_eq_nil_iff, show raw = before from hraw]
      exact hbefore
    exact .inl (by rw [trimBoth, hdrop]; rfl)
  | inr hhash =>
    obtain ⟨rest, hrest⟩ := head?_eq_some_iff.mp hhash
    rw [hrest] at hraw
    have htrim : trimBoth isSpace raw = hash :: trimEnd isSpace rest := by
      rw [show raw = before ++ hash :: rest from hraw]
      exact Lib.trimBoth_stop hbefore rfl _
    exact .inr (by rw [htrim]; rfl)

theorem readLine_idle (h : isIdle raw = true) (state : State) : readLine raw state = .ok state := by
  rw [readLine]
  simp only [if_pos (trim_idle h)]

theorem trim_first (h : isIdle raw = false) : ∃ c rest, trimBoth isSpace raw = c :: rest ∧ c ≠ hash ∧
      (isHeader raw = true ↔ c = openBracket) := by
  obtain ⟨before, hraw, hbefore, hstop, _⟩ := LineParser.space_spec { text := raw }
  cases htext : (LineParser.space { text := raw }).text with
  | nil =>
    rw [isIdle, LineParser.trailing, htext] at h
    cases h
  | cons c rest =>
    rw [htext] at hraw hstop
    refine ⟨c, trimEnd isSpace rest, ?_, ?_, ?_⟩
    · rw [show raw = before ++ c :: rest from hraw]
      exact Lib.trimBoth_stop hbefore (hstop c rfl) _
    · rintro rfl
      rw [isIdle, LineParser.trailing, htext] at h
      cases h
    · rw [isHeader, htext]
      simp

theorem readLine_entry (hidle : isIdle raw = false) (hheader : isHeader raw = false) (state : State) :
    readLine raw state = match state.current with
      | none => .ok state
      | some index => do
        let (kind, values) ← ruleLine (trimBoth isSpace raw)
        match state.overrides[index]? with
        | none => .ok state
        | some override =>
          let rules ← addRule override.rules kind values
          return { state with overrides := state.overrides.set index ⟨override.name, rules⟩ } := by
  obtain ⟨c, rest, htrim, hhash, hbracket⟩ := trim_first hidle
  rw [hheader] at hbracket
  have hopen : c ≠ openBracket := fun heq => by simpa using hbracket.mpr heq
  rw [readLine, htrim]
  exact (if_neg (by simpa using hhash)).trans (if_neg (by simpa using hopen))

theorem readLine_headerText {name : Bytes} (hbefore : Blanks before) (hname : LineParser.TableName name)
    (state : State) :
    readLine (before ++ openBracket :: (name ++ closeBracket :: (back ++ comment))) state =
      if startsComment (trimBoth isBlank (trimEnd isSpace (back ++ comment))) = false then
        .error .invalidUserGrammarConfiguration
      else openTable name state := by
  rw [readLine, trim_header hbefore]
  exact readHeader_eq hname.2 state

theorem PlainHeader.readLine (h : PlainHeader raw) : ∃ name, ∀ state, readLine raw state =
    openTable name state := by
  obtain ⟨before, name, back, comment, rfl, hbefore, hname, hcomment, hplain⟩ := h
  refine ⟨name, fun state => ?_⟩
  have hstarts : startsComment (trimBoth isBlank (trimEnd isSpace (back ++ comment))) = true := by
    cases hplain with
    | inl hnil => exact (startsComment_tail hnil.2 hcomment).mpr (.inl hnil.1)
    | inr htabs => exact (startsComment_tail htabs.blanks hcomment).mpr (.inr htabs)
  rw [readLine_headerText hbefore hname, hstarts]
  rfl

/-- A header that the strict parser takes opens its table, or is not plain and refused. -/
theorem readLine_header (h : StrictHeader raw name) :
    (PlainHeader raw ∧ ∀ state, readLine raw state = openTable name state) ∨
      (¬PlainHeader raw ∧ ∀ state, readLine raw state = .error .invalidUserGrammarConfiguration) := by
  obtain ⟨before, back, comment, rfl, hbefore, hname, hback, hcomment⟩ := h.shape
  have hread := @readLine_headerText before back comment name hbefore hname
  cases hstarts : startsComment (trimBoth isBlank (trimEnd isSpace (back ++ comment))) with
  | true =>
    refine .inl ⟨⟨before, name, back, comment, rfl, hbefore, hname, hcomment, ?_⟩, fun state => ?_⟩
    · cases (startsComment_tail hback hcomment).mp hstarts with
      | inl hnil => exact .inl ⟨hnil, hback⟩
      | inr htabs => exact .inr htabs
    · rw [hread, hstarts]
      rfl
  | false =>
    have herror : ∀ state, readLine
        (before ++ openBracket :: (name ++ closeBracket :: (back ++ comment))) state =
          .error .invalidUserGrammarConfiguration := fun state => by
      rw [hread, hstarts]
      rfl
    refine .inr ⟨fun hplain => ?_, herror⟩
    obtain ⟨name', hopen⟩ := hplain.readLine
    have hfresh := (herror {}).symm.trans (hopen {})
    rw [openTable] at hfresh
    split at hfresh
    · simp at hfresh
    · cases hfresh

end Bbr.Highlight.GrammarCli
