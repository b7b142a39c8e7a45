import Bbr.Config.LineShapes
import Bbr.Highlight.GrammarCli
import Bbr.Lib.Results

/-!
# Arrays of rules

The reader that splits an array at its commas finds the strings of the array if and only if no
string has a comma, no comment has a closing bracket and there is no carriage return in a gap.
-/
namespace Bbr.Highlight.GrammarCli

open Bbr.Config List
open Config.LineParser (Plain quote_ Blanks Strings isSpace isPlain)
open Bbr.Lib (trimBoth trimEnd Trimmed mapM_cons_iff mapM_length)

/-- Spaces and tabs, and no carriage return. -/
def Tabs (text : Bytes) : Prop := ∀ c ∈ text, isBlank c = true

theorem space_of_blank : ∀ c, isBlank c = true → isSpace c = true :=
  Diff.forall_byte (by decide +kernel)

theorem Tabs.blanks {text : Bytes} (h : Tabs text) : Blanks text :=
  fun c hc => space_of_blank c (h c hc)

variable {c : UInt8}

theorem not_mem_blanks {text : Bytes} (h : Blanks text) (hc : isSpace c = false) : c ∉ text := by
  intro hmem
  rw [h c hmem] at hc
  cases hc

variable {part item text extra : Bytes} {front back : Bytes} {items : List Bytes}

theorem quote_trimmed (item : Bytes) : Trimmed isBlank (quote_ item) where
  head c hc := by
    cases hc
    rfl
  last c hc := by
    rw [quote_, getLast?_concat] at hc
    cases hc
    rfl

theorem partValue_iff : partValue part = .ok item ↔
    ∃ front back, Tabs front ∧ Tabs back ∧ part = front ++ (quote_ item ++ back) := by
  constructor
  · intro h
    rw [partValue] at h
    split at h
    · cases h
    rename_i hquoted
    simp only [not_or, Nat.not_lt, ne_eq, not_not] at hquoted
    obtain ⟨hlength, hhead, hlast⟩ := hquoted
    cases h
    obtain ⟨rest, hrest⟩ := head?_eq_some_iff.mp hhead
    obtain ⟨init, hinit⟩ := getLast?_eq_some_iff.mp hlast
    have hvalue : trimBoth isBlank part = quote_ (((trimBoth isBlank part).drop 1).dropLast) := by
      cases init with
      | nil => simp [hinit] at hlength
      | cons c init =>
        rw [hinit] at hrest ⊢
        cases hrest
        simp [quote_]
    have hdrop : part = part.takeWhile isBlank ++ part.dropWhile isBlank :=
      takeWhile_append_dropWhile.symm
    obtain ⟨back, hback, htabs⟩ := Lib.exists_trimEnd isBlank (part.dropWhile isBlank)
    refine ⟨part.takeWhile isBlank, back, fun c hc => mem_takeWhile_imp hc, htabs, ?_⟩
    rw [← hvalue, trimBoth, ← hback]
    exact hdrop
  · rintro ⟨front, back, hfront, hback, rfl⟩
    have htrim := (quote_trimmed item).trimBoth_between hfront hback
    have hlast : (quote_ item).getLast? = some quote := by rw [quote_, getLast?_concat]
    rw [partValue, htrim, if_neg (by rw [hlast]; simp [quote_])]
    simp [quote_]

theorem partValue_front (h : Tabs front) (part : Bytes) : partValue (front ++ part) = partValue part := by
  rw [partValue, Lib.trimBoth_append_left h, partValue]

theorem partValue_back (h : Tabs back) (part : Bytes) : partValue (part ++ back) = partValue part := by
  rw [partValue, Lib.trimBoth_append_right h, partValue]

theorem takeWhile_quote (hfront : Blanks front) (rest : Bytes) :
    (front ++ quote :: rest).takeWhile (· != quote) = front := by
  apply Lib.takeWhile_stops
  · intro c hc
    have hquote := not_mem_blanks hfront (show isSpace quote = false from rfl)
    simp only [bne_iff_ne, ne_eq]
    rintro rfl
    exact hquote hc
  · exact LineParser.stops_cons (by simp)

theorem quote_not_mem (h : Plain item) : quote ∉ item := by
  intro hmem
  have := h _ hmem
  simp [isPlain] at this

theorem quoted_unique {front' back' : Bytes} (hfront : Blanks front) (hfront' : Blanks front')
    (h : front ++ (quote_ item ++ back) = front' ++ (quote_ item ++ back')) :
    front = front' ∧ back = back' := by
  have hheads := takeWhile_quote hfront (item ++ quote :: back)
  have hheads' := takeWhile_quote hfront' (item ++ quote :: back')
  simp only [quote_, cons_append, append_assoc, nil_append] at h
  rw [h, hheads'] at hheads
  rw [hheads] at h
  have hrest := append_cancel_left h
  rw [cons.injEq] at hrest
  have hback := append_cancel_left hrest.2
  rw [cons.injEq] at hback
  exact ⟨hheads.symm, hback.2⟩

theorem partValue_open (hfront : Blanks front) (hitem : Plain text) :
    partValue (front ++ quote :: text) ≠ .ok item := by
  intro h
  obtain ⟨front', back, hfront', _, heq⟩ := partValue_iff.mp h
  have hheads := takeWhile_quote hfront text
  have hheads' := takeWhile_quote hfront'.blanks (item ++ quote :: back)
  simp only [quote_, cons_append, append_assoc, nil_append] at heq
  rw [heq, hheads'] at hheads
  rw [hheads] at heq
  have hrest := append_cancel_left heq
  rw [cons.injEq] at hrest
  exact quote_not_mem hitem (by simp [hrest.2])

def ruleParts (content : Bytes) : Except OverrideError (List Bytes) :=
  (content.splitOn comma).mapM partValue

theorem ruleParts_cons (h : comma ∉ front) (rest : Bytes) :
    ruleParts (front ++ comma :: rest) = .ok (item :: items) ↔
      partValue front = .ok item ∧ ruleParts rest = .ok items := by
  rw [ruleParts, splitOn_append_cons_self_of_not_mem h, mapM_cons_iff, ruleParts]

theorem ruleParts_single (h : comma ∉ text) : ruleParts text = .ok [item] ↔ partValue text = .ok item := by
  rw [ruleParts, splitOn_eq_singleton h, mapM_cons_iff]
  simp [pure, Except.pure]

variable {content : Bytes}

theorem ruleParts_ne (h : ruleParts content = .ok items) : items ≠ [] := by
  rintro rfl
  have hlength := mapM_length h
  exact splitOn_ne_nil comma content (length_eq_zero_iff.mp hlength.symm)

/-- A string whose text a comma does not cut. -/
def Whole (item : Bytes) : Prop := Plain item ∧ comma ∉ item

theorem comma_not_blank : isSpace comma = false := rfl

theorem comma_not_mem_part (hfront : Blanks front) (hitem : comma ∉ item) (hback : Blanks back) :
    comma ∉ front ++ (quote_ item ++ back) := by
  have hquote : comma ∉ quote_ item := by
    simp only [quote_, cons_append, mem_append, mem_cons, not_or]
    exact ⟨by decide, hitem, by decide, by simp⟩
  simp only [mem_append, not_or]
  exact ⟨not_mem_blanks hfront rfl, hquote, not_mem_blanks hback rfl⟩

/-- A part that is one string, in front of what is not a gap or nothing. -/
theorem partValue_string (hfront : Blanks front) (hextra : extra = [] ∨ extra.head? = some closeBracket)
    (h : partValue (front ++ (quote_ item ++ (back ++ extra))) = .ok item) :
    Tabs front ∧ Tabs back ∧ extra = [] := by
  obtain ⟨front', back', hfront', hback', heq⟩ := partValue_iff.mp h
  obtain ⟨rfl, rfl⟩ := quoted_unique hfront hfront'.blanks heq
  have hempty : extra = [] := by
    cases hextra with
    | inl hnil => exact hnil
    | inr hclose =>
      obtain ⟨rest, rfl⟩ := head?_eq_some_iff.mp hclose
      have := hback' closeBracket (by simp)
      cases this
  exact ⟨hfront', fun c hc => hback' c (mem_append_left _ hc), hempty⟩

/-- The strings that the commas of an array find are those of the array only when it is written so
that no comma and no carriage return misleads. -/
theorem ruleParts_strings (hfront : Blanks front) (h : Strings Blanks Plain items text)
    (hextra : extra = [] ∨ extra.head? = some closeBracket)
    (hparts : ruleParts (front ++ (text ++ extra)) = .ok items) :
    Tabs front ∧ Strings Tabs Whole items text ∧ extra = [] := by
  induction h generalizing front with
  | @one item back hitem hback =>
    rw [append_assoc] at hparts
    by_cases hcomma : comma ∈ front ++ (quote_ item ++ (back ++ extra))
    · obtain ⟨before, rest, heq, hbefore⟩ := eq_append_cons_of_mem hcomma
      rw [heq] at hparts
      have hrest := ((ruleParts_cons hbefore rest).mp hparts).2
      exact absurd rfl (ruleParts_ne hrest)
    · have hpart := (ruleParts_single hcomma).mp hparts
      obtain ⟨htabs, htabs', hempty⟩ := partValue_string hfront hextra hpart
      have hwhole : comma ∉ item := fun hmem => hcomma (by simp [quote_, hmem])
      exact ⟨htabs, .one ⟨hitem, hwhole⟩ htabs', hempty⟩
  | @cons item back front' text items hitem hback hfront' hrest ih =>
    by_cases hcomma : comma ∈ item
    · obtain ⟨before, rest, rfl, hbefore⟩ := eq_append_cons_of_mem hcomma
      have hcut : comma ∉ front ++ quote :: before := by
        simp only [mem_append, mem_cons, not_or]
        exact ⟨not_mem_blanks hfront rfl, by decide, hbefore⟩
      have hplain : Plain before := fun c hc => hitem c (mem_append_left _ hc)
      simp only [quote_, cons_append, append_assoc] at hparts
      rw [← cons_append, ← append_assoc] at hparts
      have hpart := ((ruleParts_cons hcut _).mp hparts).1
      exact absurd hpart (partValue_open hfront hplain)
    · have hcut := comma_not_mem_part hfront hcomma hback
      have htext : front ++ (quote_ item ++ (back ++ comma :: (front' ++ text)) ++ extra) =
          (front ++ (quote_ item ++ back)) ++ comma :: (front' ++ (text ++ extra)) := by simp
      rw [htext, ruleParts_cons hcut] at hparts
      obtain ⟨hpart, hparts⟩ := hparts
      rw [← append_nil back] at hpart
      obtain ⟨htabs, htabs', _⟩ := partValue_string hfront (.inl rfl) hpart
      obtain ⟨htabs'', hstrings, hempty⟩ := ih hfront' hparts
      exact ⟨htabs, .cons ⟨hitem, hcomma⟩ htabs' htabs'' hstrings, hempty⟩

theorem ruleParts_whole (hfront : Tabs front) (h : Strings Tabs Whole items text) :
    ruleParts (front ++ text) = .ok items := by
  induction h generalizing front with
  | one hitem hback =>
    rw [ruleParts_single (comma_not_mem_part hfront.blanks hitem.2 hback.blanks)]
    exact partValue_iff.mpr ⟨_, _, hfront, hback, rfl⟩
  | @cons item back front' text items hitem hback hfront' hrest ih =>
    have htext : front ++ (quote_ item ++ (back ++ comma :: (front' ++ text))) =
        (front ++ (quote_ item ++ back)) ++ comma :: (front' ++ text) := by simp
    rw [htext, ruleParts_cons (comma_not_mem_part hfront.blanks hitem.2 hback.blanks)]
    exact ⟨partValue_iff.mpr ⟨_, _, hfront, hback, rfl⟩, ih hfront'⟩

theorem splitOn_back (hback : comma ∉ back) (content : Bytes) :
    ∃ init last, content.splitOn comma = init ++ [last] ∧
      (content ++ back).splitOn comma = init ++ [last ++ back] := by
  induction content with
  | nil => exact ⟨[], [], by simp, by simp [splitOn_eq_singleton hback]⟩
  | cons c content ih =>
    obtain ⟨init, last, hsplit, hsplit'⟩ := ih
    rw [cons_append, splitOn_cons_eq_if_modifyHead, splitOn_cons_eq_if_modifyHead, hsplit, hsplit']
    split
    · exact ⟨[] :: init, last, by simp, by simp⟩
    · cases init with
      | nil => exact ⟨[], c :: last, by simp, by simp⟩
      | cons first init => exact ⟨(c :: first) :: init, last, by simp, by simp⟩

theorem splitOn_front (hfront : comma ∉ front) (content : Bytes) :
    ∃ first rest, content.splitOn comma = first :: rest ∧
      (front ++ content).splitOn comma = (front ++ first) :: rest := by
  obtain ⟨first, rest, hsplit⟩ := exists_cons_of_ne_nil (splitOn_ne_nil comma content)
  refine ⟨first, rest, hsplit, ?_⟩
  induction front with
  | nil => exact hsplit
  | cons c front ih =>
    rw [mem_cons, not_or] at hfront
    have hc : (c == comma) = false := by simpa using fun heq => hfront.1 heq.symm
    rw [cons_append, splitOn_cons_eq_if_modifyHead, hc, ih hfront.2]
    rfl

theorem ruleParts_front (hfront : Tabs front) (content : Bytes) :
    ruleParts (front ++ content) = ruleParts content := by
  obtain ⟨first, rest, hsplit, hsplit'⟩ :=
    splitOn_front (not_mem_blanks hfront.blanks comma_not_blank) content
  rw [ruleParts, ruleParts, hsplit, hsplit', mapM_cons, mapM_cons, partValue_front hfront]

theorem ruleParts_back (hback : Tabs back) (content : Bytes) :
    ruleParts (content ++ back) = ruleParts content := by
  obtain ⟨init, last, hsplit, hsplit'⟩ :=
    splitOn_back (not_mem_blanks hback.blanks comma_not_blank) content
  rw [ruleParts, ruleParts, hsplit, hsplit', mapM_append, mapM_append, mapM_cons,
    mapM_cons, partValue_back hback]

theorem ruleParts_trim (content : Bytes) :
    ((trimBoth isBlank content).splitOn comma).mapM partValue = ruleParts content := by
  obtain ⟨back, hback, htabs⟩ := Lib.exists_trimEnd isBlank (content.dropWhile isBlank)
  have hfront : Tabs (content.takeWhile isBlank) := fun c hc => mem_takeWhile_imp hc
  have hcontent : content = content.takeWhile isBlank ++ content.dropWhile isBlank :=
    takeWhile_append_dropWhile.symm
  have htrim : ruleParts (content.dropWhile isBlank) = ruleParts (trimBoth isBlank content) := by
    nth_rewrite 1 [hback]
    exact ruleParts_back htabs _
  rw [hcontent, ruleParts_front hfront, htrim, ← hcontent, ruleParts]

theorem idxOf?_middle (h : c ∉ front) (back : Bytes) :
    (front ++ c :: back).idxOf? c = some front.length := by
  induction front with
  | nil => simp [idxOf?, findIdx?_cons]
  | cons d front ih =>
    rw [mem_cons, not_or] at h
    have hd : (d == c) = false := by simpa using fun heq => h.1 heq.symm
    rw [cons_append, idxOf?_cons, hd, ih h.2]
    rfl

theorem lastIndexOf_middle (front : Bytes) (h : c ∉ back) :
    lastIndexOf c (front ++ c :: back) = some front.length := by
  have hreverse : (front ++ c :: back).reverse = back.reverse ++ c :: front.reverse := by simp
  rw [lastIndexOf, hreverse, idxOf?_middle (by simpa using h)]
  simp only [Option.map_some, length_append, length_cons, length_reverse]
  congr 1
  omega

variable {tail : Bytes}

theorem parseRuleArray_eq (h : closeBracket ∉ tail) :
    parseRuleArray (openBracket :: (content ++ closeBracket :: tail)) =
      if (openBracket :: (content ++ closeBracket :: tail)).length < 5 ∨
          startsComment (trimBoth isBlank tail) = false then
        .error .invalidUserGrammarConfiguration
      else ruleParts content := by
  have hindex := lastIndexOf_middle (openBracket :: content) h
  have htake : (openBracket :: (content ++ closeBracket :: tail)).take (content.length + 1) =
      openBracket :: content := by simp
  have hdrop : (openBracket :: (content ++ closeBracket :: tail)).drop (content.length + 1 + 1) =
      tail := by simp
  rw [cons_append, length_cons] at hindex
  rw [parseRuleArray, hindex]
  simp only [htake, hdrop, head?_cons, drop_succ_cons, drop_zero, ruleParts_trim]
  simp

/-- The array of a line, with what stands behind it. -/
structure PlainArray (front text tail : Bytes) (items : List Bytes) : Prop where
  gap : Tabs front
  strings : Strings Tabs Whole items text
  filled : items ≠ [[]]
  close : closeBracket ∉ tail
  comment : startsComment (trimBoth isBlank tail) = true

theorem Strings.length_pos {gap string : Bytes → Prop} (h : Strings gap string items text)
    (hne : items ≠ [[]]) : 3 ≤ text.length := by
  cases h with
  | @one item back _ _ =>
    have hitem : 0 < item.length := by
      rw [length_pos_iff]
      rintro rfl
      exact hne rfl
    simp only [quote_, length_append, length_cons, length_nil]
    omega
  | cons _ _ _ _ =>
    simp only [quote_, length_append, length_cons, length_nil]
    omega

theorem PlainArray.parse {text : Bytes} (h : PlainArray front text tail items) :
    parseRuleArray (openBracket :: (front ++ (text ++ closeBracket :: tail))) = .ok items := by
  have hlength := Strings.length_pos h.strings h.filled
  have hparts := ruleParts_whole h.gap h.strings
  have hlong : ¬((openBracket :: (front ++ text ++ closeBracket :: tail)).length < 5 ∨
      startsComment (trimBoth isBlank tail) = false) := by
    simp only [length_append, length_cons, h.comment]
    simp
    omega
  rw [← append_assoc, parseRuleArray_eq h.close, if_neg hlong, hparts]

theorem plainArray_of_parse {text : Bytes} (hfront : Blanks front)
    (hstrings : Strings Blanks Plain items text) (hfilled : items ≠ [[]])
    (h : parseRuleArray (openBracket :: (front ++ (text ++ closeBracket :: tail))) = .ok items) :
    PlainArray front text tail items := by
  by_cases hclose : closeBracket ∈ tail
  · obtain ⟨rest, extra, hrest, hextra⟩ := eq_append_cons_of_mem (mem_reverse.mpr hclose)
    have htail : tail = extra.reverse ++ closeBracket :: rest.reverse := by
      rw [← reverse_reverse tail, hrest]
      simp
    have htext : front ++ (text ++ closeBracket :: tail) =
        (front ++ (text ++ closeBracket :: extra.reverse)) ++ closeBracket :: rest.reverse := by
      rw [htail]
      simp
    rw [htext, parseRuleArray_eq (by simpa using hextra)] at h
    split at h
    · cases h
    · have hempty := (ruleParts_strings hfront hstrings (.inr rfl) h).2.2
      cases hempty
  · rw [← append_assoc, parseRuleArray_eq hclose] at h
    split at h
    · cases h
    rename_i hgood
    rw [not_or] at hgood
    have hparts : ruleParts (front ++ (text ++ [])) = .ok items := by rw [append_nil, h]
    obtain ⟨htabs, hwhole, _⟩ := ruleParts_strings hfront hstrings (.inl rfl) hparts
    exact ⟨htabs, hwhole, hfilled, hclose, by simpa using hgood.2⟩

theorem parseRuleArray_ne {raw : Bytes} (h : parseRuleArray raw = .ok items) : items ≠ [] := by
  rw [parseRuleArray] at h
  split at h
  · cases h
  split at h
  · cases h
  · rw [ruleParts_trim] at h
    exact ruleParts_ne h

end Bbr.Highlight.GrammarCli
