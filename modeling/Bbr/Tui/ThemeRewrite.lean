import Bbr.Config.LineShapes
import Bbr.Tui.ConfigLines
import Bbr.Tui.KeymapLaws

/-!
# Rewriting the theme

A file is its lines. The rewriting changes the value of the theme key in one of them, or adds a line
in front of the first table or behind the last line.
-/
namespace Bbr.Tui.Config

open Bbr.Config List
open Config.LineParser (Plain quote_ EntryFront Entry)
open Bbr.Diff (ascii)
open Bbr.Lib (Stops)
open Tui.Keymap (Vaxis)

def joinLines (lines : List Bytes) : Bytes := [newline].intercalate lines

theorem joinLines_splitOn (source : Bytes) : joinLines (source.splitOn newline) = source :=
  intercalate_splitOn newline

variable {lines : List Bytes}

@[simp] theorem joinLines_single (line : Bytes) : joinLines [line] = line := by
  simp [joinLines]

@[simp] theorem joinLines_cons (line next : Bytes) (lines : List Bytes) :
    joinLines (line :: next :: lines) = line ++ newline :: joinLines (next :: lines) := by
  simp [joinLines]

theorem splitOn_joinLines (hne : lines ≠ []) (h : ∀ line ∈ lines, newline ∉ line) :
    (joinLines lines).splitOn newline = lines :=
  splitOn_intercalate newline h hne

/-- What a line is for the rewriting. -/
inductive LineKind where
  | table
  | theme (start : Nat) (value : Bytes)
  | other
  deriving DecidableEq, Repr

def lineKind (line : Bytes) : LineKind :=
  if (LineParser.space { text := line }).text.head? = some openBracket then .table
  else match if (LineParser.space { text := line }).trailing then none else themeValue line with
    | some (start, value) => .theme start value
    | none => .other

def themeLine (name : Bytes) : Bytes := ascii "theme = \"" ++ name ++ [quote]

def replaceValue (line : Bytes) (start length : Nat) (name : Bytes) : Bytes :=
  line.take start ++ name ++ line.drop (start + length)

/-- The lines of the rewritten file. -/
def rewriteLines (name : Bytes) : List Bytes → List Bytes
  | [] => [themeLine name, []]
  | line :: lines => match lineKind line with
    | .table => themeLine name :: line :: lines
    | .theme start value => replaceValue line start value.length name :: lines
    | .other => if line = [] ∧ lines = [] then [themeLine name, []] else line :: rewriteLines name lines

theorem rewriteLines_ne (name : Bytes) (lines : List Bytes) : rewriteLines name lines ≠ [] := by
  cases lines with
  | nil => simp [rewriteLines]
  | cons line lines =>
    rw [rewriteLines]
    split
    · simp
    · simp
    · split <;> simp

variable {size lineStart : Nat}

theorem themeSpot_cons {line : Bytes} (h : lineStart < size) :
    themeSpot size lineStart (line :: lines) = match lineKind line with
      | .table => .insert lineStart
      | .theme start value => .value (lineStart + start) value.length
      | .other => themeSpot size (lineStart + line.length + 1) lines := by
  rw [themeSpot, if_neg (Nat.not_le.mpr h), lineKind]
  simp only
  split_ifs
  · rfl
  · rfl
  · cases themeValue line <;> rfl

theorem themeSpot_end (h : size ≤ lineStart) : themeSpot size lineStart lines = .insert size := by
  cases lines with
  | nil => rfl
  | cons line lines => rw [themeSpot, if_pos h]

variable {name front : Bytes}

theorem themeLine_newline (name rest : Bytes) :
    ascii "theme = \"" ++ (name ++ (ascii "\"\n" ++ rest)) = themeLine name ++ newline :: rest := by
  simp [themeLine, ascii, quote, newline]

theorem rewriteAt_insert (front rest : Bytes) (hrest : rest ≠ []) :
    rewriteAt (front ++ rest) name (.insert front.length) =
      front ++ (themeLine name ++ newline :: rest) := by
  have hlength : front.length ≠ (front ++ rest).length := by
    have := length_pos_iff.mpr hrest
    rw [length_append]
    omega
  simp only [rewriteAt, hlength, false_and, if_false, take_left, drop_left,
    append_nil, append_assoc, themeLine_newline]

theorem rewriteAt_end (source : Bytes) : rewriteAt source name (.insert source.length) =
    source ++ ((if source = [] ∨ source.getLast? = some newline then [] else [newline]) ++
      (themeLine name ++ [newline])) := by
  have htheme := themeLine_newline name []
  simp only [rewriteAt, take_length, drop_length, append_nil, append_assoc, true_and]
  congr 2
  by_cases hempty : source = []
  · simp [hempty]
  · have hpos : 0 < source.length := length_pos_iff.mpr hempty
    by_cases hlast : source.getLast? = some newline <;> simp [hempty, hpos, hlast]

variable {line value post : Bytes} {start : Nat}

theorem themeValue_spec (h : themeValue line = some (start, value))
    (hopen : (LineParser.space { text := line }).trailing = false)
    (hentry : (LineParser.space { text := line }).text.head? ≠ some openBracket) :
    ∃ front post, line = front ++ (quote_ value ++ post) ∧ EntryFront front (ascii "theme") ∧
      start = front.length + 1 ∧ Plain value := by
  rw [themeValue] at h
  split at h
  · cases h
  rename_i key parser hkey
  split at h
  · cases h
  rename_i htheme
  simp only [ne_eq, not_not] at htheme
  split at h
  · cases h
  rename_i begin_ htake
  split at h
  · cases h
  rename_i value' after hquoted
  cases h
  obtain ⟨htext, hplain, _⟩ := LineParser.quoted_spec hquoted
  have hline : Entry line key begin_.space := ⟨hopen, hentry, parser, begin_, hkey, htake, rfl⟩
  obtain ⟨front, hfront, hshape, hpos, _⟩ := hline.shape
  exact ⟨front, after.text, by rw [hfront, htext], htheme ▸ hshape, by rw [hpos], hplain⟩

theorem themeLine_entry (h : EntryFront front (ascii "theme")) (value post : Bytes) :
    Entry (front ++ (quote_ value ++ post)) (ascii "theme") ⟨front.length, quote_ value ++ post⟩ :=
  h.reads (LineParser.stops_cons rfl)

theorem lineKind_theme (h : lineKind line = .theme start value) :
    ∃ front post, line = front ++ (quote_ value ++ post) ∧ EntryFront front (ascii "theme") ∧
      start = front.length + 1 ∧ Plain value := by
  rw [lineKind] at h
  split at h
  · cases h
  rename_i hentry
  cases hopen : (LineParser.space { text := line }).trailing with
  | true => simp [hopen] at h
  | false =>
    cases hvalue : themeValue line with
    | none => simp [hopen, hvalue] at h
    | some found =>
      simp only [hopen, hvalue, Bool.false_eq_true, if_false, LineKind.theme.injEq] at h
      obtain ⟨rfl, rfl⟩ := h
      exact themeValue_spec hvalue hopen hentry

theorem lineKind_of_theme (h : EntryFront front (ascii "theme")) (hvalue : Plain value) :
    lineKind (front ++ (quote_ value ++ post)) = .theme (front.length + 1) value := by
  obtain ⟨hopen, hentry, parser, begin_, hkey, htake, hspace⟩ := themeLine_entry h value post
  rw [lineKind, if_neg hentry, hopen, themeValue, hkey]
  simp only [ne_eq, not_true_eq_false, if_false, htake, hspace, LineParser.quoted_eq hvalue,
    Bool.false_eq_true]

theorem replaceValue_eq (name : Bytes) :
    replaceValue (front ++ (quote_ value ++ post)) (front.length + 1) value.length name =
      front ++ (quote_ name ++ post) := by
  have htext : front ++ (quote_ value ++ post) = (front ++ [quote]) ++ (value ++ ([quote] ++ post)) := by
    simp [quote_]
  have hlength : front.length + 1 = (front ++ [quote]).length := by simp
  rw [replaceValue, htext, hlength, take_left, ← drop_drop, drop_left, drop_left]
  simp [quote_]

theorem lineKind_nil : lineKind [] = .other := by decide

theorem rewriteAt_value {tail : Bytes} {length : Nat} (h : start + length ≤ line.length) :
    rewriteAt (front ++ (line ++ tail)) name (.value (front.length + start) length) =
      front ++ (replaceValue line start length name ++ tail) := by
  have hdrop : front.length + start + length = front.length + (start + length) := by omega
  have htake : start ≤ line.length := by omega
  simp only [rewriteAt, replaceValue, hdrop, ← drop_drop, drop_left,
    take_length_add_append, append_assoc]
  rw [take_append_of_le_length htake, drop_drop, drop_append_of_le_length h, drop_drop]

theorem lineKind_theme_le (h : lineKind line = .theme start value) :
    start + value.length ≤ line.length := by
  obtain ⟨front, post, rfl, _, rfl, _⟩ := lineKind_theme h
  simp only [quote_, length_append, length_cons, length_nil]
  omega

theorem rewriteAt_single (hfront : front = [] ∨ front.getLast? = some newline)
    (hline : newline ∉ line) :
    rewriteAt (front ++ line) name (themeSpot (front ++ line).length front.length [line]) =
      front ++ joinLines (rewriteLines name [line]) := by
  by_cases hempty : line = []
  · rw [hempty, append_nil, themeSpot_end (Nat.le_refl _), rewriteAt_end, if_pos hfront,
      rewriteLines, lineKind_nil]
    simp
  have hsize : front.length < (front ++ line).length := by
    have := length_pos_iff.mpr hempty
    rw [length_append]
    omega
  rw [themeSpot_cons hsize, rewriteLines]
  cases hkind : lineKind line with
  | table =>
    simp only
    rw [rewriteAt_insert front line hempty]
    simp
  | theme start value =>
    have hvalue := @rewriteAt_value name front line start [] _ (lineKind_theme_le hkind)
    simpa using hvalue
  | other =>
    simp only
    have hlast : (front ++ line).getLast? ≠ some newline := by
      intro heq
      rw [getLast?_append_of_ne_nil _ hempty] at heq
      exact hline (mem_of_getLast? heq)
    have hend : ¬(front ++ line = [] ∨ (front ++ line).getLast? = some newline) := by
      rw [not_or]
      exact ⟨by simp [hempty], hlast⟩
    rw [themeSpot, rewriteAt_end, if_neg hend, if_neg (by simp [hempty])]
    simp [rewriteLines]

theorem rewriteAt_lines {lines : List Bytes} (hfront : front = [] ∨ front.getLast? = some newline)
    (hne : lines ≠ []) (h : ∀ line ∈ lines, newline ∉ line) :
    rewriteAt (front ++ joinLines lines) name
      (themeSpot (front ++ joinLines lines).length front.length lines) =
      front ++ joinLines (rewriteLines name lines) := by
  induction lines generalizing front with
  | nil => exact absurd rfl hne
  | cons line lines ih =>
    cases lines with
    | nil =>
      rw [joinLines_single]
      exact rewriteAt_single hfront (h line mem_cons_self)
    | cons next lines =>
      have hsize : front.length < (front ++ joinLines (line :: next :: lines)).length := by
        rw [joinLines_cons, length_append, length_append, length_cons]
        omega
      rw [themeSpot_cons hsize, rewriteLines, joinLines_cons]
      cases hkind : lineKind line with
      | table =>
        simp only
        rw [rewriteAt_insert front _ (by simp)]
        simp
      | theme start value =>
        simp only
        rw [rewriteAt_value (lineKind_theme_le hkind)]
        simp
      | other =>
        simp only
        have hnext := @ih (front ++ (line ++ [newline])) (by simp) (by simp)
          (fun line hmem => h line (mem_cons_of_mem _ hmem))
        have htext : front ++ (line ++ newline :: joinLines (next :: lines)) =
            front ++ (line ++ [newline]) ++ joinLines (next :: lines) := by simp
        have hlength : front.length + line.length + 1 = (front ++ (line ++ [newline])).length := by
          simp
          omega
        rw [if_neg (by simp), htext, hlength, hnext]
        cases hlines : rewriteLines name (next :: lines) with
        | nil => exact absurd hlines (rewriteLines_ne _ _)
        | cons first rest => simp

theorem rewriteTheme_eq (source name : Bytes) :
    rewriteTheme source name = joinLines (rewriteLines name (source.splitOn newline)) := by
  have hlines := LineParser.newline_not_mem_splitOn source
  have hne : source.splitOn newline ≠ [] := splitOn_ne_nil _ _
  have hrewrite := @rewriteAt_lines name [] (source.splitOn newline) (.inl rfl) hne hlines
  rw [joinLines_splitOn] at hrewrite
  exact hrewrite

/-! ## What the parser makes of the lines -/

variable {vaxis : Vaxis} {n n' : Nat} {s t : State} {id : ThemeId} {lines : List Bytes}

theorem readLine_theme (h : EntryFront front (ascii "theme")) (hvalue : Plain value)
    (hroot : s.section_ = .root) : ∃ after : LineParser, after.text = post ∧
      readLine vaxis n (front ++ (quote_ value ++ post)) s =
        if after.space.trailing then assignRoot n (ascii "theme") value s
        else s.report n after.space.column "unexpected text after value" := by
  obtain ⟨hopen, hentry, parser, begin_, hkey, htake, hspace⟩ := themeLine_entry h value post
  refine ⟨⟨front.length + (quote_ value).length, post⟩, rfl, ?_⟩
  rw [readLine]
  simp only [hopen, Bool.false_eq_true, if_false, hentry, hroot, reduceCtorEq, hkey, htake, hspace]
  rw [readEntry]
  simp only [hroot, reduceCtorEq, if_false, readValue, LineParser.quoted_eq hvalue,
    Except.mapError, assign]
  split <;> simp_all

theorem trailing_space_congr {a b : LineParser} (h : a.text = b.text) :
    a.space.trailing = b.space.trailing := by
  simp only [LineParser.trailing, LineParser.space, LineParser.skip, LineParser.advance_text, h]

/-- The theme of an accepted line is a theme, and another one can stand in its place. -/
theorem readLine_retheme (h : EntryFront front (ascii "theme")) (hvalue : Plain value)
    (hname : Plain name) (hid : ThemeId.fromName name = some id) (hroot : s.section_ = .root)
    (hseen : s.themeSeen = false)
    (hquiet : (readLine vaxis n (front ++ (quote_ value ++ post)) s).diagnostics = []) :
    ∃ theme, ThemeId.fromName value = some theme ∧
      readLine vaxis n (front ++ (quote_ value ++ post)) s =
        { s with theme := theme, themeSeen := true } ∧
      readLine vaxis n' (front ++ (quote_ name ++ post)) s =
        { s with theme := id, themeSeen := true } := by
  obtain ⟨after, hafter, hread⟩ := @readLine_theme front value post vaxis n s h hvalue hroot
  obtain ⟨after', hafter', hread'⟩ := @readLine_theme front name post vaxis n' s h hname hroot
  rw [hread] at hquiet
  rw [hread, hread', trailing_space_congr (hafter'.trans hafter.symm)]
  split at hquiet
  · next htrailing =>
    rw [if_pos htrailing, if_pos htrailing]
    cases htheme : ThemeId.fromName value with
    | none => simp [assignRoot, hseen, htheme, State.report] at hquiet
    | some theme => exact ⟨theme, rfl, by simp [assignRoot, hseen, htheme],
        by simp [assignRoot, hseen, hid]⟩
  · exact absurd hquiet report_ne

theorem entryFront_themeLine : EntryFront (ascii "theme = ") (ascii "theme") :=
  ⟨[], ascii "theme", [0x20], [0x20], by simp [LineParser.Blanks],
    .bare (by decide) (by decide +kernel), by simp [LineParser.Blanks]; decide,
    by simp [LineParser.Blanks]; decide, by decide⟩

theorem themeLine_eq (name : Bytes) : themeLine name = ascii "theme = " ++ (quote_ name ++ []) := by
  simp [themeLine, quote_, ascii, quote]

theorem readLine_themeLine (hname : Plain name) (hid : ThemeId.fromName name = some id)
    (hroot : s.section_ = .root) (hseen : s.themeSeen = false) :
    readLine vaxis n (themeLine name) s = { s with theme := id, themeSeen := true } := by
  obtain ⟨after, hafter, hread⟩ :=
    @readLine_theme (ascii "theme = ") name [] vaxis n s entryFront_themeLine hname hroot
  have htrailing : after.space.trailing = true := by
    simp [LineParser.trailing, LineParser.space, LineParser.skip, hafter]
  rw [themeLine_eq, hread, if_pos htrailing]
  simp [assignRoot, hseen, hid]

theorem readLine_nil : readLine vaxis n [] s = s := rfl

theorem trailing_of_table {parser : LineParser} (h : parser.text.head? = some openBracket) :
    parser.trailing = false := by
  obtain ⟨rest, hrest⟩ := head?_eq_some_iff.mp h
  rw [LineParser.trailing, hrest]
  rfl

theorem readLine_table (h : lineKind line = .table) (s : State) :
    readLine vaxis n line s = readHeader n (LineParser.space { text := line }) s := by
  have htable : (LineParser.space { text := line }).text.head? = some openBracket := by
    rw [lineKind] at h
    split at h
    · assumption
    · split at h <;> cases h
  rw [readLine]
  simp only [trailing_of_table htable, Bool.false_eq_true, if_false, htable, if_true]

/-- In front of all tables a line that reports nothing sets the theme or does nothing. -/
theorem readLine_other (h : lineKind line = .other) (hroot : s.section_ = .root)
    (hquiet : (readLine vaxis n line s).diagnostics = []) : readLine vaxis n' line s = s := by
  rw [lineKind] at h
  rw [readLine] at hquiet ⊢
  simp only [hroot, reduceCtorEq, if_false] at hquiet ⊢
  split_ifs at h hquiet ⊢ with htable hopen
  · rfl
  split at hquiet
  · exact absurd hquiet report_ne
  rename_i key parser hkey
  split at hquiet
  · exact absurd hquiet report_ne
  rename_i begin_ htake
  simp only [readEntry, hroot, reduceCtorEq, if_false, readValue] at hquiet
  cases hquoted : begin_.space.quoted with
  | error e =>
    simp only [hquoted, Except.mapError] at hquiet
    exact absurd hquiet report_ne
  | ok result =>
    simp only [hquoted, Except.mapError, assign, hroot] at hquiet
    split at hquiet
    · exact absurd hquiet report_ne
    rw [assignRoot] at hquiet
    split at hquiet
    · next htheme => simp [themeValue, hkey, htheme, htake, hquoted] at h
    · exact absurd hquiet report_ne

theorem lineKind_themeLine (hname : Plain name) :
    lineKind (themeLine name) = .theme ((ascii "theme = ").length + 1) name := by
  rw [themeLine_eq]
  exact lineKind_of_theme entryFront_themeLine hname

theorem moved_theme (s : State) (theme id : ThemeId) :
    Moved id { s with theme := theme, themeSeen := true }
      { s with theme := id, themeSeen := true } := ⟨_, _, _, rfl⟩

/-- The rewritten lines come to the same settings with the other theme. -/
theorem readLines_rewrite (hname : Plain name) (hid : ThemeId.fromName name = some id)
    (hroot : s.section_ = .root) (hseen : s.themeSeen = false)
    (hquiet : (readLines vaxis n lines s).diagnostics = []) :
    Moved id (readLines vaxis n lines s) (readLines vaxis n' (rewriteLines name lines) s) := by
  have hline : ∀ n, readLine vaxis n (themeLine name) s = { s with theme := id, themeSeen := true } :=
    fun n => readLine_themeLine hname hid hroot hseen
  induction lines generalizing n n' with
  | nil =>
    simp only [rewriteLines, readLines, hline, readLine_nil]
    exact ⟨_, _, _, rfl⟩
  | cons line lines ih =>
    have hquiet' : (readLine vaxis n line s).diagnostics = [] := readLines_quiet hquiet
    rw [rewriteLines]
    cases hkind : lineKind line with
    | table =>
      simp only [readLines, hline, readLine_table hkind] at hquiet hquiet' ⊢
      have hmoved : Moved id s { s with theme := id, themeSeen := true } := ⟨_, _, _, rfl⟩
      exact readLines_moved (readHeader_moved hmoved hquiet') hquiet (.inr (readHeader_keeps s).2.1)
    | theme start value =>
      obtain ⟨front, post, rfl, hfront, rfl, hvalue⟩ := lineKind_theme hkind
      obtain ⟨theme, _, hread, hread'⟩ :=
        @readLine_retheme name front value post vaxis n n' s id hfront hvalue hname hid hroot hseen hquiet'
      simp only [readLines, replaceValue_eq, hread, hread'] at hquiet ⊢
      exact readLines_moved (moved_theme s theme id) hquiet (.inl rfl)
    | other =>
      have hread := @readLine_other line vaxis n n s hkind hroot hquiet'
      have hread' := @readLine_other line vaxis n n' s hkind hroot hquiet'
      simp only [readLines, hread] at hquiet ⊢
      split
      · next hempty =>
        rw [hempty.2]
        simp only [readLines, hline, readLine_nil]
        exact ⟨_, _, _, rfl⟩
      · rw [readLines, hread']
        exact ih hquiet

variable {state : Logging.State}

theorem logging_skip (h : lineKind line ≠ .table)
    (hout : state.inLogging = false) : Logging.readLine line state = some state := by
  rw [lineKind] at h
  split at h
  · exact absurd rfl h
  · next htable => simp [Logging.readLine, htable, hout]

theorem logging_lines {value : Bool} (h : Logging.readLines n lines state = .enabled value) :
    Logging.readLines n' lines state = .enabled value := by
  induction lines generalizing n n' state with
  | nil => exact h
  | cons line lines ih =>
    rw [Logging.readLines] at h ⊢
    split at h
    · cases h
    · exact ih h

theorem logging_rewrite {value : Bool} (hname : Plain name)
    (hout : state.inLogging = false) (h : Logging.readLines n lines state = .enabled value) :
    Logging.readLines n' (rewriteLines name lines) state = .enabled value := by
  have hline : Logging.readLine (themeLine name) state = some state :=
    logging_skip (by simp [lineKind_themeLine hname]) hout
  have hnil : Logging.readLine [] state = some state := rfl
  induction lines generalizing n n' with
  | nil => simpa [rewriteLines, Logging.readLines, hline, hnil] using h
  | cons line lines ih =>
    rw [rewriteLines]
    cases hkind : lineKind line with
    | table =>
      rw [Logging.readLines, hline]
      exact logging_lines h
    | theme start old =>
      have hskip : Logging.readLine line state = some state := logging_skip (by simp [hkind]) hout
      obtain ⟨front, post, rfl, hfront, rfl, _⟩ := lineKind_theme hkind
      have hnew : Logging.readLine (front ++ (quote_ name ++ post)) state = some state :=
        logging_skip (by simp [lineKind_of_theme hfront hname]) hout
      simp only [replaceValue_eq, Logging.readLines, hnew]
      rw [Logging.readLines, hskip] at h
      exact logging_lines h
    | other =>
      have hskip : Logging.readLine line state = some state := logging_skip (by simp [hkind]) hout
      rw [Logging.readLines, hskip] at h
      simp only at h ⊢
      split
      · next hempty =>
        rw [hempty.2] at h
        simpa [Logging.readLines, hline, hnil] using h
      · rw [Logging.readLines, hskip]
        exact ih h

/-! ## The whole file -/

theorem limits_quiet (h : s.limits.diagnostics = []) : s.limits = s ∧ s.diagnostics = [] ∧
    s.mouseVerticalScrollRows ≠ 0 ∧ s.externalEditMaxBytes ≠ 0 := by
  rw [State.limits] at h ⊢
  split_ifs at h ⊢ with hmouse hedit hedit
  · exact absurd h report_ne
  · exact absurd h report_ne
  · exact absurd h report_ne
  · exact ⟨rfl, h, hmouse, hedit⟩

theorem limits_eq (hmouse : s.mouseVerticalScrollRows ≠ 0) (hedit : s.externalEditMaxBytes ≠ 0) :
    s.limits = s := by
  simp [State.limits, hmouse, hedit]

/-- The settings that the lines of an accepted file have made. -/
structure Accepted (vaxis : Vaxis) (source : Bytes) (configuration : Configuration) (s : State) :
    Prop where
  size : source.length ≤ 64 * 1024
  logging : ∃ value, Logging.parse source = .enabled value
  lines : readLines vaxis 1 (source.splitOn newline) {} = s
  quiet : s.diagnostics = []
  mouse : s.mouseVerticalScrollRows ≠ 0
  edit : s.externalEditMaxBytes ≠ 0
  keymap : Keymap.fromOverrides vaxis s.overrides = .ok configuration.keymap
  settings : configuration = s.configuration configuration.keymap

variable {configuration : Configuration} {source : Bytes}

theorem Accepted.parse_ok (h : Accepted vaxis source configuration s) :
    parse vaxis source = .ok configuration := by
  obtain ⟨value, hvalue⟩ := h.logging
  have hstart : State.start source = {} := by rw [State.start, hvalue]
  rw [parse, if_neg (Nat.not_lt.mpr h.size), hstart, h.lines, limits_eq h.mouse h.edit,
    State.finish, h.keymap]
  simp only [h.quiet, ne_eq, not_true_eq_false, if_false]
  rw [← h.settings]

theorem parse_accepted (h : parse vaxis source = .ok configuration) :
    ∃ s, Accepted vaxis source configuration s := by
  rw [parse] at h
  split at h
  · cases h
  rename_i hsize
  rw [State.finish] at h
  split at h
  · cases h
  rename_i keymap hkeymap
  split at h
  · cases h
  rename_i hquiet
  simp only [ne_eq, not_not] at hquiet
  obtain ⟨heq, hlines, hmouse, hedit⟩ := limits_quiet hquiet
  cases h
  rw [heq] at hkeymap ⊢
  have hstart := readLines_quiet hlines
  cases hlogging : Logging.parse source with
  | invalid line =>
    rw [State.start, hlogging] at hstart
    exact absurd hstart report_ne
  | enabled value =>
    have hempty : State.start source = {} := by rw [State.start, hlogging]
    rw [hempty] at hlines hmouse hedit hkeymap ⊢
    exact ⟨_, Nat.not_lt.mp hsize, ⟨value, hlogging⟩, rfl, hlines, hmouse, hedit, hkeymap, rfl⟩

theorem Accepted.moved {source' : Bytes} (h : Accepted vaxis source configuration s)
    (hmoved : Moved id s t) (hsize : source'.length ≤ 64 * 1024)
    (hlogging : ∃ value, Logging.parse source' = .enabled value)
    (hlines : readLines vaxis 1 (source'.splitOn newline) {} = t) :
    Accepted vaxis source' { configuration with theme := id } t := by
  obtain ⟨overrideLines, mouse, edit, rfl⟩ := hmoved
  refine ⟨hsize, hlogging, hlines, h.quiet, h.mouse, h.edit, h.keymap, ?_⟩
  rw [h.settings]
  rfl

theorem name_plain (id : ThemeId) : Plain id.name ∧ newline ∉ id.name := by
  cases id <;> exact ⟨by simp only [Plain]; decide +kernel, by decide⟩

theorem rewriteLines_newline (hname : newline ∉ name) (h : ∀ line ∈ lines, newline ∉ line) :
    ∀ line ∈ rewriteLines name lines, newline ∉ line := by
  have htheme : newline ∉ themeLine name := by
    simp only [themeLine, mem_append, not_or]
    exact ⟨⟨by decide, hname⟩, by decide⟩
  induction lines with
  | nil => simpa [rewriteLines] using htheme
  | cons first lines ih =>
    have hfirst := h first mem_cons_self
    have hlines : ∀ line ∈ lines, newline ∉ line := fun line hmem => h line (mem_cons_of_mem _ hmem)
    rw [rewriteLines]
    split
    · simpa using ⟨htheme, hfirst, hlines⟩
    · next start value _ =>
      have hvalue : newline ∉ replaceValue first start value.length name := by
        simp only [replaceValue, mem_append, not_or]
        exact ⟨⟨fun hmem => hfirst (mem_of_mem_take hmem), hname⟩,
          fun hmem => hfirst (mem_of_mem_drop hmem)⟩
      simpa using ⟨hvalue, hlines⟩
    · split
      · simpa using htheme
      · simpa using ⟨hfirst, ih hlines⟩

theorem rewriteTheme_splitOn (source : Bytes) (hname : newline ∉ name) :
    (rewriteTheme source name).splitOn newline = rewriteLines name (source.splitOn newline) := by
  rw [rewriteTheme_eq]
  exact splitOn_joinLines (rewriteLines_ne _ _)
    (rewriteLines_newline hname (LineParser.newline_not_mem_splitOn source))

theorem rewriteLines_again (hname : Plain name) (next : Bytes) (lines : List Bytes) :
    rewriteLines next (rewriteLines name lines) = rewriteLines next lines := by
  have htheme : ∀ rest, rewriteLines next (themeLine name :: rest) = themeLine next :: rest := by
    intro rest
    have hreplace := @replaceValue_eq (ascii "theme = ") name [] next
    rw [← themeLine_eq, ← themeLine_eq] at hreplace
    rw [rewriteLines, lineKind_themeLine hname]
    exact congrArg (fun line => line :: rest) hreplace
  induction lines with
  | nil => exact htheme [[]]
  | cons line lines ih =>
    cases hkind : lineKind line with
    | table =>
      have hline : ∀ name, rewriteLines name (line :: lines) = themeLine name :: line :: lines := by
        intro name
        rw [rewriteLines, hkind]
      rw [hline, hline]
      exact htheme _
    | theme start value =>
      obtain ⟨front, post, rfl, hfront, rfl, _⟩ := lineKind_theme hkind
      have hline : ∀ name, rewriteLines name ((front ++ (quote_ value ++ post)) :: lines) =
          (front ++ (quote_ name ++ post)) :: lines := by
        intro name
        rw [rewriteLines, hkind]
        simp only [replaceValue_eq]
      rw [hline, hline, rewriteLines, lineKind_of_theme hfront hname]
      simp only [replaceValue_eq]
    | other =>
      by_cases hempty : line = [] ∧ lines = []
      · rw [rewriteLines, rewriteLines, hkind]
        simp only [if_pos hempty]
        exact htheme [[]]
      · have hne : ¬(line = [] ∧ rewriteLines name lines = []) :=
          fun h => rewriteLines_ne name lines h.2
        rw [rewriteLines, hkind]
        simp only [if_neg hempty]
        rw [rewriteLines, rewriteLines, hkind]
        simp only [if_neg hne, if_neg hempty, ih]

/-! ## What the rewriting leaves as it is -/

/-- The bytes of the rewritten file: one value is replaced, or a line is added in front of the first
table, or it is added at the end and the last line is ended. -/
inductive Rewritten (name : Bytes) (theme : ThemeId) : Bytes → Bytes → Prop where
  | value (before rest : List Bytes) (front value post : Bytes)
      (hbefore : ∀ line ∈ before, lineKind line = .other)
      (hfront : EntryFront front (ascii "theme")) (hvalue : ThemeId.fromName value = some theme) :
      Rewritten name theme (joinLines (before ++ (front ++ (quote_ value ++ post)) :: rest))
        (joinLines (before ++ (front ++ (quote_ name ++ post)) :: rest))
  | line (before rest : List Bytes) (table : Bytes)
      (hbefore : ∀ line ∈ before, lineKind line = .other) (htable : lineKind table = .table) :
      Rewritten name theme (joinLines (before ++ table :: rest))
        (joinLines (before ++ themeLine name :: table :: rest))
  | last (source : Bytes) (h : ∀ line ∈ source.splitOn newline, lineKind line = .other) :
      Rewritten name theme source (source ++
        ((if source = [] ∨ source.getLast? = some newline then [] else [newline]) ++
          (themeLine name ++ [newline])))

variable {before rest : List Bytes}

theorem rewriteLines_front (hbefore : ∀ line ∈ before, lineKind line = .other) (hrest : rest ≠ []) :
    rewriteLines name (before ++ rest) = before ++ rewriteLines name rest := by
  induction before with
  | nil => rfl
  | cons line before ih =>
    have hne : ¬(line = [] ∧ before ++ rest = []) := by simp [hrest]
    rw [cons_append, rewriteLines, hbefore line mem_cons_self]
    simp only [if_neg hne]
    rw [ih (fun line hmem => hbefore line (mem_cons_of_mem _ hmem)), cons_append]

theorem exists_first (lines : List Bytes) : (∀ line ∈ lines, lineKind line = .other) ∨
    ∃ before line rest, lines = before ++ line :: rest ∧
      (∀ line ∈ before, lineKind line = .other) ∧ lineKind line ≠ .other := by
  induction lines with
  | nil => simp
  | cons line lines ih =>
    by_cases hline : lineKind line = .other
    · cases ih with
      | inl hall => exact .inl (by simpa using ⟨hline, hall⟩)
      | inr hfirst =>
        obtain ⟨before, first, rest, rfl, hbefore, hfirst⟩ := hfirst
        exact .inr ⟨line :: before, first, rest, rfl, by simpa using ⟨hline, hbefore⟩, hfirst⟩
    · exact .inr ⟨[], line, lines, rfl, by simp, hline⟩

theorem themeSpot_other (h : ∀ line ∈ lines, lineKind line = .other) :
    themeSpot size lineStart lines = .insert size := by
  induction lines generalizing lineStart with
  | nil => rfl
  | cons line lines ih =>
    by_cases hsize : size ≤ lineStart
    · exact themeSpot_end hsize
    · rw [themeSpot_cons (Nat.not_le.mp hsize), h line mem_cons_self]
      exact ih (fun line hmem => h line (mem_cons_of_mem _ hmem))

theorem readLines_before (hbefore : ∀ line ∈ before, lineKind line = .other)
    (hroot : s.section_ = .root)
    (hquiet : (readLines vaxis n (before ++ rest) s).diagnostics = []) :
    readLines vaxis n (before ++ rest) s = readLines vaxis (n + before.length) rest s := by
  induction before generalizing n with
  | nil => rfl
  | cons line before ih =>
    have hline := @readLine_other line vaxis n n s (hbefore line mem_cons_self) hroot
      (readLines_quiet hquiet)
    simp only [cons_append, readLines, hline] at hquiet ⊢
    rw [ih (fun line hmem => hbefore line (mem_cons_of_mem _ hmem)) hquiet, length_cons]
    congr 1
    omega

theorem readLines_theme (h : (readLines vaxis n lines s).diagnostics = []) (hseen : s.themeSeen = true) :
    (readLines vaxis n lines s).theme = s.theme := by
  have hself : Moved s.theme s s := ⟨_, _, _, by rw [← hseen]⟩
  have hmoved : Moved s.theme (readLines vaxis n lines s) (readLines vaxis n lines s) :=
    readLines_moved hself h (.inl hseen)
  obtain ⟨_, _, _, heq⟩ := hmoved
  have htheme := congrArg State.theme heq
  exact htheme

theorem rewritten_of_accepted (h : Accepted vaxis source configuration s) (hname : Plain name)
    (hid : ThemeId.fromName name = some id) :
    Rewritten name configuration.theme source (rewriteTheme source name) := by
  cases exists_first (source.splitOn newline) with
  | inl hall =>
    rw [rewriteTheme, themeSpot_other hall, rewriteAt_end]
    exact .last source hall
  | inr hfirst =>
    obtain ⟨before, line, rest, hlines, hbefore, hline⟩ := hfirst
    have hsource := joinLines_splitOn source
    have hrun := h.lines
    rw [hlines] at hsource hrun
    have hquiet := h.quiet
    rw [rewriteTheme_eq, hlines, rewriteLines_front hbefore (by simp), rewriteLines]
    cases hkind : lineKind line with
    | other => exact absurd hkind hline
    | table =>
      rw [← hsource]
      exact .line before rest line hbefore hkind
    | theme start value =>
      obtain ⟨front, post, rfl, hfront, rfl, hvalue⟩ := lineKind_theme hkind
      rw [← hrun] at hquiet
      have hskip := readLines_before hbefore rfl hquiet
      rw [hskip, readLines] at hquiet hrun
      obtain ⟨theme, htheme, hread, _⟩ := @readLine_retheme name front value post vaxis
        (1 + before.length) 0 {} id hfront hvalue hname hid rfl rfl (readLines_quiet hquiet)
      have hfinal : s.theme = theme := by
        rw [hread] at hquiet hrun
        rw [← hrun]
        exact readLines_theme hquiet rfl
      have hconfiguration : configuration.theme = theme := by
        rw [h.settings]
        exact hfinal
      simp only [replaceValue_eq]
      rw [← hsource, hconfiguration]
      exact .value before rest front value post hbefore hfront htheme

/-- Saving a theme changes nothing else in the configuration. -/
theorem rewriteTheme_frame {source : Bytes} {configuration : Configuration} (id : ThemeId)
    (h : parse vaxis source = .ok configuration)
    (hsize : (rewriteTheme source id.name).length ≤ 64 * 1024) :
    parse vaxis (rewriteTheme source id.name) = .ok { configuration with theme := id } ∧
      Rewritten id.name configuration.theme source (rewriteTheme source id.name) ∧
      rewriteTheme (rewriteTheme source id.name) id.name = rewriteTheme source id.name := by
  obtain ⟨s, haccepted⟩ := parse_accepted h
  obtain ⟨hname, hnewline⟩ := name_plain id
  have hid := ThemeId.fromName_name id
  refine ⟨?_, rewritten_of_accepted haccepted hname hid, ?_⟩
  · have hquiet := haccepted.quiet
    rw [← haccepted.lines] at hquiet
    have hmoved := @readLines_rewrite id.name vaxis 1 1 {} id (source.splitOn newline) hname hid rfl rfl hquiet
    rw [haccepted.lines, ← rewriteTheme_splitOn source hnewline] at hmoved
    obtain ⟨value, hvalue⟩ := haccepted.logging
    have hlogging : Logging.parse (rewriteTheme source id.name) = .enabled value := by
      have hold : ¬maxBytes < source.length := Nat.not_lt.mpr haccepted.size
      have hnew : ¬maxBytes < (rewriteTheme source id.name).length := Nat.not_lt.mpr hsize
      rw [Logging.parse, if_neg hold] at hvalue
      rw [Logging.parse, if_neg hnew, rewriteTheme_splitOn source hnewline]
      exact logging_rewrite hname rfl hvalue
    exact (haccepted.moved hmoved hsize ⟨value, hlogging⟩ rfl).parse_ok
  · rw [rewriteTheme_eq (rewriteTheme source id.name), rewriteTheme_splitOn source hnewline,
      rewriteLines_again hname, ← rewriteTheme_eq]

theorem rewriteTheme_light :
    ∃ configuration, parse Keymap.terminal (ascii "theme = \"dark\" # keep\n[comments]\n") =
        .ok configuration ∧
      parse Keymap.terminal (rewriteTheme (ascii "theme = \"dark\" # keep\n[comments]\n")
        ThemeId.light.name) = .ok { configuration with theme := .light } := by
  have hparse : parse Keymap.terminal (ascii "theme = \"dark\" # keep\n[comments]\n") =
      .ok (State.configuration { theme := .dark } (Keymap.defaultBindings Keymap.terminal)) := by
    refine Accepted.parse_ok (s := { theme := .dark, themeSeen := true, section_ := .comments })
      ⟨by decide, ⟨false, by decide⟩, by rfl, rfl, by decide, by decide,
        Keymap.fromOverrides_terminal, rfl⟩
  exact ⟨_, hparse, (rewriteTheme_frame .light hparse (by decide)).1⟩

/-- Of several saves only the last one is left in the file. -/
theorem rewriteTheme_last (source : Bytes) (saves : List ThemeId) (id : ThemeId) :
    rewriteTheme (saves.foldl (fun source id => rewriteTheme source id.name) source) id.name =
      rewriteTheme source id.name := by
  induction saves generalizing source with
  | nil => rfl
  | cons first saves ih =>
    obtain ⟨hname, hnewline⟩ := name_plain first
    rw [foldl_cons, ih, rewriteTheme_eq (rewriteTheme source first.name),
      rewriteTheme_splitOn source hnewline, rewriteLines_again hname, ← rewriteTheme_eq]

end Bbr.Tui.Config
