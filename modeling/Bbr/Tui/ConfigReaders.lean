import Bbr.Highlight.OverrideTables
import Bbr.Tui.ThemeRewrite

/-!
# The readers of one configuration file

The strict parser, the reader of the logging switch and the reader of the overrides of UserGrammars
walk the same text. On what the first accepts the second agrees with it, and the third does on the
files that are written plainly.
-/
namespace Bbr.Tui.Config

open Bbr.Config
open Config.LineParser (Entry)
open Bbr.Diff (ascii)
open Bbr.Highlight (RuleKind)
open Highlight.GrammarCli (StrictEntry StrictEntries StrictHeader StrictTable StrictFile
  IsEntry grammarName ruleKind loadOverrides expected Readable Refused Repeated Excused)
open Tui.Keymap (Vaxis)

variable {vaxis : Vaxis} {n : Nat} {raw key name : Bytes} {s : State} {lines : List Bytes}

theorem ruleKind_of_key (h : key ∈ grammarKeys) : ∃ kind, ruleKind key = some kind := by
  simp only [grammarKeys, List.mem_cons, List.not_mem_nil, or_false] at h
  obtain rfl | rfl | rfl | rfl := h
  · exact ⟨.filename, by decide⟩
  · exact ⟨.compound, by decide⟩
  · exact ⟨.extension, by decide⟩
  · exact ⟨.shebang, by decide⟩

/-- A line of a grammar table that reports nothing gives strings under one of the four keys. -/
theorem strictEntry_of_quiet (hentry : IsEntry raw) (hsection : s.section_ = .userGrammar)
    (hquiet : (readLine vaxis n raw s).diagnostics = []) :
    ∃ kind key items, StrictEntry raw kind key items := by
  obtain ⟨hidle, hheader⟩ := hentry
  have hopen : (LineParser.space { text := raw }).trailing = false := hidle
  have hbracket := of_decide_eq_false hheader
  rw [readLine] at hquiet
  simp only [hopen, hbracket, hsection, Bool.false_eq_true, reduceCtorEq, if_false] at hquiet
  split at hquiet
  · exact absurd hquiet report_ne
  rename_i key parser hkey
  split at hquiet
  · exact absurd hquiet report_ne
  rename_i start htake
  rw [readEntry, if_neg (by simp [hsection]), if_pos hsection, readGrammar] at hquiet
  split at hquiet
  · exact absurd hquiet report_ne
  rename_i hknown
  rw [not_not] at hknown
  obtain ⟨kind, hkind⟩ := ruleKind_of_key hknown
  split at hquiet
  · exact absurd hquiet report_ne
  rename_i values after harray
  simp only at hquiet
  split_ifs at hquiet with htrailing hempty hempty
  · exact absurd hquiet report_ne
  · refine ⟨kind, key, values, hidle, hheader, hkind, hempty, start.space, after, ?_, harray, htrailing⟩
    rw [entryOf, hkey]
    simp [htake]
  · exact absurd hquiet report_ne
  · exact absurd hquiet report_ne

theorem strictHeader_of_quiet (hheader : isHeader raw = true)
    (hquiet : (readHeader n (LineParser.space { text := raw }) s).diagnostics = []) :
    ∃ name, StrictHeader raw name ∧ sectionNamed name ≠ .unknown ∧
      (readHeader n (LineParser.space { text := raw }) s).section_ = sectionNamed name := by
  rw [readHeader] at hquiet ⊢
  cases hsection : (LineParser.space { text := raw }).section_ with
  | error e =>
    simp only [hsection] at hquiet
    exact absurd hquiet report_ne
  | ok result =>
    obtain ⟨name, after⟩ := result
    simp only [hsection] at hquiet ⊢
    by_cases hunknown : sectionNamed name = .unknown
    · rw [if_pos hunknown] at hquiet
      exact absurd hquiet report_ne
    rw [if_neg hunknown] at hquiet ⊢
    by_cases htrailing : after.space.trailing = true
    · exact ⟨name, ⟨hheader, after, hsection, htrailing⟩, hunknown, rfl⟩
    · rw [if_neg htrailing] at hquiet
      exact absurd hquiet report_ne

theorem sectionNamed_grammar (hbegins : (ascii "grammars.").isPrefixOf name = true)
    (hknown : sectionNamed name ≠ .unknown) : sectionNamed name = .userGrammar := by
  have hne : ∀ other : Bytes, (ascii "grammars.").isPrefixOf other = false → name ≠ other := by
    intro other hother heq
    rw [heq, hother] at hbegins
    cases hbegins
  rw [sectionNamed, if_neg (hne _ (by decide)), if_neg (hne _ (by decide)), if_neg (hne _ (by decide)),
    if_neg (hne _ (by decide)), if_neg (hne _ (by decide)), if_neg (hne _ (by decide)),
    if_neg (hne _ (by decide))] at hknown ⊢
  split
  · rfl
  · next hnot =>
    rw [if_neg hnot] at hknown
    exact absurd rfl hknown

theorem readLine_idle (h : isIdle raw = true) : readLine vaxis n raw s = s := by
  rw [isIdle] at h
  simp [readLine, h]

theorem readLine_header (h : isHeader raw = true) :
    readLine vaxis n raw s = readHeader n (LineParser.space { text := raw }) s := by
  have hidle := not_idle_of_header h
  rw [isHeader, decide_eq_true_eq] at h
  rw [isIdle] at hidle
  simp [readLine, h, hidle]

theorem readLine_section (h : IsEntry raw) : (readLine vaxis n raw s).section_ = s.section_ := by
  have hopen : (LineParser.space { text := raw }).trailing = false := h.1
  have hbracket := of_decide_eq_false h.2
  rw [readLine]
  simp only [hopen, hbracket, Bool.false_eq_true, if_false]
  split
  · rfl
  split
  · rfl
  · split
    · rfl
    · exact (readEntry_keeps s).sameTable

theorem strict_of_quiet (h : (readLines vaxis n lines s).diagnostics = []) :
    (s.section_ = .userGrammar → StrictEntries (tablesOf lines).1) ∧
      ∀ table ∈ (tablesOf lines).2, StrictTable table ∧
        (grammarName table.1 ≠ none → StrictEntries table.2) := by
  induction lines generalizing n s with
  | nil => simp [tablesOf, StrictEntries]
  | cons raw lines ih =>
    have hline : (readLine vaxis n raw s).diagnostics = [] := readLines_quiet h
    obtain ⟨hentries, htables⟩ := ih h
    cases hidle : isIdle raw with
    | true =>
      rw [readLine_idle hidle] at hentries
      rw [tablesOf_idle hidle]
      exact ⟨hentries, htables⟩
    | false =>
      cases hheader : isHeader raw with
      | true =>
        rw [readLine_header hheader] at hline hentries
        obtain ⟨name, hstrict, hknown, hsection⟩ := strictHeader_of_quiet hheader hline
        rw [hsection] at hentries
        rw [tablesOf_header hheader]
        refine ⟨fun _ => by simp [StrictEntries], List.forall_mem_cons.mpr ⟨?_, htables⟩⟩
        refine ⟨⟨⟨name, hstrict⟩, (Highlight.GrammarCli.tablesOf_entries lines).1⟩, fun hgrammar => ?_⟩
        have hbegins : (ascii "grammars.").isPrefixOf name = true := by
          rw [grammarName, hstrict.tableName] at hgrammar
          simpa using hgrammar
        exact hentries (sectionNamed_grammar hbegins hknown)
      | false =>
        have hentry : IsEntry raw := ⟨hidle, hheader⟩
        rw [readLine_section hentry] at hentries
        rw [tablesOf_entry hidle hheader]
        refine ⟨fun hsection => List.forall_mem_cons.mpr ⟨?_, hentries hsection⟩, htables⟩
        exact strictEntry_of_quiet hentry hsection hline

variable {source : Bytes} {configuration : Configuration}

theorem strictFile_of_parse (h : parse vaxis source = .ok configuration) : StrictFile source := by
  obtain ⟨s, haccepted⟩ := parse_accepted h
  have hquiet := haccepted.quiet
  rw [← haccepted.lines] at hquiet
  exact (strict_of_quiet hquiet).2

/-- The other readers of a file: the switch is that of the tables, and the overrides are those of
the tables unless a rule is refused or a table is repeated. -/
def ReadersAgree (source : Bytes) : Prop :=
  Logging.parse source = .enabled (loggingValue source) ∧
    (loadOverrides source = .ok (expected source) ∨
      (∃ e, loadOverrides source = .error e) ∧ Excused source)

theorem logging_agrees (h : parse vaxis source = .ok configuration) :
    Logging.parse source = .enabled (loggingValue source) := by
  obtain ⟨s, haccepted⟩ := parse_accepted h
  obtain ⟨value, hvalue⟩ := haccepted.logging
  rw [hvalue, Logging.parse_enabled hvalue]

/-- The readers agree on the files that are read as they are written. A file with a table twice is
an error to the reader of the overrides. -/
theorem readersAgree_iff {source : Bytes} {configuration : Configuration}
    (h : parse vaxis source = .ok configuration) :
    (Repeated source ∨ Readable source → ReadersAgree source) ∧
      (¬Refused source → (ReadersAgree source ↔ Repeated source ∨ Readable source)) := by
  have hstrict := strictFile_of_parse h
  have hlogging := logging_agrees h
  have hagree : Repeated source ∨ Readable source → ReadersAgree source := by
    rintro (hrepeated | hreadable)
    · cases hload : loadOverrides source with
      | ok overrides => exact absurd hrepeated (Highlight.GrammarCli.not_repeated hstrict hload)
      | error e => exact ⟨hlogging, .inr ⟨⟨e, hload⟩, .inr hrepeated⟩⟩
    · exact ⟨hlogging, Highlight.GrammarCli.loadOverrides_readable hstrict hreadable⟩
  refine ⟨hagree, fun hrefused => ⟨fun hreads => ?_, hagree⟩⟩
  cases hreads.2 with
  | inl hload => exact .inr (Highlight.GrammarCli.readable_of_loadOverrides hstrict hload)
  | inr herror => exact .inl (herror.2.resolve_left hrefused)

theorem parse_grammarFile {source : Bytes} (hsize : source.length ≤ 64 * 1024)
    (hlogging : Logging.parse source = .enabled false)
    (hlines : readLines Keymap.terminal 1 (source.splitOn newline) {} = { section_ := .userGrammar }) :
    ∃ configuration, parse Keymap.terminal source = .ok configuration :=
  ⟨State.configuration {} (Keymap.defaultBindings Keymap.terminal), Accepted.parse_ok
    (s := { section_ := .userGrammar }) ⟨hsize, ⟨false, hlogging⟩, hlines, rfl, by decide, by decide,
      Keymap.fromOverrides_terminal, rfl⟩⟩

theorem not_excused {source name extension : Bytes}
    (hexpected : expected source = [⟨name, { extensions := [extension] }⟩])
    (hvalid : Highlight.validateRules { extensions := [extension] } = .ok ()) : ¬Excused source := by
  rw [Excused, Refused, Repeated, hexpected]
  simp [hvalid]

/-- A comment with a bracket behind an array. -/
theorem comment_bracket : ∃ configuration,
    parse Keymap.terminal (ascii "[grammars.zig]\nextensions = [\".zig\"] # see [docs]\n") =
        .ok configuration ∧
      ¬ReadersAgree (ascii "[grammars.zig]\nextensions = [\".zig\"] # see [docs]\n") := by
  obtain ⟨configuration, hparse⟩ :=
    @parse_grammarFile (ascii "[grammars.zig]\nextensions = [\".zig\"] # see [docs]\n")
      (by decide) (by decide) (by rfl)
  refine ⟨configuration, hparse, fun hagree => ?_⟩
  have hexcused := @not_excused (ascii "[grammars.zig]\nextensions = [\".zig\"] # see [docs]\n")
    (ascii "zig") (ascii ".zig") (by rfl) (by rfl)
  cases hagree.2 with
  | inl hload =>
    cases hload
  | inr hload => exact hexcused hload.2

/-- The same file with another comment is readable. -/
theorem readable_plain :
    Readable (ascii "[grammars.zig]\nextensions = [\".zig\"] # see docs\n") := by
  obtain ⟨configuration, hparse⟩ :=
    @parse_grammarFile (ascii "[grammars.zig]\nextensions = [\".zig\"] # see docs\n")
      (by decide) (by decide) (by rfl)
  have hexcused := @not_excused (ascii "[grammars.zig]\nextensions = [\".zig\"] # see docs\n")
    (ascii "zig") (ascii ".zig") (by rfl) (by rfl)
  have hagree := ((readersAgree_iff hparse).2 (not_or.mp hexcused).1).mp ⟨by rfl, .inl (by rfl)⟩
  exact hagree.resolve_left (not_or.mp hexcused).2

end Bbr.Tui.Config
