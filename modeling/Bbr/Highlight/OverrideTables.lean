import Bbr.Highlight.RuleLines
import Bbr.Highlight.RuleNames

/-!
# Overrides, table by table

The reader of the overrides goes from table to table. It reads what the tables say if and only if
their lines are plain and no key is repeated in a table.
-/
namespace Bbr.Highlight.GrammarCli

open Bbr.Config List
open Config.LineParser (isSpace)
open Bbr.Diff (ascii)
open Bbr.Lib (trimBoth mapM_cons_iff mapM_length mapM_map_iff)

/-- The key of an entry and the strings that the strict parser reads from its array. -/
def entryStrings (raw : Bytes) : Option (Bytes × List Bytes) :=
  match entryOf raw with
  | none => none
  | some (key, value) => match value.stringArray with
    | .error _ => none
    | .ok (items, _) => some (key, items)

/-- The name of the grammar of a table. -/
def grammarName (header : Bytes) : Option Bytes :=
  if (ascii "grammars.").isPrefixOf (tableName header) then some ((tableName header).drop 9) else none

def grammarTables (tables : List (Bytes × List Bytes)) : List (Bytes × List Bytes) :=
  tables.filterMap (fun table => (grammarName table.1).map (fun name => (name, table.2)))

def stringsOf (entries : List Bytes) (key : Bytes) : List Bytes :=
  match (entries.filterMap entryStrings).find? (fun entry => entry.1 == key) with
  | none => []
  | some entry => entry.2

def expectedRules (entries : List Bytes) : GrammarMatches where
  filenames := stringsOf entries (ascii "filenames")
  compoundSuffixes := stringsOf entries (ascii "compound_suffixes")
  extensions := stringsOf entries (ascii "extensions")
  shebangs := stringsOf entries (ascii "shebangs")

/-- The overrides that the tables of a file say. -/
def expected (source : Bytes) : List MatchOverride :=
  (grammarTables (tablesOf (source.splitOn newline)).2).map (fun table =>
    ⟨table.1, expectedRules table.2⟩)

def keyOf : RuleKind → Bytes
  | .filename => ascii "filenames"
  | .compound => ascii "compound_suffixes"
  | .extension => ascii "extensions"
  | .shebang => ascii "shebangs"

theorem rulesOf_expected (entries : List Bytes) (kind : RuleKind) :
    rulesOf (expectedRules entries) kind = stringsOf entries (keyOf kind) := by
  cases kind <;> rfl

theorem keyOf_eq {key : Bytes} {kind : RuleKind} (h : ruleKind key = some kind) : keyOf kind = key := by
  unfold ruleKind at h
  split_ifs at h with h1 h2 h3 h4
  · cases h
    exact h1.symm
  · cases h
    exact h2.symm
  · cases h
    exact h3.symm
  · cases h
    exact h4.symm

/-! ## One table -/

def addLine (rules : GrammarMatches) (raw : Bytes) : Except OverrideError GrammarMatches := do
  let (kind, values) ← ruleLine (trimBoth isSpace raw)
  addRule rules kind values

/-- The entries of a grammar table, as the strict parser takes them. -/
def StrictEntries (entries : List Bytes) : Prop :=
  ∀ raw ∈ entries, ∃ kind key items, StrictEntry raw kind key items

def DistinctKeys (entries : List Bytes) : Prop :=
  entries.Pairwise (fun a b => (entryStrings a).map Prod.fst ≠ (entryStrings b).map Prod.fst)

variable {entries : List Bytes} {rules result : GrammarMatches} {raw key : Bytes}
  {items : List Bytes} {kind : RuleKind}

theorem StrictEntry.strings (h : StrictEntry raw kind key items) :
    entryStrings raw = some (key, items) := by
  obtain ⟨value, after, hentry, harray, _⟩ := h.reads
  rw [entryStrings, hentry]
  simp [harray]

theorem addLine_ok (h : addLine rules raw = .ok result) :
    ∃ kind values, ruleLine (trimBoth isSpace raw) = .ok (kind, values) ∧ rulesOf rules kind = [] ∧
      result = setRules rules kind values := by
  obtain ⟨⟨kind, values⟩, hline, h⟩ := Lib.bind_ok h
  have hadd : addRule rules kind values = .ok result := h
  rw [addRule] at hadd
  split at hadd
  · cases hadd
  · next hempty =>
    cases hadd
    exact ⟨kind, values, hline, by simpa using hempty, rfl⟩

section

variable (hstrict : StrictEntries entries) (h : entries.foldlM addLine rules = .ok result)
include hstrict h

theorem addLines_kept (hset : rulesOf rules kind ≠ []) : rulesOf result kind = rulesOf rules kind := by
  induction entries generalizing rules with
  | nil =>
    cases h
    rfl
  | cons raw entries ih =>
    obtain ⟨rules', hline, hrest⟩ := Lib.bind_ok h
    obtain ⟨kind', values, _, hempty, rfl⟩ := addLine_ok hline
    have hne : kind ≠ kind' := by
      rintro rfl
      exact hset hempty
    have hkept : rulesOf (setRules rules kind' values) kind = rulesOf rules kind :=
      rulesOf_setRules_ne hne rules values
    rw [ih (fun raw hmem => hstrict raw (mem_cons_of_mem _ hmem)) hrest (by rwa [hkept]), hkept]

theorem addLines_ok : DistinctKeys entries ∧ ∀ raw ∈ entries, ∃ kind values,
      ruleLine (trimBoth isSpace raw) = .ok (kind, values) ∧ rulesOf result kind = values ∧
        rulesOf rules kind = [] := by
  induction entries generalizing rules with
  | nil => exact ⟨List.Pairwise.nil, by simp⟩
  | cons raw entries ih =>
    have hrests : StrictEntries entries := fun raw hmem => hstrict raw (mem_cons_of_mem _ hmem)
    obtain ⟨rules', hline, hrest⟩ := Lib.bind_ok h
    obtain ⟨kind, values, hread, hempty, rfl⟩ := addLine_ok hline
    obtain ⟨kind₁, key, items, hentry⟩ := hstrict raw mem_cons_self
    obtain ⟨rfl, hvalues⟩ := hentry.ruleLine_ok hread
    obtain ⟨hdistinct, hlines⟩ := ih hrests hrest
    have hkept : rulesOf result kind = rulesOf (setRules rules kind values) kind :=
      addLines_kept hrests hrest (by simpa using hvalues)
    have hfresh : ∀ other ∈ entries, ∃ kind' values',
        ruleLine (trimBoth isSpace other) = .ok (kind', values') ∧ rulesOf result kind' = values' ∧
          kind' ≠ kind ∧ rulesOf rules kind' = [] := by
      intro other hmem
      obtain ⟨kind', values', hread', hresult, hempty'⟩ := hlines other hmem
      have hne : kind' ≠ kind := by
        rintro rfl
        rw [rulesOf_setRules] at hempty'
        exact hvalues hempty'
      rw [rulesOf_setRules_ne hne] at hempty'
      exact ⟨kind', values', hread', hresult, hne, hempty'⟩
    refine ⟨pairwise_cons.mpr ⟨fun other hmem => ?_, hdistinct⟩, fun other hmem => ?_⟩
    · obtain ⟨kind', values', hread', _, hne, _⟩ := hfresh other hmem
      obtain ⟨kind₂, key', items', hentry'⟩ := hrests other hmem
      obtain ⟨rfl, _⟩ := hentry'.ruleLine_ok hread'
      rw [hentry.strings, hentry'.strings]
      simp only [Option.map_some, ne_eq, Option.some.injEq]
      rintro rfl
      have hkinds := hentry.kind_.symm.trans hentry'.kind_
      cases hkinds
      exact hne rfl
    · cases hmem with
      | head => exact ⟨kind, values, hread, by simpa using hkept, hempty⟩
      | tail _ hmem =>
        obtain ⟨kind', values', hread', hresult, _, hempty'⟩ := hfresh other hmem
        exact ⟨kind', values', hread', hresult, hempty'⟩

end

theorem stringsOf_of_mem (hdistinct : DistinctKeys entries) (hmem : raw ∈ entries)
    (h : entryStrings raw = some (key, items)) : stringsOf entries key = items := by
  rw [stringsOf]
  induction entries with
  | nil => cases hmem
  | cons first entries ih =>
    obtain ⟨hfirst, hrest⟩ := pairwise_cons.mp hdistinct
    cases hmem with
    | head => simp [h]
    | tail _ hmem =>
      have hne := hfirst raw hmem
      rw [h] at hne
      cases hread : entryStrings first with
      | none =>
        rw [filterMap_cons, hread]
        exact ih hrest hmem
      | some entry =>
        rw [hread] at hne
        have hkey : (entry.1 == key) = false := by simpa using hne
        rw [filterMap_cons, hread]
        simp only [find?_cons, hkey]
        exact ih hrest hmem

/-- Entries that are read as they are written. -/
def PlainEntries (entries : List Bytes) : Prop :=
  DistinctKeys entries ∧ ∀ raw ∈ entries, ∃ key items, entryStrings raw = some (key, items) ∧
    PlainEntry raw key items

theorem plainEntries_of_read (hstrict : StrictEntries entries)
    (hfilled : ∀ raw ∈ entries, ∀ key, entryStrings raw ≠ some (key, [[]]))
    (h : entries.foldlM addLine {} = .ok (expectedRules entries)) : PlainEntries entries := by
  obtain ⟨hdistinct, hlines⟩ := addLines_ok hstrict h
  refine ⟨hdistinct, fun raw hmem => ?_⟩
  obtain ⟨kind, key, items, hentry⟩ := hstrict raw hmem
  obtain ⟨kind', values, hread, hresult, _⟩ := hlines raw hmem
  obtain ⟨rfl, _⟩ := hentry.ruleLine_ok hread
  rw [rulesOf_expected, keyOf_eq hentry.kind_, stringsOf_of_mem hdistinct hmem hentry.strings]
    at hresult
  rw [← hresult] at hread
  have hne : items ≠ [[]] := by
    rintro rfl
    exact hfilled raw hmem key hentry.strings
  exact ⟨key, items, hentry.strings, hentry.plain hne hread⟩

theorem addLines_plain (hstrict : StrictEntries entries) (hplain : PlainEntries entries)
    (hfresh : ∀ raw ∈ entries, ∀ kind key items, StrictEntry raw kind key items →
      rulesOf rules kind = []) :
    ∃ result, entries.foldlM addLine rules = .ok result ∧ ∀ kind, rulesOf result kind =
      match (entries.filterMap entryStrings).find? (fun entry => entry.1 == keyOf kind) with
      | none => rulesOf rules kind
      | some entry => entry.2 := by
  induction entries generalizing rules with
  | nil => exact ⟨rules, rfl, by simp⟩
  | cons raw entries ih =>
    obtain ⟨hdistinct, hlines⟩ := hplain
    obtain ⟨hfirst, hdistinct⟩ := pairwise_cons.mp hdistinct
    have hrests : StrictEntries entries := fun raw hmem => hstrict raw (mem_cons_of_mem _ hmem)
    obtain ⟨kind, key, items, hentry⟩ := hstrict raw mem_cons_self
    obtain ⟨key', items', hstrings, hline⟩ := hlines raw mem_cons_self
    rw [hentry.strings] at hstrings
    cases hstrings
    have hread := hline.ruleLine hentry.kind_
    have hempty := hfresh raw mem_cons_self kind key items hentry
    have hadd : addLine rules raw = .ok (setRules rules kind items) := by
      have hrule : addRule rules kind items = .ok (setRules rules kind items) := by
        rw [addRule, if_neg (by simpa using hempty)]
      rw [addLine, hread, Lib.ok_bind]
      exact hrule
    have hkinds : ∀ other ∈ entries, ∀ kind' key' items', StrictEntry other kind' key' items' →
        kind' ≠ kind := by
      intro other hmem kind' key' items' hother
      have hne := hfirst other hmem
      rw [hentry.strings, hother.strings] at hne
      rintro rfl
      exact hne (by simp [← keyOf_eq hentry.kind_, ← keyOf_eq hother.kind_])
    obtain ⟨result, hresult, hrules⟩ := @ih (setRules rules kind items) hrests
      ⟨hdistinct, fun raw hmem => hlines raw (mem_cons_of_mem _ hmem)⟩
      (fun other hmem kind' key' items' hother => by
        rw [rulesOf_setRules_ne (hkinds other hmem kind' key' items' hother)]
        exact hfresh other (mem_cons_of_mem _ hmem) kind' key' items' hother)
    refine ⟨result, ?_, fun kind' => ?_⟩
    · rw [foldlM_cons, hadd, Lib.ok_bind, hresult]
    rw [filterMap_cons, hentry.strings]
    simp only [find?_cons]
    by_cases hkind : kind' = kind
    · subst hkind
      have hlater : (entries.filterMap entryStrings).find? (fun entry => entry.1 == keyOf kind') =
          none := by
        rw [find?_eq_none]
        intro entry hmem
        obtain ⟨other, hother, hstrings⟩ := mem_filterMap.mp hmem
        have hne := hfirst other hother
        rw [hentry.strings, hstrings] at hne
        rw [keyOf_eq hentry.kind_]
        simpa using fun heq => hne (by simp [heq])
      rw [hrules kind', hlater, keyOf_eq hentry.kind_]
      simp
    · have hkey : (key == keyOf kind') = false := by
        rw [← keyOf_eq hentry.kind_]
        cases kind <;> cases kind' <;> first | rfl | exact absurd rfl hkind
      rw [hrules kind', hkey, rulesOf_setRules_ne hkind]

theorem read_of_plainEntries (hstrict : StrictEntries entries) (hplain : PlainEntries entries) :
    entries.foldlM addLine {} = .ok (expectedRules entries) := by
  obtain ⟨result, hresult, hrules⟩ := @addLines_plain entries {} hstrict hplain
    (fun _ _ kind _ _ _ => by cases kind <;> rfl)
  have heq : result = expectedRules entries := by
    apply rules_ext
    intro kind
    rw [hrules kind, rulesOf_expected, stringsOf]
    split
    · cases kind <;> rfl
    · rfl
  rw [hresult, heq]

/-! ## All tables -/

def tableStep (state : State) (table : Bytes × List Bytes) : Except OverrideError State := do
  let state ← readLine table.1 state
  table.2.foldlM (fun state raw => readLine raw state) state

theorem foldlM_tables (lines : List Bytes) (state : State) :
    lines.foldlM (fun state raw => readLine raw state) state = (do
      let state ← (tablesOf lines).1.foldlM (fun state raw => readLine raw state) state
      (tablesOf lines).2.foldlM tableStep state) := by
  induction lines generalizing state with
  | nil => rfl
  | cons raw lines ih =>
    rw [foldlM_cons]
    cases hidle : isIdle raw with
    | true =>
      rw [readLine_idle hidle, Lib.ok_bind, tablesOf_idle hidle]
      exact ih state
    | false =>
      cases hheader : isHeader raw with
      | true =>
        rw [tablesOf_header hheader]
        simp only [foldlM_nil, foldlM_cons, tableStep, pure_bind, bind_assoc, ih]
      | false =>
        rw [tablesOf_entry hidle hheader]
        simp only [foldlM_cons, bind_assoc, ih]

def IsEntry (raw : Bytes) : Prop := isIdle raw = false ∧ isHeader raw = false

theorem tablesOf_entries (lines : List Bytes) : (∀ raw ∈ (tablesOf lines).1, IsEntry raw) ∧
    ∀ table ∈ (tablesOf lines).2, isHeader table.1 = true ∧ ∀ raw ∈ table.2, IsEntry raw := by
  induction lines with
  | nil => simp [tablesOf]
  | cons raw lines ih =>
    cases hidle : isIdle raw with
    | true =>
      rw [tablesOf_idle hidle]
      exact ih
    | false =>
      cases hheader : isHeader raw with
      | true =>
        rw [tablesOf_header hheader]
        refine ⟨by simp, fun table hmem => ?_⟩
        cases hmem with
        | head => exact ⟨hheader, ih.1⟩
        | tail _ hmem => exact ih.2 table hmem
      | false =>
        rw [tablesOf_entry hidle hheader]
        refine ⟨fun other hmem => ?_, ih.2⟩
        cases hmem with
        | head => exact ⟨hidle, hheader⟩
        | tail _ hmem => exact ih.1 other hmem

theorem foldlM_outside (h : ∀ raw ∈ entries, IsEntry raw) {state : State}
    (hout : state.current = none) :
    entries.foldlM (fun state raw => readLine raw state) state = .ok state := by
  induction entries with
  | nil => rfl
  | cons raw entries ih =>
    obtain ⟨hidle, hheader⟩ := h raw mem_cons_self
    rw [foldlM_cons, readLine_entry hidle hheader, hout, Lib.ok_bind]
    exact ih (fun raw hmem => h raw (mem_cons_of_mem _ hmem))

theorem readLine_inside (h : IsEntry raw) (overrides : List MatchOverride) (name : Bytes)
    (rules : GrammarMatches) :
    readLine raw ⟨overrides ++ [⟨name, rules⟩], some overrides.length⟩ =
      (addLine rules raw).map (fun rules => ⟨overrides ++ [⟨name, rules⟩], some overrides.length⟩) := by
  rw [readLine_entry h.1 h.2, addLine]
  cases ruleLine (trimBoth isSpace raw) with
  | error e => rfl
  | ok rule =>
    obtain ⟨kind, values⟩ := rule
    simp only [Lib.ok_bind, getElem?_concat_length]
    cases addRule rules kind values with
    | error e => rfl
    | ok rules' => simp [Except.map]

theorem foldlM_inside (h : ∀ raw ∈ entries, IsEntry raw) (overrides : List MatchOverride) (name : Bytes)
    (rules : GrammarMatches) :
    entries.foldlM (fun state raw => readLine raw state)
        ⟨overrides ++ [⟨name, rules⟩], some overrides.length⟩ =
      (entries.foldlM addLine rules).map
        (fun rules => ⟨overrides ++ [⟨name, rules⟩], some overrides.length⟩) := by
  induction entries generalizing rules with
  | nil => rfl
  | cons raw entries ih =>
    rw [foldlM_cons, foldlM_cons, readLine_inside (h raw mem_cons_self)]
    cases addLine rules raw with
    | error e => rfl
    | ok rules' => exact ih (fun raw hmem => h raw (mem_cons_of_mem _ hmem)) rules'

/-- The override of a grammar table. -/
def loadTable (table : Bytes × List Bytes) : Except OverrideError MatchOverride :=
  (table.2.foldlM addLine {}).map (fun rules => ⟨table.1, rules⟩)

/-- A table as the strict parser takes it. -/
structure StrictTable (table : Bytes × List Bytes) : Prop where
  header : ∃ name, StrictHeader table.1 name
  entries : ∀ raw ∈ table.2, IsEntry raw

theorem StrictHeader.tableName {header name : Bytes} (h : StrictHeader header name) :
    tableName header = name := by
  obtain ⟨after, hsection, _⟩ := h.reads
  rw [Config.tableName, hsection]

variable {table : Bytes × List Bytes}

theorem tableStep_eq (h : StrictTable table) (hplain : PlainHeader table.1) (state : State) :
    tableStep state table = match grammarName table.1 with
      | none => .ok { state with current := none }
      | some name =>
        if state.overrides.any (fun override => override.name == name) then
          .error .duplicateUserGrammarConfiguration
        else (loadTable (name, table.2)).map
          (fun override => ⟨state.overrides ++ [override], some state.overrides.length⟩) := by
  obtain ⟨name, hheader⟩ := h.header
  obtain ⟨_, hread⟩ | ⟨hnot, _⟩ := readLine_header hheader
  · rw [tableStep, hread, openTable, grammarName, hheader.tableName]
    split
    · simp only
      split
      · rfl
      rw [Lib.ok_bind, foldlM_inside h.entries, loadTable]
      cases table.2.foldlM addLine {} with
      | error e => rfl
      | ok rules => rfl
    · rw [Lib.ok_bind, foldlM_outside h.entries rfl]
  · exact absurd hplain hnot

theorem tableStep_header (h : StrictTable table) {state state' : State}
    (hstep : tableStep state table = .ok state') : PlainHeader table.1 := by
  obtain ⟨name, hheader⟩ := h.header
  obtain ⟨hplain, _⟩ | ⟨_, herror⟩ := readLine_header hheader
  · exact hplain
  · rw [tableStep, herror] at hstep
    cases hstep

variable {tables : List (Bytes × List Bytes)}

theorem tables_ok (h : ∀ table ∈ tables, StrictTable table) {state state' : State}
    (hrun : tables.foldlM tableStep state = .ok state') :
    (∀ table ∈ tables, PlainHeader table.1) ∧ ∃ new, (grammarTables tables).mapM loadTable = .ok new ∧
      state'.overrides = state.overrides ++ new := by
  induction tables generalizing state with
  | nil =>
    cases hrun
    exact ⟨by simp, [], rfl, by simp⟩
  | cons table tables ih =>
    obtain ⟨next, hstep, hrest⟩ := Lib.bind_ok hrun
    have htable := h table mem_cons_self
    have hplain := tableStep_header htable hstep
    obtain ⟨hplains, new, hnew, hoverrides⟩ :=
      ih (fun table hmem => h table (mem_cons_of_mem _ hmem)) hrest
    refine ⟨forall_mem_cons.mpr ⟨hplain, hplains⟩, ?_⟩
    rw [tableStep_eq htable hplain] at hstep
    rw [grammarTables, filterMap_cons]
    cases hname : grammarName table.1 with
    | none =>
      rw [hname] at hstep
      cases hstep
      exact ⟨new, hnew, hoverrides⟩
    | some name =>
      simp only [hname] at hstep
      split at hstep
      · cases hstep
      obtain ⟨override, hload, rfl⟩ := Lib.map_ok hstep
      refine ⟨override :: new, mapM_cons_iff.mpr ⟨hload, hnew⟩, ?_⟩
      rw [hoverrides]
      simp

theorem loadTable_name {override : MatchOverride} (h : loadTable table = .ok override) :
    override.name = table.1 := by
  obtain ⟨rules, _, rfl⟩ := Lib.map_ok h
  rfl

theorem tables_names (h : ∀ table ∈ tables, StrictTable table) {state state' : State}
    (hrun : tables.foldlM tableStep state = .ok state')
    (hnames : (state.overrides.map MatchOverride.name).Nodup) :
    (state.overrides.map MatchOverride.name ++ (grammarTables tables).map Prod.fst).Nodup := by
  induction tables generalizing state with
  | nil => simpa [grammarTables] using hnames
  | cons table tables ih =>
    obtain ⟨next, hstep, hrest⟩ := Lib.bind_ok hrun
    have htable := h table mem_cons_self
    have htables := fun table hmem => h table (mem_cons_of_mem _ hmem)
    rw [tableStep_eq htable (tableStep_header htable hstep)] at hstep
    rw [grammarTables, filterMap_cons]
    cases hname : grammarName table.1 with
    | none =>
      rw [hname] at hstep
      cases hstep
      have hall := ih htables hrest hnames
      exact hall
    | some name =>
      simp only [hname] at hstep
      split at hstep
      · cases hstep
      next hfresh =>
      obtain ⟨override, hload, rfl⟩ := Lib.map_ok hstep
      have hoverride := loadTable_name hload
      have hnew : name ∉ state.overrides.map MatchOverride.name := by
        simpa using hfresh
      have hnodup : ((state.overrides ++ [override]).map MatchOverride.name).Nodup := by
        rw [map_append, map_singleton, hoverride, nodup_append]
        refine ⟨hnames, by simp, fun other hother _ hmem => ?_⟩
        rw [mem_singleton.mp hmem]
        exact ne_of_mem_of_not_mem hother hnew
      have hall := ih htables hrest hnodup
      rw [map_append, map_singleton, hoverride, append_assoc] at hall
      exact hall

theorem tables_run (h : ∀ table ∈ tables, StrictTable table)
    (hplain : ∀ table ∈ tables, PlainHeader table.1) {new : List MatchOverride} {state : State}
    (hnew : (grammarTables tables).mapM loadTable = .ok new)
    (hnames : ((state.overrides ++ new).map MatchOverride.name).Nodup) :
    ∃ state', tables.foldlM tableStep state = .ok state' ∧
      state'.overrides = state.overrides ++ new := by
  induction tables generalizing state new with
  | nil =>
    cases hnew
    exact ⟨state, rfl, by simp⟩
  | cons table tables ih =>
    have htables : ∀ table ∈ tables, StrictTable table :=
      fun table hmem => h table (mem_cons_of_mem _ hmem)
    have hplains : ∀ table ∈ tables, PlainHeader table.1 :=
      fun table hmem => hplain table (mem_cons_of_mem _ hmem)
    rw [foldlM_cons, tableStep_eq (h table mem_cons_self) (hplain table mem_cons_self)]
    rw [grammarTables, filterMap_cons] at hnew
    cases hname : grammarName table.1 with
    | none =>
      rw [hname] at hnew
      exact ih htables hplains hnew (by exact hnames)
    | some name =>
      simp only [hname, Option.map_some] at hnew
      cases new with
      | nil =>
        have hlength := mapM_length hnew
        simp at hlength
      | cons override new =>
        obtain ⟨hload, hrest⟩ := mapM_cons_iff.mp hnew
        have hoverride := loadTable_name hload
        have hfresh : state.overrides.any (fun other => other.name == name) = false := by
          rw [any_eq_false]
          intro other hmem
          rw [map_append, nodup_append] at hnames
          have hne := hnames.2.2 other.name (mem_map_of_mem hmem) override.name (by simp)
          rw [hoverride] at hne
          simpa using hne
        simp only [hfresh, Bool.false_eq_true, if_false, hload, Except.map, Lib.ok_bind]
        have hall : state.overrides ++ override :: new = (state.overrides ++ [override]) ++ new := by
          simp
        rw [hall] at hnames ⊢
        exact ih htables hplains hrest hnames

/-! ## The file -/

/-- A file whose tables the strict parser takes. -/
def StrictFile (source : Bytes) : Prop :=
  ∀ table ∈ (tablesOf (source.splitOn newline)).2, StrictTable table ∧
    (grammarName table.1 ≠ none → StrictEntries table.2)

/-- A file that is read as it is written: it is shorter than the limit, its headers are plain, and
so are the entries of its grammar tables, with no key repeated in a table. -/
structure Readable (source : Bytes) : Prop where
  size : source.length < readLimit
  headers : ∀ table ∈ (tablesOf (source.splitOn newline)).2, PlainHeader table.1
  entries : ∀ table ∈ grammarTables (tablesOf (source.splitOn newline)).2, PlainEntries table.2

/-- A rule that `validateRules` does not take. -/
def Refused (source : Bytes) : Prop :=
  ∃ override ∈ expected source, validateRules override.rules ≠ .ok ()

/-- Two tables of one grammar. -/
def Repeated (source : Bytes) : Prop := ¬((expected source).map MatchOverride.name).Nodup

def Excused (source : Bytes) : Prop := Refused source ∨ Repeated source

variable {source : Bytes} {overrides : List MatchOverride}

theorem effectiveRules_self (override : MatchOverride) : effectiveRules override.name {} [override] =
      (validateRules override.rules).map (fun _ => override.rules) := by
  rw [effectiveRules, if_neg (by simp)]
  rfl

def checkOverride (override : MatchOverride) : Except OverrideError Unit :=
  match effectiveRules override.name {} [override] with
  | .error e => .error (.grammar e)
  | .ok _ => .ok ()

theorem checkOverride_ok (override : MatchOverride) :
    checkOverride override = .ok () ↔ validateRules override.rules = .ok () := by
  rw [checkOverride, effectiveRules_self]
  cases validateRules override.rules with
  | error e | ok _ => simp [Except.map]

theorem checks_ok (overrides : List MatchOverride) : overrides.forM checkOverride = .ok () ↔
    ∀ override ∈ overrides, validateRules override.rules = .ok () := by
  induction overrides with
  | nil => simp [pure, Except.pure]
  | cons override overrides ih =>
    rw [forall_mem_cons, ← ih, ← checkOverride_ok]
    change (checkOverride override >>= fun _ => overrides.forM checkOverride) = .ok () ↔ _
    cases checkOverride override with
    | error e => simp [bind, Except.bind]
    | ok _ => simp

theorem loadOverrides_eq (hsize : source.length < readLimit) : loadOverrides source = (do
    let state ← (tablesOf (source.splitOn newline)).2.foldlM tableStep {}
    state.overrides.forM checkOverride
    return state.overrides) := by
  have hroot := @foldlM_outside _ (tablesOf_entries (source.splitOn newline)).1 {} rfl
  rw [loadOverrides, if_neg (Nat.not_le.mpr hsize), foldlM_tables, hroot]
  rfl

theorem loadOverrides_ok (h : loadOverrides source = .ok overrides) : source.length < readLimit ∧
    ∃ state, (tablesOf (source.splitOn newline)).2.foldlM tableStep {} = .ok state ∧
      state.overrides = overrides ∧ ∀ override ∈ overrides, validateRules override.rules = .ok () := by
  have hsize : source.length < readLimit := by
    rw [loadOverrides] at h
    split at h
    · cases h
    · next hsize => exact Nat.not_le.mp hsize
  rw [loadOverrides_eq hsize] at h
  obtain ⟨state, hstate, h⟩ := Lib.bind_ok h
  obtain ⟨_, hchecks, h⟩ := Lib.bind_ok h
  cases h
  exact ⟨hsize, state, hstate, rfl, (checks_ok _).mp hchecks⟩

theorem expected_names (source : Bytes) : (expected source).map MatchOverride.name =
    (grammarTables (tablesOf (source.splitOn newline)).2).map Prod.fst := by
  rw [expected, map_map]
  rfl

section

variable (hstrict : StrictFile source)
include hstrict

theorem not_repeated (h : loadOverrides source = .ok overrides) : ¬Repeated source := by
  obtain ⟨_, state, hstate, _⟩ := loadOverrides_ok h
  have hnames := tables_names (fun table hmem => (hstrict table hmem).1) hstate .nil
  rw [Repeated, not_not, expected_names]
  exact hnames

theorem strict_entries : ∀ table ∈
    grammarTables (tablesOf (source.splitOn newline)).2, StrictEntries table.2 := by
  intro table hmem
  obtain ⟨whole, hwhole, hname⟩ := mem_filterMap.mp hmem
  obtain ⟨name, hgrammar, rfl⟩ := Option.map_eq_some_iff.mp hname
  exact (hstrict whole hwhole).2 (by simp [hgrammar])

theorem readable_mapM (h : Readable source) :
    (grammarTables (tablesOf (source.splitOn newline)).2).mapM loadTable = .ok (expected source) := by
  refine mapM_map_iff.mpr fun table hmem => ?_
  rw [loadTable, read_of_plainEntries (strict_entries hstrict table hmem) (h.entries table hmem)]
  rfl

theorem loadOverrides_readable (h : Readable source) : loadOverrides source = .ok (expected source) ∨
      (∃ e, loadOverrides source = .error e) ∧ Excused source := by
  have hnew := readable_mapM hstrict h
  cases hload : loadOverrides source with
  | ok overrides =>
    obtain ⟨_, state, hstate, rfl, _⟩ := loadOverrides_ok hload
    obtain ⟨_, new, hnew', hoverrides⟩ := tables_ok (fun table hmem => (hstrict table hmem).1) hstate
    rw [hnew] at hnew'
    cases hnew'
    exact .inl (by rw [hoverrides]; rfl)
  | error e =>
    refine .inr ⟨⟨e, rfl⟩, ?_⟩
    by_contra hexcused
    rw [Excused, not_or, Repeated, not_not] at hexcused
    have hvalid : ∀ override ∈ expected source, validateRules override.rules = .ok () := by
      intro override hmem
      by_contra hbad
      exact hexcused.1 ⟨override, hmem, hbad⟩
    obtain ⟨state, hstate, hoverrides⟩ := @tables_run _ (fun table hmem => (hstrict table hmem).1)
      h.headers (expected source) {} hnew hexcused.2
    have hoverrides' : state.overrides = expected source := hoverrides
    rw [loadOverrides_eq h.size, hstate, Lib.ok_bind, hoverrides', (checks_ok _).mpr hvalid] at hload
    cases hload

end

theorem filled_of_valid (hdistinct : DistinctKeys entries) (hstrict : StrictEntries entries)
    (h : validateRules (expectedRules entries) = .ok ()) :
    ∀ raw ∈ entries, ∀ key, entryStrings raw ≠ some (key, [[]]) := by
  intro raw hmem key hstrings
  obtain ⟨kind, key', items, hentry⟩ := hstrict raw hmem
  rw [hentry.strings] at hstrings
  cases hstrings
  have hrules := stringsOf_of_mem hdistinct hmem hentry.strings
  have hvalid := validateRules_ok h
  have hlist : rulesOf (expectedRules entries) kind = [[]] := by
    rw [rulesOf_expected, keyOf_eq hentry.kind_, hrules]
  have hin : [] ∈ rulesOf (expectedRules entries) kind := by simp [hlist]
  cases kind with
  | filename => exact (hvalid.filenames _ hin).nonempty rfl
  | compound => exact (hvalid.compoundSuffixes _ hin).nonempty rfl
  | extension => exact (hvalid.extensions _ hin).nonempty rfl
  | shebang => exact (hvalid.shebangs _ hin).nonempty rfl

theorem readable_of_loadOverrides (hstrict : StrictFile source)
    (h : loadOverrides source = .ok (expected source)) : Readable source := by
  obtain ⟨hsize, state, hstate, hoverrides, hvalid⟩ := loadOverrides_ok h
  obtain ⟨hheaders, new, hnew, hall⟩ := tables_ok (fun table hmem => (hstrict table hmem).1) hstate
  rw [hoverrides] at hall
  have hexpected : expected source = new := hall
  rw [← hexpected, expected] at hnew
  have htables := mapM_map_iff.mp hnew
  refine ⟨hsize, hheaders, fun table hmem => ?_⟩
  obtain ⟨rules, hrules, heq⟩ := Lib.map_ok (htables table hmem)
  cases heq
  have hentries := strict_entries hstrict table hmem
  have hdistinct := (addLines_ok hentries hrules).1
  have hcheck := hvalid ⟨table.1, expectedRules table.2⟩ (mem_map.mpr ⟨table, hmem, rfl⟩)
  exact plainEntries_of_read hentries (filled_of_valid hdistinct hentries hcheck) hrules

end Bbr.Highlight.GrammarCli
