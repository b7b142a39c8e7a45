import Bbr.Config.LineShapes
import Bbr.Config.Logging

/-!
# Tables of a configuration

The tables of a file in their order, each with its header and the lines of its entries, and what the
logging switch is in them.
-/
namespace Bbr.Config

open Bbr.Diff (ascii)

/-- A line without an entry and without a header. -/
def isIdle (raw : Bytes) : Bool := (LineParser.space { text := raw }).trailing

def isHeader (raw : Bytes) : Bool :=
  decide ((LineParser.space { text := raw }).text.head? = some openBracket)

/-- The entries in front of the first header, and the tables. -/
def tablesOf : List Bytes → List Bytes × List (Bytes × List Bytes)
  | [] => ([], [])
  | raw :: lines =>
    let (entries, tables) := tablesOf lines
    if isIdle raw then (entries, tables)
    else if isHeader raw then ([], (raw, entries) :: tables)
    else (raw :: entries, tables)

/-- The name between the brackets of a header. -/
def tableName (raw : Bytes) : Bytes :=
  match (LineParser.space { text := raw }).section_ with
  | .ok (name, _) => name
  | .error _ => []

/-- The key of an entry, and the parser in front of its value. -/
def entryOf (raw : Bytes) : Option (Bytes × LineParser) :=
  match (LineParser.space { text := raw }).key with
  | .error _ => none
  | .ok (key, parser) => (parser.space.take equals).map (fun parser => (key, parser.space))

/-- The switch that an entry sets, if it is one of that key. -/
def switchOf (key raw : Bytes) : Option Bool :=
  match entryOf raw with
  | none => none
  | some (name, value) =>
    if name ≠ key then none
    else match value.boolean with
      | .error _ => none
      | .ok (text, _) => some (decide (text = ascii "true"))

/-- The `enabled` key in the `[logging]` table. -/
def loggingValue (source : Bytes) : Bool :=
  match (tablesOf (source.splitOn newline)).2.find? (fun table =>
      tableName table.1 == ascii "logging") with
  | none => false
  | some (_, entries) => (entries.findSome? (switchOf (ascii "enabled"))).getD false

variable {raw : Bytes} {lines : List Bytes} {n : Nat}

theorem not_idle_of_header (h : isHeader raw = true) : isIdle raw = false := by
  obtain ⟨rest, hrest⟩ := List.head?_eq_some_iff.mp (of_decide_eq_true h)
  rw [isIdle, LineParser.trailing, hrest]
  rfl

theorem tablesOf_idle (h : isIdle raw = true) : tablesOf (raw :: lines) = tablesOf lines := by
  rw [tablesOf]
  simp [h]

theorem tablesOf_header (h : isHeader raw = true) :
    tablesOf (raw :: lines) = ([], (raw, (tablesOf lines).1) :: (tablesOf lines).2) := by
  rw [tablesOf]
  simp [not_idle_of_header h, h]

theorem tablesOf_entry (hidle : isIdle raw = false) (hheader : isHeader raw = false) :
    tablesOf (raw :: lines) = (raw :: (tablesOf lines).1, (tablesOf lines).2) := by
  rw [tablesOf]
  simp [hidle, hheader]

namespace Logging

variable {state state' : State} {value : Bool}

theorem readLine_idle (h : isIdle raw = true) : readLine raw state = some state := by
  rw [isIdle] at h
  simp [readLine, h]

theorem readLine_header (h : isHeader raw = true) (hread : readLine raw state = some state') :
    (tableName raw = ascii "logging" ∧ state.tableSeen = false ∧
      state' = { state with inLogging := true, tableSeen := true }) ∨
    (tableName raw ≠ ascii "logging" ∧ state' = { state with inLogging := false }) := by
  have hidle := not_idle_of_header h
  rw [isHeader, decide_eq_true_eq] at h
  rw [isIdle] at hidle
  rw [readLine] at hread
  simp only [hidle, h, Bool.false_eq_true, if_false, if_true] at hread
  cases hsection : (LineParser.space { text := raw }).section_ with
  | error e => simp [hsection] at hread
  | ok result =>
    obtain ⟨name, parser⟩ := result
    have htable : tableName raw = name := by rw [tableName, hsection]
    simp only [hsection] at hread
    rw [htable]
    split_ifs at hread with htrailing hname hseen
    · cases hread
      exact .inl ⟨hname, by simpa using hseen, rfl⟩
    · cases hread
      exact .inr ⟨hname, rfl⟩

theorem readLine_outside (hheader : isHeader raw = false) (hout : state.inLogging = false) :
    readLine raw state = some state := by
  rw [isHeader, decide_eq_false_iff_not] at hheader
  simp [readLine, hheader, hout]

theorem readLine_inside (hidle : isIdle raw = false) (hheader : isHeader raw = false)
    (hin : state.inLogging = true) (hread : readLine raw state = some state') :
    ∃ value, switchOf (ascii "enabled") raw = some value ∧ state.keySeen = false ∧
      state' = { state with keySeen := true, enabledValue := value } := by
  rw [isHeader, decide_eq_false_iff_not] at hheader
  rw [isIdle] at hidle
  rw [readLine] at hread
  simp only [hidle, hheader, hin, Bool.false_eq_true, Bool.not_true, if_false] at hread
  split at hread
  · cases hread
  rename_i key parser hkey
  split at hread
  · cases hread
  rename_i hfresh
  rw [not_or, ne_eq, not_not] at hfresh
  split at hread
  · cases hread
  rename_i start htake
  split at hread
  · cases hread
  rename_i text after hboolean
  split at hread
  · cases hread
  · cases hread
    refine ⟨decide (text = ascii "true"), ?_, by simpa using hfresh.2, by rw [← hin]⟩
    simp [switchOf, entryOf, hkey, htake, hfresh.1, hboolean]

theorem readLines_cons {raw : Bytes} (h : readLines n (raw :: lines) state = .enabled value) :
    ∃ state', readLine raw state = some state' ∧ readLines (n + 1) lines state' = .enabled value := by
  rw [readLines] at h
  split at h
  · cases h
  · next state' hread => exact ⟨state', hread, h⟩

theorem readLines_seen (hseen : state.tableSeen = true) (h : readLines n lines state = .enabled value) :
    value = if state.inLogging = true ∧ state.keySeen = false then
      ((tablesOf lines).1.findSome? (switchOf (ascii "enabled"))).getD state.enabledValue
    else state.enabledValue := by
  induction lines generalizing n state with
  | nil =>
    cases h
    simp [tablesOf]
  | cons raw lines ih =>
    obtain ⟨state', hread, hrest⟩ := readLines_cons h
    cases hidle : isIdle raw with
    | true =>
      rw [readLine_idle hidle] at hread
      cases hread
      rw [tablesOf_idle hidle]
      exact ih hseen hrest
    | false =>
      cases hheader : isHeader raw with
      | true =>
        rw [tablesOf_header hheader]
        obtain ⟨_, hfresh, _⟩ | ⟨_, rfl⟩ := readLine_header hheader hread
        · rw [hseen] at hfresh
          cases hfresh
        · have hvalue := ih (by exact hseen) hrest
          simpa using hvalue
      | false =>
        rw [tablesOf_entry hidle hheader]
        cases hin : state.inLogging with
        | false =>
          rw [readLine_outside hheader hin] at hread
          cases hread
          have hvalue := ih hseen hrest
          simpa [hin] using hvalue
        | true =>
          obtain ⟨switch, hswitch, hkey, rfl⟩ := readLine_inside hidle hheader hin hread
          have hvalue := ih (by exact hseen) hrest
          simpa [hkey, hswitch] using hvalue

/-- What the reader of the switch finds is the switch in the tables. -/
theorem readLines_fresh (h : readLines n lines {} = .enabled value) :
    value = match (tablesOf lines).2.find? (fun table => tableName table.1 == ascii "logging") with
      | none => false
      | some (_, entries) => (entries.findSome? (switchOf (ascii "enabled"))).getD false := by
  induction lines generalizing n with
  | nil =>
    cases h
    rfl
  | cons raw lines ih =>
    obtain ⟨state', hread, hrest⟩ := readLines_cons h
    cases hidle : isIdle raw with
    | true =>
      rw [readLine_idle hidle] at hread
      cases hread
      rw [tablesOf_idle hidle]
      exact ih hrest
    | false =>
      cases hheader : isHeader raw with
      | true =>
        rw [tablesOf_header hheader]
        obtain ⟨hname, _, rfl⟩ | ⟨hname, rfl⟩ := readLine_header hheader hread
        · have hvalue := readLines_seen rfl hrest
          simpa [hname] using hvalue
        · have hvalue := ih hrest
          simpa [hname] using hvalue
      | false =>
        rw [readLine_outside hheader rfl] at hread
        cases hread
        rw [tablesOf_entry hidle hheader]
        exact ih hrest

theorem parse_enabled {source : Bytes} (h : parse source = .enabled value) :
    value = loggingValue source := by
  rw [parse] at h
  split at h
  · cases h
  · exact readLines_fresh h

end Logging

end Bbr.Config
