import Bbr.Diff.PathLaws

/-!
# Printed rows are read back

Numbers, ranges and Hunk headers, and the split of the printed text into rows.
-/
namespace Bbr.Diff

open List

def isDigit (c : UInt8) : Bool := decide (0x30 ≤ c) && decide (c ≤ 0x39)

theorem digit_facts (d : Nat) (h : d < 10) : isDigit (0x30 + d).toUInt8 = true ∧
    digitValue (0x30 + d).toUInt8 = some d := by
  revert d
  decide

theorem digits_isDigit (fuel n : Nat) : ∀ c ∈ digits fuel n, isDigit c = true := by
  induction fuel generalizing n with
  | zero => simp [digits]
  | succ fuel ih =>
    intro c hc
    unfold digits at hc
    split at hc
    · rw [mem_singleton.mp hc]
      exact (digit_facts n (by assumption)).1
    rw [mem_append, mem_singleton] at hc
    obtain h | rfl := hc
    · exact ih _ c h
    · exact (digit_facts (n % 10) (by omega)).1

theorem digits_ne_nil (fuel n : Nat) : digits (fuel + 1) n ≠ [] := by
  unfold digits
  split <;> simp

theorem digits_value (fuel n : Nat) (h : n < fuel) :
    (digits fuel n).foldlM (fun value c => (digitValue c).map (fun digit => value * 10 + digit)) 0 =
      some n := by
  induction fuel generalizing n with
  | zero => omega
  | succ fuel ih =>
    unfold digits
    split
    · have hd := (digit_facts n (by assumption)).2
      generalize (0x30 + n).toUInt8 = c at hd ⊢
      simp [hd]
    · have hd := (digit_facts (n % 10) (by omega)).2
      generalize (0x30 + n % 10).toUInt8 = c at hd ⊢
      rw [foldlM_append, ih (n / 10) (by omega)]
      simp [hd]
      omega

theorem isDigit_ne {c : UInt8} (h : isDigit c = true) : c ≠ 0x5f ∧ c ≠ 0x2b ∧ c ≠ 0x2d ∧
    c ≠ comma ∧ c ≠ space ∧ c ≠ newline := by
  refine ⟨?_, ?_, ?_, ?_, ?_, ?_⟩ <;> (rintro rfl; exact absurd h (by decide))

theorem decimal_isDigit (n : Nat) : ∀ c ∈ decimal n, isDigit c = true := digits_isDigit _ n

theorem parseMagnitude_decimal (n : Nat) : parseMagnitude (decimal n) = some n := by
  have hd := decimal_isDigit n
  have hne : decimal n ≠ [] := digits_ne_nil n n
  have hfilter : (decimal n).filter (fun c => c ≠ 0x5f) = decimal n := by
    apply filter_eq_self.mpr
    intro c hc
    simpa using (isDigit_ne (hd c hc)).1
  have hends : ¬ ((decimal n).head? = none ∨ (decimal n).head? = some 0x5f ∨
      (decimal n).getLast? = some 0x5f) := by
    rintro (h | h | h)
    · exact hne (head?_eq_none_iff.mp h)
    · exact (isDigit_ne (hd _ (mem_of_head? h))).1 rfl
    · exact (isDigit_ne (hd _ (mem_of_getLast? h))).1 rfl
  unfold parseMagnitude
  rw [if_neg hends, hfilter]
  exact digits_value (n + 1) n (Nat.lt_succ_self n)

theorem parseInt_decimal (limit n : Nat) (h : n < limit) : parseInt limit (decimal n) = some n := by
  have hm := parseMagnitude_decimal n
  unfold parseInt
  split
  · next rest he =>
    have hmem : (0x2b : UInt8) ∈ decimal n := he ▸ mem_cons_self
    exact absurd rfl (isDigit_ne (decimal_isDigit n _ hmem)).2.1
  · next rest he =>
    have hmem : (0x2d : UInt8) ∈ decimal n := he ▸ mem_cons_self
    exact absurd rfl (isDigit_ne (decimal_isDigit n _ hmem)).2.2.1
  · simp [hm, h]

theorem parseU32_decimal {n : Nat} (h : n < u32Limit) : parseU32 (decimal n) = .ok n := by
  unfold parseU32
  rw [parseInt_decimal u32Limit n h]

theorem decimal_no (n : Nat) : comma ∉ decimal n ∧ space ∉ decimal n ∧ newline ∉ decimal n := by
  have hd := decimal_isDigit n
  refine ⟨?_, ?_, ?_⟩
  · intro h
    exact (isDigit_ne (hd _ h)).2.2.2.1 rfl
  · intro h
    exact (isDigit_ne (hd _ h)).2.2.2.2.1 rfl
  · intro h
    exact (isDigit_ne (hd _ h)).2.2.2.2.2 rfl

theorem parseRange_printRange (brief : Bool) {start count : Nat} (hs : start < u32Limit)
    (hc : count < u32Limit) : parseRange (printRange brief start count) = .ok ⟨start, count⟩ := by
  have hno := (decimal_no start).1
  unfold printRange
  split
  · next h =>
    unfold parseRange
    rw [if_neg (by simpa using hno), parseU32_decimal hs, h.2]
    rfl
  have hne : ∀ c ∈ decimal start, (c != comma) = true := by
    intro c hm
    simp only [bne_iff_ne, ne_eq]
    rintro rfl
    exact hno hm
  have htake : (decimal start ++ [comma] ++ decimal count).takeWhile (fun c => c != comma) =
      decimal start := by
    rw [append_assoc, takeWhile_append_of_pos hne]
    simp
  have hdrop : ((decimal start ++ [comma] ++ decimal count).dropWhile
      (fun c => c != comma)).drop 1 = decimal count := by
    rw [append_assoc, dropWhile_append_of_pos hne]
    simp
  unfold parseRange
  rw [if_pos (by simp), htake, hdrop, parseU32_decimal hs, parseU32_decimal hc]
  rfl

theorem printRange_no (brief : Bool) (start count : Nat) :
    space ∉ printRange brief start count ∧ newline ∉ printRange brief start count := by
  obtain ⟨-, hs₁, hn₁⟩ := decimal_no start
  obtain ⟨-, hs₂, hn₂⟩ := decimal_no count
  have hcs : space ≠ comma := by decide
  have hcn : newline ≠ comma := by decide
  unfold printRange
  split
  · exact ⟨hs₁, hn₁⟩
  · simp [hs₁, hs₂, hn₁, hn₂, hcs, hcn]

theorem textBefore_append {stop : Bytes} {name : Bytes} (rest : Bytes)
    (h : ∀ c ∈ name, stop.head? ≠ some c) (hstop : stop ≠ []) :
    textBefore stop (name ++ rest) = (textBefore stop rest).map (fun out => name ++ out) := by
  induction name with
  | nil => simp
  | cons c name ih =>
    have hhead : stop.isPrefixOf (c :: (name ++ rest)) = false := by
      cases stop with
      | nil => exact absurd rfl hstop
      | cons d stop =>
        have hne := h c mem_cons_self
        simp only [head?_cons, ne_eq, Option.some.injEq] at hne
        simp [isPrefixOf, hne]
    have hrest := ih (fun d hd => h d (mem_cons_of_mem _ hd))
    simp [textBefore, hhead, hrest, Function.comp_def]

theorem textBefore_stop (stop rest : Bytes) (hstop : stop ≠ []) :
    textBefore stop (stop ++ rest) = some [] := by
  cases stop with
  | nil => exact absurd rfl hstop
  | cons d stop => simp [textBefore]

theorem space_not_mem_range {sign : UInt8} (hsign : space ≠ sign) (brief : Bool) (start count : Nat) :
    space ∉ sign :: printRange brief start count := by
  simp [hsign, (printRange_no brief start count).1]

theorem textBefore_ranges (h : PrintedHunk) (rest : Bytes) :
    textBefore (ascii " @@") (h.ranges ++ (ascii " @@" ++ rest)) = some h.ranges := by
  have hstop : ascii " @@" ≠ [] := by decide
  have hhead : (ascii " @@").head? = some space := rfl
  have hfree {name : Bytes} (hn : space ∉ name) : ∀ c ∈ name, (ascii " @@").head? ≠ some c := by
    intro c hc he
    rw [hhead, Option.some.injEq] at he
    exact hn (he ▸ hc)
  have hminus := space_not_mem_range (show space ≠ 0x2d by decide) h.oldBrief h.oldStart h.oldCount
  have hplus := space_not_mem_range (show space ≠ 0x2b by decide) h.newBrief h.newStart h.newCount
  unfold PrintedHunk.ranges
  generalize printRange h.newBrief h.newStart h.newCount = new at hplus ⊢
  have hspace (s : Bytes) : textBefore (ascii " @@") (space :: 0x2b :: s) =
      (textBefore (ascii " @@") (0x2b :: s)).map (fun out => space :: out) := by
    rfl
  have h₁ := textBefore_append (space :: 0x2b :: (new ++ (ascii " @@" ++ rest))) (hfree hminus) hstop
  have h₂ := textBefore_append (ascii " @@" ++ rest) (hfree hplus) hstop
  rw [textBefore_stop _ _ hstop] at h₂
  rw [hspace, show (0x2b : UInt8) :: (new ++ (ascii " @@" ++ rest)) =
    (0x2b :: new) ++ (ascii " @@" ++ rest) from rfl, h₂] at h₁
  simpa using h₁

theorem splitOn_ranges (h : PrintedHunk) : h.ranges.splitOn space =
    [0x2d :: printRange h.oldBrief h.oldStart h.oldCount,
      0x2b :: printRange h.newBrief h.newStart h.newCount] := by
  have hminus := space_not_mem_range (show space ≠ 0x2d by decide) h.oldBrief h.oldStart h.oldCount
  have hplus := space_not_mem_range (show space ≠ 0x2b by decide) h.newBrief h.newStart h.newCount
  unfold PrintedHunk.ranges
  generalize printRange h.newBrief h.newStart h.newCount = new at hplus ⊢
  have hsplit := splitOn_append_cons_self_of_not_mem hminus (0x2b :: new)
  rw [splitOn_eq_singleton hplus] at hsplit
  simpa using hsplit

/-- The starts and counts of a Hunk are 32-bit numbers. -/
structure PrintedHunk.Numbers (h : PrintedHunk) : Prop where
  oldStart : h.oldStart < u32Limit
  oldCount : h.oldCount < u32Limit
  newStart : h.newStart < u32Limit
  newCount : h.newCount < u32Limit

variable {h : PrintedHunk}

theorem parseHunkHeader_header (hn : h.Numbers) :
    parseHunkHeader h.header = .ok ⟨h.oldStart, h.oldCount, h.newStart, h.newCount⟩ := by
  have hpre : (ascii "@@ ").isPrefixOf h.header = true := by
    simp [PrintedHunk.header]
  have hdrop : h.header.drop 3 = h.ranges ++ (ascii " @@" ++ h.heading) := by
    simp [PrintedHunk.header, ascii]
  have hold := parseRange_printRange h.oldBrief hn.oldStart hn.oldCount
  have hnew := parseRange_printRange h.newBrief hn.newStart hn.newCount
  unfold parseHunkHeader
  rw [hpre, if_neg (by simp), hdrop, textBefore_ranges]
  dsimp only
  rw [splitOn_ranges]
  change (do
    let old ← parseRange _
    let new ← parseRange _
    return (⟨old.start, old.count, new.start, new.count⟩ : HunkNumbers)) = _
  rw [hold, hnew]
  rfl

theorem splitOn_joinRows {rows : List Bytes} (h : ∀ row ∈ rows, newline ∉ row) :
    (joinRows rows).splitOn newline = rows ++ [[]] := by
  induction rows with
  | nil => rfl
  | cons row rows ih =>
    have hrow := h row mem_cons_self
    have hrest := ih (fun r hr => h r (mem_cons_of_mem _ hr))
    have hsplit := splitOn_append_cons_self_of_not_mem hrow (joinRows rows)
    rw [hrest] at hsplit
    simpa [joinRows] using hsplit

theorem newline_not_mem_append {xs ys : Bytes} (hx : newline ∉ xs) (hy : newline ∉ ys) :
    newline ∉ xs ++ ys := by
  rw [mem_append, not_or]
  exact ⟨hx, hy⟩

theorem newline_not_mem_of_all {word : Bytes} (h : word.all (fun b => b != newline) = true) :
    newline ∉ word := by
  intro hmem
  exact absurd (all_eq_true.mp h newline hmem) (by decide)

variable {side : Bytes}

theorem printName_no_newline (hs : newline ∉ side) (path : Bytes) : newline ∉ printName side path := by
  rw [printName_eq]
  cases hq : needsQuotes true path with
  | true =>
    have hescape : newline ∉ path.flatMap (gitEscape true) := by
      intro h
      exact absurd (escaped_printable true path _ h) (by decide)
    have hquote : newline ∉ [quote] := by decide
    rw [gitName_quoted hq]
    exact newline_not_mem_append
      (newline_not_mem_append (newline_not_mem_append hquote hs) hescape) hquote
  | false =>
    rw [gitName_plain hq]
    apply newline_not_mem_append hs
    intro h
    exact (plain_bytes hq _ h).2.2.2 rfl

theorem PrintedLine.rows_no_newline {l : PrintedLine} (h : newline ∉ l.text) :
    ∀ row ∈ l.rows, newline ∉ row := by
  have hmark : newline ≠ mark l.kind := by
    cases l.kind <;> decide
  have hmarker : newline ∉ noNewlineMarker := newline_not_mem_of_all rfl
  intro row hrow
  unfold PrintedLine.rows at hrow
  rw [mem_cons] at hrow
  obtain rfl | hrow := hrow
  · simp [hmark, h]
  split at hrow
  · rw [mem_singleton.mp hrow]
    exact hmarker
  · simp at hrow

theorem PrintedHunk.ranges_no_newline (h : PrintedHunk) : newline ∉ h.ranges := by
  have hold := (printRange_no h.oldBrief h.oldStart h.oldCount).2
  have hnew := (printRange_no h.newBrief h.newStart h.newCount).2
  have hminus : newline ∉ [(0x2d : UInt8)] := by decide
  have hplus : newline ∉ [space, 0x2b] := by decide
  exact newline_not_mem_append (newline_not_mem_append (newline_not_mem_append hminus hold) hplus) hnew

theorem PrintedHunk.header_no_newline (hh : newline ∉ h.heading) : newline ∉ h.header := by
  have hopen : newline ∉ ascii "@@ " := by decide
  have hclose : newline ∉ ascii " @@" := by decide
  exact newline_not_mem_append
    (newline_not_mem_append (newline_not_mem_append hopen h.ranges_no_newline) hclose) hh

theorem PrintedHunk.rows_no_newline (hw : h.WellFormed) : ∀ row ∈ h.rows, newline ∉ row := by
  intro row hrow
  unfold PrintedHunk.rows at hrow
  rw [mem_cons, mem_flatMap] at hrow
  obtain rfl | ⟨l, hl, hrow⟩ := hrow
  · exact header_no_newline hw.heading
  · exact PrintedLine.rows_no_newline (hw.texts l hl) row hrow

variable (change : FileChange)

theorem FileChange.statusRows_no_newline : ∀ row ∈ change.statusRows, newline ∉ row := by
  intro row hrow
  cases change with
  | added path | removed path =>
    rw [mem_singleton.mp hrow]
    exact newline_not_mem_of_all rfl
  | modified path => simp [statusRows] at hrow
  | renamed old new =>
    simp only [statusRows, mem_cons, not_mem_nil, or_false] at hrow
    obtain rfl | rfl := hrow
    · exact newline_not_mem_append (newline_not_mem_of_all rfl) (printName_no_newline (by simp) old)
    · exact newline_not_mem_append (newline_not_mem_of_all rfl) (printName_no_newline (by simp) new)

theorem printPath_no_newline (hs : newline ∉ side) (name : Option Bytes) :
    newline ∉ printPath side name := by
  cases name with
  | none =>
    exact newline_not_mem_of_all rfl
  | some path =>
    apply newline_not_mem_append (printName_no_newline hs path)
    split <;> decide

theorem FileChange.pathRows_no_newline : ∀ row ∈ change.pathRows, newline ∉ row := by
  intro row hrow
  simp only [pathRows, mem_cons, not_mem_nil, or_false] at hrow
  obtain rfl | rfl := hrow
  · exact newline_not_mem_append (newline_not_mem_of_all rfl) (printPath_no_newline (by decide) _)
  · exact newline_not_mem_append (newline_not_mem_of_all rfl) (printPath_no_newline (by decide) _)

theorem FileChange.gitOperands_no_newline : newline ∉ change.gitOperands := by
  have hold := printName_no_newline (show newline ∉ ascii "a/" by decide) change.operands.1
  have hnew := printName_no_newline (show newline ∉ ascii "b/" by decide) change.operands.2
  exact newline_not_mem_append (newline_not_mem_append hold (by decide)) hnew

theorem PrintedFile.rows_no_newline {f : PrintedFile} (hw : f.WellFormed) :
    ∀ row ∈ f.rows, newline ∉ row := by
  intro row hrow
  unfold PrintedFile.rows at hrow
  simp only [cons_append, mem_cons, mem_append, mem_flatMap] at hrow
  obtain rfl | (hrow | hrow) | ⟨h, hh, hrow⟩ := hrow
  · exact newline_not_mem_append (newline_not_mem_of_all rfl) f.change.gitOperands_no_newline
  · exact f.change.statusRows_no_newline row hrow
  · split at hrow
    · simp at hrow
    · exact f.change.pathRows_no_newline row hrow
  · exact PrintedHunk.rows_no_newline (hw.hunks h hh) row hrow

/-- The parser sees the printed rows, and an empty one behind the last newline. -/
theorem splitOn_print {files : List PrintedFile} (hw : ∀ f ∈ files, f.WellFormed) :
    (print files).splitOn newline = files.flatMap PrintedFile.rows ++ [[]] := by
  apply splitOn_joinRows
  intro row hrow
  obtain ⟨f, hf, hrow⟩ := mem_flatMap.mp hrow
  exact PrintedFile.rows_no_newline (hw f hf) row hrow

end Bbr.Diff
