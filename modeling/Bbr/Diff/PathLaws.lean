import Bbr.Diff.Quoting

/-!
# Printed paths are read back

A quoted path is decoded. A plain path comes back from the place it was printed in, except where its
own text looks like the syntax around it.
-/
namespace Bbr.Diff

open List Option

variable {quotePath : Bool} {side path : Bytes}

theorem gitName_quoted (hq : needsQuotes quotePath path = true) (side : Bytes) :
    gitName quotePath side path = quotedName quotePath side path := if_pos hq

section

variable (hq : needsQuotes quotePath path = false)
include hq

theorem gitName_plain (side : Bytes) :
    gitName quotePath side path = side ++ path := if_neg (by simp [hq])

theorem plain_bytes : ∀ b ∈ path, b ≠ quote ∧ b ≠ backslash ∧ b ≠ tab ∧ b ≠ newline := by
  intro b hb
  have hs := any_eq_false.mp hq b hb
  exact gitEscapes_ne (by simpa using hs)

theorem unquoted_head : path.head? ≠ some quote := by
  intro h
  exact (plain_bytes hq quote (mem_of_head? h)).1 rfl

theorem normalize_plain (hr : RepositoryRelative path) : normalize path = some path := by
  simp [normalize, unquoted_head hq, (isRepositoryRelative_iff path).mpr hr]

end

theorem side_bytes (hs : IsSide side) :
    ∀ c ∈ side, c ≠ tab ∧ c ≠ quote ∧ c ≠ backslash ∧ c ≠ space := by
  obtain ⟨x, rfl, rfl | rfl⟩ := hs <;> simp [slash, tab, quote, backslash, space]

theorem escaped_no_tab (quotePath : Bool) (path : Bytes) :
    tab ∉ path.flatMap (gitEscape quotePath) := by
  intro h
  exact absurd (escaped_printable quotePath path _ h) (by decide)

theorem gitName_no_tab (hs : IsSide side) (path : Bytes) :
    ∀ c ∈ gitName quotePath side path, (c != tab) = true := by
  have hquote : quote ≠ tab := by decide
  have hside := fun c hc => (side_bytes hs c hc).1
  intro c hc
  rw [bne_iff_ne, ne_eq]
  rintro rfl
  cases hq : needsQuotes quotePath path with
  | true =>
    rw [gitName_quoted hq] at hc
    simp only [quotedName, mem_append, mem_singleton] at hc
    obtain ((h | h) | h) | h := hc
    · exact hquote h.symm
    · exact hside tab h rfl
    · exact escaped_no_tab quotePath path h
    · exact hquote h.symm
  | false =>
    rw [gitName_plain hq, mem_append] at hc
    obtain h | h := hc
    · exact hside tab h rfl
    · exact (plain_bytes hq tab h).2.2.1 rfl

/-- What may stand behind the name of a path line: nothing, or a field behind a tab. -/
def TabField (field : Bytes) : Prop := field = [] ∨ ∃ more, field = tab :: more

variable {name field : Bytes}

theorem takeWhile_field (hn : ∀ c ∈ name, (c != tab) = true) (hf : TabField field) :
    (name ++ field).takeWhile (fun c => c != tab) = name := by
  rw [takeWhile_append_of_pos hn]
  obtain rfl | ⟨more, rfl⟩ := hf
  · simp
  · simp

theorem stripPrefix_append (pre rest : Bytes) : stripPrefix (pre ++ rest) pre = rest := by
  simp [stripPrefix]

theorem normalizeDiffPath_quoted (hs : IsSide side) (hf : TabField field)
    (hq : needsQuotes quotePath path = true) (hr : RepositoryRelative path) :
    normalizeDiffPath (gitName quotePath side path ++ field) = ⟨path, true⟩ := by
  have hstrip : stripDiffPath (gitName quotePath side path ++ field) =
      quotedName quotePath side path := by
    unfold stripDiffPath
    rw [takeWhile_field (gitName_no_tab hs path) hf, gitName_quoted hq]
    dsimp only
    split
    · rfl
    · rfl
  have hne : quotedName quotePath side path ≠ devNull := by
    intro h
    exact absurd (cons.inj h).1 (by decide)
  simp [normalizeDiffPath, hstrip, hne, normalizePathOrOriginal, normalize_quotedName hs hr]

/-- What is left of a plain path after both side prefixes were tried. -/
theorem stripDiffPath_plain (hs : IsSide side) (hf : TabField field)
    (hq : needsQuotes quotePath path = false) :
    stripDiffPath (gitName quotePath side path ++ field) =
      if side = ascii "a/" then stripPrefix path (ascii "b/") else path := by
  have hne : side ++ path ≠ devNull := by
    obtain ⟨x, rfl, hx⟩ := hs
    intro h
    have hhead := (cons.inj h).1
    obtain rfl | rfl := hx <;> exact absurd hhead (by decide)
  unfold stripDiffPath
  rw [takeWhile_field (gitName_no_tab hs path) hf, gitName_plain hq, if_neg hne]
  obtain ⟨x, rfl, rfl | rfl⟩ := hs
  · exact congrArg (fun p => stripPrefix p (ascii "b/")) (stripPrefix_append (ascii "a/") path)
  · exact stripPrefix_append (ascii "b/") path

variable {rest : Bytes}

theorem normalizeDiffPath_path (h : (stripDiffPath rest).head? ≠ some quote) :
    (normalizeDiffPath rest).path = stripDiffPath rest := by
  unfold normalizeDiffPath normalizePathOrOriginal
  dsimp only
  split
  · rfl
  · cases hr : isRepositoryRelative (stripDiffPath rest) with
    | true | false => simp [normalize, h, hr]

theorem normalizeDiffPath_plain (hs : IsSide side) (hf : TabField field)
    (hq : needsQuotes quotePath path = false) (hr : RepositoryRelative path)
    (hkept : side = ascii "a/" → (ascii "b/").isPrefixOf path = false) :
    normalizeDiffPath (gitName quotePath side path ++ field) = ⟨path, true⟩ := by
  have hstrip : stripDiffPath (gitName quotePath side path ++ field) = path := by
    rw [stripDiffPath_plain hs hf hq]
    split
    · simp [stripPrefix, hkept (by assumption)]
    · rfl
  simp [normalizeDiffPath, hstrip, normalizePathOrOriginal, normalize_plain hq hr]

theorem normalizeDiffPath_misread (hf : TabField field) (hq : needsQuotes quotePath path = false)
    (hb : (ascii "b/").isPrefixOf path = true) :
    (normalizeDiffPath (gitName quotePath (ascii "a/") path ++ field)).path ≠ path := by
  obtain ⟨rest, rfl⟩ := isPrefixOf_iff_prefix.mp hb
  have hstrip : stripDiffPath (gitName quotePath (ascii "a/") (ascii "b/" ++ rest) ++ field) = rest := by
    rw [stripDiffPath_plain isSide_old hf hq, if_pos rfl, stripPrefix_append]
  have hrest : needsQuotes quotePath rest = false := by
    unfold needsQuotes at hq ⊢
    rw [any_append, Bool.or_eq_false_iff] at hq
    exact hq.2
  rw [normalizeDiffPath_path (by rw [hstrip]; exact unquoted_head hrest), hstrip]
  intro h
  have hlen := congrArg length h
  rw [length_append] at hlen
  exact absurd hlen (by simp [ascii])

/-- A name that is not cut at a space. -/
def WholeName (quotePath : Bool) (path : Bytes) : Prop :=
  needsQuotes quotePath path = true ∨ space ∉ path

theorem WholeName.of_not (h : ¬ WholeName quotePath path) :
    needsQuotes quotePath path = false ∧ space ∈ path := by
  unfold WholeName at h
  rw [not_or, Classical.not_not] at h
  exact ⟨by simpa using h.1, h.2⟩

def operandsOf (quotePath : Bool) (old new : Bytes) : Bytes :=
  gitName quotePath (ascii "a/") old ++ space :: gitName quotePath (ascii "b/") new

theorem gitName_head (hs : IsSide side) (path : Bytes) :
    ∃ c rest, gitName quotePath side path = c :: rest ∧ c ≠ space := by
  obtain ⟨x, rfl, hx⟩ := hs
  cases hq : needsQuotes quotePath path with
  | true => exact ⟨quote, _, (gitName_quoted hq _).trans (quotedName_eq _ x path), by decide⟩
  | false =>
    refine ⟨x, slash :: path, gitName_plain hq _, ?_⟩
    obtain rfl | rfl := hx <;> decide

theorem plain_no_space (hs : IsSide side) (h : space ∉ path) :
    ∀ c ∈ side ++ path, (c != space) = true := by
  intro c hc
  rw [bne_iff_ne, ne_eq]
  rintro rfl
  obtain hm | hm := mem_append.mp hc
  · exact (side_bytes hs space hm).2.2.2 rfl
  · exact h hm

def Stops (rest : Bytes) : Prop := rest = [] ∨ ∃ more, rest = space :: more

theorem takeWhile_stops (hn : ∀ c ∈ name, (c != space) = true) (hr : Stops rest) :
    (name ++ rest).takeWhile (fun c => c != space) = name := by
  rw [takeWhile_append_of_pos hn]
  obtain rfl | ⟨more, rfl⟩ := hr
  · simp
  · simp

theorem dropWhile_stops (hn : ∀ c ∈ name, (c != space) = true) (hr : Stops rest) :
    (name ++ rest).dropWhile (fun c => c != space) = rest := by
  rw [dropWhile_append_of_pos hn]
  obtain rfl | ⟨more, rfl⟩ := hr
  · simp
  · simp

variable {c : UInt8}

theorem closingQuote_plain (hq : c ≠ quote) (hb : c ≠ backslash) (rest : Bytes) :
    closingQuote false (c :: rest) = (closingQuote false rest).map (fun n => n + 1) := by
  have hf : (c == backslash) = false := by simpa using hb
  simp [closingQuote, hq, hf]

theorem closingQuote_escaped (c : UInt8) (rest : Bytes) : closingQuote false (backslash :: c :: rest) =
      (closingQuote false rest).map (fun n => n + 2) := by
  have hb : backslash ≠ quote := by decide
  simp [closingQuote, hb, Function.comp_def]

theorem closingQuote_gitEscape (quotePath : Bool) (b : UInt8) (rest : Bytes) :
    closingQuote false (gitEscape quotePath b ++ rest) =
      (closingQuote false rest).map (fun n => n + (gitEscape quotePath b).length) := by
  unfold gitEscape
  cases hb : gitEscapes quotePath b with
  | true =>
    cases he : escapeLetter b with
    | some e => exact closingQuote_escaped e rest
    | none =>
      have hd := octal_ne b
      simp only [octalDigits, mem_cons, not_mem_nil, or_false, forall_eq_or_imp, forall_eq] at hd
      obtain ⟨-, ⟨hq₂, hb₂⟩, hq₃, hb₃⟩ := hd
      have h₂ := closingQuote_plain hq₂ hb₂ ((0x30 + b.toNat % 8).toUInt8 :: rest)
      have h₃ := closingQuote_plain hq₃ hb₃ rest
      calc closingQuote false (backslash :: octalDigits b ++ rest)
          = ((closingQuote false (_ :: _ :: rest))).map (fun n => n + 2) := closingQuote_escaped _ _
        _ = (closingQuote false rest).map (fun n => n + 4) := by
            rw [h₂, h₃, Option.map_map, Option.map_map]
            rfl
  | false =>
    obtain ⟨hq, hne, -⟩ := gitEscapes_ne hb
    exact closingQuote_plain hq hne rest

theorem closingQuote_escaped_text (quotePath : Bool) (path rest : Bytes) :
    closingQuote false (path.flatMap (gitEscape quotePath) ++ quote :: rest) =
      some ((path.flatMap (gitEscape quotePath)).length + 1) := by
  induction path with
  | nil => simp [closingQuote]
  | cons b path ih =>
    rw [flatMap_cons, append_assoc, closingQuote_gitEscape, ih, length_append, map_some]
    congr 1
    omega

theorem closingQuote_name (quotePath : Bool) {x : UInt8} (hx : x = 0x61 ∨ x = 0x62)
    (path rest : Bytes) :
    closingQuote false (x :: slash :: (path.flatMap (gitEscape quotePath) ++ quote :: rest)) =
      some ((path.flatMap (gitEscape quotePath)).length + 3) := by
  have hplain : x ≠ quote ∧ x ≠ backslash := by
    obtain rfl | rfl := hx <;> decide
  rw [closingQuote_plain hplain.1 hplain.2, closingQuote_plain (by decide) (by decide),
    closingQuote_escaped_text]
  rfl

variable {input : Bytes}

theorem parseGitOperand_plain {tail : Bytes}
    (h : input.dropWhile (fun c => c == space) = c :: tail) (hc : c ≠ quote) :
    parseGitOperand input = some ⟨(c :: tail).takeWhile (fun c => c != space),
      (c :: tail).dropWhile (fun c => c != space)⟩ := by
  unfold parseGitOperand
  rw [h]
  dsimp only
  rw [if_pos hc]

theorem parseGitOperand_quoted (hs : IsSide side) (hq : needsQuotes quotePath path = true)
    (h : input.dropWhile (fun c => c == space) = gitName quotePath side path ++ rest) :
    parseGitOperand input = some ⟨gitName quotePath side path, rest⟩ := by
  obtain ⟨x, rfl, hx⟩ := hs
  have hsplit : gitName quotePath [x, slash] path ++ rest =
      quote :: x :: slash :: (path.flatMap (gitEscape quotePath) ++ quote :: rest) := by
    rw [gitName_quoted hq, quotedName_eq]
    simp
  unfold parseGitOperand
  rw [h, hsplit]
  dsimp only
  rw [if_neg (by simp), closingQuote_name quotePath hx, gitName_quoted hq, quotedName_eq, map_some]
  congr 2
  · simp [take_append, take_of_length_le]
  · simp [drop_append]

/-- A whole operand ends at the end of the line or at the next space. -/
theorem parseGitOperand_whole (hs : IsSide side) (hw : WholeName quotePath path) (hr : Stops rest)
    (h : input.dropWhile (fun c => c == space) = gitName quotePath side path ++ rest) :
    parseGitOperand input = some ⟨gitName quotePath side path, rest⟩ := by
  cases hq : needsQuotes quotePath path with
  | true => exact parseGitOperand_quoted hs hq h
  | false =>
    have hspace : space ∉ path := hw.resolve_left (by simp [hq])
    have hn := plain_no_space hs hspace
    rw [gitName_plain hq] at h ⊢
    obtain ⟨x, rfl, hx⟩ := hs
    have hx' : x ≠ quote := by
      obtain rfl | rfl := hx <;> decide
    rw [parseGitOperand_plain h hx']
    congr 2
    · exact takeWhile_stops hn hr
    · exact dropWhile_stops hn hr

theorem normalizeGitOperand_name (hs : IsSide side) (hr : RepositoryRelative path) :
    normalizeGitOperand (gitName quotePath side path) side = ⟨path, true⟩ := by
  cases hq : needsQuotes quotePath path with
  | true =>
    have hhead : (quotedName quotePath side path).head? = some quote := rfl
    rw [gitName_quoted hq]
    simp [normalizeGitOperand, hhead, normalizePathOrOriginal, normalize_quotedName hs hr]
  | false =>
    have hhead : (side ++ path).head? ≠ some quote := by
      obtain ⟨x, rfl, hx⟩ := hs
      intro h
      have hx' : x = quote := some.inj h
      obtain rfl | rfl := hx <;> exact absurd hx' (by decide)
    unfold normalizeGitOperand
    rw [gitName_plain hq, if_neg hhead, stripPrefix_append, (isRepositoryRelative_iff path).mpr hr]

theorem dropWhile_name (quotePath : Bool) (hs : IsSide side) (path rest : Bytes) :
    (gitName quotePath side path ++ rest).dropWhile (fun c => c == space) =
      gitName quotePath side path ++ rest := by
  obtain ⟨c, tail, h, hc⟩ := gitName_head hs path
  rw [h]
  simp [hc]

theorem dropWhile_space (s : Bytes) :
    (space :: s).dropWhile (fun c => c == space) = s.dropWhile (fun c => c == space) := by
  simp

variable {old new : Bytes}

theorem parseGitPaths_whole (hold : RepositoryRelative old) (hnew : RepositoryRelative new)
    (hwo : WholeName quotePath old) (hwn : WholeName quotePath new) :
    parseGitPaths (operandsOf quotePath old new) = ⟨old, new, true, true⟩ := by
  have hfirst : parseGitOperand (operandsOf quotePath old new) =
      some ⟨gitName quotePath (ascii "a/") old, space :: gitName quotePath (ascii "b/") new⟩ :=
    parseGitOperand_whole isSide_old hwo (.inr ⟨_, rfl⟩) (dropWhile_name quotePath isSide_old old _)
  have hsecond : parseGitOperand (space :: gitName quotePath (ascii "b/") new) =
      some ⟨gitName quotePath (ascii "b/") new, []⟩ := by
    apply parseGitOperand_whole isSide_new hwn (.inl rfl)
    have hname := dropWhile_name quotePath isSide_new new []
    rw [append_nil] at hname
    rw [dropWhile_space, hname, append_nil]
  unfold parseGitPaths
  simp [hfirst, hsecond, normalizeGitOperand_name isSide_old hold,
    normalizeGitOperand_name isSide_new hnew]

theorem parseGitPaths_cases (operands : Bytes) : parseGitPaths operands = invalidGitPaths operands ∨
      ∃ first second, parseGitOperand operands = some first ∧ parseGitOperand first.rest = some second ∧
        (parseGitPaths operands).old = (normalizeGitOperand first.value (ascii "a/")).path ∧
        (parseGitPaths operands).new = (normalizeGitOperand second.value (ascii "b/")).path := by
  unfold parseGitPaths
  cases hf : parseGitOperand operands with
  | none => exact .inl rfl
  | some first =>
    cases hs : parseGitOperand first.rest with
    | none => simp [hs]
    | some second =>
      by_cases hall : second.rest.all (fun c => c == space) = false
      · simp [hs, hall]
      · exact .inr ⟨first, second, rfl, hs, by simp [hs, hall], by simp [hs, hall]⟩

theorem normalizeGitOperand_no_space {operand : Bytes} (hq : operand.head? ≠ some quote)
    (hs : space ∉ operand) (pre : Bytes) : space ∉ (normalizeGitOperand operand pre).path := by
  unfold normalizeGitOperand stripPrefix
  rw [if_neg hq]
  dsimp only
  split
  · intro h
    exact hs (mem_of_mem_drop h)
  · exact hs

theorem space_not_mem_takeWhile (s : Bytes) : space ∉ s.takeWhile (fun c => c != space) := by
  intro h
  have hall := all_eq_true.mp (all_takeWhile (l := s) (p := fun c => c != space)) _ h
  simp at hall

/-- Where the line cannot be split the whole line stands for the paths. -/
theorem operandsOf_ne (hq : needsQuotes quotePath path = false) (h : path = old ∨ path = new) :
    operandsOf quotePath old new ≠ path := by
  intro he
  have hlen := congrArg length he
  rw [operandsOf, length_append, length_cons] at hlen
  obtain rfl | rfl := h
  · rw [gitName_plain hq, length_append] at hlen
    omega
  · rw [gitName_plain hq (ascii "b/"), length_append] at hlen
    omega

theorem parseGitPaths_old_ne (hq : needsQuotes quotePath old = false) (hs : space ∈ old) :
    (parseGitPaths (operandsOf quotePath old new)).old ≠ old := by
  obtain hi | ⟨first, second, hf, -, hold, -⟩ := parseGitPaths_cases (operandsOf quotePath old new)
  · rw [hi]
    exact operandsOf_ne hq (.inl rfl)
  have hdrop : (operandsOf quotePath old new).dropWhile (fun c => c == space) = 0x61 :: slash ::
      (old ++ space :: gitName quotePath (ascii "b/") new) := by
    rw [operandsOf, dropWhile_name _ isSide_old, gitName_plain hq]
    rfl
  have hplain := parseGitOperand_plain hdrop (by decide)
  obtain rfl := some.inj (hf.symm.trans hplain)
  have hhead : (0x61 :: slash :: (old ++ space :: gitName quotePath (ascii "b/") new)
      |>.takeWhile (fun c => c != space)).head? ≠ some quote := by
    have hx : (0x61 : UInt8) ≠ space ∧ (0x61 : UInt8) ≠ quote := by decide
    simp [hx]
  have hno := normalizeGitOperand_no_space hhead (space_not_mem_takeWhile _) (ascii "a/")
  rw [hold]
  intro he
  rw [← he] at hs
  exact hno hs

theorem parseGitOperand_unquoted {op : GitOperand} (hq : quote ∉ input)
    (h : parseGitOperand input = some op) :
    op.value.head? ≠ some quote ∧ space ∉ op.value ∧ quote ∉ op.rest := by
  have hsub (c : UInt8) (hc : c ∈ input.dropWhile (fun c => c == space)) : c ∈ input :=
    (dropWhile_sublist _).mem hc
  cases hd : input.dropWhile (fun c => c == space) with
  | nil => simp [parseGitOperand, hd] at h
  | cons c tail =>
    have hmem (d : UInt8) (hd' : d ∈ c :: tail) : d ≠ quote := by
      rintro rfl
      exact hq (hsub _ (hd ▸ hd'))
    rw [parseGitOperand_plain hd (hmem c mem_cons_self)] at h
    obtain rfl := some.inj h
    refine ⟨?_, space_not_mem_takeWhile _, ?_⟩
    · intro hh
      exact hmem _ ((takeWhile_sublist _).mem (mem_of_head? hh)) rfl
    · intro hm
      exact hmem _ ((dropWhile_sublist _).mem hm) rfl

theorem gitName_no_quote (hq : needsQuotes quotePath path = false) (hs : IsSide side) :
    quote ∉ gitName quotePath side path := by
  rw [gitName_plain hq, mem_append]
  rintro (h | h)
  · exact (side_bytes hs quote h).2.1 rfl
  · exact (plain_bytes hq quote h).1 rfl

theorem parseGitPaths_new_ne (hq : needsQuotes quotePath new = false) (hs : space ∈ new) :
    (parseGitPaths (operandsOf quotePath old new)).new ≠ new := by
  obtain hi | ⟨first, second, hf, hsec, -, hnew⟩ := parseGitPaths_cases (operandsOf quotePath old new)
  · rw [hi]
    exact operandsOf_ne hq (.inr rfl)
  have hsecond : quote ∉ space :: gitName quotePath (ascii "b/") new := by
    have hne : quote ≠ space := by decide
    simp [hne, gitName_no_quote hq isSide_new]
  have hrest : quote ∉ first.rest := by
    cases hqo : needsQuotes quotePath old with
    | true =>
      have hfirst := parseGitOperand_quoted isSide_old hqo (dropWhile_name _ isSide_old old
        (space :: gitName quotePath (ascii "b/") new))
      obtain rfl := some.inj (hf.symm.trans hfirst)
      exact hsecond
    | false =>
      apply (parseGitOperand_unquoted _ hf).2.2
      rw [operandsOf, mem_append]
      rintro (h | h)
      · exact gitName_no_quote hqo isSide_old h
      · exact hsecond h
  obtain ⟨hhead, hno, -⟩ := parseGitOperand_unquoted hrest hsec
  have hno' := normalizeGitOperand_no_space hhead hno (ascii "b/")
  rw [hnew]
  intro he
  rw [← he] at hs
  exact hno' hs

/-- The `diff --git` line names both paths exactly when neither is cut. -/
theorem parseGitPaths_iff (hold : RepositoryRelative old) (hnew : RepositoryRelative new) :
    ((parseGitPaths (operandsOf quotePath old new)).old = old ∧
      (parseGitPaths (operandsOf quotePath old new)).new = new) ↔
      WholeName quotePath old ∧ WholeName quotePath new := by
  constructor
  · rintro ⟨ho, hn⟩
    constructor
    · apply Classical.byContradiction
      intro hcut
      obtain ⟨hq, hs⟩ := WholeName.of_not hcut
      exact parseGitPaths_old_ne hq hs ho
    · apply Classical.byContradiction
      intro hcut
      obtain ⟨hq, hs⟩ := WholeName.of_not hcut
      exact parseGitPaths_new_ne hq hs hn
  · rintro ⟨hwo, hwn⟩
    rw [parseGitPaths_whole hold hnew hwo hwn]
    exact ⟨rfl, rfl⟩

theorem isSpecial_eq : isSpecial = gitEscapes true := by
  funext b
  obtain ⟨-, -, -, -, -, -, hspecial⟩ := byte_escapes b
  exact hspecial

theorem escapeByte_eq : escapeByte = gitEscape true := by
  funext b
  unfold escapeByte gitEscape
  exact ite_congr (by rw [isSpecial_eq]) (fun _ => rfl) (fun _ => rfl)

theorem isQuoted_eq (path : Bytes) : isQuoted path = needsQuotes true path := by
  unfold isQuoted needsQuotes
  rw [isSpecial_eq]

theorem printName_eq (side path : Bytes) : printName side path = gitName true side path := by
  unfold printName gitName quotedName
  rw [isQuoted_eq, escapeByte_eq]

theorem printPath_some (side path : Bytes) :
    ∃ field, TabField field ∧ printPath side (some path) = gitName true side path ++ field := by
  refine ⟨_, ?_, congrArg (fun name => name ++ _) (printName_eq side path)⟩
  split
  · exact .inr ⟨[], rfl⟩
  · exact .inl rfl

theorem normalizeDiffPath_devNull (side : Bytes) :
    normalizeDiffPath (printPath side none) = ⟨devNull, true⟩ := by
  rfl

/-- A name that is not cut at a space, as it is printed by default. -/
def Whole (path : Bytes) : Prop := isQuoted path = true ∨ space ∉ path

theorem whole_iff (path : Bytes) : Whole path ↔ WholeName true path := by
  unfold Whole WholeName
  rw [isQuoted_eq]

theorem gitOperands_eq (change : FileChange) :
    change.gitOperands = operandsOf true change.operands.1 change.operands.2 := by
  simp [FileChange.gitOperands, operandsOf, printName_eq]

end Bbr.Diff
