import Bbr.Diff.Print

/-!
# Git's quoting of paths

Git writes a path with unusual bytes between quotes and escapes those bytes: control characters, the
quote and the backslash always, bytes outside ASCII as long as `core.quotePath` is on. Whatever Git wrote
is decoded again, and nothing is decoded but complete escapes.
-/
namespace Bbr.Diff

open List

def gitEscapes (quotePath : Bool) (b : UInt8) : Bool :=
  decide (b < 0x20) || b == 0x7f || b == quote || b == backslash ||
    (quotePath && decide (0x7f < b))

def gitEscape (quotePath : Bool) (b : UInt8) : Bytes :=
  if gitEscapes quotePath b then
    match escapeLetter b with
    | some e => [backslash, e]
    | none => backslash :: octalDigits b
  else [b]

/-- A path after its side prefix, between quotes. -/
def quotedName (quotePath : Bool) (side path : Bytes) : Bytes :=
  [quote] ++ side ++ path.flatMap (gitEscape quotePath) ++ [quote]

def needsQuotes (quotePath : Bool) (path : Bytes) : Bool := path.any (gitEscapes quotePath)

/-- A path after its side prefix as Git prints it. -/
def gitName (quotePath : Bool) (side path : Bytes) : Bytes :=
  if needsQuotes quotePath path then quotedName quotePath side path else side ++ path

/-- A path of the tree: no NUL and no segment that is empty, `.` or `..`. -/
def RepositoryRelative (path : Bytes) : Prop :=
  0 ∉ path ∧ ∀ segment ∈ path.splitOn slash,
    segment ≠ [] ∧ segment ≠ ascii "." ∧ segment ≠ ascii ".."

/-- Text between quotes and the bytes that it stands for: every escape is complete, a letter of the
table or three octal digits of a byte. -/
inductive Escaped : Bytes → Bytes → Prop where
  | nil : Escaped [] []
  | plain {c : UInt8} {text path : Bytes} : c ≠ backslash → Escaped text path →
    Escaped (c :: text) (c :: path)
  | letter {b e : UInt8} {text path : Bytes} : escapeLetter b = some e → Escaped text path →
    Escaped (backslash :: e :: text) (b :: path)
  | octal {b d₁ d₂ d₃ : UInt8} {text path : Bytes} :
    (∀ d ∈ [d₁, d₂, d₃], 0x30 ≤ d ∧ d ≤ 0x37) →
    (d₁.toNat - 0x30) * 64 + (d₂.toNat - 0x30) * 8 + (d₃.toNat - 0x30) = b.toNat →
    Escaped text path → Escaped (backslash :: d₁ :: d₂ :: d₃ :: text) (b :: path)

/-- A quoted path: an opening quote, possibly a side prefix, escaped text, the closing quote. -/
def QuotedText (input path : Bytes) : Prop :=
  ∃ side text, (side = [] ∨ side = ascii "a/" ∨ side = ascii "b/") ∧
    input = [quote] ++ side ++ text ++ [quote] ∧ Escaped text path

theorem forall_byte {P : UInt8 → Prop} [DecidablePred P]
    (h : (List.range 256).all (fun n => decide (P (UInt8.ofNat n))) = true) (b : UInt8) : P b := by
  have hb := all_eq_true.mp h b.toNat (mem_range.mpr b.toNat_lt)
  rw [UInt8.ofNat_toNat] at hb
  exact of_decide_eq_true hb

/-- Escapes belong to their bytes: the letters both ways, and the digits, which start with no
letter. -/
theorem byte_escapes (b : UInt8) : (escapeLetter b).all (fun e => letterEscape e == some b) = true ∧
    (letterEscape b).all (fun c => escapeLetter c == some b) = true ∧
    letterEscape (0x30 + b.toNat / 64).toUInt8 = none ∧
    octalByte (0x30 + b.toNat / 64).toUInt8 (0x30 + b.toNat / 8 % 8).toUInt8
      (0x30 + b.toNat % 8).toUInt8 = some b ∧
    (octalDigits b).all (fun d => d != quote && d != backslash) = true ∧
    (∀ quotePath, (gitEscape quotePath b).all (fun c => decide (0x20 ≤ c)) = true) ∧
    isSpecial b = gitEscapes true b := by
  revert b
  exact forall_byte (by decide +kernel)

variable {b e : UInt8}

theorem letterEscape_escapeLetter (h : escapeLetter b = some e) : letterEscape e = some b := by
  have hb := (byte_escapes b).1
  rw [h] at hb
  simpa using hb

theorem escapeLetter_letterEscape (h : letterEscape e = some b) : escapeLetter b = some e := by
  have he := (byte_escapes e).2.1
  rw [h] at he
  simpa using he

theorem octalByte_eq_some {d₁ d₂ d₃ : UInt8} (h : octalByte d₁ d₂ d₃ = some b) :
    (∀ d ∈ [d₁, d₂, d₃], 0x30 ≤ d ∧ d ≤ 0x37) ∧
      (d₁.toNat - 0x30) * 64 + (d₂.toNat - 0x30) * 8 + (d₃.toNat - 0x30) = b.toNat := by
  unfold octalByte at h
  dsimp only at h
  split at h
  · next hd =>
    simp only [Bool.and_eq_true, decide_eq_true_eq, isOctal] at hd
    obtain ⟨⟨⟨h₁, h₂⟩, h₃⟩, hvalue⟩ := hd
    cases h
    refine ⟨by simpa using ⟨h₁, h₂, h₃⟩, ?_⟩
    rw [Nat.toUInt8_eq, UInt8.toNat_ofNat_of_lt']
    exact Nat.lt_succ_of_le hvalue
  · cases h

variable {quotePath : Bool}

theorem gitEscapes_ne (h : gitEscapes quotePath b = false) :
    b ≠ quote ∧ b ≠ backslash ∧ b ≠ tab ∧ b ≠ newline := by
  unfold gitEscapes at h
  simp only [Bool.or_eq_false_iff, decide_eq_false_iff_not, beq_eq_false_iff_ne, ne_eq] at h
  obtain ⟨⟨⟨⟨hcontrol, -⟩, hq⟩, hb⟩, -⟩ := h
  refine ⟨hq, hb, ?_, ?_⟩
  · rintro rfl
    exact hcontrol (by decide)
  · rintro rfl
    exact hcontrol (by decide)

theorem octal_ne (b : UInt8) : ∀ d ∈ octalDigits b, d ≠ quote ∧ d ≠ backslash := by
  obtain ⟨-, -, -, -, hdigits, -⟩ := byte_escapes b
  intro d hd
  simpa using all_eq_true.mp hdigits d hd

theorem escaped_printable (quotePath : Bool) (path : Bytes) :
    ∀ c ∈ path.flatMap (gitEscape quotePath), 0x20 ≤ c := by
  intro c hc
  obtain ⟨b, -, hcb⟩ := mem_flatMap.mp hc
  obtain ⟨-, -, -, -, -, hprintable, -⟩ := byte_escapes b
  exact of_decide_eq_true (all_eq_true.mp (hprintable quotePath) c hcb)

theorem unescape_plain {c : UInt8} (h : c ≠ backslash) (rest : Bytes) :
    unescape (c :: rest) = (unescape rest).map (fun out => c :: out) := by
  rw [unescape.eq_def]
  dsimp only
  rw [if_pos h]

theorem unescape_letter (h : letterEscape e = some b) (rest : Bytes) :
    unescape (backslash :: e :: rest) = (unescape rest).map (fun out => b :: out) := by
  rw [unescape.eq_def]
  dsimp only
  rw [if_neg (by simp)]
  simp only [h]

theorem unescape_octal {d₂ d₃ : UInt8} (hl : letterEscape e = none)
    (ho : octalByte e d₂ d₃ = some b) (rest : Bytes) :
    unescape (backslash :: e :: d₂ :: d₃ :: rest) = (unescape rest).map (fun out => b :: out) := by
  rw [unescape.eq_def]
  dsimp only
  rw [if_neg (by simp)]
  simp only [hl, ho]

theorem unescape_gitEscape (quotePath : Bool) (b : UInt8) (rest : Bytes) :
    unescape (gitEscape quotePath b ++ rest) = (unescape rest).map (fun out => b :: out) := by
  unfold gitEscape
  cases hb : gitEscapes quotePath b with
  | true =>
    cases he : escapeLetter b with
    | some e => exact unescape_letter (letterEscape_escapeLetter he) rest
    | none =>
      obtain ⟨-, -, hletter, hoctal, -⟩ := byte_escapes b
      exact unescape_octal hletter hoctal rest
  | false =>
    exact unescape_plain (gitEscapes_ne hb).2.1 rest

theorem unescape_escaped (quotePath : Bool) (path : Bytes) :
    unescape (path.flatMap (gitEscape quotePath)) = some path := by
  induction path with
  | nil => simp [unescape]
  | cons b path ih => rw [flatMap_cons, unescape_gitEscape, ih, Option.map_some]

variable {path : Bytes}

theorem escaped_of_unescape {text : Bytes} (h : unescape text = some path) : Escaped text path := by
  induction text using unescape.induct generalizing path with
  | case1 =>
    cases h
    exact .nil
  | case2 c rest hc ih =>
    rw [unescape_plain hc] at h
    obtain ⟨out, hout, rfl⟩ := Option.map_eq_some_iff.mp h
    exact .plain hc (ih hout)
  | case3 c hc =>
    obtain rfl : c = backslash := by simpa using hc
    simp [unescape] at h
  | case4 c hc e rest b he ih =>
    obtain rfl : c = backslash := by simpa using hc
    rw [unescape_letter he] at h
    obtain ⟨out, hout, rfl⟩ := Option.map_eq_some_iff.mp h
    exact .letter (escapeLetter_letterEscape he) (ih hout)
  | case5 c hc e he d₂ d₃ rest b hb ih =>
    obtain rfl : c = backslash := by simpa using hc
    rw [unescape_octal he hb] at h
    obtain ⟨out, hout, rfl⟩ := Option.map_eq_some_iff.mp h
    obtain ⟨hdigits, hvalue⟩ := octalByte_eq_some hb
    exact .octal hdigits hvalue (ih hout)
  | case6 c hc e he d₂ d₃ rest hb =>
    obtain rfl : c = backslash := by simpa using hc
    rw [unescape.eq_def] at h
    simp [he, hb] at h
  | case7 c hc e rest he hrest =>
    obtain rfl : c = backslash := by simpa using hc
    rw [unescape.eq_def] at h
    simp [he] at h

/-- The prefix of a side: `a/` or `b/`. -/
def IsSide (side : Bytes) : Prop := ∃ x, side = [x, slash] ∧ (x = 0x61 ∨ x = 0x62)

theorem isSide_old : IsSide (ascii "a/") := ⟨0x61, rfl, .inl rfl⟩
theorem isSide_new : IsSide (ascii "b/") := ⟨0x62, rfl, .inr rfl⟩

theorem isRepositoryRelative_iff (path : Bytes) :
    isRepositoryRelative path = true ↔ RepositoryRelative path := by
  have hcode : isRepositoryRelative path = true ↔
      ((path ≠ [] ∧ path.head? ≠ some slash) ∧ path.getLast? ≠ some slash) ∧
        RepositoryRelative path := by
    simp [isRepositoryRelative, RepositoryRelative, and_assoc]
  rw [hcode, and_iff_right_iff_imp]
  rintro ⟨-, hseg⟩
  have hno : [] ∉ path.splitOn slash := fun hmem => (hseg [] hmem).1 rfl
  refine ⟨⟨?_, ?_⟩, ?_⟩
  · rintro rfl
    exact hno (by simp)
  · intro hhead
    obtain ⟨rest, rfl⟩ := head?_eq_some_iff.mp hhead
    have hsplit := splitOn_append_cons_self (a := slash) [] rest
    rw [nil_append] at hsplit
    rw [hsplit] at hno
    simp at hno
  · intro hlast
    obtain ⟨init, rfl⟩ := getLast?_eq_some_iff.mp hlast
    rw [splitOn_append_cons_self] at hno
    simp at hno

theorem RepositoryRelative.head (h : RepositoryRelative path) : path.head? ≠ some slash := by
  rw [← isRepositoryRelative_iff] at h
  unfold isRepositoryRelative at h
  simp only [Bool.and_eq_true] at h
  simpa using h.1.1.1.2

theorem RepositoryRelative.ne_devNull (h : RepositoryRelative path) : path ≠ devNull := by
  intro he
  apply h.head
  rw [he]
  rfl

theorem normalize_relative {input : Bytes} (h : normalize input = some path) :
    RepositoryRelative path := by
  obtain ⟨decoded, -, hd⟩ := Option.bind_eq_some_iff.mp h
  split at hd
  · next hr =>
    cases hd
    exact (isRepositoryRelative_iff _).mp hr
  · cases hd

theorem normalize_between {x : UInt8} (hx : x = 0x61 ∨ x = 0x62) (escaped : Bytes) :
    normalize (quote :: x :: slash :: (escaped ++ [quote])) =
      (unescape escaped).bind (fun path => if isRepositoryRelative path then some path else none) := by
  have hlast : (quote :: x :: slash :: (escaped ++ [quote])).getLast? = some quote := by
    simp [getLast?_cons]
  have hlen : ¬ (quote :: x :: slash :: (escaped ++ [quote])).length < 2 := by
    simp
  have hside : ((quote :: ascii "a/").isPrefixOf (quote :: x :: slash :: (escaped ++ [quote])) ||
      (quote :: ascii "b/").isPrefixOf (quote :: x :: slash :: (escaped ++ [quote]))) = true := by
    obtain rfl | rfl := hx <;> rfl
  have hdrop : ((quote :: x :: slash :: (escaped ++ [quote])).drop 3).dropLast = escaped := by
    simp
  unfold normalize
  simp only [head?_cons, if_true, hlast, hlen, hside, hdrop, ne_eq, not_true, or_self, if_false]

theorem quotedName_eq (quotePath : Bool) (x : UInt8) (path : Bytes) :
    quotedName quotePath [x, slash] path =
      quote :: x :: slash :: (path.flatMap (gitEscape quotePath) ++ [quote]) := by
  simp [quotedName]

variable {side : Bytes}

theorem normalize_quotedName (hs : IsSide side) (hr : RepositoryRelative path) :
    normalize (quotedName quotePath side path) = some path := by
  obtain ⟨x, rfl, hx⟩ := hs
  rw [quotedName_eq, normalize_between hx, unescape_escaped, Option.bind_some,
    if_pos ((isRepositoryRelative_iff path).mpr hr)]

theorem prefix_before_quote {body : Bytes} (hs : IsSide side)
    (h : quote :: side <+: quote :: (body ++ [quote])) : ∃ text, side ++ text = body := by
  rw [cons_prefix_cons, prefix_concat_iff] at h
  obtain ⟨-, he | hpre⟩ := h
  · obtain ⟨x, rfl, -⟩ := hs
    have hlast := congrArg getLast? he
    simp [slash, quote] at hlast
  · exact hpre

theorem drop_side (hs : IsSide side) (text : Bytes) :
    ((quote :: (side ++ text ++ [quote])).drop 3).dropLast = text := by
  obtain ⟨x, rfl, -⟩ := hs
  simp

/-- What is accepted between quotes is escaped text, behind a side prefix or none. -/
theorem normalize_quotedText {input : Bytes} (h : normalize input = some path)
    (hq : input.head? = some quote) : QuotedText input path := by
  obtain ⟨decoded, hd, hpath⟩ := Option.bind_eq_some_iff.mp h
  have hsame : decoded = path := by
    split at hpath
    · exact Option.some.inj hpath
    · cases hpath
  subst hsame
  rw [if_pos hq] at hd
  split at hd
  · cases hd
  rename_i hends
  rw [not_or, Classical.not_not, Nat.not_lt] at hends
  obtain ⟨hlen, hlast⟩ := hends
  obtain ⟨tail, rfl⟩ := head?_eq_some_iff.mp hq
  have htail : tail.getLast? = some quote := by
    cases tail with
    | nil => simp at hlen
    | cons c tail => simpa [getLast?_cons_cons] using hlast
  obtain ⟨body, rfl⟩ := getLast?_eq_some_iff.mp htail
  split at hd
  · next hside =>
    rw [Bool.or_eq_true, isPrefixOf_iff_prefix, isPrefixOf_iff_prefix] at hside
    obtain hpre | hpre := hside
    · obtain ⟨text, rfl⟩ := prefix_before_quote isSide_old hpre
      rw [drop_side isSide_old] at hd
      exact ⟨ascii "a/", text, .inr (.inl rfl), by simp, escaped_of_unescape hd⟩
    · obtain ⟨text, rfl⟩ := prefix_before_quote isSide_new hpre
      rw [drop_side isSide_new] at hd
      exact ⟨ascii "b/", text, .inr (.inr rfl), by simp, escaped_of_unescape hd⟩
  · refine ⟨[], body, .inl rfl, by simp, escaped_of_unescape ?_⟩
    simpa using hd

/-- Quoting is decoded exactly: the quoted form of a path comes back, and every accepted input is a
path of the tree and, when it is quoted, made of complete escapes. -/
theorem quoting_decoded :
    (∀ (quotePath : Bool) (side path : Bytes), (side = ascii "a/" ∨ side = ascii "b/") →
      RepositoryRelative path → normalize (quotedName quotePath side path) = some path) ∧
      ∀ input path, normalize input = some path → RepositoryRelative path ∧
        (input.head? = some quote → QuotedText input path) := by
  constructor
  · intro quotePath side path hs hr
    apply normalize_quotedName _ hr
    obtain rfl | rfl := hs
    · exact isSide_old
    · exact isSide_new
  · intro input path h
    exact ⟨normalize_relative h, normalize_quotedText h⟩

theorem quoting_decoded_escaped :
    normalize (ascii "\"a/\\303\\251\\t\"") = some [0xc3, 0xa9, 0x09] ∧
      RepositoryRelative [0xc3, 0xa9, 0x09] ∧
      QuotedText (ascii "\"a/\\303\\251\\t\"") [0xc3, 0xa9, 0x09] := by
  have hname : quotedName true (ascii "a/") [0xc3, 0xa9, 0x09] =
      ascii "\"a/\\303\\251\\t\"" := by decide
  have hrelative : RepositoryRelative [0xc3, 0xa9, 0x09] := by
    unfold RepositoryRelative
    decide
  have hback := quoting_decoded.1 true (ascii "a/") [0xc3, 0xa9, 0x09] (.inl rfl) hrelative
  rw [hname] at hback
  exact ⟨hback, hrelative, (quoting_decoded.2 _ _ hback).2 rfl⟩

end Bbr.Diff
