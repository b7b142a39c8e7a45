import Bbr.Http.Dates

/-!
# Guidance is exact but for signs and separators

The integer parser takes a sign and separators, which neither form of the guidance has. The distance
to a date is not checked for overflow.
-/
namespace Bbr.Http

open List

open Bbr.Diff (ascii parseInt parseMagnitude usizeLimit)
open Bbr.Highlight (trim)

/-- The text of a second as servers write it. -/
def imfFixdate (t : Nat) : Bytes :=
  dateText (weekdays.getD (fieldsOf t).weekday []) (padded 2 (fieldsOf t).day)
    (months.getD ((fieldsOf t).month - 1) []) (padded 4 (fieldsOf t).year)
    (padded 2 (fieldsOf t).hour) (padded 2 (fieldsOf t).minute) (padded 2 (fieldsOf t).second)

/-- The text asks for a delay: in seconds, or up to a second of the years from 1970 to 9999. -/
def Guides (text : Bytes) (now : Int) (milliseconds : Nat) : Prop :=
  milliseconds ≤ maxI64 ∧
    ((∃ n, DigitsOf text n ∧ milliseconds = 1000 * n) ∨
      ∃ t : Nat, (fieldsOf t).year ≤ 9999 ∧ text = imfFixdate t ∧ now < t ∧
        (milliseconds : Int) = 1000 * (t - now))

/-- Blanks around a header's value are not part of it. -/
def headerValue (value : Bytes) : Bytes := trim (ascii " \t") value

/-- The reader ends, and finds the guidance that the value gives, or nothing where it gives none. -/
def Exact (value : Bytes) (now : Int64) : Prop :=
  ∃ found, parseRetryAfter value now = .ok found ∧
    ∀ milliseconds, found = some milliseconds ↔ Guides (headerValue value) now.toInt milliseconds

/-- Digits with separators between them and a sign in front, which is negative only for zero. -/
def ReadsAs (text : Bytes) (n : Nat) : Prop :=
  ∃ sign body, text = sign ++ body ∧ (sign = [] ∨ sign = ascii "+" ∨ sign = ascii "-" ∧ n = 0) ∧
    body ≠ [] ∧ body.head? ≠ some 0x5f ∧ body.getLast? ≠ some 0x5f ∧
    DigitsOf (body.filter (fun c => c ≠ 0x5f)) n

/-- A delay that the text is read as, with marks or without. -/
def Reads (text : Bytes) (now : Int) (milliseconds : Nat) : Prop :=
  (∃ n, ReadsAs text n ∧ milliseconds = 1000 * n) ∨
    ∃ t : Nat, Spells text (fieldsOf t) ∧ now < t ∧ (milliseconds : Int) = 1000 * (t - now)

/-- A date that the text spells is so near that the distance to it is an `i64`. -/
def InReach (text : Bytes) (now : Int) : Prop :=
  ∀ t : Nat, Spells text (fieldsOf t) → t - now ≤ maxI64

variable {n : Nat}

theorem parseMagnitude_iff {body : Bytes} :
    parseMagnitude body = some n ↔ body ≠ [] ∧ body.head? ≠ some 0x5f ∧
      body.getLast? ≠ some 0x5f ∧ DigitsOf (body.filter (fun c => c ≠ 0x5f)) n := by
  rw [parseMagnitude_eq_some, foldlM_addDigit, DigitsOf]
  constructor
  · rintro ⟨hne, hhead, hlast, hdigits⟩
    refine ⟨hne, hhead, hlast, fun hempty => ?_, hdigits⟩
    cases body with
    | nil => exact hne rfl
    | cons c rest =>
      have hc : c ≠ 0x5f := fun heq => hhead (by simp [heq])
      simp [hc] at hempty
  · rintro ⟨hne, hhead, hlast, _, hdigits⟩
    exact ⟨hne, hhead, hlast, hdigits⟩

/-- In front of a digit there is no sign that is not taken for one. -/
theorem unsigned_head {c : UInt8} {rest : Bytes} (hhead : c ≠ 0x5f)
    (h : DigitsOf ((c :: rest).filter (fun c => c ≠ 0x5f)) n) : c ≠ 0x2b ∧ c ≠ 0x2d := by
  have hno := h.not_marked
  simp only [Marked, not_exists, not_and] at hno
  have hc := hno c (by simp [hhead])
  constructor
  · rintro rfl
    exact hc rfl
  · rintro rfl
    exact hc rfl

variable {text : Bytes}

theorem parseInt_iff {limit n : Nat} (hlimit : 0 < limit) :
    parseInt limit text = some n ↔ ReadsAs text n ∧ n < limit := by
  constructor
  · intro h
    cases text with
    | nil => simp [parseInt, parseMagnitude] at h
    | cons c rest =>
      rw [parseInt_cons] at h
      split at h
      · next hplus =>
        exact ⟨⟨ascii "+", rest, by rw [hplus]; rfl, by simp, parseMagnitude_iff.mp h.1⟩, h.2⟩
      split at h
      · next hminus =>
        exact ⟨⟨ascii "-", rest, by rw [hminus]; rfl, by simp [h.2], parseMagnitude_iff.mp h.1⟩,
          by omega⟩
      · exact ⟨⟨[], c :: rest, rfl, by simp, parseMagnitude_iff.mp h.1⟩, h.2⟩
  · rintro ⟨⟨sign, body, htext, hsign, hbody⟩, hlt⟩
    have hread := parseMagnitude_iff.mpr hbody
    obtain rfl | rfl | ⟨rfl, hzero⟩ := hsign
    · cases body with
      | nil => exact absurd rfl hbody.1
      | cons c rest =>
        have hhead := unsigned_head (by simpa using hbody.2.1) hbody.2.2.2
        rw [htext, nil_append, parseInt_cons, if_neg hhead.1, if_neg hhead.2]
        exact ⟨hread, hlt⟩
    · have hcons : ascii "+" ++ body = 0x2b :: body := rfl
      rw [htext, hcons, parseInt_cons, if_pos rfl]
      exact ⟨hread, hlt⟩
    · have hcons : ascii "-" ++ body = 0x2d :: body := rfl
      rw [htext, hcons, parseInt_cons, if_neg (by decide), if_pos rfl]
      exact ⟨hread, hzero⟩

theorem digitsOf_iff : DigitsOf text n ↔ ReadsAs text n ∧ ¬Marked text := by
  have hlimit : 0 < n + 1 := by omega
  constructor
  · intro h
    have hread := (parseInt_plain h.not_marked).mpr ⟨h, Nat.lt_succ_self n⟩
    exact ⟨((parseInt_iff hlimit).mp hread).1, h.not_marked⟩
  · intro ⟨h, hno⟩
    have hread := (parseInt_iff hlimit).mpr ⟨h, Nat.lt_succ_self n⟩
    exact ((parseInt_plain hno).mp hread).1

theorem marked_append {left right : Bytes} : Marked (left ++ right) ↔ Marked left ∨ Marked right := by
  simp [Marked, or_and_right, exists_or]

variable {i : Nat} {name : Bytes}

theorem not_marked_weekday (h : weekdays[i]? = some name) : ¬Marked name := by
  have hall : ∀ name ∈ weekdays, ∀ c ∈ name, isMark c = false := by decide +kernel
  have hname := hall name (mem_of_getElem? h)
  simpa [Marked] using hname

theorem not_marked_month (h : months[i]? = some name) : ¬Marked name := by
  have hall : ∀ name ∈ months, ∀ c ∈ name, isMark c = false := by decide +kernel
  have hname := hall name (mem_of_getElem? h)
  simpa [Marked] using hname

theorem marked_dateText {weekday day month year hour minute second : Bytes} :
    Marked (dateText weekday day month year hour minute second) ↔
      Marked weekday ∨ Marked day ∨ Marked month ∨ Marked year ∨ Marked hour ∨ Marked minute ∨
        Marked second := by
  have hcomma : ¬Marked (ascii ", ") := by simp [Marked, ascii, isMark]
  have hspace : ¬Marked (ascii " ") := by simp [Marked, ascii, isMark]
  have hcolon : ¬Marked (ascii ":") := by simp [Marked, ascii, isMark]
  have hzone : ¬Marked (ascii " GMT") := by simp [Marked, ascii, isMark]
  simp [dateText, marked_append, hcomma, hspace, hcolon, hzone]

theorem SpellsTwo.plain {field : Bytes} (h : SpellsTwo field n) :
    ¬Marked field ↔ field = padded 2 n := by
  constructor
  · intro hno
    obtain ⟨_, heq⟩ | ⟨_, rfl⟩ | ⟨_, rfl⟩ := h
    · exact heq
    · exact absurd ⟨0x2b, by simp, by decide⟩ hno
    · exact absurd ⟨0x2d, by simp [ascii], by decide⟩ hno
  · rintro rfl
    exact not_marked_padded 2 n

theorem getElem?_getD {names : List Bytes} (h : i < names.length) :
    names[i]? = some (names.getD i []) := by
  simp [h]

variable {t : Nat}

theorem spells_imfFixdate (h : (fieldsOf t).year ≤ 9999) : Spells (imfFixdate t) (fieldsOf t) := by
  have hdate := Lib.Calendar.Date.valid_ofDay (t / 86400)
  have hmonth : 1 ≤ (fieldsOf t).month ∧ (fieldsOf t).month ≤ 12 := hdate.month
  have hday : (fieldsOf t).day < 100 := by
    have hlong := Lib.Calendar.Date.daysInMonth_le (fieldsOf t).year (fieldsOf t).month
    have hlast : (fieldsOf t).day ≤ _ := hdate.day.2
    simp only [fieldsOf] at *
    omega
  have hclock := (DateFields.fieldsOf_inRange t).clock
  have hweekday : (fieldsOf t).weekday < weekdays.length := Nat.mod_lt _ (by decide)
  have hmonths : (fieldsOf t).month - 1 < months.length := by
    have htwelve : months.length = 12 := rfl
    omega
  refine ⟨_, _, _, _, _, _, _, rfl, getElem?_getD hweekday, .inl ⟨hday, rfl⟩,
    ⟨hmonth.1, getElem?_getD hmonths⟩, ⟨by simp, by simp [padded], ?_, by simp⟩,
    .inl ⟨by omega, rfl⟩, .inl ⟨by omega, rfl⟩, .inl ⟨by omega, rfl⟩⟩
  rw [length_padded]
  omega

theorem imfFixdate_iff : ((fieldsOf t).year ≤ 9999 ∧ text = imfFixdate t) ↔
      Spells text (fieldsOf t) ∧ ¬Marked text := by
  constructor
  · rintro ⟨hyear, rfl⟩
    have hspells := spells_imfFixdate hyear
    refine ⟨hspells, ?_⟩
    obtain ⟨weekday, day, month, year, hour, minute, second, heq, hweekday, _, hmonth, _⟩ := hspells
    have hweekdays := getD_eq_getElem?_getD (l := weekdays) (i := (fieldsOf t).weekday) (a := [])
    have hmonths := getD_eq_getElem?_getD (l := months) (i := (fieldsOf t).month - 1) (a := [])
    rw [hweekday, Option.getD_some] at hweekdays
    rw [hmonth.2, Option.getD_some] at hmonths
    rw [imfFixdate, marked_dateText, hweekdays, hmonths]
    simp [not_marked_padded, not_marked_weekday hweekday, not_marked_month hmonth.2]
  · intro ⟨hspells, hno⟩
    refine ⟨hspells.year, ?_⟩
    obtain ⟨weekday, day, month, year, hour, minute, second, rfl, hweekday, hday, hmonth, hyear, hhour,
      hminute, hsecond⟩ := hspells
    simp only [marked_dateText, not_or] at hno
    have hdigits := hyear.2.2.2
    rw [hyear.1] at hdigits
    rw [imfFixdate, hday.plain.mp hno.2.1, hhour.plain.mp hno.2.2.2.2.1,
      hminute.plain.mp hno.2.2.2.2.2.1, hsecond.plain.mp hno.2.2.2.2.2.2, hdigits,
      getD_eq_getElem?_getD, hweekday, getD_eq_getElem?_getD, hmonth.2]
    rfl

variable {now : Int} {milliseconds : Nat}

theorem guides_iff : Guides text now milliseconds ↔
      milliseconds ≤ maxI64 ∧ Reads text now milliseconds ∧ ¬Marked text := by
  rw [Guides, Reads, and_congr_right_iff]
  intro _
  simp only [digitsOf_iff, or_and_right]
  refine or_congr ?_ ?_
  · constructor
    · intro ⟨n, ⟨hreads, hno⟩, heq⟩
      exact ⟨⟨n, hreads, heq⟩, hno⟩
    · intro ⟨⟨n, hreads, heq⟩, hno⟩
      exact ⟨n, ⟨hreads, hno⟩, heq⟩
  · constructor
    · intro ⟨t, hyear, htext, hlater, heq⟩
      obtain ⟨hspells, hno⟩ := imfFixdate_iff.mp ⟨hyear, htext⟩
      exact ⟨⟨t, hspells, hlater, heq⟩, hno⟩
    · intro ⟨⟨t, hspells, hlater, heq⟩, hno⟩
      obtain ⟨hyear, htext⟩ := imfFixdate_iff.mpr ⟨hspells, hno⟩
      exact ⟨t, hyear, htext, hlater, heq⟩

theorem comma_not_mem (h : ReadsAs text n) : 0x2c ∉ text := by
  obtain ⟨sign, body, rfl, hsign, _, _, _, hdigits⟩ := h
  have hbody : 0x2c ∉ body := by
    intro hmem
    have hkept : 0x2c ∈ body.filter (fun c => c ≠ 0x5f) := mem_filter.mpr ⟨hmem, by decide⟩
    rw [hdigits.2.2] at hkept
    obtain ⟨d, hd, heq⟩ := mem_padded hkept
    interval_cases d <;> exact absurd heq (by decide)
  obtain rfl | rfl | ⟨rfl, _⟩ := hsign
  · simpa using hbody
  · simpa [ascii] using hbody
  · simpa [ascii] using hbody

theorem comma_mem {f : DateFields} (h : Spells text f) : 0x2c ∈ text := by
  obtain ⟨weekday, day, month, year, hour, minute, second, rfl, _⟩ := h
  simp [dateText, ascii]

variable {seconds : Nat}

theorem delayMilliseconds_eq_some : delayMilliseconds seconds = some milliseconds ↔
      milliseconds ≤ maxI64 ∧ milliseconds = 1000 * seconds := by
  have hlimit : maxI64 < usizeLimit := by decide
  rw [delayMilliseconds]
  split
  · split
    · simp only [Option.some.injEq]
      omega
    · simp only [reduceCtorEq, false_iff]
      omega
  · simp only [reduceCtorEq, false_iff]
    omega

theorem ReadsAs.parseInt (h : ReadsAs text n) (hfew : 1000 * n ≤ maxI64) :
    parseInt usizeLimit text = some n := by
  have hlimit : maxI64 < usizeLimit := by decide
  exact (parseInt_iff (by decide)).mpr ⟨h, by omega⟩

theorem not_reads_nil : ¬Reads [] now milliseconds := by
  intro h
  cases h with
  | inl hnumber =>
    obtain ⟨n, ⟨sign, body, htext, _, hne, _⟩, _⟩ := hnumber
    exact hne (append_eq_nil_iff.mp htext.symm).2
  | inr hdate =>
    obtain ⟨t, hspells, _⟩ := hdate
    simpa using comma_mem hspells

theorem reads_number (h : parseInt usizeLimit text = some seconds) :
    milliseconds ≤ maxI64 ∧ milliseconds = 1000 * seconds ↔
      milliseconds ≤ maxI64 ∧ Reads text now milliseconds := by
  have hreads := ((parseInt_iff (by decide)).mp h).1
  refine and_congr_right (fun hfew => ⟨fun heq => .inl ⟨seconds, hreads, heq⟩, fun hread => ?_⟩)
  cases hread with
  | inl hnumber =>
    obtain ⟨n, hn, rfl⟩ := hnumber
    rw [hn.parseInt hfew] at h
    rw [Option.some.inj h]
  | inr hdate =>
    obtain ⟨t, hspells, _⟩ := hdate
    exact absurd (comma_mem hspells) (comma_not_mem hreads)

theorem reads_date {now : Int} (h : parseInt usizeLimit text = none)
    {milliseconds : Nat} (hfew : milliseconds ≤ maxI64) :
    Reads text now milliseconds ↔ ∃ t : Nat, Spells text (fieldsOf t) ∧ now < t ∧
      (milliseconds : Int) = 1000 * (t - now) := by
  constructor
  · intro hread
    cases hread with
    | inl hnumber =>
      obtain ⟨n, hn, rfl⟩ := hnumber
      rw [hn.parseInt hfew] at h
      simp at h
    | inr hdate => exact hdate
  · exact .inr

variable {value : Bytes}

/-- A text that is no number is read as a date, where the distance is an `i64`. -/
theorem parseRetryAfter_inReach {now : Int64} (h : InReach (headerValue value) now.toInt) :
    ∃ found, parseRetryAfter value now = .ok found ∧ ∀ milliseconds, found = some milliseconds ↔
      milliseconds ≤ maxI64 ∧ Reads (headerValue value) now.toInt milliseconds := by
  have hvalue : trim (ascii " \t") value = headerValue value := rfl
  simp only [parseRetryAfter, hvalue]
  by_cases hempty : (headerValue value).length = 0
  · rw [if_pos hempty, length_eq_zero_iff.mp hempty]
    exact ⟨none, rfl, by simp [not_reads_nil]⟩
  rw [if_neg hempty]
  cases hnumber : parseInt usizeLimit (headerValue value) with
  | some seconds =>
    refine ⟨_, rfl, fun milliseconds => ?_⟩
    rw [delayMilliseconds_eq_some]
    exact reads_number hnumber
  | none =>
    obtain ⟨found, hfound, hspelled⟩ := parseHttpDate_eq (headerValue value)
    have hdate := fun {milliseconds} => @reads_date _ now.toInt hnumber milliseconds
    simp only [hfound, Lib.ok_bind]
    cases found with
    | none =>
      refine ⟨none, rfl, fun milliseconds => ?_⟩
      simp only [reduceCtorEq, false_iff, not_and]
      intro hfew hreads
      obtain ⟨t, hspells, _⟩ := (hdate hfew).mp hreads
      exact absurd ((hspelled t).mpr ⟨t, rfl, hspells⟩) (by simp)
    | some target =>
      obtain ⟨t, rfl, hspells⟩ := (hspelled target).mp rfl
      have hunique : ∀ t' : Nat, Spells (headerValue value) (fieldsOf t') → t' = t := by
        intro t' hspells'
        have heq := (hspelled t').mpr ⟨t', rfl, hspells'⟩
        simpa using heq.symm
      by_cases hpast : (t : Int) ≤ now.toInt
      · refine ⟨none, by simp [hpast]; rfl, fun milliseconds => ?_⟩
        simp only [reduceCtorEq, false_iff, not_and]
        intro hfew hreads
        obtain ⟨t', hspells', hlater, _⟩ := (hdate hfew).mp hreads
        rw [hunique t' hspells'] at hlater
        omega
      · have hnear := h t hspells
        have hmax : maxI64 = 2 ^ 63 - 1 := rfl
        have hlimit : usizeLimit = 2 ^ 64 := rfl
        refine ⟨delayMilliseconds (t - now.toInt).toNat, ?_, fun milliseconds => ?_⟩
        · simp only [hpast, if_false]
          rw [DateFields.i64_eq (by omega), Lib.ok_bind, DateFields.unsigned_eq (by omega)]
          rfl
        rw [delayMilliseconds_eq_some]
        refine and_congr_right (fun hfew => ?_)
        rw [hdate hfew]
        constructor
        · intro heq
          exact ⟨t, hspells, by omega, by omega⟩
        · intro ⟨t', hspells', hlater, heq⟩
          rw [hunique t' hspells'] at heq
          omega

theorem parseRetryAfter_far {now : Int64} (h : ¬InReach (headerValue value) now.toInt) :
    parseRetryAfter value now = .error .integerOverflow := by
  simp only [InReach, not_forall] at h
  obtain ⟨t, hspells, hfar⟩ := h
  have hvalue : trim (ascii " \t") value = headerValue value := rfl
  have hcomma := comma_mem hspells
  have hlength : (headerValue value).length ≠ 0 := by
    have := length_pos_of_mem hcomma
    omega
  have hnumber : parseInt usizeLimit (headerValue value) = none := by
    rw [Option.eq_none_iff_forall_ne_some]
    intro n hn
    exact comma_not_mem ((parseInt_iff (by decide)).mp hn).1 hcomma
  obtain ⟨found, hfound, hspelled⟩ := parseHttpDate_eq (headerValue value)
  obtain rfl := (hspelled t).mpr ⟨t, rfl, hspells⟩
  have hmax : maxI64 = 2 ^ 63 - 1 := rfl
  have hpast : ¬(t : Int) ≤ now.toInt := by omega
  have hoverflow : i64 (t - now.toInt) = .error .integerOverflow := if_neg (by omega)
  simp only [parseRetryAfter, hvalue, hlength, hnumber, hfound, Lib.ok_bind, hpast, hoverflow, if_false]
  rfl

/-- Guidance is exact unless the value is read in spite of a sign or a separator, or is a date too
far ahead. -/
theorem parseRetryAfter_exact_iff (value : Bytes) (now : Int64) :
    Exact value now ↔
      (Marked (headerValue value) →
        ∀ milliseconds, Reads (headerValue value) now.toInt milliseconds → maxI64 < milliseconds) ∧
      InReach (headerValue value) now.toInt := by
  by_cases hreach : InReach (headerValue value) now.toInt
  · obtain ⟨found, hfound, hread⟩ := parseRetryAfter_inReach hreach
    simp only [Exact, hfound, Except.ok.injEq, exists_eq_left', hread, guides_iff, hreach, and_true]
    constructor
    · intro h hmarked milliseconds hreads
      by_contra hfew
      exact ((h milliseconds).mp ⟨by omega, hreads⟩).2.2 hmarked
    · intro h milliseconds
      constructor
      · intro ⟨hfew, hreads⟩
        refine ⟨hfew, hreads, fun hmarked => ?_⟩
        have := h hmarked milliseconds hreads
        omega
      · intro ⟨hfew, hreads, _⟩
        exact ⟨hfew, hreads⟩
  · simp [Exact, parseRetryAfter_far hreach, hreach]

/-- The server sent no guidance, and the next request waits for five seconds. -/
theorem plus_not_exact : ¬Exact (ascii "+5") 0 := by
  intro ⟨found, hfound, hguides⟩
  have hnumber : parseInt usizeLimit (trim (ascii " \t") (ascii "+5")) = some 5 := by decide +kernel
  have hdelay : delayMilliseconds 5 = some 5000 := by decide +kernel
  have hlength : (trim (ascii " \t") (ascii "+5")).length ≠ 0 := by decide +kernel
  have hread : parseRetryAfter (ascii "+5") 0 = .ok (some 5000) := by
    simp [parseRetryAfter, hnumber, hdelay, hlength]
  obtain rfl := Except.ok.inj (hread.symm.trans hfound)
  exact (guides_iff.mp ((hguides 5000).mp rfl)).2.2 ⟨0x2b, by decide +kernel, by decide⟩

end Bbr.Http
