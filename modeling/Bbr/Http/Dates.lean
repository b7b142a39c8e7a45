import Mathlib.Data.List.Nodup
import Bbr.Http.Digits
import Bbr.Lib.Calendar
import Bbr.Lib.Results

/-!
# Dates are read exactly

A date is spelled by the names and numbers of its second. The reader finds the second of every
spelling, and nothing in a text that spells none.
-/
namespace Bbr.Http

open List Bbr.Lib

open Bbr.Diff (ascii parseInt usizeLimit)
open Bbr.Highlight (slice trim)
open Lib.Calendar (Date daysInYear)

/-- A text with the separators of an IMF-fixdate. -/
def dateText (weekday day month year hour minute second : Bytes) : Bytes :=
  weekday ++ (ascii ", " ++ (day ++ (ascii " " ++ (month ++ (ascii " " ++ (year ++ (ascii " " ++
    (hour ++ (ascii ":" ++ (minute ++ (ascii ":" ++ (second ++ ascii " GMT"))))))))))))

theorem slice_append_drop (text : Bytes) {start stop : Nat} (h : start ≤ stop) :
    slice text start stop ++ text.drop stop = text.drop start := by
  have hdrop : text.drop stop = (text.drop start).drop (stop - start) := by
    rw [drop_drop, Nat.add_sub_cancel' h]
  rw [slice, hdrop, take_append_drop]

theorem HasSeparators.eq {value : Bytes} (h : HasSeparators value) :
    value = dateText (slice value 0 3) (slice value 5 7) (slice value 8 11) (slice value 12 16)
      (slice value 17 19) (slice value 20 22) (slice value 23 25) := by
  obtain ⟨_, hcomma, hday, hmonth, hyear, hhour, hminute, hzone⟩ := h
  have hpieces : value = slice value 0 3 ++ (slice value 3 5 ++ (slice value 5 7 ++
      (slice value 7 8 ++ (slice value 8 11 ++ (slice value 11 12 ++ (slice value 12 16 ++
      (slice value 16 17 ++ (slice value 17 19 ++ (slice value 19 20 ++ (slice value 20 22 ++
      (slice value 22 23 ++ (slice value 23 25 ++ value.drop 25)))))))))))) := by
    simp [slice_append_drop]
  rw [hcomma, hday, hmonth, hyear, hhour, hminute, hzone] at hpieces
  exact hpieces

theorem slices_dateText {w d mo y h mi s : Bytes} (hw : w.length = 3) (hd : d.length = 2)
    (hmo : mo.length = 3) (hy : y.length = 4) (hh : h.length = 2) (hmi : mi.length = 2)
    (hs : s.length = 2) : HasSeparators (dateText w d mo y h mi s) ∧
    slice (dateText w d mo y h mi s) 0 3 = w ∧ slice (dateText w d mo y h mi s) 5 7 = d ∧
    slice (dateText w d mo y h mi s) 8 11 = mo ∧ slice (dateText w d mo y h mi s) 12 16 = y ∧
    slice (dateText w d mo y h mi s) 17 19 = h ∧ slice (dateText w d mo y h mi s) 20 22 = mi ∧
    slice (dateText w d mo y h mi s) 23 25 = s := by
  match w, d, mo, y, h, mi, s with
  | [_, _, _], [_, _], [_, _, _], [_, _, _, _], [_, _], [_, _], [_, _] =>
    exact ⟨⟨rfl, rfl, rfl, rfl, rfl, rfl, rfl, rfl⟩, rfl, rfl, rfl, rfl, rfl, rfl, rfl⟩

theorem findIdx?_name {names : List Bytes} (hnodup : names.Nodup) {value : Bytes} {i : Nat} :
    names.findIdx? (fun name => value == name) = some i ↔ names[i]? = some value := by
  rw [List.findIdx?_eq_some_iff_getElem]
  constructor
  · intro ⟨hi, heq, _⟩
    rw [List.getElem?_eq_getElem hi, eq_of_beq heq]
  intro h
  obtain ⟨hi, rfl⟩ := List.getElem?_eq_some_iff.mp h
  refine ⟨hi, by simp, fun j hj heq => ?_⟩
  exact absurd (hnodup.getElem_inj_iff.mp (eq_of_beq heq)) (by omega)

theorem parseWeekday_eq_some {value : Bytes} {weekday : Nat} :
    parseWeekday value = some weekday ↔ weekdays[weekday]? = some value :=
  findIdx?_name (by decide)

theorem parseMonth_eq_some {value : Bytes} {month : Nat} :
    parseMonth value = some month ↔ 1 ≤ month ∧ months[month - 1]? = some value := by
  have hname := fun {i} => @findIdx?_name months (by decide) value i
  simp only [parseMonth, Option.map_eq_some_iff, hname]
  constructor
  · intro ⟨i, hi, heq⟩
    rw [← heq]
    exact ⟨by omega, hi⟩
  · intro ⟨hlow, hmonth⟩
    exact ⟨month - 1, hmonth, by omega⟩

/-- The text spells the names and numbers. -/
def Spells (value : Bytes) (f : DateFields) : Prop :=
  ∃ weekday day month year hour minute second : Bytes,
    value = dateText weekday day month year hour minute second ∧
    weekdays[f.weekday]? = some weekday ∧ SpellsTwo day f.day ∧
    (1 ≤ f.month ∧ months[f.month - 1]? = some month) ∧
    (year.length = 4 ∧ DigitsOf year f.year) ∧
    SpellsTwo hour f.hour ∧ SpellsTwo minute f.minute ∧ SpellsTwo second f.second

theorem length_weekday {i : Nat} {name : Bytes} (h : weekdays[i]? = some name) : name.length = 3 :=
  (show ∀ name ∈ weekdays, name.length = 3 by decide) name (mem_of_getElem? h)

theorem length_month {i : Nat} {name : Bytes} (h : months[i]? = some name) : name.length = 3 :=
  (show ∀ name ∈ months, name.length = 3 by decide) name (mem_of_getElem? h)

theorem length_slice {text : Bytes} {start stop : Nat}
    (hstop : stop ≤ text.length) : (slice text start stop).length = stop - start := by
  simp [slice]
  omega

theorem readFields_eq_some {value : Bytes} {f : DateFields} :
    readFields value = some f ↔ f.InRange ∧ Spells value f := by
  constructor
  · intro h
    rw [readFields] at h
    by_cases hshape : HasSeparators value
    · have hlen := fun {start stop} (hstop : stop ≤ 29) =>
        @length_slice value start stop (by rw [hshape.1]; exact hstop)
      simp only [hshape, not_true_eq_false, if_false, Option.bind_eq_bind, Option.bind_eq_some_iff] at h
      obtain ⟨weekday, hweekday, day, hday, month, hmonth, year, hyear, hour, hhour, minute, hminute,
        second, hsecond, hrange⟩ := h
      split at hrange
      · next hin =>
        cases hrange
        have hfrom : 1970 ≤ year := by
          simp only [DateFields.InRange] at hin
          omega
        refine ⟨hin, _, _, _, _, _, _, _, hshape.eq, parseWeekday_eq_some.mp hweekday, ?_, ?_, ?_, ?_,
          ?_, ?_⟩
        · exact (parseInt_two (hlen (by omega))).mp hday
        · exact parseMonth_eq_some.mp hmonth
        · have hwidth := @hlen 12 16 (by omega)
          exact ⟨hwidth, (parseInt_year hwidth hfrom).mp hyear⟩
        · exact (parseInt_two (hlen (by omega))).mp hhour
        · exact (parseInt_two (hlen (by omega))).mp hminute
        · exact (parseInt_two (hlen (by omega))).mp hsecond
      · cases hrange
    · simp [hshape] at h
  · intro ⟨hin, w, d, mo, y, h, mi, s, hvalue, hweekday, hday, hmonth, hyear, hhour, hminute, hsecond⟩
    have hfrom : 1970 ≤ f.year := by
      simp only [DateFields.InRange] at hin
      omega
    obtain ⟨hshape, hw, hd, hmo, hy, hh, hmi, hs⟩ := slices_dateText (length_weekday hweekday)
      hday.length (length_month hmonth.2) hyear.1 hhour.length hminute.length hsecond.length
    rw [← hvalue] at hshape hw hd hmo hy hh hmi hs
    rw [readFields, hw, hd, hmo, hy, hh, hmi, hs, parseWeekday_eq_some.mpr hweekday,
      (parseInt_two hday.length).mpr hday, parseMonth_eq_some.mpr hmonth,
      (parseInt_year hyear.1 hfrom).mpr hyear.2, (parseInt_two hhour.length).mpr hhour,
      (parseInt_two hminute.length).mpr hminute, (parseInt_two hsecond.length).mpr hsecond]
    simp [hshape, hin]

theorem isLeap_eq (year : Nat) : isLeap year = Lib.Calendar.isLeap year := rfl

theorem daysInMonth_eq (year month : Nat) :
    daysInMonth year month = Lib.Calendar.daysInMonth year month := rfl

/-- The names and numbers of a second. -/
def fieldsOf (t : Nat) : DateFields where
  weekday := Date.weekday (t / 86400)
  day := (Date.ofDay (t / 86400)).day
  month := (Date.ofDay (t / 86400)).month
  year := (Date.ofDay (t / 86400)).year
  hour := t / 3600 % 24
  minute := t / 60 % 60
  second := t % 60

namespace DateFields

def date (f : DateFields) : Date := ⟨f.year, f.month, f.day⟩

/-- The second that the numbers say; they do not look at the weekday. -/
def instant (f : DateFields) : Nat :=
  f.date.toDay * 86400 + f.hour * 3600 + f.minute * 60 + f.second

variable {f : DateFields}

theorem InRange.clock (h : f.InRange) : f.hour < 24 ∧ f.minute < 60 ∧ f.second < 60 := by
  simp only [InRange] at h
  omega

theorem InRange.valid (h : f.InRange) (hmonth : 1 ≤ f.month ∧ f.month ≤ 12) : f.date.Valid := by
  simp only [InRange, daysInMonth_eq] at h
  exact ⟨by simp [date]; omega, hmonth, by simp [date]; omega⟩

/-- A second is told by its numbers, and only it by them and its weekday. -/
theorem fieldsOf_iff (h : f.InRange) (hmonth : 1 ≤ f.month ∧ f.month ≤ 12)
    {t : Nat} : fieldsOf t = f ↔ t = f.instant ∧ Date.weekday f.date.toDay = f.weekday := by
  have hclock := h.clock
  constructor
  · rintro rfl
    have hdate : (fieldsOf t).date = Date.ofDay (t / 86400) := rfl
    rw [instant, hdate, Date.toDay_ofDay]
    exact ⟨by simp only [fieldsOf]; omega, rfl⟩
  intro ⟨ht, hweekday⟩
  have hday : t / 86400 = f.date.toDay := by
    rw [instant] at ht
    omega
  have hofDay := Date.ofDay_toDay (h.valid hmonth)
  have hhour : t / 3600 % 24 = f.hour := by
    rw [instant] at ht
    omega
  have hminute : t / 60 % 60 = f.minute := by
    rw [instant] at ht
    omega
  have hsecond : t % 60 = f.second := by
    rw [instant] at ht
    omega
  rw [fieldsOf, hday, hofDay, hweekday, hhour, hminute, hsecond]
  rfl

theorem fieldsOf_inRange (t : Nat) : (fieldsOf t).InRange := by
  have hvalid := Date.valid_ofDay (t / 86400)
  have hyear := hvalid.year
  have hday := hvalid.day
  simp only [InRange, fieldsOf, daysInMonth_eq]
  omega

theorem i64_eq {v : Int} (h : -2 ^ 63 ≤ v ∧ v < 2 ^ 63) : i64 v = .ok v := if_pos h

theorem unsigned_eq {limit : Nat} {v : Int} (h : 0 ≤ v ∧ v < limit) :
    unsigned limit v = .ok v.toNat := if_pos h

theorem foldlM_i64 {size : Nat → Nat} {bound : Nat} (hsize : ∀ n, size n ≤ bound) (l : List Nat)
    (days : Nat) (h : days + bound * l.length < 2 ^ 63) :
    l.foldlM (fun (days : Int) n => i64 (days + size n)) (days : Int) =
      .ok ((days + (l.map size).sum : Nat) : Int) := by
  induction l generalizing days with
  | nil => simp [pure, Except.pure]
  | cons n l ih =>
    have hn := hsize n
    rw [length_cons, Nat.mul_succ] at h
    have hstep : (days : Int) + size n = ((days + size n : Nat) : Int) := by simp
    rw [foldlM_cons, hstep, i64_eq (by omega), ok_bind, ih _ (by omega)]
    simp [Nat.add_assoc]

section

variable (h : f.InRange) (hmonth : 1 ≤ f.month ∧ f.month ≤ 12) (hyear : f.year ≤ 9999)
include h hmonth hyear

theorem days_eq : f.days = .ok (f.date.toDay : Int) := by
  have hyears : (fun (days : Int) year => i64 (days + if isLeap year then 366 else 365)) =
      fun (days : Int) year => i64 (days + (daysInYear year : Nat)) := by
    funext days year
    rw [daysInYear, ← isLeap_eq]
    cases isLeap year <;> rfl
  have hlong : ∀ year, daysInYear year ≤ 366 := by
    intro year
    rw [daysInYear]
    split <;> omega
  have hday := (h.valid hmonth).day
  have hbefore := Date.daysBeforeYear_le f.year
  have hmonths := Date.daysBeforeMonth_le f.year f.month
  have hfirst : (range' 1970 (f.year - 1970)).foldlM
      (fun (days : Int) year => i64 (days + (daysInYear year : Nat))) 0 =
        .ok ((Date.daysBeforeYear f.year : Nat) : Int) := by
    have hsum := foldlM_i64 hlong (range' 1970 (f.year - 1970)) 0 (by simp; omega)
    rw [Nat.zero_add] at hsum
    exact hsum
  have hsecond : (range' 1 (f.month - 1)).foldlM
      (fun (days : Int) month => i64 (days + daysInMonth f.year month))
        ((Date.daysBeforeYear f.year : Nat) : Int) =
        .ok ((Date.daysBeforeYear f.year + Date.daysBeforeMonth f.year f.month : Nat) : Int) :=
    foldlM_i64 (Lib.Calendar.Date.daysInMonth_le f.year) _ _ (by simp; omega)
  have hthird : (f.day : Int) - 1 = ((f.day - 1 : Nat) : Int) := by
    have := hday.1
    simp only [date] at this
    omega
  have hlast := Lib.Calendar.Date.daysInMonth_le f.year f.month
  simp only [date] at hday
  rw [days, hyears, hfirst, ok_bind, hsecond, ok_bind, hthird,
    unsigned_eq (by omega), ok_bind, i64_eq (by omega)]
  simp only [Date.toDay, date, Int.toNat_natCast]
  exact congrArg Except.ok (by omega)

theorem seconds_eq : f.seconds =
      .ok (if Date.weekday f.date.toDay = f.weekday then some (f.instant : Int) else none) := by
  have hclock := h.clock
  have hday := (h.valid hmonth).day
  have hbefore := Date.daysBeforeYear_le f.year
  have hmonths := Date.daysBeforeMonth_le f.year f.month
  have hlast := Lib.Calendar.Date.daysInMonth_le f.year f.month
  have hfew : f.date.toDay < 2 ^ 23 := by
    simp only [Date.toDay, date] at hday ⊢
    omega
  have hweekday : ((f.date.toDay : Int) + 4) % 7 = ((Date.weekday f.date.toDay : Nat) : Int) := by
    rw [Date.weekday]
    omega
  rw [seconds, days_eq h hmonth hyear, ok_bind, i64_eq (by omega), ok_bind, hweekday,
    unsigned_eq (by omega), ok_bind, Int.toNat_natCast]
  by_cases heq : Date.weekday f.date.toDay = f.weekday
  · rw [if_neg (by simpa using heq), if_pos heq, i64_eq (by omega), ok_bind,
      i64_eq (by omega), ok_bind, i64_eq (by omega), ok_bind, i64_eq (by omega),
      ok_bind, i64_eq (by omega), ok_bind, i64_eq (by omega), ok_bind]
    simp [instant, pure, Except.pure]
  · rw [if_pos heq, if_neg heq]
    rfl

end

end DateFields

theorem Spells.month {value : Bytes} {f : DateFields} (h : Spells value f) :
    1 ≤ f.month ∧ f.month ≤ 12 := by
  obtain ⟨_, _, _, _, _, _, _, _, _, _, hmonth, _⟩ := h
  have hlt := (List.getElem?_eq_some_iff.mp hmonth.2).1
  have htwelve : months.length = 12 := rfl
  omega

theorem Spells.year {value : Bytes} {f : DateFields} (h : Spells value f) : f.year ≤ 9999 := by
  obtain ⟨_, _, _, _, _, _, _, _, _, _, _, hyear, _⟩ := h
  have hlt := hyear.2.2.1
  rw [hyear.1] at hlt
  omega

/-- The reader ends on every text, and finds the second that the text spells. -/
theorem parseHttpDate_eq (value : Bytes) : ∃ found, parseHttpDate value = .ok found ∧
    ∀ target, found = some target ↔ ∃ t : Nat, target = t ∧ Spells value (fieldsOf t) := by
  rw [parseHttpDate]
  cases hread : readFields value with
  | none =>
    refine ⟨none, rfl, fun target => ?_⟩
    simp only [reduceCtorEq, false_iff, not_exists, not_and]
    intro t _ hspells
    rw [readFields_eq_some.mpr ⟨DateFields.fieldsOf_inRange t, hspells⟩] at hread
    simp at hread
  | some f =>
    obtain ⟨hrange, hspells⟩ := readFields_eq_some.mp hread
    refine ⟨_, DateFields.seconds_eq hrange hspells.month hspells.year, fun target => ?_⟩
    have hunique : ∀ t, Spells value (fieldsOf t) ↔ fieldsOf t = f := by
      intro t
      constructor
      · intro h
        have hsame := readFields_eq_some.mpr ⟨DateFields.fieldsOf_inRange t, h⟩
        exact Option.some.inj (hsame.symm.trans hread)
      · rintro rfl
        exact hspells
    simp only [hunique, DateFields.fieldsOf_iff hrange hspells.month]
    by_cases heq : Date.weekday f.date.toDay = f.weekday
    · simp [heq, eq_comm]
    · simp [heq]

end Bbr.Http
