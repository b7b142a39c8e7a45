import Mathlib.Algebra.BigOperators.Group.List.Basic
import Mathlib.Data.List.Range
import Mathlib.Tactic.IntervalCases

/-!
# The Gregorian calendar

A day's date is the date after that of the day before. The days in front of a date are counted by
years and months.
-/
namespace Bbr.Lib.Calendar

def isLeap (year : Nat) : Bool :=
  year % 4 = 0 && (year % 100 ≠ 0 || year % 400 = 0)

def daysInMonth (year month : Nat) : Nat :=
  match month with
  | 1 | 3 | 5 | 7 | 8 | 10 | 12 => 31
  | 4 | 6 | 9 | 11 => 30
  | 2 => if isLeap year then 29 else 28
  | _ => 0

def daysInYear (year : Nat) : Nat := if isLeap year then 366 else 365

structure Date where
  year : Nat
  month : Nat
  day : Nat
  deriving DecidableEq, Repr

namespace Date

/-- A day of the calendar from 1970 on. -/
structure Valid (d : Date) : Prop where
  year : 1970 ≤ d.year
  month : 1 ≤ d.month ∧ d.month ≤ 12
  day : 1 ≤ d.day ∧ d.day ≤ daysInMonth d.year d.month

def next (d : Date) : Date :=
  if d.day < daysInMonth d.year d.month then { d with day := d.day + 1 }
  else if d.month < 12 then ⟨d.year, d.month + 1, 1⟩
  else ⟨d.year + 1, 1, 1⟩

/-- The date of a day, counted from 1 January 1970. -/
def ofDay : Nat → Date
  | 0 => ⟨1970, 1, 1⟩
  | n + 1 => (ofDay n).next

/-- 1 January 1970 was a Thursday; Sunday is 0. -/
def weekday (n : Nat) : Nat := (n + 4) % 7

theorem one_le_daysInMonth {year month : Nat} (h : 1 ≤ month ∧ month ≤ 12) :
    28 ≤ daysInMonth year month := by
  obtain ⟨hlow, hhigh⟩ := h
  interval_cases month <;> simp [daysInMonth]
  split <;> omega

theorem daysInMonth_le (year month : Nat) : daysInMonth year month ≤ 31 := by
  unfold daysInMonth
  split <;> try split
  all_goals omega

theorem Valid.next {d : Date} (h : d.Valid) : d.next.Valid := by
  have hyear := h.year
  have hmonth := h.month
  rw [Date.next]
  split
  · exact ⟨hyear, hmonth, by simp; omega⟩
  split
  · have hlong := @one_le_daysInMonth d.year (d.month + 1) (by omega)
    exact ⟨hyear, by simp; omega, by simp; omega⟩
  · have hlong := @one_le_daysInMonth (d.year + 1) 1 (by omega)
    exact ⟨by simp; omega, by simp, by simp; omega⟩

theorem valid_ofDay (n : Nat) : (ofDay n).Valid := by
  induction n with
  | zero => exact ⟨by simp [ofDay], by simp [ofDay], by simp [ofDay, daysInMonth]⟩
  | succ n ih => exact ih.next

/-- The days of the years from 1970 to a year. -/
def daysBeforeYear (year : Nat) : Nat :=
  ((List.range' 1970 (year - 1970)).map daysInYear).sum

/-- The days of a year in front of a month. -/
def daysBeforeMonth (year month : Nat) : Nat :=
  ((List.range' 1 (month - 1)).map (daysInMonth year)).sum

theorem daysBeforeYear_succ {year : Nat} (h : 1970 ≤ year) :
    daysBeforeYear (year + 1) = daysBeforeYear year + daysInYear year := by
  have hcount : year + 1 - 1970 = year - 1970 + 1 := by omega
  have hlast : 1970 + (year - 1970) = year := by omega
  simp [daysBeforeYear, hcount, List.range'_1_concat, hlast]

theorem daysBeforeMonth_succ {year month : Nat} (h : 1 ≤ month) :
    daysBeforeMonth year (month + 1) = daysBeforeMonth year month + daysInMonth year month := by
  have hcount : month + 1 - 1 = month - 1 + 1 := by omega
  have hlast : 1 + (month - 1) = month := by omega
  simp only [daysBeforeMonth, hcount, List.range'_1_concat, hlast]
  simp

theorem daysBeforeMonth_last (year : Nat) :
    daysBeforeMonth year 12 + daysInMonth year 12 = daysInYear year := by
  by_cases h : isLeap year <;> simp [daysBeforeMonth, List.range', daysInMonth, daysInYear, h]

/-- The days in front of a date. -/
def toDay (d : Date) : Nat := daysBeforeYear d.year + daysBeforeMonth d.year d.month + (d.day - 1)

theorem toDay_next {d : Date} (h : d.Valid) : d.next.toDay = d.toDay + 1 := by
  have hmonth := h.month
  have hday := h.day
  rw [Date.next]
  split
  · simp only [toDay]
    omega
  have hfull : d.day = daysInMonth d.year d.month := by omega
  split
  · have hsum := @daysBeforeMonth_succ d.year d.month hmonth.1
    simp only [toDay]
    omega
  · have hlast : d.month = 12 := by omega
    have hyear := daysBeforeYear_succ h.year
    have hsum := daysBeforeMonth_last d.year
    have hnew : daysBeforeMonth (d.year + 1) 1 = 0 := by simp [daysBeforeMonth]
    rw [hlast] at hfull
    simp only [toDay, hlast]
    omega

@[simp] theorem toDay_ofDay (n : Nat) : (ofDay n).toDay = n := by
  induction n with
  | zero => simp [ofDay, toDay, daysBeforeYear, daysBeforeMonth]
  | succ n ih => rw [ofDay, toDay_next (valid_ofDay n), ih]

theorem ofDay_day {n year month : Nat} (h : ofDay n = ⟨year, month, 1⟩) {k : Nat}
    (hk : k < daysInMonth year month) : ofDay (n + k) = ⟨year, month, k + 1⟩ := by
  induction k with
  | zero => exact h
  | succ k ih =>
    rw [← Nat.add_assoc, ofDay, ih (by omega), next, if_pos hk]

theorem ofDay_month {n year : Nat} (h : ofDay n = ⟨year, 1, 1⟩) {month : Nat}
    (hmonth : 1 ≤ month ∧ month ≤ 12) : ofDay (n + daysBeforeMonth year month) = ⟨year, month, 1⟩ := by
  obtain ⟨hlow, hhigh⟩ := hmonth
  induction month, hlow using Nat.le_induction with
  | base => simpa [daysBeforeMonth] using h
  | succ month hlow ih =>
    have hlong := @one_le_daysInMonth year month (by omega)
    have hlast := @ofDay_day _ year month (ih (by omega)) (daysInMonth year month - 1) (by omega)
    have hday : n + daysBeforeMonth year (month + 1) =
        n + daysBeforeMonth year month + (daysInMonth year month - 1) + 1 := by
      have hsum := @daysBeforeMonth_succ year month hlow
      omega
    rw [hday, ofDay, hlast, next, if_neg (by simp; omega), if_pos (by simp; omega)]

theorem ofDay_year {year : Nat} (h : 1970 ≤ year) : ofDay (daysBeforeYear year) = ⟨year, 1, 1⟩ := by
  induction year, h using Nat.le_induction with
  | base => simp [daysBeforeYear, ofDay]
  | succ year h ih =>
    have hdecember := @ofDay_month _ year ih 12 (by omega)
    have hlast := ofDay_day hdecember (k := 30) (by simp [daysInMonth])
    have hday : daysBeforeYear (year + 1) = daysBeforeYear year + daysBeforeMonth year 12 + 30 + 1 := by
      have hsum := daysBeforeYear_succ h
      have hmonths := daysBeforeMonth_last year
      simp only [daysInMonth] at hmonths
      omega
    rw [hday, ofDay, hlast, next, if_neg (by simp [daysInMonth]), if_neg (by simp)]

theorem ofDay_toDay {d : Date} (h : d.Valid) : ofDay d.toDay = d := by
  have hmonth := ofDay_month (ofDay_year h.year) h.month
  have hday := ofDay_day hmonth (k := d.day - 1) (by have := h.day; omega)
  rw [toDay, hday, Nat.sub_add_cancel h.day.1]

theorem daysBeforeYear_le (year : Nat) : daysBeforeYear year ≤ 366 * (year - 1970) := by
  rw [daysBeforeYear]
  generalize year - 1970 = n
  induction n with
  | zero => simp
  | succ n ih =>
    have hyear : daysInYear (1970 + n) ≤ 366 := by
      rw [daysInYear]
      split <;> omega
    rw [List.range'_1_concat]
    simp
    omega

theorem daysBeforeMonth_le (year month : Nat) : daysBeforeMonth year month ≤ 31 * (month - 1) := by
  rw [daysBeforeMonth]
  generalize month - 1 = n
  induction n with
  | zero => simp
  | succ n ih =>
    have hmonth := daysInMonth_le year (1 + n)
    rw [List.range'_1_concat]
    simp
    omega

end Date
end Bbr.Lib.Calendar
