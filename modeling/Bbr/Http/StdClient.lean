import Bbr.Highlight.Bundle
import Mathlib.Algebra.Group.Int.Defs
import Mathlib.Algebra.Group.Nat.Defs

/-!
# Retry-After guidance

How long the server asks to wait: in seconds, or as a date in one fixed form. Arithmetic that leaves
its type stops the program.
-/
namespace Bbr.Http

open Bbr.Diff (ascii parseInt usizeLimit)
open Bbr.Highlight (slice trim)

inductive Trap where
  | integerOverflow
  deriving DecidableEq, Repr

def i64 (v : Int) : Except Trap Int :=
  if -2 ^ 63 ≤ v ∧ v < 2 ^ 63 then .ok v else .error .integerOverflow

/-- A value below the limit of an unsigned type. -/
def unsigned (limit : Nat) (v : Int) : Except Trap Nat :=
  if 0 ≤ v ∧ v < limit then .ok v.toNat else .error .integerOverflow

def maxI64 : Nat := 2 ^ 63 - 1

def weekdays : List Bytes := ["Sun", "Mon", "Tue", "Wed", "Thu", "Fri", "Sat"].map ascii

def months : List Bytes :=
  ["Jan", "Feb", "Mar", "Apr", "May", "Jun", "Jul", "Aug", "Sep", "Oct", "Nov", "Dec"].map ascii

def parseWeekday (value : Bytes) : Option Nat := weekdays.findIdx? (fun name => value == name)

def parseMonth (value : Bytes) : Option Nat :=
  (months.findIdx? (fun name => value == name)).map (· + 1)

def isLeap (year : Nat) : Bool :=
  year % 4 = 0 && (year % 100 ≠ 0 || year % 400 = 0)

def daysInMonth (year month : Nat) : Nat :=
  match month with
  | 1 | 3 | 5 | 7 | 8 | 10 | 12 => 31
  | 4 | 6 | 9 | 11 => 30
  | 2 => if isLeap year then 29 else 28
  | _ => 0

/-- The numbers of an IMF-fixdate. -/
structure DateFields where
  weekday : Nat
  day : Nat
  month : Nat
  year : Nat
  hour : Nat
  minute : Nat
  second : Nat
  deriving DecidableEq, Repr

/-- Where an IMF-fixdate has its separators: `Sun, 06 Nov 1994 08:49:37 GMT`. -/
def HasSeparators (value : Bytes) : Prop :=
  value.length = 29 ∧ slice value 3 5 = ascii ", " ∧ slice value 7 8 = ascii " " ∧
    slice value 11 12 = ascii " " ∧ slice value 16 17 = ascii " " ∧ slice value 19 20 = ascii ":" ∧
    slice value 22 23 = ascii ":" ∧ value.drop 25 = ascii " GMT"

instance (value : Bytes) : Decidable (HasSeparators value) :=
  inferInstanceAs (Decidable (_ ∧ _))

def DateFields.InRange (f : DateFields) : Prop :=
  ¬(f.year < 1970 ∨ f.day = 0 ∨ daysInMonth f.year f.month < f.day ∨ 23 < f.hour ∨ 59 < f.minute ∨
    59 < f.second)

instance (f : DateFields) : Decidable f.InRange := inferInstanceAs (Decidable (¬_))

def readFields (value : Bytes) : Option DateFields := do
  if ¬HasSeparators value then none
  let weekday ← parseWeekday (slice value 0 3)
  let day ← parseInt 256 (slice value 5 7)
  let month ← parseMonth (slice value 8 11)
  let year ← parseInt 65536 (slice value 12 16)
  let hour ← parseInt 256 (slice value 17 19)
  let minute ← parseInt 256 (slice value 20 22)
  let second ← parseInt 256 (slice value 23 25)
  let fields := ⟨weekday, day, month, year, hour, minute, second⟩
  if fields.InRange then some fields else none

/-- The days from 1970 to the date. The counters of the two loops end at the year and the month. -/
def DateFields.days (f : DateFields) : Except Trap Int := do
  let days ← (List.range' 1970 (f.year - 1970)).foldlM
    (fun days year => i64 (days + if isLeap year then 366 else 365)) 0
  let days ← (List.range' 1 (f.month - 1)).foldlM
    (fun days month => i64 (days + daysInMonth f.year month)) days
  let before ← unsigned 256 (f.day - 1)
  i64 (days + before)

def DateFields.seconds (f : DateFields) : Except Trap (Option Int) := do
  let days ← f.days
  let shifted ← i64 (days + 4)
  let weekday ← unsigned 256 (shifted % 7)
  if weekday ≠ f.weekday then return none
  let ofDays ← i64 (days * 86400)
  let ofHours ← i64 (f.hour * 3600)
  let sum ← i64 (ofDays + ofHours)
  let ofMinutes ← i64 (f.minute * 60)
  let sum ← i64 (sum + ofMinutes)
  let sum ← i64 (sum + f.second)
  return some sum

def parseHttpDate (value : Bytes) : Except Trap (Option Int) :=
  match readFields value with
  | none => .ok none
  | some fields => fields.seconds

/-- Milliseconds that the caller can count in an `i64`. -/
def delayMilliseconds (seconds : Nat) : Option Nat :=
  if seconds * 1000 < usizeLimit then
    if seconds * 1000 ≤ maxI64 then some (seconds * 1000) else none
  else none

def parseRetryAfter (value : Bytes) (now : Int64) : Except Trap (Option Nat) :=
  let trimmed := trim (ascii " \t") value
  if trimmed.length = 0 then .ok none
  else match parseInt usizeLimit trimmed with
    | some seconds => .ok (delayMilliseconds seconds)
    | none => do
      match ← parseHttpDate trimmed with
      | none => return none
      | some target =>
        if target ≤ now.toInt then return none
        let delay ← i64 (target - now.toInt)
        let delay ← unsigned usizeLimit delay
        return delayMilliseconds delay

end Bbr.Http
