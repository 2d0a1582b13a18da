/-!
# The proleptic Gregorian calendar

Days are counted from the epoch, 1970-01-01. The count works with years that start on the first of
March, so that a leap day is the last day of its year, and with cycles of 400, 100, 4 and 1 years.

## Main definitions

* `Date`: a year, a month and a day.
* `Date.IsValid`: the month has that day.
* `Date.toDays`, `Date.ofDays`: the day count of a date and back.
-/

namespace Bitemporal

/-- A calendar date. -/
structure Date where
  /-- The year, with a year zero. -/
  year : Int
  /-- The month, from 1. -/
  month : Nat
  /-- The day of the month, from 1. -/
  day : Nat
deriving DecidableEq, Repr

namespace Date

/-- Whether a year has a 29th of February. -/
def isLeap (year : Int) : Bool := year % 4 = 0 ∧ (year % 100 ≠ 0 ∨ year % 400 = 0)

/-- The number of days of a month. -/
def monthLength (year : Int) (month : Nat) : Nat :=
  match month with
  | 2 => if isLeap year then 29 else 28
  | 4 | 6 | 9 | 11 => 30
  | _ => 31

/-- Whether the date exists. -/
def IsValid (d : Date) : Prop :=
  1 ≤ d.month ∧ d.month ≤ 12 ∧ 1 ≤ d.day ∧ d.day ≤ monthLength d.year d.month

instance (d : Date) : Decidable d.IsValid := inferInstanceAs (Decidable (_ ∧ _))

/-- Days from the first of March of year zero to the epoch. -/
def epochOffset : Int := 719468

/-- Days since the epoch. -/
def toDays (d : Date) : Int :=
  let year := if d.month ≤ 2 then d.year - 1 else d.year
  let month : Int := if d.month ≤ 2 then d.month + 9 else d.month - 3
  let dayOfYear := (153 * month + 2) / 5 + d.day - 1
  365 * year + year / 4 - year / 100 + year / 400 + dayOfYear - epochOffset

/-- The date of a day count. -/
def ofDays (days : Int) : Date :=
  let d := days + epochOffset
  let cycle := d / 146097
  let d := d % 146097
  let century := min 3 (d / 36524)
  let d := d - 36524 * century
  let four := d / 1461
  let d := d % 1461
  let one := min 3 (d / 365)
  let dayOfYear := d - 365 * one
  let year := 400 * cycle + 100 * century + 4 * four + one
  let month := (5 * dayOfYear + 2) / 153
  let day := dayOfYear - (153 * month + 2) / 5 + 1
  { year := if month < 10 then year else year + 1
    month := (if month < 10 then month + 3 else month - 9).toNat
    day := day.toNat }

end Date

end Bitemporal
