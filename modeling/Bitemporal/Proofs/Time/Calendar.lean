import Mathlib
import Bitemporal.Time.Calendar

/-!
# Counting days

The date of a day count exists, and its day count is the one that it was made from. A day count is
cut into cycles of 400, 100, 4 and 1 years that start in March, and what is left of it into months.
The last of four years is the only one with a leap day at its end, and so is the last century of
four.

## Main definitions

* `Date.ofMarch`: a date by its year, month and day, counted from March.
* `Date.IsMonthDay`: the month and the day of a day of the year.
* `Date.IsCut`: the parts of a day count.

## Main statements

* `Date.isValid_ofDays`: the date of a day count exists.
* `Date.toDays_ofDays`: the day count of the date of a day count.
* `Date.year_ofDays_lt_iff`: the dates before a year are those before its first day.
-/

namespace Bitemporal.Date

variable {year dayOfYear month day : Int}

/-- The date of a day and a month that is counted from the March of a year. -/
def ofMarch (year month day : Int) : Date where
  year := if month < 10 then year else year + 1
  month := (if month < 10 then month + 3 else month - 9).toNat
  day := day.toNat

/-- The day of the year on which a month that is counted from March starts. -/
def monthStart (month : Int) : Int := (153 * month + 2) / 5

/-- The month, counted from March, and the day of a day of the year. The last month is cut short by
the end of the year. -/
structure IsMonthDay (dayOfYear month day : Int) : Prop where
  month_nonneg : 0 ≤ month
  month_le : month ≤ 11
  day_pos : 1 ≤ day
  day_le : day ≤ monthStart (month + 1) - monthStart month
  sum : dayOfYear = monthStart month + day - 1
  dayOfYear_le : dayOfYear ≤ 365

theorem isMonthDay (h : 0 ≤ dayOfYear) (h' : dayOfYear ≤ 365) :
    IsMonthDay dayOfYear ((5 * dayOfYear + 2) / 153)
      (dayOfYear - monthStart ((5 * dayOfYear + 2) / 153) + 1) := by
  unfold monthStart
  constructor
  case day_le | sum =>
    unfold monthStart
    omega
  all_goals omega

/-- The day count of a date of a year that starts in March. -/
theorem toDays_ofMarch (h : IsMonthDay dayOfYear month day) :
    (ofMarch year month day).toDays =
      365 * year + year / 4 - year / 100 + year / 400 + dayOfYear - epochOffset := by
  obtain ⟨hnonneg, hle, hpos, -, hsum, -⟩ := h
  rw [monthStart] at hsum
  by_cases hearly : month < 10
  · simp only [toDays, ofMarch, hearly, if_true]
    rw [if_neg (by omega), if_neg (by omega)]
    omega
  · simp only [toDays, ofMarch, hearly, if_false]
    rw [if_pos (by omega), if_pos (by omega)]
    omega

/-- The months of a year that starts in March have their days, but for the leap day. -/
theorem isValid_ofMarch (h : IsMonthDay dayOfYear month day)
    (hleap : dayOfYear = 365 → isLeap (year + 1)) : (ofMarch year month day).IsValid := by
  obtain ⟨hnonneg, hle, hpos, hlength, hsum, hend⟩ := h
  unfold monthStart at hlength hsum
  have hday : 1 ≤ day.toNat := by omega
  by_cases hfebruary : month = 11
  · subst hfebruary
    have hlast : day.toNat ≤ if isLeap (year + 1) then 29 else 28 := by
      split
      · omega
      · have hne : dayOfYear ≠ 365 := fun heq => ‹¬_› (hleap heq)
        omega
    exact ⟨by simp [ofMarch], by simp [ofMarch], hday, hlast⟩
  · refine ⟨?_, ?_, hday, ?_⟩
    · simp only [ofMarch]
      omega
    · simp only [ofMarch]
      omega
    · interval_cases month
      all_goals
        simp [ofMarch, monthLength]
        omega

theorem monthLength_le (year : Int) (month : Nat) : monthLength year month ≤ 31 := by
  unfold monthLength
  split
  · split <;> decide
  all_goals decide

/-- The parts of a day count that starts on the first of March of the year zero. -/
structure IsCut (days cycle century four one dayOfYear : Int) : Prop where
  sum : days = 146097 * cycle + 36524 * century + 1461 * four + 365 * one + dayOfYear
  century_nonneg : 0 ≤ century
  century_le : century ≤ 3
  four_nonneg : 0 ≤ four
  four_le : four ≤ 24
  one_nonneg : 0 ≤ one
  one_le : one ≤ 3
  dayOfYear_nonneg : 0 ≤ dayOfYear
  dayOfYear_le : dayOfYear ≤ 365
  leap : dayOfYear = 365 → one = 3 ∧ (four = 24 → century = 3)

theorem exists_isCut (days : Int) : ∃ cycle century four one dayOfYear month day : Int,
    IsCut (days + epochOffset) cycle century four one dayOfYear ∧ IsMonthDay dayOfYear month day ∧
      ofDays days = ofMarch (400 * cycle + 100 * century + 4 * four + one) month day := by
  have hcut : ∃ cycle century four one dayOfYear : Int,
      IsCut (days + epochOffset) cycle century four one dayOfYear ∧
        ofDays days = ofMarch (400 * cycle + 100 * century + 4 * four + one)
          ((5 * dayOfYear + 2) / 153) (dayOfYear - monthStart ((5 * dayOfYear + 2) / 153) + 1) := by
    refine ⟨_, _, _, _, _, ?_, rfl⟩
    constructor <;> omega
  obtain ⟨cycle, century, four, one, dayOfYear, hcut, heq⟩ := hcut
  exact ⟨cycle, century, four, one, dayOfYear, _, _, hcut,
    isMonthDay hcut.dayOfYear_nonneg hcut.dayOfYear_le, heq⟩

section Cut

variable {days cycle century four one : Int} (h : IsCut days cycle century four one dayOfYear)
include h

/-- The leap years before a year are those that the parts count. -/
theorem IsCut.sum_year (heq : year = 400 * cycle + 100 * century + 4 * four + one) :
    365 * year + year / 4 - year / 100 + year / 400 + dayOfYear = days := by
  obtain ⟨hsum, _, _, _, _, _, _, _, _, -⟩ := h
  have hfour : year / 4 = 100 * cycle + 25 * century + four := by omega
  have hcentury : year / 100 = 4 * cycle + century := by omega
  have hcycle : year / 400 = cycle := by omega
  omega

/-- The year that ends with a leap day is a leap year. -/
theorem IsCut.isLeap (heq : year = 400 * cycle + 100 * century + 4 * four + one)
    (hday : dayOfYear = 365) : Date.isLeap (year + 1) := by
  obtain ⟨hone, hfour⟩ := h.leap hday
  obtain ⟨-, _, _, _, _, -, -, -, -, -⟩ := h
  simp only [Date.isLeap, decide_eq_true_eq]
  omega

end Cut

/-- The date of a day count exists. -/
theorem isValid_ofDays (days : Int) : (ofDays days).IsValid := by
  obtain ⟨cycle, century, four, one, dayOfYear, month, day, hcut, hday, heq⟩ := exists_isCut days
  rw [heq]
  exact isValid_ofMarch hday (hcut.isLeap rfl)

/-- The day count of the date of a day count is the count. -/
theorem toDays_ofDays (days : Int) : (ofDays days).toDays = days := by
  obtain ⟨cycle, century, four, one, dayOfYear, month, day, hcut, hday, heq⟩ := exists_isCut days
  rw [heq, toDays_ofMarch hday, hcut.sum_year rfl]
  omega

/-- A later year has no fewer leap days before it. -/
theorem leapDays_le {a b : Int} (h : a ≤ b) :
    a / 4 - a / 100 + a / 400 ≤ b / 4 - b / 100 + b / 400 := by
  have hfour : a / 4 ≤ b / 4 := by omega
  have hcentury (n : Int) : n / 100 = n / 4 / 25 := by omega
  rw [hcentury a, hcentury b]
  omega

/-- The dates before a year are those before its first day. -/
theorem year_ofDays_lt_iff (days year : Int) :
    (ofDays days).year < year ↔ days < toDays ⟨year, 1, 1⟩ := by
  obtain ⟨cycle, century, four, one, dayOfYear, month, day, hcut, hday, heq⟩ := exists_isCut days
  have hsum := hcut.sum_year rfl
  have hnonneg := hcut.dayOfYear_nonneg
  rw [heq]
  generalize 400 * cycle + 100 * century + 4 * four + one = march at hsum
  obtain ⟨-, -, hpos, hlength, hstart, -⟩ := hday
  unfold monthStart at hlength hstart
  have hfirst : toDays ⟨year, 1, 1⟩ = 365 * (year - 1) + ((year - 1) / 4 - (year - 1) / 100 +
      (year - 1) / 400) + 306 - epochOffset := by
    simp only [toDays]
    omega
  have hyear : (ofMarch march month day).year < year ↔
      march < year - 1 ∨ march = year - 1 ∧ dayOfYear < 306 := by
    simp only [ofMarch]
    split <;> omega
  rw [hyear, hfirst]
  -- a year begins 306 days after the March before it, and has 365 days or one more
  rcases lt_trichotomy march (year - 1) with hlt | rfl | hgt
  · have := leapDays_le hlt.le
    have := hcut.dayOfYear_le
    omega
  · omega
  · have := leapDays_le hgt.le
    omega

end Bitemporal.Date
