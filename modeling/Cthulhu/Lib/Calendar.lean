import Mathlib.Data.Nat.Basic
import Mathlib.Data.Int.Basic

/-!
# The Gregorian calendar

Days are counted from the first of January of year zero by going through the years and months one by one.
-/

namespace Cthulhu.Lib

/-- The rule for leap years. -/
def isLeap (year : ℕ) : Bool := year % 4 = 0 && (year % 100 ≠ 0 || year % 400 = 0)

/-- The number of days of a year. -/
def yearLength (year : ℕ) : ℕ := if isLeap year then 366 else 365

/-- The number of days of a month, from 1 on. -/
def monthLength (leap : Bool) : ℕ → ℕ
  | 2 => if leap then 29 else 28
  | 4 | 6 | 9 | 11 => 30
  | _ => 31

/-- The days before a year. -/
def daysBeforeYear : ℕ → ℕ
  | 0 => 0
  | year + 1 => daysBeforeYear year + yearLength year

/-- The days of a year before a month. -/
def daysBeforeMonth (leap : Bool) : ℕ → ℕ
  | 0 | 1 => 0
  | month + 2 => daysBeforeMonth leap (month + 1) + monthLength leap (month + 1)

/-- A day of the calendar. -/
structure Date where
  year : ℕ
  month : ℕ
  day : ℕ
  month_pos : 1 ≤ month
  month_le : month ≤ 12
  day_pos : 1 ≤ day
  day_le : day ≤ monthLength (isLeap year) month

/-- The days before a date. -/
def Date.daysBefore (d : Date) : ℕ := daysBeforeYear d.year + daysBeforeMonth (isLeap d.year) d.month + (d.day - 1)

/-- The number of the day from the first of January 1970 on. -/
def Date.unixDay (d : Date) : ℤ := d.daysBefore - daysBeforeYear 1970

/-- Every fourth year is a leap year, but of the hundredth ones only every fourth. -/
theorem daysBeforeYear_eq (year : ℕ) :
    daysBeforeYear year + (year + 99) / 100 = 365 * year + (year + 3) / 4 + (year + 399) / 400 := by
  induction year with
  | zero => rfl
  | succ year ih =>
    rw [daysBeforeYear, yearLength, isLeap]
    simp only [Bool.and_eq_true, Bool.or_eq_true, decide_eq_true_eq]
    split <;> omega

/-- The days of the year before, from the four hundred years that it belongs to. -/
theorem daysBeforeYear_succ_era (year : ℕ) : daysBeforeYear (year + 1) + year % 400 / 100 =
    146097 * (year / 400) + (365 * (year % 400) + year % 400 / 4) + 366 := by
  have hyear := daysBeforeYear_eq (year + 1)
  have hfours : (year + 1 + 3) / 4 = 100 * (year / 400) + year % 400 / 4 + 1 := by omega
  have hcenturies : (year + 1 + 99) / 100 = 4 * (year / 400) + year % 400 / 100 + 1 := by omega
  have heras : (year + 1 + 399) / 400 = year / 400 + 1 := by omega
  rw [hfours, hcenturies, heras] at hyear
  omega

/-- The days of a year are those of the rule for leap years. -/
theorem daysBeforeYear_succ (year : ℕ) : daysBeforeYear (year + 1) = daysBeforeYear year + 365 + (isLeap year).toNat := by
  rw [daysBeforeYear, yearLength]
  cases isLeap year <;> rfl

/-- The days before the year of the epoch. -/
theorem daysBeforeYear_1970 : daysBeforeYear 1970 = 719528 := by
  have h := daysBeforeYear_eq 1970
  omega

/-- No month is longer than 31 days. -/
theorem monthLength_le (leap : Bool) (month : ℕ) : monthLength leap month ≤ 31 := by
  unfold monthLength
  split
  · split <;> decide
  all_goals decide

/-- The months from March on, counted in one arithmetic expression. -/
theorem daysBeforeMonth_of_march (leap : Bool) {month : ℕ} (hmarch : 2 < month) (hmonth : month ≤ 12) :
    daysBeforeMonth leap month = (153 * (month - 3) + 2) / 5 + 59 + leap.toNat := by
  have hall : ∀ leap : Bool, ∀ month ≤ 12, 2 < month →
      daysBeforeMonth leap month = (153 * (month - 3) + 2) / 5 + 59 + leap.toNat := by decide
  exact hall leap month hmonth hmarch

/-- The days before January and February. -/
theorem daysBeforeMonth_of_le (leap : Bool) {month : ℕ} (hpos : 1 ≤ month) (hmonth : month ≤ 2) :
    daysBeforeMonth leap month + 306 = (153 * (month + 9) + 2) / 5 := by
  have hall : ∀ leap : Bool, ∀ month ≤ 2, 1 ≤ month → daysBeforeMonth leap month + 306 = (153 * (month + 9) + 2) / 5 := by
    decide
  exact hall leap month hmonth hpos

end Cthulhu.Lib
