import Mathlib.Logic.Function.Iterate
import Cthulhu.Lib.Calendar
import Cthulhu.Lib.Literals

/-!
# Days of the calendar for all years

The dates of the Gregorian calendar before and after year zero, each with its successor. The number of a day counts the
steps from the first of January 1970, or those to it.
-/

namespace Cthulhu.Lib

/-- The rule for leap years. -/
def leapYear (year : ℤ) : Bool := year % 4 = 0 && (year % 100 ≠ 0 || year % 400 = 0)

/-- A day of the calendar, of any year. -/
@[ext] structure CivilDate where
  year : ℤ
  month : ℕ
  day : ℕ
  month_pos : 1 ≤ month
  month_le : month ≤ 12
  day_pos : 1 ≤ day
  day_le : day ≤ monthLength (leapYear year) month

/-- Every month has a first day. -/
theorem monthLength_pos (leap : Bool) (month : ℕ) : 1 ≤ monthLength leap month := by
  unfold monthLength
  split
  · split <;> decide
  all_goals decide

namespace CivilDate

/-- The day after. -/
def next (d : CivilDate) : CivilDate :=
  if hday : d.day < monthLength (leapYear d.year) d.month then
    ⟨d.year, d.month, d.day + 1, d.month_pos, d.month_le, Nat.succ_pos _, hday⟩
  else if hmonth : d.month < 12 then
    ⟨d.year, d.month + 1, 1, Nat.succ_pos _, hmonth, Nat.le_refl _, monthLength_pos _ _⟩
  else ⟨d.year + 1, 1, 1, Nat.le_refl _, by decide, Nat.le_refl _, monthLength_pos _ _⟩

/-- The first of January 1970. -/
def epoch : CivilDate := ⟨1970, 1, 1, by decide, by decide, by decide, by decide⟩

/-- So many days lie between the epoch and the date; negative numbers are for dates before it. -/
def IsDay (d : CivilDate) (n : ℤ) : Prop := if 0 ≤ n then next^[n.toNat] epoch = d else next^[(-n).toNat] d = epoch

/-- The days from year zero to a year. -/
def yearStart (year : ℤ) : ℤ := 365 * year + (year + 3) / 4 - (year + 99) / 100 + (year + 399) / 400

/-- The number of the day in closed form. -/
def dayNumber (d : CivilDate) : ℤ :=
  yearStart d.year + daysBeforeMonth (leapYear d.year) d.month + (d.day - 1) - 719528

/-- The rule for leap years, as a number of days. -/
theorem leapYear_toNat (year : ℤ) : (leapYear year).toNat = 1 ∧ year % 4 = 0 ∧ (year % 100 ≠ 0 ∨ year % 400 = 0) ∨
    (leapYear year).toNat = 0 ∧ ¬ (year % 4 = 0 ∧ (year % 100 ≠ 0 ∨ year % 400 = 0)) := by
  cases hleap : leapYear year with
  | true =>
    left
    simpa [leapYear] using hleap
  | false =>
    right
    simpa [leapYear] using hleap

/-- The next year starts when the days of this one are over. -/
theorem yearStart_succ (year : ℤ) : yearStart (year + 1) = yearStart year + 365 + (leapYear year).toNat := by
  have hleap := leapYear_toNat year
  unfold yearStart
  omega

/-- The start of the year after, from the four hundred years that a year belongs to. -/
theorem yearStart_succ_era (year : ℤ) : yearStart (year + 1) =
    146097 * (year / 400) + (365 * (year % 400) + year % 400 / 4 - year % 400 / 100) + 366 := by
  have hfours : (year + 1 + 3) / 4 = 100 * (year / 400) + year % 400 / 4 + 1 := by omega
  have hcenturies : (year + 1 + 99) / 100 = 4 * (year / 400) + year % 400 / 100 + 1 := by omega
  have heras : (year + 1 + 399) / 400 = year / 400 + 1 := by omega
  unfold yearStart
  rw [hfours, hcenturies, heras]
  omega

/-- Years start in their order. -/
theorem yearStart_lt {a b : ℤ} (h : a < b) : yearStart a + 365 + (leapYear a).toNat ≤ yearStart b := by
  rw [← yearStart_succ]
  unfold yearStart
  omega

/-- The months of a year and their days. -/
theorem daysBeforeMonth_lt (leap : Bool) {month : ℕ} (hpos : 1 ≤ month) (hmonth : month ≤ 12) :
    daysBeforeMonth leap month + monthLength leap month ≤ 365 + leap.toNat ∧
      ∀ later ≤ 12, month < later → daysBeforeMonth leap month + monthLength leap month ≤ daysBeforeMonth leap later := by
  have hall : ∀ leap : Bool, ∀ month ≤ 12, 1 ≤ month →
      daysBeforeMonth leap month + monthLength leap month ≤ 365 + leap.toNat ∧
        ∀ later ≤ 12, month < later → daysBeforeMonth leap month + monthLength leap month ≤ daysBeforeMonth leap later := by
    decide
  exact hall leap month hmonth hpos

/-- The number of the day after is one more. -/
theorem dayNumber_next (d : CivilDate) : d.next.dayNumber = d.dayNumber + 1 := by
  have hpos := d.day_pos
  have hle := d.day_le
  have hmonth := d.month_pos
  unfold next dayNumber
  split
  · dsimp only
    omega
  next hover =>
    split
    · dsimp only
      obtain ⟨month, hsucc⟩ := Nat.exists_eq_succ_of_ne_zero (Nat.ne_of_gt hmonth)
      have hdays : daysBeforeMonth (leapYear d.year) (d.month + 1) =
          daysBeforeMonth (leapYear d.year) d.month + monthLength (leapYear d.year) d.month := by
        rw [hsucc]
        rfl
      omega
    · have hlast : d.month = 12 := Nat.le_antisymm d.month_le (by omega)
      have hdays : ∀ leap : Bool, daysBeforeMonth leap 12 = 334 + leap.toNat ∧ monthLength leap 12 = 31 ∧
          daysBeforeMonth leap 1 = 0 := by decide
      have hyear := hdays (leapYear d.year)
      have hfirst := hdays (leapYear (d.year + 1))
      rw [hlast] at hle hover ⊢
      dsimp only
      rw [yearStart_succ, hfirst.2.2]
      omega

/-- Its year is the same or a later one. -/
theorem year_le_next (d : CivilDate) : d.year ≤ d.next.year := by
  unfold next
  split
  · exact Int.le_refl _
  · split
    · exact Int.le_refl _
    · exact Int.le_add_one (Int.le_refl _)

/-- The epoch is day zero. -/
theorem dayNumber_epoch : dayNumber epoch = 0 := by decide

/-- No two days have one number. -/
theorem dayNumber_injective : Function.Injective dayNumber := by
  intro a b hsame
  have hposa := a.day_pos
  have hposb := b.day_pos
  have hlea := a.day_le
  have hleb := b.day_le
  obtain ⟨hyeara, hordera⟩ := daysBeforeMonth_lt (leapYear a.year) a.month_pos a.month_le
  obtain ⟨hyearb, horderb⟩ := daysBeforeMonth_lt (leapYear b.year) b.month_pos b.month_le
  unfold dayNumber at hsame
  have hyear : a.year = b.year := by
    rcases Int.lt_trichotomy a.year b.year with hlt | heq | hgt
    · have hstart := yearStart_lt hlt
      omega
    · exact heq
    · have hstart := yearStart_lt hgt
      omega
  rw [hyear] at hsame hlea hordera
  have hmonth : a.month = b.month := by
    rcases Nat.lt_trichotomy a.month b.month with hlt | heq | hgt
    · have horder := hordera _ b.month_le hlt
      omega
    · exact heq
    · have horder := horderb _ a.month_le hgt
      omega
  rw [hmonth] at hsame
  exact CivilDate.ext hyear hmonth (by omega)

/-- The number of the day after so many others. -/
theorem dayNumber_iterate (d : CivilDate) (n : ℕ) : (next^[n] d).dayNumber = d.dayNumber + n := by
  induction n with
  | zero => exact (Int.add_zero _).symm
  | succ n ih =>
    rw [Function.iterate_succ_apply', dayNumber_next, ih]
    omega

/-- The number of the day counts the days. -/
theorem isDay_dayNumber (d : CivilDate) : d.IsDay d.dayNumber := by
  unfold IsDay
  split
  next hafter =>
    apply dayNumber_injective
    rw [dayNumber_iterate, dayNumber_epoch]
    omega
  next hbefore =>
    apply dayNumber_injective
    rw [dayNumber_iterate, dayNumber_epoch]
    omega

end CivilDate

end Cthulhu.Lib
