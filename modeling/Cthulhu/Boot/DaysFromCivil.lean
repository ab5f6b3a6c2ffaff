import Cthulhu.Boot.Clock
import Cthulhu.Lib.CInt
import Cthulhu.Lib.CivilDays

/-!
# The days of a civil date

`days_from_civil` for the years before and after year zero. Its operations are in `int` and `unsigned int`; for five million
years on either side none of them outgrows its type.
-/

namespace Cthulhu

open Lib

/-- `days_from_civil`, as long as nothing overflows. -/
def daysFromCivil32 (y : ℤ) (m d : ℕ) : Option ℤ := do
  let y ← inInt (y - if m ≤ 2 then 1 else 0)
  let era ← (if 0 ≤ y then some y else inInt (y - 399)).map fun y => y.tdiv 400
  let yoe ← inUnsigned (← inInt (y - (← inInt (era * 400))))
  let months ← inInt ((← inInt (153 * ((m : ℤ) + if m > 2 then -3 else 9))) + 2)
  let doy ← inUnsigned (← inInt ((← inInt (months.tdiv 5 + d)) - 1))
  let years ← inUnsigned ((← inUnsigned ((← inUnsigned (365 * yoe)) + yoe / 4)) - yoe / 100)
  let doe ← inInt (← inUnsigned (years + doy))
  inInt ((← inInt ((← inInt (era * 146097)) + doe)) - 719468)

/-- Where nothing overflows, `days_from_civil` is the arithmetic of the integers. -/
theorem daysFromCivil_of_some {y n : ℤ} {m d : ℕ} (h : daysFromCivil32 y m d = some n) : daysFromCivil y m d = n := by
  unfold daysFromCivil32 at h
  simp only [Option.bind_eq_bind, Option.bind_eq_some_iff] at h
  obtain ⟨y', hy, era, hera, eraYears, heraYears, yoe, hyoe, yoe', hyoe', months, hmonths, months', hmonths', days, hdays, days',
    hdays', doy, hdoy, w, hw, w', hw', years, hyears, doe, hdoe, doe', hdoe', eraDays, heraDays, sum, hsum, hresult⟩ := h
  obtain ⟨rfl, -⟩ := inInt_eq_some hy
  obtain ⟨rfl, -⟩ := inInt_eq_some heraYears
  obtain ⟨rfl, -⟩ := inInt_eq_some hyoe
  obtain ⟨rfl, hyoe0, hyoe1⟩ := inUnsigned_eq_some hyoe'
  obtain ⟨rfl, -⟩ := inInt_eq_some hmonths
  obtain ⟨rfl, -⟩ := inInt_eq_some hmonths'
  obtain ⟨rfl, -⟩ := inInt_eq_some hdays
  obtain ⟨rfl, -⟩ := inInt_eq_some hdays'
  obtain ⟨rfl, hdoy0, hdoy1⟩ := inUnsigned_eq_some hdoy
  obtain ⟨rfl, -⟩ := inUnsigned_eq_some hw
  obtain ⟨rfl, -⟩ := inUnsigned_eq_some hw'
  obtain ⟨rfl, -⟩ := inUnsigned_eq_some hyears
  obtain ⟨rfl, hdoe0, hdoe1⟩ := inUnsigned_eq_some hdoe
  obtain ⟨rfl, -, hdoe2⟩ := inInt_eq_some hdoe'
  obtain ⟨rfl, -⟩ := inInt_eq_some heraDays
  obtain ⟨rfl, -⟩ := inInt_eq_some hsum
  obtain ⟨rfl, -⟩ := inInt_eq_some hresult
  have hshifted : (if 0 ≤ y - (if m ≤ 2 then 1 else 0) then y - (if m ≤ 2 then 1 else 0)
      else y - (if m ≤ 2 then 1 else 0) - 399).tdiv 400 = era := by
    obtain ⟨shifted, hshift, rfl⟩ := Option.map_eq_some_iff.mp hera
    by_cases hpos : 0 ≤ y - if m ≤ 2 then 1 else 0
    · rw [if_pos hpos] at hshift ⊢
      rw [Option.some.inj hshift]
    · rw [if_neg hpos] at hshift ⊢
      rw [(inInt_eq_some hshift).1]
  unfold daysFromCivil
  dsimp only
  rw [hshifted, Int.mul_comm 400 era, Int.emod_eq_of_lt hyoe0 hyoe1, Int.emod_eq_of_lt hdoy0 hdoy1,
    Int.emod_eq_of_lt hdoe0 hdoe1, Int.bmod_eq_of_le (Int.le_trans (by decide) hdoe0) (Int.lt_of_lt_of_le hdoe2 (by decide)),
    Int.mul_comm 146097 era]

/-- The four hundred years that a year belongs to, from a quotient that is rounded towards zero. -/
theorem era_of_year {era yoe : ℤ} (hyoe : 0 ≤ yoe ∧ yoe < 400) (hera : -12501 ≤ era ∧ era ≤ 12501) :
    ((if 0 ≤ 400 * era + yoe then some (400 * era + yoe) else inInt (400 * era + yoe - 399)).map
      fun y => y.tdiv 400) = some era := by
  split
  · rw [Option.map_some, Int.tdiv_eq_ediv_of_nonneg (by omega), Option.some.injEq]
    omega
  · have hneg : 400 * era + yoe - 399 = -(399 - yoe - 400 * era) := by omega
    rw [inInt_of_bounds (by omega) (by omega), Option.map_some, hneg, Int.neg_tdiv,
      Int.tdiv_eq_ediv_of_nonneg (by omega), Option.some.injEq]
    omega

/-- The arithmetic of a year from March on and the days of it, in an era that may be negative. -/
theorem daysFromCivil32_march {y era yoe doy : ℤ} {m d : ℕ} (hy : y - (if m ≤ 2 then 1 else 0) = 400 * era + yoe)
    (hyoe : 0 ≤ yoe ∧ yoe < 400) (hera : -12501 ≤ era ∧ era ≤ 12501) (hmonth : m ≤ 12) (hday : 1 ≤ d ∧ d ≤ 31)
    (hdoy : (153 * ((m : ℤ) + if m > 2 then -3 else 9) + 2) / 5 + d - 1 = doy) (hpos : 0 < m) :
    daysFromCivil32 y m d = some (146097 * era + (365 * yoe + yoe / 4 - yoe / 100 + doy) - 719468) := by
  have hmarch : 0 ≤ (m : ℤ) + (if m > 2 then -3 else 9) ∧ (m : ℤ) + (if m > 2 then -3 else 9) ≤ 11 := by
    split <;> omega
  unfold daysFromCivil32
  generalize (m : ℤ) + (if m > 2 then -3 else 9) = months at hmarch hdoy ⊢
  have hmonths : (153 * months + 2).tdiv 5 = doy + 1 - d := by
    rw [Int.tdiv_eq_ediv_of_nonneg (by omega)]
    omega
  have hrest : 400 * era + yoe - era * 400 = yoe := by omega
  have hdays : doy + 1 - d + d - 1 = doy := by omega
  have hdoypos : 0 ≤ doy ∧ doy < 400 := by omega
  clear hdoy hmonth hpos
  rw [hy, inInt_bind (by omega) (by omega), era_of_year hyoe hera, some_bind]
  rw [inInt_bind (by omega) (by omega), hrest, inInt_bind (by omega) (by omega), inUnsigned_bind hyoe.1 (by omega)]
  rw [inInt_bind (by omega) (by omega), inInt_bind (by omega) (by omega), hmonths]
  rw [inInt_bind (by omega) (by omega), hdays, inInt_bind (by omega) (by omega), inUnsigned_bind hdoypos.1 (by omega)]
  rw [inUnsigned_bind (by omega) (by omega), inUnsigned_bind (by omega) (by omega)]
  rw [inUnsigned_bind (by omega) (by omega), inUnsigned_bind (by omega) (by omega)]
  rw [inInt_bind (by omega) (by omega), inInt_bind (by omega) (by omega), inInt_bind (by omega) (by omega)]
  rw [inInt_of_bounds (by omega) (by omega), Int.mul_comm era]

/-- For five million years before and after year zero nothing overflows, and the result is the number of the day. -/
theorem daysFromCivil32_eq (date : CivilDate) (hlow : -5000000 ≤ date.year) (hhigh : date.year ≤ 5000000) :
    daysFromCivil32 date.year date.month date.day = some date.dayNumber := by
  have hday : date.day ≤ 31 := Nat.le_trans date.day_le (monthLength_le _ _)
  have hpos := date.day_pos
  have hmonth := date.month_le
  have hfirst := date.month_pos
  unfold CivilDate.dayNumber
  by_cases hmarch : 2 < date.month
  · have hstart := CivilDate.yearStart_succ_era date.year
    have hdays := daysBeforeMonth_of_march (leapYear date.year) hmarch hmonth
    have hy : date.year - (if date.month ≤ 2 then 1 else 0) = 400 * (date.year / 400) + date.year % 400 := by
      rw [if_neg (by omega)]
      omega
    have hdoy : (153 * ((date.month : ℤ) + if date.month > 2 then -3 else 9) + 2) / 5 + date.day - 1 =
        ((153 * (date.month - 3) + 2) / 5 + date.day - 1 : ℕ) := by
      rw [if_pos hmarch]
      omega
    rw [daysFromCivil32_march hy (by omega) (by omega) hmonth ⟨hpos, hday⟩ hdoy hfirst, Option.some.injEq, hdays]
    rw [CivilDate.yearStart_succ] at hstart
    omega
  · have hstart := CivilDate.yearStart_succ_era (date.year - 1)
    rw [Int.sub_add_cancel] at hstart
    have hdays := daysBeforeMonth_of_le (leapYear date.year) hfirst (by omega)
    have hy : date.year - (if date.month ≤ 2 then 1 else 0) = 400 * ((date.year - 1) / 400) + (date.year - 1) % 400 := by
      rw [if_pos (by omega)]
      omega
    have hdoy : (153 * ((date.month : ℤ) + if date.month > 2 then -3 else 9) + 2) / 5 + date.day - 1 =
        ((153 * (date.month + 9) + 2) / 5 + date.day - 1 : ℕ) := by
      rw [if_neg hmarch]
      omega
    rw [daysFromCivil32_march hy (by omega) (by omega) hmonth ⟨hpos, hday⟩ hdoy hfirst, Option.some.injEq]
    omega

/-- The days from the epoch to a date, without overflow; the number grows by one from a date to its successor. -/
theorem daysFromCivil_isDay (date : CivilDate) (hlow : -5000000 ≤ date.year) (hhigh : date.year ≤ 5000000) :
    daysFromCivil32 date.year date.month date.day = some (daysFromCivil date.year date.month date.day) ∧
      date.IsDay (daysFromCivil date.year date.month date.day) ∧
      (date.next.year ≤ 5000000 → daysFromCivil date.next.year date.next.month date.next.day =
        daysFromCivil date.year date.month date.day + 1) := by
  have hdate := daysFromCivil32_eq date hlow hhigh
  rw [daysFromCivil_of_some hdate]
  refine ⟨hdate, date.isDay_dayNumber, fun hnext => ?_⟩
  have hlater := daysFromCivil32_eq date.next (Int.le_trans hlow date.year_le_next) hnext
  rw [daysFromCivil_of_some hlater, date.dayNumber_next]

/-- The last day of February in a year before year zero. -/
theorem daysFromCivil_isDay_leap :
    (⟨-4, 2, 29, by decide, by decide, by decide, by decide⟩ : CivilDate).IsDay (daysFromCivil (-4) 2 29) :=
  (daysFromCivil_isDay ⟨-4, 2, 29, by decide, by decide, by decide, by decide⟩ (by decide) (by decide)).2.1

end Cthulhu
