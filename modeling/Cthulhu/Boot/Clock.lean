import Mathlib.Algebra.Group.Int.Defs
import Mathlib.Algebra.Group.Nat.Defs
import Cthulhu.Lib.Calendar

/-!
# The clock at boot

`initialize_clock` reads the date and time from the CMOS registers, in one of four formats, and `initialize_ticker`
turns them into Unix time. Of the hours of the 12-hour formats the two twelves come out wrong. The
registers are read one after the other, each at its own time; the update flag comes and goes.
-/

namespace Cthulhu

open Lib

/-- What the CMOS registers hold at the time of each access. -/
abbrev Cmos := ℕ → ℕ → ℕ

/-- `days_from_civil`. -/
def daysFromCivil (y : ℤ) (m d : ℕ) : ℤ :=
  let y := y - if m ≤ 2 then 1 else 0
  let era := (if 0 ≤ y then y else y - 399).tdiv 400
  let yoe := (y - 400 * era) % 2 ^ 32
  let doy := ((153 * ((m : ℤ) + if m > 2 then -3 else 9) + 2).tdiv 5 + d - 1) % 2 ^ 32
  let doe := (365 * yoe + yoe / 4 - yoe / 100 + doy) % 2 ^ 32
  146097 * era + doe.bmod (2 ^ 32) - 719468

/-- The globals of `clock.c` for the parts of the date, and `century`. -/
structure RtcReading where
  second : ℕ
  minute : ℕ
  hour : ℕ
  day : ℕ
  month : ℕ
  year : ℕ
  century : ℕ
  deriving DecidableEq, Repr

/-- The globals of `clock.c` after `initialize_clock`. -/
structure ClockState where
  date : RtcReading
  clockS : ℕ
  clockMs : ℕ
  deriving DecidableEq, Repr

section Registers

variable (cmos : Cmos) (centuryRegister : ℕ)

/-- `get_update_in_progress_flag`. -/
def updateInProgress (t : ℕ) : Bool := cmos t 0x0A % 256 &&& 0x80 ≠ 0

/-- `get_RTC_register`. -/
def getRtcRegister (t reg : ℕ) : ℕ := cmos t reg % 256

/-- The wait for the end of an update: the time of the next access. -/
def waitForUpdate (t : ℕ) : ℕ → Option ℕ
  | 0 => none
  | fuel + 1 => if updateInProgress cmos t then waitForUpdate (t + 1) fuel else some (t + 1)

/-- The reads of all registers, from a time on. -/
def readRegisters (century t : ℕ) : RtcReading where
  second := getRtcRegister cmos t 0x00
  minute := getRtcRegister cmos (t + 1) 0x02
  hour := getRtcRegister cmos (t + 2) 0x04
  day := getRtcRegister cmos (t + 3) 0x07
  month := getRtcRegister cmos (t + 4) 0x08
  year := getRtcRegister cmos (t + 5) 0x09
  century := if centuryRegister ≠ 0 then getRtcRegister cmos (t + 6) centuryRegister else century

/-- The reads until the same values come twice in a row, and the time of the next access. -/
def settle (last : RtcReading) (t : ℕ) : ℕ → Option (RtcReading × ℕ)
  | 0 => none
  | fuel + 1 => do
    let t ← waitForUpdate cmos t fuel
    let now := readRegisters cmos centuryRegister last.century t
    if now = last then some (now, t + 7) else settle now (t + 7) fuel

/-- A BCD byte to binary. -/
def fromBcd (v : ℕ) : ℕ := ((v &&& 0x0F) + 10 * (v / 16)) % 256

/-- The BCD step for the hour, which keeps the PM bit. -/
def hourFromBcd (hour : ℕ) : ℕ := (((hour &&& 0x0F) + 10 * ((hour &&& 0x70) / 16)) ||| (hour &&& 0x80)) % 256

/-- The conversion from BCD, where register B says so. -/
def bcdStep (registerB : ℕ) (r : RtcReading) : RtcReading :=
  if registerB &&& 0x04 = 0 then
    { second := fromBcd r.second
      minute := fromBcd r.minute
      hour := hourFromBcd r.hour
      day := fromBcd r.day
      month := fromBcd r.month
      year := fromBcd r.year
      century := if centuryRegister ≠ 0 then fromBcd r.century else r.century }
  else r

/-- The conversion from 12 hours, where register B says so. -/
def hourStep (registerB : ℕ) (r : RtcReading) : RtcReading :=
  if registerB &&& 0x02 = 0 ∧ r.hour &&& 0x80 ≠ 0 then { r with hour := ((r.hour &&& 0x7F) + 12) % 24 } else r

/-- The full year. -/
def yearStep (r : RtcReading) : RtcReading :=
  if centuryRegister ≠ 0 then { r with year := r.year + 100 * r.century }
  else
    let year := r.year + 100 * (2016 / 100)
    { r with year := if year < 2016 then year + 100 else year }

/-- The conversions of `initialize_clock`. -/
def convert (registerB : ℕ) (r : RtcReading) : RtcReading :=
  yearStep centuryRegister (hourStep registerB (bcdStep centuryRegister registerB r))

/-- The assignments of `initialize_ticker`. -/
def initializeTicker (date : RtcReading) : ClockState where
  date := date
  clockS := (86400 * (daysFromCivil date.year date.month date.day % 2 ^ 64).toNat + 3600 * date.hour +
    60 * date.minute + date.second) % 2 ^ 64
  clockMs := 0

/-- `initialize_clock`, given fuel enough for its waits. -/
def initializeClock (fuel : ℕ) : Option ClockState := do
  let t ← waitForUpdate cmos 0 fuel
  let first := readRegisters cmos centuryRegister 20 t
  let (r, t) ← settle cmos centuryRegister first (t + 7) fuel
  some (initializeTicker (convert centuryRegister (getRtcRegister cmos t 0x0B) r))

end Registers

/-- A date and a time of day. -/
structure DateTime extends Date where
  hour : ℕ
  minute : ℕ
  second : ℕ
  hour_lt : hour < 24
  minute_lt : minute < 60
  second_lt : second < 60

/-- The Unix time of an instant. -/
def DateTime.unixTime (dt : DateTime) : ℤ := 86400 * dt.unixDay + 3600 * dt.hour + 60 * dt.minute + dt.second

/-- What register B selects: binary values or BCD, and 24 hours or 12 with a PM bit. -/
structure RtcFormat where
  binary : Bool
  hours24 : Bool

namespace RtcFormat

variable (f : RtcFormat)

/-- A value below 100 in a register. -/
def encode (v : ℕ) : ℕ := if f.binary then v else 16 * (v / 10) + v % 10

/-- An hour in its register. -/
def encodeHour (hour : ℕ) : ℕ :=
  if f.hours24 then f.encode hour
  else f.encode (if hour % 12 = 0 then 12 else hour % 12) + if 12 ≤ hour then 0x80 else 0

end RtcFormat

/-- The registers hold an instant in a format, and no update goes on for ever. -/
structure Shows (cmos : Cmos) (centuryRegister : ℕ) (f : RtcFormat) (dt : DateTime) : Prop where
  second : ∀ t, cmos t 0x00 = f.encode dt.second
  minute : ∀ t, cmos t 0x02 = f.encode dt.minute
  hour : ∀ t, cmos t 0x04 = f.encodeHour dt.hour
  day : ∀ t, cmos t 0x07 = f.encode dt.day
  month : ∀ t, cmos t 0x08 = f.encode dt.month
  year : ∀ t, cmos t 0x09 = f.encode (dt.year % 100)
  century : centuryRegister ≠ 0 → ∀ t, cmos t centuryRegister = f.encode (dt.year / 100)
  binary : ∀ t, cmos t 0x0B % 256 &&& 0x04 ≠ 0 ↔ f.binary = true
  hours24 : ∀ t, cmos t 0x0B % 256 &&& 0x02 ≠ 0 ↔ f.hours24 = true
  updates : ∀ t, ∃ t', t ≤ t' ∧ updateInProgress cmos t' = false

/-- The years that can be told from two digits, or from four. -/
def YearShown (centuryRegister year : ℕ) : Prop :=
  if centuryRegister = 0 then 2016 ≤ year ∧ year ≤ 2115 else year ≤ 9999

/-- The arithmetic of `days_from_civil` for a year from March on and the days of it. -/
theorem daysFromCivil_march {y : ℤ} {m d era yoe doy : ℕ} (hy : y - (if m ≤ 2 then 1 else 0) = 400 * era + yoe)
    (hyoe : yoe < 400) (hdoy : (153 * ((m : ℤ) + if m > 2 then -3 else 9) + 2).tdiv 5 + d - 1 = doy) (hsmall : doy < 400) :
    daysFromCivil y m d = 146097 * era + (365 * yoe + yoe / 4 - yoe / 100 + doy) - 719468 := by
  have hera : (400 * (era : ℤ) + yoe).tdiv 400 = era := by
    rw [Int.tdiv_eq_ediv_of_nonneg (by omega)]
    omega
  have hyear : (400 * (era : ℤ) + yoe - 400 * era) % 2 ^ 32 = yoe := by omega
  have hday : (doy : ℤ) % 2 ^ 32 = doy := by omega
  have hsum : (365 * (yoe : ℤ) + yoe / 4 - yoe / 100 + doy) % 2 ^ 32 = 365 * yoe + yoe / 4 - yoe / 100 + doy := by omega
  unfold daysFromCivil
  dsimp only
  rw [hy, hdoy, if_pos (by omega), hera, hyear, hday, hsum, Int.bmod_eq_of_le (by omega) (by omega)]

instance (centuryRegister year : ℕ) : Decidable (YearShown centuryRegister year) :=
  inferInstanceAs (Decidable (if centuryRegister = 0 then 2016 ≤ year ∧ year ≤ 2115 else year ≤ 9999))

/-- `days_from_civil` counts the days from the epoch on. -/
theorem daysFromCivil_eq (d : Date) : daysFromCivil d.year d.month d.day = d.unixDay := by
  have hday : d.day ≤ 31 := Nat.le_trans d.day_le (monthLength_le _ _)
  have hpos := d.day_pos
  have hmonth := d.month_le
  have hfirst := d.month_pos
  unfold Date.unixDay Date.daysBefore
  rw [daysBeforeYear_1970]
  by_cases hmarch : 2 < d.month
  · have hdays := daysBeforeMonth_of_march (isLeap d.year) hmarch hmonth
    have hy : (d.year : ℤ) - (if d.month ≤ 2 then 1 else 0) = 400 * (d.year / 400 : ℕ) + (d.year % 400 : ℕ) := by
      rw [if_neg (by omega)]
      omega
    have hdoy : (153 * ((d.month : ℤ) + if d.month > 2 then -3 else 9) + 2).tdiv 5 + d.day - 1 =
        ((153 * (d.month - 3) + 2) / 5 + d.day - 1 : ℕ) := by
      rw [if_pos hmarch, Int.tdiv_eq_ediv_of_nonneg (by omega)]
      omega
    have hstart := daysBeforeYear_succ_era d.year
    rw [daysBeforeYear_succ] at hstart
    rw [daysFromCivil_march hy (by omega) hdoy (by omega), hdays]
    omega
  · have hdays := daysBeforeMonth_of_le (isLeap d.year) hfirst (by omega)
    have hcount : (153 * ((d.month : ℤ) + if d.month > 2 then -3 else 9) + 2).tdiv 5 + d.day - 1 =
        ((153 * (d.month + 9) + 2) / 5 + d.day - 1 : ℕ) := by
      rw [if_neg hmarch, Int.tdiv_eq_ediv_of_nonneg (by omega)]
      omega
    cases hyear : d.year with
    | zero =>
      -- the year before, and its era, are negative
      have hall : ∀ m ≤ 2, 1 ≤ m → ∀ day ≤ 31, 1 ≤ day →
          daysFromCivil (0 : ℕ) m day = ((0 + daysBeforeMonth (isLeap 0) m + (day - 1) : ℕ) : ℤ) - 719528 := by decide
      exact hall _ (by omega) hfirst _ hday hpos
    | succ year =>
      have hstart := daysBeforeYear_succ_era year
      have hy : ((year + 1 : ℕ) : ℤ) - (if d.month ≤ 2 then 1 else 0) = 400 * (year / 400 : ℕ) + (year % 400 : ℕ) := by
        rw [if_pos (by omega)]
        omega
      rw [hyear] at hdays
      rw [daysFromCivil_march hy (by omega) hcount (by omega)]
      omega

section Shown

variable {cmos : Cmos} {centuryRegister : ℕ} {f : RtcFormat} {dt : DateTime}

/-- A value below 100 is a byte in its register. -/
theorem RtcFormat.encode_lt {v : ℕ} (hv : v < 100) : f.encode v < 256 := by
  unfold encode
  split <;> omega

/-- An hour is a byte in its register. -/
theorem RtcFormat.encodeHour_lt {hour : ℕ} (hhour : hour < 24) : f.encodeHour hour < 256 := by
  have hall : ∀ binary hours24 : Bool, ∀ hour < 24, RtcFormat.encodeHour ⟨binary, hours24⟩ hour < 256 := by decide
  exact hall f.binary f.hours24 hour hhour

/-- The BCD step gives a value back. -/
theorem fromBcd_encode {v : ℕ} (hv : v < 100) : fromBcd (16 * (v / 10) + v % 10) = v := by
  have hall : ∀ v < 100, fromBcd (16 * (v / 10) + v % 10) = v := by decide
  exact hall v hv

/-- What the registers show, with the century that is used where none is shown. -/
def shownReading (centuryRegister : ℕ) (f : RtcFormat) (dt : DateTime) : RtcReading where
  second := f.encode dt.second
  minute := f.encode dt.minute
  hour := f.encodeHour dt.hour
  day := f.encode dt.day
  month := f.encode dt.month
  year := f.encode (dt.year % 100)
  century := if centuryRegister ≠ 0 then f.encode (dt.year / 100) else 20

/-- The hour that the conversions make of one. -/
def convertedHour (f : RtcFormat) (hour : ℕ) : ℕ :=
  if f.hours24 then hour else if hour = 0 then 12 else if hour = 12 then 0 else hour

/-- What the conversions make of the registers. -/
def convertedReading (centuryRegister : ℕ) (f : RtcFormat) (dt : DateTime) : RtcReading where
  second := dt.second
  minute := dt.minute
  hour := convertedHour f dt.hour
  day := dt.day
  month := dt.month
  year := dt.year
  century := if centuryRegister ≠ 0 then dt.year / 100 else 20

/-- A day of a month is below 100. -/
theorem DateTime.day_lt (dt : DateTime) : dt.day < 100 := by
  have hday := Nat.le_trans dt.day_le (monthLength_le _ _)
  omega

/-- Every read of the registers gives what they show. -/
theorem Shows.readRegisters (h : Shows cmos centuryRegister f dt) (hyear : YearShown centuryRegister dt.year) {century : ℕ}
    (hcentury : centuryRegister = 0 → century = 20) (t : ℕ) :
    readRegisters cmos centuryRegister century t = shownReading centuryRegister f dt := by
  have hsecond := dt.second_lt
  have hminute := dt.minute_lt
  have hmonth := dt.month_le
  unfold Cthulhu.readRegisters shownReading getRtcRegister
  rw [h.second, h.minute, h.hour, h.day, h.month, h.year, Nat.mod_eq_of_lt (RtcFormat.encode_lt (by omega)),
    Nat.mod_eq_of_lt (RtcFormat.encode_lt (by omega)), Nat.mod_eq_of_lt (RtcFormat.encodeHour_lt dt.hour_lt),
    Nat.mod_eq_of_lt (RtcFormat.encode_lt dt.day_lt), Nat.mod_eq_of_lt (RtcFormat.encode_lt (by omega)),
    Nat.mod_eq_of_lt (RtcFormat.encode_lt (Nat.mod_lt _ (by decide)))]
  by_cases hregister : centuryRegister = 0
  · simp only [hregister, ne_eq, not_true_eq_false, if_false, hcentury hregister]
  · rw [YearShown, if_neg hregister] at hyear
    rw [if_pos hregister, if_pos hregister, h.century hregister, Nat.mod_eq_of_lt (RtcFormat.encode_lt (by omega))]

/-- The hour after the step from BCD. -/
def binaryHour (f : RtcFormat) (hour : ℕ) : ℕ := if f.binary then f.encodeHour hour else hourFromBcd (f.encodeHour hour)

/-- The step from BCD. -/
theorem bcdStep_shown {registerB : ℕ} (hyear : YearShown centuryRegister dt.year)
    (hbinary : registerB &&& 0x04 ≠ 0 ↔ f.binary = true) :
    bcdStep centuryRegister registerB (shownReading centuryRegister f dt) =
      { convertedReading centuryRegister f dt with hour := binaryHour f dt.hour, year := dt.year % 100 } := by
  have hsecond := dt.second_lt
  have hminute := dt.minute_lt
  have hmonth := dt.month_le
  unfold bcdStep shownReading convertedReading binaryHour
  cases hformat : f.binary with
  | true =>
    rw [if_neg (hbinary.mpr hformat)]
    simp only [RtcFormat.encode, hformat, if_true]
  | false =>
    have hbcd : registerB &&& 0x04 = 0 := by
      by_contra hset
      exact absurd (hformat.symm.trans (hbinary.mp hset)) (by decide)
    rw [if_pos hbcd]
    simp only [RtcFormat.encode, hformat, Bool.false_eq_true, if_false]
    rw [fromBcd_encode (by omega), fromBcd_encode (by omega), fromBcd_encode dt.day_lt, fromBcd_encode (by omega),
      fromBcd_encode (Nat.mod_lt _ (by decide))]
    by_cases hregister : centuryRegister = 0
    · simp only [hregister, ne_eq, not_true_eq_false, if_false]
    · rw [YearShown, if_neg hregister] at hyear
      rw [if_pos hregister, if_pos hregister, if_pos hregister, fromBcd_encode (by omega)]

/-- The step from 12 hours. -/
theorem hourStep_shown {registerB : ℕ} {r : RtcReading} (hhours : registerB &&& 0x02 ≠ 0 ↔ f.hours24 = true) {hour : ℕ}
    (hhour : hour < 24) (hr : r.hour = binaryHour f hour) : hourStep registerB r = { r with hour := convertedHour f hour } := by
  have hall : ∀ binary hours24 : Bool, ∀ hour < 24,
      (if hours24 = false ∧ binaryHour ⟨binary, hours24⟩ hour &&& 0x80 ≠ 0 then
        ((binaryHour ⟨binary, hours24⟩ hour &&& 0x7F) + 12) % 24 else binaryHour ⟨binary, hours24⟩ hour) =
      convertedHour ⟨binary, hours24⟩ hour := by decide
  have hresult := hall f.binary f.hours24 hour hhour
  have hbit : registerB &&& 0x02 = 0 ↔ f.hours24 = false := by
    rw [← Bool.not_eq_true, ← hhours, not_not]
  have hcondition : registerB &&& 0x02 = 0 ∧ r.hour &&& 0x80 ≠ 0 ↔
      f.hours24 = false ∧ binaryHour f hour &&& 0x80 ≠ 0 := by
    rw [hbit, hr]
  unfold hourStep
  by_cases hpm : f.hours24 = false ∧ binaryHour f hour &&& 0x80 ≠ 0
  · rw [if_pos hpm] at hresult
    rw [if_pos (hcondition.mpr hpm), hr]
    exact congrArg (fun x => { r with hour := x }) hresult
  · rw [if_neg hpm] at hresult
    rw [if_neg fun hset => hpm (hcondition.mp hset)]
    exact congrArg (fun x => { r with hour := x }) (hr.trans hresult)

/-- The year step. -/
theorem yearStep_shown (hyear : YearShown centuryRegister dt.year) {r : RtcReading} (hr : r.year = dt.year % 100)
    (hcentury : centuryRegister ≠ 0 → r.century = dt.year / 100) :
    yearStep centuryRegister r = { r with year := dt.year } := by
  unfold yearStep
  unfold YearShown at hyear
  by_cases hregister : centuryRegister = 0
  · rw [if_pos hregister] at hyear
    have hfull : (if r.year + 100 * (2016 / 100) < 2016 then r.year + 100 * (2016 / 100) + 100
        else r.year + 100 * (2016 / 100)) = dt.year := by
      split <;> omega
    rw [if_neg (not_not.mpr hregister)]
    dsimp only
    rw [hfull]
  · have hfull : r.year + 100 * r.century = dt.year := by
      rw [hr, hcentury hregister]
      exact Nat.mod_add_div _ _
    rw [if_pos hregister, hfull]

/-- What the conversions make of what the registers show. -/
theorem convert_shown {registerB : ℕ} (hyear : YearShown centuryRegister dt.year)
    (hbinary : registerB &&& 0x04 ≠ 0 ↔ f.binary = true) (hhours : registerB &&& 0x02 ≠ 0 ↔ f.hours24 = true) :
    convert centuryRegister registerB (shownReading centuryRegister f dt) = convertedReading centuryRegister f dt := by
  rw [convert, bcdStep_shown hyear hbinary, hourStep_shown hhours dt.hour_lt rfl, yearStep_shown hyear rfl]
  · rfl
  · intro hregister
    exact if_pos hregister

/-- Some poll ends the wait. -/
theorem waitForUpdate_ends (hupdates : ∀ t, ∃ t', t ≤ t' ∧ updateInProgress cmos t' = false) (t : ℕ) :
    ∃ n t', ∀ fuel, n ≤ fuel → waitForUpdate cmos t fuel = some t' := by
  obtain ⟨t', hle, hclear⟩ := hupdates t
  obtain ⟨k, rfl⟩ := Nat.exists_eq_add_of_le hle
  induction k generalizing t with
  | zero =>
    rw [Nat.add_zero] at hclear
    refine ⟨1, t + 1, fun fuel hfuel => ?_⟩
    obtain ⟨fuel, rfl⟩ := Nat.exists_eq_add_of_le' hfuel
    rw [waitForUpdate, hclear]
    rfl
  | succ k ih =>
    obtain ⟨n, t', hn⟩ := ih (t + 1) (Nat.le_add_right _ _) (by rw [Nat.add_right_comm]; exact hclear)
    cases hnow : updateInProgress cmos t with
    | true =>
      refine ⟨n + 1, t', fun fuel hfuel => ?_⟩
      obtain ⟨fuel, rfl⟩ := Nat.exists_eq_add_of_le' (Nat.le_trans (Nat.le_add_left 1 n) hfuel)
      rw [waitForUpdate, hnow]
      exact hn fuel (by omega)
    | false =>
      refine ⟨1, t + 1, fun fuel hfuel => ?_⟩
      obtain ⟨fuel, rfl⟩ := Nat.exists_eq_add_of_le' hfuel
      rw [waitForUpdate, hnow]
      rfl

/-- The second round of reads shows the same values. -/
theorem settle_shown (h : Shows cmos centuryRegister f dt) (hyear : YearShown centuryRegister dt.year) (t fuel : ℕ) :
    settle cmos centuryRegister (shownReading centuryRegister f dt) t (fuel + 1) =
      (waitForUpdate cmos t fuel).map fun t' => (shownReading centuryRegister f dt, t' + 7) := by
  have hcentury : centuryRegister = 0 → (shownReading centuryRegister f dt).century = 20 := by
    intro hzero
    exact if_neg (not_not.mpr hzero)
  rw [settle]
  cases waitForUpdate cmos t fuel with
  | none => rfl
  | some t' =>
    simp only [Option.bind_eq_bind, Option.bind_some, Option.map_some]
    rw [h.readRegisters hyear hcentury t', if_pos rfl]

/-- What `initialize_clock` leaves. -/
theorem initializeClock_shown (h : Shows cmos centuryRegister f dt) (hyear : YearShown centuryRegister dt.year)
    {fuel : ℕ} {st : ClockState} (hst : initializeClock cmos centuryRegister fuel = some st) :
    st = initializeTicker (convertedReading centuryRegister f dt) := by
  unfold initializeClock at hst
  obtain ⟨t, -, hrest⟩ := Option.bind_eq_some_iff.mp hst
  rw [h.readRegisters hyear (fun _ => rfl)] at hrest
  obtain ⟨⟨r, t'⟩, hsettle, hlast⟩ := Option.bind_eq_some_iff.mp hrest
  cases fuel with
  | zero => exact absurd hsettle (by simp [settle])
  | succ fuel =>
    rw [settle_shown h hyear] at hsettle
    obtain ⟨t'', -, hpair⟩ := Option.map_eq_some_iff.mp hsettle
    obtain ⟨rfl, rfl⟩ := Prod.mk.inj hpair
    dsimp only at hlast
    rw [getRtcRegister, convert_shown hyear (h.binary _) (h.hours24 _)] at hlast
    exact (Option.some.inj hlast).symm

/-- `initialize_clock` returns. -/
theorem initializeClock_returns (h : Shows cmos centuryRegister f dt) (hyear : YearShown centuryRegister dt.year) :
    ∃ fuel st, initializeClock cmos centuryRegister fuel = some st := by
  obtain ⟨m, t, hfirst⟩ := waitForUpdate_ends h.updates 0
  obtain ⟨n, t', hsecond⟩ := waitForUpdate_ends h.updates (t + 7)
  refine ⟨m + n + 1, Option.isSome_iff_exists.mp ?_⟩
  unfold initializeClock
  rw [hfirst (m + n + 1) (by omega), Option.bind_eq_bind, Option.bind_some, h.readRegisters hyear (fun _ => rfl)]
  dsimp only
  rw [settle_shown h hyear, hsecond (m + n) (by omega)]
  rfl

/-- The clock differs from the Unix time by the difference in the hour. -/
theorem clockS_eq_iff (days : ℤ) (minute second : ℕ) {hour hour' : ℕ} (hhour : hour < 24) (hhour' : hour' < 24) :
    (((86400 * (days % 2 ^ 64).toNat + 3600 * hour' + 60 * minute + second) % 2 ^ 64 : ℕ) : ℤ) =
      (86400 * days + 3600 * hour + 60 * minute + second) % 2 ^ 64 ↔ hour' = hour := by
  have hdays : ((days % 2 ^ 64).toNat : ℤ) = days % 2 ^ 64 := Int.toNat_of_nonneg (Int.emod_nonneg _ (by decide))
  have hclock : (((86400 * (days % 2 ^ 64).toNat + 3600 * hour' + 60 * minute + second) % 2 ^ 64 : ℕ) : ℤ) =
      (86400 * days + 3600 * hour' + 60 * minute + second) % 2 ^ 64 := by omega
  have hdiff : 86400 * days + 3600 * (hour' : ℤ) + 60 * minute + second - (86400 * days + 3600 * hour + 60 * minute + second) =
      3600 * (hour' - hour) := by omega
  rw [hclock, Int.emod_eq_emod_iff_emod_sub_eq_zero, hdiff]
  omega

/-- Where the conversions keep the hour. -/
theorem convertedHour_eq_iff (f : RtcFormat) (hour : ℕ) :
    convertedHour f hour = hour ↔ f.hours24 = true ∨ hour ≠ 0 ∧ hour ≠ 12 := by
  unfold convertedHour
  by_cases h24 : f.hours24 = true
  · simp only [h24, if_true, true_or]
  · rw [if_neg h24]
    constructor
    · intro hsame
      right
      split at hsame
      · omega
      · split at hsame <;> omega
    · intro hcase
      have hneither := hcase.resolve_left h24
      rw [if_neg hneither.1, if_neg hneither.2]

end Shown

/-- `initialize_clock` sets the Unix time of the instant that the registers show exactly when they show 24 hours, or the
hour is neither of the twelves. -/
theorem clockS_unixTime_iff (cmos : Cmos) (centuryRegister : ℕ) (f : RtcFormat) (dt : DateTime)
    (h : Shows cmos centuryRegister f dt) (hyear : YearShown centuryRegister dt.year) :
    (∃ fuel st, initializeClock cmos centuryRegister fuel = some st) ∧
      ∀ fuel st, initializeClock cmos centuryRegister fuel = some st →
        ((st.clockS : ℤ) = dt.unixTime % 2 ^ 64 ↔ f.hours24 = true ∨ dt.hour ≠ 0 ∧ dt.hour ≠ 12) := by
  constructor
  · exact initializeClock_returns h hyear
  · intro fuel st hst
    have hconverted : convertedHour f dt.hour < 24 := by
      have hhour := dt.hour_lt
      unfold convertedHour
      split
      · exact hhour
      · split
        · decide
        · split <;> omega
    rw [initializeClock_shown h hyear hst, ← convertedHour_eq_iff,
      ← clockS_eq_iff dt.unixDay dt.minute dt.second dt.hour_lt hconverted, ← daysFromCivil_eq dt.toDate,
      DateTime.unixTime, ← daysFromCivil_eq dt.toDate]
    rfl

/-- Registers that hold an instant for good, with the century in register `0x32`. -/
def heldRegisters (f : RtcFormat) (dt : DateTime) : Cmos := fun _ reg =>
  ([(0x00, f.encode dt.second), (0x02, f.encode dt.minute), (0x04, f.encodeHour dt.hour), (0x07, f.encode dt.day),
    (0x08, f.encode dt.month), (0x09, f.encode (dt.year % 100)), (0x32, f.encode (dt.year / 100)),
    (0x0B, (if f.binary then 0x04 else 0) + if f.hours24 then 0x02 else 0)].lookup reg).getD 0

/-- They show it. -/
theorem heldRegisters_shows (f : RtcFormat) (dt : DateTime) : Shows (heldRegisters f dt) 0x32 f dt where
  second _ := rfl
  minute _ := rfl
  hour _ := rfl
  day _ := rfl
  month _ := rfl
  year _ := rfl
  century _ _ := rfl
  binary t := by
    change ((if f.binary then 0x04 else 0) + if f.hours24 then 0x02 else 0) % 256 &&& 0x04 ≠ 0 ↔ _
    cases f.binary <;> cases f.hours24 <;> decide
  hours24 t := by
    change ((if f.binary then 0x04 else 0) + if f.hours24 then 0x02 else 0) % 256 &&& 0x02 ≠ 0 ↔ _
    cases f.binary <;> cases f.hours24 <;> decide
  updates t := by
    refine ⟨t, Nat.le_refl t, ?_⟩
    apply decide_eq_false
    change ¬ 0 % 256 &&& 0x80 ≠ 0
    decide

/-- Leap day of 2000, at an hour of that day. -/
def leapDay (hour : ℕ) (hhour : hour < 24) : DateTime where
  year := 2000
  month := 2
  day := 29
  month_pos := by decide
  month_le := by decide
  day_pos := by decide
  day_le := by decide
  hour := hour
  minute := 30
  second := 15
  hour_lt := hhour
  minute_lt := by decide
  second_lt := by decide

/-- An afternoon in BCD with 12 hours. -/
theorem clockS_unixTime_afternoon :
    ∃ fuel st, initializeClock (heldRegisters ⟨false, false⟩ (leapDay 13 (by decide))) 0x32 fuel = some st ∧
      (st.clockS : ℤ) = (leapDay 13 (by decide)).unixTime % 2 ^ 64 := by
  obtain ⟨⟨fuel, st, hst⟩, hiff⟩ := clockS_unixTime_iff (heldRegisters ⟨false, false⟩ (leapDay 13 (by decide))) 0x32
    ⟨false, false⟩ (leapDay 13 (by decide)) (heldRegisters_shows _ _) (by decide)
  exact ⟨fuel, st, hst, (hiff fuel st hst).mpr (Or.inr (by decide))⟩

/-- Half past noon in BCD with 12 hours, which the clock takes for half past midnight. -/
theorem clockS_noon :
    Shows (heldRegisters ⟨false, false⟩ (leapDay 12 (by decide))) 0x32 ⟨false, false⟩ (leapDay 12 (by decide)) ∧
      ∃ fuel st, initializeClock (heldRegisters ⟨false, false⟩ (leapDay 12 (by decide))) 0x32 fuel = some st ∧
        st.date.hour = 0 ∧ (st.clockS : ℤ) ≠ (leapDay 12 (by decide)).unixTime % 2 ^ 64 := by
  have hshows := heldRegisters_shows ⟨false, false⟩ (leapDay 12 (by decide))
  obtain ⟨fuel, st, hst⟩ := initializeClock_returns hshows (by decide)
  refine ⟨hshows, fuel, st, hst, ?_⟩
  rw [initializeClock_shown hshows (by decide) hst, DateTime.unixTime, ← daysFromCivil_eq]
  decide +kernel

end Cthulhu
