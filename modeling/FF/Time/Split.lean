import FF.Lib.Calendar
import FF.Number
import Mathlib.Tactic.IntervalCases

/-!
# Time stamps

A time stamp is a number of seconds from the first day of the year 1 on. `fftime_split2` gives the
date and the time of the day, and `fftime_join2` goes back. Both count the years from March on, so
that the leap day is the last day of a year.

## Conventions

* The fields of `ffdtm` and the variables are words of 32 bits, and `year` is an `int`.
* The zone is what `fftime_storelocal` has kept: the offset, when there is no daylight saving time.
-/

namespace FF

/-- `fftime` -/
@[ext]
structure Fftime where
  sec : ℤ
  nsec : ℕ
  deriving DecidableEq

/-- `ffdtm` -/
@[ext]
structure Ffdtm where
  year : ℤ
  month : ℕ
  weekday : ℕ
  day : ℕ
  yday : ℕ
  hour : ℕ
  min : ℕ
  sec : ℕ
  nsec : ℕ
  deriving DecidableEq

/-- `enum FF_TIMEZONE` -/
inductive FfTimezone
  | tzutc
  | tzlocal
  | tznodate
  deriving DecidableEq

/-- `fftime_leapyear` -/
def fftimeLeapyear (year : ℤ) : ℕ :=
  if year % 4 = 0 ∧ (year % 100 ≠ 0 ∨ year % 400 = 0) then 1 else 0

/-- `fftime_absdays` -/
def fftimeAbsdays (year : ℕ) : ℕ := uint (year * 365 + year / 4 - year / 100 + year / 400)

/-- `FFTIME_DAY_SECS` -/
def FFTIME_DAY_SECS : ℕ := 60 * 60 * 24

/-- `mon_ydays`: the days of the year in front of a month, both from March on. -/
def monYdays (mon : ℕ) : ℕ := uint (uint (367 * mon) / 12 - 30)

/-- `yday_mon`: the month of a day of the year, both from March on. -/
def ydayMon (yday : ℕ) : ℕ := uint (uint (yday + 31) * 10) / 306

/-- The year and the day of the year in `fftime_split2`, both from March on. -/
def marchYear (days : ℕ) : ℕ × ℕ :=
  let year := uint (1 + uint (days * 400) / fftimeAbsdays 400)
  let yday := uint (days - fftimeAbsdays year)
  if int32 yday < 0 then (uint (yday + (365 + fftimeLeapyear year)), uint (year - 1))
  else (yday, year)

/-- The date in `fftime_split2`, for the days since the first one: the year, the month, the day of
the year and the day of the month. -/
def splitDays (days : ℕ) : ℕ × ℕ × ℕ × ℕ :=
  let (yday, year) := marchYear (uint (days + 306))
  let mon := ydayMon yday
  let mday := uint (yday - monYdays mon)
  let (year, mon, yday) :=
    if 306 ≤ yday then (uint (year + 1), uint (mon - 10), uint (yday - 306))
    else (year, uint (mon + 2), uint (yday + (31 + 28 + fftimeLeapyear year)))
  (year, mon, uint (yday + 1), uint (mday + 1))

/-- `fftime_split2` for a number of seconds in the zone. -/
def splitSec (sec nsec : ℕ) : Ffdtm :=
  let days := uint (sec / FFTIME_DAY_SECS)
  let daysec := uint (sec % FFTIME_DAY_SECS)
  let (year, mon, yday, mday) := splitDays days
  { year := int32 year
    month := mon
    weekday := uint (1 + days) % 7
    day := mday
    yday := yday
    hour := daysec / (60 * 60)
    min := daysec % (60 * 60) / 60
    sec := daysec % 60
    nsec := nsec }

/-- `fftime_split2`: without an offset for the local zone, nothing is written. -/
def fftimeSplit2 (zone : Option ℤ) (dt : Ffdtm) (t : Fftime) (flags : FfTimezone) : Ffdtm :=
  match flags, zone with
  | .tzlocal, none => dt
  | .tzlocal, some off => splitSec ((t.sec + off) % SIZE_BOUND).toNat t.nsec
  | .tzutc, _ => splitSec (t.sec % SIZE_BOUND).toNat t.nsec
  | .tznodate, _ => splitSec (t.sec % SIZE_BOUND).toNat t.nsec

/-- `mon_norm`: the month, and the year. -/
def monNorm (mon year : ℕ) : ℕ × ℕ :=
  if 12 < mon then ((mon - 1) % 12 + 1, uint (year + (mon - 1) / 12)) else (mon, year)

/-- The days since the first one in `fftime_join2`. -/
def joinDays (year month day : ℕ) : ℕ :=
  let (mon, year) := monNorm month year
  let mon := uint (mon - 2)
  let (mon, year) := if int32 mon ≤ 0 then (uint (mon + 12), uint (year - 1)) else (mon, year)
  uint (fftimeAbsdays year - fftimeAbsdays 1 + monYdays mon + (31 + 28) + day - 1)

/-- The end of `fftime_join2`. -/
def joinSet (dt : Ffdtm) (days : ℕ) (off : ℤ) : Fftime :=
  ⟨days * FFTIME_DAY_SECS + uint (dt.hour * 60 * 60) + uint (dt.min * 60) + dt.sec - off, dt.nsec⟩

/-- `fftime_join2` -/
def fftimeJoin2 (zone : Option ℤ) (dt : Ffdtm) (flags : FfTimezone) : Fftime :=
  match flags, zone with
  | .tznodate, _ => joinSet dt 0 0
  | .tzlocal, none => ⟨0, 0⟩
  | .tzlocal, some off =>
    if dt.year ≤ 0 then ⟨0, 0⟩
    else joinSet dt (joinDays (uint dt.year) dt.month dt.day) off
  | .tzutc, _ =>
    if dt.year ≤ 0 then ⟨0, 0⟩
    else joinSet dt (joinDays (uint dt.year) dt.month dt.day) 0

/-! ### The date of a day -/

section Days

variable {n y z : ℕ}

theorem fftimeLeapyear_eq (y : ℕ) : fftimeLeapyear y = leapDay y := by
  rw [fftimeLeapyear, leapDay]
  refine if_congr ?_ rfl rfl
  rw [IsLeap]
  omega

theorem fftimeAbsdays_eq (hy : y ≤ 10000) : fftimeAbsdays y = daysThroughYear y := by
  have hclosed := daysThroughYear_eq y
  rw [fftimeAbsdays]
  exact uint_eq (by omega) (by omega)

theorem daysThroughYear_end (hy : y = 9999) : daysThroughYear y = 3652059 := by
  have := daysThroughYear_eq y
  omega

/-- **The estimate of the year** is right, or one too large. -/
theorem daysThroughYear_estimate (n : ℕ) : daysThroughYear (n * 400 / 146097) ≤ n ∧
    n < daysThroughYear (n * 400 / 146097 + 2) := by
  have hlow := daysThroughYear_eq (n * 400 / 146097)
  have hhigh := daysThroughYear_eq (n * 400 / 146097 + 2)
  omega

/-- **The year from March on**: after the estimate of the year and its correction, the day is in the
year. -/
theorem exists_marchYear (hn : n < 3652365) : ∃ y z, n = daysThroughYear y + z ∧
    z < 365 + leapDay (y + 1) ∧ y ≤ 10000 ∧ marchYear n = (z, y) := by
  obtain ⟨hlow, hhigh⟩ := daysThroughYear_estimate n
  obtain ⟨k, hk⟩ : ∃ k, k = n * 400 / 146097 := ⟨_, rfl⟩
  have hmul : uint ((n : ℤ) * 400) = n * 400 := uint_eq (by norm_cast) (by omega)
  have hconst : fftimeAbsdays 400 = 146097 := rfl
  have hyear : uint (1 + uint ((n : ℤ) * 400) / fftimeAbsdays 400) = k + 1 :=
    uint_eq (by rw [hmul, hconst]; omega) (by omega)
  have hsucc : daysThroughYear (k + 1) = daysThroughYear k + (365 + leapDay (k + 1)) := by
    rw [daysThroughYear, daysThroughMonth_year]
  have hsucc' : daysThroughYear (k + 2) = daysThroughYear (k + 1) + (365 + leapDay (k + 1 + 1)) := by
    rw [daysThroughYear, daysThroughMonth_year]
  have hleap := leapDay_le (k + 1)
  rw [← hk] at hlow hhigh
  simp only [marchYear, hyear, fftimeLeapyear_eq, fftimeAbsdays_eq (by omega : k + 1 ≤ 10000)]
  rw [int32_uint (by omega) (by omega)]
  by_cases hafter : daysThroughYear (k + 1) ≤ n
  · refine ⟨k + 1, n - daysThroughYear (k + 1), by omega, by omega, by omega, ?_⟩
    rw [if_neg (by omega), uint_eq (n := n - daysThroughYear (k + 1)) (by omega) (by omega)]
  · refine ⟨k, n - daysThroughYear k, by omega, by omega, by omega, ?_⟩
    rw [if_pos (by omega), uint_uint_add, uint_eq (n := n - daysThroughYear k) (by omega) (by omega),
      uint_eq (n := k) (by push_cast; omega) (by omega)]

theorem monYdays_eq {mon : ℕ} (hpos : 1 ≤ mon) (hle : mon ≤ 12) :
    monYdays mon = 367 * mon / 12 - 30 := by
  have hmul : uint (367 * (mon : ℤ)) = 367 * mon := uint_eq (by norm_cast) (by omega)
  rw [monYdays, hmul]
  exact uint_eq (by omega) (by omega)

theorem ydayMon_eq (hz : z < 366) : ydayMon z = (z + 31) * 10 / 306 := by
  have hadd : uint ((z : ℤ) + 31) = z + 31 := uint_eq (by norm_cast) (by omega)
  have hmul : uint ((uint ((z : ℤ) + 31) : ℤ) * 10) = (z + 31) * 10 :=
    uint_eq (by rw [hadd]; norm_cast) (by omega)
  rw [ydayMon, hmul]

theorem daysThroughMonth_march {m : ℕ} (hpos : 1 ≤ m) (hle : m ≤ 10) (y : ℕ) :
    daysThroughMonth y (m + 1) = 59 + leapDay y + monYdays m := by
  rw [monYdays_eq hpos (by omega)]
  interval_cases m <;> simp only [daysThroughMonth, monthLength] <;> omega

theorem daysThroughMonth_january {m : ℕ} (hm : m < 2) (y : ℕ) :
    daysThroughMonth y m + 306 = monYdays (m + 11) := by
  rw [monYdays_eq (by omega) (by omega)]
  interval_cases m <;> rfl

/-- **The month** of a day of the year from March on, and the days in front of it. -/
theorem ydayMon_spec (hz : z < 365 + leapDay (y + 1)) :
    1 ≤ ydayMon z ∧ ydayMon z ≤ 12 ∧ monYdays (ydayMon z) ≤ z ∧
    (z < 306 → ydayMon z ≤ 10 ∧
      z < monYdays (ydayMon z) + monthLength y (ydayMon z + 2)) ∧
    (306 ≤ z → 11 ≤ ydayMon z ∧
      z < monYdays (ydayMon z) + monthLength (y + 1) (ydayMon z - 10)) := by
  have hleap := leapDay_le (y + 1)
  rw [ydayMon_eq (by omega)]
  obtain ⟨mon, hmon⟩ : ∃ mon, mon = (z + 31) * 10 / 306 := ⟨_, rfl⟩
  rw [← hmon]
  have hpos : 1 ≤ mon := by omega
  have hle : mon ≤ 12 := by omega
  rw [monYdays_eq hpos hle]
  interval_cases mon <;> simp only [Nat.reduceSub, monthLength] <;> omega

theorem exists_splitDays (hn : n < 3652059) : ∃ d : Date, d.dayNumber = n ∧
    splitDays n = (d.year, d.month, d.ordinal, d.day) := by
  have hadd : uint ((n : ℤ) + 306) = n + 306 := uint_eq (by norm_cast) (by omega)
  obtain ⟨y, z, hsum, hz, hy, hyear⟩ := exists_marchYear (n := n + 306) (by omega)
  obtain ⟨hpos, hle, hfirst, hlow, hhigh⟩ := ydayMon_spec hz
  obtain ⟨mon, hmon⟩ : ∃ mon, mon = ydayMon z := ⟨_, rfl⟩
  rw [← hmon] at hpos hle hfirst hlow hhigh
  have hmday : uint ((z : ℤ) - monYdays mon) = z - monYdays mon := uint_eq (by omega) (by omega)
  have hday : uint (((z - monYdays mon : ℕ) : ℤ) + 1) = z - monYdays mon + 1 :=
    uint_eq (by norm_cast) (by omega)
  rw [splitDays, hadd, hyear]
  dsimp only
  rw [← hmon, hmday, hday]
  by_cases hspring : z < 306
  · -- March to December
    obtain ⟨hten, hlength⟩ := hlow hspring
    have hdays := daysThroughMonth_march hpos hten y
    have hyearpos : 1 ≤ y := by
      by_contra hzero
      obtain rfl : y = 0 := by omega
      rw [daysThroughYear] at hsum
      omega
    have hprev : daysThroughYear y = daysThroughYear (y - 1) + (365 + leapDay y) := by
      conv_lhs => rw [← Nat.sub_add_cancel hyearpos, daysThroughYear, daysThroughMonth_year,
        Nat.sub_add_cancel hyearpos]
    refine ⟨⟨y, mon + 2, z - monYdays mon + 1, hyearpos, by omega, by omega, by omega,
      by omega⟩, ?_, ?_⟩
    · rw [Date.dayNumber, Date.ordinal]
      dsimp only
      rw [show mon + 2 - 1 = mon + 1 from rfl]
      omega
    have hmonth : uint ((mon : ℤ) + 2) = mon + 2 := uint_eq (by norm_cast) (by omega)
    have hyday : uint ((z : ℤ) + (31 + 28 + leapDay y)) = z + 59 + leapDay y :=
      uint_eq (by omega) (by have := leapDay_le y; omega)
    rw [if_neg (by omega), Date.ordinal]
    dsimp only
    rw [fftimeLeapyear_eq, hmonth, hyday, show mon + 2 - 1 = mon + 1 from rfl,
      uint_eq (n := daysThroughMonth y (mon + 1) + (z - monYdays mon + 1)) (by omega)
        (by have := leapDay_le y; omega)]
  -- January and February of the next year
  obtain ⟨heleven, hlength⟩ := hhigh (by omega)
  have hdays := daysThroughMonth_january (m := mon - 11) (by omega) (y + 1)
  rw [Nat.sub_add_cancel heleven] at hdays
  refine ⟨⟨y + 1, mon - 10, z - monYdays mon + 1, by omega, by omega, by omega, by omega,
    by omega⟩, ?_, ?_⟩
  · rw [Date.dayNumber, Date.ordinal]
    dsimp only
    rw [show mon - 10 - 1 = mon - 11 by omega, Nat.add_sub_cancel]
    omega
  have hyear' : uint ((y : ℤ) + 1) = y + 1 := uint_eq (by norm_cast) (by omega)
  have hmonth : uint ((mon : ℤ) - 10) = mon - 10 := uint_eq (by omega) (by omega)
  have hyday : uint ((z : ℤ) - 306) = z - 306 := uint_eq (by omega) (by omega)
  rw [if_pos (by omega), Date.ordinal]
  dsimp only
  rw [hyear', hmonth, hyday, show mon - 10 - 1 = mon - 11 by omega,
    uint_eq (n := daysThroughMonth (y + 1) (mon - 11) + (z - monYdays mon + 1)) (by omega)
      (by omega)]

/-- **The date of a day** is that of the calendar. -/
theorem splitDays_eq (hn : n < daysThroughYear 9999) :
    splitDays n = ((Date.ofDay n).year, (Date.ofDay n).month, (Date.ofDay n).ordinal,
      (Date.ofDay n).day) := by
  rw [daysThroughYear_end rfl] at hn
  obtain ⟨d, rfl, hsplit⟩ := exists_splitDays hn
  rwa [Date.ofDay_dayNumber]

theorem fftimeAbsdays_one : fftimeAbsdays 1 = 365 := rfl

/-- **The day of a date** is that of the calendar. -/
theorem joinDays_eq (d : Date) (hy : d.year ≤ 9999) :
    joinDays d.year d.month d.day = d.dayNumber := by
  have hyear := d.year_pos
  have hpos := d.month_pos
  have hle := d.month_le
  have hday := d.day_pos
  have hbound := (d.dayNumber_lt_iff 9999).mpr hy
  rw [daysThroughYear_end rfl] at hbound
  rw [joinDays, monNorm, if_neg (by omega)]
  dsimp only
  rw [int32_uint (by omega) (by omega), fftimeAbsdays_one]
  by_cases hwinter : d.month ≤ 2
  · have hmonth : uint (uint ((d.month : ℤ) - 2) + 12) = d.month - 1 + 11 := by
      rw [uint_uint_add]
      exact uint_eq (by omega) (by omega)
    have hprev : uint ((d.year : ℤ) - 1) = d.year - 1 := uint_eq (by omega) (by omega)
    have hdays := daysThroughMonth_january (m := d.month - 1) (by omega) d.year
    rw [if_pos (by omega)]
    dsimp only
    rw [hmonth, hprev, fftimeAbsdays_eq (by omega)]
    rw [Date.dayNumber, Date.ordinal] at hbound ⊢
    exact uint_eq (by omega) (by omega)
  have hmonth : uint ((d.month : ℤ) - 2) = d.month - 2 := uint_eq (by omega) (by omega)
  have hdays := daysThroughMonth_march (m := d.month - 2) (by omega) (by omega) d.year
  have hlast : daysThroughYear d.year = daysThroughYear (d.year - 1) + (365 + leapDay d.year) := by
    conv_lhs => rw [← Nat.sub_add_cancel hyear, daysThroughYear, daysThroughMonth_year,
      Nat.sub_add_cancel hyear]
  rw [show d.month - 2 + 1 = d.month - 1 by omega] at hdays
  rw [if_neg (by omega)]
  dsimp only
  rw [hmonth, fftimeAbsdays_eq (by omega)]
  rw [Date.dayNumber, Date.ordinal] at hbound ⊢
  exact uint_eq (by omega) (by omega)

end Days

/-! ### Time stamps -/

/-- The fields of a date and of a time of the day -/
def Ffdtm.ofDate (d : Date) (hour min sec nsec : ℕ) : Ffdtm where
  year := d.year
  month := d.month
  weekday := d.weekday
  day := d.day
  yday := d.ordinal
  hour := hour
  min := min
  sec := sec
  nsec := nsec

/-- The year, the month and the day are those of a date. -/
def Ffdtm.IsDate (dt : Ffdtm) (d : Date) : Prop :=
  dt.year = d.year ∧ dt.month = d.month ∧ dt.day = d.day

/-- A date of the calendar and a time of the day. The weekday and the day of the year are not looked
at. -/
def Ffdtm.Valid (dt : Ffdtm) (d : Date) : Prop :=
  dt.IsDate d ∧ dt.hour ≤ 23 ∧ dt.min ≤ 59 ∧ dt.sec ≤ 59 ∧ dt.nsec ≤ 999999999

section Stamps

variable {zone : Option ℤ} {dt dt' : Ffdtm} {t : Fftime} {d : Date}

theorem splitSec_eq {sec : ℕ} (nsec : ℕ) (hsec : sec < 3652059 * 86400) :
    splitSec sec nsec = Ffdtm.ofDate (Date.ofDay (sec / 86400)) (sec % 86400 / 3600)
      (sec % 3600 / 60) (sec % 60) nsec := by
  have hdays : uint (sec / FFTIME_DAY_SECS) = sec / 86400 := uint_eq (by norm_cast) (by omega)
  have hdaysec : uint (sec % FFTIME_DAY_SECS) = sec % 86400 := uint_eq (by norm_cast) (by omega)
  have hsplit := splitDays_eq (n := sec / 86400) (by rw [daysThroughYear_end rfl]; omega)
  have hyear : (Date.ofDay (sec / 86400)).year ≤ 9999 := by
    rw [← Date.dayNumber_lt_iff, Date.dayNumber_ofDay, daysThroughYear_end rfl]
    omega
  have hweekday : uint (1 + (sec / 86400 : ℕ)) = 1 + sec / 86400 :=
    uint_eq (by norm_cast) (by omega)
  rw [splitSec, hdays, hdaysec, hsplit]
  dsimp only
  rw [hweekday, Ffdtm.ofDate, Date.weekday, Date.dayNumber_ofDay, int32, if_pos (by omega)]
  congr 1 <;> omega

theorem fftimeSplit2_eq (hpos : 0 ≤ t.sec) (hend : t.sec < 3652059 * 86400) :
    fftimeSplit2 zone dt t .tzutc = Ffdtm.ofDate (Date.ofDay (t.sec.toNat / 86400))
      (t.sec.toNat % 86400 / 3600) (t.sec.toNat % 3600 / 60) (t.sec.toNat % 60) t.nsec := by
  have hlt : t.sec < SIZE_BOUND := by
    rw [SIZE_BOUND]
    omega
  rw [fftimeSplit2, Int.emod_eq_of_lt hpos hlt]
  exact splitSec_eq t.nsec (by omega)

theorem fftimeJoin2_eq (hdate : dt.IsDate d) (hhour : dt.hour ≤ 23) (hmin : dt.min ≤ 59) (hy : d.year ≤ 9999) :
    fftimeJoin2 zone dt .tzutc =
      ⟨d.dayNumber * 86400 + dt.hour * 3600 + dt.min * 60 + dt.sec, dt.nsec⟩ := by
  obtain ⟨hyear, hmonth, hday⟩ := hdate
  have hpos := d.year_pos
  have huint : uint d.year = d.year := uint_eq rfl (by omega)
  have hhours : uint (dt.hour * 60 * 60) = dt.hour * 3600 := uint_eq (by omega) (by omega)
  have hmins : uint (dt.min * 60) = dt.min * 60 := uint_eq (by omega) (by omega)
  rw [fftimeJoin2, if_neg (by omega), hyear, hmonth, hday, huint, joinDays_eq d hy, joinSet, hhours,
    hmins, FFTIME_DAY_SECS]
  exact Fftime.ext (by dsimp only; omega) rfl

/-- **Splitting and joining.** A time stamp up to the end of the year 9999 is split into the date of
the calendar and the time of the day, and joined again; and a date and a time of the day in these
years are found again in the time stamp. -/
theorem fftimeSplit2_join2 (zone : Option ℤ) (dt₀ : Ffdtm) :
    (∀ t : Fftime, 0 ≤ t.sec → t.sec < daysThroughYear 9999 * FFTIME_DAY_SECS →
      fftimeSplit2 zone dt₀ t .tzutc = Ffdtm.ofDate (Date.ofDay (t.sec.toNat / 86400))
          (t.sec.toNat % 86400 / 3600) (t.sec.toNat % 3600 / 60) (t.sec.toNat % 60) t.nsec ∧
        fftimeJoin2 zone (fftimeSplit2 zone dt₀ t .tzutc) .tzutc = t) ∧
    ∀ (dt : Ffdtm) (d : Date), dt.Valid d → d.year ≤ 9999 →
      fftimeSplit2 zone dt₀ (fftimeJoin2 zone dt .tzutc) .tzutc =
        Ffdtm.ofDate d dt.hour dt.min dt.sec dt.nsec := by
  rw [daysThroughYear_end rfl, FFTIME_DAY_SECS]
  refine ⟨fun t hpos hend => ?_, fun dt d hdt hy => ?_⟩
  · have hsplit : fftimeSplit2 zone dt₀ t .tzutc = _ := fftimeSplit2_eq hpos (by omega)
    have hdate := (Date.dayNumber_lt_iff (Date.ofDay (t.sec.toNat / 86400)) 9999).mp
      (by rw [Date.dayNumber_ofDay, daysThroughYear_end rfl]; omega)
    refine ⟨hsplit, ?_⟩
    rw [hsplit, fftimeJoin2_eq ⟨rfl, rfl, rfl⟩ (by dsimp only [Ffdtm.ofDate]; omega)
      (by dsimp only [Ffdtm.ofDate]; omega) hdate, Date.dayNumber_ofDay]
    refine Fftime.ext ?_ rfl
    dsimp only [Ffdtm.ofDate]
    omega
  have hbound := (Date.dayNumber_lt_iff d 9999).mpr hy
  rw [daysThroughYear_end rfl] at hbound
  obtain ⟨hdate, hhour, hmin, hsec, -⟩ := hdt
  have hjoin : fftimeJoin2 zone dt .tzutc = _ := fftimeJoin2_eq hdate hhour hmin hy
  obtain ⟨s, hs⟩ : ∃ s, s = d.dayNumber * 86400 + dt.hour * 3600 + dt.min * 60 + dt.sec :=
    ⟨_, rfl⟩
  have hstamp : fftimeJoin2 zone dt .tzutc = ⟨s, dt.nsec⟩ := by
    rw [hjoin, hs]
    push_cast
    rfl
  rw [hstamp, fftimeSplit2_eq (Int.natCast_nonneg s) (by dsimp only; omega), Int.toNat_natCast,
    show s / 86400 = d.dayNumber by omega, Date.ofDay_dayNumber]
  congr 1 <;> omega

theorem fftimeSplit2_join2_leapDay (dt₀ : Ffdtm) :
    let d : Date := ⟨2000, 2, 29, by decide, by decide, by decide, by decide, by decide⟩
    fftimeSplit2 none dt₀ (fftimeJoin2 none (Ffdtm.ofDate d 12 30 15 0) .tzutc) .tzutc =
        Ffdtm.ofDate d 12 30 15 0 ∧
      fftimeJoin2 none (fftimeSplit2 none dt₀ ⟨0, 0⟩ .tzutc) .tzutc = ⟨0, 0⟩ :=
  ⟨(fftimeSplit2_join2 none dt₀).2 _ _ ⟨⟨rfl, rfl, rfl⟩, by decide, by decide, by decide, by decide⟩
      (by decide),
    ((fftimeSplit2_join2 none dt₀).1 ⟨0, 0⟩ (by decide)
      (by rw [daysThroughYear_end rfl]; decide)).2⟩

end Stamps

end FF
