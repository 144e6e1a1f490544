import FF.Time.Split

/-!
# The check of a date and time

`fftime_chk` looks at the fields of a date and time that its flags name. The day of the year is
counted from March on and moved by the days of January and February; for these two months the count
goes on behind December, and the days of the year are not taken off again.
-/

namespace FF

/-- `FFTIME_CHKTIME` -/
def FFTIME_CHKTIME : ℕ := 1

/-- `FFTIME_CHKDATE` -/
def FFTIME_CHKDATE : ℕ := 2

/-- `FFTIME_CHKWDAY` -/
def FFTIME_CHKWDAY : ℕ := 4

/-- `FFTIME_CHKYDAY` -/
def FFTIME_CHKYDAY : ℕ := 8

/-- `month_days` -/
def monthDays : List ℕ := [31, 28, 31, 30, 31, 30, 31, 31, 30, 31, 30, 31]

/-- The time in `fftime_chk` -/
def chkTime (dt : Ffdtm) : Bool :=
  dt.hour ≤ 23 && dt.min ≤ 59 && dt.sec ≤ 59 && dt.nsec ≤ 999999999

/-- The date in `fftime_chk` -/
def chkDate (dt : Ffdtm) : Bool :=
  dt.year != 0 && uint (dt.month - 1) < 12 &&
    (uint (dt.day - 1) < monthDays.getD (uint (dt.month - 1)) 0 ||
      (dt.day == 29 && dt.month == 2 && fftimeLeapyear dt.year != 0))

/-- The day of the year in `fftime_chk` -/
def chkYday (dt : Ffdtm) : Bool :=
  let mon := uint (dt.month - 2)
  let mon := if int32 mon ≤ 0 then uint (mon + 12) else mon
  dt.yday == uint (monYdays mon + 31 + 28 + fftimeLeapyear dt.year + dt.day)

/-- `fftime_chk` -/
def fftimeChk (dt : Ffdtm) (flags : ℕ) : Bool :=
  let flags := if flags = 0 then 0xff else flags
  if flags &&& FFTIME_CHKTIME ≠ 0 ∧ ¬chkTime dt then false
  else if flags &&& FFTIME_CHKDATE ≠ 0 ∧ ¬chkDate dt then false
  else if flags &&& FFTIME_CHKWDAY ≠ 0 ∧ ¬dt.weekday ≤ 6 then false
  else if flags &&& FFTIME_CHKYDAY ≠ 0 ∧ ¬chkYday dt then false
  else true

section Check

variable {dt : Ffdtm} {d : Date} {flags : ℕ}

theorem monthLength_monthDays (y : ℕ) {m : ℕ} (hpos : 1 ≤ m) (hle : m ≤ 12) :
    monthLength y m = monthDays.getD (m - 1) 0 + if m = 2 then leapDay y else 0 := by
  interval_cases m <;> rfl

/-- **The dates that are accepted** are those of the calendar. -/
theorem chkDate_iff (hyear : 1 ≤ dt.year) (hmonth : dt.month < 2 ^ 32) (hday : dt.day < 2 ^ 32) :
    chkDate dt = true ↔ ∃ d : Date, dt.IsDate d := by
  obtain ⟨y, hy⟩ := Int.eq_ofNat_of_zero_le (show 0 ≤ dt.year by omega)
  have hleap := leapDay_le y
  rw [chkDate, hy, fftimeLeapyear_eq]
  simp only [Bool.and_eq_true, Bool.or_eq_true, decide_eq_true_iff, beq_iff_eq, bne_iff_ne]
  constructor
  · rintro ⟨⟨-, hmon⟩, hdays⟩
    have hpos : 1 ≤ dt.month := by
      by_contra hzero
      rw [show dt.month = 0 by omega] at hmon
      exact absurd hmon (by decide)
    have hle : uint ((dt.month : ℤ) - 1) = dt.month - 1 := uint_eq (by omega) (by omega)
    rw [hle] at hmon hdays
    have hlength := monthLength_monthDays y hpos (by omega)
    have hbound := monthLength_le y dt.month
    have hin : 1 ≤ dt.day ∧ dt.day ≤ monthLength y dt.month := by
      rcases hdays with hdays | ⟨⟨hday', hfeb⟩, hone⟩
      · have hdaypos : 1 ≤ dt.day := by
          by_contra hzero
          rw [show dt.day = 0 by omega] at hdays
          have : uint ((0 : ℕ) - 1) = 2 ^ 32 - 1 := rfl
          omega
        have : uint ((dt.day : ℤ) - 1) = dt.day - 1 := uint_eq (by omega) (by omega)
        omega
      · rw [hfeb, monthLength]
        omega
    exact ⟨⟨y, dt.month, dt.day, by omega, hpos, by omega, hin.1, hin.2⟩, hy, rfl, rfl⟩
  rintro ⟨d, hdyear, hdmonth, hdday⟩
  have hpos := d.month_pos
  have hle := d.month_le
  have hdaypos := d.day_pos
  have hdayle := d.day_le
  obtain rfl : y = d.year := by omega
  have hlength := monthLength_monthDays d.year hpos hle
  have hmon : uint ((d.month : ℤ) - 1) = d.month - 1 := uint_eq (by omega) (by omega)
  have hdays : uint ((d.day : ℤ) - 1) = d.day - 1 := uint_eq (by omega) (by omega)
  rw [hdmonth, hdday, hmon, hdays]
  refine ⟨⟨by omega, by omega⟩, ?_⟩
  by_cases hin : d.day - 1 < monthDays.getD (d.month - 1) 0
  · exact .inl hin
  -- only the leap day is behind the days of the table
  have hfeb : d.month = 2 := by
    by_contra hfeb
    rw [if_neg hfeb] at hlength
    omega
  rw [hfeb] at hin hlength hdayle ⊢
  have htable : monthDays.getD (2 - 1) 0 = 28 := rfl
  rw [if_pos rfl] at hlength
  exact .inr ⟨⟨by omega, rfl⟩, by omega⟩

/-- **The day of the year that is asked for**: in January and February, it is behind the year. -/
theorem chkYday_eq (hdate : dt.IsDate d) :
    chkYday dt = (dt.yday == d.ordinal + if d.month ≤ 2 then 365 + leapDay d.year else 0) := by
  obtain ⟨hyear, hmonth, hday⟩ := hdate
  have hpos := d.month_pos
  have hle := d.month_le
  have hleap := leapDay_le d.year
  have hdayle := d.day_le
  have hlength := monthLength_le d.year d.month
  rw [chkYday, hyear, hmonth, hday, fftimeLeapyear_eq, Date.ordinal]
  rw [int32_uint (by omega) (by omega)]
  congr 1
  by_cases hwinter : d.month ≤ 2
  · have hmon : uint (uint ((d.month : ℤ) - 2) + 12) = d.month - 1 + 11 := by
      rw [uint_uint_add]
      exact uint_eq (by omega) (by omega)
    have hdays := daysThroughMonth_january (m := d.month - 1) (by omega) d.year
    have hsmall : monYdays (d.month - 1 + 11) = _ := monYdays_eq (by omega) (by omega)
    rw [if_pos (by omega), if_pos hwinter, hmon]
    exact uint_eq (by omega) (by omega)
  have hmon : uint ((d.month : ℤ) - 2) = d.month - 2 := uint_eq (by omega) (by omega)
  have hdays := daysThroughMonth_march (m := d.month - 2) (by omega) (by omega) d.year
  have hsmall : monYdays (d.month - 2) = _ := monYdays_eq (by omega) (by omega)
  rw [show d.month - 2 + 1 = d.month - 1 by omega] at hdays
  rw [if_neg (by omega), if_neg hwinter, hmon]
  exact uint_eq (by omega) (by omega)

theorem fftimeChk_date (dt : Ffdtm) : fftimeChk dt FFTIME_CHKDATE = chkDate dt := by
  cases h : chkDate dt <;> simp [fftimeChk, FFTIME_CHKTIME, FFTIME_CHKDATE, FFTIME_CHKWDAY,
    FFTIME_CHKYDAY, h]

theorem fftimeChk_time (dt : Ffdtm) : fftimeChk dt FFTIME_CHKTIME = chkTime dt := by
  cases h : chkTime dt <;> simp [fftimeChk, FFTIME_CHKTIME, FFTIME_CHKDATE, FFTIME_CHKWDAY,
    FFTIME_CHKYDAY, h]

theorem fftimeChk_ofDate (d : Date) {hour min sec nsec : ℕ} (hhour : hour ≤ 23) (hmin : min ≤ 59)
    (hsec : sec ≤ 59) (hnsec : nsec ≤ 999999999) (flags : ℕ) :
    fftimeChk (Ffdtm.ofDate d hour min sec nsec) flags = true ↔
      ¬(d.month ≤ 2 ∧ (flags = 0 ∨ flags &&& FFTIME_CHKYDAY ≠ 0)) := by
  have htime : chkTime (Ffdtm.ofDate d hour min sec nsec) = true := by
    simp [chkTime, Ffdtm.ofDate, hhour, hmin, hsec, hnsec]
  have hdate : chkDate (Ffdtm.ofDate d hour min sec nsec) = true := by
    have := d.year_pos
    have := d.month_le
    have := d.day_le
    have := monthLength_le d.year d.month
    exact (chkDate_iff (by dsimp only [Ffdtm.ofDate]; omega) (by dsimp only [Ffdtm.ofDate]; omega)
      (by dsimp only [Ffdtm.ofDate]; omega)).mpr ⟨d, rfl, rfl, rfl⟩
  have hwday : (Ffdtm.ofDate d hour min sec nsec).weekday ≤ 6 := by
    dsimp only [Ffdtm.ofDate, Date.weekday]
    omega
  have hyday : chkYday (Ffdtm.ofDate d hour min sec nsec) = true ↔ ¬d.month ≤ 2 := by
    rw [chkYday_eq (d := d) ⟨rfl, rfl, rfl⟩, beq_iff_eq]
    dsimp only [Ffdtm.ofDate]
    split <;> omega
  have hflags : (if flags = 0 then 0xff else flags) &&& FFTIME_CHKYDAY ≠ 0 ↔
      flags = 0 ∨ flags &&& FFTIME_CHKYDAY ≠ 0 := by
    by_cases hzero : flags = 0
    · rw [if_pos hzero]
      exact ⟨fun _ => .inl hzero, fun _ => by decide⟩
    · rw [if_neg hzero, or_iff_right hzero]
  rw [fftimeChk, if_neg (by simp [htime]), if_neg (by simp [hdate]),
    if_neg (by simp [hwday]), ← hflags]
  generalize (if flags = 0 then 0xff else flags) &&& FFTIME_CHKYDAY = bit
  split
  next h => exact ⟨fun hc => Bool.noConfusion hc, fun hc => absurd ⟨not_not.mp fun hw => h.2 (hyday.mpr hw), h.1⟩ hc⟩
  next h => exact ⟨fun _ hc => h ⟨hc.2, fun hy => hyday.mp hy hc.1⟩, fun _ => rfl⟩

/-- **When the check agrees with the calendar**: outside of January and February, or when the day
of the year is not looked at. -/
theorem fftimeChk_iff (zone : Option ℤ) (dt₀ : Ffdtm) {t : Fftime} (hpos : 0 ≤ t.sec)
    (hend : t.sec < daysThroughYear 9999 * FFTIME_DAY_SECS) (hnsec : t.nsec ≤ 999999999)
    (flags : ℕ) {dt : Ffdtm} (hyear : 1 ≤ dt.year) (hmonth : dt.month < 2 ^ 32)
    (hday : dt.day < 2 ^ 32) :
    (fftimeChk (fftimeSplit2 zone dt₀ t .tzutc) flags = true ↔
      ¬((Date.ofDay (t.sec.toNat / FFTIME_DAY_SECS)).month ≤ 2 ∧
        (flags = 0 ∨ flags &&& FFTIME_CHKYDAY ≠ 0))) ∧
    ((fftimeChk dt (FFTIME_CHKDATE ||| FFTIME_CHKYDAY) = true ↔
        ∃ d : Date, dt.IsDate d ∧ dt.yday = d.ordinal) ↔
      ∀ d : Date, dt.IsDate d → d.month ≤ 2 →
        dt.yday ≠ d.ordinal ∧ dt.yday ≠ d.ordinal + (365 + leapDay d.year)) := by
  rw [daysThroughYear_end rfl, FFTIME_DAY_SECS] at hend
  constructor
  · rw [fftimeSplit2_eq hpos (by omega)]
    exact fftimeChk_ofDate _ (by omega) (by omega) (by omega) hnsec flags
  have hchk : fftimeChk dt (FFTIME_CHKDATE ||| FFTIME_CHKYDAY) = true ↔
      chkDate dt = true ∧ chkYday dt = true := by
    have hflags : FFTIME_CHKDATE ||| FFTIME_CHKYDAY = 10 := rfl
    rw [fftimeChk, hflags]
    by_cases hd : chkDate dt = true <;> by_cases hy : chkYday dt = true <;>
      simp [FFTIME_CHKTIME, FFTIME_CHKDATE, FFTIME_CHKWDAY, FFTIME_CHKYDAY, hd, hy]
  have hunique : ∀ d e : Date, dt.IsDate d → dt.IsDate e → d = e := by
    rintro d e ⟨hdy, hdm, hdd⟩ ⟨hey, hem, hed⟩
    exact Date.ext (by omega) (by omega) (by omega)
  rw [hchk, chkDate_iff hyear hmonth hday]
  by_cases hdate : ∃ d : Date, dt.IsDate d
  · obtain ⟨d, hd⟩ := hdate
    have hone : ∀ p : Date → Prop, (∃ e, dt.IsDate e ∧ p e) ↔ p d := fun p =>
      ⟨by rintro ⟨e, he, hp⟩; exact hunique e d he hd ▸ hp, fun hp => ⟨d, hd, hp⟩⟩
    have hall : ∀ p : Date → Prop, (∀ e, dt.IsDate e → p e) ↔ p d := fun p =>
      ⟨fun h => h d hd, fun hp e he => hunique d e hd he ▸ hp⟩
    rw [and_iff_right ⟨d, hd⟩, hone fun e => dt.yday = e.ordinal,
      hall fun e => e.month ≤ 2 → _, chkYday_eq hd, beq_iff_eq]
    split <;> omega
  · simp only [not_exists] at hdate
    simp [hdate]

theorem fftimeChk_iff_noYday : fftimeChk (fftimeSplit2 none (Ffdtm.ofDate Date.first 0 0 0 0)
    ⟨0, 0⟩ .tzutc) (FFTIME_CHKTIME ||| FFTIME_CHKDATE ||| FFTIME_CHKWDAY) = true :=
  ((@fftimeChk_iff none (Ffdtm.ofDate Date.first 0 0 0 0) ⟨0, 0⟩ (by decide)
    (by rw [daysThroughYear_end rfl]; decide) (by decide) _
    (Ffdtm.ofDate Date.first 0 0 0 0) (by decide) (by decide) (by decide)).1).mpr
    fun h => absurd h.2 (by decide)

/-- The first day of the first year is not accepted. -/
theorem fftimeChk_first :
    ¬∀ (zone : Option ℤ) (dt₀ : Ffdtm) (t : Fftime) (flags : ℕ), 0 ≤ t.sec →
      t.sec < daysThroughYear 9999 * FFTIME_DAY_SECS → t.nsec ≤ 999999999 →
        fftimeChk (fftimeSplit2 zone dt₀ t .tzutc) flags = true := by
  intro h
  have hfirst := h none (Ffdtm.ofDate Date.first 0 0 0 0) ⟨0, 0⟩ 0 (by decide)
    (by rw [daysThroughYear_end rfl]; decide) (by decide)
  exact absurd hfirst (by decide)

end Check

end FF
