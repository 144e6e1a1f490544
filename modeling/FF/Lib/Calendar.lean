import Mathlib.Algebra.Order.Group.Nat

/-!
# The Gregorian calendar

The calendar that goes on in the same way in front of its introduction, from the first day of the
year 1 on: the lengths of the months and of the years, the date behind a date, and the number of
days that have passed in front of a date.

## Main results

* `Date.dayNumber_next`: the date behind a date is one day later.
* `Date.dayNumber_ofDay`, `Date.ofDay_dayNumber`: dates and numbers of days are the same thing.
* `daysThroughYear_eq`: the days of the first years in a closed form.
-/

namespace FF

/-- Each fourth year has a leap day, except the hundredth ones that are not also four-hundredth. -/
def IsLeap (y : ℕ) : Prop := y % 4 = 0 ∧ (y % 100 ≠ 0 ∨ y % 400 = 0)

instance (y : ℕ) : Decidable (IsLeap y) := inferInstanceAs (Decidable (_ ∧ _))

/-- The number of leap days in a year. -/
def leapDay (y : ℕ) : ℕ := if IsLeap y then 1 else 0

/-- The number of days of a month, where January is 1. -/
def monthLength (y m : ℕ) : ℕ :=
  match m with
  | 2 => 28 + leapDay y
  | 4 | 6 | 9 | 11 => 30
  | _ => 31

/-- The days of the first `m` months of a year. -/
def daysThroughMonth (y : ℕ) : ℕ → ℕ
  | 0 => 0
  | m + 1 => daysThroughMonth y m + monthLength y (m + 1)

/-- The days of the first `y` years. -/
def daysThroughYear : ℕ → ℕ
  | 0 => 0
  | y + 1 => daysThroughYear y + daysThroughMonth (y + 1) 12

/-- A date, with the month and the day in their ranges. -/
@[ext]
structure Date where
  year : ℕ
  month : ℕ
  day : ℕ
  year_pos : 1 ≤ year
  month_pos : 1 ≤ month
  month_le : month ≤ 12
  day_pos : 1 ≤ day
  day_le : day ≤ monthLength year month
  deriving DecidableEq

namespace Date

/-- The day of the year, from 1 on. -/
def ordinal (d : Date) : ℕ := daysThroughMonth d.year (d.month - 1) + d.day

/-- The number of days in front of a date. -/
def dayNumber (d : Date) : ℕ := daysThroughYear (d.year - 1) + d.ordinal - 1

end Date

/-! ### Lengths -/

theorem leapDay_le (y : ℕ) : leapDay y ≤ 1 := by
  rw [leapDay]
  split <;> omega

theorem monthLength_pos (y m : ℕ) : 1 ≤ monthLength y m := by
  unfold monthLength
  split <;> omega

theorem monthLength_le (y m : ℕ) : monthLength y m ≤ 31 := by
  have := leapDay_le y
  unfold monthLength
  split <;> omega

theorem daysThroughMonth_year (y : ℕ) : daysThroughMonth y 12 = 365 + leapDay y := by
  simp only [daysThroughMonth, monthLength]
  omega

/-- The leap days by the years that have them, the years that do not, and those that do again. -/
theorem leapDay_add (y : ℕ) : leapDay y + (if 100 ∣ y then 1 else 0) =
    (if 4 ∣ y then 1 else 0) + if 400 ∣ y then 1 else 0 := by
  have hfour : 100 ∣ y → 4 ∣ y := Nat.dvd_trans (by decide)
  have hhundred : 400 ∣ y → 100 ∣ y := Nat.dvd_trans (by decide)
  simp only [leapDay, IsLeap, ne_eq, ← Nat.dvd_iff_mod_eq_zero]
  by_cases h400 : 400 ∣ y
  · simp [h400, hhundred h400, hfour (hhundred h400)]
  · by_cases h100 : 100 ∣ y
    · simp [h400, h100, hfour h100]
    · simp [h400, h100]

/-- **The days of the first years** in a closed form. -/
theorem daysThroughYear_eq (y : ℕ) :
    daysThroughYear y + y / 100 = 365 * y + y / 4 + y / 400 := by
  induction y with
  | zero => rfl
  | succ y ih =>
    have hleap := leapDay_add (y + 1)
    rw [daysThroughYear, daysThroughMonth_year, Nat.succ_div, Nat.succ_div, Nat.succ_div]
    omega

/-! ### Dates and numbers of days -/

/-- Where the parts of a line have one length after another, a place in the line is in one part. -/
theorem eq_of_parts (f len : ℕ → ℕ) (hf : ∀ k, f (k + 1) = f k + len (k + 1)) {a b i j : ℕ}
    (hi : 1 ≤ i) (hia : i ≤ len (a + 1)) (hj : 1 ≤ j) (hjb : j ≤ len (b + 1))
    (h : f a + i = f b + j) : a = b ∧ i = j := by
  have hmono : Monotone f := monotone_nat_of_le_succ fun k => by rw [hf]; omega
  rcases Nat.lt_trichotomy a b with hab | rfl | hab
  · have := hmono (show a + 1 ≤ b from hab)
    rw [hf] at this
    omega
  · omega
  · have := hmono (show b + 1 ≤ a from hab)
    rw [hf] at this
    omega

namespace Date

theorem ordinal_pos (d : Date) : 1 ≤ d.ordinal := by
  have := d.day_pos
  rw [ordinal]
  omega

theorem ordinal_le (d : Date) : d.ordinal ≤ daysThroughMonth d.year 12 := by
  have hmono : Monotone (daysThroughMonth d.year) :=
    monotone_nat_of_le_succ fun k => Nat.le_add_right _ _
  have hmonth := d.month_pos
  calc d.ordinal ≤ daysThroughMonth d.year (d.month - 1) + monthLength d.year (d.month - 1 + 1) := by
        rw [ordinal, Nat.sub_add_cancel hmonth]
        exact Nat.add_le_add_left d.day_le _
    _ ≤ daysThroughMonth d.year 12 := by
        rw [← daysThroughMonth, Nat.succ_eq_add_one, Nat.sub_add_cancel hmonth]
        exact hmono d.month_le

/-- **A date is told by the number of the days** in front of it. -/
theorem dayNumber_injective : Function.Injective dayNumber := by
  intro d e h
  have hd := d.ordinal_pos
  have he := e.ordinal_pos
  have hyear : d.year = e.year ∧ d.ordinal = e.ordinal := by
    have hsum : daysThroughYear (d.year - 1) + d.ordinal = daysThroughYear (e.year - 1) + e.ordinal := by
      rw [dayNumber, dayNumber] at h
      omega
    have hparts := eq_of_parts daysThroughYear (fun y => daysThroughMonth y 12) (fun _ => rfl)
      hd (by rw [Nat.sub_add_cancel d.year_pos]; exact d.ordinal_le)
      he (by rw [Nat.sub_add_cancel e.year_pos]; exact e.ordinal_le) hsum
    have := d.year_pos
    have := e.year_pos
    exact ⟨by omega, hparts.2⟩
  obtain ⟨hyear, hordinal⟩ := hyear
  rw [ordinal, ordinal, ← hyear] at hordinal
  have hmonth := eq_of_parts (daysThroughMonth d.year) (monthLength d.year) (fun _ => rfl)
    d.day_pos (by rw [Nat.sub_add_cancel d.month_pos]; exact d.day_le)
    e.day_pos (by rw [Nat.sub_add_cancel e.month_pos, hyear]; exact e.day_le) hordinal
  have := d.month_pos
  have := e.month_pos
  exact Date.ext hyear (by omega) hmonth.2

/-- **The dates of the first years** are those with the first numbers. -/
theorem dayNumber_lt_iff (d : Date) (y : ℕ) : d.dayNumber < daysThroughYear y ↔ d.year ≤ y := by
  have hmono : Monotone daysThroughYear := monotone_nat_of_le_succ fun k => Nat.le_add_right _ _
  have hpos := d.ordinal_pos
  have hle := d.ordinal_le
  have hyear := d.year_pos
  have hlast : daysThroughYear d.year =
      daysThroughYear (d.year - 1) + daysThroughMonth d.year 12 := by
    conv_lhs => rw [← Nat.sub_add_cancel hyear, daysThroughYear, Nat.sub_add_cancel hyear]
  rw [dayNumber]
  constructor
  · intro hlt
    by_contra hgt
    have := hmono (show y ≤ d.year - 1 by omega)
    omega
  · intro hy
    have := hmono hy
    omega

/-- The first day of the year 1. -/
def first : Date := ⟨1, 1, 1, by decide, by decide, by decide, by decide, by decide⟩

/-- The date behind a date. -/
def next (d : Date) : Date :=
  if hday : d.day < monthLength d.year d.month then
    ⟨d.year, d.month, d.day + 1, d.year_pos, d.month_pos, d.month_le, Nat.le_add_left _ _, hday⟩
  else if hmonth : d.month < 12 then
    ⟨d.year, d.month + 1, 1, d.year_pos, Nat.le_add_left _ _, hmonth, le_refl _,
      monthLength_pos _ _⟩
  else
    ⟨d.year + 1, 1, 1, Nat.le_add_left _ _, le_refl _, by decide, le_refl _, monthLength_pos _ _⟩

/-- The date that is `n` days behind the first one. -/
def ofDay : ℕ → Date
  | 0 => first
  | n + 1 => (ofDay n).next

/-- The day of the week, where Sunday is 0: the first day was a Monday. -/
def weekday (d : Date) : ℕ := (1 + d.dayNumber) % 7

/-- **The date behind a date** is one day later. -/
theorem dayNumber_next (d : Date) : d.next.dayNumber = d.dayNumber + 1 := by
  have hyear := d.year_pos
  have hmonth := d.month_pos
  have hday := d.day_pos
  have hle := d.day_le
  rw [next]
  split
  next =>
    simp only [dayNumber, ordinal]
    omega
  next hlast =>
    have hall : daysThroughMonth d.year d.month =
        daysThroughMonth d.year (d.month - 1) + monthLength d.year d.month := by
      conv_lhs => rw [← Nat.sub_add_cancel hmonth, daysThroughMonth, Nat.sub_add_cancel hmonth]
    split
    next =>
      simp only [dayNumber, ordinal, Nat.add_sub_cancel]
      omega
    next hdec =>
      have htwelve : d.month = 12 := le_antisymm d.month_le (Nat.le_of_not_lt hdec)
      have hyears : daysThroughYear d.year =
          daysThroughYear (d.year - 1) + daysThroughMonth d.year 12 := by
        conv_lhs => rw [← Nat.sub_add_cancel hyear, daysThroughYear, Nat.sub_add_cancel hyear]
      have hzero : daysThroughMonth (d.year + 1) 0 = 0 := rfl
      rw [htwelve] at hall hle hlast
      simp only [dayNumber, ordinal, htwelve, Nat.add_sub_cancel, Nat.sub_self, hzero] at hall ⊢
      omega

@[simp] theorem dayNumber_ofDay (n : ℕ) : (ofDay n).dayNumber = n := by
  induction n with
  | zero => rfl
  | succ n ih => rw [ofDay, dayNumber_next, ih]

@[simp] theorem ofDay_dayNumber (d : Date) : ofDay d.dayNumber = d :=
  dayNumber_injective (dayNumber_ofDay _)

end Date

end FF
