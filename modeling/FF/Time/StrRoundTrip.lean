import FF.Time.Str

/-!
# Dates and times as text and back

The texts of dates and times are made of numbers of a fixed width and of names, so that what
`fftime_tostr` writes can be read again. Two things go wrong: when a buffer has no room for the date
or for the time, the space and the other one are written all the same; and the dates that begin with
the month or with the day are read as if they began with the year.
-/

namespace FF

open List Option

/-- The name of a day of the week. -/
def dayName (weekday : ℕ) : List UInt8 := (weekDays.getD weekday []).take 3

/-- The name of a month, from 1 on. -/
def monthName (month : ℕ) : List UInt8 := (monthNames.getD (month - 1) []).take 3

/-- **The date** by parts. -/
def dateParts (dt : Ffdtm) (flags : ℕ) : List TextPart :=
  let year := dt.year.toNat
  match flags &&& 0x0f with
  | FFTIME_DATE_YMD => [.pad 4 year, .lit 0x2d, .pad 2 dt.month, .lit 0x2d, .pad 2 dt.day]
  | FFTIME_DATE_MDY0 => [.pad 2 dt.month, .lit 0x2f, .pad 2 dt.day, .lit 0x2f, .pad 4 year]
  | FFTIME_DATE_MDY => [.dec dt.month, .lit 0x2f, .dec dt.day, .lit 0x2f, .pad 4 year]
  | FFTIME_DATE_DMY => [.pad 2 dt.day, .lit 0x2e, .pad 2 dt.month, .lit 0x2e, .pad 4 year]
  | FFTIME_DATE_WDMY =>
    [.name (dayName dt.weekday), .lit 0x2c, .lit 0x20, .pad 2 dt.day, .lit 0x20,
      .name (monthName dt.month), .lit 0x20, .pad 4 year]
  | _ => []

/-- **The time** by parts. -/
def clockParts (dt : Ffdtm) (flags : ℕ) : List TextPart :=
  let hms := [.pad 2 dt.hour, .lit 0x3a, .pad 2 dt.min, .lit 0x3a, .pad 2 dt.sec]
  match flags &&& 0xf0 with
  | FFTIME_HMS => hms
  | FFTIME_HMS_GMT => hms ++ [.lit 0x20, .lit 0x47, .lit 0x4d, .lit 0x54]
  | _ => []

/-- The text of the date. -/
def dateText (dt : Ffdtm) (flags : ℕ) : List UInt8 := partsText (dateParts dt flags)

/-- The text of the time. -/
def clockText (dt : Ffdtm) (flags : ℕ) : List UInt8 := partsText (clockParts dt flags)

/-- **The complete text.** -/
def timeText (dt : Ffdtm) (flags : ℕ) : List UInt8 :=
  dateText dt flags ++ ((if hasBoth flags then [0x20] else []) ++ clockText dt flags)

/-- The formats that both functions know; a date or a time may be missing. -/
def TimeFlags (flags : ℕ) : Prop :=
  flags &&& 0x0f ∈ [0, FFTIME_DATE_YMD, FFTIME_DATE_WDMY, FFTIME_DATE_MDY0, FFTIME_DATE_MDY,
    FFTIME_DATE_DMY] ∧ flags &&& 0xf0 ∈ [0, FFTIME_HMS, FFTIME_HMS_GMT]

/-- The fields that the format has are the same. -/
def Carries (flags : ℕ) (dt dt' : Ffdtm) : Prop :=
  (flags &&& 0x0f ≠ 0 → dt'.year = dt.year ∧ dt'.month = dt.month ∧ dt'.day = dt.day) ∧
    (flags &&& 0x0f = FFTIME_DATE_WDMY → dt'.weekday = dt.weekday) ∧
    (flags &&& 0xf0 ≠ 0 → dt'.hour = dt.hour ∧ dt'.min = dt.min ∧ dt'.sec = dt.sec)

/-- **The capacities** for a date and a time: there is no room for a byte behind the space, or only
room for the date and the space, or room for the text and a byte more. -/
def TostrFits (dt : Ffdtm) (flags cap : ℕ) : Prop :=
  hasBoth flags → cap ≤ 1 ∨ cap = (dateText dt flags).length + 1 ∨
    (dateText dt flags).length + 1 + (clockText dt flags).length < cap

/-- **The dates** that are read right: the numbers stand in the order of year, month and day, or it
does not matter. -/
def DateOrder (dt : Ffdtm) (flags : ℕ) : Prop :=
  match flags &&& 0x0f with
  | FFTIME_DATE_MDY0 | FFTIME_DATE_MDY => dt.year = dt.month ∧ dt.month = dt.day
  | FFTIME_DATE_DMY => dt.year = dt.day
  | _ => True

/-! ### The parts -/

section Parts

variable {dt : Ffdtm} {d : Date} {flags : ℕ}

theorem weekDays_name {i : ℕ} (hi : i ≤ 6) : weekDays.getD i [] = dayName i ++ [0] ∧
    (dayName i).length = 3 ∧ 0 ∉ dayName i ∧ ffsFindarr weekDays (dayName i) = some i := by
  interval_cases i <;> decide

theorem monthNames_name {m : ℕ} (hpos : 1 ≤ m) (hle : m ≤ 12) :
    monthNames.getD (m - 1) [] = monthName m ++ [0] ∧ (monthName m).length = 3 ∧
      0 ∉ monthName m ∧ (ffsFindarr monthNames (monthName m)).map (· + 1) = some m := by
  interval_cases m <;> decide

theorem notDigit_slash : ffcharTodec 0x2f = none := by decide

theorem dateParts_fit (hdt : dt.IsDate d) (hy : d.year ≤ 9999) (hw : dt.weekday ≤ 6)
    (rest : List UInt8) : PartsFit rest (dateParts dt flags) := by
  obtain ⟨hyear, hmonth, hday⟩ := hdt
  have hle := d.month_le
  have hdayle := d.day_le
  have hlength := monthLength_le d.year d.month
  have hy4 : 1 ≤ 4 ∧ 4 ≤ 9 ∧ dt.year.toNat < 10 ^ 4 := ⟨by decide, by decide, by omega⟩
  have hm2 : 1 ≤ 2 ∧ 2 ≤ 9 ∧ dt.month < 10 ^ 2 := ⟨by decide, by decide, by omega⟩
  have hd2 : 1 ≤ 2 ∧ 2 ≤ 9 ∧ dt.day < 10 ^ 2 := ⟨by decide, by decide, by omega⟩
  have hslash : ∀ bs : List UInt8, ∀ c ∈ (0x2f :: bs).head?, ffcharTodec c = none := by
    rintro bs c hc
    rw [← some.inj hc]
    exact notDigit_slash
  obtain ⟨-, hwlen, hwz, -⟩ := weekDays_name hw
  obtain ⟨-, hmlen, hmz, -⟩ := monthNames_name (hmonth ▸ d.month_pos) (hmonth ▸ hle)
  have hwname : (TextPart.name (dayName dt.weekday)).Fits [] :=
    ⟨ne_nil_of_length_pos (by omega), hwz, by omega⟩
  have hmname : (TextPart.name (monthName dt.month)).Fits [] :=
    ⟨ne_nil_of_length_pos (by omega), hmz, by omega⟩
  rw [dateParts]
  split
  · exact ⟨hy4, trivial, hm2, trivial, hd2, trivial⟩
  · exact ⟨hm2, trivial, hd2, trivial, hy4, trivial⟩
  · exact ⟨⟨by omega, hslash _⟩, trivial, ⟨by omega, hslash _⟩, trivial, hy4, trivial⟩
  · exact ⟨hd2, trivial, hm2, trivial, hy4, trivial⟩
  · exact ⟨hwname, trivial, trivial, hd2, trivial, hmname, trivial, hy4, trivial⟩
  · trivial

theorem clockParts_fit (hhour : dt.hour ≤ 23) (hmin : dt.min ≤ 59) (hsec : dt.sec ≤ 59)
    (rest : List UInt8) : PartsFit rest (clockParts dt flags) := by
  have hh2 : 1 ≤ 2 ∧ 2 ≤ 9 ∧ dt.hour < 10 ^ 2 := ⟨by decide, by decide, by omega⟩
  have hm2 : 1 ≤ 2 ∧ 2 ≤ 9 ∧ dt.min < 10 ^ 2 := ⟨by decide, by decide, by omega⟩
  have hs2 : 1 ≤ 2 ∧ 2 ≤ 9 ∧ dt.sec < 10 ^ 2 := ⟨by decide, by decide, by omega⟩
  rw [clockParts]
  split
  · exact ⟨hh2, trivial, hm2, trivial, hs2, trivial⟩
  · exact ⟨hh2, trivial, hm2, trivial, hs2, trivial, trivial, trivial, trivial, trivial⟩
  · trivial

end Parts

/-! ### Writing -/

section Writing

variable {err : FErr} {msec : ℕ → ℕ} {dt : Ffdtm} {d : Date} {flags : ℕ}

/-- A format writes the parts. -/
def PartWrites (err : FErr) (xs : List TextPart) : TimeFmt (List FmtArg) → Prop
  | .no => xs = []
  | .fmt fmt args => FmtReads err (fmt.takeWhile (· != 0)) args (xs.map TextPart.fmtItem) ∧
      xs.length ≤ 20
  | .bad => False

theorem tostrDate_parts (hflags : TimeFlags flags) (hdt : dt.IsDate d) (hy : d.year ≤ 9999)
    (hw : dt.weekday ≤ 6) : PartWrites err (dateParts dt flags) (tostrDate dt flags) := by
  obtain ⟨hyear, hmonth, hday⟩ := hdt
  have hpos := d.month_pos
  have hle := d.month_le
  have hyear' : uint dt.year = dt.year.toNat := uint_eq (by omega) (by omega)
  have hmonth' : uint ((dt.month : ℤ) - 1) = dt.month - 1 := uint_eq (by omega) (by omega)
  have hwname := (weekDays_name hw).1
  have hmname := (monthNames_name (hmonth ▸ hpos) (hmonth ▸ hle)).1
  obtain ⟨hdate, -⟩ := hflags
  simp only [mem_cons, not_mem_nil, or_false] at hdate
  rw [tostrDate, dateParts, hyear', hmonth', hwname, hmname]
  rcases hdate with hf | hf | hf | hf | hf | hf
  · rw [hf]
    rfl
  all_goals
    rw [hf]
    exact ⟨fmtReads_of_fmtRead 20 rfl, Nat.le_of_ble_eq_true rfl⟩

theorem tostrTime_parts (hflags : TimeFlags flags) :
    PartWrites err (clockParts dt flags) (tostrTime msec dt flags) := by
  obtain ⟨-, htime⟩ := hflags
  simp only [mem_cons, not_mem_nil, or_false] at htime
  rw [tostrTime, clockParts]
  rcases htime with hf | hf | hf
  · rw [hf]
    rfl
  all_goals
    rw [hf]
    exact ⟨fmtReads_of_fmtRead 20 rfl, Nat.le_of_ble_eq_true rfl⟩

/-- **One of the two** in the buffer: it is written, with room for a byte more, or left out. -/
theorem tostrPart_spec {xs : List TextPart} {rest mem : List UInt8} {pos : ℕ}
    {x : TimeFmt (List FmtArg)} (hx : PartWrites err xs x) (hfit : PartsFit rest xs)
    (hpos : pos ≤ mem.length) :
    ∃ mem', mem'.length = mem.length ∧ mem'.take pos = mem.take pos ∧
      (pos + (partsText xs).length < mem.length →
        mem'.take (pos + (partsText xs).length) = mem.take pos ++ partsText xs) ∧
      ∀ pos₁ mem₁, TostrPart err mem pos pos₁ mem₁ x ↔
        pos₁ = (if pos + (partsText xs).length < mem.length then pos + (partsText xs).length
          else pos) ∧ mem₁ = mem' := by
  cases x with
  | no =>
    obtain rfl : xs = [] := hx
    refine ⟨mem, rfl, rfl, fun _ => (append_nil _).symm, fun pos₁ mem₁ => ?_⟩
    rw [show pos + (partsText []).length = pos from rfl, ite_self]
    rfl
  | fmt fmt args =>
    obtain ⟨hread, hlen⟩ := hx
    have htext := fmtText_parts hfit err
    have hsmall := length_partsText_le hfit
    have hplain : ∀ y ∈ xs.map TextPart.fmtItem, y.Plain := by
      intro y hy
      obtain ⟨z, -, rfl⟩ := mem_map.mp hy
      exact z.plain
    rw [← htext]
    refine ffsFmt_plain hread hplain ?_ hpos
    rw [htext, length_map]
    omega
  | bad => exact hx.elim

theorem PartWrites.ne_bad {xs : List TextPart} {x : TimeFmt (List FmtArg)}
    (hx : PartWrites err xs x) : x ≠ .bad := by
  rintro rfl
  exact hx

theorem fftimeTostr_iff {mem mem' : List UInt8} {r : ℕ} (hdate : tostrDate dt flags ≠ .bad)
    (htime : tostrTime msec dt flags ≠ .bad) :
    FftimeTostr err msec dt mem flags r mem' ↔
      ∃ pos mem₁, TostrPart err mem 0 pos mem₁ (tostrDate dt flags) ∧ ∃ pos',
        TostrPart err (tostrSpace flags mem₁ pos).2 (tostrSpace flags mem₁ pos).1 pos' mem'
          (tostrTime msec dt flags) ∧ r = if pos' = mem.length then 0 else pos' := by
  rw [FftimeTostr]
  cases hd : tostrDate dt flags with
  | bad => exact absurd hd hdate
  | no =>
    cases ht : tostrTime msec dt flags with
    | bad => exact absurd ht htime
    | no => rfl
    | fmt fmt args => rfl
  | fmt fmt args =>
    cases ht : tostrTime msec dt flags with
    | bad => exact absurd ht htime
    | no => rfl
    | fmt fmt args => rfl

theorem hasBoth_iff : hasBoth flags = true ↔ flags &&& 0x0f ≠ 0 ∧ flags &&& 0xf0 ≠ 0 := by
  rw [hasBoth, Bool.and_eq_true, bne_iff_ne, bne_iff_ne]

theorem dateParts_ne_nil (hflags : TimeFlags flags) (hf : flags &&& 0x0f ≠ 0) :
    dateParts dt flags ≠ [] := by
  obtain ⟨hdate, -⟩ := hflags
  simp only [mem_cons, not_mem_nil, or_false] at hdate
  rw [dateParts]
  rcases hdate.resolve_left hf with hf | hf | hf | hf | hf
  all_goals
    rw [hf]
    exact cons_ne_nil _ _

theorem clockParts_ne_nil (hflags : TimeFlags flags) (hf : flags &&& 0xf0 ≠ 0) :
    clockParts dt flags ≠ [] := by
  obtain ⟨-, htime⟩ := hflags
  simp only [mem_cons, not_mem_nil, or_false] at htime
  rw [clockParts]
  rcases htime.resolve_left hf with hf | hf
  all_goals
    rw [hf]
    exact cons_ne_nil _ _

theorem texts_of_not_hasBoth (h : hasBoth flags = false) :
    dateText dt flags = [] ∨ clockText dt flags = [] := by
  have hnot : ¬(flags &&& 0x0f ≠ 0 ∧ flags &&& 0xf0 ≠ 0) := fun hb =>
    Bool.false_ne_true (h.symm.trans (hasBoth_iff.mpr hb))
  by_cases hf : flags &&& 0x0f = 0
  · left
    rw [dateText, dateParts, hf]
    rfl
  · right
    rw [clockText, clockParts, not_not.mp fun ht => hnot ⟨hf, ht⟩]
    rfl

theorem take_set {mem : List UInt8} {pos : ℕ} (hpos : pos < mem.length) (c : UInt8) :
    (mem.set pos c).take (pos + 1) = mem.take pos ++ [c] := by
  rw [set_eq_take_append_cons_drop, if_pos hpos, take_append,
    length_take_of_le hpos.le, Nat.add_sub_cancel_left, take_of_length_le (by simp)]
  rfl

/-- **What is written**: the run has one result, and it is zero or the complete text for the
capacities of `TostrFits`. -/
theorem fftimeTostr_run (hflags : TimeFlags flags) (hdt : dt.Valid d) (hy : d.year ≤ 9999)
    (hw : dt.weekday ≤ 6) (mem : List UInt8) :
    ∃ r mem', (∀ r₁ mem₁, FftimeTostr err msec dt mem flags r₁ mem₁ ↔ r₁ = r ∧ mem₁ = mem') ∧
      ((r = 0 ∨ r = (timeText dt flags).length ∧ mem'.take r = timeText dt flags) ↔
        TostrFits dt flags mem.length) := by
  obtain ⟨hdate, hhour, hmin, hsec, -⟩ := hdt
  have hwrites := @tostrDate_parts err dt d flags hflags hdate hy hw
  have hwrites' := @tostrTime_parts err msec dt flags hflags
  have hfit := @dateParts_fit dt d flags hdate hy hw []
  have hfit' := @clockParts_fit dt flags hhour hmin hsec []
  obtain ⟨m₁, hlen₁, -, htext₁, hrun₁⟩ := tostrPart_spec hwrites hfit (Nat.zero_le mem.length)
  rw [← dateText, Nat.zero_add] at htext₁ hrun₁
  obtain ⟨pos₁, hpos₁⟩ : ∃ pos₁, pos₁ = if (dateText dt flags).length < mem.length then
    (dateText dt flags).length else 0 := ⟨_, rfl⟩
  rw [← hpos₁] at hrun₁
  obtain ⟨⟨pos₂, m₂⟩, hspace⟩ : ∃ out, out = tostrSpace flags m₁ pos₁ := ⟨_, rfl⟩
  have hpos₂ : pos₂ ≤ m₂.length := by
    rw [tostrSpace] at hspace
    split at hspace
    · obtain ⟨rfl, rfl⟩ := Prod.mk.inj hspace
      rw [length_set]
      split at hpos₁ <;> omega
    · obtain ⟨rfl, rfl⟩ := Prod.mk.inj hspace
      split at hpos₁ <;> omega
  obtain ⟨m₃, hlen₃, hfront₃, htext₃, hrun₃⟩ := tostrPart_spec hwrites' hfit' hpos₂
  rw [← clockText] at htext₃ hrun₃
  obtain ⟨pos₃, hpos₃⟩ : ∃ pos₃, pos₃ = if pos₂ + (clockText dt flags).length < m₂.length then
    pos₂ + (clockText dt flags).length else pos₂ := ⟨_, rfl⟩
  rw [← hpos₃] at hrun₃
  refine ⟨if pos₃ = mem.length then 0 else pos₃, m₃, fun r₁ mem₁ => ?_, ?_⟩
  · rw [fftimeTostr_iff hwrites.ne_bad hwrites'.ne_bad]
    constructor
    · rintro ⟨pos, mem₂, hpart, pos', hpart', rfl⟩
      obtain ⟨rfl, rfl⟩ := (hrun₁ _ _).mp hpart
      rw [← hspace] at hpart'
      obtain ⟨rfl, rfl⟩ := (hrun₃ _ _).mp hpart'
      exact ⟨rfl, rfl⟩
    · rintro ⟨rfl, rfl⟩
      refine ⟨pos₁, m₁, (hrun₁ _ _).mpr ⟨rfl, rfl⟩, pos₃, ?_, rfl⟩
      rw [← hspace]
      exact (hrun₃ _ _).mpr ⟨rfl, rfl⟩
  rw [tostrSpace] at hspace
  by_cases hboth : hasBoth flags = true
  · have hD := length_partsText_pos hfit (dateParts_ne_nil hflags (hasBoth_iff.mp hboth).1)
    have hC := length_partsText_pos hfit' (clockParts_ne_nil hflags (hasBoth_iff.mp hboth).2)
    rw [← dateText] at hD
    rw [← clockText] at hC
    have htotal : (timeText dt flags).length =
        (dateText dt flags).length + 1 + (clockText dt flags).length := by
      rw [timeText, if_pos hboth, length_append, length_append, length_singleton, Nat.add_assoc]
    rw [TostrFits, htotal]
    simp only [hboth, true_and, true_imp_iff] at hspace ⊢
    by_cases hroom : (dateText dt flags).length < mem.length
    · -- the date is written, and the space
      rw [if_pos hroom] at hpos₁
      rw [if_pos (by omega)] at hspace
      obtain ⟨rfl, rfl⟩ := Prod.mk.inj hspace
      rw [length_set] at hpos₃ htext₃
      by_cases hall : (dateText dt flags).length + 1 + (clockText dt flags).length < mem.length
      · rw [if_pos (by omega)] at hpos₃
        rw [if_neg (by omega)]
        have htake := htext₃ (by omega)
        refine iff_of_true (.inr ⟨by omega, ?_⟩) (.inr (.inr hall))
        rw [hpos₃, htake, take_set (by omega), hpos₁, htext₁ hroom, timeText, if_pos hboth,
          take_zero, nil_append, append_assoc]
      · rw [if_neg (by omega)] at hpos₃
        split <;> omega
    -- the date is left out
    rw [if_neg hroom] at hpos₁
    by_cases hempty : mem.length = 0
    · rw [if_neg (by omega)] at hspace
      obtain ⟨rfl, rfl⟩ := Prod.mk.inj hspace
      rw [if_neg (by omega)] at hpos₃
      rw [if_pos (by omega)]
      exact iff_of_true (.inl rfl) (.inl (by omega))
    rw [if_pos (by omega)] at hspace
    obtain ⟨rfl, rfl⟩ := Prod.mk.inj hspace
    rw [length_set] at hpos₃
    split at hpos₃
    · rw [if_neg (by omega)]
      omega
    · split <;> omega
  · -- only one of the two is there
    have hfalse : hasBoth flags = false := Bool.eq_false_iff.mpr hboth
    rw [if_neg fun h => hboth h.1] at hspace
    obtain ⟨rfl, rfl⟩ := Prod.mk.inj hspace
    refine iff_of_true ?_ fun h => absurd h hboth
    rw [timeText, if_neg hboth, nil_append]
    rcases @texts_of_not_hasBoth dt flags hfalse with hnil | hnil
    · rw [hnil, length_nil, ite_self] at hpos₁
      rw [hnil, nil_append]
      by_cases hroom : (clockText dt flags).length < mem.length
      · rw [if_pos (by omega)] at hpos₃
        rw [if_neg (by omega)]
        refine .inr ⟨by omega, ?_⟩
        rw [hpos₃, htext₃ (by omega), hpos₁, take_zero, nil_append]
      · rw [if_neg (by omega)] at hpos₃
        rw [hpos₃, hpos₁, ite_self]
        exact .inl rfl
    rw [hnil, length_nil, Nat.add_zero, ite_self] at hpos₃
    rw [hnil, append_nil, hpos₃]
    by_cases hroom : (dateText dt flags).length < mem.length
    · rw [if_pos hroom] at hpos₁
      rw [if_neg (by omega)]
      refine .inr ⟨hpos₁, ?_⟩
      rw [hfront₃, hpos₁, htext₁ hroom, take_zero, nil_append]
    · rw [if_neg hroom] at hpos₁
      rw [hpos₁, ite_self]
      exact .inl rfl

end Writing

/-! ### Reading -/

/-- What is read of the text of a date. -/
def readDate (dt : Ffdtm) (flags : ℕ) (t : Ffdtm) : Ffdtm :=
  match flags &&& 0x0f with
  | FFTIME_DATE_YMD => { t with year := dt.year, month := dt.month, day := dt.day, weekday := 0 }
  | FFTIME_DATE_MDY0 | FFTIME_DATE_MDY =>
    { t with year := dt.month, month := dt.day, day := dt.year.toNat, weekday := 0 }
  | FFTIME_DATE_DMY =>
    { t with year := dt.day, month := dt.month, day := dt.year.toNat, weekday := 0 }
  | FFTIME_DATE_WDMY =>
    { t with year := dt.year, month := dt.month, day := dt.day, weekday := dt.weekday }
  | _ => t

/-- What is read of the text of a time. -/
def readClock (dt : Ffdtm) (flags : ℕ) (t : Ffdtm) : Ffdtm :=
  match flags &&& 0xf0 with
  | FFTIME_HMS | FFTIME_HMS_GMT => { t with hour := dt.hour, min := dt.min, sec := dt.sec }
  | _ => t

section Reading

variable {setmsec : Ffdtm → ℕ → Ffdtm} {behind : UInt8} {dt t : Ffdtm} {d : Date} {flags : ℕ}
  {rest : List UInt8}

/-- A format reads the parts, and stores what they are. -/
def PartReads (xs : List TextPart) (read : Ffdtm → Ffdtm) :
    TimeFmt (List FmEvent → Ffdtm → Ffdtm) → Prop
  | .no => xs = [] ∧ ∀ t, read t = t
  | .fmt fmt store => (fmt.takeWhile (· != 0)).length ≤ 30 ∧
      fmItems 30 (fmt.takeWhile (· != 0)) = xs.map TextPart.fmItem ∧
      ∀ t, store (partsStored xs) t = read t
  | .bad => False

theorem int32_of_small {n : ℕ} (hn : n < 2 ^ 31) : int32 n = n := if_pos hn

theorem scanDate_parts (hflags : TimeFlags flags) (hdt : dt.IsDate d) (hy : d.year ≤ 9999)
    (hw : dt.weekday ≤ 6) : PartReads (dateParts dt flags) (readDate dt flags) (scanDate flags) := by
  obtain ⟨hyear, hmonth, hday⟩ := hdt
  have hpos := d.month_pos
  have hle := d.month_le
  have hdayle := d.day_le
  have hlength := monthLength_le d.year d.month
  have hyear' : int32 dt.year.toNat = dt.year := by
    rw [int32_of_small (by omega)]
    omega
  obtain ⟨-, hwlen, -, hwfind⟩ := weekDays_name hw
  obtain ⟨-, hmlen, -, hmfind⟩ := monthNames_name (hmonth ▸ hpos) (hmonth ▸ hle)
  obtain ⟨hdate, -⟩ := hflags
  simp only [mem_cons, not_mem_nil, or_false] at hdate
  have hmonth' : int32 dt.month = dt.month := int32_of_small (by omega)
  have hday' : int32 dt.day = dt.day := int32_of_small (by omega)
  rw [scanDate, dateParts]
  rcases hdate with hf | hf | hf | hf | hf | hf
  · rw [hf]
    exact ⟨rfl, fun t => by rw [readDate, hf]; rfl⟩
  · rw [hf]
    refine ⟨by decide, rfl, fun t => ?_⟩
    rw [readDate, hf]
    exact Ffdtm.ext hyear' rfl rfl rfl rfl rfl rfl rfl rfl
  · rw [hf]
    refine ⟨by decide, ?_, fun t => ?_⟩
    · simp only [map_cons, map_nil, TextPart.fmItem, hwlen, hmlen]
      rfl
    · rw [readDate, hf]
      exact Ffdtm.ext hyear' (congrArg (Option.getD · 0) hmfind)
        (congrArg (Option.getD · t.weekday) hwfind) rfl rfl rfl rfl rfl rfl
  · rw [hf]
    refine ⟨by decide, rfl, fun t => ?_⟩
    rw [readDate, hf]
    exact Ffdtm.ext hmonth' rfl rfl rfl rfl rfl rfl rfl rfl
  · rw [hf]
    refine ⟨by decide, rfl, fun t => ?_⟩
    rw [readDate, hf]
    exact Ffdtm.ext hmonth' rfl rfl rfl rfl rfl rfl rfl rfl
  · rw [hf]
    refine ⟨by decide, rfl, fun t => ?_⟩
    rw [readDate, hf]
    exact Ffdtm.ext hday' rfl rfl rfl rfl rfl rfl rfl rfl

theorem scanTime_parts (hflags : TimeFlags flags) :
    PartReads (clockParts dt flags) (readClock dt flags) (scanTime flags) := by
  obtain ⟨-, htime⟩ := hflags
  simp only [mem_cons, not_mem_nil, or_false] at htime
  rw [scanTime, clockParts]
  rcases htime with hf | hf | hf
  · rw [hf]
    exact ⟨rfl, fun t => by rw [readClock, hf]; rfl⟩
  · rw [hf]
    exact ⟨by decide, rfl, fun t => by rw [readClock, hf]; rfl⟩
  · rw [hf]
    exact ⟨by decide, rfl, fun t => by rw [readClock, hf]; rfl⟩

/-- **The run of `ffs_fmatch`** over the text of parts is the only one. -/
theorem fmatch_iff {xs : List TextPart} {read : Ffdtm → Ffdtm} {fmt : List UInt8}
    {store : List FmEvent → Ffdtm → Ffdtm} (hread : PartReads xs read (.fmt fmt store))
    (hfit : PartsFit rest xs) (es : List FmEvent) (i : ℤ) :
    FfsFmatchv (partsText xs ++ rest) fmt (es ++ [.ret i]) ↔
      es = partsStored xs ∧ i = (partsText xs).length := by
  obtain ⟨hlen, hitems, -⟩ := hread
  have hrun := fmatch_parts 30 hlen hitems hfit []
  rw [length_nil, Nat.zero_add, nil_append] at hrun
  constructor
  · intro h
    obtain ⟨hes, hret⟩ := append_inj' (RunEnds.unique h hrun) rfl
    exact ⟨hes, FmEvent.ret.inj (singleton_inj.mp hret)⟩
  · rintro ⟨rfl, rfl⟩
    exact hrun

/-- **The date is read**, unless the check refuses what has been stored. -/
theorem dateFromstr_iff (hflags : TimeFlags flags) (hdt : dt.IsDate d) (hy : d.year ≤ 9999)
    (hw : dt.weekday ≤ 6) (t : Ffdtm) (out : Option (ℕ × Ffdtm)) :
    DateFromstr (dateText dt flags ++ rest) flags t out ↔
      out = if flags &&& 0x0f = 0 ∨ chkDate (readDate dt flags t) = true then
        some ((dateText dt flags).length, readDate dt flags t) else none := by
  have hfit := @dateParts_fit dt d flags hdt hy hw rest
  have hread := @scanDate_parts dt d flags hflags hdt hy hw
  rw [DateFromstr]
  cases hscan : scanDate flags with
  | no =>
    rw [hscan] at hread
    have hzero : flags &&& 0x0f = 0 := by
      by_contra hf
      exact dateParts_ne_nil hflags hf hread.1
    rw [if_pos (.inl hzero), dateText, hread.1, hread.2]
    rfl
  | fmt fmt store =>
    rw [hscan] at hread
    have hnonzero : flags &&& 0x0f ≠ 0 := by
      intro hf
      rw [scanDate, hf] at hscan
      cases hscan
    have hout : (if ((partsText (dateParts dt flags)).length : ℤ) < 0 ∨
          ¬chkDate (readDate dt flags t) = true then none
        else some ((((partsText (dateParts dt flags)).length : ℕ) : ℤ).toNat,
          readDate dt flags t)) =
        if chkDate (readDate dt flags t) = true then
          some ((partsText (dateParts dt flags)).length, readDate dt flags t) else none := by
      by_cases hchk : chkDate (readDate dt flags t) = true
      · rw [if_neg (not_or.mpr ⟨by omega, not_not.mpr hchk⟩), if_pos hchk, Int.toNat_natCast]
      · rw [if_pos (.inr hchk), if_neg hchk]
    simp only [dateText, fmatch_iff hread hfit, fftimeChk_date, hnonzero, false_or]
    constructor
    · rintro ⟨es, i, ⟨rfl, rfl⟩, rfl⟩
      rw [hread.2.2, hout]
    · rintro rfl
      exact ⟨_, _, ⟨rfl, rfl⟩, by rw [hread.2.2, hout]⟩
  | bad =>
    rw [hscan] at hread
    exact hread.elim

/-- **The time is read.** -/
theorem timeFromstr_iff (hflags : TimeFlags flags) (hhour : dt.hour ≤ 23) (hmin : dt.min ≤ 59)
    (hsec : dt.sec ≤ 59) (hnsec : t.nsec ≤ 999999999) (out : Option (ℕ × Ffdtm)) :
    TimeFromstr setmsec behind (clockText dt flags ++ rest) flags t out ↔
      out = some ((clockText dt flags).length, readClock dt flags t) := by
  have hfit := @clockParts_fit dt flags hhour hmin hsec rest
  have hread := @scanTime_parts dt flags hflags
  have hvar : ¬flags &&& 0xf0 = FFTIME_HMS_MSEC_VAR := by
    intro hf
    have htime := hflags.2
    rw [hf] at htime
    exact absurd htime (by decide)
  rw [TimeFromstr, if_neg hvar]
  cases hscan : scanTime flags with
  | no =>
    rw [hscan] at hread
    rw [clockText, hread.1, hread.2]
    rfl
  | fmt fmt store =>
    rw [hscan] at hread
    have hnonzero : flags &&& 0xf0 ≠ 0 := by
      intro hf
      rw [scanTime, hf] at hscan
      cases hscan
    have hchk : chkTime (readClock dt flags t) = true := by
      have htime := hflags.2
      simp only [mem_cons, not_mem_nil, or_false] at htime
      rw [readClock]
      rcases htime.resolve_left hnonzero with hf | hf
      all_goals
        rw [hf]
        simp [chkTime, hhour, hmin, hsec, hnsec]
    have hout : timeChecked flags (if ((partsText (clockParts dt flags)).length : ℤ) < 0 then none
        else some ((((partsText (clockParts dt flags)).length : ℕ) : ℤ).toNat,
          readClock dt flags t)) =
        some ((partsText (clockParts dt flags)).length, readClock dt flags t) := by
      rw [if_neg (by omega), timeChecked, filter_some, fftimeChk_time, hchk, Bool.or_true,
        if_pos rfl, Int.toNat_natCast]
    simp only [clockText, fmatch_iff hread hfit]
    constructor
    · rintro ⟨es, i, ⟨rfl, rfl⟩, rfl⟩
      rw [hread.2.2, hout]
    · rintro rfl
      exact ⟨_, _, ⟨rfl, rfl⟩, by rw [hread.2.2, hout]⟩
  | bad =>
    rw [hscan] at hread
    exact hread.elim

theorem readDate_nsec (t : Ffdtm) : (readDate dt flags t).nsec = t.nsec := by
  rw [readDate]
  split <;> rfl

/-- **What is read** of the complete text -/
theorem fftimeFromstr_iff (hflags : TimeFlags flags) (hdt : dt.Valid d) (hy : d.year ≤ 9999)
    (hw : dt.weekday ≤ 6) (res : ℕ × Option Ffdtm) :
    FftimeFromstr setmsec behind (timeText dt flags) flags res ↔
      res = if flags &&& 0x0f = 0 ∨ chkDate (readDate dt flags Ffdtm.zero) = true then
        ((timeText dt flags).length,
          some (readClock dt flags (readDate dt flags Ffdtm.zero)))
      else (0, none) := by
  obtain ⟨hdate, hhour, hmin, hsec, -⟩ := hdt
  have hnsec : (readDate dt flags Ffdtm.zero).nsec ≤ 999999999 := by
    rw [readDate_nsec]
    exact Nat.zero_le _
  have hclock := @timeFromstr_iff setmsec behind dt (readDate dt flags Ffdtm.zero) flags []
    hflags hhour hmin hsec hnsec
  rw [append_nil] at hclock
  rw [FftimeFromstr]
  simp only [timeText, dateFromstr_iff hflags hdate hy hw]
  by_cases hchk : flags &&& 0x0f = 0 ∨ chkDate (readDate dt flags Ffdtm.zero) = true
  · simp only [if_pos hchk, exists_eq_left, drop_left]
    have hspace : ¬(hasBoth flags = true ∧ ((if hasBoth flags = true then [0x20] else []) ++
        clockText dt flags).head? ≠ some 0x20) := by
      rintro ⟨hboth, hne⟩
      rw [if_pos hboth] at hne
      exact hne rfl
    have hrest : (if hasBoth flags = true then
        ((if hasBoth flags = true then [(0x20 : UInt8)] else []) ++ clockText dt flags).tail
        else (if hasBoth flags = true then [0x20] else []) ++ clockText dt flags) =
        clockText dt flags := by
      split <;> rfl
    rw [if_neg hspace, hrest]
    simp only [hclock, exists_eq_left, drop_length, ne_eq, not_true_eq_false, if_false]
  · simp only [if_neg hchk, exists_eq_left]

theorem readClock_date (t : Ffdtm) : (readClock dt flags t).year = t.year ∧
    (readClock dt flags t).month = t.month ∧ (readClock dt flags t).day = t.day ∧
    (readClock dt flags t).weekday = t.weekday := by
  rw [readClock]
  split <;> exact ⟨rfl, rfl, rfl, rfl⟩

theorem readClock_time (hflags : TimeFlags flags) (hf : flags &&& 0xf0 ≠ 0) (t : Ffdtm) :
    (readClock dt flags t).hour = dt.hour ∧ (readClock dt flags t).min = dt.min ∧
      (readClock dt flags t).sec = dt.sec := by
  obtain ⟨-, htime⟩ := hflags
  simp only [mem_cons, not_mem_nil, or_false] at htime
  rw [readClock]
  rcases htime.resolve_left hf with hf | hf
  all_goals
    rw [hf]
    exact ⟨rfl, rfl, rfl⟩

theorem readDate_order (hflags : TimeFlags flags) (hyear : 0 ≤ dt.year)
    (hf : flags &&& 0x0f ≠ 0) (t : Ffdtm) :
    ((readDate dt flags t).year = dt.year ∧ (readDate dt flags t).month = dt.month ∧
      (readDate dt flags t).day = dt.day) ↔ DateOrder dt flags := by
  obtain ⟨hdate, -⟩ := hflags
  simp only [mem_cons, not_mem_nil, or_false] at hdate
  rw [readDate, DateOrder]
  rcases hdate.resolve_left hf with hf | hf | hf | hf | hf
  · rw [hf]
    exact iff_of_true ⟨rfl, rfl, rfl⟩ trivial
  · rw [hf]
    exact iff_of_true ⟨rfl, rfl, rfl⟩ trivial
  · rw [hf]
    change ((dt.month : ℤ) = dt.year ∧ dt.day = dt.month ∧ dt.year.toNat = dt.day) ↔
      dt.year = dt.month ∧ dt.month = dt.day
    omega
  · rw [hf]
    change ((dt.month : ℤ) = dt.year ∧ dt.day = dt.month ∧ dt.year.toNat = dt.day) ↔
      dt.year = dt.month ∧ dt.month = dt.day
    omega
  · rw [hf]
    change ((dt.day : ℤ) = dt.year ∧ dt.month = dt.month ∧ dt.year.toNat = dt.day) ↔
      dt.year = dt.day
    omega

/-- **The fields are read right** for the dates of `DateOrder`. -/
theorem readDate_carries (hflags : TimeFlags flags) (hdt : dt.IsDate d) :
    ((flags &&& 0x0f = 0 ∨ chkDate (readDate dt flags Ffdtm.zero) = true) ∧
      Carries flags dt (readClock dt flags (readDate dt flags Ffdtm.zero))) ↔
        DateOrder dt flags := by
  obtain ⟨hy, hm, hd, hw⟩ := @readClock_date dt flags (readDate dt flags Ffdtm.zero)
  have htime := @readClock_time dt flags hflags
  rw [Carries, hy, hm, hd, hw]
  by_cases hf : flags &&& 0x0f = 0
  · refine iff_of_true ⟨.inl hf, fun h => absurd hf h, fun h => ?_, fun h => htime h _⟩ ?_
    · rw [hf] at h
      cases h
    · rw [DateOrder, hf]
      trivial
  have hyear := hdt.1
  rw [← readDate_order hflags (by omega) hf Ffdtm.zero]
  constructor
  · rintro ⟨-, hfields, -⟩
    exact hfields hf
  intro hfields
  have hread : (readDate dt flags Ffdtm.zero).IsDate d :=
    ⟨hfields.1.trans hdt.1, hfields.2.1.trans hdt.2.1, hfields.2.2.trans hdt.2.2⟩
  have hpos := d.year_pos
  have hle := d.month_le
  have hdayle := d.day_le
  have hlength := monthLength_le d.year d.month
  obtain ⟨hry, hrm, hrd⟩ := hread
  have hchk : chkDate (readDate dt flags Ffdtm.zero) = true :=
    (chkDate_iff (by omega) (by omega) (by omega)).mpr ⟨d, hry, hrm, hrd⟩
  refine ⟨.inr hchk, fun _ => hfields, fun h => ?_, fun h => htime h _⟩
  rw [readDate, h]
  rfl

end Reading

/-! ### Results -/

/-- **When the text can be relied on.** The result of `fftime_tostr` is zero or the length of the
complete text for the capacities of `TostrFits`; and `fftime_fromstr` accepts the complete text and
gives the fields for the dates of `DateOrder`. -/
theorem fftimeTostr_fromstr_iff (err : FErr) (msec : ℕ → ℕ) (setmsec : Ffdtm → ℕ → Ffdtm)
    (behind : UInt8) {dt : Ffdtm} {d : Date} (hdt : dt.Valid d) (hy : d.year ≤ 9999)
    (hw : dt.weekday ≤ 6) {flags : ℕ} (hflags : TimeFlags flags) (mem : List UInt8) :
    (∃ r mem', (∀ r₁ mem₁, FftimeTostr err msec dt mem flags r₁ mem₁ ↔ r₁ = r ∧ mem₁ = mem') ∧
      ((r = 0 ∨ r = (timeText dt flags).length ∧ mem'.take r = timeText dt flags) ↔
        TostrFits dt flags mem.length)) ∧
    ∃ res, (∀ res₁, FftimeFromstr setmsec behind (timeText dt flags) flags res₁ ↔ res₁ = res) ∧
      ((∃ dt', res = ((timeText dt flags).length, some dt') ∧ Carries flags dt dt') ↔
        DateOrder dt flags) := by
  refine ⟨fftimeTostr_run hflags hdt hy hw mem, _, fftimeFromstr_iff hflags hdt hy hw, ?_⟩
  rw [← readDate_carries hflags hdt.1]
  constructor
  · rintro ⟨dt', hres, hcarries⟩
    split at hres
    next hchk =>
      obtain rfl := some.inj (Prod.mk.inj hres).2
      exact ⟨hchk, hcarries⟩
    next => exact absurd (Prod.mk.inj hres).2.symm (some_ne_none _)
  · rintro ⟨hchk, hcarries⟩
    exact ⟨_, if_pos hchk, hcarries⟩

/-- The 15th of July 2022, 12:30:45 -/
def summer : Ffdtm := ⟨2022, 7, 5, 15, 196, 12, 30, 45, 0⟩

/-- Its date -/
def summerDate : Date :=
  ⟨2022, 7, 15, by decide, by decide, by decide, by decide, by decide⟩

theorem summer_valid : summer.Valid summerDate :=
  ⟨⟨rfl, rfl, rfl⟩, by decide, by decide, by decide, by decide⟩

theorem fftimeTostr_fromstr_iff_iso :
    ∃ dt', FftimeFromstr (fun t _ => t) 0 (timeText summer 0x22) 0x22
      ((timeText summer 0x22).length, some dt') ∧ Carries 0x22 summer dt' := by
  have hflags : TimeFlags 0x22 := ⟨by decide, by decide⟩
  obtain ⟨-, res, hrun, hright⟩ := fftimeTostr_fromstr_iff default id (fun t _ => t) 0 summer_valid
    (by decide) (by decide) hflags []
  obtain ⟨dt', rfl, hcarries⟩ := hright.mpr trivial
  exact ⟨dt', (hrun _).mpr rfl, hcarries⟩

/-- **A buffer of ten bytes** has no room for the date; the space and the time are written, and the
result is nine. -/
theorem fftimeTostr_partial :
    ¬∀ (dt : Ffdtm) (d : Date) (flags : ℕ) (mem : List UInt8), dt.Valid d → d.year ≤ 9999 →
      dt.weekday ≤ 6 → TimeFlags flags →
      (∀ r mem', FftimeTostr default id dt mem flags r mem' →
        r = 0 ∨ r = (timeText dt flags).length ∧ mem'.take r = timeText dt flags) ∧
      ∃ dt', FftimeFromstr (fun t _ => t) 0 (timeText dt flags) flags
        ((timeText dt flags).length, some dt') ∧ Carries flags dt dt' := by
  intro h
  have hflags : TimeFlags 0x22 := ⟨by decide, by decide⟩
  have hwrite := (h summer summerDate 0x22 (List.replicate 10 0) summer_valid (by decide)
    (by decide) hflags).1
  obtain ⟨r, mem', hrun, hfits⟩ := @fftimeTostr_run default id summer summerDate 0x22 hflags
    summer_valid (by decide) (by decide) (List.replicate 10 0)
  have hbad := hfits.mp (hwrite r mem' ((hrun r mem').mpr ⟨rfl, rfl⟩)) (by decide)
  exact absurd hbad (by decide)

end FF
