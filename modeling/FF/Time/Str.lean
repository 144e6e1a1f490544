import FF.Str.TextParts
import FF.Time.Chk

/-!
# Dates and times as text

`fftime_tostr` writes a date, a space and a time into a buffer; each of the two is written by
`ffs_fmt` in the room that is left, and is left out when there is none. `fftime_fromstr` reads such a
text; the numbers of a date are stored as year, month and day in the order in which they stand.

## Conventions

* The milliseconds of a time are read and set by functions of the operating-system layer, which are
  parameters. So is the byte behind the text.
-/

namespace FF

/-- `FFTIME_NOCHECK` -/
def FFTIME_NOCHECK : ℕ := 2 ^ 31

/-- `FFTIME_DATE_YMD` -/
@[match_pattern] abbrev FFTIME_DATE_YMD : ℕ := 2

/-- `FFTIME_DATE_WDMY` -/
@[match_pattern] abbrev FFTIME_DATE_WDMY : ℕ := 3

/-- `FFTIME_DATE_MDY0` -/
@[match_pattern] abbrev FFTIME_DATE_MDY0 : ℕ := 4

/-- `FFTIME_DATE_MDY` -/
@[match_pattern] abbrev FFTIME_DATE_MDY : ℕ := 5

/-- `FFTIME_DATE_DMY` -/
@[match_pattern] abbrev FFTIME_DATE_DMY : ℕ := 6

/-- `FFTIME_HMS` -/
@[match_pattern] abbrev FFTIME_HMS : ℕ := 0x20

/-- `FFTIME_HMS_MSEC` -/
@[match_pattern] abbrev FFTIME_HMS_MSEC : ℕ := 0x30

/-- `FFTIME_HMS_GMT` -/
@[match_pattern] abbrev FFTIME_HMS_GMT : ℕ := 0x40

/-- `FFTIME_HMS_MSEC_VAR & ~FFTIME_NOCHECK` -/
@[match_pattern] abbrev FFTIME_HMS_MSEC_VAR : ℕ := 0x50

/-- `week_days`, with the zero bytes -/
def weekDays : List (List UInt8) :=
  ["Sun", "Mon", "Tue", "Wed", "Thu", "Fri", "Sat"].map fun name => ascii name ++ [0]

/-- `month_names`, with the zero bytes -/
def monthNames : List (List UInt8) :=
  ["Jan", "Feb", "Mar", "Apr", "May", "Jun", "Jul", "Aug", "Sep", "Oct", "Nov", "Dec"].map
    fun name => ascii name ++ [0]

/-- `ffs_findarr` -/
def ffsFindarr (ar : List (List UInt8)) (s : List UInt8) : Option ℕ :=
  if s.length ≤ 8 then
    ar.findIdx? fun a => a.take s.length == s && a[s.length]? == some 0
  else none

/-- A case of the flags: nothing is there, there is a format, or the flags are bad. -/
inductive TimeFmt (α : Type)
  | no
  | fmt (fmt : List UInt8) (x : α)
  | bad

/-! ### Writing -/

section Tostr

variable (err : FErr) (msec : ℕ → ℕ) (dt : Ffdtm)

/-- The date in `fftime_tostr`: the format and the arguments. -/
def tostrDate (flags : ℕ) : TimeFmt (List FmtArg) :=
  let year := FmtArg.w32 (UInt32.ofNat (uint dt.year))
  let month := FmtArg.w32 (UInt32.ofNat dt.month)
  let day := FmtArg.w32 (UInt32.ofNat dt.day)
  match flags &&& 0x0f with
  | FFTIME_DATE_YMD => .fmt (ascii "%04u-%02u-%02u") [year, month, day]
  | FFTIME_DATE_MDY0 => .fmt (ascii "%02u/%02u/%04u") [month, day, year]
  | FFTIME_DATE_MDY => .fmt (ascii "%u/%u/%04u") [month, day, year]
  | FFTIME_DATE_DMY => .fmt (ascii "%02u.%02u.%04u") [day, month, year]
  | FFTIME_DATE_WDMY => .fmt (ascii "%s, %02u %s %04u")
      [.str (some (weekDays.getD dt.weekday [])), day,
        .str (some (monthNames.getD (uint (dt.month - 1)) [])), year]
  | 0 => .no
  | _ => .bad

/-- The time in `fftime_tostr`: the format and the arguments. -/
def tostrTime (flags : ℕ) : TimeFmt (List FmtArg) :=
  let hour := FmtArg.w32 (UInt32.ofNat dt.hour)
  let min := FmtArg.w32 (UInt32.ofNat dt.min)
  let sec := FmtArg.w32 (UInt32.ofNat dt.sec)
  match flags &&& 0xf0 with
  | FFTIME_HMS => .fmt (ascii "%02u:%02u:%02u") [hour, min, sec]
  | FFTIME_HMS_MSEC =>
    .fmt (ascii "%02u:%02u:%02u.%03u") [hour, min, sec, .w32 (UInt32.ofNat (msec dt.nsec))]
  | FFTIME_HMS_GMT => .fmt (ascii "%02u:%02u:%02u GMT") [hour, min, sec]
  | 0 => .no
  | _ => .bad

/-- One of the two in the buffer `mem`, from `pos` on. -/
def TostrPart (mem : List UInt8) (pos pos' : ℕ) (mem' : List UInt8) : TimeFmt (List FmtArg) → Prop
  | .fmt fmt args => FfsFmt err fmt args mem pos pos' mem'
  | _ => pos' = pos ∧ mem' = mem

/-- There are a date and a time. -/
def hasBoth (flags : ℕ) : Bool := flags &&& 0x0f != 0 && flags &&& 0xf0 != 0

/-- `ffs_copyc`, for a date and a time -/
def tostrSpace (flags : ℕ) (mem : List UInt8) (pos : ℕ) : ℕ × List UInt8 :=
  if hasBoth flags ∧ pos ≠ mem.length then (pos + 1, mem.set pos 0x20) else (pos, mem)

/-- **`fftime_tostr` returns `r`** for the buffer `mem`, which holds `mem'` then. -/
def FftimeTostr (mem : List UInt8) (flags r : ℕ) (mem' : List UInt8) : Prop :=
  match tostrDate dt flags with
  | .bad => r = 0 ∧ mem' = mem
  | date => ∃ pos mem₁, TostrPart err mem 0 pos mem₁ date ∧
      match tostrTime msec dt flags with
      | .bad => r = 0 ∧ mem' = (tostrSpace flags mem₁ pos).2
      | time => ∃ pos',
          TostrPart err (tostrSpace flags mem₁ pos).2 (tostrSpace flags mem₁ pos).1 pos' mem' time ∧
          r = if pos' = mem.length then 0 else pos'

end Tostr

/-! ### Reading -/

section Fromstr

variable (setmsec : Ffdtm → ℕ → Ffdtm) (behind : UInt8)

/-- The numbers that have been stored. -/
def fmNums (es : List FmEvent) : List ℕ :=
  es.filterMap fun
    | .num _ w => some w
    | _ => none

/-- The bytes that have been copied. -/
def fmCopies (es : List FmEvent) : List (List UInt8) :=
  es.filterMap fun
    | .copy bs => some bs
    | _ => none

/-- The three numbers of a date: the first one goes to the year, and so on. -/
def storeDate (es : List FmEvent) (t : Ffdtm) : Ffdtm :=
  { t with
    year := int32 ((fmNums es).getD 0 0), month := (fmNums es).getD 1 0,
    day := (fmNums es).getD 2 0, weekday := 0 }

/-- A date with names. -/
def storeNames (es : List FmEvent) (t : Ffdtm) : Ffdtm :=
  { t with
    day := (fmNums es).getD 0 0, year := int32 ((fmNums es).getD 1 0),
    month := ((ffsFindarr monthNames ((fmCopies es).getD 1 [])).map (· + 1)).getD 0,
    weekday := (ffsFindarr weekDays ((fmCopies es).getD 0 [])).getD t.weekday }

/-- The three numbers of a time. -/
def storeTime (es : List FmEvent) (t : Ffdtm) : Ffdtm :=
  { t with
    hour := (fmNums es).getD 0 0, min := (fmNums es).getD 1 0, sec := (fmNums es).getD 2 0 }

/-- The date in `date_fromstr`: the format, and how the numbers are stored. -/
def scanDate (flags : ℕ) : TimeFmt (List FmEvent → Ffdtm → Ffdtm) :=
  match flags &&& 0x0f with
  | FFTIME_DATE_YMD => .fmt (ascii "%4u-%2u-%2u") storeDate
  | FFTIME_DATE_MDY0 => .fmt (ascii "%2u/%2u/%4u") storeDate
  | FFTIME_DATE_MDY => .fmt (ascii "%u/%u/%4u") storeDate
  | FFTIME_DATE_DMY => .fmt (ascii "%2u.%2u.%4u") storeDate
  | FFTIME_DATE_WDMY => .fmt (ascii "%3s, %2u %3s %4u") storeNames
  | 0 => .no
  | _ => .bad

/-- `date_fromstr`: the number of bytes, and what has been read; `none` is -1. -/
def DateFromstr (s : List UInt8) (flags : ℕ) (t : Ffdtm) (out : Option (ℕ × Ffdtm)) : Prop :=
  match scanDate flags with
  | .no => out = some (0, t)
  | .bad => out = none
  | .fmt fmt store => ∃ es i, FfsFmatchv s fmt (es ++ [.ret i]) ∧
      out = if i < 0 ∨ ¬fftimeChk (store es t) FFTIME_CHKDATE then none
        else some (i.toNat, store es t)

/-- `ffs_toint` for the parts of a time: the number, and what is left. -/
def tointPart (s : List UInt8) : Option (ℕ × List UInt8) :=
  (ffsToint s ⟨4, false, false, false⟩).map fun out => (out.2, s.drop out.1)

/-- The parts with colons in `FFTIME_HMS_MSEC_VAR`: up to three, the last one is the seconds. -/
def varParts (t : Ffdtm) (s : List UInt8) : Option (Ffdtm × List UInt8) := do
  let (sec, s) ← tointPart s
  let t := { t with sec := sec }
  if s.head? ≠ some 0x3a then return (t, s)
  let t := { t with min := t.sec }
  let (sec, s) ← tointPart s.tail
  let t := { t with sec := sec }
  if s.head? ≠ some 0x3a then return (t, s)
  let t := { t with hour := t.min, min := t.sec }
  let (sec, s) ← tointPart s.tail
  return ({ t with sec := sec }, s)

/-- `FFTIME_HMS_MSEC_VAR`: the outer `none` is a number that is looked for behind the text, where
the byte there is a dot; the inner one is a text that is refused. -/
def varFromstr (t : Ffdtm) (s : List UInt8) : Option (Option (ℕ × Ffdtm)) :=
  match varParts t s with
  | none => some none
  | some (t, []) => if behind = 0x2e then none else some (some (s.length, t))
  | some (t, _ :: rest) =>
    some ((tointPart rest).map fun out => (s.length - out.2.length, setmsec t out.1))

/-- The time in `time_fromstr`: the format, and how the numbers are stored. -/
def scanTime (flags : ℕ) : TimeFmt (List FmEvent → Ffdtm → Ffdtm) :=
  match flags &&& 0xf0 with
  | FFTIME_HMS => .fmt (ascii "%2u:%2u:%2u") storeTime
  | FFTIME_HMS_GMT => .fmt (ascii "%2u:%2u:%2u GMT") storeTime
  | 0 => .no
  | _ => .bad

/-- The end of `time_fromstr` -/
def timeChecked (flags : ℕ) (out : Option (ℕ × Ffdtm)) : Option (ℕ × Ffdtm) :=
  out.filter fun out => flags &&& FFTIME_NOCHECK != 0 || fftimeChk out.2 FFTIME_CHKTIME

/-- `time_fromstr`: the number of bytes, and what has been read; `none` is -1. -/
def TimeFromstr (s : List UInt8) (flags : ℕ) (t : Ffdtm) (out : Option (ℕ × Ffdtm)) : Prop :=
  if flags &&& 0xf0 = FFTIME_HMS_MSEC_VAR then
    ∃ read, varFromstr setmsec behind t s = some read ∧ out = timeChecked flags read
  else
    match scanTime flags with
    | .no => out = some (0, t)
    | .bad => out = none
    | .fmt fmt store => ∃ es i, FfsFmatchv s fmt (es ++ [.ret i]) ∧
        out = timeChecked flags (if i < 0 then none else some (i.toNat, store es t))

/-- `ffdtm t = {0}` -/
def Ffdtm.zero : Ffdtm := ⟨0, 0, 0, 0, 0, 0, 0, 0, 0⟩

/-- **`fftime_fromstr` returns `res.1`**, and stores `res.2`, where it stores something. -/
def FftimeFromstr (s : List UInt8) (flags : ℕ) (res : ℕ × Option Ffdtm) : Prop :=
  ∃ date, DateFromstr s flags Ffdtm.zero date ∧
    match date with
    | none => res = (0, none)
    | some (i, t) =>
      if hasBoth flags ∧ (s.drop i).head? ≠ some 0x20 then res = (0, none)
      else
        let rest := if hasBoth flags then (s.drop i).tail else s.drop i
        ∃ time, TimeFromstr setmsec behind rest flags t time ∧
          match time with
          | none => res = (0, none)
          | some (j, t) => res = if rest.drop j ≠ [] then (0, none) else (s.length, some t)

end Fromstr

end FF
