import FF.Toint

/-!
# Integers for a scheme

`ffpars_arg_process` reads an integer, with a suffix where the argument is a size, and
`_ffpars_intval` stores it in 8, 16, 32 or 64 bits.

## Conventions

An `int64` is an integer between `-2 ^ 63` and `2 ^ 63 - 1`. `ffabs` is a macro of the library below
this one: the absolute value, which the least integer does not have.
-/

namespace FF

namespace Conf

/-! ### Arguments -/

/-- The widths, in the order of `pars_width`. -/
inductive ParsWidth
  | w32
  | w64
  | w16
  | w8
  deriving DecidableEq, Repr

/-- `PARS_WIDTH` -/
def ParsWidth.bits : ParsWidth → ℕ
  | .w32 => 32
  | .w64 => 64
  | .w16 => 16
  | .w8 => 8

/-- Where the value goes: into the integer, to a handler, or into bits of the integer
(`FFPARS_FBIT` and `FFPARS_FBITMASK`). -/
inductive IntDst
  | value
  | func
  | bit (n : ℕ)
  | mask (n : ℕ)
  deriving DecidableEq, Repr

/-- `ffpars_arg` of the type `FFPARS_TINT`, or `FFPARS_TSIZE` where `tsize` is set. -/
structure IntArg where
  tsize : Bool
  width : ParsWidth
  fsign : Bool
  fnotzero : Bool
  dst : IntDst
  deriving DecidableEq, Repr

/-- The errors. -/
inductive IntE
  | evalempty
  | ebadint
  | evalzero
  | evalneg
  | ebigval
  | econf
  deriving DecidableEq, Repr

/-- What becomes of a value. -/
inductive IntRes (w : ℕ)
  | error (e : IntE)
  | call (n : ℤ)
  | stored (cell : BitVec w)
  deriving DecidableEq, Repr

/-! ### The functions -/

/-- `_ffpars_bits` and `_ffpars_bitmask`: the bits are set or reset. -/
def ffparsBits (a : IntArg) (bits : BitVec a.width.bits) (i : ℤ) (cell : BitVec a.width.bits) :
    IntRes a.width.bits :=
  if a.width = .w64 ∨ a.width = .w32 then
    .stored (if i ≠ 0 then cell ||| bits else cell &&& ~~~bits)
  else .error .econf

section Process

variable (ffabs : ℤ → ℤ)

/-- `_ffpars_intval` -/
def ffparsIntval (a : IntArg) (n : ℤ) (cell : BitVec a.width.bits) : IntRes a.width.bits :=
  if a.width ≠ .w64 ∧ ffabs n / 2 ^ a.width.bits ≠ 0 then .error .ebigval
  else
    match a.dst with
    | .func => .call n
    | .bit b => ffparsBits a (BitVec.twoPow _ b) n cell
    | .mask m => ffparsBits a (BitVec.ofNat _ m) n cell
    | .value => .stored (BitVec.ofInt _ n)

/-- `_ffpars_int` -/
def ffparsInt (a : IntArg) (val : ℤ) (cell : BitVec a.width.bits) : IntRes a.width.bits :=
  if a.fnotzero ∧ val = 0 then .error .evalzero
  else if !a.fsign ∧ val < 0 then .error .evalneg
  else ffparsIntval ffabs a val cell

/-- `ffchar_sizesfx` -/
def ffcharSizesfx (suffix : UInt8) : ℕ :=
  match ffcharLower suffix with
  | 0x6b => 10
  | 0x6d => 20
  | 0x67 => 30
  | 0x74 => 40
  | _ => 0

/-- `_ffpars_size` -/
def ffparsSize (a : IntArg) (val : List UInt8) (cell : BitVec a.width.bits) :
    IntRes a.width.bits :=
  match val.getLast? with
  | none => .error .evalempty
  | some c =>
    let shift := ffcharSizesfx c
    let s := if shift ≠ 0 then val.dropLast else val
    match ffstrToint s ⟨8, false, false, false⟩ with
    | none => .error .ebadint
    | some intval => ffparsInt ffabs a (int64 (intval * 2 ^ shift % 2 ^ 64)) cell

/-- `FFINT_MAXCHARS` -/
def FFINT_MAXCHARS : ℕ := 20

/-- `ffpars_arg_process` -/
def ffparsArgProcess (a : IntArg) (val : List UInt8) (cell : BitVec a.width.bits) :
    IntRes a.width.bits :=
  if a.tsize then ffparsSize ffabs a val cell
  else if val.length > FFINT_MAXCHARS then .error .ebadint
  else
    match ffstrToint val ⟨8, true, false, false⟩ with
    | none => .error .ebadint
    | some intval => ffparsInt ffabs a (int64 intval) cell

end Process

/-- `ffpars_getint` -/
def ffparsGetint (a : IntArg) (cell : BitVec a.width.bits) : ℤ :=
  if a.fsign then cell.toInt
  else
    match a.dst with
    | .bit b => if cell.getLsbD b then 1 else 0
    | _ => if a.width = .w64 then cell.toInt else cell.toNat

/-! ### The number of a text -/

/-- The text is an integer. -/
def IsIntText (s : List UInt8) (flags : IntFlags) : Prop :=
  intDigits s flags ≠ [] ∧ intSign s flags + (intDigits s flags).length = s.length

instance (s : List UInt8) (flags : IntFlags) : Decidable (IsIntText s flags) :=
  inferInstanceAs (Decidable (_ ∧ _))

/-- A size has no sign. -/
def IntArg.flags (a : IntArg) : IntFlags := ⟨8, !a.tsize, false, false⟩

/-- The power of 2 that the suffix of a size stands for. -/
def IntArg.shift (a : IntArg) (val : List UInt8) : ℕ :=
  if a.tsize then (val.getLast?.map ffcharSizesfx).getD 0 else 0

/-- The text in front of the suffix. -/
def IntArg.front (a : IntArg) (val : List UInt8) : List UInt8 :=
  if a.shift val ≠ 0 then val.dropLast else val

/-- **The number that the text denotes.** -/
def IntArg.num (a : IntArg) (val : List UInt8) : Option ℤ :=
  if IsIntText (a.front val) a.flags then some (intVal (a.front val) a.flags * 2 ^ a.shift val)
  else none

/-- The number is one of the type. -/
def IntArg.Fits (a : IntArg) (v : ℤ) : Prop :=
  if a.fsign then -2 ^ (a.width.bits - 1) ≤ v ∧ v < 2 ^ (a.width.bits - 1)
  else 0 ≤ v ∧ v < 2 ^ a.width.bits

/-- The lower 64 bits of the number, as an `int64`, pass the checks: there are at most 20 digits,
what is left of an integer with a sign has 63 bits, and `n` is none of the values that the argument
does not allow. -/
structure IntArg.LowPasses (a : IntArg) (val : List UInt8) (n : ℤ) : Prop where
  length : (a.front val).length ≤ FFINT_MAXCHARS
  bits : intAbs (a.front val) a.flags % 2 ^ 64 < 2 ^ a.flags.bits
  notzero : a.fnotzero = true → n ≠ 0
  sign : a.fsign = false → 0 ≤ n
  width : a.width ≠ .w64 → n.natAbs < 2 ^ a.width.bits

/-- **The texts that are read right**: a number that is none of the type has lower bits that do not
pass. -/
def IntArg.NumOk (a : IntArg) (val : List UInt8) : Prop :=
  ∀ v, a.num val = some v → ¬a.Fits v → ¬a.LowPasses val (v.bmod (2 ^ 64))

/-! ### What reaches `_ffpars_int` -/

theorem int64_eq_bmod {w : ℕ} (hw : w < 2 ^ 64) : int64 w = (w : ℤ).bmod (2 ^ 64) := by
  rw [int64, Int.bmod_def]
  norm_num
  split <;> split <;> omega

theorem int64_mul (v : ℤ) (k : ℕ) :
    int64 ((v % 2 ^ 64).toNat * k % 2 ^ 64) = (v * k).bmod (2 ^ 64) := by
  have hpow : ((2 ^ 64 : ℕ) : ℤ) = 2 ^ 64 := by norm_num
  have hnonneg : 0 ≤ v % 2 ^ 64 := Int.emod_nonneg _ (by norm_num)
  rw [int64_eq_bmod (Nat.mod_lt _ (Nat.two_pow_pos 64)), Int.natCast_emod, Int.natCast_mul,
    Int.toNat_of_nonneg hnonneg, Int.emod_bmod, ← hpow, Int.emod_mul_bmod]

theorem intTaken_dec (s : List UInt8) (sign : Bool) :
    intTaken s ⟨8, sign, false, false⟩ = intDigits s ⟨8, sign, false, false⟩ := by
  by_contra hne
  cases (intTaken_hex hne).2

/-- `ffstr_toint` of 64 bits. -/
theorem ffstrToint_eq (s : List UInt8) (sign : Bool) :
    ffstrToint s ⟨8, sign, false, false⟩ =
      if IsIntText s ⟨8, sign, false, false⟩ ∧
          (intDigits s ⟨8, sign, false, false⟩).length ≤ 20 ∧
          intAbs s ⟨8, sign, false, false⟩ % 2 ^ 64 <
            2 ^ (⟨8, sign, false, false⟩ : IntFlags).bits then
        some (intVal s ⟨8, sign, false, false⟩ % 2 ^ 64).toNat
      else none := by
  obtain ⟨flags, hflags⟩ : ∃ flags : IntFlags, flags = ⟨8, sign, false, false⟩ := ⟨_, rfl⟩
  have hvalid : flags.Valid := .inr (.inr (.inr (by rw [hflags])))
  have hmax : flags.maxDigits = 20 := by rw [hflags]; rfl
  have hsize : flags.size * 8 = 64 := by rw [hflags]; rfl
  have htaken : intTaken s flags = intDigits s flags := hflags ▸ intTaken_dec s sign
  rw [← hflags, ffstrToint, ffsToint_eq s hvalid, htaken, numVal_digits, hmax, hsize]
  by_cases hno : intDigits s flags = [] ∨ 20 < (intDigits s flags).length ∨
      2 ^ flags.bits ≤ intAbs s flags % 2 ^ 64
  · have hfail : ¬(IsIntText s flags ∧ (intDigits s flags).length ≤ 20 ∧
        intAbs s flags % 2 ^ 64 < 2 ^ flags.bits) := by
      rintro ⟨⟨hne, -⟩, hlen, hlt⟩
      rcases hno with h | h | h
      · exact hne h
      · omega
      · omega
    rw [if_pos hno, if_neg hfail]
  rw [if_neg hno]
  simp only [not_or, Nat.not_lt, Nat.not_le] at hno
  obtain ⟨hne, hlen, hlt⟩ := hno
  dsimp only
  by_cases hall : intSign s flags + (intDigits s flags).length = s.length
  · have hok : IsIntText s flags ∧ (intDigits s flags).length ≤ 20 ∧
        intAbs s flags % 2 ^ 64 < 2 ^ flags.bits := ⟨⟨hne, hall⟩, hlen, hlt⟩
    rw [if_pos hall, if_pos hok, intVal]
    congr 1
    split <;> omega
  · have hfail : ¬(IsIntText s flags ∧ (intDigits s flags).length ≤ 20 ∧
        intAbs s flags % 2 ^ 64 < 2 ^ flags.bits) := fun h => hall h.1.2
    rw [if_neg hall, if_neg hfail]

section Process

variable (ffabs : ℤ → ℤ) (a : IntArg) (val : List UInt8) (cell : BitVec a.width.bits)

theorem ffstrToint_lt {s : List UInt8} {sign : Bool} {w : ℕ}
    (h : ffstrToint s ⟨8, sign, false, false⟩ = some w) : w < 2 ^ 64 := by
  rw [ffstrToint_eq] at h
  split at h
  · obtain rfl := Option.some.inj h
    omega
  · cases h

theorem ffparsInt_front
    (hshort : IsIntText (a.front val) a.flags →
      ((intDigits (a.front val) a.flags).length ≤ 20 ↔ (a.front val).length ≤ FFINT_MAXCHARS)) :
    (match ffstrToint (a.front val) a.flags with
      | none => .error .ebadint
      | some w => ffparsInt ffabs a (int64 (w * 2 ^ a.shift val % 2 ^ 64)) cell) =
      match a.num val with
      | some v =>
        if (a.front val).length ≤ FFINT_MAXCHARS ∧
            intAbs (a.front val) a.flags % 2 ^ 64 < 2 ^ a.flags.bits then
          ffparsInt ffabs a (v.bmod (2 ^ 64)) cell
        else .error .ebadint
      | none => .error .ebadint := by
  have hflags : a.flags = ⟨8, !a.tsize, false, false⟩ := rfl
  rw [hflags, ffstrToint_eq, ← hflags, IntArg.num]
  by_cases hint : IsIntText (a.front val) a.flags
  · rw [if_pos hint]
    by_cases hok : (a.front val).length ≤ FFINT_MAXCHARS ∧
        intAbs (a.front val) a.flags % 2 ^ 64 < 2 ^ a.flags.bits
    · rw [if_pos ⟨hint, (hshort hint).mpr hok.1, hok.2⟩]
      dsimp only
      rw [if_pos hok, int64_mul, Nat.cast_pow, Nat.cast_ofNat]
    · rw [if_neg fun h => hok ⟨(hshort hint).mp h.2.1, h.2.2⟩]
      dsimp only
      rw [if_neg hok]
  · rw [if_neg fun h => hint h.1, if_neg hint]

/-- **An integer reaches `_ffpars_int` as the lower 64 bits of what the text denotes.** -/
theorem ffparsArgProcess_eq :
    ffparsArgProcess ffabs a val cell =
      match a.num val with
      | some v =>
        if (a.front val).length ≤ FFINT_MAXCHARS ∧
            intAbs (a.front val) a.flags % 2 ^ 64 < 2 ^ a.flags.bits then
          ffparsInt ffabs a (v.bmod (2 ^ 64)) cell
        else .error .ebadint
      | none => .error (if a.tsize ∧ val = [] then .evalempty else .ebadint) := by
  cases htsize : a.tsize with
  | false =>
    have hflags : a.flags = ⟨8, true, false, false⟩ := by rw [IntArg.flags, htsize]; rfl
    have hshift : a.shift val = 0 := by
      rw [IntArg.shift, if_neg (ne_true_of_eq_false htsize)]
    have hfront : a.front val = val := if_neg (not_not.mpr hshift)
    rw [ffparsArgProcess, if_neg (ne_true_of_eq_false htsize)]
    by_cases hlen : val.length > FFINT_MAXCHARS
    · have hlong : ¬((a.front val).length ≤ FFINT_MAXCHARS ∧
          intAbs (a.front val) a.flags % 2 ^ 64 < 2 ^ a.flags.bits) := fun h => by
        rw [hfront] at h
        omega
      rw [if_pos hlen]
      cases a.num val with
      | none => rfl
      | some v =>
        dsimp only
        rw [if_neg hlong]
    have hshort : IsIntText (a.front val) a.flags →
        ((intDigits (a.front val) a.flags).length ≤ 20 ↔
          (a.front val).length ≤ FFINT_MAXCHARS) := by
      intro hint
      have htotal := hint.2
      rw [hfront] at htotal ⊢
      unfold FFINT_MAXCHARS at hlen ⊢
      omega
    have hrest := ffparsInt_front ffabs a val cell hshort
    have hno : ¬(false = true ∧ val = []) := fun h => Bool.false_ne_true h.1
    rw [if_neg hlen, if_neg hno, ← hrest, hfront, hflags, hshift]
    cases hw : ffstrToint val ⟨8, true, false, false⟩ with
    | none => rfl
    | some w =>
      dsimp only
      rw [pow_zero, Nat.mul_one, Nat.mod_eq_of_lt (ffstrToint_lt hw)]
  | true =>
    have hflags : a.flags = ⟨8, false, false, false⟩ := by rw [IntArg.flags, htsize]; rfl
    have hshort : IsIntText (a.front val) a.flags →
        ((intDigits (a.front val) a.flags).length ≤ 20 ↔
          (a.front val).length ≤ FFINT_MAXCHARS) := by
      intro hint
      have hsign : intSign (a.front val) a.flags = 0 := by
        rw [hflags]
        rfl
      rw [← hint.2, hsign, Nat.zero_add]
      rfl
    have hrest := ffparsInt_front ffabs a val cell hshort
    rw [ffparsArgProcess, if_pos htsize, ffparsSize]
    cases hlast : val.getLast? with
    | none =>
      obtain rfl := List.getLast?_eq_none_iff.mp hlast
      have hfront : a.front [] = [] := ite_self _
      have hnum : a.num [] = none := by
        rw [IntArg.num, hfront]
        exact if_neg fun h => h.1 (by simp [intDigits])
      rw [hnum]
      rfl
    | some c =>
      have hno : ¬(true = true ∧ val = []) := by
        rintro ⟨-, rfl⟩
        cases hlast
      have hshift : a.shift val = ffcharSizesfx c := by
        rw [IntArg.shift, if_pos htsize, hlast]
        rfl
      rw [if_neg hno, ← hrest, hflags, IntArg.front, hshift]

end Process

/-! ### What is stored -/

theorem ffparsInt_value {ffabs : ℤ → ℤ}
    (hffabs : ∀ n, -2 ^ 63 ≤ n → n < 2 ^ 63 → ffabs n = int64 n.natAbs) {a : IntArg}
    (hdst : a.dst = .value) {n : ℤ} (hlow : -2 ^ 63 ≤ n) (hhigh : n < 2 ^ 63)
    (cell : BitVec a.width.bits) :
    if (a.fnotzero = true → n ≠ 0) ∧ (a.fsign = false → 0 ≤ n) ∧
        (a.width ≠ .w64 → n.natAbs < 2 ^ a.width.bits) then
      ffparsInt ffabs a n cell = .stored (BitVec.ofInt _ n)
    else ∃ e, ffparsInt ffabs a n cell = .error e := by
  have hbig : (a.width ≠ .w64 ∧ ffabs n / 2 ^ a.width.bits ≠ 0) ↔
      ¬(a.width ≠ .w64 → n.natAbs < 2 ^ a.width.bits) := by
    rw [Classical.not_imp, hffabs n hlow hhigh]
    refine and_congr_right fun hwidth => ?_
    unfold int64
    cases hw : a.width with
    | w64 => exact absurd hw hwidth
    | _ =>
      simp only [ParsWidth.bits]
      split <;> omega
  by_cases hzero : a.fnotzero = true → n ≠ 0
  · have hz : ¬(a.fnotzero ∧ n = 0) := fun h => hzero h.1 h.2
    by_cases hneg : a.fsign = false → 0 ≤ n
    · have hn : ¬(!a.fsign ∧ n < 0) := fun h => Int.not_lt.mpr (hneg (by simpa using h.1)) h.2
      rw [ffparsInt, if_neg hz, if_neg hn, ffparsIntval, hdst]
      by_cases hwidth : a.width ≠ .w64 → n.natAbs < 2 ^ a.width.bits
      · rw [if_pos ⟨hzero, hneg, hwidth⟩, if_neg (not_not.mpr hwidth ∘ hbig.mp)]
      · rw [if_neg fun h => hwidth h.2.2, if_pos (hbig.mpr hwidth)]
        exact ⟨_, rfl⟩
    · have hn : !a.fsign ∧ n < 0 := by
        rw [Classical.not_imp, Int.not_le] at hneg
        exact ⟨by rw [hneg.1]; rfl, hneg.2⟩
      rw [if_neg fun h => hneg h.2.1, ffparsInt, if_neg hz, if_pos hn]
      exact ⟨_, rfl⟩
  · have hz : a.fnotzero ∧ n = 0 := by
      rw [Classical.not_imp, not_not] at hzero
      exact hzero
    rw [if_neg fun h => hzero h.1, ffparsInt, if_pos hz]
    exact ⟨_, rfl⟩

/-- **What is read back** of the lower 64 bits of a number is the number, where it is one of the
type. -/
theorem getint_stored {a : IntArg} (hdst : a.dst = .value) {v : ℤ}
    (hsign : a.fsign = false → 0 ≤ v.bmod (2 ^ 64)) :
    ffparsGetint a (BitVec.ofInt _ (v.bmod (2 ^ 64))) = v ↔ a.Fits v := by
  obtain ⟨tsize, width, fsign, fnotzero, dst⟩ := a
  cases hdst
  cases fsign <;> cases width <;>
    simp [ffparsGetint, IntArg.Fits, ParsWidth.bits, BitVec.toInt_ofInt, BitVec.toNat_ofInt,
      Int.bmod_def] at hsign ⊢ <;>
    omega

/-- **The text is refused, or what is stored reads back as the number that it denotes.** -/
def StoredExact (ffabs : ℤ → ℤ) (a : IntArg) (val : List UInt8) (cell : BitVec a.width.bits) :
    Prop :=
  (∃ e, ffparsArgProcess ffabs a val cell = .error e) ∨
    ∃ cell', ffparsArgProcess ffabs a val cell = .stored cell' ∧
      a.num val = some (ffparsGetint a cell')

theorem storedExact_error {ffabs : ℤ → ℤ} {a : IntArg} {val : List UInt8}
    {cell : BitVec a.width.bits} (h : ∃ e, ffparsArgProcess ffabs a val cell = .error e) :
    StoredExact ffabs a val cell := .inl h

theorem storedExact_stored {ffabs : ℤ → ℤ} {a : IntArg} {val : List UInt8}
    {cell cell' : BitVec a.width.bits} (h : ffparsArgProcess ffabs a val cell = .stored cell') :
    StoredExact ffabs a val cell ↔ a.num val = some (ffparsGetint a cell') := by
  unfold StoredExact
  rw [h]
  constructor
  · rintro (⟨e, he⟩ | ⟨cell₂, heq, hnum⟩)
    · cases he
    · cases heq
      exact hnum
  · exact fun hnum => .inr ⟨cell', rfl, hnum⟩

theorem storedExact_iff {ffabs : ℤ → ℤ}
    (hffabs : ∀ n, -2 ^ 63 ≤ n → n < 2 ^ 63 → ffabs n = int64 n.natAbs) {a : IntArg}
    (hdst : a.dst = .value) (val : List UInt8) (cell : BitVec a.width.bits) :
    StoredExact ffabs a val cell ↔ a.NumOk val := by
  have heq := ffparsArgProcess_eq ffabs a val cell
  unfold IntArg.NumOk
  cases hnum : a.num val with
  | none =>
    rw [hnum] at heq
    exact iff_of_true (storedExact_error ⟨_, heq⟩) nofun
  | some v =>
    rw [hnum] at heq
    dsimp only at heq
    have hlow : -2 ^ 63 ≤ v.bmod (2 ^ 64) := by
      have h := Int.le_bmod (x := v) (m := 2 ^ 64) (by norm_num)
      omega
    have hhigh : v.bmod (2 ^ 64) < 2 ^ 63 := by
      have h := Int.bmod_lt (x := v) (m := 2 ^ 64) (by norm_num)
      omega
    have hint := ffparsInt_value hffabs hdst hlow hhigh cell
    by_cases hpass : a.LowPasses val (v.bmod (2 ^ 64))
    · -- The lower bits pass: they are stored.
      rw [if_pos ⟨hpass.length, hpass.bits⟩] at heq
      rw [if_pos ⟨hpass.notzero, hpass.sign, hpass.width⟩] at hint
      rw [storedExact_stored (heq.trans hint), hnum, Option.some.injEq, eq_comm,
        getint_stored hdst hpass.sign]
      constructor
      · intro hfits v' hv' hno
        cases hv'
        exact absurd hfits hno
      · intro h
        by_contra hno
        exact h v rfl hno hpass
    refine iff_of_true (storedExact_error ?_) fun v' hv' _ => ?_
    · rw [heq]
      by_cases hbits : (a.front val).length ≤ FFINT_MAXCHARS ∧
          intAbs (a.front val) a.flags % 2 ^ 64 < 2 ^ a.flags.bits
      · rw [if_pos hbits]
        have hchecks : ¬((a.fnotzero = true → v.bmod (2 ^ 64) ≠ 0) ∧
            (a.fsign = false → 0 ≤ v.bmod (2 ^ 64)) ∧
            (a.width ≠ .w64 → (v.bmod (2 ^ 64)).natAbs < 2 ^ a.width.bits)) :=
          fun h => hpass ⟨hbits.1, hbits.2, h.1, h.2.1, h.2.2⟩
        rw [if_neg hchecks] at hint
        exact hint
      · rw [if_neg hbits]
        exact ⟨_, rfl⟩
    · cases hv'
      exact hpass

/-- **An integer text is refused, or what is stored reads back as the number that it denotes**,
exactly where a number that is none of the type has lower bits that do not pass the checks. -/
theorem ffparsArgProcess_iff (ffabs : ℤ → ℤ)
    (hffabs : ∀ n, -2 ^ 63 ≤ n → n < 2 ^ 63 → ffabs n = int64 n.natAbs) (tsize : Bool)
    (width : ParsWidth) (fsign fnotzero : Bool) (val : List UInt8) (cell : BitVec width.bits) :
    StoredExact ffabs ⟨tsize, width, fsign, fnotzero, .value⟩ val cell ↔
      IntArg.NumOk ⟨tsize, width, fsign, fnotzero, .value⟩ val :=
  storedExact_iff hffabs rfl val cell

/-- `"-128"` for 8 bits with a sign. -/
theorem ffparsArgProcess_minus128 :
    StoredExact (fun n => int64 n.natAbs) ⟨false, .w8, true, false, .value⟩
        [0x2d, 0x31, 0x32, 0x38] 0#8 ↔
      IntArg.NumOk ⟨false, .w8, true, false, .value⟩ [0x2d, 0x31, 0x32, 0x38] :=
  ffparsArgProcess_iff _ (fun _ _ _ => rfl) _ _ _ _ _ _

/-- `"200"` for 8 bits with a sign is -56, the sizes `"17179869184g"` and `"18446744073709551617"`
for 64 bits are 0 and 1, and a size of 2 ^ 63 for 64 bits with a sign is -2 ^ 63. -/
theorem ffparsArgProcess_wraps :
    ¬StoredExact (fun n => int64 n.natAbs) ⟨false, .w8, true, false, .value⟩
        [0x32, 0x30, 0x30] 0#8 ∧
      ¬StoredExact (fun n => int64 n.natAbs) ⟨true, .w64, false, false, .value⟩
        [0x31, 0x37, 0x31, 0x37, 0x39, 0x38, 0x36, 0x39, 0x31, 0x38, 0x34, 0x67] 0#64 ∧
      ¬StoredExact (fun n => int64 n.natAbs) ⟨true, .w64, false, false, .value⟩
        [0x31, 0x38, 0x34, 0x34, 0x36, 0x37, 0x34, 0x34, 0x30, 0x37, 0x33, 0x37, 0x30, 0x39, 0x35,
          0x35, 0x31, 0x36, 0x31, 0x37] 0#64 ∧
      ¬StoredExact (fun n => int64 n.natAbs) ⟨true, .w64, true, false, .value⟩
        [0x38, 0x33, 0x38, 0x38, 0x36, 0x30, 0x38, 0x74] 0#64 := by
  refine ⟨?_, ?_, ?_, ?_⟩
  · have h : ffparsArgProcess (fun n => int64 n.natAbs) ⟨false, .w8, true, false, .value⟩
        [0x32, 0x30, 0x30] 0#8 = .stored 200#8 := rfl
    rw [storedExact_stored h]
    decide
  · have h : ffparsArgProcess (fun n => int64 n.natAbs) ⟨true, .w64, false, false, .value⟩
        [0x31, 0x37, 0x31, 0x37, 0x39, 0x38, 0x36, 0x39, 0x31, 0x38, 0x34, 0x67] 0#64 =
        .stored 0#64 := rfl
    rw [storedExact_stored h]
    decide
  · have h : ffparsArgProcess (fun n => int64 n.natAbs) ⟨true, .w64, false, false, .value⟩
        [0x31, 0x38, 0x34, 0x34, 0x36, 0x37, 0x34, 0x34, 0x30, 0x37, 0x33, 0x37, 0x30, 0x39, 0x35,
          0x35, 0x31, 0x36, 0x31, 0x37] 0#64 = .stored 1#64 := rfl
    rw [storedExact_stored h]
    decide
  · have h : ffparsArgProcess (fun n => int64 n.natAbs) ⟨true, .w64, true, false, .value⟩
        [0x38, 0x33, 0x38, 0x38, 0x36, 0x30, 0x38, 0x74] 0#64 =
        .stored 0x8000000000000000#64 := rfl
    rw [storedExact_stored h]
    decide

end Conf

end FF
