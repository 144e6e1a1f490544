import FF.Ffstring
import Mathlib.Data.FinEnum
import Mathlib.Data.List.TakeWhile
import Mathlib.Tactic.Ring

/-!
# The number that a text denotes

What `ffs_toint` stores, beside the number that the digits of the text denote.
-/

namespace FF

open List Option

/-! ### The value of digits -/

/-- The value of digits behind others of value `a`. -/
def numVal (digit : UInt8 → Option ℕ) (base a : ℕ) (cs : List UInt8) : ℕ :=
  cs.foldl (fun n c => n * base + (digit c).getD 0) a

theorem numVal_cons (digit : UInt8 → Option ℕ) (base a : ℕ) (c : UInt8) (cs : List UInt8) :
    numVal digit base a (c :: cs) = numVal digit base (a * base + (digit c).getD 0) cs := rfl

theorem numVal_append (digit : UInt8 → Option ℕ) (base a : ℕ) (cs cs' : List UInt8) :
    numVal digit base a (cs ++ cs') = numVal digit base (numVal digit base a cs) cs' :=
  foldl_append

theorem numVal_congr {digit digit' : UInt8 → Option ℕ} {cs : List UInt8}
    (h : ∀ c ∈ cs, digit c = digit' c) (base a : ℕ) :
    numVal digit base a cs = numVal digit' base a cs := by
  induction cs generalizing a with
  | nil => rfl
  | cons c cs ih =>
    rw [numVal_cons, numVal_cons, h c mem_cons_self]
    exact ih (fun c' hc' => h c' (mem_cons_of_mem c hc')) _

theorem numVal_eq (digit : UInt8 → Option ℕ) (base a : ℕ) (cs : List UInt8) :
    numVal digit base a cs = a * base ^ cs.length + numVal digit base 0 cs := by
  induction cs generalizing a with
  | nil => simp [numVal]
  | cons c cs ih =>
    rw [numVal_cons, numVal_cons, ih, ih (0 * base + _), length_cons, pow_succ']
    ring

theorem numVal_lt {digit : UInt8 → Option ℕ} {base : ℕ} (hbase : 0 < base)
    (hdigit : ∀ c b, digit c = some b → b < base) (cs : List UInt8) :
    numVal digit base 0 cs < base ^ cs.length := by
  induction cs with
  | nil => simp [numVal]
  | cons c cs ih =>
    have hb : (digit c).getD 0 < base := by
      cases hc : digit c with
      | none => simpa using hbase
      | some b => simpa using hdigit c b hc
    have hle : (digit c).getD 0 * base ^ cs.length + base ^ cs.length ≤
        base * base ^ cs.length := by
      rw [← Nat.succ_mul]
      exact Nat.mul_le_mul_right _ hb
    rw [numVal_cons, numVal_eq, Nat.zero_mul, Nat.zero_add, length_cons, pow_succ']
    omega

/-- The value of digits modulo `2 ^ 64` needs the value in front only modulo `2 ^ 64`. -/
theorem numVal_mod (digit : UInt8 → Option ℕ) (base a : ℕ) (cs : List UInt8) :
    numVal digit base (a % 2 ^ 64) cs % 2 ^ 64 = numVal digit base a cs % 2 ^ 64 := by
  rw [numVal_eq, numVal_eq digit base a, Nat.add_mod, Nat.mul_mod, Nat.mod_mod, ← Nat.mul_mod,
    ← Nat.add_mod]

/-- **The loops of `ffs_toint`** take the longest run of digits and compute its value modulo
`2 ^ 64`. -/
theorem tointLoop_eq {digit : UInt8 → Option ℕ} {base maxDigits digits r : ℕ}
    (src : List UInt8) (hdigits : digits ≤ maxDigits) (hr : r < 2 ^ 64) :
    tointLoop digit base maxDigits src digits r =
      if digits + (src.takeWhile fun c => (digit c).isSome).length ≤ maxDigits then
        some (digits + (src.takeWhile fun c => (digit c).isSome).length,
          numVal digit base r (src.takeWhile fun c => (digit c).isSome) % 2 ^ 64)
      else none := by
  induction src generalizing digits r with
  | nil =>
    rw [takeWhile_nil, length_nil, Nat.add_zero, if_pos hdigits, tointLoop, numVal,
      foldl_nil, Nat.mod_eq_of_lt hr]
  | cons c src ih =>
    cases hc : digit c with
    | none =>
      have htake : (c :: src).takeWhile (fun c => (digit c).isSome) = [] := by
        simp [List.takeWhile, hc]
      rw [htake, length_nil, Nat.add_zero, if_pos hdigits, numVal, foldl_nil, Nat.mod_eq_of_lt hr]
      simp only [tointLoop, hc]
    | some b =>
      have htake : (c :: src).takeWhile (fun c => (digit c).isSome) =
          c :: src.takeWhile fun c => (digit c).isSome := by
        simp [List.takeWhile, hc]
      rw [htake, length_cons, numVal_cons, hc, getD_some]
      simp only [tointLoop, hc]
      by_cases hmax : digits = maxDigits
      · rw [if_pos hmax, if_neg (by omega)]
      have hmod : (r * base + b) % 2 ^ 64 < 2 ^ 64 :=
        Nat.mod_lt _ (Nat.two_pow_pos 64)
      rw [if_neg hmax, ih (by omega) hmod, numVal_mod]
      have hlen : digits + 1 + (src.takeWhile fun c => (digit c).isSome).length =
          digits + ((src.takeWhile fun c => (digit c).isSome).length + 1) := by omega
      rw [hlen]

/-! ### The text of an integer -/

/-- The value of a digit in base 8, 10 or 16. -/
def digitOf (base : ℕ) (c : UInt8) : Option ℕ :=
  (if 0x30 ≤ c ∧ c ≤ 0x39 then some (c.toNat - 0x30)
   else if 0x41 ≤ c ∧ c ≤ 0x46 then some (c.toNat - 0x41 + 10)
   else if 0x61 ≤ c ∧ c ≤ 0x66 then some (c.toNat - 0x61 + 10)
   else none).filter fun d => d < base

/-- The base that the flags select. -/
def IntFlags.base (flags : IntFlags) : ℕ := if flags.octal then 8 else if flags.hex then 16 else 10

/-- The number of digits at which `ffs_toint` gives up. -/
def IntFlags.maxDigits (flags : IntFlags) : ℕ :=
  if flags.octal then 22 else if flags.hex then 16 else 20

/-- What `ffs_toint` takes for a digit. -/
def IntFlags.digit (flags : IntFlags) : UInt8 → Option ℕ :=
  if flags.octal then ffcharTooct else if flags.hex then ffcharTohex else ffcharTodec

/-- The sizes that `ffs_toint` knows. -/
def IntFlags.Valid (flags : IntFlags) : Prop :=
  flags.size = 1 ∨ flags.size = 2 ∨ flags.size = 4 ∨ flags.size = 8

/-- The bits of the absolute value. -/
def IntFlags.bits (flags : IntFlags) : ℕ := flags.size * 8 - (if flags.sign then 1 else 0)

/-- The text has a minus sign. -/
def intMinus (src : List UInt8) (flags : IntFlags) : Bool := flags.sign && src.head? == some 0x2d

/-- The length of the sign -/
def intSign (src : List UInt8) (flags : IntFlags) : ℕ :=
  if flags.sign && (src.head? == some 0x2d || src.head? == some 0x2b) then 1 else 0

/-- **The digits of the text**: the longest run of them behind the sign. -/
def intDigits (src : List UInt8) (flags : IntFlags) : List UInt8 :=
  (src.drop (intSign src flags)).takeWhile fun c => (digitOf flags.base c).isSome

/-- The value of the digits. -/
def intAbs (src : List UInt8) (flags : IntFlags) : ℕ :=
  numVal (digitOf flags.base) flags.base 0 (intDigits src flags)

/-- **The number that the text denotes.** -/
def intVal (src : List UInt8) (flags : IntFlags) : ℤ :=
  if intMinus src flags then -(intAbs src flags : ℤ) else intAbs src flags

/-- The number fits the type. -/
def IntFlags.Fits (flags : IntFlags) (v : ℤ) : Prop :=
  if flags.sign then -2 ^ flags.bits ≤ v ∧ v < 2 ^ flags.bits else 0 ≤ v ∧ v < 2 ^ flags.bits

/-- The value of a stored word. -/
def IntFlags.wordVal (flags : IntFlags) (w : ℕ) : ℤ :=
  if flags.sign ∧ 2 ^ flags.bits ≤ w then (w : ℤ) - 2 ^ (flags.size * 8) else w

/-- `ffs_toint` as its caller sees it: the result, and the destination that held `dst`. -/
def ffsTointInto (src : List UInt8) (flags : IntFlags) (dst : ℕ) : ℕ × ℕ :=
  (ffsToint src flags).getD (0, dst)

/-- **The result is the number that the text denotes**: it is `n > 0` exactly where the text has
digits, `n` bytes of sign and digits, and the number fits; the number is stored then, and the
destination is as before otherwise. -/
def TointExact (src : List UInt8) (flags : IntFlags) : Prop :=
  ∀ dst n, 0 < n →
    ((ffsTointInto src flags dst).1 = n ↔
      intDigits src flags ≠ [] ∧ intSign src flags + (intDigits src flags).length = n ∧
        flags.Fits (intVal src flags)) ∧
    ((ffsTointInto src flags dst).1 = n →
      flags.wordVal (ffsTointInto src flags dst).2 = intVal src flags) ∧
    ((ffsTointInto src flags dst).1 = 0 → (ffsTointInto src flags dst).2 = dst)

/-- The run of characters that `ffs_toint` takes for digits: `ffchar_tohex` takes `@` and the
grave accent for the digit 9. -/
def intTaken (src : List UInt8) (flags : IntFlags) : List UInt8 :=
  (src.drop (intSign src flags)).takeWhile fun c => (flags.digit c).isSome

/-- **The texts that `ffs_toint` reads right.** A text with more digits than the largest number
has must denote a number that does not fit; one with fewer must not be the least number of the
type, nor a number of 65 bits or more whose lower 64 bits fit. Where the hexadecimal digits go on
with an `@` or a grave accent, there must be no number that fits with or without these. -/
def TointOk (src : List UInt8) (flags : IntFlags) : Prop :=
  if intTaken src flags = intDigits src flags then
    (flags.maxDigits < (intDigits src flags).length → ¬flags.Fits (intVal src flags)) ∧
    ((intDigits src flags).length ≤ flags.maxDigits →
      ¬(intMinus src flags ∧ intAbs src flags = 2 ^ flags.bits) ∧
      (2 ^ 64 ≤ intAbs src flags → 2 ^ flags.bits ≤ intAbs src flags % 2 ^ 64))
  else
    (intDigits src flags = [] ∨ ¬flags.Fits (intVal src flags)) ∧
    (flags.maxDigits < (intTaken src flags).length ∨
      2 ^ flags.bits ≤ numVal ffcharTohex 16 0 (intTaken src flags))

/-! ### The digits that `ffs_toint` takes -/

theorem ffcharTooct_eq (c : UInt8) : ffcharTooct c = digitOf 8 c := by
  have h : ∀ c : Fin 256, ffcharTooct (UInt8.ofNat c) = digitOf 8 (UInt8.ofNat c) := by
    decide +kernel
  simpa using h ⟨c.toNat, c.toNat_lt⟩

theorem ffcharTodec_eq (c : UInt8) : ffcharTodec c = digitOf 10 c := by
  have h : ∀ c : Fin 256, ffcharTodec (UInt8.ofNat c) = digitOf 10 (UInt8.ofNat c) := by
    decide +kernel
  simpa using h ⟨c.toNat, c.toNat_lt⟩

/-- **`ffchar_tohex` takes two characters more than there are digits.** -/
theorem ffcharTohex_eq (c : UInt8) :
    ffcharTohex c = if c = 0x40 ∨ c = 0x60 then some 9 else digitOf 16 c := by
  have h : ∀ c : Fin 256, ffcharTohex (UInt8.ofNat c) =
      if UInt8.ofNat c = 0x40 ∨ UInt8.ofNat c = 0x60 then some 9
      else digitOf 16 (UInt8.ofNat c) := by
    decide +kernel
  simpa using h ⟨c.toNat, c.toNat_lt⟩

theorem digitOf_lt {base : ℕ} {c : UInt8} {b : ℕ} (h : digitOf base c = some b) : b < base := by
  have hlt := (filter_eq_some_iff.mp h).2
  exact of_decide_eq_true hlt

theorem ffcharTohex_of_digitOf {c : UInt8} {b : ℕ} (h : digitOf 16 c = some b) :
    ffcharTohex c = some b := by
  have hc : ¬(c = 0x40 ∨ c = 0x60) := by
    rintro (rfl | rfl)
    · exact absurd h (by decide +revert)
    · exact absurd h (by decide +revert)
  rw [ffcharTohex_eq, if_neg hc, h]

theorem ffcharTohex_lt {c : UInt8} {b : ℕ} (h : ffcharTohex c = some b) : b < 16 := by
  rw [ffcharTohex_eq] at h
  by_cases hc : c = 0x40 ∨ c = 0x60
  · rw [if_pos hc] at h
    obtain rfl : 9 = b := some.inj h
    omega
  · rw [if_neg hc] at h
    exact digitOf_lt h

/-- A digit is one for `ffs_toint` too, with the same value. -/
theorem digit_of_digitOf {flags : IntFlags} {c : UInt8} {b : ℕ}
    (h : digitOf flags.base c = some b) : flags.digit c = some b := by
  unfold IntFlags.base at h
  unfold IntFlags.digit
  cases hoct : flags.octal with
  | true =>
    rw [hoct, if_pos rfl] at h
    rw [if_pos rfl, ffcharTooct_eq, h]
  | false =>
    rw [hoct, if_neg Bool.false_ne_true] at h
    rw [if_neg Bool.false_ne_true]
    cases hhex : flags.hex with
    | true =>
      rw [hhex, if_pos rfl] at h
      rw [if_pos rfl, ffcharTohex_of_digitOf h]
    | false =>
      rw [hhex, if_neg Bool.false_ne_true] at h
      rw [if_neg Bool.false_ne_true, ffcharTodec_eq, h]

theorem digit_lt {flags : IntFlags} {c : UInt8} {b : ℕ} (h : flags.digit c = some b) :
    b < flags.base := by
  unfold IntFlags.digit at h
  unfold IntFlags.base
  cases hoct : flags.octal with
  | true =>
    rw [hoct, if_pos rfl, ffcharTooct_eq] at h
    exact digitOf_lt h
  | false =>
    rw [hoct, if_neg Bool.false_ne_true] at h
    rw [if_neg Bool.false_ne_true]
    cases hhex : flags.hex with
    | true =>
      rw [hhex, if_pos rfl] at h
      exact ffcharTohex_lt h
    | false =>
      rw [hhex, if_neg Bool.false_ne_true, ffcharTodec_eq] at h
      exact digitOf_lt h

theorem takeWhile_prefix_takeWhile {p q : UInt8 → Bool} (h : ∀ c, p c = true → q c = true)
    (s : List UInt8) : s.takeWhile p <+: s.takeWhile q := by
  induction s with
  | nil => exact prefix_rfl
  | cons c s ih =>
    cases hc : p c with
    | false =>
      rw [takeWhile_cons_of_neg (by simp [hc])]
      exact nil_prefix
    | true =>
      rw [takeWhile_cons_of_pos hc, takeWhile_cons_of_pos (h c hc)]
      exact (prefix_cons_inj c).mpr ih

/-- The digits of the text are the first that `ffs_toint` takes. -/
theorem intTaken_starts (src : List UInt8) (flags : IntFlags) :
    intDigits src flags <+: intTaken src flags := by
  refine takeWhile_prefix_takeWhile (fun c hc => ?_) _
  obtain ⟨b, hb⟩ := isSome_iff_exists.mp hc
  rw [digit_of_digitOf hb]
  rfl

/-- The value of digits is the same for `ffs_toint`. -/
theorem numVal_digits (src : List UInt8) (flags : IntFlags) :
    numVal flags.digit flags.base 0 (intDigits src flags) = intAbs src flags := by
  refine numVal_congr (fun c hc => ?_) _ _
  have hsome := mem_takeWhile_imp (p := fun c => (digitOf flags.base c).isSome) hc
  obtain ⟨b, hb⟩ := isSome_iff_exists.mp hsome
  rw [hb, digit_of_digitOf hb]

/-- **The result of `ffs_toint`** by the run of characters that it takes for digits. -/
theorem ffsToint_eq (src : List UInt8) {flags : IntFlags} (hflags : flags.Valid) :
    ffsToint src flags =
      if intTaken src flags = [] ∨ flags.maxDigits < (intTaken src flags).length ∨
          2 ^ flags.bits ≤ numVal flags.digit flags.base 0 (intTaken src flags) % 2 ^ 64 then none
      else some (intSign src flags + (intTaken src flags).length,
        (if intMinus src flags then
          (2 ^ 64 - numVal flags.digit flags.base 0 (intTaken src flags) % 2 ^ 64) % 2 ^ 64
        else numVal flags.digit flags.base 0 (intTaken src flags) % 2 ^ 64) %
          2 ^ (flags.size * 8)) := by
  have hloop : (if flags.octal then
        tointLoop ffcharTooct 8 22 (src.drop (intSign src flags)) 0 0
      else if !flags.hex then tointLoop ffcharTodec 10 20 (src.drop (intSign src flags)) 0 0
      else tointLoop ffcharTohex 16 16 (src.drop (intSign src flags)) 0 0) =
      if (intTaken src flags).length ≤ flags.maxDigits then
        some ((intTaken src flags).length,
          numVal flags.digit flags.base 0 (intTaken src flags) % 2 ^ 64)
      else none := by
    have hpos : 0 < 2 ^ 64 := Nat.two_pow_pos 64
    unfold intTaken IntFlags.digit IntFlags.maxDigits IntFlags.base
    cases hoct : flags.octal with
    | true => simp [tointLoop_eq _ (Nat.zero_le 22) hpos]
    | false =>
      cases hhex : flags.hex with
      | true => simp [tointLoop_eq _ (Nat.zero_le 16) hpos]
      | false => simp [tointLoop_eq _ (Nat.zero_le 20) hpos]
  obtain ⟨R, hR⟩ : ∃ R, R = numVal flags.digit flags.base 0 (intTaken src flags) % 2 ^ 64 :=
    ⟨_, rfl⟩
  have hover : (flags.bits ≠ 64 ∧ R / 2 ^ flags.bits ≠ 0) ↔ 2 ^ flags.bits ≤ R := by
    have hdiv : R / 2 ^ flags.bits ≠ 0 ↔ 2 ^ flags.bits ≤ R := by
      rw [ne_eq, Nat.div_eq_zero_iff_lt (Nat.two_pow_pos _), not_lt]
    rw [hdiv]
    constructor
    · rintro ⟨-, h⟩
      exact h
    · intro h
      refine ⟨?_, h⟩
      intro h64
      rw [h64] at h
      omega
  rw [← hR] at hloop ⊢
  change Option.bind (if flags.octal then
      tointLoop ffcharTooct 8 22 (src.drop (intSign src flags)) 0 0
    else if !flags.hex then tointLoop ffcharTodec 10 20 (src.drop (intSign src flags)) 0 0
    else tointLoop ffcharTohex 16 16 (src.drop (intSign src flags)) 0 0) (fun p =>
      if p.1 = 0 then none
      else if flags.bits ≠ 64 ∧ p.2 / 2 ^ flags.bits ≠ 0 then none
      else if flags.size = 8 ∨ flags.size = 4 ∨ flags.size = 2 ∨ flags.size = 1 then
        some (intSign src flags + p.1,
          (if intMinus src flags then (2 ^ 64 - p.2) % 2 ^ 64 else p.2) % 2 ^ (flags.size * 8))
      else none) = _
  have hsize : flags.size = 8 ∨ flags.size = 4 ∨ flags.size = 2 ∨ flags.size = 1 := by
    rcases hflags with h | h | h | h <;> simp [h]
  rw [hloop]
  by_cases hmax : (intTaken src flags).length ≤ flags.maxDigits
  · rw [if_pos hmax]
    change (if (intTaken src flags).length = 0 then none
      else if flags.bits ≠ 64 ∧ R / 2 ^ flags.bits ≠ 0 then none
      else if flags.size = 8 ∨ flags.size = 4 ∨ flags.size = 2 ∨ flags.size = 1 then
        some (intSign src flags + (intTaken src flags).length,
          (if intMinus src flags then (2 ^ 64 - R) % 2 ^ 64 else R) % 2 ^ (flags.size * 8))
      else none) = _
    rw [if_pos hsize]
    by_cases hnil : intTaken src flags = []
    · rw [if_pos (Or.inl hnil), hnil, length_nil, if_pos rfl]
    have hlen : (intTaken src flags).length ≠ 0 := by simpa using hnil
    rw [if_neg hlen]
    by_cases hfit : 2 ^ flags.bits ≤ R
    · rw [if_pos (hover.mpr hfit), if_pos (Or.inr (Or.inr hfit))]
    have hok : ¬(intTaken src flags = [] ∨ flags.maxDigits < (intTaken src flags).length ∨
        2 ^ flags.bits ≤ R) := by
      rintro (h | h | h)
      · exact hnil h
      · omega
      · exact hfit h
    rw [if_neg (mt hover.mp hfit), if_neg hok]
  · rw [if_neg hmax, if_pos (Or.inr (Or.inl (by omega)))]
    rfl

/-! ### Texts that are read right -/

/-- `ffstr_toint`: a number that takes all of `s`. -/
def ffstrToint (s : List UInt8) (flags : IntFlags) : Option ℕ :=
  match ffsToint s flags with
  | none => none
  | some (n, v) => if n = s.length then some v else none

/-- **A number**: digits only, and at most 20 of them; 64 bits are left of it. -/
theorem ffstrToint_u64 (s : List UInt8) :
    ffstrToint s ⟨8, false, false, false⟩ =
      if s ≠ [] ∧ (∀ c ∈ s, (digitOf 10 c).isSome = true) ∧ s.length ≤ 20 then
        some (numVal (digitOf 10) 10 0 s % 2 ^ 64)
      else none := by
  have htaken : intTaken s ⟨8, false, false, false⟩ =
      s.takeWhile fun c => (digitOf 10 c).isSome := by
    change s.takeWhile (fun c => (ffcharTodec c).isSome) = _
    simp only [ffcharTodec_eq]
  obtain ⟨w, hw⟩ : ∃ w, w = s.takeWhile fun c => (digitOf 10 c).isSome := ⟨_, rfl⟩
  have hnum : numVal ffcharTodec 10 0 w = numVal (digitOf 10) 10 0 w := numVal_congr (fun c _ => ffcharTodec_eq c) _ _
  have hdigit : IntFlags.digit ⟨8, false, false, false⟩ = ffcharTodec := rfl
  have hbase : IntFlags.base ⟨8, false, false, false⟩ = 10 := rfl
  have hmax : IntFlags.maxDigits ⟨8, false, false, false⟩ = 20 := rfl
  have hbits : IntFlags.bits ⟨8, false, false, false⟩ = 64 := rfl
  have hsign : intSign s ⟨8, false, false, false⟩ = 0 := rfl
  have hminus : intMinus s ⟨8, false, false, false⟩ = false := rfl
  have htoint := @ffsToint_eq s ⟨8, false, false, false⟩ (.inr (.inr (.inr rfl)))
  have hmod := Nat.mod_lt (numVal (digitOf 10) 10 0 w) (Nat.two_pow_pos 64)
  have hword : numVal (digitOf 10) 10 0 w % 2 ^ 64 %
      2 ^ ((⟨8, false, false, false⟩ : IntFlags).size * 8) = numVal (digitOf 10) 10 0 w % 2 ^ 64 :=
    Nat.mod_eq_of_lt hmod
  have hrefused : (w = [] ∨ 20 < w.length ∨ 2 ^ 64 ≤ numVal (digitOf 10) 10 0 w % 2 ^ 64) ↔
      ¬(w ≠ [] ∧ w.length ≤ 20) := by
    rw [not_and_or, not_not, Nat.not_le, or_iff_left (Nat.not_le.mpr hmod)]
  rw [htaken, ← hw, hdigit, hbase, hmax, hbits, hsign, hminus, hnum, Nat.zero_add,
    if_neg Bool.false_ne_true, if_congr hrefused rfl rfl, hword] at htoint
  rw [ffstrToint, htoint]
  by_cases hok : w ≠ [] ∧ w.length ≤ 20
  · rw [if_neg (not_not.mpr hok)]
    dsimp only
    by_cases hall : ∀ c ∈ s, (digitOf 10 c).isSome = true
    · -- All of `s` is taken.
      obtain rfl : w = s := hw.trans (takeWhile_eq_self_iff.mpr hall)
      rw [if_pos rfl, if_pos ⟨hok.1, hall, hok.2⟩]
    have hlen : w.length ≠ s.length := by
      intro hlen
      have hself := ( takeWhile_prefix fun c => (digitOf 10 c).isSome).eq_of_length
        (hw ▸ hlen)
      exact hall (takeWhile_eq_self_iff.mp hself)
    have hno : ¬(s ≠ [] ∧ (∀ c ∈ s, (digitOf 10 c).isSome = true) ∧ s.length ≤ 20) :=
      fun h => hall h.2.1
    rw [if_neg hlen, if_neg hno]
  · rw [if_pos hok, if_neg]
    rintro ⟨hne, hall, hlen⟩
    obtain rfl : w = s := hw.trans (takeWhile_eq_self_iff.mpr hall)
    exact hok ⟨hne, hlen⟩

/-- **Decimal digits are read** up to the first other byte, into an integer that has room for
them. -/
theorem ffsToint_dec {size : ℕ} (hsize : size = 1 ∨ size = 2 ∨ size = 4 ∨ size = 8)
    {ds rest : List UInt8} (hne : ds ≠ []) (hdig : ∀ c ∈ ds, (digitOf 10 c).isSome = true)
    (hlen : ds.length ≤ 20) (hval : numVal (digitOf 10) 10 0 ds < 2 ^ (size * 8))
    (hrest : ∀ c ∈ rest.head?, ffcharTodec c = none) :
    ffsToint (ds ++ rest) ⟨size, false, false, false⟩ =
      some (ds.length, numVal (digitOf 10) 10 0 ds) := by
  have htaken : intTaken (ds ++ rest) ⟨size, false, false, false⟩ = ds := by
    change (ds ++ rest).takeWhile (fun c => (ffcharTodec c).isSome) = ds
    rw [takeWhile_append_of_pos (fun c hc => by rw [ffcharTodec_eq]; exact hdig c hc)]
    cases rest with
    | nil => rw [takeWhile_nil, append_nil]
    | cons c rest => rw [takeWhile_cons_of_neg (by simp [hrest c rfl]), append_nil]
  have hnum : numVal ffcharTodec 10 0 ds = numVal (digitOf 10) 10 0 ds :=
    numVal_congr (fun c _ => ffcharTodec_eq c) _ _
  have hword : 2 ^ (size * 8) ≤ 2 ^ 64 := Nat.pow_le_pow_right (by decide) (by omega)
  have hmod : numVal (digitOf 10) 10 0 ds % 2 ^ 64 = numVal (digitOf 10) 10 0 ds :=
    Nat.mod_eq_of_lt (by omega)
  have hdigit : IntFlags.digit ⟨size, false, false, false⟩ = ffcharTodec := rfl
  have hbase : IntFlags.base ⟨size, false, false, false⟩ = 10 := rfl
  have hmax : IntFlags.maxDigits ⟨size, false, false, false⟩ = 20 := rfl
  have hbits : IntFlags.bits ⟨size, false, false, false⟩ = size * 8 := rfl
  have hsign : intSign (ds ++ rest) ⟨size, false, false, false⟩ = 0 := rfl
  have hminus : intMinus (ds ++ rest) ⟨size, false, false, false⟩ = false := rfl
  have hok : ¬(ds = [] ∨ 20 < ds.length ∨ 2 ^ (size * 8) ≤ numVal (digitOf 10) 10 0 ds) := by
    rintro (h | h | h)
    · exact hne h
    · omega
    · omega
  rw [@ffsToint_eq _ ⟨size, false, false, false⟩ hsize, htaken, hdigit, hbase, hmax, hbits, hsign,
    hminus, hnum, hmod, if_neg hok, Nat.zero_add, if_neg Bool.false_ne_true]
  exact congrArg (fun v => some (ds.length, v)) (Nat.mod_eq_of_lt hval)

theorem wordVal_stored {flags : IntFlags} (hflags : flags.Valid) {r : ℕ} {minus : Bool}
    (hminus : minus = true → flags.sign = true) (hr : r < 2 ^ flags.bits) :
    flags.wordVal ((if minus then (2 ^ 64 - r) % 2 ^ 64 else r) % 2 ^ (flags.size * 8)) =
      if minus then -(r : ℤ) else r := by
  obtain ⟨size, sign, hex, octal⟩ := flags
  unfold IntFlags.wordVal
  unfold IntFlags.bits at hr ⊢
  cases sign with
  | false =>
    have hfalse : minus = false := by
      cases minus with
      | false => rfl
      | true => exact absurd (hminus rfl) Bool.false_ne_true
    subst hfalse
    rcases hflags with rfl | rfl | rfl | rfl <;> simp at hr ⊢ <;> omega
  | true =>
    cases minus with
    | false => rcases hflags with rfl | rfl | rfl | rfl <;> simp at hr ⊢ <;> omega
    | true => rcases hflags with rfl | rfl | rfl | rfl <;> simp at hr ⊢ <;> omega

theorem intMinus_sign {src : List UInt8} {flags : IntFlags} (h : intMinus src flags = true) :
    flags.sign = true := (Bool.and_eq_true_iff.mp h).1

/-- **The numbers that fit**, by their absolute value. -/
theorem fits_iff (src : List UInt8) (flags : IntFlags) :
    flags.Fits (intVal src flags) ↔
      intAbs src flags < 2 ^ flags.bits ∨
        (intMinus src flags = true ∧ intAbs src flags = 2 ^ flags.bits) := by
  have hpow : ((2 ^ flags.bits : ℕ) : ℤ) = 2 ^ flags.bits := by push_cast; rfl
  unfold IntFlags.Fits intVal
  have hpos : 0 < 2 ^ flags.bits := Nat.two_pow_pos _
  rw [← hpow]
  generalize 2 ^ flags.bits = n at hpos
  generalize intAbs src flags = a
  cases hminus : intMinus src flags with
  | false =>
    rw [if_neg Bool.false_ne_true]
    simp only [Bool.false_eq_true, false_and, or_false]
    split <;> omega
  | true =>
    rw [if_pos rfl, if_pos (intMinus_sign hminus)]
    simp only [true_and]
    omega

/-- The value of the run that `ffs_toint` takes, where it is not too long. -/
theorem intTaken_lt (src : List UInt8) (flags : IntFlags) :
    numVal flags.digit flags.base 0 (intTaken src flags) <
      flags.base ^ (intTaken src flags).length := by
  refine numVal_lt ?_ (fun c b h => digit_lt h) _
  unfold IntFlags.base
  split
  · omega
  · split <;> omega

/-- Only of hexadecimal digits does `ffs_toint` take more than there are. -/
theorem intTaken_hex {src : List UInt8} {flags : IntFlags}
    (hne : intTaken src flags ≠ intDigits src flags) : flags.octal = false ∧ flags.hex = true := by
  unfold intTaken intDigits IntFlags.digit IntFlags.base at hne
  cases hoct : flags.octal with
  | true =>
    rw [hoct, if_pos rfl, if_pos rfl, funext ffcharTooct_eq] at hne
    exact absurd rfl hne
  | false =>
    cases hhex : flags.hex with
    | true => exact ⟨rfl, rfl⟩
    | false =>
      rw [hoct, hhex, if_neg Bool.false_ne_true, if_neg Bool.false_ne_true,
        if_neg Bool.false_ne_true, if_neg Bool.false_ne_true, funext ffcharTodec_eq] at hne
      exact absurd rfl hne

theorem tointExact_none {src : List UInt8} {flags : IntFlags} (h : ffsToint src flags = none) :
    TointExact src flags ↔ intDigits src flags = [] ∨ ¬flags.Fits (intVal src flags) := by
  have hinto : ∀ dst, ffsTointInto src flags dst = (0, dst) := by
    intro dst
    rw [ffsTointInto, h, getD_none]
  constructor
  · intro hexact
    by_contra hne
    obtain ⟨hnil, hfit⟩ := not_or.mp hne
    have hlen : 0 < (intDigits src flags).length := length_pos_iff.mpr hnil
    have hval := ((hexact 0 (intSign src flags + (intDigits src flags).length) (by omega)).1).mpr
      ⟨hnil, rfl, not_not.mp hfit⟩
    rw [hinto] at hval
    omega
  intro hnone dst n hn
  rw [hinto]
  refine ⟨⟨fun h0 => by omega, ?_⟩, fun h0 => by omega, fun _ => rfl⟩
  rintro ⟨hnil, -, hfit⟩
  rcases hnone with h | h
  · exact absurd h hnil
  · exact absurd hfit h

/-- The caller's view of a call that returns `m` and stores `w`. -/
theorem tointExact_some {src : List UInt8} {flags : IntFlags} {m w : ℕ} (hm : 0 < m)
    (h : ffsToint src flags = some (m, w)) :
    TointExact src flags ↔ intDigits src flags ≠ [] ∧
      intSign src flags + (intDigits src flags).length = m ∧ flags.Fits (intVal src flags) ∧
        flags.wordVal w = intVal src flags := by
  have hinto : ∀ dst, ffsTointInto src flags dst = (m, w) := by
    intro dst
    rw [ffsTointInto, h, getD_some]
  constructor
  · intro hexact
    obtain ⟨hiff, hval, -⟩ := hexact 0 m hm
    rw [hinto] at hiff hval
    obtain ⟨hnil, hlen, hfit⟩ := hiff.mp rfl
    exact ⟨hnil, hlen, hfit, hval rfl⟩
  rintro ⟨hnil, hlen, hfit, hval⟩ dst n hn
  rw [hinto]
  refine ⟨⟨fun heq => ⟨hnil, by rw [hlen, ← heq], hfit⟩, ?_⟩, fun _ => hval, fun h0 => ?_⟩
  · rintro ⟨-, hlen', -⟩
    exact hlen.symm.trans hlen'
  · change m = 0 at h0
    omega

/-- Texts of which `ffs_toint` takes the digits and no more. -/
theorem tointExact_digits {src : List UInt8} {flags : IntFlags} (hflags : flags.Valid)
    (heq : intTaken src flags = intDigits src flags) :
    TointExact src flags ↔
      (flags.maxDigits < (intDigits src flags).length → ¬flags.Fits (intVal src flags)) ∧
      ((intDigits src flags).length ≤ flags.maxDigits →
        ¬(intMinus src flags ∧ intAbs src flags = 2 ^ flags.bits) ∧
        (2 ^ 64 ≤ intAbs src flags → 2 ^ flags.bits ≤ intAbs src flags % 2 ^ 64)) := by
  have hres := ffsToint_eq src hflags
  rw [heq, numVal_digits] at hres
  have hpos : 0 < 2 ^ flags.bits := Nat.two_pow_pos _
  by_cases hnil : intDigits src flags = []
  · rw [if_pos (Or.inl hnil)] at hres
    have habs : intAbs src flags = 0 := by
      rw [intAbs, hnil]
      rfl
    rw [tointExact_none hres, habs, hnil]
    constructor
    · rintro -
      refine ⟨fun h => absurd h (Nat.not_lt_zero _), fun _ => ⟨?_, fun h => by omega⟩⟩
      rintro ⟨-, h⟩
      omega
    · intro _
      exact Or.inl rfl
  by_cases hmax : flags.maxDigits < (intDigits src flags).length
  · rw [if_pos (Or.inr (Or.inl hmax))] at hres
    rw [tointExact_none hres, or_iff_right hnil]
    exact ⟨fun h => ⟨fun _ => h, fun hle => absurd hmax (not_lt.mpr hle)⟩, fun h => h.1 hmax⟩
  by_cases hfit : 2 ^ flags.bits ≤ intAbs src flags % 2 ^ 64
  · rw [if_pos (Or.inr (Or.inr hfit))] at hres
    rw [tointExact_none hres, or_iff_right hnil, fits_iff]
    constructor
    · intro h
      exact ⟨fun hlt => absurd hlt hmax, fun _ => ⟨(not_or.mp h).2, fun _ => hfit⟩⟩
    · rintro ⟨-, h⟩ (hlt | hmin)
      · omega
      · exact (h (not_lt.mp hmax)).1 hmin
  have hok : ¬(intDigits src flags = [] ∨ flags.maxDigits < (intDigits src flags).length ∨
      2 ^ flags.bits ≤ intAbs src flags % 2 ^ 64) := by
    rintro (h | h | h)
    · exact hnil h
    · exact hmax h
    · exact hfit h
  rw [if_neg hok] at hres
  have hlen : 0 < (intDigits src flags).length := length_pos_iff.mpr hnil
  rw [tointExact_some (by omega) hres, wordVal_stored hflags intMinus_sign (not_le.mp hfit),
    fits_iff, intVal]
  constructor
  · rintro ⟨-, -, -, hval⟩
    have hlt : intAbs src flags < 2 ^ 64 := by
      have hsame : intAbs src flags % 2 ^ 64 = intAbs src flags := by
        split at hval <;> omega
      rw [← hsame]
      exact Nat.mod_lt _ (Nat.two_pow_pos 64)
    rw [Nat.mod_eq_of_lt hlt] at hfit
    refine ⟨fun h => absurd h hmax, fun _ => ⟨?_, fun h => absurd hlt (not_lt.mpr h)⟩⟩
    rintro ⟨-, hmin⟩
    exact hfit (le_of_eq hmin.symm)
  rintro ⟨-, h⟩
  have hlt : intAbs src flags < 2 ^ 64 := by
    by_contra hge
    exact hfit ((h (not_lt.mp hmax)).2 (not_lt.mp hge))
  rw [Nat.mod_eq_of_lt hlt] at hfit ⊢
  exact ⟨hnil, rfl, Or.inl (not_le.mp hfit), rfl⟩

/-- Texts of which `ffs_toint` takes more than the digits. -/
theorem tointExact_taken {src : List UInt8} {flags : IntFlags} (hflags : flags.Valid)
    (hne : intTaken src flags ≠ intDigits src flags) :
    TointExact src flags ↔
      (intDigits src flags = [] ∨ ¬flags.Fits (intVal src flags)) ∧
      (flags.maxDigits < (intTaken src flags).length ∨
        2 ^ flags.bits ≤ numVal ffcharTohex 16 0 (intTaken src flags)) := by
  obtain ⟨hoct, hhex⟩ := intTaken_hex hne
  have hbase : flags.base = 16 := by simp [IntFlags.base, hoct, hhex]
  have hdigit : flags.digit = ffcharTohex := by simp [IntFlags.digit, hoct, hhex]
  have hmax : flags.maxDigits = 16 := by simp [IntFlags.maxDigits, hoct, hhex]
  have hlt := intTaken_lt src flags
  have hres := ffsToint_eq src hflags
  rw [hbase, hdigit] at hlt hres
  rw [hmax] at hres ⊢
  have hlen : (intDigits src flags).length < (intTaken src flags).length := by
    rcases Nat.lt_or_ge (intDigits src flags).length (intTaken src flags).length with h | h
    · exact h
    · exact absurd ((intTaken_starts src flags).eq_of_length_le h).symm hne
  have hmod : (intTaken src flags).length ≤ 16 →
      numVal ffcharTohex 16 0 (intTaken src flags) % 2 ^ 64 =
        numVal ffcharTohex 16 0 (intTaken src flags) := by
    intro hle
    have hpow : 16 ^ (intTaken src flags).length ≤ 16 ^ 16 :=
      Nat.pow_le_pow_right (by omega) hle
    exact Nat.mod_eq_of_lt (by omega)
  by_cases hfail : 16 < (intTaken src flags).length ∨
      2 ^ flags.bits ≤ numVal ffcharTohex 16 0 (intTaken src flags)
  · have hnone : ffsToint src flags = none := by
      rw [hres]
      apply if_pos
      rcases Nat.lt_or_ge 16 (intTaken src flags).length with h | h
      · exact Or.inr (Or.inl h)
      · rw [hmod h]
        exact Or.inr (Or.inr (hfail.resolve_left (not_lt.mpr h)))
    rw [tointExact_none hnone, and_iff_left hfail]
  have hle : (intTaken src flags).length ≤ 16 := not_lt.mp (not_or.mp hfail).1
  have hok : ¬(intTaken src flags = [] ∨ 16 < (intTaken src flags).length ∨
      2 ^ flags.bits ≤ numVal ffcharTohex 16 0 (intTaken src flags) % 2 ^ 64) := by
    rw [hmod hle]
    rintro (h | h)
    · rw [h, length_nil] at hlen
      omega
    · exact hfail h
  rw [if_neg hok] at hres
  rw [tointExact_some (by omega) hres]
  constructor
  · rintro ⟨-, hsame, -⟩
    omega
  · rintro ⟨-, h⟩
    exact absurd h hfail

/-- **Exactly when `ffs_toint` returns the number that the text denotes.** -/
theorem ffsToint_iff (src : List UInt8) (flags : IntFlags) (hflags : flags.Valid) :
    TointExact src flags ↔ TointOk src flags := by
  unfold TointOk
  by_cases heq : intTaken src flags = intDigits src flags
  · rw [if_pos heq]
    exact tointExact_digits hflags heq
  · rw [if_neg heq]
    exact tointExact_taken hflags heq

/-- The text `-12` of an `int` is read right. -/
theorem ffsToint_iff_minus12 :
    IntFlags.Valid ⟨4, true, false, false⟩ ∧
      (TointExact [0x2d, 0x31, 0x32] ⟨4, true, false, false⟩ ↔
        TointOk [0x2d, 0x31, 0x32] ⟨4, true, false, false⟩) :=
  ⟨Or.inr (Or.inr (Or.inl rfl)), ffsToint_iff _ _ (Or.inr (Or.inr (Or.inl rfl)))⟩

/-- **A number of 65 bits is read modulo `2 ^ 64`**: the text of `2 ^ 64` as an unsigned 64-bit
number gives 0. -/
theorem ffsToint_wraps :
    ¬∀ src flags, IntFlags.Valid flags → TointExact src flags := by
  intro h
  have hval := (h (ascii "18446744073709551616") ⟨8, false, false, false⟩
    (Or.inr (Or.inr (Or.inr rfl))) 7 20 (by omega)).2.1 (by decide)
  exact absurd hval (by decide)

end FF
