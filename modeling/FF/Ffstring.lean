import FF.Number
import Mathlib.Algebra.Order.Group.Nat

/-!
# Characters and numbers as text

The functions of `ffstring` that the parsers and writers use: character classes, integers and
floating-point numbers from text, integers to text.

A `char` is a byte here; the classes below are the same for bytes above 127 as for the negative
values that these have as `char`.
-/

namespace FF

open List Option

/-! ### Characters -/

/-- `ffchar_lower` -/
def ffcharLower (ch : UInt8) : UInt8 := ch ||| 0x20

/-- `ffchar_isdigit` -/
def ffcharIsdigit (ch : UInt8) : Bool := ch ≥ 0x30 && ch ≤ 0x39

/-- `ffchar_iswhitespace` -/
def ffcharIswhitespace (ch : UInt8) : Bool := ch == 0x20 || ch == 0x09 || ch == 0x0a || ch == 0x0d

/-- `ffchar_isup` -/
def ffcharIsup (ch : UInt8) : Bool := ch ≥ 0x41 && ch ≤ 0x5a

/-- `ffchar_islow` -/
def ffcharIslow (ch : UInt8) : Bool := ch ≥ 0x61 && ch ≤ 0x7a

/-- `ffchar_isletter` -/
def ffcharIsletter (ch : UInt8) : Bool := ffcharIslow (ffcharLower ch)

/-- A letter in upper case becomes one in lower case. -/
def lowerUp (ch : UInt8) : UInt8 := if ffcharIsup ch then ffcharLower ch else ch

/-- `ffbit_testarr` -/
def ffbitTestarr (ar : List UInt32) (bit : ℕ) : Bool := (ar.getD (bit / 32) 0).toNat.testBit (bit % 32)

/-- `ffcharmask_name` -/
def ffcharmaskName : List UInt32 := [0, 0x03ff0000, 0x87fffffe, 0x07fffffe, 0, 0, 0, 0]

/-- `ffcharmask_nowhite` -/
def ffcharmaskNowhite : List UInt32 := [0, 0xfffffffe, 0xffffffff, 0x7fffffff, 0, 0, 0, 0]

/-- `ffchar_isname` -/
def ffcharIsname (ch : UInt8) : Bool := ffbitTestarr ffcharmaskName ch.toNat

/-- `ffchar_isansiwhite` -/
def ffcharIsansiwhite (ch : UInt8) : Bool := !ffbitTestarr ffcharmaskNowhite ch.toNat

/-- `ffchar_tohex`: `none` where it returns -1. -/
def ffcharTohex (ch : UInt8) : Option ℕ :=
  if ffcharIsdigit ch then some (ch.toNat - 0x30)
  else
    let b : UInt32 := (ffcharLower ch).toUInt32 - 0x61 + 10
    if b ≤ 0x0f then some b.toNat else none

/-- `ffchar_tonum` where the result is below 10. -/
def ffcharTodec (ch : UInt8) : Option ℕ :=
  let b := ch - 0x30
  if b ≥ 10 then none else some b.toNat

/-- `ffchar_tonum` where the result is below 8. -/
def ffcharTooct (ch : UInt8) : Option ℕ :=
  let b := ch - 0x30
  if b ≥ 8 then none else some b.toNat

/-- `ffHEX` -/
def ffHEX : List UInt8 :=
  [0x30, 0x31, 0x32, 0x33, 0x34, 0x35, 0x36, 0x37, 0x38, 0x39, 0x41, 0x42, 0x43, 0x44, 0x45, 0x46]

/-- `ffs_hexbyte` -/
def ffsHexbyte (b : UInt8) (hex : List UInt8) : List UInt8 :=
  [hex.getD (b >>> 4).toNat 0, hex.getD (b &&& 0x0f).toNat 0]

/-! ### Strings -/

/-- The bytes of a constant string. -/
def ascii (s : String) : List UInt8 := s.toList.map fun c => UInt8.ofNat c.toNat

/-- `ffstr_ieq` -/
def ffstrIeq (s1 s2 : List UInt8) : Bool := s1.map lowerUp == s2.map lowerUp

/-- `ffstr_imatch` -/
def ffstrImatch (s1 s2 : List UInt8) : Bool :=
  s1.length ≥ s2.length && ffstrIeq (s1.take s2.length) s2

/-- `ffs_rskipof` -/
def ffsRskipof (s anyof : List UInt8) : List UInt8 :=
  (s.reverse.dropWhile fun c => anyof.contains c).reverse

/-- `ffstr_nextval` with a character that is no whitespace and no flags: the number of bytes and
`dst`. -/
def ffstrNextval (buf : List UInt8) (spl : UInt8) : ℕ × List UInt8 :=
  let len := buf.length
  let buf := buf.dropWhile fun c => c == 0x20
  if buf = [] then (len, [])
  else
    let n := buf.findIdx fun c => c == spl
    let skipped := len - buf.length
    let shift :=
      if n = buf.length then len
      else if n + 1 = buf.length ∧ n ≠ 0 then skipped + n
      else skipped + n + 1
    (shift, ffsRskipof (buf.take n) [0x20])

/-! ### Integers from text -/

/-- The value of decimal digits -/
def decVal (ds : List UInt8) : ℕ := ds.foldl (fun n ch => n * 10 + (ch.toNat - 0x30)) 0

theorem decVal_append (ds : List UInt8) (ch : UInt8) :
    decVal (ds ++ [ch]) = decVal ds * 10 + (ch.toNat - 0x30) := foldl_append

/-- The loops of `ffs_toint`: digits up to the first other character. The number of digits and
the value as a 64-bit word; `none` where there are too many. -/
def tointLoop (digit : UInt8 → Option ℕ) (base maxDigits : ℕ) :
    List UInt8 → ℕ → ℕ → Option (ℕ × ℕ)
  | [], digits, r => some (digits, r)
  | c :: s, digits, r =>
    match digit c with
    | none => some (digits, r)
    | some b =>
      if digits = maxDigits then none
      else tointLoop digit base maxDigits s (digits + 1) ((r * base + b) % 2 ^ 64)

/-- `enum FFS_INT`: the size in bytes and the other flags. -/
structure IntFlags where
  size : ℕ
  sign : Bool
  hex : Bool
  octal : Bool
  deriving DecidableEq, Repr

/-- `ffs_toint`: the number of bytes read and the value stored, as a word of `size` bytes;
`none` where it returns 0. -/
def ffsToint (src : List UInt8) (flags : IntFlags) : Option (ℕ × ℕ) := do
  let minus := flags.sign && src.head? == some 0x2d
  let i := if flags.sign && (src.head? == some 0x2d || src.head? == some 0x2b) then 1 else 0
  let (digits, r) ← (
    if flags.octal then tointLoop ffcharTooct 8 22 (src.drop i) 0 0
    else if !flags.hex then tointLoop ffcharTodec 10 20 (src.drop i) 0 0
    else tointLoop ffcharTohex 16 16 (src.drop i) 0 0)
  let n := flags.size * 8 - (if flags.sign then 1 else 0)
  if digits = 0 then none
  else if n ≠ 64 ∧ r / 2 ^ n ≠ 0 then none
  else
    let r := if minus then (2 ^ 64 - r) % 2 ^ 64 else r
    if flags.size = 8 ∨ flags.size = 4 ∨ flags.size = 2 ∨ flags.size = 1 then
      some (i + digits, r % 2 ^ (flags.size * 8))
    else none

/-- The value of a 64-bit word as `int64`. -/
def int64 (r : ℕ) : ℤ := if r < 2 ^ 63 then r else r - 2 ^ 64

/-! ### Integers to text -/

/-- `_ffs_fromint_dec`: the decimal digits in front of `ps`. The buffer has room for 64. -/
def ffsFromintDec : ℕ → List UInt8 → ℕ → List UInt8
  | 0, ps, _ => ps
  | n + 1, ps, i =>
    let ps := UInt8.ofNat (i % 10 + 0x30) :: ps
    if i / 10 ≠ 0 then ffsFromintDec n ps (i / 10) else ps

/-- `ffs_fromint` with no other flag than `FFINT_SIGNED`: the text of the 64-bit word `i`, cut
off at `cap` bytes. -/
def ffsFromint (i : ℕ) (cap : ℕ) (signed : Bool) : List UInt8 :=
  let minus := signed && decide (int64 i < 0)
  let i := if minus then (2 ^ 64 - i) % 2 ^ 64 else i
  let ps := ffsFromintDec 64 [] i
  let dst := if minus ∧ cap ≠ 0 then [0x2d] else []
  dst ++ ps.take (cap - dst.length)

/-- `ffhex` -/
def ffhex : List UInt8 :=
  [0x30, 0x31, 0x32, 0x33, 0x34, 0x35, 0x36, 0x37, 0x38, 0x39, 0x61, 0x62, 0x63, 0x64, 0x65, 0x66]

/-- `_ffs_fromint_hex` with `FFINT_HEXLOW`: the digits in front of `ps`. -/
def ffsFromintHex : ℕ → List UInt8 → ℕ → List UInt8
  | 0, ps, _ => ps
  | n + 1, ps, i =>
    let ps := ffhex.getD (i &&& 0x0f) 0 :: ps
    if i >>> 4 ≠ 0 then ffsFromintHex n ps (i >>> 4) else ps

/-- `ffs_fromint` with `FFINT_HEXLOW` alone, cut off at `cap` bytes. -/
def ffsFromintHexlow (i : ℕ) (cap : ℕ) : List UInt8 := (ffsFromintHex 64 [] i).take cap

/-! ### Floating-point numbers from text -/

/-- The states of `ffs_tofloat`. -/
inductive FloatSt
  | minus
  | int
  | frac
  | expSign
  | exp
  deriving DecidableEq, Repr

/-- The variables of `ffs_tofloat` that decide whether and where it stops. An exponent that does
not fit into `int` is out of range here too. -/
structure FloatVars where
  st : FloatSt
  negexp : Bool
  exp : ℤ
  e : ℤ
  digits : ℕ
  deriving DecidableEq, Repr

/-- One character of a floating-point number: the next variables, and `false` for `goto proc`. -/
def tofloatChar (v : FloatVars) (ch : UInt8) : FloatVars × Bool :=
  let frac (v : FloatVars) : FloatVars × Bool :=
    if ffcharIsdigit ch then ({ v with digits := v.digits + 1, exp := v.exp - 1 }, true)
    else if ffcharLower ch ≠ 0x65 then (v, false)
    else ({ v with st := .expSign }, true)
  let int (v : FloatVars) : FloatVars × Bool :=
    if ffcharIsdigit ch then ({ v with digits := v.digits + 1 }, true)
    else if ch = 0x2e then ({ v with st := .frac }, true)
    else frac v
  let exp (v : FloatVars) : FloatVars × Bool :=
    if !ffcharIsdigit ch then (v, false)
    else ({ v with e := v.e * 10 + (ch.toNat - 0x30 : ℤ) }, true)
  match v.st with
  | .minus =>
    let v := { v with st := .int }
    if ch = 0x2d ∨ ch = 0x2b then (v, true) else int v
  | .int => int v
  | .frac => frac v
  | .expSign =>
    let v := { v with st := .exp, negexp := ch == 0x2d }
    if ch = 0x2d ∨ ch = 0x2b then (v, true) else exp v
  | .exp => exp v

/-- The loop of `ffs_tofloat`. -/
def tofloatLoop : List UInt8 → FloatVars → ℕ → FloatVars × ℕ
  | [], v, i => (v, i)
  | ch :: s, v, i =>
    match tofloatChar v ch with
    | (v, false) => (v, i)
    | (v, true) => tofloatLoop s v (i + 1)

/-- `ffs_tofloat`: the number of bytes read; `none` where it returns 0 without a value. -/
def ffsTofloat (s : List UInt8) : Option ℕ :=
  let (v, i) := tofloatLoop s ⟨.minus, false, 0, 0, 0⟩ 0
  let exp := v.exp + (if v.negexp then -v.e else v.e)
  if v.digits = 0 ∨ v.st = .expSign ∨ exp > 308 ∨ exp < -324 then none else some i

/-! ### Integers are read back -/

theorem ffcharTodec_digit {d : ℕ} (hd : d < 10) :
    ffcharTodec (UInt8.ofNat (d + 0x30)) = some d := by
  have h : ∀ d : Fin 10, ffcharTodec (UInt8.ofNat (d.val + 0x30)) = some d.val := by decide
  exact h ⟨d, hd⟩

theorem ffcharIsdigit_digit {d : ℕ} (hd : d < 10) :
    ffcharIsdigit (UInt8.ofNat (d + 0x30)) = true := by
  have h : ∀ d : Fin 10, ffcharIsdigit (UInt8.ofNat (d.val + 0x30)) = true := by decide
  exact h ⟨d, hd⟩

/-- **The digits of a number** below `base ^ m`, and what the loop of `ffs_toint` makes of them. -/
theorem digits_spec {text : ℕ → List UInt8 → ℕ → List UInt8} {digit : UInt8 → Option ℕ}
    {base maxDigits : ℕ} (hbase : 0 < base)
    (htext : ∀ n ps i, text (n + 1) ps i =
      if i / base ≠ 0 then text n (UInt8.ofNat (i % base + 0x30) :: ps) (i / base)
      else UInt8.ofNat (i % base + 0x30) :: ps)
    (hdigit : ∀ d, d < base → digit (UInt8.ofNat (d + 0x30)) = some d) {m n i : ℕ} (hm : 1 ≤ m)
    (hmn : m ≤ n) (hi : i < base ^ m) :
    ∃ ds : List UInt8, (∀ ps, text n ps i = ds ++ ps) ∧ ds ≠ [] ∧ ds.length ≤ m ∧
      (∀ c ∈ ds, ∃ d, d < base ∧ c = UInt8.ofNat (d + 0x30)) ∧
      ∀ ps digits r, digits + ds.length ≤ maxDigits →
        tointLoop digit base maxDigits (ds ++ ps) digits r =
          tointLoop digit base maxDigits ps (digits + ds.length)
            ((r * base ^ ds.length + i) % 2 ^ 64) := by
  induction n generalizing m i with
  | zero => omega
  | succ n ih =>
    have hd : i % base < base := Nat.mod_lt _ hbase
    have hlast : ∀ ps digits r, digits < maxDigits →
        tointLoop digit base maxDigits (UInt8.ofNat (i % base + 0x30) :: ps) digits r =
          tointLoop digit base maxDigits ps (digits + 1) ((r * base + i % base) % 2 ^ 64) := by
      intro ps digits r hlt
      have hne : digits ≠ maxDigits := by omega
      simp only [tointLoop, hdigit _ hd, if_neg hne]
    by_cases h0 : i / base = 0
    · refine ⟨[UInt8.ofNat (i % base + 0x30)], fun ps => ?_, by simp, by simpa using hm, ?_, ?_⟩
      · simp [htext, h0]
      · intro c hc
        exact ⟨_, hd, mem_singleton.mp hc⟩
      · intro ps digits r hlen
        rw [length_singleton] at hlen ⊢
        have hlt : i < base := ((Nat.div_eq_zero_iff).mp h0).resolve_left (by omega)
        rw [singleton_append, hlast ps digits r (by omega), pow_one, Nat.mod_eq_of_lt hlt]
    have hm2 : 2 ≤ m := by
      rcases Nat.lt_or_ge m 2 with h | h
      · obtain rfl : m = 1 := by omega
        rw [pow_one] at hi
        exact absurd (Nat.div_eq_of_lt hi) h0
      · exact h
    obtain ⟨m, rfl⟩ : ∃ m', m = m' + 1 := ⟨m - 1, by omega⟩
    have hi' : i / base < base ^ m := by
      rw [pow_succ, Nat.mul_comm] at hi
      exact Nat.div_lt_of_lt_mul hi
    obtain ⟨ds, htext', hne, hlen, hdig, hloop⟩ := ih (by omega) (by omega) hi'
    refine ⟨ds ++ [UInt8.ofNat (i % base + 0x30)], fun ps => ?_, by simp, by simpa using hlen,
      ?_, ?_⟩
    · simp [htext, h0, htext']
    · intro c hc
      rcases mem_append.mp hc with hc | hc
      · exact hdig c hc
      · exact ⟨_, hd, mem_singleton.mp hc⟩
    intro ps digits r hmax
    rw [length_append, length_singleton] at hmax ⊢
    rw [append_assoc, singleton_append, hloop _ _ _ (by omega),
      hlast ps _ _ (by omega), pow_succ base ds.length, ← Nat.mul_assoc, Nat.add_assoc]
    congr 1
    calc ((r * base ^ ds.length + i / base) % 2 ^ 64 * base + i % base) % 2 ^ 64
        = ((r * base ^ ds.length + i / base) * base + i % base) % 2 ^ 64 := by
          rw [Nat.add_mod, Nat.mul_mod, Nat.mod_mod, ← Nat.mul_mod, ← Nat.add_mod]
      _ = (r * base ^ ds.length * base + i) % 2 ^ 64 := by
          rw [Nat.add_mul, Nat.add_assoc, Nat.mul_comm (i / base), Nat.div_add_mod]

/-- The decimal digits of a number below `10 ^ m`. -/
theorem ffsFromintDec_spec {m n i : ℕ} (hm : 1 ≤ m) (hmn : m ≤ n) (hi : i < 10 ^ m) :
    ∃ ds : List UInt8, (∀ ps, ffsFromintDec n ps i = ds ++ ps) ∧ ds ≠ [] ∧ ds.length ≤ m ∧
      (∀ c ∈ ds, ffcharIsdigit c = true) ∧
      ∀ ps digits r, digits + ds.length ≤ 20 →
        tointLoop ffcharTodec 10 20 (ds ++ ps) digits r =
          tointLoop ffcharTodec 10 20 ps (digits + ds.length)
            ((r * 10 ^ ds.length + i) % 2 ^ 64) := by
  obtain ⟨ds, htext, hne, hlen, hdig, hloop⟩ := @digits_spec ffsFromintDec ffcharTodec 10 20
    (by omega) (fun _ _ _ => rfl) (fun d hd => ffcharTodec_digit hd) m n i hm hmn hi
  refine ⟨ds, htext, hne, hlen, ?_, hloop⟩
  intro c hc
  obtain ⟨d, hd, rfl⟩ := hdig c hc
  exact ffcharIsdigit_digit hd

/-- The value of hexadecimal digits behind others of value `a`. -/
def hexValue : ℕ → List UInt8 → Option ℕ
  | a, [] => some a
  | a, c :: cs => (ffcharTohex c).bind fun b => hexValue (a * 16 + b) cs

theorem hexValue_append (a : ℕ) (cs cs' : List UInt8) :
    hexValue a (cs ++ cs') = (hexValue a cs).bind fun v => hexValue v cs' := by
  induction cs generalizing a with
  | nil => rfl
  | cons c cs ih =>
    cases hc : ffcharTohex c with
    | none => simp [hexValue, hc]
    | some b => simp [hexValue, hc, ih]

theorem le_hexValue {a v : ℕ} {cs : List UInt8} (h : hexValue a cs = some v) : a ≤ v := by
  induction cs generalizing a with
  | nil =>
    obtain rfl : a = v := by simpa [hexValue] using h
    exact le_rfl
  | cons c cs ih =>
    obtain ⟨b, -, h⟩ := bind_eq_some_iff.mp h
    have hle := ih h
    omega

theorem ffcharTohex_ffhex {d : ℕ} (hd : d < 16) : ffcharTohex (ffhex.getD d 0) = some d := by
  have h : ∀ d : Fin 16, ffcharTohex (ffhex.getD d.val 0) = some d.val := by decide
  exact h ⟨d, hd⟩

/-- **The hexadecimal digits of a number have its value.** -/
theorem ffsFromintHex_spec {m n i : ℕ} (hm : 1 ≤ m) (hmn : m ≤ n) (hi : i < 16 ^ m) :
    ∃ ds : List UInt8, (∀ ps, ffsFromintHex n ps i = ds ++ ps) ∧ ds ≠ [] ∧
      hexValue 0 ds = some i := by
  induction n generalizing m i with
  | zero => omega
  | succ n ih =>
    have hand : i &&& 0x0f = i % 16 := Nat.and_two_pow_sub_one_eq_mod i 4
    have hshift : i >>> 4 = i / 16 := Nat.shiftRight_eq_div_pow i 4
    have hd : i % 16 < 16 := Nat.mod_lt _ (by omega)
    simp only [ffsFromintHex, hand, hshift]
    by_cases h0 : i / 16 = 0
    · refine ⟨[ffhex.getD (i % 16) 0], fun ps => by simp [h0], by simp, ?_⟩
      simp only [hexValue, ffcharTohex_ffhex hd, bind_some, some.injEq]
      omega
    obtain ⟨m, rfl⟩ : ∃ m', m = m' + 1 := ⟨m - 1, by omega⟩
    have hm0 : m ≠ 0 := by
      rintro rfl
      omega
    have hi' : i / 16 < 16 ^ m := by
      rw [pow_succ] at hi
      omega
    obtain ⟨ds, htext, hne, hval⟩ := ih (by omega) (by omega) hi'
    refine ⟨ds ++ [ffhex.getD (i % 16) 0], fun ps => ?_, by simp, ?_⟩
    · simp [h0, htext]
    · simp only [hexValue_append, hval, bind_some, hexValue, ffcharTohex_ffhex hd,
        some.injEq]
      omega

theorem ffsFromint_take (i : ℕ) {m : ℕ} (hlen : (ffsFromint i m true).length < m) (cap : ℕ) :
    ffsFromint i cap true = (ffsFromint i m true).take cap := by
  have hm : m ≠ 0 := by omega
  simp only [ffsFromint, Bool.true_and] at hlen ⊢
  cases hneg : decide (int64 i < 0) with
  | false =>
    simp only [hneg, Bool.false_eq_true, false_and, if_false, nil_append, length_nil,
      Nat.sub_zero, length_take] at hlen ⊢
    rw [take_of_length_le (by omega : (ffsFromintDec 64 [] i).length ≤ m)]
  | true =>
    simp only [hneg, hm, ne_eq, not_false_eq_true, and_self, if_true, true_and,
      length_append, length_singleton, length_take] at hlen ⊢
    rw [take_of_length_le (i := m - 1) (by omega)]
    cases cap with
    | zero => simp
    | succ cap => simp

theorem ffsFromint_spec {i cap : ℕ} (hi : i < 2 ^ 64) (hcap : 32 ≤ cap) :
    ∃ ds : List UInt8,
      ffsFromint i cap true = (if i < 2 ^ 63 then [] else [0x2d]) ++ ds ∧ ds ≠ [] ∧
      ds.length ≤ 19 ∧ (∀ c ∈ ds, ffcharIsdigit c = true) ∧
      tointLoop ffcharTodec 10 20 ds 0 0 =
        some (ds.length, if i < 2 ^ 63 then i else 2 ^ 64 - i) := by
  obtain ⟨a, ha⟩ : ∃ a, a = if i < 2 ^ 63 then i else 2 ^ 64 - i := ⟨_, rfl⟩
  have ha63 : a ≤ 2 ^ 63 := by
    rw [ha]
    split <;> omega
  have ha64 : a < 2 ^ 64 := by omega
  obtain ⟨ds, htext, hne, hlen, hdig, hloop⟩ :=
    ffsFromintDec_spec (m := 19) (n := 64) (by omega) (by omega) (by omega : a < 10 ^ 19)
  have htext := htext []
  have hloop := hloop [] 0 0 (by omega)
  rw [append_nil] at htext hloop
  refine ⟨ds, ?_, hne, hlen, hdig, ?_⟩
  · by_cases h : i < 2 ^ 63
    · rw [if_pos h] at ha ⊢
      have hsign : ¬int64 i < 0 := by
        rw [int64, if_pos h]
        omega
      simp only [ffsFromint, hsign, decide_false, Bool.and_false, Bool.false_eq_true, if_false,
        false_and, nil_append, length_nil, Nat.sub_zero]
      rw [← ha, htext, take_of_length_le (by omega)]
    rw [if_neg h] at ha ⊢
    have hsign : int64 i < 0 := by
      rw [int64, if_neg h]
      omega
    have hcap0 : cap ≠ 0 := by omega
    simp only [ffsFromint, hsign, decide_true, Bool.and_true, if_true, true_and, hcap0,
      ne_eq, not_false_eq_true, length_singleton]
    rw [Nat.mod_eq_of_lt (by omega), ← ha, htext, take_of_length_le (by omega)]
  · rw [hloop, ← ha, Nat.zero_mul, Nat.zero_add, Nat.zero_add, Nat.mod_eq_of_lt ha64]
    rfl

theorem length_ffsFromint {i cap : ℕ} (hi : i < 2 ^ 64) (hcap : 32 ≤ cap) :
    (ffsFromint i cap true).length ≤ 20 := by
  obtain ⟨ds, htext, -, hlen, -⟩ := ffsFromint_spec hi hcap
  rw [htext, length_append]
  split
  · rw [length_nil]
    omega
  · rw [length_singleton]
    omega

theorem ne_sign_of_isdigit {c : UInt8} (h : ffcharIsdigit c = true) : c ≠ 0x2d ∧ c ≠ 0x2b := by
  constructor <;> rintro rfl <;> exact absurd h (by decide)

/-- **An integer is read back from its text**, except for the least one, whose absolute value
does not fit. -/
theorem ffsToint_fromint {i cap : ℕ} (hi : i < 2 ^ 64) (hcap : 32 ≤ cap) :
    ffsToint (ffsFromint i cap true) ⟨8, true, false, false⟩ =
      if i = 2 ^ 63 then none else some ((ffsFromint i cap true).length, i) := by
  obtain ⟨ds, htext, hne, hlen, hdig, hloop⟩ := ffsFromint_spec hi hcap
  have hlen0 : ds.length ≠ 0 := by simpa using hne
  by_cases h : i < 2 ^ 63
  · rw [if_pos h] at hloop htext
    obtain ⟨c, cs, rfl⟩ := exists_cons_of_ne_nil hne
    obtain ⟨hc1, hc2⟩ := ne_sign_of_isdigit (hdig c mem_cons_self)
    have hmin : i ≠ 2 ^ 63 := by omega
    rw [htext, nil_append, if_neg hmin]
    simp [ffsToint, hc1, hc2, hloop]
    omega
  rw [if_neg h] at hloop htext
  rw [htext]
  by_cases hmin : i = 2 ^ 63
  · rw [if_pos hmin]
    subst hmin
    simp [ffsToint, hloop, hlen0]
  · rw [if_neg hmin]
    simp [ffsToint, hloop, hlen0]
    omega

end FF
