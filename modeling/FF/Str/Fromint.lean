import FF.Toint
import Mathlib.Data.Nat.Digits.Lemmas

/-!
# Integers to text with all flags

`ffs_fromint` writes a sign, the digits, and where they are asked for, separators or the bytes that
fill up a field. The lengths are counted apart for each of these.
-/

namespace FF

open List Option

/-! ### The function -/

/-- `enum FFINT_TOSTR`, and `FFINT_WIDTH`. -/
structure FromintFlags where
  signed : Bool := false
  hexlow : Bool := false
  hexup : Bool := false
  zerowidth : Bool := false
  sep1000 : Bool := false
  octal : Bool := false
  neg : Bool := false
  width : UInt8 := 0
  deriving DecidableEq, Repr

/-- The digits of `i` in front of `ps`. The buffer has room for 64. -/
def fromintDigits (digit : ℕ → UInt8) (base : ℕ) : ℕ → List UInt8 → ℕ → List UInt8
  | 0, ps, _ => ps
  | n + 1, ps, i =>
    if i / base ≠ 0 then fromintDigits digit base n (digit (i % base) :: ps) (i / base)
    else digit (i % base) :: ps

/-- `_ffs_fromint_oct` -/
def ffsFromintOct : ℕ → List UInt8 → ℕ → List UInt8 :=
  fromintDigits (fun d => UInt8.ofNat (d + 0x30)) 8

/-- `_ffs_fromint_hex` with the digits `phex`. -/
def ffsFromintHexOf (phex : List UInt8) : ℕ → List UInt8 → ℕ → List UInt8 :=
  fromintDigits (fun d => phex.getD d 0) 16

/-- The local `minus`. -/
def fromintMinus (i : ℕ) (f : FromintFlags) : Bool :=
  (f.signed && decide (int64 i < 0)) || f.neg

/-- The local `i` when the digits are written. -/
def fromintAbs (i : ℕ) (f : FromintFlags) : ℕ :=
  if f.signed && decide (int64 i < 0) then (2 ^ 64 - i) % 2 ^ 64 else i

/-- What `ps` points to. -/
def fromintPs (i : ℕ) (f : FromintFlags) : List UInt8 :=
  if f.octal then ffsFromintOct 64 [] (fromintAbs i f)
  else if f.hexup || f.hexlow then
    ffsFromintHexOf (if f.hexup then ffHEX else ffhex) 64 [] (fromintAbs i f)
  else ffsFromintDec 64 [] (fromintAbs i f)

/-- The loop that writes the separators, from the last digit to the first one. -/
def fromintSep : ℕ → List UInt8 → List UInt8 → List UInt8
  | _, [], dst => dst
  | _, [c], dst => c :: dst
  | k, c :: s, dst => fromintSep (k + 1) s (if k % 3 = 0 then 0x2c :: c :: dst else c :: dst)

/-- Bytes written behind `dst`; `none` if they go over the end of the buffer. -/
def fromintPut (cap : ℕ) (bs dst : List UInt8) : Option (List UInt8) :=
  if dst.length + bs.length ≤ cap then some (dst ++ bs) else none

/-- The end of `ffs_fromint`: the sign and the digits. -/
def fromintTail (cap : ℕ) (minus : Bool) (ps dst : List UInt8) : Option (ℕ × List UInt8) :=
  let dst := if minus = true ∧ dst.length ≠ cap then dst ++ [0x2d] else dst
  let dst := dst ++ ps.take (cap - dst.length)
  some (dst.length % 2 ^ 32, dst)

/-- The branch of `ffs_fromint` with separators. -/
def fromintSeps (cap : ℕ) (minus : Bool) (ps : List UInt8) (nsep : ℕ) :
    Option (ℕ × List UInt8) :=
  let dst := if minus = true ∧ cap ≠ 0 then [0x2d] else []
  if (cap - dst.length) % 2 ^ 32 ≤ ps.length + nsep - 1 then
    some ((cap - dst.length) % 2 ^ 32, dst)
  else (fromintPut cap (fromintSep 1 ps.reverse []) dst).map fun dst => (ps.length + nsep, dst)

/-- The rest of `ffs_fromint`, where the field may have to be filled up. -/
def fromintFill (cap : ℕ) (f : FromintFlags) (minus : Bool) (ps : List UInt8) :
    Option (ℕ × List UInt8) :=
  -- `n` has been counted before the sign takes a byte
  let n := min (f.width.toNat - (minus.toNat + ps.length)) cap
  if n = 0 then fromintTail cap minus ps []
  else if f.zerowidth = true ∧ minus = true then
    (fromintPut cap (0x2d :: List.replicate n 0x30) []).bind (fromintTail cap false ps)
  else
    (fromintPut cap (List.replicate n (if f.zerowidth then 0x30 else 0x20)) []).bind
      (fromintTail cap minus ps)

/-- `ffs_fromint`: the result and the bytes written; `none` if it writes over the end of the
buffer. -/
def ffsFromintFlags (i cap : ℕ) (f : FromintFlags) : Option (ℕ × List UInt8) :=
  let minus := fromintMinus i f
  let ps := fromintPs i f
  let nsep := ps.length / 3 - if ps.length % 3 = 0 then 1 else 0
  if f.sep1000 = true ∧ f.width = 0 ∧ 0 < nsep then fromintSeps cap minus ps nsep
  else fromintFill cap f minus ps

/-! ### What it is for -/

/-- The base of the digits. -/
def FromintFlags.base (f : FromintFlags) : ℕ :=
  if f.octal then 8 else if f.hexup || f.hexlow then 16 else 10

/-- The number of digits of `n`. -/
def digitCount (base n : ℕ) : ℕ := max 1 (base.digits n).length

/-- The number that is written. -/
def fromintVal (i : ℕ) (f : FromintFlags) : ℤ :=
  if fromintMinus i f then -(fromintAbs i f : ℤ) else fromintAbs i f

/-- Digits with a separator in front of each group of three. -/
def sepDigits : List UInt8 → List UInt8
  | [] => []
  | c :: cs => c :: if cs.length % 3 = 0 ∧ cs ≠ [] then 0x2c :: sepDigits cs else sepDigits cs

/-- **The whole text**: the zeros stand behind the sign, the spaces in front of it. -/
def fromintText (i : ℕ) (f : FromintFlags) : List UInt8 :=
  let sign := if fromintMinus i f then [0x2d] else []
  let ps := fromintPs i f
  let pad := f.width.toNat - (sign.length + ps.length)
  if f.sep1000 = true ∧ f.width = 0 then sign ++ sepDigits ps
  else if f.zerowidth then sign ++ (List.replicate pad 0x30 ++ ps)
  else List.replicate pad 0x20 ++ (sign ++ ps)

/-- The text stands for `v`: spaces, a sign and digits, which commas may separate. -/
def TextDenotes (base : ℕ) (text : List UInt8) (v : ℤ) : Prop :=
  ∃ (pad : ℕ) (minus : Bool) (ds : List UInt8), text.filter (· != 0x2c) =
      List.replicate pad 0x20 ++ ((if minus then [0x2d] else []) ++ ds) ∧
    ds ≠ [] ∧ (∀ c ∈ ds, (digitOf base c).isSome = true) ∧
    v = if minus then -(numVal (digitOf base) base 0 ds : ℤ) else numVal (digitOf base) base 0 ds

/-- The formats that `ffs_toint` knows. -/
def FromintFlags.Plain (f : FromintFlags) : Prop :=
  f.width = 0 ∧ f.sep1000 = false ∧ f.neg = false

/-- The flags for `ffs_toint`. -/
def FromintFlags.toint (f : FromintFlags) : IntFlags :=
  ⟨8, f.signed, f.hexup || f.hexlow, f.octal⟩

/-- **What a caller relies on**: nothing is written over the end of the buffer, the result is the
number of bytes written, and where there is room for the whole text, it is written, stands for the
value, and is read back by `ffs_toint` if the format is a plain one. -/
def FromintOk (i cap : ℕ) (f : FromintFlags) : Prop :=
  ∃ text, ffsFromintFlags i cap f = some (text.length, text) ∧ text.length ≤ cap ∧
    ((fromintText i f).length ≤ cap → text = fromintText i f ∧
      TextDenotes f.base text (fromintVal i f) ∧
      (f.Plain → ffsToint text f.toint = some (text.length, i)))

/-- The size of the whole text. -/
def fromintSize (i : ℕ) (f : FromintFlags) : ℕ :=
  let len := digitCount f.base (fromintAbs i f)
  if f.sep1000 = true ∧ f.width = 0 then (fromintMinus i f).toNat + (len + (len - 1) / 3)
  else max f.width.toNat ((fromintMinus i f).toNat + len)

/-- **The condition.** With separators, a sign is not counted, and lack of room is right only where
there is no room at all; with zeros behind a sign, there must be room for more than the zeros; and
`ffs_toint` does not read the least signed number. -/
def FromintFits (i cap : ℕ) (f : FromintFlags) : Prop :=
  let len := digitCount f.base (fromintAbs i f)
  if f.sep1000 = true ∧ f.width = 0 ∧ 3 < len then
    if fromintMinus i f then cap = 0 ∨ cap = 2
    else cap = 0 ∨ fromintSize i f ≤ cap % 2 ^ 32
  else
    (f.zerowidth = true → fromintMinus i f = true → 1 + len < f.width.toNat → 0 < cap →
      f.width.toNat - (1 + len) < cap) ∧
    (f.Plain → f.signed = true → i = 2 ^ 63 → cap < fromintSize i f)

/-! ### Digits -/

theorem digitCount_div {base n : ℕ} (hbase : 1 < base) (hn : n / base ≠ 0) :
    digitCount base n = digitCount base (n / base) + 1 := by
  have hpos : 0 < n := Nat.pos_of_ne_zero fun h0 => hn (by rw [h0, Nat.zero_div])
  have hmore : 0 < (base.digits (n / base)).length :=
    length_pos_iff.mpr (Nat.digits_ne_nil_iff_ne_zero.mpr hn)
  rw [digitCount, digitCount, Nat.digits_def' hbase hpos, length_cons]
  omega

theorem digitCount_one {base n : ℕ} (hbase : 1 < base) (hn : n / base = 0) :
    digitCount base n = 1 := by
  have hlt : n < base ^ 1 := by
    rw [pow_one]
    exact ((Nat.div_eq_zero_iff).mp hn).resolve_left (by omega)
  exact Nat.max_eq_left ((Nat.digits_length_le_iff hbase n).mpr hlt)

theorem digitCount_le {base n m : ℕ} (hbase : 1 < base) (hm : 1 ≤ m) (hn : n < base ^ m) :
    digitCount base n ≤ m :=
  max_le hm ((Nat.digits_length_le_iff hbase n).mpr hn)

/-- **The digits of a number**: how many they are and what they stand for. -/
theorem fromintDigits_spec {digit : ℕ → UInt8} {base : ℕ} (hbase : 1 < base)
    (hdigit : ∀ d < base, digitOf base (digit d) = some d) {m n i : ℕ} (hm : 1 ≤ m) (hmn : m ≤ n)
    (hi : i < base ^ m) :
    ∃ ds, (∀ ps, fromintDigits digit base n ps i = ds ++ ps) ∧
      ds.length = digitCount base i ∧ (∀ c ∈ ds, (digitOf base c).isSome = true) ∧
      numVal (digitOf base) base 0 ds = i := by
  induction n generalizing m i with
  | zero => omega
  | succ n ih =>
    have hlast := hdigit (i % base) (Nat.mod_lt _ (by omega))
    have hsome : ∀ c ∈ [digit (i % base)], (digitOf base c).isSome = true := by
      intro c hc
      rw [mem_singleton.mp hc, hlast, isSome_some]
    by_cases h0 : i / base = 0
    · have hlt : i % base = i :=
        Nat.mod_eq_of_lt (((Nat.div_eq_zero_iff).mp h0).resolve_left (by omega))
      refine ⟨[digit (i % base)], fun ps => ?_, ?_, hsome, ?_⟩
      · rw [fromintDigits, if_neg (not_not.mpr h0), singleton_append]
      · rw [digitCount_one hbase h0, length_singleton]
      · rw [numVal_cons, numVal, foldl_nil, hlast, getD_some, hlt, Nat.zero_mul,
          Nat.zero_add]
    obtain ⟨m, rfl⟩ : ∃ m', m = m' + 1 := ⟨m - 1, by omega⟩
    have hm0 : m ≠ 0 := by
      rintro rfl
      rw [Nat.zero_add, pow_one] at hi
      exact h0 (Nat.div_eq_of_lt hi)
    have hdiv : i / base < base ^ m := by
      rw [pow_succ] at hi
      exact Nat.div_lt_of_lt_mul (by rwa [Nat.mul_comm] at hi)
    obtain ⟨ds, htext, hlen, hdig, hval⟩ := ih (by omega) (by omega) hdiv
    refine ⟨ds ++ [digit (i % base)], fun ps => ?_, ?_, ?_, ?_⟩
    · rw [fromintDigits, if_pos h0, htext, append_assoc, singleton_append]
    · rw [length_append, hlen, digitCount_div hbase h0, length_singleton]
    · intro c hc
      rcases mem_append.mp hc with hc | hc
      · exact hdig c hc
      · exact hsome c hc
    · rw [numVal_append, hval, numVal_cons, numVal, foldl_nil, hlast, getD_some,
        Nat.div_add_mod']

theorem ffsFromintDec_eq (n : ℕ) (ps : List UInt8) (i : ℕ) :
    ffsFromintDec n ps i = fromintDigits (fun d => UInt8.ofNat (d + 0x30)) 10 n ps i := by
  induction n generalizing ps i with
  | zero => rfl
  | succ n ih =>
    rw [ffsFromintDec, fromintDigits]
    simp only [ih]

theorem ffsFromintHex_eq (n : ℕ) (ps : List UInt8) (i : ℕ) :
    ffsFromintHex n ps i = ffsFromintHexOf ffhex n ps i := by
  induction n generalizing ps i with
  | zero => rfl
  | succ n ih =>
    have hand : i &&& 0x0f = i % 16 := Nat.and_two_pow_sub_one_eq_mod i 4
    have hshift : i >>> 4 = i / 16 := Nat.shiftRight_eq_div_pow i 4
    rw [ffsFromintHexOf] at ih ⊢
    rw [ffsFromintHex, fromintDigits]
    simp only [ih, hand, hshift]

section Fromint

variable {i cap : ℕ} {f : FromintFlags}

theorem fromintAbs_lt (hi : i < 2 ^ 64) (f : FromintFlags) : fromintAbs i f < 2 ^ 64 := by
  rw [fromintAbs]
  split
  · exact Nat.mod_lt _ (Nat.two_pow_pos 64)
  · exact hi

/-- **The digits that `ps` points to.** -/
theorem fromintPs_spec (hi : i < 2 ^ 64) (f : FromintFlags) :
    (fromintPs i f).length = digitCount f.base (fromintAbs i f) ∧
      (∀ c ∈ fromintPs i f, (digitOf f.base c).isSome = true) ∧
      numVal (digitOf f.base) f.base 0 (fromintPs i f) = fromintAbs i f ∧
      (fromintPs i f).length ≤ f.toint.maxDigits := by
  have habs := fromintAbs_lt hi f
  have hread : ∀ (digit : ℕ → UInt8) (base m : ℕ), 1 < base →
      (∀ d < base, digitOf base (digit d) = some d) → 1 ≤ m → m ≤ 64 →
      fromintAbs i f < base ^ m →
      (fromintDigits digit base 64 [] (fromintAbs i f)).length =
          digitCount base (fromintAbs i f) ∧
        (∀ c ∈ fromintDigits digit base 64 [] (fromintAbs i f),
          (digitOf base c).isSome = true) ∧
        numVal (digitOf base) base 0 (fromintDigits digit base 64 [] (fromintAbs i f)) =
          fromintAbs i f ∧
        (fromintDigits digit base 64 [] (fromintAbs i f)).length ≤ m := by
    intro digit base m hbase hdigit hm hm64 hlt
    obtain ⟨ds, htext, hlen, hdig, hval⟩ := fromintDigits_spec hbase hdigit hm hm64 hlt
    rw [htext, append_nil]
    exact ⟨hlen, hdig, hval, hlen ▸ digitCount_le hbase hm hlt⟩
  cases hoct : f.octal with
  | true =>
    have h := hread (fun d => UInt8.ofNat (d + 0x30)) 8 22 (by decide) (by decide)
      (by decide) (by decide) (by omega)
    simpa [fromintPs, FromintFlags.base, FromintFlags.toint, IntFlags.maxDigits, hoct,
      ffsFromintOct] using h
  | false =>
    cases hhex : f.hexup || f.hexlow with
    | true =>
      have hdigit : ∀ d < 16,
          digitOf 16 ((if f.hexup then ffHEX else ffhex).getD d 0) = some d := by
        cases f.hexup with
        | true => decide
        | false => decide
      have h := hread (fun d => (if f.hexup then ffHEX else ffhex).getD d 0) 16 16 (by decide)
        hdigit (by decide) (by decide) (by omega)
      rw [fromintPs, FromintFlags.base, FromintFlags.toint, IntFlags.maxDigits, hoct, hhex,
        ffsFromintHexOf]
      exact h
    | false =>
      have h := hread (fun d => UInt8.ofNat (d + 0x30)) 10 20 (by decide) (by decide)
        (by decide) (by decide) (by omega)
      rw [fromintPs, FromintFlags.base, FromintFlags.toint, IntFlags.maxDigits, hoct, hhex,
        ffsFromintDec_eq]
      exact h

theorem fromintPs_ne_nil (hi : i < 2 ^ 64) (f : FromintFlags) : fromintPs i f ≠ [] := by
  have hlen := (fromintPs_spec hi f).1
  rw [digitCount] at hlen
  exact length_pos_iff.mp (by omega)

theorem digitOf_ne {base : ℕ} {c : UInt8} (hc : (digitOf base c).isSome = true) :
    c ≠ 0x2d ∧ c ≠ 0x2b ∧ c ≠ 0x2c := by
  refine ⟨?_, ?_, ?_⟩
  · rintro rfl
    exact absurd hc (by simp [digitOf])
  · rintro rfl
    exact absurd hc (by simp [digitOf])
  · rintro rfl
    exact absurd hc (by simp [digitOf])

theorem int64_neg (hi : i < 2 ^ 64) : int64 i < 0 ↔ 2 ^ 63 ≤ i := by
  rw [int64]
  split
  · omega
  · omega

theorem toint_base (f : FromintFlags) : f.toint.base = f.base := rfl

/-- **`ffs_toint` reads it back**, but for the least signed number. -/
theorem ffsToint_fromintPs (hi : i < 2 ^ 64) (hneg : f.neg = false) :
    ffsToint ((if fromintMinus i f then [0x2d] else []) ++ fromintPs i f) f.toint =
      if f.signed = true ∧ i = 2 ^ 63 then none
      else some (((if fromintMinus i f then [0x2d] else []) ++ fromintPs i f).length, i) := by
  obtain ⟨-, hdig, hval, hmax⟩ := fromintPs_spec hi f
  have hne := fromintPs_ne_nil hi f
  have hminus : fromintMinus i f = true ↔ f.signed = true ∧ 2 ^ 63 ≤ i := by
    rw [fromintMinus, hneg, Bool.or_false, Bool.and_eq_true, decide_eq_true_iff, int64_neg hi]
  have habsval : fromintAbs i f = if fromintMinus i f then (2 ^ 64 - i) % 2 ^ 64 else i := by
    rw [fromintAbs, fromintMinus, hneg, Bool.or_false]
  obtain ⟨ds, hds⟩ : ∃ ds, ds = fromintPs i f := ⟨_, rfl⟩
  rw [← hds] at hdig hval hmax hne ⊢
  obtain ⟨c, cs, hcons⟩ := exists_cons_of_ne_nil hne
  have hc := digitOf_ne (hdig c (hcons ▸ mem_cons_self))
  have htaken : ds.takeWhile (fun c => (f.toint.digit c).isSome) = ds := by
    refine takeWhile_eq_self_iff.mpr fun c hc => ?_
    obtain ⟨b, hb⟩ := isSome_iff_exists.mp (hdig c hc)
    rw [digit_of_digitOf (toint_base f ▸ hb), isSome_some]
  have hnum : numVal f.toint.digit f.base 0 ds = fromintAbs i f := by
    rw [← hval]
    refine numVal_congr (fun c hc => ?_) _ _
    obtain ⟨b, hb⟩ := isSome_iff_exists.mp (hdig c hc)
    rw [hb, digit_of_digitOf (toint_base f ▸ hb)]
  have hbits : f.toint.bits = if f.signed then 63 else 64 := by
    rw [IntFlags.bits, FromintFlags.toint]
    split <;> rfl
  rw [ffsToint_eq _ (Or.inr (Or.inr (Or.inr rfl))), toint_base, hbits]
  cases hm : fromintMinus i f with
  | true =>
    obtain ⟨hsig, hge⟩ := hminus.mp hm
    have hsign : intSign ([0x2d] ++ ds) f.toint = 1 := by
      simp [intSign, FromintFlags.toint, hsig]
    have hmin : intMinus ([0x2d] ++ ds) f.toint = true := by
      simp [intMinus, FromintFlags.toint, hsig]
    have htake : intTaken ([0x2d] ++ ds) f.toint = ds := by
      rw [intTaken, hsign]
      exact htaken
    rw [if_pos rfl, htake, hsign, hmin, hnum, habsval, hm, if_pos rfl, if_pos rfl, hsig,
      if_pos rfl, length_append, length_singleton]
    by_cases hleast : i = 2 ^ 63
    · rw [if_pos (.inr (.inr (by omega))), if_pos ⟨rfl, hleast⟩]
    have hok : ¬(ds = [] ∨ f.toint.maxDigits < ds.length ∨
        2 ^ 63 ≤ (2 ^ 64 - i) % 2 ^ 64 % 2 ^ 64) := by
      rintro (h | h | h)
      · exact hne h
      · omega
      · omega
    have hword : (2 ^ 64 - (2 ^ 64 - i) % 2 ^ 64 % 2 ^ 64) % 2 ^ 64 %
        2 ^ (f.toint.size * 8) = i := by
      change _ % 2 ^ 64 = i
      omega
    rw [if_neg hok, hword, if_neg fun h => hleast h.2]
  | false =>
    have hlow : ¬(f.signed = true ∧ 2 ^ 63 ≤ i) := fun h => by
      rw [hminus.mpr h] at hm
      exact absurd hm (by decide)
    have hhead : (ds.head? == some 0x2d) = false ∧ (ds.head? == some 0x2b) = false := by
      rw [hcons, head?_cons]
      simp [hc.1, hc.2.1]
    have hsign : intSign ds f.toint = 0 := by
      simp [intSign, hhead]
    have hmin : intMinus ds f.toint = false := by
      simp [intMinus, hhead]
    have htake : intTaken ds f.toint = ds := by
      rw [intTaken, hsign]
      exact htaken
    rw [if_neg Bool.false_ne_true, nil_append, htake, hsign, hmin, hnum, habsval, hm,
      if_neg Bool.false_ne_true, if_neg Bool.false_ne_true, Nat.zero_add]
    have hok : ¬(ds = [] ∨ f.toint.maxDigits < ds.length ∨
        2 ^ (if f.signed = true then 63 else 64) ≤ i % 2 ^ 64) := by
      rintro (h | h | h)
      · exact hne h
      · omega
      · split at h
        · next hsig => exact hlow ⟨hsig, by omega⟩
        · omega
    have hword : i % 2 ^ 64 % 2 ^ (f.toint.size * 8) = i := by
      change i % 2 ^ 64 % 2 ^ 64 = i
      omega
    rw [if_neg hok, hword, if_neg fun h => hlow ⟨h.1, h.2.ge⟩]

end Fromint

/-! ### Separators -/

theorem sepDigits_cons (c : UInt8) (cs : List UInt8) :
    sepDigits (c :: cs) =
      c :: if cs.length % 3 = 0 ∧ cs ≠ [] then 0x2c :: sepDigits cs else sepDigits cs := rfl

/-- **The loop goes backwards**: `cs` has been written, with a separator if one is due. -/
theorem fromintSep_eq (s cs : List UInt8) (hs : s ≠ []) :
    fromintSep (cs.length + 1) s
        (if cs.length % 3 = 0 ∧ cs ≠ [] then 0x2c :: sepDigits cs else sepDigits cs) =
      sepDigits (s.reverse ++ cs) := by
  induction s generalizing cs with
  | nil => exact absurd rfl hs
  | cons c s ih =>
    rw [reverse_cons, append_assoc, singleton_append]
    cases s with
    | nil => rw [reverse_nil, nil_append, sepDigits_cons, fromintSep]
    | cons c' s =>
      have hnext : (c :: cs).length % 3 = 0 ∧ c :: cs ≠ [] ↔ (cs.length + 1) % 3 = 0 :=
        and_iff_left (cons_ne_nil c cs)
      rw [← ih (c :: cs) (cons_ne_nil _ _), if_congr hnext rfl rfl, sepDigits_cons, fromintSep]
      · rfl
      · exact cons_ne_nil c' s

theorem length_sepDigits (ds : List UInt8) :
    (sepDigits ds).length = ds.length + (ds.length - 1) / 3 := by
  induction ds with
  | nil => rfl
  | cons c cs ih =>
    rw [sepDigits_cons, length_cons, length_cons]
    by_cases hsep : cs.length % 3 = 0 ∧ cs ≠ []
    · have hpos : 0 < cs.length := length_pos_iff.mpr hsep.2
      rw [if_pos hsep, length_cons, ih]
      omega
    · rw [if_neg hsep, ih]
      rcases Nat.eq_zero_or_pos cs.length with h0 | hpos
      · rw [h0]
      · have hmod : cs.length % 3 ≠ 0 := fun h => hsep ⟨h, length_pos_iff.mp hpos⟩
        omega

theorem filter_sepDigits {ds : List UInt8} (hds : ∀ c ∈ ds, c ≠ 0x2c) :
    (sepDigits ds).filter (· != 0x2c) = ds := by
  induction ds with
  | nil => rfl
  | cons c cs ih =>
    have hcs := ih fun c hc => hds c (mem_cons_of_mem _ hc)
    have hc : (fun x : UInt8 => x != 0x2c) c = true :=
      bne_iff_ne.mpr (hds c mem_cons_self)
    rw [sepDigits_cons, filter_cons, if_pos hc]
    split
    · rw [filter_cons, if_neg (by decide), hcs]
    · rw [hcs]

theorem sepDigits_short {ds : List UInt8} (hlen : ds.length ≤ 3) : sepDigits ds = ds := by
  induction ds with
  | nil => rfl
  | cons c cs ih =>
    rw [length_cons] at hlen
    have hnone : ¬(cs.length % 3 = 0 ∧ cs ≠ []) := by
      rintro ⟨hmod, hne⟩
      have hpos : 0 < cs.length := length_pos_iff.mpr hne
      omega
    rw [sepDigits_cons, if_neg hnone, ih (by omega)]

/-- **The branch with separators**: a sign is written, but not counted. -/
theorem fromintSeps_eq {ps : List UInt8} {nsep : ℕ} (cap : ℕ) (minus : Bool) (hps : ps ≠ [])
    (hnsep : nsep = (ps.length - 1) / 3) :
    fromintSeps cap minus ps nsep =
      let dst := if minus = true ∧ cap ≠ 0 then [0x2d] else []
      if (cap - dst.length) % 2 ^ 32 ≤ ps.length + nsep - 1 then
        some ((cap - dst.length) % 2 ^ 32, dst)
      else some (ps.length + nsep, dst ++ sepDigits ps) := by
  have hloop := fromintSep_eq ps.reverse [] (mt reverse_eq_nil_iff.mp hps)
  rw [reverse_reverse, append_nil] at hloop
  have hsep : fromintSep 1 ps.reverse [] = sepDigits ps := hloop
  obtain ⟨dst, hdst⟩ : ∃ dst : List UInt8,
      dst = if minus = true ∧ cap ≠ 0 then [0x2d] else [] := ⟨_, rfl⟩
  rw [fromintSeps, hsep, ← hdst]
  by_cases hroom : (cap - dst.length) % 2 ^ 32 ≤ ps.length + nsep - 1
  · simp only [if_pos hroom]
  · have hmod : (cap - dst.length) % 2 ^ 32 ≤ cap - dst.length := Nat.mod_le _ _
    have hput : dst.length + (sepDigits ps).length ≤ cap := by
      rw [length_sepDigits, ← hnsep]
      omega
    simp only [if_neg hroom, fromintPut, if_pos hput, map_some]

/-! ### The rest of the text -/

section Tail

variable {i cap : ℕ} {f : FromintFlags}

/-- **The sign and the digits** are cut off at the end of the buffer. -/
theorem fromintTail_eq (minus : Bool) (ps : List UInt8) {dst : List UInt8}
    (hdst : dst.length ≤ cap)
    (hsmall : (dst ++ ((if minus then [0x2d] else []) ++ ps)).length < 2 ^ 32) :
    fromintTail cap minus ps dst =
      some (((dst ++ ((if minus then [0x2d] else []) ++ ps)).take cap).length,
        (dst ++ ((if minus then [0x2d] else []) ++ ps)).take cap) := by
  have htext : (let dst := if minus = true ∧ dst.length ≠ cap then dst ++ [0x2d] else dst
      dst ++ ps.take (cap - dst.length)) =
      (dst ++ ((if minus then [0x2d] else []) ++ ps)).take cap := by
    rw [take_append, take_of_length_le hdst]
    by_cases hminus : minus = true ∧ dst.length ≠ cap
    · have hone : ([0x2d] : List UInt8).length ≤ cap - dst.length := by
        rw [length_singleton]
        omega
      rw [if_pos hminus, if_pos hminus.1, take_append, take_of_length_le hone,
        append_assoc, length_append, Nat.sub_add_eq]
    · rw [if_neg hminus]
      by_cases hm : minus = true
      · have hfull : dst.length = cap := by_contra fun h => hminus ⟨hm, h⟩
        simp only [hfull, Nat.sub_self, take_zero]
      · rw [if_neg hm, nil_append]
  have hlen : ((dst ++ ((if minus then [0x2d] else []) ++ ps)).take cap).length < 2 ^ 32 := by
    rw [length_take]
    omega
  rw [← Nat.mod_eq_of_lt hlen, ← htext]
  rfl

theorem take_fill (pad cap : ℕ) (c : UInt8) (s : List UInt8) :
    (List.replicate (min pad cap) c ++ s).take cap = (List.replicate pad c ++ s).take cap := by
  rw [take_append, take_append, take_replicate, take_replicate, length_replicate, length_replicate,
    Nat.min_comm pad cap, ← Nat.min_assoc, Nat.min_self]
  rcases Nat.le_total pad cap with h | h
  · rw [Nat.min_eq_right h]
  · rw [Nat.min_eq_left h, Nat.sub_self, Nat.sub_eq_zero_of_le h]

theorem length_fromintText (hi : i < 2 ^ 64) (f : FromintFlags) :
    (fromintText i f).length = fromintSize i f := by
  have hlen := (fromintPs_spec hi f).1
  have hsign : (if fromintMinus i f = true then [(0x2d : UInt8)] else []).length =
      (fromintMinus i f).toNat := by
    cases fromintMinus i f <;> rfl
  rw [fromintText, fromintSize, ← hlen]
  by_cases hsep : f.sep1000 = true ∧ f.width = 0
  · simp only [if_pos hsep, length_append, length_sepDigits, hsign]
  simp only [if_neg hsep]
  split
  · rw [length_append, length_append, length_replicate, hsign]
    omega
  · rw [length_append, length_append, length_replicate, hsign]
    omega

theorem fromintSize_lt (hi : i < 2 ^ 64) (f : FromintFlags) : fromintSize i f < 2 ^ 32 := by
  obtain ⟨hlen, -, -, hmax⟩ := fromintPs_spec hi f
  have hmax22 : f.toint.maxDigits ≤ 22 := by
    rw [IntFlags.maxDigits]
    split
    · exact le_rfl
    · split <;> decide
  have hwidth := f.width.toNat_lt
  have hbool := (fromintMinus i f).toNat_le
  rw [fromintSize, ← hlen]
  split
  · omega
  · omega

theorem fromintText_fill
    (hsep : ¬(f.sep1000 = true ∧ f.width = 0 ∧ 3 < (fromintPs i f).length)) :
    fromintText i f =
      let pad := f.width.toNat - ((fromintMinus i f).toNat + (fromintPs i f).length)
      if f.zerowidth = true ∧ fromintMinus i f = true then
        (0x2d :: List.replicate pad 0x30) ++ fromintPs i f
      else List.replicate pad (if f.zerowidth then 0x30 else 0x20) ++
        ((if fromintMinus i f then [0x2d] else []) ++ fromintPs i f) := by
  have hsign : (if fromintMinus i f = true then [(0x2d : UInt8)] else []).length =
      (fromintMinus i f).toNat := by
    cases fromintMinus i f <;> rfl
  rw [fromintText, hsign]
  by_cases hw : f.sep1000 = true ∧ f.width = 0
  · have hpad : f.width.toNat - ((fromintMinus i f).toNat + (fromintPs i f).length) = 0 := by
      rw [hw.2]
      exact Nat.zero_sub _
    have hshort : (fromintPs i f).length ≤ 3 := by
      by_contra hlong
      exact hsep ⟨hw.1, hw.2, not_le.mp hlong⟩
    simp only [if_pos hw, hpad, sepDigits_short hshort, replicate_zero, nil_append]
    cases f.zerowidth with
    | false => simp
    | true => cases fromintMinus i f <;> simp
  · simp only [if_neg hw]
    cases f.zerowidth with
    | false => simp
    | true => cases fromintMinus i f <;> simp

theorem nsep_eq (len : ℕ) :
    (len / 3 - if len % 3 = 0 then 1 else 0) = (len - 1) / 3 := by
  split
  · omega
  · omega

/-- Zeros behind a sign that fill up the buffer. -/
def FromintOver (i cap : ℕ) (f : FromintFlags) : Prop :=
  f.zerowidth = true ∧ fromintMinus i f = true ∧ 1 + (fromintPs i f).length < f.width.toNat ∧
    0 < cap ∧ cap ≤ f.width.toNat - (1 + (fromintPs i f).length)

theorem ffsFromintFlags_nosep
    (hsep : ¬(f.sep1000 = true ∧ f.width = 0 ∧ 3 < (fromintPs i f).length)) :
    ffsFromintFlags i cap f = fromintFill cap f (fromintMinus i f) (fromintPs i f) := by
  rw [ffsFromintFlags]
  refine if_neg ?_
  rw [nsep_eq]
  rintro ⟨h1, h2, h3⟩
  exact hsep ⟨h1, h2, by omega⟩

/-- **Zeros behind a sign** go over the end of a buffer that they fill up. -/
theorem fromintFill_over (hover : FromintOver i cap f) :
    fromintFill cap f (fromintMinus i f) (fromintPs i f) = none := by
  obtain ⟨hz, hm, hw, hpos, hle⟩ := hover
  have hlong : ¬([] : List UInt8).length + (0x2d :: List.replicate cap (0x30 : UInt8)).length ≤
      cap := by
    rw [length_cons, length_replicate, length_nil]
    omega
  rw [fromintFill, hm, Bool.toNat_true, Nat.min_eq_right hle, hz]
  simp only [if_neg (Nat.pos_iff_ne_zero.mp hpos), and_self, if_true]
  rw [fromintPut, if_neg hlong, Option.bind_none]

theorem fromintFill_zeros (hover : ¬FromintOver i cap f)
    (hzero : f.zerowidth = true ∧ fromintMinus i f = true)
    (hfill : min (f.width.toNat - ((fromintMinus i f).toNat + (fromintPs i f).length)) cap ≠ 0)
    {pad : ℕ} (hpad : pad = f.width.toNat - ((fromintMinus i f).toNat + (fromintPs i f).length))
    (hsize : ((0x2d :: List.replicate pad 0x30) ++ fromintPs i f).length < 2 ^ 32) :
    fromintFill cap f (fromintMinus i f) (fromintPs i f) =
      some ((((0x2d :: List.replicate pad 0x30) ++ fromintPs i f).take cap).length,
        ((0x2d :: List.replicate pad 0x30) ++ fromintPs i f).take cap) := by
  have hlt : pad < cap := by
    by_contra hle
    rw [← hpad] at hfill
    rw [hzero.2, Bool.toNat_true] at hpad
    exact hover ⟨hzero.1, hzero.2, by omega, by omega, by omega⟩
  have hdst : ((0x2d : UInt8) :: List.replicate pad 0x30).length ≤ cap := by
    rw [length_cons, length_replicate]
    omega
  rw [← hpad, Nat.min_eq_left hlt.le] at hfill
  rw [fromintFill, ← hpad, Nat.min_eq_left hlt.le]
  simp only [if_neg hfill, if_pos hzero]
  rw [fromintPut, length_nil, Nat.zero_add, if_pos hdst, bind_some, nil_append,
    fromintTail_eq false _ hdst (by simpa using hsize)]
  rfl

theorem fromintFill_pad (hzero : ¬(f.zerowidth = true ∧ fromintMinus i f = true))
    {pad : ℕ} (hpad : pad = f.width.toNat - ((fromintMinus i f).toNat + (fromintPs i f).length))
    {fill : UInt8} (hfill : fill = if f.zerowidth then 0x30 else 0x20)
    (hsize : (List.replicate pad fill ++
      ((if fromintMinus i f then [0x2d] else []) ++ fromintPs i f)).length < 2 ^ 32) :
    fromintFill cap f (fromintMinus i f) (fromintPs i f) =
      some (((List.replicate pad fill ++
          ((if fromintMinus i f then [0x2d] else []) ++ fromintPs i f)).take cap).length,
        (List.replicate pad fill ++
          ((if fromintMinus i f then [0x2d] else []) ++ fromintPs i f)).take cap) := by
  have hdst : (List.replicate (min pad cap) fill).length ≤ cap := by
    rw [length_replicate]
    exact Nat.min_le_right _ _
  have hsmall : (List.replicate (min pad cap) fill ++
      ((if fromintMinus i f then [0x2d] else []) ++ fromintPs i f)).length < 2 ^ 32 := by
    rw [length_append, length_replicate] at hsize ⊢
    omega
  have htail := fromintTail_eq (fromintMinus i f) (fromintPs i f) hdst hsmall
  rw [take_fill] at htail
  rw [fromintFill, ← hpad, ← hfill]
  by_cases hn : min pad cap = 0
  · simp only [if_pos hn]
    rw [← htail, hn]
    rfl
  · simp only [if_neg hn, if_neg hzero]
    rw [fromintPut, length_nil, Nat.zero_add, if_pos hdst, bind_some, nil_append, htail]

/-- **Without separators**, what is written is the text cut off at the end of the buffer. -/
theorem ffsFromintFlags_fill (hi : i < 2 ^ 64)
    (hsep : ¬(f.sep1000 = true ∧ f.width = 0 ∧ 3 < (fromintPs i f).length))
    (hover : ¬FromintOver i cap f) :
    ffsFromintFlags i cap f =
      some (((fromintText i f).take cap).length, (fromintText i f).take cap) := by
  have hsize : (fromintText i f).length < 2 ^ 32 := by
    rw [length_fromintText hi]
    exact fromintSize_lt hi f
  have htext := fromintText_fill hsep
  obtain ⟨pad, hpad⟩ : ∃ pad, pad =
      f.width.toNat - ((fromintMinus i f).toNat + (fromintPs i f).length) := ⟨_, rfl⟩
  rw [← hpad] at htext
  rw [ffsFromintFlags_nosep hsep]
  by_cases hzero : f.zerowidth = true ∧ fromintMinus i f = true
  · rw [if_pos hzero] at htext
    rw [htext] at hsize ⊢
    by_cases hn : min pad cap = 0
    · have hsmall : ([] ++ ((if fromintMinus i f then [0x2d] else []) ++
          fromintPs i f)).length < 2 ^ 32 := by
        rw [hzero.2, if_pos rfl]
        simp only [length_append, length_cons, length_nil, length_replicate]
          at hsize ⊢
        omega
      have htake : ([] ++ ((if fromintMinus i f then [0x2d] else []) ++ fromintPs i f)).take cap =
          ((0x2d :: List.replicate pad 0x30) ++ fromintPs i f).take cap := by
        rw [hzero.2, if_pos rfl]
        rcases Nat.eq_zero_or_pos cap with h0 | hpos
        · rw [h0, take_zero, take_zero]
        · have hpad0 : pad = 0 := by omega
          rw [hpad0]
          rfl
      rw [fromintFill, ← hpad]
      simp only [if_pos hn]
      rw [fromintTail_eq _ _ (Nat.zero_le _) hsmall, htake]
    · exact fromintFill_zeros hover hzero (hpad ▸ hn) hpad hsize
  · rw [if_neg hzero] at htext
    rw [htext] at hsize ⊢
    exact fromintFill_pad hzero hpad rfl hsize

theorem numVal_zeros (base pad : ℕ) (ds : List UInt8) :
    numVal (digitOf base) base 0 (List.replicate pad 0x30 ++ ds) =
      numVal (digitOf base) base 0 ds := by
  induction pad with
  | zero => rfl
  | succ pad ih =>
    have hzero : (digitOf base 0x30).getD 0 = 0 := by
      rw [digitOf, if_pos (by decide)]
      cases base <;> rfl
    rw [replicate_succ, cons_append, numVal_cons, hzero, Nat.zero_mul, ih]

theorem base_pos (f : FromintFlags) : 0 < f.base := by
  rw [FromintFlags.base]
  split
  · decide
  · split <;> decide

/-- **The whole text stands for the value.** -/
theorem fromintText_denotes (hi : i < 2 ^ 64) (f : FromintFlags) :
    TextDenotes f.base (fromintText i f) (fromintVal i f) := by
  obtain ⟨-, hdig, hval, -⟩ := fromintPs_spec hi f
  have hne := fromintPs_ne_nil hi f
  have hkeep : ∀ c ∈ fromintPs i f, (c != 0x2c) = true := fun c hc =>
    bne_iff_ne.mpr (digitOf_ne (hdig c hc)).2.2
  have hps : (fromintPs i f).filter (· != 0x2c) = fromintPs i f := filter_eq_self.mpr hkeep
  have hsign : (if fromintMinus i f = true then [(0x2d : UInt8)] else []).filter (· != 0x2c) =
      if fromintMinus i f = true then [0x2d] else [] := by
    cases fromintMinus i f <;> rfl
  have hfill : ∀ (n : ℕ) (c : UInt8), c ≠ 0x2c →
      (List.replicate n c).filter (· != 0x2c) = List.replicate n c := fun n c hc =>
    filter_eq_self.mpr fun d hd => bne_iff_ne.mpr (eq_of_mem_replicate hd ▸ hc)
  rw [fromintText, fromintVal]
  by_cases hsep : f.sep1000 = true ∧ f.width = 0
  · refine ⟨0, fromintMinus i f, fromintPs i f, ?_, hne, hdig, by rw [hval]⟩
    simp only [if_pos hsep]
    rw [filter_append, hsign, filter_sepDigits fun c hc => (digitOf_ne (hdig c hc)).2.2]
    rfl
  simp only [if_neg hsep]
  obtain ⟨pad, hpad⟩ : ∃ pad, pad = f.width.toNat -
    ((if fromintMinus i f then [0x2d] else [] : List UInt8).length +
      (fromintPs i f).length) := ⟨_, rfl⟩
  rw [← hpad]
  split
  · refine ⟨0, fromintMinus i f, List.replicate pad 0x30 ++ fromintPs i f, ?_,
      append_ne_nil_of_right_ne_nil _ hne, ?_, ?_⟩
    · rw [filter_append, filter_append, hsign, hfill _ _ (by decide), hps]
      rfl
    · intro c hc
      rcases mem_append.mp hc with hc | hc
      · have hpos := base_pos f
        rw [eq_of_mem_replicate hc, digitOf, if_pos (by decide)]
        obtain ⟨b, hb⟩ : ∃ b, f.base = b + 1 := ⟨f.base - 1, by omega⟩
        rw [hb]
        rfl
      · exact hdig c hc
    · rw [numVal_zeros, hval]
  · refine ⟨pad, fromintMinus i f, fromintPs i f, ?_, hne, hdig, by rw [hval]⟩
    rw [filter_append, filter_append, hsign, hfill _ _ (by decide), hps]

theorem fromintText_plain (hplain : f.Plain) :
    fromintText i f = (if fromintMinus i f then [0x2d] else []) ++ fromintPs i f := by
  obtain ⟨hw, hs, -⟩ := hplain
  have hpad : f.width.toNat - ((if fromintMinus i f then [0x2d] else [] : List UInt8).length +
      (fromintPs i f).length) = 0 := by
    rw [hw]
    exact Nat.zero_sub _
  rw [fromintText, hpad, hs, hw]
  simp

theorem fromintOk_take (hi : i < 2 ^ 64)
    (hres : ffsFromintFlags i cap f =
      some (((fromintText i f).take cap).length, (fromintText i f).take cap)) :
    FromintOk i cap f ↔ (f.Plain → f.signed = true → i = 2 ^ 63 → cap < fromintSize i f) := by
  have hlen := length_fromintText hi f
  constructor
  · rintro ⟨text, htext, -, hfull⟩ hplain hsig hleast
    by_contra hroom
    have hfit : (fromintText i f).length ≤ cap := hlen ▸ not_lt.mp hroom
    obtain ⟨rfl, -, hback⟩ := hfull hfit
    have hread := hback hplain
    rw [fromintText_plain hplain, ffsToint_fromintPs hi hplain.2.2, if_pos ⟨hsig, hleast⟩] at hread
    exact absurd hread (by simp)
  intro hleast
  refine ⟨_, hres, ?_, fun hfit => ?_⟩
  · rw [length_take]
    exact Nat.min_le_left _ _
  rw [take_of_length_le hfit]
  refine ⟨rfl, fromintText_denotes hi f, fun hplain => ?_⟩
  have hnot : ¬(f.signed = true ∧ i = 2 ^ 63) := by
    rintro ⟨hsig, heq⟩
    have hlt := hleast hplain hsig heq
    omega
  rw [fromintText_plain hplain, ffsToint_fromintPs hi hplain.2.2, if_neg hnot]

/-- **With separators**, where the number is not negative. -/
theorem ffsFromintFlags_seps (hi : i < 2 ^ 64)
    (hsep : f.sep1000 = true ∧ f.width = 0 ∧ 3 < (fromintPs i f).length)
    (hm : fromintMinus i f = false) :
    ffsFromintFlags i cap f =
      if cap % 2 ^ 32 < (fromintText i f).length then some (cap % 2 ^ 32, [])
      else some ((fromintText i f).length, fromintText i f) := by
  obtain ⟨hs, hw, hlong⟩ := hsep
  have htext : fromintText i f = sepDigits (fromintPs i f) := by
    rw [fromintText, hm]
    exact if_pos ⟨hs, hw⟩
  have hcall : ffsFromintFlags i cap f = fromintSeps cap (fromintMinus i f) (fromintPs i f)
      (((fromintPs i f).length - 1) / 3) := by
    rw [ffsFromintFlags]
    simp only [nsep_eq]
    exact if_pos ⟨hs, hw, by omega⟩
  rw [hcall, fromintSeps_eq cap _ (fromintPs_ne_nil hi f) rfl, hm, htext, length_sepDigits]
  have hno : ¬(false = true ∧ cap ≠ 0) := fun h => Bool.false_ne_true h.1
  simp only [if_neg hno, length_nil, Nat.sub_zero, nil_append]
  refine if_congr ?_ rfl rfl
  omega

/-- **With separators**, where the number is negative: the sign is not counted. -/
theorem ffsFromintFlags_negSeps (hi : i < 2 ^ 64)
    (hsep : f.sep1000 = true ∧ f.width = 0 ∧ 3 < (fromintPs i f).length)
    (hm : fromintMinus i f = true) :
    ffsFromintFlags i cap f =
      if (cap - 1) % 2 ^ 32 + 2 ≤ (fromintText i f).length then
        some ((cap - 1) % 2 ^ 32, if cap ≠ 0 then [0x2d] else [])
      else some ((fromintText i f).length - 1, fromintText i f) := by
  obtain ⟨hs, hw, hlong⟩ := hsep
  have htext : fromintText i f = 0x2d :: sepDigits (fromintPs i f) := by
    rw [fromintText, hm]
    exact if_pos ⟨hs, hw⟩
  have hcall : ffsFromintFlags i cap f = fromintSeps cap (fromintMinus i f) (fromintPs i f)
      (((fromintPs i f).length - 1) / 3) := by
    rw [ffsFromintFlags]
    simp only [nsep_eq]
    exact if_pos ⟨hs, hw, by omega⟩
  rw [hcall, fromintSeps_eq cap _ (fromintPs_ne_nil hi f) rfl, hm, htext, length_cons,
    length_sepDigits]
  by_cases h0 : cap = 0
  · subst h0
    have htwo : (0 - 1) % 2 ^ 32 + 2 ≤
        (fromintPs i f).length + ((fromintPs i f).length - 1) / 3 + 1 := by omega
    rw [if_pos htwo]
    exact if_pos (Nat.zero_le _)
  · simp only [ne_eq, h0, not_false_eq_true, and_self, if_true, length_singleton, singleton_append]
    by_cases hroom : (cap - 1) % 2 ^ 32 ≤
        (fromintPs i f).length + ((fromintPs i f).length - 1) / 3 - 1
    · rw [if_pos hroom, if_pos (by omega)]
    · rw [if_neg hroom, if_neg (by omega), Nat.add_sub_cancel]

/-- **With separators** -/
theorem fromintOk_seps (hi : i < 2 ^ 64)
    (hsep : f.sep1000 = true ∧ f.width = 0 ∧ 3 < (fromintPs i f).length) :
    FromintOk i cap f ↔
      if fromintMinus i f then cap = 0 ∨ cap = 2
      else cap = 0 ∨ fromintSize i f ≤ cap % 2 ^ 32 := by
  have hlen := length_fromintText hi f
  have hsmall := fromintSize_lt hi f
  have hplain : ¬f.Plain := fun h => absurd (hsep.1.symm.trans h.2.1) (by decide)
  have hlong : (fromintMinus i f).toNat + 5 ≤ fromintSize i f := by
    have hps := (fromintPs_spec hi f).1
    rw [fromintSize, ← hps]
    have hyes : f.sep1000 = true ∧ f.width = 0 := ⟨hsep.1, hsep.2.1⟩
    rw [if_pos hyes]
    omega
  cases hm : fromintMinus i f with
  | true =>
    have hcall := @ffsFromintFlags_negSeps i cap f hi hsep hm
    rw [hlen] at hcall
    rw [hm, Bool.toNat_true] at hlong
    rw [if_pos rfl]
    by_cases hroom : (cap - 1) % 2 ^ 32 + 2 ≤ fromintSize i f
    · rw [if_pos hroom] at hcall
      constructor
      · rintro ⟨text, hres, hcap, hfull⟩
        obtain ⟨hret, hput⟩ := Prod.mk.inj (some.inj (hcall.symm.trans hres))
        have hone : text.length = if cap ≠ 0 then 1 else 0 := by
          rw [← hput]
          split <;> rfl
        have hcut : cap < fromintSize i f := by
          by_contra hfit
          have heq := (hfull (by omega)).1
          rw [heq, hlen] at hone
          split at hone <;> omega
        split at hone
        · exact .inr (by omega)
        · exact .inl (by omega)
      intro h
      refine ⟨if cap ≠ 0 then [0x2d] else [], ?_, ?_, fun hfit => by omega⟩
      · rcases h with rfl | rfl
        · exact hcall
        · exact hcall
      · rcases h with rfl | rfl
        · exact Nat.zero_le _
        · exact Nat.le_succ _
    rw [if_neg hroom] at hcall
    constructor
    · rintro ⟨text, hres, -, -⟩
      obtain ⟨hret, rfl⟩ := Prod.mk.inj (some.inj (hcall.symm.trans hres))
      omega
    · rintro (h0 | h2) <;> omega
  | false =>
    have hcall := @ffsFromintFlags_seps i cap f hi hsep hm
    rw [hlen] at hcall
    rw [if_neg Bool.false_ne_true]
    by_cases hroom : cap % 2 ^ 32 < fromintSize i f
    · rw [if_pos hroom] at hcall
      constructor
      · rintro ⟨text, hres, -, hfull⟩
        obtain ⟨hret, rfl⟩ := Prod.mk.inj (some.inj (hcall.symm.trans hres))
        rw [length_nil] at hret
        have hcut : cap < fromintSize i f := by
          by_contra hfit
          have heq := (hfull (by omega)).1
          rw [← heq, length_nil] at hlen
          omega
        exact .inl (by omega)
      · rintro (rfl | hfit)
        · exact ⟨[], hcall, Nat.zero_le _, fun hfit => by omega⟩
        · omega
    have hmod : cap % 2 ^ 32 ≤ cap := Nat.mod_le _ _
    rw [if_neg hroom, ← hlen] at hcall
    refine iff_of_true ⟨_, hcall, by omega, fun _ => ⟨rfl, fromintText_denotes hi f, ?_⟩⟩
      (.inr (by omega))
    intro h
    exact absurd h hplain

end Tail

/-! ### Results -/

/-- Without the other flags it is `ffsFromint`. -/
theorem ffsFromintFlags_plain {i : ℕ} (hi : i < 2 ^ 64) (cap : ℕ) (signed : Bool) :
    ffsFromintFlags i cap { signed := signed } =
      some ((ffsFromint i cap signed).length, ffsFromint i cap signed) := by
  obtain ⟨f, hf⟩ : ∃ f : FromintFlags, f = { signed := signed } := ⟨_, rfl⟩
  have hplain : f.Plain := by
    rw [hf]
    exact ⟨rfl, rfl, rfl⟩
  have hnosep : ¬(f.sep1000 = true ∧ f.width = 0 ∧ 3 < (fromintPs i f).length) := fun h =>
    absurd (h.1.symm.trans hplain.2.1) (by decide)
  have hover : ¬FromintOver i cap f := by
    rintro ⟨-, -, hw, -⟩
    rw [hplain.1] at hw
    exact Nat.not_lt_zero _ hw
  have hminus : fromintMinus i f = (signed && decide (int64 i < 0)) := by
    rw [hf, fromintMinus, Bool.or_false]
  have hps : fromintPs i f =
      ffsFromintDec 64 []
        (if signed && decide (int64 i < 0) then (2 ^ 64 - i) % 2 ^ 64 else i) := by
    rw [hf]
    rfl
  have htext : (fromintText i f).take cap = ffsFromint i cap signed := by
    rw [fromintText_plain hplain, hminus, hps, ffsFromint]
    rcases Nat.eq_zero_or_pos cap with h0 | hpos
    · subst h0
      simp
    · have hcap : cap ≠ 0 := by omega
      cases signed && decide (int64 i < 0) with
      | false => simp
      | true => simp [take_cons, hcap, hpos]
  rw [← hf, ffsFromintFlags_fill hi hnosep hover, htext]

/-- **When `ffs_fromint` does what a caller relies on.** -/
theorem ffsFromintFlags_iff (i cap : ℕ) (f : FromintFlags) (hi : i < 2 ^ 64) :
    FromintOk i cap f ↔ FromintFits i cap f := by
  have hlen := (fromintPs_spec hi f).1
  unfold FromintFits
  rw [← hlen]
  by_cases hsep : f.sep1000 = true ∧ f.width = 0 ∧ 3 < (fromintPs i f).length
  · simp only [if_pos hsep]
    exact fromintOk_seps hi hsep
  simp only [if_neg hsep]
  by_cases hover : FromintOver i cap f
  · have hnone : ffsFromintFlags i cap f = none := by
      rw [ffsFromintFlags_nosep hsep, fromintFill_over hover]
    obtain ⟨hz, hm, hw, hpos, hle⟩ := hover
    refine iff_of_false ?_ fun h => absurd (h.1 hz hm hw hpos) (not_lt.mpr hle)
    rintro ⟨text, htext, -⟩
    exact absurd (hnone.symm.trans htext) (by simp)
  · rw [fromintOk_take hi (ffsFromintFlags_fill hi hsep hover)]
    refine (and_iff_right ?_).symm
    intro hz hm hw hpos
    by_contra hle
    exact hover ⟨hz, hm, hw, hpos, not_lt.mp hle⟩

/-- The number 1000 with a separator in a buffer of 5 bytes. -/
theorem ffsFromintFlags_iff_1000 :
    (1000 < 2 ^ 64) ∧ (FromintOk 1000 5 { sep1000 := true } ↔
      FromintFits 1000 5 { sep1000 := true }) :=
  ⟨by omega, ffsFromintFlags_iff 1000 5 { sep1000 := true } (by omega)⟩

/-- **A sign is not counted** with separators: for -1000, six bytes are written, and five is
returned. -/
theorem ffsFromintFlags_sign :
    ¬∀ i cap f, i < 2 ^ 64 → FromintOk i cap f := by
  intro h
  obtain ⟨text, hres, -⟩ := h (2 ^ 64 - 1000) 20 { signed := true, sep1000 := true } (by omega)
  have hrun : ffsFromintFlags (2 ^ 64 - 1000) 20 { signed := true, sep1000 := true } =
      some (5, ascii "-1,000") := by decide
  obtain ⟨hret, rfl⟩ := Prod.mk.inj (some.inj (hrun.symm.trans hres))
  exact absurd hret (by decide)

end FF
