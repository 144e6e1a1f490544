import FF.Toint

/-!
# Decimal numbers in a playlist

A number is written with digits and perhaps a minus sign, without zeros in front. `ffs_toint` reads
it with 32 bits if its absolute value is below `2 ^ 31`; else what it gives is another number.
-/

namespace FF

open List Option

/-- The digits of a number. -/
def decDigits (d : List UInt8) : List UInt8 := if d.head? = some 0x2d then d.tail else d

/-- The value of the digits. -/
def decAbs (d : List UInt8) : ℕ := numVal ffcharTodec 10 0 (decDigits d)

/-- **The number.** -/
def decNum (d : List UInt8) : ℤ := if d.head? = some 0x2d then -(decAbs d : ℤ) else decAbs d

/-- **A decimal number.** -/
structure IsDecimal (d : List UInt8) : Prop where
  digits : ∀ c ∈ decDigits d, (ffcharTodec c).isSome
  head : ∃ c t, decDigits d = c :: t ∧ (c = 0x30 → t = [])

/-- `ffstr_toint` into an `int` that held `dst`. -/
def tointInt32 (d : List UInt8) (dst : ℤ) : ℤ :=
  match ffsToint d ⟨4, true, false, false⟩ with
  | some (_, w) => int32 w
  | none => dst

section Decimal

variable {d rest : List UInt8} {flags : IntFlags} {dst : ℤ}

theorem IsDecimal.ne_nil (h : IsDecimal d) : d ≠ [] := by
  rintro rfl
  obtain ⟨c, t, hct, -⟩ := h.head
  cases hct

theorem IsDecimal.intSign (h : IsDecimal d) (hsign : flags.sign = true ∨ d.head? ≠ some 0x2d) :
    (d ++ rest).drop (intSign (d ++ rest) flags) = decDigits d ++ rest ∧
      FF.intSign (d ++ rest) flags + (decDigits d).length = d.length ∧
      intMinus (d ++ rest) flags = decide (d.head? = some 0x2d) := by
  obtain ⟨c, t, hct, -⟩ := h.head
  have hdig := h.digits c (hct ▸ mem_cons_self)
  by_cases hm : d.head? = some 0x2d
  · obtain ⟨t', rfl⟩ : ∃ t', d = 0x2d :: t' := by
      cases d with
      | nil => cases hm
      | cons x t' => exact ⟨t', by rw [some.inj hm]⟩
    have hs : flags.sign = true := hsign.resolve_right fun hne => hne rfl
    have hone : FF.intSign (0x2d :: t' ++ rest) flags = 1 := by
      rw [FF.intSign, hs]
      rfl
    rw [hone, intMinus, hs]
    exact ⟨rfl, Nat.add_comm _ _, rfl⟩
  have hd : decDigits d = d := if_neg hm
  rw [hd] at hct
  subst hct
  have hplus : c ≠ 0x2b := by
    rintro rfl
    exact absurd hdig (by decide)
  have hminus : c ≠ 0x2d := by
    rintro rfl
    exact hm rfl
  have hzero : FF.intSign (c :: t ++ rest) flags = 0 := by
    rw [FF.intSign]
    apply if_neg
    simp [hplus, hminus]
  rw [hzero, hd, intMinus]
  refine ⟨rfl, Nat.zero_add _, ?_⟩
  simp [hminus]

theorem IsDecimal.length_le (h : IsDecimal d) (hsmall : decAbs d < 2 ^ 32) :
    (decDigits d).length ≤ 10 := by
  obtain ⟨c, t, hct, hzero⟩ := h.head
  by_contra hlong
  rw [hct, length_cons] at hlong
  obtain ⟨b, hb⟩ := isSome_iff_exists.mp (h.digits c (hct ▸ mem_cons_self))
  have hpos : 1 ≤ b := by
    rw [Nat.one_le_iff_ne_zero]
    rintro rfl
    have hc : c = 0x30 := by
      rw [ffcharTodec] at hb
      split at hb
      · cases hb
      · have hnat : (c - 0x30).toNat = (0 : UInt8).toNat := some.inj hb
        have hsub := UInt8.toNat_inj.mp hnat
        have hadd := congrArg (· + 0x30) hsub
        simpa using hadd
    have ht := hzero hc
    rw [ht, length_nil] at hlong
    omega
  have hval : decAbs d = b * 10 ^ t.length + numVal ffcharTodec 10 0 t := by
    rw [decAbs, hct, numVal_cons, numVal_eq, hb, getD_some, Nat.zero_mul, Nat.zero_add]
  have hpow : 10 ^ 10 ≤ 10 ^ t.length := Nat.pow_le_pow_right (by decide) (by omega)
  have hmul : 1 * 10 ^ t.length ≤ b * 10 ^ t.length := Nat.mul_le_mul_right _ hpos
  omega

end Decimal

end FF
