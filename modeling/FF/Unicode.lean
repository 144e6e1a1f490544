import FF.Lib.Bits
import FF.Utf8

/-!
# Code units and code points

The functions of `ffutf8` beside what Unicode says of code units and code points.
-/

namespace FF

/-! ### Surrogates -/

/-- The mask of the upper `n` bits of a code unit. -/
theorem utf16_mask (u : UInt32) {m : UInt32} {k n : ℕ} (hm : m.toNat = (2 ^ n - 1) <<< k) :
    (u &&& m).toNat = u.toNat / 2 ^ k % 2 ^ n * 2 ^ k := by
  rw [UInt32.toNat_and, hm, and_shiftLeft_mask]

theorem ffutf16Basic_iff {u : UInt32} (hu : u.toNat < 2 ^ 16) :
    ffutf16Basic u = true ↔ ¬(0xd800 ≤ u.toNat ∧ u.toNat < 0xe000) := by
  have hmask : (u &&& 0xf800).toNat = u.toNat / 2 ^ 11 % 2 ^ 5 * 2 ^ 11 := utf16_mask u rfl
  have hval : (0xd800 : UInt32).toNat = 0xd800 := rfl
  rw [ffutf16Basic, bne_iff_ne, ne_eq, ← UInt32.toNat_inj, hmask, hval]
  omega

theorem ffutf16Highsurr_iff {u : UInt32} (hu : u.toNat < 2 ^ 16) :
    ffutf16Highsurr u = true ↔ 0xd800 ≤ u.toNat ∧ u.toNat < 0xdc00 := by
  have hmask : (u &&& 0xfc00).toNat = u.toNat / 2 ^ 10 % 2 ^ 6 * 2 ^ 10 := utf16_mask u rfl
  have hval : (0xd800 : UInt32).toNat = 0xd800 := rfl
  rw [ffutf16Highsurr, beq_iff_eq, ← UInt32.toNat_inj, hmask, hval]
  omega

/-- **The code point of two surrogates** -/
theorem ffutf16Suppl_toNat {hi lo : UInt32} (hhi : 0xd800 ≤ hi.toNat ∧ hi.toNat < 0xdc00)
    (hlo : 0xdc00 ≤ lo.toNat ∧ lo.toNat < 0xe000) :
    (ffutf16Suppl hi lo).toNat =
      0x10000 + (hi.toNat - 0xd800) * 1024 + (lo.toNat - 0xdc00) := by
  have h1 : (hi - 0xd800).toNat = hi.toNat - 0xd800 :=
    UInt32.toNat_sub_of_le _ _ (UInt32.le_iff_toNat_le.mpr hhi.1)
  have h2 : (lo - 0xdc00).toNat = lo.toNat - 0xdc00 :=
    UInt32.toNat_sub_of_le _ _ (UInt32.le_iff_toNat_le.mpr hlo.1)
  have h3 : ((hi - 0xd800) <<< (10 : UInt32)).toNat = (hi.toNat - 0xd800) * 1024 := by
    have hten : (10 : UInt32).toNat % 32 = 10 := rfl
    rw [UInt32.toNat_shiftLeft, h1, hten, Nat.shiftLeft_eq]
    exact Nat.mod_eq_of_lt (by omega)
  have h4 : (0x10000 : UInt32).toNat = 0x10000 := rfl
  rw [ffutf16Suppl, UInt32.toNat_add, UInt32.toNat_add, h2, h3, h4]
  omega

/-! ### UTF-8 -/

theorem utf8Tail_eq (u : UInt32) {n : UInt32} {s : ℕ} (hn : n.toNat = s) (hs : s < 32) :
    utf8Tail u n = UInt8.ofNat (u.toNat / 2 ^ s % 64 + 0x80) := by
  obtain ⟨x, hx⟩ : ∃ x, x = u >>> n := ⟨_, rfl⟩
  have hval : x.toNat = u.toNat / 2 ^ s := by
    rw [hx, UInt32.toNat_shiftRight, hn, Nat.mod_eq_of_lt hs, Nat.shiftRight_eq_div_pow]
  have hand : (x.toNat &&& 0xffffff3f) % 2 ^ 8 = x.toNat % 64 := by
    have hmask : (0xffffff3f : ℕ) % 2 ^ 8 = 2 ^ 6 - 1 := rfl
    rw [Nat.and_mod_two_pow, hmask, Nat.and_two_pow_sub_one_eq_mod]
    omega
  have hor : (2 ^ 7 * 1 ||| x.toNat % 64) = 2 ^ 7 * 1 + x.toNat % 64 :=
    (Nat.two_pow_add_eq_or_of_lt (by omega) 1).symm
  have hlow : ((0x80 : ℕ) ||| (x.toNat &&& 0xffffff3f)) % 2 ^ 8 = 0x80 + x.toNat % 64 := by
    rw [Nat.or_mod_two_pow, hand]
    exact hor
  rw [utf8Tail, ← hx, ← UInt8.toNat_inj, UInt32.toNat_toUInt8, UInt32.toNat_or, UInt32.toNat_and,
    UInt8.toNat_ofNat', ← hval]
  refine hlow.trans ?_
  omega

theorem utf8Head_eq (u : UInt32) {b n : UInt32} {s k m : ℕ} (hn : n.toNat = s) (hs : s < 32)
    (hb : b.toNat = 2 ^ k * m) (hu : u.toNat / 2 ^ s < 2 ^ k) :
    utf8Head b u n = UInt8.ofNat (u.toNat / 2 ^ s + b.toNat) := by
  rw [utf8Head, ← UInt8.toNat_inj, UInt32.toNat_toUInt8, UInt32.toNat_or,
    UInt32.toNat_shiftRight, hn, Nat.mod_eq_of_lt hs, Nat.shiftRight_eq_div_pow, hb,
    ← Nat.two_pow_add_eq_or_of_lt hu, UInt8.toNat_ofNat', Nat.add_comm]

/-- **A character is written as UTF-8.** -/
theorem ffutf8Encode1_char (c : Char) : ffutf8Encode1 8 c.val = String.utf8EncodeChar c := by
  have hmax : c.val.toNat < 0x110000 := by
    have := c.valid
    omega
  obtain ⟨u, hu⟩ : ∃ u, u = c.val := ⟨_, rfl⟩
  obtain ⟨v, hv⟩ : ∃ v, v = u.toNat := ⟨_, rfl⟩
  have htail0 : utf8Tail u 0 = UInt8.ofNat (v % 64 + 0x80) := by
    rw [utf8Tail_eq u (s := 0) rfl (by omega), Nat.pow_zero, Nat.div_one, hv]
  have htail6 : utf8Tail u 6 = UInt8.ofNat (v / 64 % 64 + 0x80) := by
    rw [hv]
    exact utf8Tail_eq u (s := 6) rfl (by omega)
  have htail12 : utf8Tail u 12 = UInt8.ofNat (v / 4096 % 64 + 0x80) := by
    rw [hv]
    exact utf8Tail_eq u (s := 12) rfl (by omega)
  rw [← hu, ← hv] at hmax
  simp only [ffutf8Encode1, ffutf8Size, String.utf8EncodeChar, ← hu, UInt32.lt_iff_toNat_lt, ← hv,
    UInt32.reduceToNat]
  by_cases h1 : v < 0x80
  · rw [if_pos h1, if_neg (by omega), if_pos (by omega), hv]
    rfl
  rw [if_neg h1, if_neg (show ¬v ≤ 0x7f by omega)]
  by_cases h2 : v < 0x800
  · have hhead : utf8Head 0xc0 u 6 = UInt8.ofNat (v / 64 + 0xc0) := by
      rw [hv] at h2 ⊢
      exact utf8Head_eq u (s := 6) (k := 5) (m := 6) rfl (by omega) rfl (by omega)
    rw [if_pos h2, if_neg (by omega), if_pos (by omega), Nat.mod_eq_of_lt (a := v / 64) (by omega)]
    simp only [hhead, htail0]
  rw [if_neg h2, if_neg (show ¬v ≤ 0x7ff by omega)]
  by_cases h3 : v < 0x10000
  · have hhead : utf8Head 0xe0 u 12 = UInt8.ofNat (v / 4096 + 0xe0) := by
      rw [hv] at h3 ⊢
      exact utf8Head_eq u (s := 12) (k := 4) (m := 14) rfl (by omega) rfl (by omega)
    rw [if_pos h3, if_neg (by omega), if_pos (by omega),
      Nat.mod_eq_of_lt (a := v / 4096) (by omega)]
    simp only [hhead, htail0, htail6]
  have hhead : utf8Head 0xf0 u 18 = UInt8.ofNat (v / 262144 + 0xf0) := by
    rw [hv] at hmax ⊢
    exact utf8Head_eq u (s := 18) (k := 3) (m := 30) rfl (by omega) rfl (by omega)
  rw [if_neg h3, if_pos (show v < 0x200000 by omega), if_neg (by omega),
    if_neg (show ¬v ≤ 0xffff by omega), Nat.mod_eq_of_lt (a := v / 262144) (by omega)]
  simp only [hhead, htail0, htail6, htail12]

end FF
