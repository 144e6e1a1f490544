import Mathlib.Data.Nat.Bitwise

/-!
# Machine words

The arithmetic of `size_t`, and indices that are reset with a mask. Where the limit is a power
of two, the mask is the remainder and the wrap-around of the word does not show.
-/

namespace FF

/-- `size_t` values are below this bound. -/
def SIZE_BOUND : ℕ := 2 ^ 64

/-- Subtraction of `size_t` values. -/
def sizeSub (a b : ℕ) : ℕ := (a + (SIZE_BOUND - b)) % SIZE_BOUND

/-- The cast to `ssize_t`. -/
def ssize (n : ℕ) : ℤ := if n < 2 ^ 63 then n else n - SIZE_BOUND

/-- The value of a word of 32 bits as `int`. -/
def int32 (w : ℕ) : ℤ := if w < 2 ^ 31 then w else w - 2 ^ 32

/-- The cast to `uint`. -/
def uint (x : ℤ) : ℕ := (x % 2 ^ 32).toNat

/-- `ffint_increset2`: increment and reset to 0 on reaching the limit. -/
def ffintIncreset2 (n cap : ℕ) : ℕ := ((n + 1) % SIZE_BOUND) &&& (cap - 1)

/-- `ffint_add_reset2`: add and reset to 0 on reaching the limit. -/
def ffintAddReset2 (num add cap : ℕ) : ℕ := ((num + add) % SIZE_BOUND) &&& (cap - 1)

/-- `ffbit_find32`: the position of the first one bit, counted from the highest one as 1; 0 where
there is none. -/
def ffbitFind32 (i : UInt32) : ℕ := if i = 0 then 0 else 32 - Nat.log2 i.toNat

theorem sizeSub_of_le {a b : ℕ} (hle : b ≤ a) (ha : a < SIZE_BOUND) : sizeSub a b = a - b := by
  have hsum : a + (SIZE_BOUND - b) = a - b + SIZE_BOUND := by omega
  rw [sizeSub, hsum, Nat.add_mod_right, Nat.mod_eq_of_lt (by omega)]

section Words

theorem uint_eq {x : ℤ} {n : ℕ} (h : x = n) (hn : n < 2 ^ 32) : uint x = n := by
  rw [uint, h]
  omega

theorem int32_uint {x : ℤ} (hlow : -2 ^ 31 ≤ x) (hhigh : x < 2 ^ 31) : int32 (uint x) = x := by
  rw [int32, uint]
  split <;> omega

theorem uint_uint_add (x y : ℤ) : uint (uint x + y) = uint (x + y) := by
  rw [uint, uint, uint]
  omega

end Words

section Mask

variable {k : ℕ}

/-- Masking with a power of two less one is reduction modulo that power, and the reduction modulo
the machine word before it does not matter. -/
theorem and_mask (hk : k < 64) (n : ℕ) : (n % SIZE_BOUND) &&& (2 ^ k - 1) = n % 2 ^ k := by
  rw [Nat.and_two_pow_sub_one_eq_mod, SIZE_BOUND]
  exact Nat.mod_mod_of_dvd n (Nat.pow_dvd_pow 2 (by omega))

theorem ffintIncreset2_eq (hk : k < 64) (n : ℕ) : ffintIncreset2 n (2 ^ k) = (n + 1) % 2 ^ k :=
  and_mask hk _

theorem ffintAddReset2_eq (hk : k < 64) (n m : ℕ) :
    ffintAddReset2 n m (2 ^ k) = (n + m) % 2 ^ k :=
  and_mask hk _

/-- A masked difference of two positions is the distance `n` from the second to the first. -/
theorem mask_sizeSub (hk : k < 64) {i j n : ℕ} (hj : j ≤ 2 ^ k) (hn : n < 2 ^ k)
    (hd : i = j + n ∨ i + 2 ^ k = j + n) : sizeSub i j &&& (2 ^ k - 1) = n := by
  obtain ⟨m, hm⟩ : 2 ^ k ∣ SIZE_BOUND := Nat.pow_dvd_pow 2 hk.le
  obtain ⟨m', rfl⟩ : ∃ m', m = m' + 1 := by
    refine ⟨m - 1, ?_⟩
    rcases Nat.eq_zero_or_pos m with rfl | h0
    · simp [SIZE_BOUND] at hm
    · omega
  rw [sizeSub, and_mask hk, hm, Nat.mul_succ]
  rcases hd with rfl | hd
  · rw [show j + n + (2 ^ k * m' + 2 ^ k - j) = n + 2 ^ k + 2 ^ k * m' by omega,
      Nat.add_mul_mod_self_left, Nat.add_mod_right, Nat.mod_eq_of_lt hn]
  · rw [show i + (2 ^ k * m' + 2 ^ k - j) = n + 2 ^ k * m' by omega,
      Nat.add_mul_mod_self_left, Nat.mod_eq_of_lt hn]

end Mask

end FF
