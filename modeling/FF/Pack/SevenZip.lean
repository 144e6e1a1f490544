import FF.Lib.Fields
import FF.Number

/-!
# Numbers of 7z archives

`z7_varint` and the number encoding that its comment describes: the leading one bits of the first
byte count the bytes that follow, and the bits behind them are the highest ones of the value.
-/

namespace FF

open List

/-! ### Bit operations -/

/-- `ffbit_max` -/
def ffbitMax (bits : ℕ) : ℕ := 2 ^ bits - 1

/-! ### The reader -/

/-- The local `size` of `z7_varint` for the first byte. -/
def z7Size (d : UInt8) : ℕ :=
  let size := ffbitFind32 (~~~(d.toUInt32 <<< 24) &&& 0xff000000)
  if size = 0 then 8 else size

/-- `z7_varint`: the number of bytes and the value; `none` where it returns 0. -/
def z7Varint (data : List UInt8) : Option (ℕ × ℕ) :=
  match data with
  | [] => none
  | d :: rest =>
    let size := z7Size d
    if size > (d :: rest).length then none
    else
      let b := List.replicate 8 0
      let b := setBytes b (size - 1) [UInt8.ofNat (d.toNat &&& ffbitMax (8 - size))]
      let b := setBytes b 0 (field (d :: rest) 1 (size - 1))
      some (size, leNat b)

/-! ### The encoding -/

/-- The number of leading one bits of a byte. -/
def leadingOnes (d : UInt8) : ℕ :=
  ((List.range 8).takeWhile fun i => d.toNat.testBit (7 - i)).length

/-- **The number at the start of `data`** and its length: `k` leading one bits of the first byte,
the bits behind the zero bit, which are the highest ones of the value, and `k` more bytes, the
lowest one first. -/
def z7Number (data : List UInt8) : Option (ℕ × ℕ) :=
  match data with
  | [] => none
  | d :: rest =>
    let k := leadingOnes d
    if rest.length < k then none
    else some (k + 1, leNat (rest.take k) + 256 ^ k * (d.toNat % 2 ^ (7 - k)))

/-! ### The first byte -/

/-- The size is right for every first byte except `0xff`, and so are its bits. -/
theorem z7Size_eq {d : UInt8} (hd : d ≠ 0xff) :
    z7Size d = leadingOnes d + 1 ∧ leadingOnes d ≤ 7 ∧
      (d.toNat &&& ffbitMax (8 - z7Size d)) = d.toNat % 2 ^ (7 - leadingOnes d) := by
  have h : ∀ c : Fin 256, UInt8.ofNat c ≠ 0xff →
      z7Size (UInt8.ofNat c) = leadingOnes (UInt8.ofNat c) + 1 ∧
      leadingOnes (UInt8.ofNat c) ≤ 7 ∧
      ((UInt8.ofNat c).toNat &&& ffbitMax (8 - z7Size (UInt8.ofNat c))) =
        (UInt8.ofNat c).toNat % 2 ^ (7 - leadingOnes (UInt8.ofNat c)) := by
    decide +kernel
  have hc := h ⟨d.toNat, d.toNat_lt⟩
  simp only [UInt8.ofNat_toNat] at hc
  exact hc hd

theorem z7Size_ff : z7Size 0xff = 8 ∧ leadingOnes 0xff = 8 := by decide

theorem leNat_append (x y : List UInt8) : leNat (x ++ y) = leNat x + 256 ^ x.length * leNat y := by
  induction x with
  | nil => simp [leNat]
  | cons c x ih =>
    rw [cons_append, leNat, leNat, ih, length_cons, Nat.pow_succ', Nat.mul_add,
      Nat.mul_assoc, Nat.add_assoc]

theorem leNat_zeros (n : ℕ) : leNat (List.replicate n 0) = 0 := by
  induction n with
  | zero => rfl
  | succ n ih =>
    rw [replicate_succ, leNat, ih]
    rfl

/-- The local buffer of `z7_varint` with `k` bytes and the bits of the first one behind them. -/
theorem z7_buffer {k : ℕ} (hk : k ≤ 7) (x : UInt8) {bytes : List UInt8} (hlen : bytes.length = k) :
    setBytes (setBytes (List.replicate 8 0) k [x]) 0 bytes =
      bytes ++ x :: List.replicate (7 - k) 0 := by
  have hfirst : setBytes (List.replicate 8 0) k [x] =
      List.replicate k 0 ++ x :: List.replicate (7 - k) 0 := by
    unfold setBytes
    rw [take_replicate, drop_replicate, length_singleton, Nat.min_eq_left (by omega),
      append_assoc, singleton_append]
    congr 3
    omega
  rw [hfirst, setBytes, take_zero, nil_append, Nat.zero_add,
    drop_append_of_le_length (by simp [hlen]), hlen]
  simp

/-! ### Results -/

/-- **The number is right unless the first byte is `0xff`.** -/
theorem z7Varint_of_ne {d : UInt8} (hd : d ≠ 0xff) (rest : List UInt8) :
    z7Varint (d :: rest) = z7Number (d :: rest) := by
  obtain ⟨hsize, hk, hbits⟩ := z7Size_eq hd
  simp only [z7Varint, z7Number, hbits]
  rw [hsize]
  generalize leadingOnes d = k at hk
  by_cases hlen : rest.length < k
  · rw [if_pos hlen, if_pos]
    rw [length_cons]
    omega
  have hle : ¬k + 1 > (d :: rest).length := by
    rw [length_cons]
    omega
  rw [if_neg hlen, if_neg hle, Nat.add_sub_cancel]
  have hfield : field (d :: rest) 1 k = rest.take k := rfl
  have htake : (rest.take k).length = k := by
    rw [length_take]
    omega
  have hbyte : d.toNat % 2 ^ (7 - k) < 256 :=
    lt_of_le_of_lt (Nat.mod_le _ _) d.toNat_lt
  rw [hfield, z7_buffer hk _ htake, leNat_append, htake, leNat, leNat_zeros, UInt8.toNat_ofNat',
    Nat.mod_eq_of_lt hbyte, Nat.mul_zero, Nat.add_zero (d.toNat % 2 ^ (7 - k))]

/-- **Exactly when `z7_varint` reads the number of the encoding**: the first byte has a zero bit,
or there are fewer than 8 bytes, which are too few for one without. -/
theorem z7Varint_iff (data : List UInt8) :
    z7Varint data = z7Number data ↔ data.head? ≠ some 0xff ∨ data.length < 8 := by
  cases data with
  | nil =>
    constructor
    · intro _
      exact Or.inr (by simp)
    · intro _
      rfl
  | cons d rest =>
    by_cases hd : d = 0xff
    · subst hd
      obtain ⟨hsize, hones⟩ := z7Size_ff
      simp only [z7Varint, z7Number, hsize, hones]
      constructor
      · intro heq
        by_cases hlen : (0xff :: rest).length < 8
        · exact Or.inr hlen
        · rw [if_neg (by omega)] at heq
          split at heq
          · cases heq
          · cases heq
      · rintro (h | h)
        · exact absurd rfl h
        · rw [if_pos h]
          rw [length_cons] at h
          rw [if_pos (by omega)]
    · have hhead : (d :: rest).head? ≠ some 0xff := by
        rw [head?_cons]
        intro h
        exact hd (Option.some.inj h)
      exact ⟨fun _ => Or.inl hhead, fun _ => z7Varint_of_ne hd rest⟩

/-- **The longest number is read a byte too short**: of nine bytes `z7_varint` takes eight. -/
theorem z7Varint_ff :
    ¬∀ data, z7Varint data = z7Number data := by
  intro h
  exact absurd (h [0xff, 1, 2, 3, 4, 5, 6, 7, 8]) (by decide)

end FF
