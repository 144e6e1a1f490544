import FF.Number

/-!
# Cropping a string by absolute positions

`ffstr_crop_abs` is given a string that begins at the position `start`, and keeps what lies between
`off` and `off + size`. The ends of the two ranges are words: they wrap around.

## Conventions

* All numbers are below `SIZE_BOUND`. A string is its length here; the bytes that are left are told
  by how far their places are from the pointer that was given.
-/

namespace FF

/-- `ffstr_crop_abs`: what is added to the pointer, the length, and what is returned. -/
def ffstrCropAbs (len start off size : ℕ) : ℕ × ℕ × ℕ :=
  let stop := (start + len) % SIZE_BOUND
  let l := min (max start off) stop
  let r := min ((off + size) % SIZE_BOUND) stop
  (sizeSub l start, sizeSub r l, sizeSub r start)

/-- The bytes that are left are those of the string that lie within the range. -/
def Cropped (len start off size : ℕ) : Prop :=
  ∀ k, ((ffstrCropAbs len start off size).1 ≤ k ∧
      k < (ffstrCropAbs len start off size).1 + (ffstrCropAbs len start off size).2.1) ↔
    k < len ∧ off ≤ start + k ∧ start + k < off + size

section Crop

variable {len start off size : ℕ}

theorem add_mod_bound {a b : ℕ} (ha : a < SIZE_BOUND) (hb : b < SIZE_BOUND) :
    (a + b) % SIZE_BOUND = if a + b < SIZE_BOUND then a + b else a + b - SIZE_BOUND := by
  split
  · next hlt => exact Nat.mod_eq_of_lt hlt
  · next hge =>
      rw [Nat.mod_eq_sub_mod (Nat.le_of_not_lt hge), Nat.mod_eq_of_lt (by omega)]

theorem sizeSub_eq_ite {a b : ℕ} (ha : a < SIZE_BOUND) (hb : b < SIZE_BOUND) :
    sizeSub a b = if b ≤ a then a - b else a + SIZE_BOUND - b := by
  split
  · next hle => exact sizeSub_of_le hle ha
  · next hlt =>
      rw [sizeSub, ← Nat.add_sub_assoc (Nat.le_of_lt hb)]
      exact Nat.mod_eq_of_lt (by omega)

/-- **The string ends within the words**: what is left begins where the later of the two begins. -/
theorem ffstrCropAbs_within (hend : start + len < SIZE_BOUND) (hoff : off < SIZE_BOUND)
    (hsize : size < SIZE_BOUND) :
    Cropped len start off size ↔
      (off + size < SIZE_BOUND ∧ start ≤ off + size) ∨ start + len + SIZE_BOUND ≤ off + size := by
  have hstop : (start + len) % SIZE_BOUND = start + len := Nat.mod_eq_of_lt hend
  have hmid : min (max start off) (start + len) < SIZE_BOUND :=
    Nat.lt_of_le_of_lt (Nat.min_le_right _ _) hend
  have hfrom : sizeSub (min (max start off) (start + len)) start =
      min (max start off) (start + len) - start := by
    refine sizeSub_of_le ?_ hmid
    exact Nat.le_min.mpr ⟨Nat.le_max_left _ _, Nat.le_add_right _ _⟩
  obtain ⟨l, hl⟩ : ∃ l, l = min (max start off) (start + len) := ⟨_, rfl⟩
  obtain ⟨o, ho⟩ : ∃ o, o = (off + size) % SIZE_BOUND := ⟨_, rfl⟩
  have hright : min o (start + len) < SIZE_BOUND :=
    Nat.lt_of_le_of_lt (Nat.min_le_right _ _) hend
  have hcount := sizeSub_eq_ite hright hmid
  rw [Cropped, ffstrCropAbs]
  dsimp only
  rw [hstop, hfrom, ← ho, hcount, ← hl]
  rw [add_mod_bound hoff hsize] at ho
  constructor
  · intro h
    by_cases hfits : off + size < SIZE_BOUND
    · -- The range ends before the string: then its first byte is left.
      have hfirst := h 0
      rw [if_pos hfits] at ho
      split at hfirst <;> omega
    · -- The end of the range has wrapped around: the byte behind the string is left.
      have hbehind := h len
      rw [if_neg hfits] at ho
      split at hbehind <;> omega
  · intro h k
    split at ho <;> split <;> omega

/-- **The end of the string has wrapped around**: the bytes that are left, if there are some, are
those behind it. -/
theorem ffstrCropAbs_wrapped (hlen : len < SIZE_BOUND) (hstart : start < SIZE_BOUND)
    (hoff : off < SIZE_BOUND) (hsize : size < SIZE_BOUND) (hend : SIZE_BOUND ≤ start + len) :
    Cropped len start off size ↔
      (off + size ≤ start ∨ size = 0) ∧ start + len ≤ off + size + SIZE_BOUND := by
  have hstop : (start + len) % SIZE_BOUND = start + len - SIZE_BOUND := by
    rw [add_mod_bound hstart hlen, if_neg (Nat.not_lt.mpr hend)]
  have hbefore : start + len - SIZE_BOUND < start := by omega
  have hmid : min (max start off) (start + len - SIZE_BOUND) = start + len - SIZE_BOUND :=
    Nat.min_eq_right (Nat.le_trans (Nat.le_of_lt hbefore) (Nat.le_max_left _ _))
  have hfrom : sizeSub (start + len - SIZE_BOUND) start = len := by
    rw [sizeSub_eq_ite (by omega) hstart, if_neg (Nat.not_le.mpr hbefore)]
    omega
  obtain ⟨o, ho⟩ : ∃ o, o = (off + size) % SIZE_BOUND := ⟨_, rfl⟩
  have hright : min o (start + len - SIZE_BOUND) < SIZE_BOUND := by omega
  have hmidlt : start + len - SIZE_BOUND < SIZE_BOUND := by omega
  have hcount := sizeSub_eq_ite hright hmidlt
  rw [Cropped, ffstrCropAbs]
  dsimp only
  rw [hstop, hmid, hfrom, ← ho, hcount]
  rw [add_mod_bound hoff hsize] at ho
  constructor
  · intro h
    -- Nothing may be left behind the string, and nothing of the range may lie within it.
    have hbehind := h len
    have hinside := h (max start off - start)
    split at ho <;> split at hbehind <;> omega
  · intro h k
    split at ho <;> split <;> omega

/-- **The bytes within the range** are left if and only if the range does not end before the string,
and the ends do not wrap around to where they matter. -/
theorem ffstrCropAbs_iff (hlen : len < SIZE_BOUND) (hstart : start < SIZE_BOUND)
    (hoff : off < SIZE_BOUND) (hsize : size < SIZE_BOUND) :
    Cropped len start off size ↔
      (start + len < SIZE_BOUND ∧ off + size < SIZE_BOUND ∧ start ≤ off + size) ∨
      (start + len + SIZE_BOUND ≤ off + size) ∨
      (SIZE_BOUND ≤ start + len ∧ (off + size ≤ start ∨ size = 0) ∧
        start + len ≤ off + size + SIZE_BOUND) := by
  by_cases hend : start + len < SIZE_BOUND
  · rw [ffstrCropAbs_within hend hoff hsize]
    omega
  · rw [ffstrCropAbs_wrapped hlen hstart hoff hsize (Nat.le_of_not_lt hend)]
    omega

/-- A range that begins within the string and ends behind it. -/
theorem ffstrCropAbs_iff_behind : Cropped 10 1 5 9 :=
  (ffstrCropAbs_iff (by decide) (by decide) (by decide) (by decide)).mpr (.inl (by decide))

/-- **A range that ends before the string**: the length that is left is larger than the string. -/
theorem ffstrCropAbs_before : ffstrCropAbs 5 10 0 5 = (0, 2 ^ 64 - 5, 2 ^ 64 - 5) ∧
    ¬Cropped 5 10 0 5 := by
  refine ⟨by decide, fun h => ?_⟩
  have hfirst := (h 0).mp (by decide)
  exact absurd hfirst.2.2 (by decide)

end Crop

end FF
