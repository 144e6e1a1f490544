import FF.Toint
import Mathlib.Data.List.Basic

/-!
# Byte ranges

`ffhttp_range` reads a range of bytes, `first-last`, `first-` or `-suffix`, for a content of a given
size.

## Conventions

* A size is below `2 ^ 64`. The numbers in the text have any number of digits.
* Where the range is refused, -1 is returned and the size is left alone.
-/

namespace FF

namespace Http

open List Option

/-! ### The function -/

/-- A number that takes all of `s`. -/
def rangeInt (s : List UInt8) : Option ℕ :=
  match ffsToint s ⟨8, false, false, false⟩ with
  | none => none
  | some (n, v) => if n = s.length then some v else none

/-- The offset, in front of the dash. -/
def rangeOffset (s : List UInt8) (size : ℕ) : Option ℕ :=
  if s = [] then some 0
  else
    match rangeInt s with
    | none => none
    | some off => if off ≥ size then none else some off

/-- `ffhttp_range`: what is returned, and the size. -/
def ffhttpRange (d : List UInt8) (size : ℕ) : ℤ × ℕ :=
  if d.length = 1 then (-1, size)
  else
    let dash := d.idxOf 0x2d
    if dash = d.length then (-1, size)
    else
      match rangeOffset (d.take dash) size with
      | none => (-1, size)
      | some off =>
        if dash = d.length - 1 then (int64 off, size - off)
        else
          match rangeInt (d.drop (dash + 1)) with
          | none => (-1, size)
          | some n =>
            if dash = 0 then
              if n = 0 then (-1, size) else (int64 (size - min n size), min n size)
            else if (n + off) % 2 ^ 64 ≥ size then (int64 off, size - off)
            else (int64 off, (sizeSub n off + 1) % SIZE_BOUND)

/-! ### What a range selects -/

/-- The digits in front of the dash and behind it. -/
structure ByteRange where
  first : List UInt8
  last : List UInt8
  deriving DecidableEq, Repr

/-- The number that digits denote. -/
def rangeNum (s : List UInt8) : ℕ := numVal (digitOf 10) 10 0 s

namespace ByteRange

/-- The text of a range. -/
def text (r : ByteRange) : List UInt8 := r.first ++ 0x2d :: r.last

/-- There are digits only, and there is a number. -/
structure WellFormed (r : ByteRange) : Prop where
  first_digits : ∀ c ∈ r.first, (digitOf 10 c).isSome = true
  last_digits : ∀ c ∈ r.last, (digitOf 10 c).isSome = true
  some_digits : r.first ≠ [] ∨ r.last ≠ []

/-- The offset and the length of the part of the content that is selected; `none` for a range that
cannot be satisfied, and for one whose ends are in the wrong order. -/
def part (r : ByteRange) (size : ℕ) : Option (ℕ × ℕ) :=
  if r.first = [] then
    if rangeNum r.last = 0 then none else some (size - min (rangeNum r.last) size, min (rangeNum r.last) size)
  else if size ≤ rangeNum r.first then none
  else if r.last = [] then some (rangeNum r.first, size - rangeNum r.first)
  else if rangeNum r.last < rangeNum r.first then none
  else some (rangeNum r.first, min (rangeNum r.last) (size - 1) + 1 - rangeNum r.first)

end ByteRange

/-- What is expected for a range: the part that it selects, or the refusal. -/
def ByteRange.result (r : ByteRange) (size : ℕ) : ℤ × ℕ :=
  match r.part size with
  | some (off, n) => ((off : ℤ), n)
  | none => (-1, size)

/-- **The range as HTTP defines it**: a range that selects a part gives its offset and length, and
all other texts are refused. -/
def RangeAsHttp (d : List UInt8) (size : ℕ) : Prop :=
  (∀ r : ByteRange, r.WellFormed → d = r.text → ffhttpRange d size = r.result size) ∧
  ((∀ r : ByteRange, r.WellFormed → d ≠ r.text) → ffhttpRange d size = (-1, size))

/-- **The ranges that are read right.** Numbers have at most 20 digits, and the offset is below
`2 ^ 63`. For two ends, their sum is below the size if and only if the last position is; a number
that is too large has to stay so in 64 bits. -/
def ByteRange.Fits (r : ByteRange) (size : ℕ) : Prop :=
  if r.first = [] then
    rangeNum r.last = 0 ∨ (r.last.length ≤ 20 ∧ rangeNum r.last % 2 ^ 64 ≠ 0 ∧
      (rangeNum r.last < 2 ^ 64 ∨ size ≤ rangeNum r.last % 2 ^ 64) ∧ size - min (rangeNum r.last) size < 2 ^ 63)
  else if r.last = [] then
    if rangeNum r.first < size then r.first.length ≤ 20 ∧ rangeNum r.first < 2 ^ 63
    else r.first.length ≤ 20 → size ≤ rangeNum r.first % 2 ^ 64
  else if rangeNum r.first < size ∧ rangeNum r.first ≤ rangeNum r.last then
    r.first.length ≤ 20 ∧ r.last.length ≤ 20 ∧ rangeNum r.first < 2 ^ 63 ∧
      if (rangeNum r.last % 2 ^ 64 + rangeNum r.first) % 2 ^ 64 < size then
        rangeNum r.last < size ∨ rangeNum r.last % 2 ^ 64 + 1 = size
      else size ≤ rangeNum r.last + 1
  else r.first.length ≤ 20 → r.last.length ≤ 20 → size ≤ rangeNum r.first % 2 ^ 64

section Range

variable {d a b : List UInt8} {size : ℕ}

/-- **A number**: digits only, and at most 20 of them; 64 bits are left of it. -/
theorem rangeInt_eq (s : List UInt8) :
    rangeInt s =
      if s ≠ [] ∧ (∀ c ∈ s, (digitOf 10 c).isSome = true) ∧ s.length ≤ 20 then
        some (rangeNum s % 2 ^ 64)
      else none :=
  ffstrToint_u64 s

theorem ffhttpRange_nodash (h : 0x2d ∉ d) : ffhttpRange d size = (-1, size) := by
  rw [ffhttpRange]
  split
  · rfl
  · exact if_pos (idxOf_eq_length h)

theorem ffhttpRange_dash : ffhttpRange [0x2d] size = (-1, size) := rfl

/-- **`first-`** -/
theorem ffhttpRange_first (ha : 0x2d ∉ a) (hne : a ≠ []) :
    ffhttpRange (a ++ [0x2d]) size =
      match rangeOffset a size with
      | none => (-1, size)
      | some off => (int64 off, size - off) := by
  have hpos := length_pos_iff.mpr hne
  have hdash : (a ++ [0x2d]).idxOf 0x2d = a.length := by
    rw [idxOf_append_of_notMem ha, idxOf_cons_self, Nat.add_zero]
  have hlen : (a ++ [0x2d]).length = a.length + 1 := length_append
  rw [ffhttpRange]
  rw [hdash, hlen, if_neg (by omega), if_neg (by omega), take_left' rfl]
  simp only [Nat.add_sub_cancel, if_true]

/-- **`-suffix`** -/
theorem ffhttpRange_suffix (hne : b ≠ []) :
    ffhttpRange (0x2d :: b) size =
      match rangeInt b with
      | none => (-1, size)
      | some n => if n = 0 then (-1, size) else (int64 (size - min n size), min n size) := by
  have hpos := length_pos_iff.mpr hne
  have hdash : (0x2d :: b).idxOf 0x2d = 0 := idxOf_cons_self
  have hlen : (0x2d :: b).length = b.length + 1 := rfl
  rw [ffhttpRange]
  rw [hdash, hlen, if_neg (by omega), if_neg (by omega), take_zero]
  change (if 0 = b.length + 1 - 1 then _ else _) = _
  rw [if_neg (by omega)]
  simp only [if_true, Nat.zero_add, drop_one, tail_cons]

/-- **`first-last`** -/
theorem ffhttpRange_within (ha : 0x2d ∉ a) (hne : a ≠ []) (hb : b ≠ []) :
    ffhttpRange (a ++ 0x2d :: b) size =
      match rangeOffset a size with
      | none => (-1, size)
      | some off =>
        match rangeInt b with
        | none => (-1, size)
        | some n =>
          if (n + off) % 2 ^ 64 ≥ size then (int64 off, size - off)
          else (int64 off, (sizeSub n off + 1) % SIZE_BOUND) := by
  have hpos := length_pos_iff.mpr hne
  have hposb := length_pos_iff.mpr hb
  have hdash : (a ++ 0x2d :: b).idxOf 0x2d = a.length := by
    rw [idxOf_append_of_notMem ha, idxOf_cons_self, Nat.add_zero]
  have hlen : (a ++ 0x2d :: b).length = a.length + (b.length + 1) := length_append
  have hdrop : (a ++ 0x2d :: b).drop (a.length + 1) = b := by
    rw [← drop_drop, drop_left' rfl, drop_one, tail_cons]
  rw [ffhttpRange]
  rw [hdash, hlen, if_neg (by omega), if_neg (by omega), take_left' rfl, hdrop]
  have hlast : a.length ≠ a.length + (b.length + 1) - 1 := by omega
  have hzero : a.length ≠ 0 := Nat.ne_of_gt hpos
  simp only [if_neg hlast, if_neg hzero]

theorem rangeOffset_eq (hne : a ≠ []) :
    rangeOffset a size =
      if (∀ c ∈ a, (digitOf 10 c).isSome = true) ∧ a.length ≤ 20 ∧ rangeNum a % 2 ^ 64 < size then
        some (rangeNum a % 2 ^ 64)
      else none := by
  rw [rangeOffset, if_neg hne, rangeInt_eq]
  by_cases hint : a ≠ [] ∧ (∀ c ∈ a, (digitOf 10 c).isSome = true) ∧ a.length ≤ 20
  · rw [if_pos hint]
    dsimp only
    by_cases hlt : rangeNum a % 2 ^ 64 < size
    · rw [if_neg (Nat.not_le.mpr hlt), if_pos ⟨hint.2.1, hint.2.2, hlt⟩]
    · have hno : ¬((∀ c ∈ a, (digitOf 10 c).isSome = true) ∧ a.length ≤ 20 ∧
          rangeNum a % 2 ^ 64 < size) := fun h => hlt h.2.2
      rw [if_pos (Nat.le_of_not_lt hlt), if_neg hno]
  · have hno : ¬((∀ c ∈ a, (digitOf 10 c).isSome = true) ∧ a.length ≤ 20 ∧
        rangeNum a % 2 ^ 64 < size) := fun h => hint ⟨hne, h.1, h.2.1⟩
    rw [if_neg hint, if_neg hno]

theorem int64_eq_iff {x y : ℕ} (hx : x < 2 ^ 64) : int64 x = (y : ℤ) ↔ x = y ∧ y < 2 ^ 63 := by
  rw [int64]
  split <;> omega

theorem int64_ne_refused {x : ℕ} (hx : x < 2 ^ 64 - 1) : int64 x ≠ -1 := by
  rw [int64]
  split <;> omega

theorem dash_notMem (h : ∀ c ∈ a, (digitOf 10 c).isSome = true) : 0x2d ∉ a :=
  fun hmem => absurd (h _ hmem) (by decide)

/-- **`-suffix`** -/
theorem ffhttpRange_suffix_iff {r : ByteRange} (hr : r.WellFormed) (hsize : size < 2 ^ 64)
    (hfirst : r.first = []) :
    ffhttpRange r.text size = r.result size ↔ r.Fits size := by
  obtain ⟨a, b⟩ := r
  obtain rfl : a = [] := hfirst
  have hb : b ≠ [] := hr.some_digits.resolve_left (not_not.mpr rfl)
  have hall : ∀ c ∈ b, (digitOf 10 c).isSome = true := hr.last_digits
  have hint := rangeInt_eq b
  rw [ByteRange.text, nil_append, ffhttpRange_suffix hb, ByteRange.result, ByteRange.part,
    ByteRange.Fits, if_pos rfl, if_pos rfl]
  dsimp only
  obtain ⟨n, hn⟩ : ∃ n, n = rangeNum b := ⟨_, rfl⟩
  rw [← hn] at hint ⊢
  by_cases hshort : b.length ≤ 20
  · rw [hint, if_pos ⟨hb, hall, hshort⟩]
    dsimp only
    by_cases hzero : n = 0
    · rw [if_pos (by omega), if_pos hzero]
      exact ⟨fun _ => .inl hzero, fun _ => rfl⟩
    rw [if_neg hzero]
    by_cases hmod : n % 2 ^ 64 = 0
    · rw [if_pos hmod]
      rw [Prod.mk.injEq]
      omega
    · rw [if_neg hmod]
      rw [Prod.mk.injEq, int64_eq_iff (by omega)]
      omega
  rw [hint, if_neg fun h => hshort h.2.2]
  by_cases hzero : n = 0
  · rw [if_pos hzero]
    exact ⟨fun _ => .inl hzero, fun _ => rfl⟩
  · rw [if_neg hzero]
    rw [Prod.mk.injEq]
    omega

/-- **`first-`** -/
theorem ffhttpRange_first_iff {r : ByteRange} (hr : r.WellFormed) (hsize : size < 2 ^ 64)
    (hfirst : r.first ≠ []) (hlast : r.last = []) :
    ffhttpRange r.text size = r.result size ↔ r.Fits size := by
  obtain ⟨a, b⟩ := r
  obtain rfl : b = [] := hlast
  have ha : a ≠ [] := hfirst
  have hall : ∀ c ∈ a, (digitOf 10 c).isSome = true := hr.first_digits
  have hoff := @rangeOffset_eq a size ha
  rw [ByteRange.text, ffhttpRange_first (dash_notMem hall) ha, ByteRange.result, ByteRange.part,
    ByteRange.Fits, if_neg ha, if_neg ha, if_pos rfl, if_pos rfl]
  dsimp only
  obtain ⟨n, hn⟩ : ∃ n, n = rangeNum a := ⟨_, rfl⟩
  rw [← hn] at hoff ⊢
  by_cases htaken : a.length ≤ 20 ∧ n % 2 ^ 64 < size
  · have hrefused := @int64_ne_refused (n % 2 ^ 64) (by omega)
    rw [hoff, if_pos ⟨hall, htaken⟩]
    by_cases hlt : n < size
    · rw [if_neg (Nat.not_le.mpr hlt), if_pos hlt]
      rw [Prod.mk.injEq, int64_eq_iff (by omega)]
      omega
    · rw [if_pos (Nat.le_of_not_lt hlt), if_neg hlt]
      rw [Prod.mk.injEq]
      omega
  rw [hoff, if_neg fun h => htaken h.2]
  by_cases hlt : n < size
  · rw [if_neg (Nat.not_le.mpr hlt), if_pos hlt]
    rw [Prod.mk.injEq]
    omega
  · rw [if_pos (Nat.le_of_not_lt hlt), if_neg hlt]
    simp only [true_iff]
    omega

theorem within_length {off last size n : ℕ} (hoff : off < size) (hsize : size < 2 ^ 64)
    (hn : n = last % 2 ^ 64) :
    (if (n + off) % 2 ^ 64 ≥ size then size - off else (sizeSub n off + 1) % SIZE_BOUND) =
        min last (size - 1) + 1 - off ∧ off ≤ last ↔
      off ≤ last ∧ if (n + off) % 2 ^ 64 < size then last < size ∨ n + 1 = size
        else size ≤ last + 1 := by
  have hsub : (sizeSub n off + 1) % SIZE_BOUND = (n + 2 ^ 64 - off + 1) % 2 ^ 64 := by
    simp only [sizeSub, SIZE_BOUND]
    omega
  rw [hsub]
  split <;> split <;> omega

theorem ffhttpRange_within_eq (ha : a ≠ []) (hb : b ≠ [])
    (halla : ∀ c ∈ a, (digitOf 10 c).isSome = true)
    (hallb : ∀ c ∈ b, (digitOf 10 c).isSome = true) :
    ffhttpRange (a ++ 0x2d :: b) size =
      if a.length ≤ 20 ∧ rangeNum a % 2 ^ 64 < size ∧ b.length ≤ 20 then
        (int64 (rangeNum a % 2 ^ 64),
          if (rangeNum b % 2 ^ 64 + rangeNum a % 2 ^ 64) % 2 ^ 64 ≥ size then
            size - rangeNum a % 2 ^ 64
          else (sizeSub (rangeNum b % 2 ^ 64) (rangeNum a % 2 ^ 64) + 1) % SIZE_BOUND)
      else (-1, size) := by
  rw [ffhttpRange_within (dash_notMem halla) ha hb, rangeOffset_eq ha, rangeInt_eq]
  by_cases hoff : a.length ≤ 20 ∧ rangeNum a % 2 ^ 64 < size
  · rw [if_pos ⟨halla, hoff⟩]
    by_cases hlast : b.length ≤ 20
    · rw [if_pos ⟨hb, hallb, hlast⟩, if_pos ⟨hoff.1, hoff.2, hlast⟩]
      dsimp only
      split <;> rfl
    · have hno : ¬(a.length ≤ 20 ∧ rangeNum a % 2 ^ 64 < size ∧ b.length ≤ 20) :=
        fun h => hlast h.2.2
      rw [if_neg fun h => hlast h.2.2, if_neg hno]
  · have hno : ¬(a.length ≤ 20 ∧ rangeNum a % 2 ^ 64 < size ∧ b.length ≤ 20) :=
      fun h => hoff ⟨h.1, h.2.1⟩
    rw [if_neg fun h => hoff h.2, if_neg hno]

/-- **`first-last`** -/
theorem ffhttpRange_within_iff {r : ByteRange} (hr : r.WellFormed) (hsize : size < 2 ^ 64)
    (hfirst : r.first ≠ []) (hlast : r.last ≠ []) :
    ffhttpRange r.text size = r.result size ↔ r.Fits size := by
  obtain ⟨a, b⟩ := r
  have ha : a ≠ [] := hfirst
  have hb : b ≠ [] := hlast
  rw [ByteRange.text, ffhttpRange_within_eq ha hb hr.first_digits hr.last_digits,
    ByteRange.result, ByteRange.part, ByteRange.Fits, if_neg ha, if_neg ha, if_neg hb, if_neg hb]
  dsimp only
  obtain ⟨off, hoff⟩ : ∃ off, off = rangeNum a := ⟨_, rfl⟩
  obtain ⟨last, hlastn⟩ : ∃ last, last = rangeNum b := ⟨_, rfl⟩
  rw [← hoff, ← hlastn]
  by_cases hgood : off < size ∧ off ≤ last
  · have hmod : off % 2 ^ 64 = off := Nat.mod_eq_of_lt (by omega)
    rw [if_neg (Nat.not_le.mpr hgood.1), if_neg (Nat.not_lt.mpr hgood.2), if_pos hgood, hmod]
    by_cases hshort : a.length ≤ 20 ∧ b.length ≤ 20
    · have hlen := within_length hgood.1 hsize (Eq.refl (last % 2 ^ 64))
      simp only [hgood.2, and_true, true_and] at hlen
      rw [if_pos ⟨hshort.1, hgood.1, hshort.2⟩, Prod.mk.injEq, hlen, int64_eq_iff (by omega)]
      simp only [hshort.1, hshort.2, true_and]
    · rw [if_neg fun h => hshort ⟨h.1, h.2.2⟩, Prod.mk.injEq]
      refine ⟨fun h => ?_, fun h => absurd ⟨h.1, h.2.1⟩ hshort⟩
      omega
  have hresult : (match (if size ≤ off then none
        else if last < off then none
        else some (off, min last (size - 1) + 1 - off) : Option (ℕ × ℕ)) with
      | some (off, n) => ((off : ℤ), n)
      | none => (-1, size)) = ((-1 : ℤ), size) := by
    by_cases hsat : size ≤ off
    · rw [if_pos hsat]
    · rw [if_neg hsat, if_pos (by omega)]
  rw [hresult, if_neg hgood]
  by_cases htaken : a.length ≤ 20 ∧ off % 2 ^ 64 < size ∧ b.length ≤ 20
  · have hrefused := @int64_ne_refused (off % 2 ^ 64) (by omega)
    rw [if_pos htaken, Prod.mk.injEq]
    omega
  · rw [if_neg htaken]
    simp only [true_iff]
    omega

/-- **All forms** -/
theorem ffhttpRange_text_iff {r : ByteRange} (hr : r.WellFormed) (hsize : size < 2 ^ 64) :
    ffhttpRange r.text size = r.result size ↔ r.Fits size := by
  by_cases hfirst : r.first = []
  · exact ffhttpRange_suffix_iff hr hsize hfirst
  · by_cases hlast : r.last = []
    · exact ffhttpRange_first_iff hr hsize hfirst hlast
    · exact ffhttpRange_within_iff hr hsize hfirst hlast

/-- **Other texts are refused.** -/
theorem ffhttpRange_refused (h : ∀ r : ByteRange, r.WellFormed → d ≠ r.text) :
    ffhttpRange d size = (-1, size) := by
  by_cases hdash : (0x2d : UInt8) ∈ d
  · obtain ⟨a, b, rfl, ha⟩ := eq_append_cons_of_mem hdash
    have hbad : (∀ c ∈ a, (digitOf 10 c).isSome = true) →
        (∀ c ∈ b, (digitOf 10 c).isSome = true) → a = [] ∧ b = [] := by
      intro halla hallb
      by_contra hsome
      exact h ⟨a, b⟩ ⟨halla, hallb, not_and_or.mp hsome⟩ rfl
    have hnob : b ≠ [] → (∀ c ∈ a, (digitOf 10 c).isSome = true) → rangeInt b = none := by
      intro hb halla
      rw [rangeInt_eq, if_neg fun hint => hb (hbad halla hint.2.1).2]
    by_cases hnila : a = []
    · subst hnila
      rw [nil_append]
      by_cases hnilb : b = []
      · rw [hnilb, ffhttpRange_dash]
      · rw [ffhttpRange_suffix hnilb, hnob hnilb fun c hc => absurd hc not_mem_nil]
    by_cases halla : ∀ c ∈ a, (digitOf 10 c).isSome = true
    · have hnilb : b ≠ [] := by
        rintro rfl
        exact hnila (hbad halla fun c hc => absurd hc not_mem_nil).1
      rw [ffhttpRange_within ha hnila hnilb, hnob hnilb halla]
      split <;> rfl
    · have hnone : rangeOffset a size = none := by
        rw [rangeOffset_eq hnila, if_neg fun hoff => halla hoff.1]
      by_cases hnilb : b = []
      · rw [hnilb, ffhttpRange_first ha hnila, hnone]
      · rw [ffhttpRange_within ha hnila hnilb, hnone]
  · exact ffhttpRange_nodash hdash

/-- **A range is read as HTTP defines it** exactly where the numbers and the size are as in
`ByteRange.Fits`. -/
theorem ffhttpRange_iff (d : List UInt8) (size : ℕ) (hsize : size < 2 ^ 64) :
    RangeAsHttp d size ↔ ∀ r : ByteRange, r.WellFormed → d = r.text → r.Fits size := by
  constructor
  · rintro ⟨h, -⟩ r hr rfl
    exact (ffhttpRange_text_iff hr hsize).mp (h r hr rfl)
  · intro h
    refine ⟨?_, ffhttpRange_refused⟩
    rintro r hr rfl
    exact (ffhttpRange_text_iff hr hsize).mpr (h r hr rfl)

theorem ByteRange.eq_of_text {r : ByteRange} (hr : r.WellFormed) (h : r.text = a ++ 0x2d :: b) :
    r = ⟨a, b⟩ := by
  obtain ⟨first, last⟩ := r
  have hfirst : (0x2d : UInt8) ∉ first := dash_notMem hr.first_digits
  have hlast : (0x2d : UInt8) ∉ last := dash_notMem hr.last_digits
  obtain ⟨rfl, -, rfl⟩ := (append_cons_inj_of_notMem hfirst hlast).mp h
  rfl

/-- The range in the tests. -/
theorem ffhttpRange_iff_within : RangeAsHttp (ascii "123-456") 789 := by
  refine (ffhttpRange_iff (ascii "123-456") 789 (by decide)).mpr fun r hr htext => ?_
  obtain rfl := @ByteRange.eq_of_text (ascii "123") (ascii "456") r hr htext.symm
  rw [ByteRange.Fits]
  decide

/-- **The ends together are not below the size**: the range is taken for one that goes on to the
end. -/
theorem ffhttpRange_long :
    ffhttpRange (ascii "400-500") 789 = (400, 389) ∧ ¬RangeAsHttp (ascii "400-500") 789 := by
  refine ⟨rfl, fun h => ?_⟩
  have hwf : ByteRange.WellFormed ⟨ascii "400", ascii "500"⟩ :=
    ⟨all_eq_true.mp rfl, all_eq_true.mp rfl, .inl (cons_ne_nil _ _)⟩
  have hresult := h.1 ⟨ascii "400", ascii "500"⟩ hwf rfl
  have hlen : (389 : ℕ) = 101 := congrArg Prod.snd hresult
  omega

end Range

end Http

end FF
