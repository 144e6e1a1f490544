import Mathlib.Data.Nat.Notation
import Mathlib.Order.Defs.LinearOrder

/-!
# Growing byte arrays

`ffarr` is a pointer, a length and a capacity. With the capacity 0 it refers to memory of
somebody else, whose bytes it does not own; it is copied when it has to grow.
-/

namespace FF

open List Option

/-- A byte array: a reference to the memory `data`, which begins at the pointer, or owned
memory. -/
inductive Ffarr
  | ref (data : List UInt8) (len : ℕ)
  | own (bytes : List UInt8) (cap : ℕ)
  deriving DecidableEq, Repr

namespace Ffarr

/-- The bytes between the pointer and the end. -/
def bytes : Ffarr → List UInt8
  | ref data len => data.take len
  | own bytes _ => bytes

/-- The number of bytes. -/
def len : Ffarr → ℕ
  | ref _ len => len
  | own bytes _ => bytes.length

/-- The capacity; 0 for a reference. -/
def cap : Ffarr → ℕ
  | ref _ _ => 0
  | own _ cap => cap

/-- An array without memory. -/
def null : Ffarr := ref [] 0

end Ffarr

/-- `_ffarr_realloc`: memory for `newlen` bytes, with the old bytes copied; `none` where the
allocation fails. -/
def ffarrRealloc (alloc : ℕ → Bool) (ar : Ffarr) (newlen : ℕ) : Option Ffarr :=
  let newlen := if newlen = 0 then 1 else newlen
  if ar.cap ≠ 0 ∧ ar.cap ≥ newlen then some ar
  else if alloc newlen then some (.own (ar.bytes.take newlen) newlen)
  else none

/-- `_ffarr_grow` with `FFARR_GROWQUARTER`: room for `n` more bytes, at least `lowat` or a quarter
of what is there. -/
def ffarrGrow (alloc : ℕ → Bool) (ar : Ffarr) (n lowat : ℕ) : Option Ffarr :=
  let newcap := ar.len + n
  if ar.cap ≥ newcap then some ar
  else
    let lowat := max lowat (newcap / 4)
    ffarrRealloc alloc ar (ar.len + max lowat n)

/-- `_ffarr_append`: copy bytes to the end. -/
def ffarrAppend (alloc : ℕ → Bool) (ar : Ffarr) (src : List UInt8) : Option Ffarr := do
  let ar ← (if ar.cap < ar.len + src.length then ffarrRealloc alloc ar (ar.len + src.length)
    else some ar)
  match ar with
  | .ref .. => some ar
  | .own bytes cap => some (.own (bytes ++ src) cap)

/-- What follows the bytes in the memory that is referred to. -/
def Ffarr.next : Ffarr → Option (List UInt8)
  | .ref data len => some (data.drop len)
  | .own _ _ => none

/-- Another length, where there are as many bytes. -/
def Ffarr.setLen (n : ℕ) : Ffarr → Ffarr
  | .ref data _ => .ref data n
  | .own bytes cap => .own (bytes.take n) cap

/-- `ffarr_gather`: bytes of `d` until there are `til`, which are only referred to where the array
is empty or refers to what lies directly before `d`. The array and the number of bytes;
`none` for -1. -/
def ffarrGather (alloc : ℕ → Bool) (ar : Ffarr) (d : List UInt8) (til : ℕ) : Option (Ffarr × ℕ) :=
  if ar.len ≥ til then some (ar, 0)
  else if ar.len = 0 ∧ d.length ≥ til then some (.ref d til, til)
  else if ar.next = some d ∧ ar.len + d.length ≥ til then some (ar.setLen til, til - ar.len)
  else do
    let ar ← (if ar.cap < til then ffarrRealloc alloc ar til else some ar)
    let n := min d.length (til - ar.len)
    some ((ffarrAppend alloc ar (d.take n)).getD ar, n)

/-- What `ffarr_append_until` gives: -1, a failed assertion, 0, or the number of bytes. -/
inductive Gathered
  | fail
  | assert
  | more (ar : Ffarr)
  | done (ar : Ffarr) (n : ℕ)
  deriving DecidableEq, Repr

/-- `ffarr_append_until` -/
def ffarrAppendUntil (alloc : ℕ → Bool) (ar : Ffarr) (d : List UInt8) (til : ℕ) : Gathered :=
  match ffarrGather alloc ar d til with
  | none => .fail
  | some (ar, r) =>
    if r = 0 ∧ d ≠ [] then .assert
    else if r = 0 ∨ ar.len < til then .more ar
    else .done ar r

/-! ### What an array holds -/

section Buffer

/-- What a reference covers lies directly before `d`. -/
def Ffarr.Adjacent (b : Ffarr) (d : List UInt8) : Prop :=
  ∀ data len, b = .ref data len → len ≠ 0 → data.drop len = d

/-- The array does not depend on memory of somebody else. -/
def Ffarr.Owned (b : Ffarr) : Prop := ∀ data len, b = .ref data len → len = 0

/-- The array holds the bytes `l`. -/
def Ffarr.Has (b : Ffarr) (l : List UInt8) : Prop := b.bytes = l ∧ b.len = l.length

/-- The memory that is referred to has changed. -/
def Ffarr.stale (mem : List UInt8 → List UInt8) : Ffarr → Ffarr
  | .ref data len => .ref (mem data) len
  | .own bytes cap => .own bytes cap

variable {b : Ffarr} {l : List UInt8} {alloc : ℕ → Bool}

theorem Ffarr.Owned.adjacent (h : b.Owned) (d : List UInt8) : b.Adjacent d :=
  fun data len hb hlen => absurd (h data len hb) hlen

theorem Ffarr.Has.owned (h : b.Has []) : b.Owned := by
  rintro data len rfl
  exact h.2

theorem Ffarr.Owned.stale (h : b.Owned) (hl : b.Has l) (mem : List UInt8 → List UInt8) :
    (b.stale mem).Owned ∧ (b.stale mem).Has l := by
  cases b with
  | own bytes cap => exact ⟨h, hl⟩
  | ref data len =>
    obtain rfl : len = 0 := h data len rfl
    obtain rfl : l = [] := by simpa [Ffarr.Has, Ffarr.bytes, Ffarr.len] using hl.1.symm
    refine ⟨?_, by simp [Ffarr.stale, Ffarr.bytes], by simp [Ffarr.stale, Ffarr.len]⟩
    rintro data' len' hb
    cases hb
    rfl

theorem has_null : Ffarr.null.Has [] := ⟨rfl, rfl⟩

/-- **Growing** makes room and keeps the bytes. -/
theorem ffarrGrow_spec (halloc : ∀ n, alloc n = true) (h : b.Has l) (n lowat : ℕ) :
    ∃ b', ffarrGrow alloc b n lowat = some b' ∧ b'.Has l ∧ l.length + n ≤ b'.cap := by
  obtain ⟨m, hm⟩ : ∃ m, m = b.len + max (max lowat ((b.len + n) / 4)) n := ⟨_, rfl⟩
  rw [← h.2]
  by_cases hcap : b.len + n ≤ b.cap
  · exact ⟨b, by simp only [ffarrGrow, ge_iff_le, if_pos hcap], h, hcap⟩
  have hreal : ¬(b.cap ≠ 0 ∧ b.cap ≥ if m = 0 then 1 else m) := by
    split <;> omega
  simp only [ffarrGrow, ge_iff_le, if_neg hcap, ← hm, ffarrRealloc]
  rw [if_neg hreal, if_pos (halloc _)]
  have htake : b.bytes.take (if m = 0 then 1 else m) = l := by
    rw [h.1, take_of_length_le]
    have := h.2
    split <;> omega
  refine ⟨_, rfl, ⟨htake, by rw [htake]; rfl⟩, ?_⟩
  simp only [Ffarr.cap]
  split <;> omega

/-- **Appending** where there is room. -/
theorem ffarrAppend_spec (h : b.Has l) {s : List UInt8} (hcap : l.length + s.length ≤ b.cap) :
    ∃ b', ffarrAppend alloc b s = some b' ∧ b'.Has (l ++ s) ∧ b'.Owned := by
  have hlen := h.2
  simp only [ffarrAppend]
  rw [if_neg (by omega)]
  cases b with
  | ref data len =>
    have h0 : l.length = 0 ∧ s.length = 0 := by simpa [Ffarr.cap] using hcap
    obtain ⟨rfl, rfl⟩ : l = [] ∧ s = [] := by simpa using h0
    exact ⟨_, rfl, h, h.owned⟩
  | own bytes cap =>
    obtain rfl : bytes = l := h.1
    refine ⟨_, rfl, ⟨rfl, rfl⟩, fun data len hb => ?_⟩
    cases hb

/-- **Appending** makes room. -/
theorem ffarrAppend_grow (halloc : ∀ n, alloc n = true) (h : b.Has l) {s : List UInt8}
    (hs : s ≠ []) :
    ∃ b', ffarrAppend alloc b s = some b' ∧ b'.Has (l ++ s) ∧ l.length + s.length ≤ b'.cap := by
  have hlen := h.2
  have hpos := length_pos_iff.mpr hs
  simp only [ffarrAppend]
  by_cases hcap : b.cap < b.len + s.length
  · have htake : b.bytes.take (b.len + s.length) = l := by
      rw [h.1, take_of_length_le (by omega)]
    have hzero : b.len + s.length ≠ 0 := by omega
    have hno : ¬(b.cap ≠ 0 ∧ b.cap ≥ b.len + s.length) := by omega
    rw [if_pos hcap]
    simp only [ffarrRealloc, if_neg hzero, if_neg hno, halloc, if_true, htake]
    exact ⟨_, rfl, ⟨rfl, rfl⟩, Nat.le_of_eq (by rw [← hlen]; rfl)⟩
  rw [if_neg hcap]
  cases b with
  | ref data len =>
    simp only [Ffarr.cap] at hcap
    omega
  | own bytes cap =>
    obtain rfl : bytes = l := h.1
    exact ⟨_, rfl, ⟨rfl, rfl⟩, by simpa [Ffarr.cap, Ffarr.len] using hcap⟩

theorem Ffarr.Has.setLen (h : b.Has l) {n : ℕ} (hn : n ≤ l.length) :
    (b.setLen n).Has (l.take n) := by
  cases b with
  | ref data len =>
    obtain ⟨h1, h2⟩ := h
    simp only [Ffarr.bytes, Ffarr.len] at h1 h2
    refine ⟨?_, by simp [Ffarr.setLen, Ffarr.len, hn]⟩
    rw [← h1, take_take]
    simp [Ffarr.setLen, Ffarr.bytes, h2, hn]
  | own bytes cap =>
    obtain rfl : bytes = l := h.1
    exact ⟨rfl, rfl⟩

@[simp] theorem Ffarr.cap_setLen (b : Ffarr) (n : ℕ) : (b.setLen n).cap = b.cap := by
  cases b <;> rfl

/-- **Gathering** bytes for less than there have to be: the array takes all of them, or as many as
are needed. -/
theorem ffarrGather_spec (halloc : ∀ n, alloc n = true) (h : b.Has l) {d : List UInt8} {til : ℕ}
    (hl : l.length < til) :
    ∃ b', ffarrGather alloc b d til = some (b', min d.length (til - l.length)) ∧
      b'.Has (l ++ d.take (til - l.length)) := by
  have hlen := h.2
  rw [ffarrGather, if_neg (by omega)]
  by_cases hnew : b.len = 0 ∧ d.length ≥ til
  · obtain rfl : l = [] := length_eq_zero_iff.mp (by omega)
    rw [if_pos hnew, length_nil, Nat.sub_zero, Nat.min_eq_right hnew.2]
    exact ⟨_, rfl, rfl, by simp [Ffarr.len, hnew.2]⟩
  rw [if_neg hnew]
  by_cases hnext : b.next = some d ∧ b.len + d.length ≥ til
  · obtain ⟨hd, hroom⟩ := hnext
    rw [if_pos ⟨hd, hroom⟩, Nat.min_eq_right (by omega), hlen]
    refine ⟨_, rfl, ?_⟩
    cases b with
    | own bytes cap => cases hd
    | ref data len =>
      simp only [Ffarr.next, some.injEq] at hd
      obtain ⟨h1, h2⟩ := h
      simp only [Ffarr.bytes, Ffarr.len] at h1 h2
      subst h2
      have hle : l.length ≤ til := by omega
      refine ⟨?_, by simp [Ffarr.setLen, Ffarr.len]; omega⟩
      have hadd : data.take (l.length + (til - l.length)) = _ := take_add
      rw [Nat.add_sub_cancel' hle, h1, hd] at hadd
      exact hadd
  rw [if_neg hnext]
  obtain ⟨b₁, hb₁, hhas₁, hcap₁⟩ : ∃ b₁, (if b.cap < til then ffarrRealloc alloc b til else some b) =
      some b₁ ∧ b₁.Has l ∧ til ≤ b₁.cap := by
    by_cases hcap : b.cap < til
    · have hzero : til ≠ 0 := by omega
      have hno : ¬(b.cap ≠ 0 ∧ b.cap ≥ til) := by omega
      rw [if_pos hcap]
      simp only [ffarrRealloc, if_neg hzero, if_neg hno, halloc, if_true]
      have htake : b.bytes.take til = l := by rw [h.1, take_of_length_le (by omega)]
      rw [htake]
      exact ⟨_, rfl, ⟨rfl, rfl⟩, Nat.le_refl til⟩
    · exact ⟨b, if_neg hcap, h, by omega⟩
  have hlen₁ := hhas₁.2
  obtain ⟨b₂, hb₂, hhas₂, -⟩ := @ffarrAppend_spec b₁ l alloc hhas₁
    (d.take (min d.length (til - l.length))) (by rw [length_take]; omega)
  refine ⟨b₂, ?_, ?_⟩
  · simp only [hb₁, bind_eq_bind, bind_some, hlen₁, hb₂, getD_some]
  · rwa [Nat.min_comm, ← take_eq_take_min] at hhas₂

/-- **Gathering until there is enough**: bytes that are not enough are all taken. -/
theorem ffarrAppendUntil_spec (halloc : ∀ n, alloc n = true) (h : b.Has l) {d : List UInt8}
    {til : ℕ} (hl : l.length < til) :
    ∃ b', if l.length + d.length < til then
        ffarrAppendUntil alloc b d til = .more b' ∧ b'.Has (l ++ d)
      else ffarrAppendUntil alloc b d til = .done b' (til - l.length) ∧
        b'.Has (l ++ d.take (til - l.length)) := by
  obtain ⟨b', hb', hhas⟩ := @ffarrGather_spec b l alloc halloc h d til hl
  have hlen := hhas.2
  rw [length_append, length_take] at hlen
  refine ⟨b', ?_⟩
  rw [ffarrAppendUntil, hb']
  split
  · next hfew =>
      rw [take_of_length_le (by omega)] at hhas
      refine ⟨?_, hhas⟩
      have hassert : ¬(min d.length (til - l.length) = 0 ∧ d ≠ []) := by
        rintro ⟨hmin, hd⟩
        have := length_pos_iff.mpr hd
        omega
      simp only [if_neg hassert]
      exact if_pos (.inr (by omega))
  · next hmany =>
      refine ⟨?_, hhas⟩
      have hpos : min d.length (til - l.length) ≠ 0 := by omega
      simp only
      rw [if_neg fun hno => hpos hno.1, if_neg (by omega), Nat.min_eq_right (by omega)]

end Buffer

end FF
