import Mathlib.Algebra.Order.Group.Nat
import Mathlib.Data.List.Basic

/-!
# Reading inside of a buffer

A program that reads a buffer through a pointer may leave it. Here the pointer is an index, and
an access outside is a result of its own, as is a loop that does not end.

## Main results

* `readBytes_eq`: a read of bytes that all lie in the buffer.
* `beNat_lt`: the value of bytes, the highest one first.
* `bind_eq_ok`: a result of one computation behind another.
-/

namespace FF

open List

/-- Why there is no result: a read or a write outside of the memory, or a loop without an end. -/
inductive MemStop
  | overread
  | overwrite
  | endless
  deriving DecidableEq, Repr

section Results

universe u

variable {ε ε' : Type*} {α β : Type u}

/-- **A result of `f` behind `x`** comes from a result of `x`. -/
theorem bind_eq_ok {x : Except ε α} {f : α → Except ε β} {b : β} :
    x >>= f = .ok b ↔ ∃ a, x = .ok a ∧ f a = .ok b := by
  cases x with
  | error e =>
    constructor
    · intro h
      cases h
    · rintro ⟨a, h, -⟩
      cases h
  | ok a =>
    constructor
    · intro h
      exact ⟨a, rfl, h⟩
    · rintro ⟨a', h, hf⟩
      cases h
      exact hf

/-- A result does not depend on the name of the errors. -/
theorem mapError_eq_ok {f : ε → ε'} {x : Except ε α} {a : α} :
    x.mapError f = .ok a ↔ x = .ok a := by
  cases x with
  | error e =>
    constructor
    · intro h
      cases h
    · intro h
      cases h
  | ok b =>
    constructor
    · intro h
      cases h
      rfl
    · intro h
      cases h
      rfl

end Results

/-- Read the byte with the index `i`. -/
def readAt (d : List UInt8) (i : ℕ) : Except MemStop UInt8 :=
  match d[i]? with
  | some b => .ok b
  | none => .error .overread

/-- Read `n` bytes from the index `i` on. -/
def readBytes (d : List UInt8) (i n : ℕ) : Except MemStop (List UInt8) :=
  if i + n ≤ d.length then .ok ((d.drop i).take n) else .error .overread

/-- The value of bytes, the highest one first. -/
def beNat (bs : List UInt8) : ℕ := bs.foldl (fun n b => n * 256 + b.toNat) 0

theorem readAt_eq {d : List UInt8} {i : ℕ} (h : i < d.length) : readAt d i = .ok d[i] := by
  rw [readAt, getElem?_eq_getElem h]

theorem lt_of_drop {d l : List UInt8} {i : ℕ} {c : UInt8} (h : d.drop i = c :: l) :
    i < d.length := by
  have hlen := congrArg List.length h
  rw [length_drop, length_cons] at hlen
  omega

theorem drop_succ {d l : List UInt8} {i : ℕ} {c : UInt8} (h : d.drop i = c :: l) :
    d.drop (i + 1) = l := by
  rw [← drop_drop, h]
  rfl

/-- Read the first of the bytes that lie at `i`. -/
theorem readAt_of_drop {d l : List UInt8} {i : ℕ} {c : UInt8} (h : d.drop i = c :: l) :
    readAt d i = .ok c := by
  have hget := congrArg (fun l : List UInt8 => l[0]?) h
  rw [getElem?_drop, Nat.add_zero] at hget
  rw [readAt, hget]
  rfl

/-- **A read inside of the buffer** -/
theorem readBytes_eq {d : List UInt8} {i n : ℕ} (h : i + n ≤ d.length) :
    readBytes d i n = .ok ((d.drop i).take n) := if_pos h

theorem foldl_beNat_lt (bs : List UInt8) (a : ℕ) :
    bs.foldl (fun n b => n * 256 + b.toNat) a < (a + 1) * 256 ^ bs.length := by
  induction bs generalizing a with
  | nil => simp
  | cons b bs ih =>
    have hb := b.toNat_lt
    have hle : (a * 256 + b.toNat + 1) ≤ (a + 1) * 256 := by omega
    calc bs.foldl (fun n b => n * 256 + b.toNat) (a * 256 + b.toNat)
        < (a * 256 + b.toNat + 1) * 256 ^ bs.length := ih _
      _ ≤ (a + 1) * 256 * 256 ^ bs.length := Nat.mul_le_mul_right _ hle
      _ = (a + 1) * 256 ^ (b :: bs).length := by
          rw [length_cons, Nat.pow_succ, Nat.mul_assoc, Nat.mul_comm 256]

/-- **The value of bytes** is below the power for their number. -/
theorem beNat_lt (bs : List UInt8) : beNat bs < 256 ^ bs.length := by
  have h := foldl_beNat_lt bs 0
  rwa [Nat.zero_add, Nat.one_mul] at h

end FF
