import FF.Lib.Bytes
import Mathlib.Algebra.BigOperators.Group.List.Basic
import Mathlib.Algebra.Ring.Nat
import Mathlib.Data.List.GetD

/-!
# Blocks of fields

A block is a list of bytes with fields of fixed widths, one behind the other. It is written and
read at offsets; `Block` says which fields it has, and an offset is the sum of the widths of the
fields in front of it.

## Main results

* `Block.setBytes`: what is written into a field changes this field alone.
* `Block.field`: what is read at the place of a field is the field.
* `beNat_beBytes`, `leNat_leBytes`: a number is read back from its bytes.
-/

namespace FF

open List

/-- The `len` bytes at `off`. -/
def field (b : List UInt8) (off len : ℕ) : List UInt8 := (b.drop off).take len

/-- Write bytes at `off`. -/
def setBytes (b : List UInt8) (off : ℕ) (bytes : List UInt8) : List UInt8 :=
  b.take off ++ bytes ++ b.drop (off + bytes.length)

/-- `ffint_hton16`, `ffint_hton32`, `ffint_hton64`: the bytes of a number, the highest one first. -/
def beBytes : ℕ → ℕ → List UInt8
  | 0, _ => []
  | n + 1, i => beBytes n (i / 256) ++ [UInt8.ofNat (i % 256)]

/-- `ffint_htol16`, `ffint_htol32`, `ffint_htol64`: the bytes of a number, the lowest one first. -/
def leBytes : ℕ → ℕ → List UInt8
  | 0, _ => []
  | n + 1, i => UInt8.ofNat (i % 256) :: leBytes n (i / 256)

/-- The value of bytes, the lowest one first. -/
def leNat : List UInt8 → ℕ
  | [] => 0
  | b :: bs => b.toNat + 256 * leNat bs

/-- A field of `width` bytes that begins with `bytes`. -/
def padded (width : ℕ) (bytes : List UInt8) : List UInt8 :=
  bytes ++ List.replicate (width - bytes.length) 0

/-- The block `b` has the fields `fs`, which have the widths `ws`. -/
structure Block (ws : List ℕ) (b : List UInt8) (fs : List (List UInt8)) : Prop where
  eq : b = fs.flatten
  widths : fs.map List.length = ws

namespace Block

variable {ws : List ℕ} {b : List UInt8} {fs : List (List UInt8)} {off i : ℕ}

/-- The block without any content. -/
theorem empty (ws : List ℕ) :
    Block ws (List.replicate ws.sum 0) (ws.map fun w => List.replicate w 0) where
  eq := by
    induction ws with
    | nil => rfl
    | cons w ws ih => rw [sum_cons, replicate_add, ih, map_cons, flatten_cons]
  widths := by
    rw [map_map]
    exact (map_congr_left fun w _ => length_replicate).trans (map_id ws)

theorem length_eq (h : Block ws b fs) : b.length = ws.sum := by
  rw [h.eq, length_flatten, h.widths]

theorem length_getD (h : Block ws b fs) (i : ℕ) : (fs.getD i []).length = ws.getD i 0 := by
  rw [← h.widths]
  exact (getD_map fs [] List.length).symm

/-- The bytes in front of a field. -/
theorem take (h : Block ws b fs) (i : ℕ) (hoff : off = (ws.take i).sum) :
    b.take off = (fs.take i).flatten := by
  rw [hoff, h.eq, ← h.widths, take_sum_flatten]

/-- The field with the index `i`, and the bytes behind it. -/
theorem drop (h : Block ws b fs) (i : ℕ) (hi : i < ws.length) (hoff : off = (ws.take i).sum) :
    b.drop off = fs.getD i [] ++ (fs.drop (i + 1)).flatten := by
  have hi' : i < fs.length := by rwa [← length_map List.length, h.widths]
  rw [hoff, h.eq, ← h.widths, drop_sum_flatten, drop_eq_getElem_cons hi',
    flatten_cons, getD_eq_getElem fs [] hi']

/-- **What is read at the place of a field is the field.** -/
theorem field (h : Block ws b fs) (i : ℕ) (hi : i < ws.length) (hoff : off = (ws.take i).sum)
    {len : ℕ} (hlen : len = ws.getD i 0) : field b off len = fs.getD i [] := by
  rw [FF.field, h.drop i hi hoff, hlen, ← h.length_getD i]
  exact take_left' rfl

/-- The first byte of a field. -/
theorem getD (h : Block ws b fs) (i : ℕ) (hi : i < ws.length) (hoff : off = (ws.take i).sum)
    (hpos : ws.getD i 0 ≠ 0) : b.getD off 0 = (fs.getD i []).getD 0 0 := by
  have hne : 0 < (fs.getD i []).length := by
    rw [h.length_getD]
    omega
  have hget := congrArg (fun l : List UInt8 => l[0]?) (h.drop i hi hoff)
  rw [getElem?_drop, Nat.add_zero, getElem?_append_left hne] at hget
  exact congrArg (fun b : Option UInt8 => b.getD 0) hget

/-- **What is written into a field changes this field alone.** -/
theorem setBytes (h : Block ws b fs) (i : ℕ) (hi : i < ws.length) (hoff : off = (ws.take i).sum)
    {bytes : List UInt8} (hb : bytes.length ≤ ws.getD i 0) :
    Block ws (setBytes b off bytes)
      (fs.set i (bytes ++ (fs.getD i []).drop bytes.length)) where
  eq := by
    have hi' : i < fs.length := by rwa [← length_map List.length, h.widths]
    have hlen := h.length_getD i
    rw [FF.setBytes, ← drop_drop, h.drop i hi hoff, h.take i hoff,
      drop_append_of_le_length (by omega), set_eq_take_append_cons_drop, if_pos hi',
      flatten_append, flatten_cons]
    simp only [append_assoc]
  widths := by
    have hlen := h.length_getD i
    rw [map_set, h.widths, length_append, length_drop,
      Nat.add_sub_cancel' (by omega), hlen, getD_eq_getElem ws 0 hi, set_getElem_self]

/-- **Writes into fields**, one after another. -/
theorem writes (h : Block ws b fs) {l : List (ℕ × List UInt8)}
    (hl : ∀ p ∈ l, p.1 < ws.length ∧ p.2.length ≤ ws.getD p.1 0) :
    Block ws (l.foldl (fun b p => FF.setBytes b (ws.take p.1).sum p.2) b)
      (l.foldl (fun fs p => fs.set p.1 (p.2 ++ (fs.getD p.1 []).drop p.2.length)) fs) := by
  induction l generalizing b fs with
  | nil => exact h
  | cons p l ih =>
    obtain ⟨⟨hi, hb⟩, hl⟩ := forall_mem_cons.mp hl
    exact ih (h.setBytes p.1 hi rfl hb) hl

end Block

/-- What is written into an empty field. -/
theorem append_drop_replicate (bytes : List UInt8) (width : ℕ) :
    bytes ++ (List.replicate width 0).drop bytes.length = padded width bytes := by
  rw [drop_replicate, padded]

theorem length_padded {width : ℕ} {bytes : List UInt8} (h : bytes.length ≤ width) :
    (padded width bytes).length = width := by
  rw [padded, length_append, length_replicate, Nat.add_sub_cancel' h]

/-- Empty bytes behind a field make it wider. -/
theorem padded_append {width k : ℕ} {bytes : List UInt8} (h : bytes.length ≤ width) :
    padded width bytes ++ List.replicate k 0 = padded (width + k) bytes := by
  rw [padded, padded, append_assoc, ← replicate_add, Nat.sub_add_comm h]

/-! ### Parts -/

section Parts

variable {b bytes : List UInt8} {off o l : ℕ}

theorem length_setBytes (h : off + bytes.length ≤ b.length) :
    (setBytes b off bytes).length = b.length := by
  rw [setBytes, length_append, length_append, length_take, length_drop]
  omega

theorem length_field (h : off + l ≤ b.length) : (field b off l).length = l := by
  rw [field, length_take, length_drop]
  omega

/-- **Two parts**, one behind the other -/
theorem field_add (b : List UInt8) (o l l' : ℕ) :
    field b o (l + l') = field b o l ++ field b (o + l) l' := by
  rw [field, field, field, take_add, drop_drop]

/-- **What was written** -/
theorem field_setBytes_self (h : off ≤ b.length) :
    field (setBytes b off bytes) off bytes.length = bytes := by
  have hlen : (b.take off).length = off := by rw [length_take, Nat.min_eq_left h]
  rw [field, setBytes, append_assoc, drop_left' hlen]
  exact take_left' rfl

/-- What lies in front of the bytes that are written does not change. -/
theorem field_setBytes_of_le (hol : o + l ≤ off) (h : off ≤ b.length) :
    field (setBytes b off bytes) o l = field b o l := by
  have hlen : (b.take off).length = off := by rw [length_take, Nat.min_eq_left h]
  have hsub : l ≤ ((b.take off).drop o).length := by
    rw [length_drop, hlen]
    omega
  rw [field, setBytes, append_assoc, drop_append_of_le_length (by omega),
    take_append_of_le_length hsub, drop_take, take_take,
    Nat.min_eq_left (by omega), field]

/-- What lies behind the bytes that are written does not change. -/
theorem field_setBytes_of_ge (hol : off + bytes.length ≤ o) (h : off ≤ b.length) :
    field (setBytes b off bytes) o l = field b o l := by
  have hlen : (b.take off ++ bytes).length = off + bytes.length := by
    rw [length_append, length_take, Nat.min_eq_left h]
  have ho : o = (b.take off ++ bytes).length + (o - (off + bytes.length)) := by omega
  rw [field, field, setBytes, ho, drop_length_add_append, drop_drop, hlen]

/-- More memory behind. -/
theorem field_append (h : o + l ≤ b.length) : field (b ++ bytes) o l = field b o l := by
  rw [field, drop_append_of_le_length (by omega),
    take_append_of_le_length (by rw [length_drop]; omega), field]

theorem setBytes_nil (b : List UInt8) (off : ℕ) : setBytes b off [] = b := by
  rw [setBytes, append_nil, length_nil, Nat.add_zero, take_append_drop]

/-- A write does not touch what stands behind the memory. -/
theorem setBytes_append {rest : List UInt8} (h : off + bytes.length ≤ b.length) :
    setBytes (b ++ rest) off bytes = setBytes b off bytes ++ rest := by
  rw [setBytes, setBytes, take_append_of_le_length (by omega),
    drop_append_of_le_length h, append_assoc, append_assoc, append_assoc]

/-- Bytes written one behind the other. -/
theorem setBytes_setBytes (bytes bytes' : List UInt8) (h : off ≤ b.length) :
    setBytes (setBytes b off bytes) (off + bytes.length) bytes' =
      setBytes b off (bytes ++ bytes') := by
  have hlen : (b.take off ++ bytes).length = off + bytes.length := by
    rw [length_append, length_take]
    omega
  rw [setBytes, setBytes, setBytes, take_left' hlen, ← hlen, drop_length_add_append,
    drop_drop, hlen, length_append, Nat.add_assoc]
  simp only [append_assoc]

end Parts

/-! ### Numbers -/

theorem length_beBytes (n i : ℕ) : (beBytes n i).length = n := by
  induction n generalizing i with
  | zero => rfl
  | succ n ih => rw [beBytes, length_append, ih, length_singleton]

/-- **A number is read back from its bytes.** -/
theorem beNat_beBytes {n i : ℕ} (hi : i < 256 ^ n) : beNat (beBytes n i) = i := by
  induction n generalizing i with
  | zero =>
    rw [Nat.pow_zero] at hi
    rw [beBytes, Nat.lt_one_iff.mp hi]
    rfl
  | succ n ih =>
    rw [Nat.pow_succ] at hi
    have hmod : (UInt8.ofNat (i % 256)).toNat = i % 256 := by
      rw [UInt8.toNat_ofNat', Nat.mod_mod]
    have hdiv : i / 256 < 256 ^ n := by omega
    have hrec := ih hdiv
    rw [beNat] at hrec ⊢
    rw [beBytes, foldl_append, hrec, foldl_cons, foldl_nil, hmod]
    omega

/-- What is read back of a number that has too many digits. -/
theorem beNat_beBytes_mod (n i : ℕ) : beNat (beBytes n i) = i % 256 ^ n := by
  induction n generalizing i with
  | zero => rw [Nat.pow_zero, Nat.mod_one]; rfl
  | succ n ih =>
    have hmod : (UInt8.ofNat (i % 256)).toNat = i % 256 := by
      rw [UInt8.toNat_ofNat', Nat.mod_mod]
    have hrec := ih (i / 256)
    rw [beNat] at hrec ⊢
    rw [beBytes, foldl_append, hrec, foldl_cons, foldl_nil, hmod, Nat.pow_succ',
      Nat.mod_mul, Nat.add_comm, Nat.mul_comm]

theorem length_leBytes (n i : ℕ) : (leBytes n i).length = n := by
  induction n generalizing i with
  | zero => rfl
  | succ n ih => rw [leBytes, length_cons, ih]

theorem leNat_lt (l : List UInt8) : leNat l < 256 ^ l.length := by
  induction l with
  | nil => exact Nat.one_pos
  | cons b l ih =>
    have hb := b.toNat_lt
    rw [leNat, length_cons, Nat.pow_succ]
    omega

/-- **A number is read back from its bytes**, the lowest one first. -/
theorem leNat_leBytes {n i : ℕ} (hi : i < 256 ^ n) : leNat (leBytes n i) = i := by
  induction n generalizing i with
  | zero =>
    rw [Nat.pow_zero] at hi
    rw [leBytes, Nat.lt_one_iff.mp hi]
    rfl
  | succ n ih =>
    rw [Nat.pow_succ] at hi
    have hmod : (UInt8.ofNat (i % 256)).toNat = i % 256 := by
      rw [UInt8.toNat_ofNat', Nat.mod_mod]
    have hdiv : i / 256 < 256 ^ n := by omega
    rw [leBytes, leNat, ih hdiv, hmod]
    omega

/-- The bytes of the number that bytes stand for. -/
theorem leBytes_leNat (x : List UInt8) : leBytes x.length (leNat x) = x := by
  induction x with
  | nil => rfl
  | cons a x ih =>
    have ha := a.toNat_lt
    rw [length_cons, leBytes, leNat, Nat.add_mul_mod_self_left, Nat.mod_eq_of_lt (by omega),
      Nat.add_mul_div_left _ _ (by decide), Nat.div_eq_of_lt (by omega), Nat.zero_add, ih,
      UInt8.ofNat_toNat]

theorem leNat_leBytes_mod (n i : ℕ) : leNat (leBytes n i) = i % 256 ^ n := by
  induction n generalizing i with
  | zero => rw [Nat.pow_zero, Nat.mod_one]; rfl
  | succ n ih =>
    have hmod : (UInt8.ofNat (i % 256)).toNat = i % 256 := by
      rw [UInt8.toNat_ofNat', Nat.mod_mod]
    rw [leBytes, leNat, ih, hmod, Nat.pow_succ', Nat.mod_mul]

theorem leBytes_mod (n i : ℕ) : leBytes n (i % 256 ^ n) = leBytes n i := by
  have h := leBytes_leNat (leBytes n i)
  rwa [length_leBytes, leNat_leBytes_mod] at h

end FF
