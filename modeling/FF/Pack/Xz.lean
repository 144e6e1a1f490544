import FF.Crc
import FF.Lib.Bits
import FF.Lib.Fields
import Mathlib.Tactic.Ring

/-!
# Footers, block headers and indexes of XZ streams

The parsers read through offsets into a buffer; a read outside of it is a failure of its own
(`none`). The 64-bit difference of two pointers wraps where the first is behind the second.
`ffxz_read` gathers 12 bytes for a footer, `(b + 1) * 4` bytes for a block header that begins with
the byte `b`, which is not 0, and for an index as many as the footer has said.
-/

namespace FF

namespace Xz

open List Option

/-! ### Reads -/

/-- A read of one byte. -/
def rdByte (buf : List UInt8) (p : ℕ) : Option UInt8 := buf[p]?

/-- A read of `n` bytes. -/
def rdBytes (buf : List UInt8) (p n : ℕ) : Option (List UInt8) :=
  if n = 0 ∨ p + n ≤ buf.length then some (field buf p n) else none

/-- `end - p` as `size_t`. -/
def sizeDiff (e p : ℕ) : ℕ := (2 ^ 64 + e - p) % 2 ^ 64

/-- `ffs_skip` of zero bytes: the offset of the first byte that is not 0, or of the end. -/
def ffsSkip (buf : List UInt8) : ℕ → ℕ → Option ℕ
  | 0, p => some p
  | n + 1, p => do
      let b ← rdByte buf p
      if b = 0 then ffsSkip buf n (p + 1) else some p

/-! ### The parsers -/

/-- `enum FFXZ_E` -/
inductive FfxzE
  | esys
  | elzma
  | ehdr
  | ehdrflags
  | ehdrcrc
  | eblkhdr
  | eblkhdrflags
  | eblkhdrcrc
  | efilt
  | eidx
  | eidxcrc
  | ebigidx
  | eftr
  | eftrflags
  | eftrcrc
  deriving DecidableEq, Repr

/-- The number of an error. -/
def FfxzE.code : FfxzE → ℤ
  | esys => 1
  | elzma => 2
  | ehdr => 3
  | ehdrflags => 4
  | ehdrcrc => 5
  | eblkhdr => 6
  | eblkhdrflags => 7
  | eblkhdrcrc => 8
  | efilt => 9
  | eidx => 10
  | eidxcrc => 11
  | ebigidx => 12
  | eftr => 13
  | eftrflags => 14
  | eftrcrc => 15

/-- The loop of `xz_varint` with `k` bytes left from the index `i` on. -/
def xzVarintLoop (buf : List UInt8) (p : ℕ) : ℕ → ℕ → ℕ → Option (ℕ × ℕ)
  | 0, i, _ => some (0, p + i)
  | k + 1, i, n => do
      let b ← rdByte buf (p + i)
      let n := n ||| ((b.toNat &&& 0x7f) <<< (i * 7))
      if b &&& 0x80 = 0 then some (n, p + (i + 1)) else xzVarintLoop buf p k (i + 1) n

/-- `xz_varint`: the value and the offset behind it. -/
def xzVarint (buf : List UInt8) (p len : ℕ) : Option (ℕ × ℕ) :=
  xzVarintLoop buf p (min len 9) 0 0

/-- `xz_stmftr_parse` -/
def xzStmftrParse (buf : List UInt8) : Option ℤ := do
  let body ← rdBytes buf 4 6
  let crc ← rdBytes buf 0 4
  if (ffcrc32Get body).toNat ≠ leNat crc then some (-FfxzE.eftrcrc.code)
  else do
    let magic ← rdBytes buf 10 2
    if magic ≠ [0x59, 0x5a] then some (-FfxzE.eftr.code)
    else do
      let size ← rdBytes buf 4 4
      let idxSize : ℕ := (leNat size + 1) % 2 ^ 32 * 4 % 2 ^ 32
      if idxSize > 2 ^ 32 - 1 then some (-FfxzE.ebigidx.code) else some (idxSize : ℤ)

/-- `lzma_filter_props`; `props` is an offset. -/
structure LzmaFilterProps where
  id : ℕ
  propLen : ℕ
  props : ℕ
  deriving DecidableEq, Repr

/-- The loop over the filters: these and the offset behind them, or `none` where the header ends
first. The fields of a filter have types of another library, to which `toId` and `toLen` convert
the numbers. -/
def xzFilters (toId toLen : ℕ → ℕ) (buf : List UInt8) :
    ℕ → ℕ → Option (Option (List LzmaFilterProps × ℕ))
  | 0, p => some (some ([], p))
  | k + 1, p => do
      let (id, p) ← xzVarint buf p (sizeDiff buf.length p)
      let (len, p) ← xzVarint buf p (sizeDiff buf.length p)
      let f : LzmaFilterProps := ⟨toId id, toLen len, p⟩
      if p + f.propLen ≥ buf.length then some none
      else do
        let r ← xzFilters toId toLen buf k (p + f.propLen)
        some (r.map fun (fs, p) => (f :: fs, p))

/-- A number that is there if the flag is set, skipped. -/
def xzSkipNumber (buf : List UInt8) (flag : Bool) (p : ℕ) : Option ℕ :=
  if flag then (xzVarint buf p (sizeDiff buf.length p)).map Prod.snd else some p

/-- `xz_hdr_parse`: the number of the filters or an error, and the filters. The second byte is
made of the bit fields `nfilt`, `res`, `have_size` and `have_osize`. -/
def xzHdrParse (toId toLen : ℕ → ℕ) (buf : List UInt8) : Option (ℤ × List LzmaFilterProps) := do
  let flags ← rdByte buf 1
  if flags.toNat / 4 % 16 ≠ 0 then some (-FfxzE.eblkhdrflags.code, [])
  else do
    let p ← xzSkipNumber buf (flags.toNat / 64 % 2 = 1) 2
    let p ← xzSkipNumber buf (flags.toNat / 128 = 1) p
    match ← xzFilters toId toLen buf (flags.toNat % 4 + 1) p with
    | none => some (-FfxzE.eblkhdr.code, [])
    | some (filts, p) =>
      if (buf.length : ℤ) - p < 4 then some (-FfxzE.eblkhdr.code, filts)
      else do
        let padding := (buf.length - p - 4) % 2 ^ 32
        let q ← ffsSkip buf padding p
        if p + padding ≠ q then some (-FfxzE.eblkhdr.code, filts)
        else do
          let body ← rdBytes buf 0 (sizeDiff buf.length 4)
          let crc ← rdBytes buf (p + padding) 4
          if (ffcrc32Get body).toNat ≠ leNat crc then some (-FfxzE.eblkhdrcrc.code, filts)
          else some ((flags.toNat % 4 + 1 : ℕ), filts)

/-- The loop over the records of an index: the sum of the sizes and the offset behind them. -/
def xzIdxRecs (buf : List UInt8) : ℕ → ℕ → ℕ → Option (ℕ × ℕ)
  | 0, p, total => some (total, p)
  | n + 1, p, total => do
      let (_, p) ← xzVarint buf p (sizeDiff buf.length p)
      let (osize, p) ← xzVarint buf p (sizeDiff buf.length p)
      xzIdxRecs buf n p ((total + osize) % 2 ^ 64)

/-- `xz_idx_parse` -/
def xzIdxParse (buf : List UInt8) : Option ℤ := do
  let indicator ← rdByte buf 0
  if indicator ≠ 0 then some (-FfxzE.eidx.code)
  else do
    let (nrec, p) ← xzVarint buf 1 (sizeDiff buf.length 1)
    let (total, p) ← xzIdxRecs buf nrec p 0
    if p = buf.length then some (-FfxzE.eidx.code)
    else
      let padding := (buf.length - p) % 4
      if p + padding > buf.length then some (-FfxzE.eidx.code)
      else do
        let q ← ffsSkip buf padding p
        if p + padding ≠ q then some (-FfxzE.eidx.code)
        else do
          let body ← rdBytes buf 0 (sizeDiff buf.length 4)
          if p + padding + 4 ≠ buf.length then some (-FfxzE.eidxcrc.code)
          else do
            let crc ← rdBytes buf (p + padding) 4
            if (ffcrc32Get body).toNat ≠ leNat crc then some (-FfxzE.eidxcrc.code)
            else some (int64 total)

/-! ### What the bytes denote -/

/-- An integer of at most `k` bytes: seven bits in each, the lowest ones first, and a one bit above
them in all but the last; with the bytes behind it. -/
def xzNumberOf : ℕ → List UInt8 → Option (ℕ × List UInt8)
  | 0, _ => none
  | _ + 1, [] => none
  | k + 1, b :: t =>
    if b.toNat < 128 then some (b.toNat, t)
    else (xzNumberOf k t).map fun r => (b.toNat % 128 + 128 * r.1, r.2)

/-- **An integer** has nine bytes at most. -/
def xzNumber (t : List UInt8) : Option (ℕ × List UInt8) := xzNumberOf 9 t

/-- The second sizes of `n` records, and the bytes behind the records. -/
def idxRecords : ℕ → List UInt8 → Option (List ℕ × List UInt8)
  | 0, t => some ([], t)
  | n + 1, t => do
      let (_, t) ← xzNumber t
      let (osize, t) ← xzNumber t
      let (osizes, t) ← idxRecords n t
      some (osize :: osizes, t)

/-- **The sizes in an index** -/
def idxSizes (buf : List UInt8) : Option (List ℕ) := do
  let (nrec, t) ← xzNumber buf.tail
  let (osizes, _) ← idxRecords nrec t
  some osizes

/-- The index size that a footer holds. -/
def ftrStored (buf : List UInt8) : ℕ := leNat (field buf 4 4)

/-- **A footer gives the index size**: nothing is read outside of it, a size that is returned is
the right one, and a size that does not fit 32 bits is refused. -/
def FtrExact (buf : List UInt8) : Prop :=
  ∃ r, xzStmftrParse buf = some r ∧ (0 ≤ r → r = 4 * (ftrStored buf + 1)) ∧
    (2 ^ 32 ≤ 4 * (ftrStored buf + 1) → r < 0)

/-- **An index gives the sum of the sizes** or an error, and nothing is read outside of it. -/
def IdxExact (buf : List UInt8) : Prop :=
  ∃ r, xzIdxParse buf = some r ∧
    (0 ≤ r → ∃ osizes, idxSizes buf = some osizes ∧ r = osizes.sum)

/-! ### What is taken for it -/

/-- An integer as `xz_varint` takes it: 0 for one that is too long or cut. -/
def looseNumber (t : List UInt8) : ℕ × List UInt8 := (xzNumber t).getD (0, t.drop 9)

/-- The sum of the sizes in `n` records, and the bytes behind the records. -/
def looseTotal : ℕ → List UInt8 → ℕ × List UInt8
  | 0, t => (0, t)
  | n + 1, t =>
    let o := looseNumber (looseNumber t).2
    let r := looseTotal n o.2
    (o.1 + r.1, r.2)

/-- The sum of the sizes in an index, and the bytes behind the records. -/
def looseIdx (buf : List UInt8) : ℕ × List UInt8 :=
  looseTotal (looseNumber buf.tail).1 (looseNumber buf.tail).2

/-- A footer with its magic bytes and the right CRC. -/
def FtrValid (buf : List UInt8) : Prop :=
  (ffcrc32Get (field buf 4 6)).toNat = leNat (field buf 0 4) ∧ field buf 10 2 = [0x59, 0x5a]

/-- An index with its indicator, with padding of zero bytes and the right CRC behind the
records. -/
def IdxFramed (buf : List UInt8) : Prop :=
  let t := (looseIdx buf).2
  buf.head? = some 0 ∧ t.length / 4 = 1 ∧ (∀ b ∈ t.take (t.length % 4), b = 0) ∧
    (ffcrc32Get (buf.take (buf.length - 4))).toNat = leNat (t.drop (t.length % 4))

/-- **The footers that are read right**: the size fits, or they are refused anyway. -/
def FtrCond (buf : List UInt8) : Prop := FtrValid buf → ftrStored buf + 1 < 2 ^ 30

/-- **The indexes that are read right.** An index must not be empty, nor be three zero bytes. Where
the bytes around the records are right and the sum of the sizes, modulo `2 ^ 64`, is below
`2 ^ 63`, all integers must have nine bytes at most and the sum must be below `2 ^ 64`. -/
def IdxCond (buf : List UInt8) : Prop :=
  buf ≠ [] ∧ buf ≠ [0, 0, 0] ∧
    (IdxFramed buf → (looseIdx buf).1 % 2 ^ 64 < 2 ^ 63 →
      (idxSizes buf).isSome ∧ (looseIdx buf).1 < 2 ^ 64)

/-! ### Integers -/

theorem xzNumberOf_min (k : ℕ) (t : List UInt8) :
    xzNumberOf (min t.length k) t = xzNumberOf k t := by
  induction k generalizing t with
  | zero => rw [Nat.min_zero]
  | succ k ih =>
    cases t with
    | nil => rfl
    | cons b t =>
      rw [length_cons, Nat.succ_min_succ, xzNumberOf, xzNumberOf, ih]

theorem xzNumberOf_suffix {k n : ℕ} {t r : List UInt8} (h : xzNumberOf k t = some (n, r)) :
    r <:+ t := by
  induction k generalizing t n with
  | zero => cases h
  | succ k ih =>
    cases t with
    | nil => cases h
    | cons b t =>
      rw [xzNumberOf] at h
      split at h
      · obtain ⟨-, rfl⟩ := Prod.mk.inj (some.inj h)
        exact suffix_cons b t
      · obtain ⟨⟨m, r'⟩, hr, h⟩ := map_eq_some_iff.mp h
        obtain ⟨-, rfl⟩ := Prod.mk.inj h
        exact (ih hr).trans (suffix_cons b t)

theorem looseNumber_suffix (t : List UInt8) : (looseNumber t).2 <:+ t := by
  rw [looseNumber]
  cases h : xzNumber t with
  | none => exact drop_suffix 9 t
  | some r => exact xzNumberOf_suffix h

theorem looseTotal_suffix (n : ℕ) (t : List UInt8) : (looseTotal n t).2 <:+ t := by
  induction n generalizing t with
  | zero => exact suffix_rfl
  | succ n ih =>
    exact ((ih _).trans (looseNumber_suffix _)).trans (looseNumber_suffix t)

/-- The bytes from an offset on. -/
def Rest (buf : List UInt8) (p : ℕ) (t : List UInt8) : Prop :=
  p ≤ buf.length ∧ buf.drop p = t

theorem Rest.length {buf t : List UInt8} {p : ℕ} (h : Rest buf p t) :
    t.length = buf.length - p := by
  rw [← h.2, length_drop]

theorem Rest.suffix {buf t r : List UInt8} {p : ℕ} (h : Rest buf p t) (hr : r <:+ t) :
    Rest buf (buf.length - r.length) r := by
  have hsuf : r <:+ buf := hr.trans (h.2 ▸ drop_suffix p buf)
  refine ⟨Nat.sub_le _ _, ?_⟩
  rw [← suffix_iff_eq_drop.mp hsuf]

theorem rdByte_drop {buf t : List UInt8} {p : ℕ} {b : UInt8} (h : buf.drop p = b :: t) :
    rdByte buf p = some b := by
  have := @getElem?_drop _ buf p 0
  rw [h] at this
  exact this.symm

theorem number_or {n m : ℕ} (i : ℕ) (hn : n < 2 ^ (7 * i)) :
    n ||| (m <<< (i * 7)) = n + m * 2 ^ (7 * i) := by
  rw [Nat.or_comm, Nat.mul_comm i 7, shiftLeft_or m hn, Nat.add_comm]

theorem byte_bits (b : UInt8) :
    (b.toNat &&& 0x7f) = b.toNat % 128 ∧ (b &&& 0x80 = 0 ↔ b.toNat < 128) := by
  have h : ∀ c : Fin 256, ((UInt8.ofNat c).toNat &&& 0x7f) = (UInt8.ofNat c).toNat % 128 ∧
      (UInt8.ofNat c &&& 0x80 = 0 ↔ (UInt8.ofNat c).toNat < 128) := by
    decide +kernel
  simpa using h ⟨b.toNat, b.toNat_lt⟩

/-- **The loop of `xz_varint`** behind `i` bytes -/
theorem xzVarintLoop_eq {buf : List UInt8} {p : ℕ} {k i n : ℕ} (hn : n < 2 ^ (7 * i))
    (hlen : p + i + k ≤ buf.length) :
    xzVarintLoop buf p k i n = some
      (match xzNumberOf k (buf.drop (p + i)) with
      | some (m, r) => (n + m * 2 ^ (7 * i), buf.length - r.length)
      | none => (0, p + i + k)) := by
  induction k generalizing i n with
  | zero => rfl
  | succ k ih =>
    obtain ⟨b, t, hb⟩ : ∃ b t, buf.drop (p + i) = b :: t := by
      refine exists_cons_of_ne_nil fun h => ?_
      have := congrArg List.length h
      rw [length_drop, length_nil] at this
      omega
    have ht : buf.drop (p + (i + 1)) = t := by
      rw [← Nat.add_assoc, ← drop_drop, hb]
      rfl
    have htlen : t.length = buf.length - (p + (i + 1)) := by rw [← ht, length_drop]
    obtain ⟨hlow, hhigh⟩ := byte_bits b
    rw [xzVarintLoop, rdByte_drop hb]
    simp only [bind_eq_bind, bind_some, hlow, number_or i hn]
    rw [hb, xzNumberOf]
    by_cases hlast : b.toNat < 128
    · rw [if_pos (hhigh.mpr hlast), if_pos hlast, Nat.mod_eq_of_lt hlast]
      simp only [htlen]
      refine congrArg some (Prod.ext rfl ?_)
      omega
    have hnext : n + b.toNat % 128 * 2 ^ (7 * i) < 2 ^ (7 * (i + 1)) := by
      have hpow : 2 ^ (7 * (i + 1)) = 128 * 2 ^ (7 * i) := by
        rw [Nat.mul_add, Nat.pow_add, Nat.mul_comm]
      have hmul : b.toNat % 128 * 2 ^ (7 * i) ≤ 127 * 2 ^ (7 * i) :=
        Nat.mul_le_mul_right _ (by omega)
      omega
    rw [if_neg (fun h => hlast (hhigh.mp h)), if_neg hlast, ih hnext (by omega), ht]
    cases xzNumberOf k t with
    | none =>
      refine congrArg some (Prod.ext rfl ?_)
      change p + (i + 1) + k = p + i + (k + 1)
      omega
    | some r =>
      refine congrArg some (Prod.ext ?_ rfl)
      change n + b.toNat % 128 * 2 ^ (7 * i) + r.1 * 2 ^ (7 * (i + 1)) =
        n + (b.toNat % 128 + 128 * r.1) * 2 ^ (7 * i)
      rw [Nat.mul_add, Nat.pow_add]
      ring

theorem sizeDiff_eq {e p : ℕ} (h : p ≤ e) (he : e < 2 ^ 64) : sizeDiff e p = e - p := by
  rw [sizeDiff, Nat.add_sub_assoc h, Nat.add_mod_left]
  exact Nat.mod_eq_of_lt (by omega)

/-- **`xz_varint`** takes an integer that is too long, or cut, for 0. -/
theorem xzVarint_eq {buf t : List UInt8} {p : ℕ} (h : Rest buf p t) (hlen : buf.length < 2 ^ 64) :
    xzVarint buf p (sizeDiff buf.length p) =
      some ((looseNumber t).1, buf.length - (looseNumber t).2.length) := by
  have htlen := h.length
  have hp := h.1
  have hloop := @xzVarintLoop_eq buf p (min t.length 9) 0 0 (by decide) (by omega)
  rw [Nat.add_zero, h.2, xzNumberOf_min] at hloop
  rw [sizeDiff_eq hp hlen, xzVarint, ← htlen, hloop, looseNumber, xzNumber]
  cases xzNumberOf 9 t with
  | none =>
    refine congrArg some (Prod.ext rfl ?_)
    simp only [getD_none, length_drop]
    omega
  | some r =>
    refine congrArg some (Prod.ext ?_ rfl)
    simp only [getD_some]
    omega

/-- **The loop over the records** -/
theorem xzIdxRecs_eq {buf t : List UInt8} {p : ℕ} (h : Rest buf p t)
    (hlen : buf.length < 2 ^ 64) (n : ℕ) {total : ℕ} (ht : total < 2 ^ 64) :
    xzIdxRecs buf n p total = some ((total + (looseTotal n t).1) % 2 ^ 64,
      buf.length - (looseTotal n t).2.length) := by
  induction n generalizing p t total with
  | zero =>
    have htlen := h.length
    have hp := h.1
    refine congrArg some (Prod.ext ?_ ?_)
    · exact (Nat.mod_eq_of_lt ht).symm
    · change p = buf.length - t.length
      omega
  | succ n ih =>
    have h1 := h.suffix (looseNumber_suffix t)
    have h2 := h1.suffix (looseNumber_suffix _)
    rw [xzIdxRecs, xzVarint_eq h hlen]
    simp only [bind_eq_bind, bind_some]
    rw [xzVarint_eq h1 hlen]
    simp only [bind_some]
    rw [ih h2 (Nat.mod_lt _ (by decide))]
    refine congrArg some (Prod.ext ?_ rfl)
    simp only [looseTotal]
    rw [Nat.mod_add_mod, Nat.add_assoc]

/-- **`ffs_skip`** stays inside, and reaches the end where all bytes are 0. -/
theorem ffsSkip_eq {buf : List UInt8} {n p : ℕ} (h : p + n ≤ buf.length) :
    ∃ q, ffsSkip buf n p = some q ∧ (p + n = q ↔ ∀ b ∈ field buf p n, b = 0) := by
  induction n generalizing p with
  | zero =>
    refine ⟨p, rfl, iff_of_true rfl fun b hb => ?_⟩
    rw [field, take_zero] at hb
    cases hb
  | succ n ih =>
    obtain ⟨b, t, hb⟩ : ∃ b t, buf.drop p = b :: t := by
      refine exists_cons_of_ne_nil fun h => ?_
      have := congrArg List.length h
      rw [length_drop, length_nil] at this
      omega
    have ht : buf.drop (p + 1) = t := by
      rw [← drop_drop, hb]
      rfl
    have hfield : field buf p (n + 1) = b :: field buf (p + 1) n := by
      rw [field, field, hb, ht, take_succ_cons]
    rw [ffsSkip, rdByte_drop hb]
    simp only [bind_eq_bind, bind_some, hfield, forall_mem_cons]
    by_cases hzero : b = 0
    · obtain ⟨q, hq, hiff⟩ := @ih (p + 1) (by omega)
      rw [if_pos hzero, hq]
      refine ⟨q, rfl, ?_⟩
      rw [and_iff_right hzero, ← hiff]
      omega
    · rw [if_neg hzero]
      exact ⟨p, rfl, iff_of_false (by omega) fun h => hzero h.1⟩

theorem rdBytes_eq {buf : List UInt8} {p n : ℕ} (h : p + n ≤ buf.length) :
    rdBytes buf p n = some (field buf p n) := if_pos (.inr h)

/-! ### Footers -/

/-- **What is read of a footer** -/
theorem xzStmftrParse_eq {buf : List UInt8} (h : buf.length = 12) :
    ∃ r, xzStmftrParse buf = some r ∧
      (FtrValid buf → r = ((ftrStored buf + 1) % 2 ^ 32 * 4 % 2 ^ 32 : ℕ)) ∧
      (¬FtrValid buf → r < 0) := by
  have h1 := rdBytes_eq (by omega : 4 + 6 ≤ buf.length)
  have h2 := rdBytes_eq (by omega : 0 + 4 ≤ buf.length)
  have h3 := rdBytes_eq (by omega : 10 + 2 ≤ buf.length)
  have h4 := rdBytes_eq (by omega : 4 + 4 ≤ buf.length)
  simp only [xzStmftrParse, h1, h2, h3, h4, bind_eq_bind, bind_some]
  by_cases hcrc : (ffcrc32Get (field buf 4 6)).toNat = leNat (field buf 0 4)
  · rw [if_neg (not_not.mpr hcrc)]
    by_cases hmagic : field buf 10 2 = [0x59, 0x5a]
    · have hbig : ¬(leNat (field buf 4 4) + 1) % 2 ^ 32 * 4 % 2 ^ 32 > 2 ^ 32 - 1 := by omega
      rw [if_neg (not_not.mpr hmagic), if_neg hbig]
      exact ⟨_, rfl, fun _ => rfl, fun hv => absurd ⟨hcrc, hmagic⟩ hv⟩
    · rw [if_pos hmagic]
      exact ⟨_, rfl, fun hv => absurd hv.2 hmagic, fun _ => by decide⟩
  · rw [if_pos hcrc]
    exact ⟨_, rfl, fun hv => absurd hv.1 hcrc, fun _ => by decide⟩

/-- **Exactly when a footer is read right** -/
theorem ftrExact_iff {buf : List UInt8} (h : buf.length = 12) : FtrExact buf ↔ FtrCond buf := by
  obtain ⟨r, hr, hvalid, hbad⟩ := xzStmftrParse_eq h
  constructor
  · rintro ⟨r', hr', -, hbig⟩ hv
    obtain rfl : r = r' := some.inj (hr.symm.trans hr')
    have hpos := hvalid hv
    by_contra hge
    omega
  intro hcond
  refine ⟨r, hr, ?_⟩
  by_cases hv : FtrValid buf
  · have hsize := hcond hv
    have hval := hvalid hv
    constructor
    · intro _
      omega
    · intro hbig
      omega
  · have hneg := hbad hv
    exact ⟨fun h0 => absurd h0 (not_le.mpr hneg), fun _ => hneg⟩

/-! ### Block headers -/

theorem rest_drop {buf : List UInt8} {p : ℕ} (h : p ≤ buf.length) : Rest buf p (buf.drop p) :=
  ⟨h, rfl⟩

theorem xzVarint_inside {buf : List UInt8} {p : ℕ} (h : p ≤ buf.length)
    (hlen : buf.length < 2 ^ 64) :
    ∃ n q, xzVarint buf p (sizeDiff buf.length p) = some (n, q) ∧ q ≤ buf.length :=
  ⟨_, _, xzVarint_eq (rest_drop h) hlen, Nat.sub_le _ _⟩

theorem xzFilters_inside (toId toLen : ℕ → ℕ) {buf : List UInt8} {p : ℕ} (h : p ≤ buf.length)
    (hlen : buf.length < 2 ^ 64) (k : ℕ) : ∃ r, xzFilters toId toLen buf k p = some r := by
  induction k generalizing p with
  | zero => exact ⟨_, rfl⟩
  | succ k ih =>
    obtain ⟨id, q, hid, hq⟩ := xzVarint_inside h hlen
    obtain ⟨len, q', hl, hq'⟩ := xzVarint_inside hq hlen
    simp only [xzFilters, hid, hl, bind_eq_bind, bind_some]
    by_cases hend : q' + toLen len ≥ buf.length
    · rw [if_pos hend]
      exact ⟨_, rfl⟩
    · obtain ⟨r, hr⟩ := @ih (q' + toLen len) (by omega)
      rw [if_neg hend, hr]
      exact ⟨_, rfl⟩

theorem xzSkipNumber_inside {buf : List UInt8} {p : ℕ} (h : p ≤ buf.length)
    (hlen : buf.length < 2 ^ 64) (flag : Bool) :
    ∃ q, xzSkipNumber buf flag p = some q ∧ q ≤ buf.length := by
  cases flag with
  | false => exact ⟨p, rfl, h⟩
  | true =>
    obtain ⟨n, q, hq, hle⟩ := xzVarint_inside h hlen
    refine ⟨q, ?_, hle⟩
    rw [xzSkipNumber, if_pos rfl, hq]
    rfl

/-- **A block header is read inside of the buffer** exactly if it has two bytes. -/
theorem xzHdrParse_inside (toId toLen : ℕ → ℕ) {buf : List UInt8} (hlen : buf.length < 2 ^ 64) :
    (xzHdrParse toId toLen buf).isSome ↔ 2 ≤ buf.length := by
  constructor
  · intro h
    by_contra hshort
    have hread : rdByte buf 1 = none := getElem?_eq_none (by omega)
    rw [xzHdrParse, hread] at h
    cases h
  intro h
  have hread : rdByte buf 1 = some (buf.get ⟨1, by omega⟩) :=
    getElem?_eq_getElem (by omega)
  obtain ⟨flags, hflags⟩ : ∃ flags, rdByte buf 1 = some flags := ⟨_, hread⟩
  obtain ⟨p₁, h1, hp₁⟩ := xzSkipNumber_inside h hlen (flags.toNat / 64 % 2 = 1)
  obtain ⟨p₂, h2, hp₂⟩ := xzSkipNumber_inside hp₁ hlen (flags.toNat / 128 = 1)
  obtain ⟨r, hr⟩ := xzFilters_inside toId toLen hp₂ hlen (flags.toNat % 4 + 1)
  simp only [xzHdrParse, hflags, h1, h2, hr, bind_eq_bind, bind_some]
  by_cases hres : flags.toNat / 4 % 16 ≠ 0
  · rw [if_pos hres]
    rfl
  rw [if_neg hres]
  cases r with
  | none => rfl
  | some fp =>
    obtain ⟨fs, p⟩ := fp
    simp only
    by_cases hend : (buf.length : ℤ) - p < 4
    · rw [if_pos hend]
      rfl
    obtain ⟨q, hq, -⟩ := @ffsSkip_eq buf ((buf.length - p - 4) % 2 ^ 32) p (by omega)
    rw [if_neg hend, hq]
    simp only [bind_some]
    by_cases hzero : p + (buf.length - p - 4) % 2 ^ 32 ≠ q
    · rw [if_pos hzero]
      rfl
    rw [if_neg hzero, sizeDiff_eq (by omega) hlen, rdBytes_eq (by omega), rdBytes_eq (by omega)]
    simp only [bind_some]
    split <;> rfl

/-! ### Indexes -/

theorem looseNumber_lt {t : List UInt8} (h : t ≠ []) : (looseNumber t).2.length < t.length := by
  obtain ⟨b, t, rfl⟩ := exists_cons_of_ne_nil h
  rw [looseNumber, xzNumber, xzNumberOf, length_cons]
  by_cases hlast : b.toNat < 128
  · rw [if_pos hlast]
    exact Nat.lt_succ_self _
  rw [if_neg hlast]
  cases hr : xzNumberOf 8 t with
  | none =>
    change (t.drop 8).length < t.length + 1
    rw [length_drop]
    omega
  | some r => exact Nat.lt_succ_of_le (xzNumberOf_suffix hr).length_le

theorem looseTotal_lt (n : ℕ) {t : List UInt8} (h : t ≠ []) :
    (looseTotal (n + 1) t).2.length < t.length :=
  lt_of_le_of_lt ((looseTotal_suffix n _).trans (looseNumber_suffix _)).length_le
    (looseNumber_lt h)

/-- An index of fewer than four bytes with a zero byte behind its records is three zero bytes. -/
theorem short_index {t : List UInt8} (hlen : t.length < 3) (hne : (looseIdx (0 :: t)).2 ≠ [])
    (hzero : ∀ b ∈ (looseIdx (0 :: t)).2.take ((looseIdx (0 :: t)).2.length % 4), b = 0) :
    t = [0, 0] := by
  have hsuf := looseTotal_suffix (looseNumber t).1 (looseNumber t).2
  change (looseTotal (looseNumber t).1 (looseNumber t).2).2 ≠ [] at hne
  change ∀ b ∈ (looseTotal (looseNumber t).1 (looseNumber t).2).2.take
    ((looseTotal (looseNumber t).1 (looseNumber t).2).2.length % 4), b = 0 at hzero
  have hnum : (looseNumber t).2 ≠ [] := by
    intro h
    rw [h] at hsuf hne
    exact hne (suffix_nil.mp hsuf)
  have htne : t ≠ [] := by
    rintro rfl
    exact hnum rfl
  have hlt := looseNumber_lt htne
  have hpos := length_pos_iff.mpr hnum
  obtain ⟨x, y, rfl⟩ : ∃ x y, t = [x, y] := by
    match t, hlen, hlt, hpos with
    | [x, y], _, _, _ => exact ⟨x, y, rfl⟩
    | [_], _, hlt, hpos => exact absurd hlt (by rw [length_singleton]; omega)
    | [], _, _, _ => exact absurd rfl htne
  by_cases hx : x.toNat < 128
  · have hread : looseNumber [x, y] = (x.toNat, [y]) := by
      rw [looseNumber, xzNumber, xzNumberOf, if_pos hx]
      rfl
    rw [hread] at hne hzero
    obtain ⟨n, hn⟩ : ∃ n, n = x.toNat := ⟨_, rfl⟩
    cases n with
    | zero =>
      rw [← hn] at hzero
      have hx0 : x = 0 := UInt8.toNat_inj.mp hn.symm
      rw [hx0, hzero y mem_cons_self]
    | succ n =>
      rw [← hn] at hne
      have := @looseTotal_lt n [y] (cons_ne_nil _ _)
      exact absurd (eq_nil_of_length_eq_zero (by simpa using this)) hne
  have hnone : (looseNumber [x, y]).2 = [] := by
    rw [looseNumber, xzNumber, xzNumberOf, if_neg hx, xzNumberOf]
    by_cases hy : y.toNat < 128
    · rw [if_pos hy]
      rfl
    · rw [if_neg hy]
      rfl
  exact absurd hnone hnum

/-- **What is read of an index**, and when it is read at all -/
theorem xzIdxParse_eq {buf : List UInt8} (hlen : buf.length < 2 ^ 64) (hnil : buf ≠ [])
    (hzeros : buf ≠ [0, 0, 0]) :
    ∃ r, xzIdxParse buf = some r ∧
      (IdxFramed buf → r = int64 ((looseIdx buf).1 % 2 ^ 64)) ∧ (¬IdxFramed buf → r < 0) := by
  obtain ⟨b, t, rfl⟩ := exists_cons_of_ne_nil hnil
  have hread : rdByte (b :: t) 0 = some b := rfl
  simp only [xzIdxParse, hread, bind_eq_bind, bind_some]
  by_cases hb : b ≠ 0
  · rw [if_pos hb]
    exact ⟨_, rfl, fun hf => absurd (some.inj hf.1) hb, fun _ => by decide⟩
  rw [if_neg hb]
  obtain rfl := not_not.mp hb
  have hrest : Rest (0 :: t) 1 t := ⟨by rw [length_cons]; omega, rfl⟩
  have hrest₁ := hrest.suffix (looseNumber_suffix t)
  rw [xzVarint_eq hrest hlen]
  simp only [bind_some]
  rw [xzIdxRecs_eq hrest₁ hlen _ (by decide), Nat.zero_add]
  have hrest₂ := hrest₁.suffix (looseTotal_suffix (looseNumber t).1 _)
  have hidx : looseIdx (0 :: t) = looseTotal (looseNumber t).1 (looseNumber t).2 := rfl
  rw [← hidx] at hrest₂ ⊢
  obtain ⟨r, hr⟩ : ∃ r, r = (looseIdx (0 :: t)).2 := ⟨_, rfl⟩
  have hframed : IdxFramed (0 :: t) ↔ r.length / 4 = 1 ∧ (∀ b ∈ r.take (r.length % 4), b = 0) ∧
      (ffcrc32Get ((0 :: t).take ((0 :: t).length - 4))).toNat = leNat (r.drop (r.length % 4)) := by
    rw [hr]
    exact and_iff_right rfl
  have hshort := @short_index t
  rw [← hr] at hrest₂ hshort ⊢
  obtain ⟨len, hl⟩ : ∃ len, len = (0 :: t).length := ⟨_, rfl⟩
  have hrlen : r.length = len - (len - r.length) := by
    rw [hl]
    exact hrest₂.length
  simp only [bind_some, ← hl, ← hrlen]
  by_cases hend : r = []
  · have hpos : len - r.length = len := by rw [hend, length_nil, Nat.sub_zero]
    rw [if_pos hpos]
    refine ⟨_, rfl, fun hf => ?_, fun _ => by decide⟩
    rw [hframed, hend] at hf
    exact absurd hf.1 (by decide)
  have hrpos := length_pos_iff.mpr hend
  have hin : len - r.length + r.length % 4 ≤ (0 :: t).length := by omega
  obtain ⟨q, hq, hiff⟩ := @ffsSkip_eq (0 :: t) (r.length % 4) (len - r.length) hin
  have hdrop : (0 :: t).drop (len - r.length) = r := by
    rw [hl]
    exact hrest₂.2
  have hfield : ∀ n, field (0 :: t) (len - r.length) n = r.take n := fun n => by
    rw [field, hdrop]
  rw [hfield] at hiff
  rw [if_neg (by omega), if_neg (by omega), hq]
  simp only [bind_some]
  by_cases hzero : ∀ b ∈ r.take (r.length % 4), b = 0
  · have hfour : 4 ≤ len := by
      by_contra hlt
      have hshort' : t = [0, 0] := hshort (by rw [length_cons] at hl; omega) hend hzero
      exact hzeros (by rw [hshort'])
    have hbody : rdBytes (0 :: t) 0 (sizeDiff len 4) = some ((0 :: t).take (len - 4)) := by
      rw [sizeDiff_eq hfour (by omega), rdBytes_eq (by omega)]
      rfl
    rw [if_neg (not_not.mpr (hiff.mpr hzero)), hbody]
    simp only [bind_some]
    by_cases hone : r.length / 4 = 1
    · have hcrc : rdBytes (0 :: t) (len - r.length + r.length % 4) 4 =
          some (r.drop (r.length % 4)) := by
        rw [rdBytes_eq (by omega), field, ← drop_drop, hdrop, take_of_length_le]
        rw [length_drop]
        omega
      rw [if_neg (by omega), hcrc]
      simp only [bind_some]
      rw [hframed, and_iff_right hone, and_iff_right hzero, ← hl]
      by_cases hsum : (ffcrc32Get ((0 :: t).take (len - 4))).toNat = leNat (r.drop (r.length % 4))
      · rw [if_neg (not_not.mpr hsum)]
        exact ⟨_, rfl, fun _ => rfl, fun hf => absurd hsum hf⟩
      · rw [if_pos hsum]
        exact ⟨_, rfl, fun hf => absurd hf hsum, fun _ => by decide⟩
    · rw [if_pos (by omega)]
      exact ⟨_, rfl, fun hf => absurd (hframed.mp hf).1 hone, fun _ => by decide⟩
  · rw [if_pos (fun h => hzero (hiff.mp h))]
    exact ⟨_, rfl, fun hf => absurd (hframed.mp hf).2.1 hzero, fun _ => by decide⟩

theorem looseTotal_records {n : ℕ} {t r : List UInt8} {os : List ℕ}
    (h : idxRecords n t = some (os, r)) : (looseTotal n t).1 = os.sum := by
  induction n generalizing t os with
  | zero =>
    obtain ⟨rfl, -⟩ := Prod.mk.inj (some.inj h)
    rfl
  | succ n ih =>
    simp only [idxRecords, bind_eq_bind, bind_eq_some_iff] at h
    obtain ⟨⟨s, t₁⟩, h1, ⟨o, t₂⟩, h2, ⟨os', t₃⟩, h3, h⟩ := h
    obtain ⟨rfl, rfl⟩ := Prod.mk.inj (some.inj h)
    have hloose₁ : looseNumber t = (s, t₁) := by rw [looseNumber, h1]; rfl
    have hloose₂ : looseNumber t₁ = (o, t₂) := by rw [looseNumber, h2]; rfl
    rw [looseTotal, hloose₁]
    simp only [hloose₂, sum_cons, ih h3]

theorem looseIdx_sizes {buf : List UInt8} {os : List ℕ} (h : idxSizes buf = some os) :
    (looseIdx buf).1 = os.sum := by
  simp only [idxSizes, bind_eq_bind, bind_eq_some_iff] at h
  obtain ⟨⟨n, t⟩, h1, ⟨os', t'⟩, h2, h⟩ := h
  obtain rfl := some.inj h
  have hloose : looseNumber buf.tail = (n, t) := by rw [looseNumber, h1]; rfl
  rw [looseIdx, hloose]
  exact looseTotal_records h2

/-- **Exactly when an index is read right** -/
theorem idxExact_iff {buf : List UInt8} (hlen : buf.length < 2 ^ 64) :
    IdxExact buf ↔ IdxCond buf := by
  by_cases hnil : buf = []
  · refine iff_of_false ?_ fun h => h.1 hnil
    rintro ⟨r, hr, -⟩
    rw [hnil] at hr
    cases hr
  by_cases hzeros : buf = [0, 0, 0]
  · refine iff_of_false ?_ fun h => h.2.1 hzeros
    rintro ⟨r, hr, -⟩
    have hnone : xzIdxParse [0, 0, 0] = none := by decide
    rw [hzeros, hnone] at hr
    cases hr
  obtain ⟨r, hr, hframed, hbad⟩ := xzIdxParse_eq hlen hnil hzeros
  have hexact : IdxExact buf ↔ (0 ≤ r → ∃ os, idxSizes buf = some os ∧ r = os.sum) := by
    constructor
    · rintro ⟨r', hr', h⟩
      obtain rfl : r = r' := some.inj (hr.symm.trans hr')
      exact h
    · exact fun h => ⟨r, hr, h⟩
  rw [hexact, IdxCond, and_iff_right hnil, and_iff_right hzeros]
  by_cases hf : IdxFramed buf
  · obtain ⟨s, hs⟩ : ∃ s, s = (looseIdx buf).1 := ⟨_, rfl⟩
    have hval := hframed hf
    rw [← hs] at hval ⊢
    rw [int64] at hval
    constructor
    · intro h _ hsmall
      rw [if_pos hsmall] at hval
      obtain ⟨os, hos, hsum⟩ := h (by omega)
      have hloose := looseIdx_sizes hos
      rw [← hs] at hloose
      refine ⟨by rw [hos]; rfl, ?_⟩
      omega
    intro h hpos
    have hsmall : s % 2 ^ 64 < 2 ^ 63 := by
      by_contra hge
      rw [if_neg hge] at hval
      omega
    rw [if_pos hsmall] at hval
    obtain ⟨hsome, hlt⟩ := h hf hsmall
    obtain ⟨os, hos⟩ := isSome_iff_exists.mp hsome
    have hloose := looseIdx_sizes hos
    rw [← hs] at hloose
    refine ⟨os, hos, ?_⟩
    rw [hval, Nat.mod_eq_of_lt hlt, hloose]
  · have hneg := hbad hf
    exact ⟨fun _ h => absurd h hf, fun _ hpos => absurd hpos (not_le.mpr hneg)⟩

/-! ### All of the parsers -/

/-- **Exactly when the parsers are right.** A footer of 12 bytes gives the index size or an error
if the size fits or the footer is refused anyway; a block header is read inside of the buffer if
it has two bytes, whatever the types of the filter's fields; an index gives the sum of its sizes
or an error, and is read inside of the buffer, under `IdxCond`. -/
theorem xz_parsers_iff (toId toLen : ℕ → ℕ) {ftr blk idx : List UInt8} (hftr : ftr.length = 12)
    (hblk : blk.length < 2 ^ 64) (hidx : idx.length < 2 ^ 64) :
    (FtrExact ftr ↔ FtrCond ftr) ∧
    ((xzHdrParse toId toLen blk).isSome ↔ 2 ≤ blk.length) ∧
    (IdxExact idx ↔ IdxCond idx) :=
  ⟨ftrExact_iff hftr, xzHdrParse_inside toId toLen hblk, idxExact_iff hidx⟩

/-- A footer of an index of 8 bytes, a block header, and that index, with one record of 5 bytes. -/
theorem xz_parsers_iff_example :
    FtrExact [0x90, 0x42, 0x99, 0x0d, 0x01, 0x00, 0x00, 0x00, 0x00, 0x01, 0x59, 0x5a] ∧
    (xzHdrParse id id [0x01, 0x00, 0x21, 0x01, 0x16, 0x00, 0x00, 0x00]).isSome ∧
    IdxExact [0x00, 0x01, 0x10, 0x05, 0xf5, 0x53, 0x2e, 0x1a] := by
  obtain ⟨hftr, hblk, hidx⟩ := @xz_parsers_iff id id
    [0x90, 0x42, 0x99, 0x0d, 0x01, 0x00, 0x00, 0x00, 0x00, 0x01, 0x59, 0x5a]
    [0x01, 0x00, 0x21, 0x01, 0x16, 0x00, 0x00, 0x00]
    [0x00, 0x01, 0x10, 0x05, 0xf5, 0x53, 0x2e, 0x1a] rfl (by decide) (by decide)
  refine ⟨hftr.mpr fun _ => ?_, hblk.mpr (by decide),
    hidx.mpr ⟨by decide, by decide, fun _ _ => ?_⟩⟩
  · decide
  · decide

/-- **The size in a footer wraps**: the CRC is right and the size is `2 ^ 30 - 1`, and the index is
said to be empty. -/
theorem xz_size_wraps :
    xzStmftrParse [0x29, 0x59, 0x57, 0x19, 0xff, 0xff, 0xff, 0x3f, 0x00, 0x01, 0x59, 0x5a] =
      some 0 ∧
    ¬FtrExact [0x29, 0x59, 0x57, 0x19, 0xff, 0xff, 0xff, 0x3f, 0x00, 0x01, 0x59, 0x5a] := by
  have hread : xzStmftrParse
      [0x29, 0x59, 0x57, 0x19, 0xff, 0xff, 0xff, 0x3f, 0x00, 0x01, 0x59, 0x5a] = some 0 := by
    decide
  refine ⟨hread, ?_⟩
  rintro ⟨r, hr, hexact, -⟩
  rw [hread] at hr
  obtain rfl := some.inj hr
  exact absurd (hexact (le_refl _)) (by decide)

end Xz

end FF
