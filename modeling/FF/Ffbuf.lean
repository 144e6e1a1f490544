import Mathlib.Data.List.Basic

/-!
# Contiguous data from pieces of input

The helpers of `FF/ffarray.c` for readers whose input comes in pieces: bytes that are needed in one
place are gathered in a buffer (`ffarr_gather2`), or a search goes on across the end of a piece
(`ffbuf_contig`, `ffbuf_contig_store`). Memory is always available here.
-/

namespace FF

open List

/-- `ffarr_gather2`: the buffer, the number of bytes processed, and the bytes gathered. -/
def ffarrGather2 (buf d : List UInt8) (til : ℕ) : List UInt8 × ℕ × List UInt8 :=
  if buf = [] ∧ til ≤ d.length then (buf, til, d.take til)
  else if til ≤ buf.length then (buf, 0, buf.take til)
  else
    let n := min d.length (til - buf.length)
    (buf ++ d.take n, n, buf ++ d.take n)

/-- `ffbuf_contig`: the buffer, the bytes to look at, and the number of bytes processed. -/
def ffbufContig (buf inp : List UInt8) (ctglen : ℕ) : List UInt8 × List UInt8 × ℕ :=
  if buf ≠ [] then
    if ctglen ≤ buf.length then (buf, buf, 0)
    else
      let n := min (ctglen - 1) inp.length
      let buf := buf ++ inp.take n
      if buf.length < ctglen then (buf, [], 0) else (buf, buf, n)
  else if inp.length < ctglen then (buf, [], 0)
  else (buf, inp, 0)

/-- `ffbuf_contig_store`: the buffer and the number of bytes processed. -/
def ffbufContigStore (buf inp : List UInt8) (ctglen : ℕ) : List UInt8 × ℕ :=
  if buf ≠ [] then
    let tail := buf.drop (buf.length - min (ctglen - 1) buf.length)
    if tail.isPrefixOf inp then ([], 0) else (tail, 0)
  else (inp.drop (inp.length - min (ctglen - 1) inp.length), inp.length)

section Gather

variable {buf d : List UInt8} {til : ℕ}

/-- **There are few bytes**: the buffer takes all of the input. -/
theorem ffarrGather2_few (h : (buf ++ d).length < til) :
    ffarrGather2 buf d til = (buf ++ d, d.length, buf ++ d) := by
  rw [length_append] at h
  have hmin : min d.length (til - buf.length) = d.length := by omega
  rw [ffarrGather2, if_neg (by omega), if_neg (by omega)]
  simp only [hmin, take_length]

end Gather

section Contig

variable {buf inp : List UInt8} {ctglen : ℕ}

/-- **There is no window**, and one of the two is empty: all that is unread is stored. -/
theorem ffbufContig_few (hone : buf = [] ∨ inp = []) (h : (buf ++ inp).length < ctglen) :
    ffbufContig buf inp ctglen = (buf, [], 0) ∧
      ∃ r, ffbufContigStore buf inp ctglen = (buf ++ inp, r) ∧ r ≤ inp.length ∧
        inp.drop r = [] := by
  rw [length_append] at h
  rw [ffbufContig, ffbufContigStore]
  by_cases hnil : buf = []
  · subst hnil
    rw [length_nil, Nat.zero_add] at h
    have hmin : inp.length - min (ctglen - 1) inp.length = 0 := by omega
    rw [if_neg (not_not.mpr rfl), if_pos h, if_neg (not_not.mpr rfl), hmin]
    exact ⟨rfl, inp.length, rfl, Nat.le_refl _, drop_length⟩
  obtain rfl : inp = [] := hone.resolve_left hnil
  rw [length_nil, Nat.add_zero] at h
  have hmin : buf.length - min (ctglen - 1) buf.length = 0 := by omega
  rw [if_pos hnil, if_neg (Nat.not_le.mpr h), if_pos hnil, hmin, drop_zero, append_nil]
  refine ⟨?_, 0, ?_, Nat.zero_le _, rfl⟩
  · dsimp only
    rw [take_nil, append_nil, if_pos h]
  · cases buf with
    | nil => exact absurd rfl hnil
    | cons c buf => rfl

/-- **Storing the end of a window** that was in the input. -/
theorem ffbufContigStore_inp (h : ctglen - 1 ≤ inp.length) :
    ffbufContigStore [] inp ctglen =
      (inp.drop (inp.length - (ctglen - 1)), inp.length) := by
  rw [ffbufContigStore, if_neg (not_not.mpr rfl), Nat.min_eq_left h]

/-- **Storing the end of a window** that was in the buffer: it is not stored if the input begins
with the same bytes. -/
theorem ffbufContigStore_buf {s : List UInt8} (hs : s ≠ []) (h : ctglen - 1 ≤ s.length) :
    ffbufContigStore s inp ctglen =
      if s.drop (s.length - (ctglen - 1)) <+: inp then ([], 0)
      else (s.drop (s.length - (ctglen - 1)), 0) := by
  rw [ffbufContigStore, if_pos hs, Nat.min_eq_left h]
  simp only [ isPrefixOf_iff_prefix]

end Contig

end FF
