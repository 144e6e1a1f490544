import FF.Lib.Fields

/-!
# The sample tables of an MP4 file

The boxes `stsz`, `stts`, `stsc` and `stco` or `co64` of `FF/mformat/ffmp4-fmt.c`, from which
`ffmp4_read` builds a table with the position, the size and the chunk of each sample. `mp4_data`
finds a sample with it.

A table that is written is a list of the length it was allocated with, and a write outside of it is
a fault. All counters have 32 bits, as those of the program.
-/

namespace FF

/-! ### Tables -/

/-- `struct seekpt`. -/
structure Seekpt where
  audioPos : ℕ
  size : ℕ
  chunkId : ℕ
  deriving DecidableEq, Repr

/-- `ffint_ntoh32` at an offset of the data. -/
def ntoh32 (data : List UInt8) (off : ℕ) : ℕ := beNat (field data off 4)

/-- `ffint_ntoh64` at an offset of the data. -/
def ntoh64 (data : List UInt8) (off : ℕ) : ℕ := beNat (field data off 8)

/-- The parameter `uint len` of the functions. -/
def boxLen (data : List UInt8) : ℕ := data.length % 2 ^ 32

/-! ### Sizes -/

/-- The number of samples in `struct stsz`. -/
def stszCnt (data : List UInt8) : ℕ := ntoh32 data 4

/-- The size of a sample in `struct stsz`. -/
def stszSize (data : List UInt8) (i : ℕ) : ℕ :=
  if ntoh32 data 0 ≠ 0 then ntoh32 data 0 else ntoh32 data (8 + 4 * i)

/-- The bytes of an offset. -/
def stcoSize (co64 : Bool) : ℕ := if co64 then 8 else 4

/-- The offset of a chunk in `struct stco` or `struct co64`. -/
def stcoOff (co64 : Bool) (data : List UInt8) (i : ℕ) : ℕ :=
  if co64 then ntoh64 data (4 + 8 * i) else ntoh32 data (4 + 4 * i)

/-- The entries of `struct stts`: a number of samples and the duration of each. -/
def sttsEnts (data : List UInt8) : List (ℕ × ℕ) :=
  (List.range (ntoh32 data 0)).map fun i => (ntoh32 data (4 + 8 * i), ntoh32 data (8 + 8 * i))

/-- The entries of `struct stsc`: the first chunk of a run, from 1 on, and the samples of each of
its chunks. -/
def stscEnts (data : List UInt8) : List (ℕ × ℕ) :=
  (List.range (ntoh32 data 0)).map fun i => (ntoh32 data (4 + 12 * i), ntoh32 data (8 + 12 * i))

/-- The contents of the boxes; `co64` says which one the chunk offsets come from. -/
structure Mp4Boxes where
  stsz : List UInt8
  co64 : Bool
  stco : List UInt8
  stts : List UInt8
  stsc : List UInt8

end FF
