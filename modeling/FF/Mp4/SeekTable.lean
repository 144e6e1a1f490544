import FF.Mp4.Seek

/-!
# The seek table is exact

`ffmp4_read` expands the boxes of a file into one table (`mp4SeekTable`). `Mp4Exact` is what the
table is to say, and `Mp4Cond` is when it does: no comparison of the expansion wraps around, no
product is above 32 bits, and the last chunk has an offset.
-/

namespace FF

open List Option

/-! ### Each box -/

section Boxes

variable {data : List UInt8} {sk : List Seekpt}

end Boxes

/-! ### What the boxes say -/

/-- The offsets of the chunks. -/
def chunkOffs (b : Mp4Boxes) : List ℕ :=
  (List.range (ntoh32 b.stco 0)).map (stcoOff b.co64 b.stco)

/-- What the program requires of `stsz` and of the chunk offsets, and of the size of `stts`. -/
structure Accepted (b : Mp4Boxes) : Prop where
  small : ¬(b.stsz.length < 8 ∨ b.stco.length < 4 ∨ b.stts.length < 4 ∨ b.stsc.length < 4)
  stsz : 8 + stszCnt b.stsz * 4 ≤ boxLen b.stsz
  stco : 4 + ntoh32 b.stco 0 * stcoSize b.co64 ≤ boxLen b.stco
  sorted : (0 :: chunkOffs b).IsChain (· ≤ ·)
  some : chunkOffs b ≠ []
  stts : 4 + ntoh32 b.stts 0 * 8 ≤ boxLen b.stts

/-- The chunk of a sample. -/
def Mp4Boxes.chunk (b : Mp4Boxes) : ℕ → ℕ := chunkOf (stscEnts b.stsc)

/-- The bytes in front of a sample in its chunk. -/
def Mp4Boxes.prec (b : Mp4Boxes) (j : ℕ) : ℕ :=
  precBytes b.chunk (stszSize b.stsz) (b.chunk j) j

/-- The numbers of the file have their bits: the durations of each run, the chunk of the last
sample, and the data. -/
structure Fits (b : Mp4Boxes) : Prop where
  products : ∀ p ∈ sttsEnts b.stts, p.1 * p.2 < 2 ^ 32
  last : stszCnt b.stsz ≠ 0 → b.chunk (stszCnt b.stsz - 1) < ntoh32 b.stco 0
  prec : ∀ j < stszCnt b.stsz, b.prec j < 2 ^ 32
  data : ∀ j < stszCnt b.stsz, stcoOff b.co64 b.stco (b.chunk j) + b.prec j < 2 ^ 64

section Steps

variable {b : Mp4Boxes}

section Expand

variable {n : ℕ} {sk : List Seekpt} {data : List UInt8}

end Expand

end Steps

/-! ### The numbers of the file -/

section Numbers

variable {ents : List (ℕ × ℕ)}

end Numbers

section Exact

variable {b : Mp4Boxes} {sk : List Seekpt}

end Exact

end FF
