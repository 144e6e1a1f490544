import FF.Lib.Fields
import FF.Lib.Memory

/-!
# Conversion of audio samples

`ffpcm_convert` of `FF/audio/ffpcm.c` for the integer formats. Samples stand in memory either
interleaved, one sample of each channel after another, or in a buffer for each channel; the program
reaches the samples of a channel with a table of pointers and a step in both cases.

The cases of the switch differ in the size of the samples and in the conversion of one sample
(`PcmCase`). Numbers are those of a little-endian machine.
-/

namespace FF

/-! ### Formats -/

/-- The integer formats of `enum FFPCM_FMT`; `int24_4` has 3 bytes behind an empty one. -/
inductive PcmFmt
  | int8
  | int16
  | int24
  | int32
  | int24_4
  deriving DecidableEq, Repr

/-- `ffpcm_bits`. -/
def PcmFmt.bits : PcmFmt → ℕ
  | .int8 => 8
  | .int16 => 16
  | .int24 => 24
  | .int32 => 32
  | .int24_4 => 32

/-- The bytes of a sample. -/
def PcmFmt.size (f : PcmFmt) : ℕ := f.bits / 8

/-- `ffpcmex`. -/
structure Ffpcmex where
  format : PcmFmt
  channels : ℕ
  sampleRate : ℕ
  ileaved : Bool
  deriving DecidableEq, Repr

/-- `union pcmdata`: a pointer to samples, or a table of such pointers. -/
inductive Pcmdata
  | b (p : ℕ)
  | pb (ps : List ℕ)
  deriving DecidableEq, Repr

/-- The pointer of `union pcmdata`; it is a fault to take a table for one. -/
def Pcmdata.ptr : Pcmdata → Option ℕ
  | .b p => some p
  | .pb _ => none

/-- The table of `union pcmdata`. -/
def Pcmdata.table : Pcmdata → Option (List ℕ)
  | .b _ => none
  | .pb ps => some ps

/-- `pcm_setni`: the pointers to the first samples of the channels. -/
def pcmSetni (b : ℕ) (fmt : PcmFmt) (nch : ℕ) : List ℕ :=
  (List.range nch).map fun i => b + i * fmt.bits / 8

/-- The pointers to the samples of the channels, and the step from one sample to the next. -/
def Pcmdata.start (d : Pcmdata) (ileaved : Bool) (fmt : PcmFmt) (nch step : ℕ) :
    Option (List ℕ × ℕ) :=
  if ileaved then d.ptr.map fun b => (pcmSetni b fmt nch, nch)
  else d.table.map fun ps => (ps, step)

/-! ### Numbers -/

/-- The value of a word of so many bits as a signed number. -/
def signed (bits n : ℕ) : ℤ := if n < 2 ^ (bits - 1) then n else n - 2 ^ bits

/-- A number as a word of so many bits. -/
def toWord (bits : ℕ) (z : ℤ) : ℕ := (z % 2 ^ bits).toNat

/-- `ffint_ltoh24`. -/
def ffintLtoh24 (x : List UInt8) : ℕ := leNat x

/-- `ffint_ltoh24s`. -/
def ffintLtoh24s (x : List UInt8) : ℤ := signed 24 (leNat x)

/-- `ffint_htol24`. -/
def ffintHtol24 (n : ℕ) : List UInt8 := leBytes 3 n

/-- `ffint_lim8`, `ffint_lim16`, `ffint_lim24`, `ffint_lim32`. -/
def ffintLim (bits : ℕ) (i : ℤ) : ℤ :=
  if i < -2 ^ (bits - 1) then -2 ^ (bits - 1)
  else if 2 ^ (bits - 1) - 1 < i then 2 ^ (bits - 1) - 1
  else i

/-! ### The switch -/

/-- A case of the switch: the sizes of the samples, the bytes that are stored before the sample is
read, and the bytes of the sample that are stored behind them. -/
structure PcmCase where
  isize : ℕ
  osize : ℕ
  pad : List UInt8
  conv : List UInt8 → List UInt8

/-- The cases of the switch between integer formats. -/
def pcmCase : PcmFmt → PcmFmt → Option PcmCase
  -- int8
  | .int8, .int8 => some ⟨1, 1, [], fun x => x⟩
  | .int8, .int16 => some ⟨1, 2, [], fun x => leBytes 2 (toWord 16 (signed 8 (leNat x) * 0x100))⟩
  -- int16
  | .int16, .int8 =>
    some ⟨2, 1, [], fun x => leBytes 1 (toWord 8 ((signed 16 (leNat x)).tdiv 0x100))⟩
  | .int16, .int16 => some ⟨2, 2, [], fun x => x⟩
  | .int16, .int24 =>
    some ⟨2, 3, [], fun x => ffintHtol24 (toWord 32 (signed 16 (leNat x) * 0x100))⟩
  | .int16, .int24_4 =>
    some ⟨2, 4, [0], fun x => ffintHtol24 (toWord 32 (signed 16 (leNat x) * 0x100))⟩
  | .int16, .int32 =>
    some ⟨2, 4, [], fun x => leBytes 4 (toWord 32 (signed 16 (leNat x) * 0x10000))⟩
  -- int24
  | .int24, .int16 => some ⟨3, 2, [], fun x => leBytes 2 (ffintLtoh24 x / 0x100)⟩
  | .int24, .int24 => some ⟨3, 3, [], fun x => x⟩
  | .int24, .int24_4 => some ⟨3, 4, [0], fun x => x⟩
  | .int24, .int32 => some ⟨3, 4, [], fun x => leBytes 4 (ffintLtoh24 x * 0x100 % 2 ^ 32)⟩
  -- int32
  | .int32, .int16 => some ⟨4, 2, [], fun x => leBytes 2 (toWord 16 (signed 32 (leNat x)))⟩
  | .int32, .int24 =>
    some ⟨4, 3, [], fun x => ffintHtol24 (toWord 32 ((signed 32 (leNat x)).tdiv 0x100))⟩
  | .int32, .int24_4 =>
    some ⟨4, 4, [0], fun x => ffintHtol24 (toWord 32 ((signed 32 (leNat x)).tdiv 0x100))⟩
  | .int32, .int32 => some ⟨4, 4, [], fun x => x⟩
  | _, _ => none

/-- A sample of a channel is read, converted and written. -/
def PcmCase.sample (c : PcmCase) (src dst : List ℕ) (istep ostep : ℕ) (m : Memory) (j : ℕ × ℕ) :
    Option Memory := do
  let q ← dst[j.1]?
  let m ← store m (q + j.2 * ostep * c.osize) c.pad
  let p ← src[j.1]?
  let x ← load m (p + j.2 * istep * c.isize) c.isize
  store m (q + j.2 * ostep * c.osize + c.pad.length) (c.conv x)

/-- The loops of a case. -/
def PcmCase.loops (c : PcmCase) (src dst : List ℕ) (nch samples istep ostep : ℕ) (m : Memory) :
    Option Memory :=
  (List.range nch).foldlM (fun m ich =>
    (List.range samples).foldlM (fun m i => c.sample src dst istep ostep m (ich, i)) m) m

/-! ### Channels -/

/-- A round of `_ffpcm_mono_mix`: the samples of all channels are added to what the last division
has left. -/
def monoMixSample (bits : ℕ) (out : ℕ) (src : List ℕ) (nch step : ℕ) (s : Memory × ℤ) (i : ℕ) :
    Option (Memory × ℤ) := do
  let sum ← (List.range nch).foldlM (fun sum ich => do
    let p ← src[ich]?
    let x ← load s.1 (p + i * step * (bits / 8)) (bits / 8)
    some (sum + signed bits (leNat x))) s.2
  guard (nch ≠ 0)
  let n := sum.tmod nch
  let m ← store s.1 (out + i * (bits / 8))
    (leBytes (bits / 8) (toWord bits (ffintLim bits (sum.tdiv nch + n))))
  some (m, -n)

/-- `_ffpcm_mono_mix`: `none` if the format is not supported. -/
def ffpcmMonoMix (m : Memory) (out : ℕ) (inpcm : Ffpcmex) (inp : Pcmdata) (samples : ℕ) :
    Option (Option Memory) := do
  let (src, step) ← inp.start inpcm.ileaved inpcm.format inpcm.channels 1
  if inpcm.format = .int24_4 then some none
  else do
    let (m, _) ← (List.range samples).foldlM
      (monoMixSample inpcm.format.bits out src inpcm.channels step) (m, 0)
    some (some m)

/-- The input behind the channel conversion. -/
structure PcmInput where
  mem : Memory
  src : Pcmdata
  nch : ℕ
  ileaved : Bool
  istep : ℕ

/-- The part of `ffpcm_convert` for channels that do not match; `tmp` is what the allocator
returns. `none` if the conversion is not supported. -/
def pcmChannels (tmp : Option ℕ) (outpcm inpcm : Ffpcmex) (inp : Pcmdata) (samples : ℕ)
    (m : Memory) : Option (Option PcmInput) :=
  let nch := outpcm.channels % 16
  let mask := outpcm.channels / 16
  if nch = 1 then
    if mask = 0 then
      match tmp with
      | none => some none
      | some t => do
          let m ← ffpcmMonoMix (allocate m t (samples * inpcm.format.bits / 8)) t inpcm inp samples
          some (m.map fun m => ⟨m, .pb [t], nch, false, 1⟩)
    else if ¬inpcm.ileaved then do
      let ps ← inp.table
      some (some ⟨m, .pb (ps.drop (mask - 1)), nch, false, 1⟩)
    else do
      let b ← inp.ptr
      some (some ⟨m, .pb [b + (mask - 1) * inpcm.format.bits / 8], nch, false, inpcm.channels⟩)
  else if inpcm.channels = 1 then
    if inpcm.ileaved then do
      let b ← inp.ptr
      some (some ⟨m, .pb (List.replicate nch b), nch, false, 1⟩)
    else if samples ≠ 0 then do
      let ps ← inp.table
      let p ← ps[0]?
      some (some ⟨m, .pb (List.replicate nch p), nch, false, 1⟩)
    else some (some ⟨m, inp, nch, false, 1⟩)
  else some none

/-! ### `ffpcm_convert` -/

/-- The samples are only copied: one region, or one for each channel. -/
def pcmCopy (fmt : PcmFmt) (src dst : Pcmdata) (nch samples : ℕ) (ileaved : Bool) (m : Memory) :
    Option Memory :=
  if samples = 0 then some m
  else if ileaved then do
    memcpy m (← dst.ptr) (← src.ptr) (samples * (fmt.bits / 8 * nch))
  else
    (List.range nch).foldlM (fun m ich => do
      let q ← (← dst.table)[ich]?
      let p ← (← src.table)[ich]?
      memcpy m q p (samples * fmt.bits / 8)) m

/-- With one channel both layouts are the same; the input is taken in that of the output. -/
def pcmRelayout (oileaved : Bool) (samples : ℕ) (i : PcmInput) : Option PcmInput :=
  if i.ileaved ≠ oileaved ∧ i.nch = 1 then
    if samples = 0 then some { i with ileaved := oileaved }
    else if ¬i.ileaved then do
      let ps ← i.src.table
      let p ← ps[0]?
      some { i with src := .b p, ileaved := oileaved }
    else do
      let b ← i.src.ptr
      some { i with src := .pb [b], ileaved := oileaved }
  else some i

/-- The loops over channels and samples. -/
def pcmLoops (outpcm inpcm : Ffpcmex) (out : Pcmdata) (samples : ℕ) (i : PcmInput) :
    Option (Option Memory) := do
  let (src, istep) ← i.src.start i.ileaved inpcm.format i.nch i.istep
  let (dst, ostep) ← out.start outpcm.ileaved outpcm.format i.nch 1
  match pcmCase inpcm.format outpcm.format with
  | none => some none
  | some c => (c.loops src dst i.nch samples istep ostep i.mem).map some

/-- `ffpcm_convert` behind the channel conversion. -/
def pcmSamples (outpcm inpcm : Ffpcmex) (out : Pcmdata) (samples : ℕ) (i : PcmInput) :
    Option (Option Memory) :=
  if inpcm.format = outpcm.format ∧ i.istep = 1 then do
    let i ← pcmRelayout outpcm.ileaved samples i
    if i.ileaved = outpcm.ileaved then
      (pcmCopy inpcm.format i.src out i.nch samples i.ileaved i.mem).map some
    else pcmLoops outpcm inpcm out samples i
  else pcmLoops outpcm inpcm out samples i

/-- The temporary buffer is freed. -/
def pcmFree (tmp : Option ℕ) (outpcm inpcm : Ffpcmex) (samples : ℕ) (m : Memory) : Memory :=
  match tmp with
  | none => m
  | some t =>
    if inpcm.channels ≠ outpcm.channels ∧ outpcm.channels = 1 then
      release m t (samples * inpcm.format.bits / 8)
    else m

/-- `ffpcm_convert`: the result and the memory. `tmp` is what `ffmem_alloc` returns if it is
called, and `none` is a fault. -/
def ffpcmConvert (tmp : Option ℕ) (outpcm : Ffpcmex) (out : Pcmdata) (inpcm : Ffpcmex)
    (inp : Pcmdata) (samples : ℕ) (m : Memory) : Option (ℤ × Memory) :=
  if inpcm.channels > 8 ∨ outpcm.channels % 16 > 8 then some (-1, m)
  else if inpcm.sampleRate ≠ outpcm.sampleRate then some (-1, m)
  else do
    let i ←
      if inpcm.channels ≠ outpcm.channels then pcmChannels tmp outpcm inpcm inp samples m
      else some (some ⟨m, inp, inpcm.channels, inpcm.ileaved, 1⟩)
    match i with
    | none => some (-1, m)
    | some i =>
      match ← pcmSamples outpcm inpcm out samples i with
      | none => some (-1, m)
      | some m => some (0, pcmFree tmp outpcm inpcm samples m)

end FF
