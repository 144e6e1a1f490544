import FF.Ffbuf
import FF.Adts.Header

/-!
# The ADTS reader

`ffaac_adts_read` of `FF/aformat/ffaac-adts.c`: it looks for the first header, makes sure of it with
the header of the next frame, goes back, and returns the frames one after another. Bytes are in the
input, or gathered in a buffer, so that going back (`adtsShift`) moves the input or does nothing.

## Main definitions

* `adtsStep`: one round of the loop of `ffaac_adts_read`.
* `ffaacAdtsRead`: a call.
* `adtsRun`: a user that passes pieces of input, and calls for more until the end.
-/

namespace FF

/-- `enum R`. -/
inductive AdtsSt
  | init
  | gatherShift
  | gather
  | hdrSync
  | hdrSync2
  | hdr
  | crc
  | data
  | fr
  deriving DecidableEq, Repr

/-- `enum FFAAC_ADTS_R`. -/
inductive AdtsR
  | rwarn (e : AdtsE)
  | rdata
  | rframe
  | rmore
  | rhdr
  | rdone
  deriving DecidableEq, Repr

/-- `struct ffaac_adts`, and the local variable `s`. The input `in` is the part of `piece` from
`pos` on: it is moved back as well. -/
structure Adts where
  state : AdtsSt
  nxstate : AdtsSt
  frno : ℕ
  off : ℕ
  gathlen : ℕ
  frlen : ℕ
  shift : ℤ
  nsamples : ℕ
  buf : List UInt8
  piece : List UInt8
  pos : ℕ
  out : List UInt8
  firsthdr : List UInt8
  fin : Bool
  wholeframe : Bool
  codec : ℕ
  channels : ℕ
  sampleRate : ℕ
  s : List UInt8
  deriving DecidableEq

/-- `a->in`. -/
def Adts.inp (a : Adts) : List UInt8 := a.piece.drop a.pos

/-- `ffarr_shift(&a->in, r)` and `a->off += r`. -/
def Adts.took (a : Adts) (r : ℕ) : Adts :=
  { a with pos := a.pos + r, off := (a.off + r) % 2 ^ 64 }

/-- A helper has changed the buffer, and has processed bytes of the input. -/
def Adts.fill (a : Adts) (buf : List UInt8) (r : ℕ) : Adts := { a with buf := buf }.took r

/-- `shift`: the buffer loses bytes on its left side, or the input is moved. `none` where there
are not as many bytes. -/
def adtsShift (a : Adts) (n : ℤ) : Option Adts :=
  if a.buf ≠ [] then
    if 0 < n then
      if a.buf.length < n.toNat then none else some { a with buf := a.buf.drop n.toNat }
    else some a
  else if (a.pos : ℤ) + n < 0 ∨ a.piece.length < (a.pos : ℤ) + n then none
  else some { a with pos := ((a.pos : ℤ) + n).toNat }

/-- `GATHER`. -/
def Adts.gatherFor (a : Adts) (st : AdtsSt) (len : ℕ) : Adts :=
  { a with state := .gatherShift, nxstate := st, gathlen := len }

/-- The loop of the state `R_HDR_SYNC`: a header is found, or more input is needed. -/
def adtsSync : ℕ → Option (List UInt8) → Adts → Option (Adts × Option AdtsR)
  | 0, _, _ => none
  | n + 1, hp, a =>
    let (buf, s, r) := ffbufContig a.buf a.inp ADTS_HDRLEN
    let a := a.fill buf r
    match if ADTS_HDRLEN ≤ s.length then adtsHdrFind hp s else none with
    | some (i, h) =>
      (adtsShift a i).map fun a =>
        ({ a with frlen := h.frlen, shift := 0 }.gatherFor .hdrSync2 (h.frlen + ADTS_HDRLEN),
          none)
    | none =>
      let (buf, r) := ffbufContigStore a.buf a.inp ADTS_HDRLEN
      let a := a.fill buf r
      if a.inp = [] then some (a, some .rmore)
      else adtsSync n (if ADTS_HDRLEN ≤ s.length then none else hp) a

/-- The state `R_HDR_SYNC2`: the header behind the frame. -/
def adtsSync2 (a : Adts) : Option (Adts × Option AdtsR) :=
  let hp2 := a.s.drop a.frlen
  if (adtsHdrParse hp2).isOk ∧ adtsHdrCmp a.s hp2 = false then
    some ({ a with shift := -a.gathlen }.gatherFor .hdr ADTS_HDRLEN, none)
  else (adtsShift a 1).map fun a => ({ a with state := .hdrSync }, none)

/-- The state `R_GATHER`. -/
def adtsGather (a : Adts) : Adts × Option AdtsR :=
  let (buf, r, s) := ffarrGather2 a.buf a.inp a.gathlen
  let a := { a with buf := buf, s := s }.took r
  if s.length < a.gathlen then
    if a.fin ∧ a.inp = [] then (a, some .rdone) else (a, some .rmore)
  else ({ a with shift := if a.buf ≠ [] then a.gathlen else 0, state := a.nxstate }, none)

/-- The state `R_HDR`: what is gathered for the frame of a header. -/
def adtsNext (a : Adts) (h : AdtsHdr) : Adts :=
  let a := { a with frno := (a.frno + 1) % 2 ^ 32 }
  if a.wholeframe then { a with shift := -ADTS_HDRLEN }.gatherFor .fr h.frlen
  else if h.haveCrc then a.gatherFor .crc (2 + h.datalen)
  else a.gatherFor .data h.datalen

/-- The state `R_HDR`. -/
def adtsHdr (a : Adts) : Adts × Option AdtsR :=
  match adtsHdrParse a.s with
  | .error _ => ({ a with state := .hdrSync }, some (.rwarn .lostsync))
  | .ok h =>
    let a := adtsNext a h
    if a.sampleRate = 0 then
      ({ a with
        firsthdr := a.s.take ADTS_HDRLEN
        codec := h.aot
        channels := h.chanConf
        sampleRate := mp4AscSampFreq.getD h.sampFreqIdx 0 * 5
        out := adtsMkMp4asc h }, some .rhdr)
    else if adtsHdrCmp a.firsthdr a.s then
      ({ a with state := .hdrSync }, some (.rwarn .lostsync))
    else (a, none)

/-- The states `R_CRC` and `R_DATA`. -/
def adtsData (a : Adts) (s : List UInt8) : Adts × Option AdtsR :=
  ({ a with nsamples := (a.nsamples + 1024) % 2 ^ 64, out := s }.gatherFor .hdr ADTS_HDRLEN,
    some .rdata)

/-- The state `R_FR`. -/
def adtsFr (a : Adts) : Adts × Option AdtsR :=
  ({ a with nsamples := (a.nsamples + 1024) % 2 ^ 64, out := a.s }.gatherFor .hdr ADTS_HDRLEN,
    some .rframe)

/-- A round of the loop of `ffaac_adts_read`. -/
def adtsStep (fuel : ℕ) (a : Adts) : Option (Adts × Option AdtsR) :=
  match a.state with
  | .init => some ({ a with state := .hdrSync }, none)
  | .hdrSync =>
    adtsSync fuel (if a.firsthdr.take 4 = [0, 0, 0, 0] then none else some a.firsthdr) a
  | .hdrSync2 => adtsSync2 a
  | .gatherShift => (adtsShift a a.shift).map fun a => ({ a with state := .gather }, none)
  | .gather => some (adtsGather a)
  | .hdr => some (adtsHdr a)
  | .crc => some (adtsData a (a.s.drop 2))
  | .data => some (adtsData a a.s)
  | .fr => some (adtsFr a)

/-- `ffaac_adts_read`. -/
def ffaacAdtsRead : ℕ → Adts → Option (Adts × AdtsR)
  | 0, _ => none
  | n + 1, a =>
    match adtsStep n a with
    | none => none
    | some (a, some r) => some (a, r)
    | some (a, none) => ffaacAdtsRead n a

/-- The calls until there is need of more input: what is returned, with the output. -/
def adtsCalls (fuel : ℕ) : ℕ → Adts → Option (Adts × List (AdtsR × List UInt8))
  | 0, _ => none
  | n + 1, a => do
      let (a, r) ← ffaacAdtsRead fuel a
      if r = .rmore then some (a, [])
      else if r = .rdone then some (a, [(.rdone, [])])
      else
        let (a', rs) ← adtsCalls fuel n a
        some (a', (r, a.out) :: rs)

end FF
