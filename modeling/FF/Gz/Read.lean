import FF.Ffarr
import FF.Lib.Units
import FF.Zlib

/-!
# Reading GZIP files

`ffgz_read` is called with chunks of a file. It gathers the header with its optional fields in one
buffer, passes the compressed data to `z_inflate`, and compares the trailer with what came out.

`z_inflate` and `crc32` are parameters: they are not part of the source.
-/

namespace FF

namespace Gz

/-- The states of `ffgz_read` -/
inductive St
  | trlseek
  | gather
  | trl
  | hdr
  | extra
  | name
  | cmt
  | crc
  | hdrok
  | lzinit
  | data
  | done
  deriving DecidableEq, Repr

/-- `enum FFGZ_E` -/
inductive FfgzE
  | sys
  | lz
  | notready
  | lzinit
  | hdr
  | smallsize
  | size
  | crc
  deriving DecidableEq, Repr

/-- `enum FFGZ_R`, with `err`, `out`, the offset to seek to, and behind a header its bytes and the
name in it. -/
inductive FfgzR
  | warn (e : FfgzE)
  | err (e : FfgzE)
  | data (out : List UInt8)
  | done
  | more
  | info (hdr : List UInt8) (name : Option (List UInt8))
  | seek (off : ℕ)
  deriving DecidableEq, Repr

/-- `GZ_FHDRCRC` -/
def GZ_FHDRCRC : UInt8 := 0x02

/-- `GZ_FEXTRA` -/
def GZ_FEXTRA : UInt8 := 0x04

/-- `GZ_FNAME` -/
def GZ_FNAME : UInt8 := 0x08

/-- `GZ_FCOMMENT` -/
def GZ_FCOMMENT : UInt8 := 0x10

/-- The header has the flag. -/
def hasFlag (hdr : List UInt8) (flag : UInt8) : Bool := hdr.getD 3 0 &&& flag != 0

/-- `ffsz_nlen` -/
def ffszNlen (s : List UInt8) : ℕ := (s.takeWhile (· != 0)).length

/-- `ffgz` -/
structure Ffgz (Z : Type) where
  state : St
  nxstate : St
  lz : Option Z
  hsize : ℕ
  buf : Ffarr
  nameoff : ℕ
  inoff : ℕ
  crc : UInt32
  outsize : ℕ
  trlcrc : ℕ
  deriving DecidableEq, Repr

/-- `ffgz_fname`, in the bytes of the buffer. -/
def ffgzFname (buf : List UInt8) (nameoff : ℕ) : Option (List UInt8) :=
  if nameoff ≠ 0 then some ((buf.drop nameoff).take (ffszNlen (buf.drop nameoff))) else none

/-- The header part of a file; what `sizeof(ffgzheader)` is. -/
def HDR_SIZE : ℕ := 10

/-- `sizeof(ffgztrailer)` -/
def TRL_SIZE : ℕ := 8

/-- `ffgz_init` on a zeroed `ffgz`; `none` where the size is not known. -/
def ffgzInit {Z : Type} : Option ℕ → Ffgz Z
  | none => ⟨.gather, .hdr, none, HDR_SIZE, .null, 0, 0, 0, 0, 0⟩
  | some size => ⟨.trlseek, .trlseek, none, 0, .null, 0, size, 0, 0, 0⟩

section Passes

variable {Z : Type} (alloc : ℕ → Bool) (zlib : Zlib Z) (crc32 : List UInt8 → UInt32 → UInt32)
  (cap : ℕ)

/-- `case R_GATHER` -/
def caseGather (t : Ffgz Z) (d : List UInt8) : Pass (Ffgz Z) UInt8 FfgzR :=
  match ffarrAppendUntil alloc t.buf d t.hsize with
  | .assert => .fault
  | .fail => .ret t d (.err .sys)
  | .more buf => .ret { t with buf := buf, inoff := (t.inoff + d.length) % 2 ^ 64 } d .more
  | .done buf r =>
    .again { t with buf := buf, inoff := (t.inoff + r) % 2 ^ 64, state := t.nxstate } (d.drop r)

/-- Gather up to `hsize` bytes. -/
def Ffgz.gather (t : Ffgz Z) (hsize : ℕ) (nxstate : St) : Ffgz Z :=
  { t with hsize := hsize % 2 ^ 32, state := .gather, nxstate := nxstate }

/-- `case R_TRLSEEK` -/
def caseTrlseek (t : Ffgz Z) (d : List UInt8) : Pass (Ffgz Z) UInt8 FfgzR :=
  let t := { t.gather TRL_SIZE .trl with inoff := sizeSub t.inoff TRL_SIZE }
  if t.inoff ≥ 2 ^ 63 then .ret t d (.err .smallsize) else .ret t d (.seek t.inoff)

/-- `case R_TRL` -/
def caseTrl (t : Ffgz Z) (d : List UInt8) : Pass (Ffgz Z) UInt8 FfgzR :=
  .ret { t.gather HDR_SIZE .hdr with
    outsize := leNat (field t.buf.bytes 4 4)
    trlcrc := leNat (field t.buf.bytes 0 4)
    buf := t.buf.setLen 0
    inoff := 0 } d (.seek 0)

/-- The header of a deflated file. -/
def goodHdr (h : List UInt8) : Bool := h.getD 0 0 == 0x1f && h.getD 1 0 == 0x8b && h.getD 2 0 == 8

/-- `case R_HDR` -/
def caseHdr (t : Ffgz Z) (d : List UInt8) : Pass (Ffgz Z) UInt8 FfgzR :=
  if !goodHdr t.buf.bytes then .ret t d (.err .hdr)
  else if hasFlag t.buf.bytes GZ_FEXTRA then .again (t.gather (t.hsize + 2) .extra) d
  else .again { t with state := .name } d

/-- The length of the extra field. -/
def extraLen (buf : List UInt8) : ℕ := leNat (field buf HDR_SIZE 2)

/-- `case R_EXTRA` -/
def caseExtra (t : Ffgz Z) (d : List UInt8) : Pass (Ffgz Z) UInt8 FfgzR :=
  .again (t.gather (t.hsize + extraLen t.buf.bytes) .name) d

/-- `case R_NAME` -/
def caseName (t : Ffgz Z) (d : List UInt8) : Pass (Ffgz Z) UInt8 FfgzR :=
  if hasFlag t.buf.bytes GZ_FNAME then
    let len := ffszNlen d
    if len = d.length then .again (t.gather (t.hsize + len) .name) d
    else
      let t := { t with nameoff := t.buf.len % 2 ^ 32 }
      match ffarrAppend alloc t.buf (d.take (len + 1)) with
      | none => .ret t d (.err .sys)
      | some buf =>
        .again { t with
          buf := buf
          inoff := (t.inoff + (len + 1)) % 2 ^ 64
          hsize := (t.hsize + (len + 1)) % 2 ^ 32
          state := .cmt } (d.drop (len + 1))
  else .again { t with state := .cmt } d

/-- `case R_CMT` -/
def caseCmt (t : Ffgz Z) (d : List UInt8) : Pass (Ffgz Z) UInt8 FfgzR :=
  if hasFlag t.buf.bytes GZ_FCOMMENT then
    let len := ffszNlen d
    if len = d.length then .again (t.gather (t.hsize + len) .cmt) d
    else
      match ffarrAppend alloc t.buf (d.take (len + 1)) with
      | none => .ret t d (.err .sys)
      | some buf =>
        .again { t with
          buf := buf
          inoff := (t.inoff + (len + 1)) % 2 ^ 64
          hsize := (t.hsize + (len + 1)) % 2 ^ 32
          state := .crc } (d.drop (len + 1))
  else .again { t with state := .crc } d

/-- `case R_HDROK` -/
def caseHdrok (t : Ffgz Z) (d : List UInt8) : Pass (Ffgz Z) UInt8 FfgzR :=
  .ret { t with state := .lzinit } d (.info t.buf.bytes (ffgzFname t.buf.bytes t.nameoff))

/-- `case R_CRC`, and the state behind it. -/
def caseCrc (t : Ffgz Z) (d : List UInt8) : Pass (Ffgz Z) UInt8 FfgzR :=
  if hasFlag t.buf.bytes GZ_FHDRCRC then .again (t.gather (t.hsize + 2) .hdrok) d
  else caseHdrok t d

/-- `case R_LZINIT` -/
def caseLzinit (t : Ffgz Z) (d : List UInt8) : Pass (Ffgz Z) UInt8 FfgzR :=
  match zlib.init with
  | none => .ret t d (.err .lzinit)
  | some z =>
    .again { t with lz := some z, buf := t.buf.setLen 0, crc := 0, outsize := 0, state := .data } d

/-- `case R_DATA`. What a call that answers `Z_DONE` has taken is not looked at. -/
def caseData (t : Ffgz Z) (d : List UInt8) : Pass (Ffgz Z) UInt8 FfgzR :=
  match t.lz with
  | none => .fault
  | some z =>
    let (r, z) := zlib.inflate z d cap
    let t := { t with lz := some z }
    match r with
    | .done _ => .again (t.gather TRL_SIZE .done) d
    | .err => .ret t d (.err .lz)
    | .out rd out =>
      let t := { t with inoff := (t.inoff + rd) % 2 ^ 64 }
      if out.length = 0 then .ret t (d.drop rd) .more
      else .ret { t with
        crc := crc32 out t.crc
        outsize := (t.outsize + out.length) % 2 ^ 64 } (d.drop rd) (.data out)

/-- What the trailer says about the data. -/
def trlStatus (trl : List UInt8) (crc : UInt32) (outsize : ℕ) : FfgzR :=
  if leNat (field trl 0 4) ≠ crc.toNat then .err .crc
  else if outsize ≤ 2 ^ 32 - 1 ∧ leNat (field trl 4 4) ≠ outsize % 2 ^ 32 then .warn .size
  else .done

/-- `case R_DONE` -/
def caseDone (t : Ffgz Z) (d : List UInt8) : Pass (Ffgz Z) UInt8 FfgzR :=
  .ret t d (trlStatus t.buf.bytes t.crc t.outsize)

/-- A pass of the loop of `ffgz_read` -/
def ffgzPass (t : Ffgz Z) (d : List UInt8) : Pass (Ffgz Z) UInt8 FfgzR :=
  match t.state with
  | .trlseek => caseTrlseek t d
  | .gather => caseGather alloc t d
  | .trl => caseTrl t d
  | .hdr => caseHdr t d
  | .extra => caseExtra t d
  | .name => caseName alloc t d
  | .cmt => caseCmt alloc t d
  | .crc => caseCrc t d
  | .hdrok => caseHdrok t d
  | .lzinit => caseLzinit zlib t d
  | .data => caseData zlib crc32 cap t d
  | .done => caseDone t d

/-! ### Calls -/

/-- The number of passes and of calls is below this, where a byte of compressed data gives at most
`width` bytes. -/
def fuel (width : ℕ) (d : List UInt8) : ℕ := (width + 16) * d.length + width + 16

/-- What a code means for the caller, who goes on behind a seek. -/
def FfgzR.verdict : FfgzR → Verdict
  | .more => .more
  | .warn _ | .err _ | .done => .stop
  | .data _ | .info _ _ | .seek _ => .event

/-- **The calls with chunks**, up to the end of a file or an error. -/
def readAll (width : ℕ) (t : Ffgz Z) (cs : List (List UInt8)) :
    Option (List (Return (Ffgz Z) UInt8 FfgzR)) :=
  drains (ffgzPass alloc zlib crc32 cap) FfgzR.verdict (fuel width) id t cs

end Passes

end Gz

end FF
