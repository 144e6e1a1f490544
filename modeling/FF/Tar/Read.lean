import FF.Ffarr
import FF.Lib.Units
import FF.Tar.Header

/-!
# Reading TAR archives

`fftar_read` is called with chunks of an archive. It gathers blocks, and the data of a long-name
header, before it reads them.

A file with a long name has a name in memory of its own size. Each later name is written to the
same memory, whatever its length; a write behind the end of the memory is a fault.
-/

namespace FF

namespace Tar

/-- The states of `fftar_read` -/
inductive St
  | init
  | gather
  | hdr
  | longName
  | skip
  | data
  | dataBlk
  | fdone
  | fin
  | fin2
  deriving DecidableEq, Repr

/-- `enum FFTAR_R`, with `err` and `out`. -/
inductive FftarR
  | err (e : FftarE)
  | data (out : List UInt8)
  | done
  | more
  | filehdr (f : FftarFile)
  | filedone
  deriving DecidableEq, Repr

/-- `fftar`. `block` is the memory at `buf.ptr` behind a gathering, and `nameStr` the string at
`name.ptr`. -/
structure Fftar where
  state : St
  nxstate : St
  file : FftarFile
  fsize : ℕ
  buf : Ffarr
  block : List UInt8
  name : Ffarr
  nameStr : List UInt8
  fin : Bool
  longName : Bool
  deriving DecidableEq, Repr

/-- A zeroed `fftar_file` -/
def FftarFile.zero : FftarFile := ⟨[], none, 0, 0, 0, 0, 0, 0, none, none⟩

/-- A zeroed `fftar` -/
def Fftar.zero : Fftar :=
  ⟨.init, .init, .zero, 0, .null, [], .null, [], false, false⟩

/-- `fftar_fin`: the last block of input data. -/
def fftarFin (t : Fftar) : Fftar := { t with fin := true }

/-- `ff_align_ceil2` -/
def alignCeil (n align : ℕ) : ℕ := (n + (align - 1)) / align * align

/-- `ff_align_floor2` -/
def alignFloor (n align : ℕ) : ℕ := n / align * align

/-- A file type without data. -/
def noData (type : UInt8) : Bool :=
  type == FFTAR_DIR || type == FFTAR_HLINK || type == FFTAR_SLINK

/-- A header of an extended header. -/
def isExt (type : UInt8) : Bool := type == FFTAR_EXTHDR || type == FFTAR_NEXTHDR

section Passes

variable (alloc : ℕ → Bool) (un : Unset)

/-- `case R_INIT` -/
def caseInit (t : Fftar) (d : List UInt8) : Pass Fftar UInt8 FftarR :=
  match ffarrRealloc alloc .null (100 + 1 + 155 + 1) with
  | none => .ret t d (.err .sys)
  | some name => .again { t with name := name, state := .gather, nxstate := .hdr } d

/-- `case R_GATHER` -/
def caseGather (t : Fftar) (d : List UInt8) : Pass Fftar UInt8 FftarR :=
  match ffarrAppendUntil alloc t.buf d TAR_BLOCK with
  | .assert => .fault
  | .fail => .ret t d (.err .sys)
  | .more buf => .ret { t with buf := buf } d .more
  | .done buf r =>
    .again { t with buf := buf.setLen 0, block := buf.bytes, state := t.nxstate } (d.drop r)

/-- `case R_FIN2`, and the pass behind it. -/
def caseFin2 (t : Fftar) (d : List UInt8) : Pass Fftar UInt8 FftarR :=
  if d.length = 0 then .ret t d (if t.fin then .done else .more)
  else caseGather alloc { t with state := .gather, nxstate := .fin } d

/-- `case R_FIN` -/
def caseFin (t : Fftar) (d : List UInt8) : Pass Fftar UInt8 FftarR :=
  if t.block.dropWhile (· == 0) ≠ [] then .ret t d (.err .padding)
  else caseFin2 alloc { t with state := .fin2 } d

/-- `case R_HDR` behind `fftar_hdr_parse` -/
def hdrParsed (t : Fftar) (d : List UInt8) (f : FftarFile) : Pass Fftar UInt8 FftarR :=
  let t := { t with file := f, fsize := f.size }
  if noData f.type ∧ f.size ≠ 0 then .ret t d (.err .havedata)
  else if f.type = FFTAR_LONG then
    if f.size > TAR_MAXLONGNAME then .ret t d (.err .longname)
    else .again { t with state := .longName } d
  else if isExt f.type then
    if f.size > TAR_MAXLONGNAME then .ret t d (.err .longname)
    else .again { t with state := .gather, nxstate := .skip } d
  else .ret { t with state := if f.size ≠ 0 then .data else .fdone } d (.filehdr f)

/-- `case R_HDR`, and the pass behind an empty block. -/
def caseHdr (t : Fftar) (d : List UInt8) : Pass Fftar UInt8 FftarR :=
  if t.block.getD 0 0 = 0 then caseFin alloc { t with state := .fin } d
  else if t.longName then
    let t := { t with longName := false }
    match fftarHdrParse un (some t.nameStr) t.block with
    | .error e => .ret t d (.err e)
    | .ok f => hdrParsed t d f
  else if hdrNameSize un t.block > t.name.cap then .fault
  else
    let t := { t with nameStr := hdrName t.block }
    match fftarHdrParse un none t.block with
    | .error e => .ret t d (.err e)
    | .ok f => hdrParsed t d f

/-- `case R_LONG_NAME` -/
def caseLongName (t : Fftar) (d : List UInt8) : Pass Fftar UInt8 FftarR :=
  match ffarrAppendUntil alloc t.name d (alignCeil t.file.size TAR_BLOCK) with
  | .assert => .fault
  | .fail => .ret t d (.err .sys)
  | .more name => .ret { t with name := name } d .more
  | .done name r =>
    match ffarrAppend alloc (name.setLen t.file.size) [0] with
    | none => .ret t d (.err .sys)
    | some name =>
      .again { t with
        name := name.setLen 0
        nameStr := cstr name.bytes
        longName := true
        state := .gather
        nxstate := .hdr } (d.drop r)

/-- `case R_SKIP` -/
def caseSkip (t : Fftar) (d : List UInt8) : Pass Fftar UInt8 FftarR :=
  let size := t.file.size - min TAR_BLOCK t.file.size
  let t := { t with file := { t.file with size := size } }
  if size ≠ 0 then .again { t with state := .gather, nxstate := .skip } d
  else .again { t with state := .gather, nxstate := .hdr } d

/-- The rest of `case R_DATA_BLK`, with `n` bytes of the blocks `blocks`. -/
def dataOut (t : Fftar) (d blocks : List UInt8) (n : ℕ) : Pass Fftar UInt8 FftarR :=
  let t := { t with fsize := t.fsize - n }
  if t.fsize = 0 then
    if (blocks.drop n).dropWhile (· == 0) ≠ [] then .ret t d (.err .padding)
    else .ret { t with state := .fdone } d (.data (blocks.take n))
  else .ret t d (.data (blocks.take n))

/-- `case R_DATA` -/
def caseData (t : Fftar) (d : List UInt8) : Pass Fftar UInt8 FftarR :=
  if d.length = 0 then .ret t d .more
  else if d.length < TAR_BLOCK then .again { t with state := .gather, nxstate := .dataBlk } d
  else
    let n := min t.fsize (alignFloor d.length TAR_BLOCK)
    let len := alignCeil n TAR_BLOCK
    dataOut t (d.drop len) (d.take len) n

/-- `case R_DATA_BLK` -/
def caseDataBlk (t : Fftar) (d : List UInt8) : Pass Fftar UInt8 FftarR :=
  dataOut { t with state := .data } d t.block (min t.fsize TAR_BLOCK)

/-- A pass of the loop of `fftar_read` -/
def fftarPass (t : Fftar) (d : List UInt8) : Pass Fftar UInt8 FftarR :=
  match t.state with
  | .init => caseInit alloc t d
  | .gather => caseGather alloc t d
  | .hdr => caseHdr alloc un t d
  | .longName => caseLongName alloc t d
  | .skip => caseSkip t d
  | .data => caseData t d
  | .dataBlk => caseDataBlk t d
  | .fdone => .ret { t with state := .gather, nxstate := .hdr } d .filedone
  | .fin => caseFin alloc t d
  | .fin2 => caseFin2 alloc t d

/-! ### Calls -/

/-- The number of passes of a call is below this. -/
def fuel (d : List UInt8) : ℕ := 4 * d.length + 4

/-- **`fftar_read`**: the code, what is left of the input, and the reader. -/
def fftarRead (t : Fftar) (d : List UInt8) : Option (Return Fftar UInt8 FftarR) :=
  call (fftarPass alloc un) (fuel d) t d

/-- What a code means for the caller. -/
def FftarR.verdict : FftarR → Verdict
  | .more => .more
  | .err _ | .done => .stop
  | .data _ | .filehdr _ | .filedone => .event

/-- The calls with the chunks of an archive. The last one is announced with `fftar_fin` where the
caller does so. -/
def readAll (fin : Bool) (t : Fftar) (cs : List (List UInt8)) :
    Option (List (Return Fftar UInt8 FftarR)) :=
  drains (fftarPass alloc un) FftarR.verdict fuel (if fin then fftarFin else id) t cs

end Passes

end Tar

end FF
