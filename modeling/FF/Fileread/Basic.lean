import FF.Lib.Refine
import Mathlib.Algebra.Ring.Nat

/-!
# The file reader

`FF/sys/fffileread.c`: blocks of a file are read into a ring of buffers, one of which is lent to the
user until the next request. A read may be synchronous, or it is scheduled and completes later; the
answers of the system are parameters of the steps (`AioRes`).

## Main definitions

* `fffilereadGetdata`: a request, with the read of the block that is missing and the read-ahead.
* `frReadA`: a scheduled read has completed.
* `frStep`: the reader together with its user and the system.
-/

namespace FF

/-- The settings that `fffileread_create` accepts. -/
structure FrConf where
  bufsize : ℕ
  nbufs : ℕ
  bufalign : ℕ
  directio : Bool
  hword : bufsize < 2 ^ 32 ∧ nbufs < 2 ^ 32
  hnbufs : nbufs ≠ 0
  hbufsize : bufsize ≠ 0
  hpower : ∃ k, bufalign = 2 ^ k
  halign : bufalign ∣ bufsize

/-- A file, whose offsets have the type `off_t`. -/
structure FrFile where
  data : List UInt8
  hsize : data.length < 2 ^ 63

/-- `struct buf`, and the memory it points to. -/
structure FrBuf where
  len : ℕ
  offset : ℕ
  mem : List UInt8
  deriving DecidableEq

/-- `enum FI_ST`. -/
inductive FiSt
  | ok
  | err
  | async
  | eof
  deriving DecidableEq, Repr

/-- `struct fffileread_stat`. -/
structure FrStat where
  nread : ℕ
  nasync : ℕ
  ncached : ℕ
  deriving DecidableEq

/-- `struct fffileread`. -/
structure Fileread where
  bufs : List FrBuf
  wbuf : ℕ
  locked : ℕ
  state : FiSt
  eof : ℕ
  asyncOff : ℕ
  stat : FrStat
  deriving DecidableEq

/-- `(uint)-1` and `(uint64)-1`. -/
def frNone32 : ℕ := 2 ^ 32 - 1
def frNone64 : ℕ := 2 ^ 64 - 1

/-- What the system answers to `ffaio_fread`. -/
inductive AioRes
  /-- The read is scheduled. -/
  | again
  /-- The read fails, and leaves something in the buffer. -/
  | fail (junk : List UInt8)
  /-- The block is read. The error number is what an earlier call has left. -/
  | done (eagain : Bool)
  deriving DecidableEq

/-- `enum R`. -/
inductive FrR
  | async
  | done
  | data
  | err
  deriving DecidableEq

/-- The answers of `fffileread_getdata`; data is a part of a buffer. -/
inductive FrReply
  | read (ibuf shift len : ℕ)
  | err
  | async
  | eof
  deriving DecidableEq

/-- `bufs_create`, with what the allocator leaves in the buffers, and `fffileread_create`. -/
def fffilereadCreate (conf : FrConf) (fresh : ℕ → ℕ → UInt8) : Fileread where
  bufs := (List.range conf.nbufs).map fun i =>
    { len := 0, offset := frNone64, mem := (List.range conf.bufsize).map (fresh i) }
  wbuf := 0
  locked := 0
  state := .ok
  eof := 0
  asyncOff := frNone64
  stat := { nread := 0, nasync := 0, ncached := 0 }

/-- The range of file offsets in a buffer. -/
def FrBuf.within (b : FrBuf) (off : ℕ) : Prop :=
  b.offset ≤ off ∧ off < (b.offset + b.len) % 2 ^ 64

instance (b : FrBuf) (off : ℕ) : Decidable (b.within off) :=
  inferInstanceAs (Decidable (_ ∧ _))

/-- `bufs_find`. -/
def bufsFind (bufs : List FrBuf) (off : ℕ) : Option ℕ := bufs.findIdx? fun b => b.within off

/-- Bytes are written to the start of a buffer. -/
def overlay (mem bytes : List UInt8) : List UInt8 :=
  bytes.take mem.length ++ mem.drop bytes.length

/-- The block of the file that a read gives. -/
def FrFile.block (file : FrFile) (off bufsize : ℕ) : List UInt8 := (file.data.drop off).take bufsize

/-- `fr_read`. The size of a block is an `int` there. -/
def frRead (conf : FrConf) (file : FrFile) (f : Fileread) (res : AioRes) :
    Option (Fileread × FrR) := do
  let b ← f.bufs[f.wbuf]?
  match res with
  | .again =>
    some ({ f with state := .async, stat.nasync := (f.stat.nasync + 1) % 2 ^ 32 }, .async)
  | .fail junk =>
    some ({ f with
      bufs := f.bufs.set f.wbuf { b with mem := overlay b.mem junk }
      state := .err }, .err)
  | .done eagain =>
    let block := file.block b.offset conf.bufsize
    let f := { f with bufs := f.bufs.set f.wbuf { b with mem := overlay b.mem block } }
    if 2 ^ 31 ≤ block.length then
      if eagain then
        some ({ f with state := .async, stat.nasync := (f.stat.nasync + 1) % 2 ^ 32 }, .async)
      else some ({ f with state := .err }, .err)
    else
      let f := { f with
        bufs := f.bufs.set f.wbuf
          { b with len := block.length, mem := overlay b.mem block }
        wbuf := (f.wbuf + 1) % conf.nbufs
        stat.nread := (f.stat.nread + 1) % 2 ^ 32 }
      if block.length ≠ conf.bufsize then
        some ({ f with state := .eof, eof := (b.offset + block.length) % 2 ^ 64 }, .done)
      else some (f, .data)

/-- `fr_read_off`, with its assertion and `buf_prepread`. -/
def frReadOff (conf : FrConf) (file : FrFile) (f : Fileread) (off : ℕ) (res : AioRes) :
    Option (Fileread × FrR) := do
  let b ← f.bufs[f.wbuf]?
  if f.wbuf = f.locked then none
  else
    let f := { f with bufs := f.bufs.set f.wbuf { b with len := 0, offset := off } }
    frRead conf file f res

/-- The flags of a request. -/
structure FrFlags where
  readahead : Bool
  backward : Bool
  deriving DecidableEq

/-- The offset of the block that is read ahead, next to a buffer. -/
def aheadOff (conf : FrConf) (b : FrBuf) (flags : FrFlags) : ℕ :=
  if flags.backward then (b.offset + (2 ^ 64 - conf.bufsize)) % 2 ^ 64
  else (b.offset + b.len) % 2 ^ 64

/-- A request reads ahead, next to a buffer. -/
def ReadsAhead (conf : FrConf) (f : Fileread) (b : FrBuf) (flags : FrFlags) : Prop :=
  flags.readahead ∧ (flags.backward ∨ (b.offset + b.len) % 2 ^ 64 ≠ f.eof) ∧ conf.directio ∧
    conf.nbufs ≠ 1 ∧ bufsFind f.bufs (aheadOff conf b flags) = none ∧ f.state ≠ .async

instance (conf : FrConf) (f : Fileread) (b : FrBuf) (flags : FrFlags) :
    Decidable (ReadsAhead conf f b flags) :=
  inferInstanceAs (Decidable (_ ∧ _ ∧ _ ∧ _ ∧ _ ∧ _))

/-- The read-ahead of a request. -/
def frAhead (conf : FrConf) (file : FrFile) (f : Fileread) (b : FrBuf) (flags : FrFlags)
    (res : AioRes) : Option Fileread :=
  if ReadsAhead conf f b flags then
    (frReadOff conf file f (aheadOff conf b flags) res).map Prod.fst
  else some f

/-- `fffileread_getdata` from `done:` on, where `ffarr_setshift` takes a part of the buffer. -/
def frDone (conf : FrConf) (file : FrFile) (f : Fileread) (ibuf off : ℕ) (flags : FrFlags)
    (res : AioRes) : Option (Fileread × FrReply) := do
  let b ← f.bufs[ibuf]?
  let f ← frAhead conf file f b flags res
  let b ← f.bufs[ibuf]?
  let shift := (off + (2 ^ 64 - b.offset)) % 2 ^ 64
  some ({ f with locked := ibuf }, .read ibuf shift ((b.len + (2 ^ 64 - shift)) % 2 ^ 64))

/-- The block that is missing is read: `fffileread_getdata` behind its checks. -/
def frMiss (conf : FrConf) (file : FrFile) (f : Fileread) (off : ℕ) (flags : FrFlags)
    (res res' : AioRes) : Option (Fileread × FrReply) := do
  let (f, r) ← frReadOff conf file f (off / conf.bufalign * conf.bufalign) res
  match r with
  | .async => some ({ f with asyncOff := off }, .async)
  | .err => some (f, .err)
  | r =>
    match bufsFind f.bufs off with
    | none => if r = .done then some (f, .eof) else none
    | some ibuf => frDone conf file f ibuf off flags res'

/-- A hit in the cache is counted, unless it is the block of a scheduled read. -/
def frHit (f : Fileread) (off : ℕ) : Fileread :=
  { f with
    asyncOff := frNone64
    stat := if f.asyncOff ≠ off then
      { f.stat with ncached := (f.stat.ncached + 1) % 2 ^ 32 } else f.stat }

/-- `fffileread_getdata`, with the answers of the system to its two reads. -/
def fffilereadGetdata (conf : FrConf) (file : FrFile) (f : Fileread) (off : ℕ) (flags : FrFlags)
    (res res' : AioRes) : Option (Fileread × FrReply) :=
  let f := { f with locked := frNone32 }
  match bufsFind f.bufs off with
  | some ibuf => frDone conf file (frHit f off) ibuf off flags res'
  | none =>
    match f.state with
    | .async => some (f, .async)
    | .eof =>
      if f.eof < off then some (f, .err)
      else if off = f.eof then some (f, .eof)
      else frMiss conf file { f with state := .ok } off flags res res'
    | _ => frMiss conf file f off flags res res'

/-- `fr_read_a`, with its assertion. -/
def frReadA (conf : FrConf) (file : FrFile) (f : Fileread) (res : AioRes) : Option Fileread :=
  if f.state ≠ .async then none
  else (frRead conf file { f with state := .ok } res).map Prod.fst

/-! ### The reader, its user and the system -/

/-- What happens: a request, the system writes to the buffer of a scheduled read, and a scheduled
read completes. -/
inductive FrEv
  | getdata (off : UInt64) (flags : FrFlags) (res res' : AioRes)
  | dma (bytes : List UInt8)
  | complete (res : AioRes)

/-- The reader, and the last request with its answer. -/
structure FrSys where
  f : Fileread
  last : Option (ℕ × FrReply)

/-- A step. Where no read is scheduled, the system does nothing. -/
def frStep (conf : FrConf) (file : FrFile) (s : FrSys) : FrEv → Option FrSys
  | .getdata off flags res res' => do
      let (f, r) ← fffilereadGetdata conf file s.f off.toNat flags res res'
      some { f := f, last := some (off.toNat, r) }
  | .dma bytes =>
    if s.f.state = .async then do
      let b ← s.f.bufs[s.f.wbuf]?
      some { s with
        f.bufs := s.f.bufs.set s.f.wbuf { b with mem := overlay b.mem bytes } }
    else some s
  | .complete res =>
    if s.f.state = .async then do
      let f ← frReadA conf file s.f res
      some { s with f := f }
    else some s

/-- The reader after `fffileread_create`. -/
def frStart (conf : FrConf) (fresh : ℕ → ℕ → UInt8) : FrSys :=
  { f := fffilereadCreate conf fresh, last := none }

end FF
