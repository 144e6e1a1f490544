import FF.Lib.Bytes

/-!
# TLS records

`fftls_read` reads the handshake messages of TLS records. What it returns are ranges of the input:
the session id, the list of ciphers, the server name, the list of ALPN protocols and a
certificate.

A range is the index of its first byte in the input and its length. Lengths are numbers of 64
bits: a range that is shifted by more than its length gets a length that is too high.

## Main definitions

* `tlsextServnameRead`, `tlsextClihelSuppversRead`, …: the extensions.
* `fftlsRead`: one call of the reader.
-/

namespace FF

namespace Tls

/-- `ffstr`: a range of the input. -/
structure Str where
  ptr : ℕ
  len : ℕ
  deriving DecidableEq, Repr

/-- `ffstr_shift` -/
def Str.shift (s : Str) (by' : ℕ) : Str :=
  ⟨s.ptr + by', if by' ≤ s.len then s.len - by' else 2 ^ 64 - (by' - s.len)⟩

/-- The states of `fftls_read` -/
inductive St
  | record
  | hshake
  | clihel
  | srvhel
  | helExts
  | helExt
  | certs
  deriving DecidableEq, Repr

/-- `enum FFTLS_R`, and 0 as a result of the functions for the parts of a record. -/
inductive Ret
  | err
  | more
  | clientHello
  | clientHelloSni
  | helloAlpn
  | serverHello
  | cert
  | keyExch
  | certReq
  | servHelloDone
  | done
  deriving DecidableEq, Repr

/-- `FFTLS_EVERSION` -/
def FFTLS_EVERSION : ℤ := 1

/-- `FFTLS_ENOTSUPP` -/
def FFTLS_ENOTSUPP : ℤ := 2

/-- `fftls` -/
structure Fftls where
  state : St
  err : ℤ
  version : ℕ
  hshakeType : ℕ
  inp : Str
  buf : Str
  sessionId : Str
  ciphers : Str
  hostname : Str
  alpnProtos : Str
  cert : Str
  deriving DecidableEq, Repr

/-! ### Numbers -/

/-- `ffint_ntoh16`, `ffint_ntoh24` -/
def ntoh (d : List UInt8) (p n : ℕ) : Except MemStop ℕ := do
  let bs ← readBytes d p n
  return beNat bs

/-- `datalen16` and `datalen24`: a length in `k` bytes, with the rest of the data behind it;
`none` where they return -1. -/
def datalen (d : List UInt8) (k : ℕ) (data : Str) : Except MemStop (Option (ℕ × Str)) := do
  if k > data.len then return none
  let n ← ntoh d data.ptr k
  if k + n > data.len then return none
  return some (n, data.shift k)

/-- A `char` as a number of 32 bits -/
def charUint (b : UInt8) : ℕ := if b < 0x80 then b.toNat else b.toNat + 0xffffff00

/-- `datalen8`: from 0x80 on the byte is a length that is far too high, or -1. The data is what
is left of it. -/
def datalen8 (d : List UInt8) (data : Str) : Except MemStop (Option ℕ × Str) := do
  if 1 > data.len then return (none, data)
  let b ← readAt d data.ptr
  if (1 + charUint b) % 2 ^ 32 > data.len then return (none, data)
  return (if charUint b < 2 ^ 31 then some (charUint b) else none, data.shift 1)

/-! ### Records and handshake messages -/

/-- `RT_HANDSHAKE` -/
def RT_HANDSHAKE : ℕ := 22

/-- `HS_CLIENT_HELLO` -/
def HS_CLIENT_HELLO : ℕ := 1

/-- `HS_SERVER_HELLO` -/
def HS_SERVER_HELLO : ℕ := 2

/-- `HS_CERTIFICATE` -/
def HS_CERTIFICATE : ℕ := 11

/-- `HS_SERVER_KEY_EXCHANGE` -/
def HS_SERVER_KEY_EXCHANGE : ℕ := 12

/-- `HS_CERTIFICATE_REQUEST` -/
def HS_CERTIFICATE_REQUEST : ℕ := 13

/-- `HS_SERVER_HELLO_DONE` -/
def HS_SERVER_HELLO_DONE : ℕ := 14

/-- `sizeof(struct client_hello)`, `sizeof(struct server_hello)` -/
def HELLO_SIZE : ℕ := 35

/-- `tls_rec_read`: the type of the record, or what is not above 0. -/
def tlsRecRead (d : List UInt8) (t : Fftls) : Except MemStop (ℤ × Fftls) := do
  let data := t.inp
  if 5 > data.len then return (0, t)
  let version ← ntoh d (data.ptr + 1) 2
  let t := { t with version := version }
  if version < 0x0301 ∨ version / 256 ≠ 3 then return (-FFTLS_EVERSION, t)
  let n ← ntoh d (data.ptr + 3) 2
  if 5 + n > data.len then return (0, t)
  let type ← readAt d data.ptr
  return (type.toNat, { t with inp := data.shift (5 + n), buf := ⟨data.ptr + 5, n⟩ })

/-- `tls_hshake_read` -/
def tlsHshakeRead (d : List UInt8) (t : Fftls) : Except MemStop (ℤ × Fftls) := do
  let data := t.buf
  if 4 > data.len then return (0, t)
  let t := { t with buf := data.shift 4 }
  let n ← ntoh d (data.ptr + 1) 3
  if n > t.buf.len then return (0, t)
  let type ← readAt d data.ptr
  return (type.toNat, t)

/-- The version in a Hello, checked against the one that has been read before. -/
def helloVersion (d : List UInt8) (t : Fftls) (p : ℕ) : Except MemStop (Option ℕ) := do
  let ver ← ntoh d p 2
  if ver < t.version ∨ ver / 256 ≠ 3 then return none
  return some ver

/-- `tls_clihello_read` -/
def tlsClihelloRead (d : List UInt8) (t : Fftls) : Except MemStop (ℤ × Fftls) := do
  let h := t.buf.ptr
  if HELLO_SIZE > t.buf.len then return (0, t)
  let t := { t with buf := t.buf.shift HELLO_SIZE }
  match ← helloVersion d t h with
  | none => return (-FFTLS_EVERSION, t)
  | some ver =>
    let t := { t with version := ver }
    let sidLen ← readAt d (h + 34)
    if sidLen.toNat > t.buf.len then return (0, t)
    let t := { t with
      sessionId := ⟨h + HELLO_SIZE, sidLen.toNat⟩
      buf := t.buf.shift sidLen.toNat }
    match ← datalen d 2 t.buf with
    | none => return (0, t)
    | some (n, data) =>
      let t := { t with ciphers := ⟨data.ptr, n⟩, buf := data.shift n }
      match ← datalen8 d t.buf with
      | (none, data) => return (0, { t with buf := data })
      | (some n, data) => return (1, { t with buf := data.shift n })

/-- `tls_srvhello_read` -/
def tlsSrvhelloRead (d : List UInt8) (t : Fftls) : Except MemStop (ℤ × Fftls) := do
  let h := t.buf.ptr
  if HELLO_SIZE > t.buf.len then return (0, t)
  let data := t.buf.shift HELLO_SIZE
  match ← helloVersion d t h with
  | none => return (-FFTLS_EVERSION, t)
  | some ver =>
    let t := { t with version := ver }
    let sidLen ← readAt d (h + 34)
    if sidLen.toNat + 2 + 1 > data.len then return (0, t)
    let t := { t with sessionId := ⟨h + HELLO_SIZE, sidLen.toNat⟩ }
    let data := data.shift sidLen.toNat
    let t := { t with ciphers := ⟨data.ptr, 2⟩ }
    return (1, { t with buf := (data.shift 2).shift 1 })

/-! ### Extensions -/

/-- `EXT_SERVER_NAME` -/
def EXT_SERVER_NAME : ℕ := 0

/-- `EXT_ALPN` -/
def EXT_ALPN : ℕ := 16

/-- `EXT_SUPP_VERS` -/
def EXT_SUPP_VERS : ℕ := 43

/-- `EXT_SN_HOSTNAME` -/
def EXT_SN_HOSTNAME : UInt8 := 0

/-- The loop of `tlsext_servname_read`, with `n` entries at most. -/
def servnameLoop (d : List UInt8) : ℕ → Str → Fftls → Except MemStop (Option Ret × Fftls)
  | 0, _, _ => .error .endless
  | n + 1, data, t => do
      if 3 > data.len then return (some .done, t)
      let k ← ntoh d (data.ptr + 1) 2
      if k > data.len then return (none, t)
      let type ← readAt d data.ptr
      if type = EXT_SN_HOSTNAME then
        return (some .clientHelloSni, { t with hostname := ⟨data.ptr + 3, k⟩ })
      servnameLoop d n (data.shift (3 + k)) t

/-- `tlsext_servname_read` -/
def tlsextServnameRead (d : List UInt8) (data : Str) (t : Fftls) :
    Except MemStop (Option Ret × Fftls) := do
  match ← datalen d 2 data with
  | none => return (none, t)
  | some (_, data) => servnameLoop d (d.length + 1) data t

/-- `tlsext_clihel_alpn_read` -/
def tlsextClihelAlpnRead (d : List UInt8) (data : Str) (t : Fftls) :
    Except MemStop (Option Ret × Fftls) := do
  match ← datalen d 2 data with
  | none => return (none, t)
  | some (n, data) => return (some .helloAlpn, { t with alpnProtos := ⟨data.ptr, n⟩ })

/-- The loop of `tlsext_clihel_suppvers_read`, with `n` versions at most. -/
def suppversLoop (d : List UInt8) (data : Str) : ℕ → ℕ → ℕ → Except MemStop ℕ
  | 0, _, _ => .error .endless
  | n + 1, i, version => do
      if i = data.len then return version
      let ver ← ntoh d (data.ptr + i) 2
      suppversLoop d data n ((i + 2) % 2 ^ 32) (max version ver)

/-- `tlsext_clihel_suppvers_read` -/
def tlsextClihelSuppversRead (d : List UInt8) (data : Str) (t : Fftls) :
    Except MemStop (Option Ret × Fftls) := do
  match ← datalen8 d data with
  | (none, _) => return (none, t)
  | (some _, data) =>
    let version ← suppversLoop d data (d.length + 1) 0 t.version
    return (some .done, { t with version := version })

/-- `tlsext_srvhel_suppvers_read` -/
def tlsextSrvhelSuppversRead (d : List UInt8) (data : Str) (t : Fftls) :
    Except MemStop (Option Ret × Fftls) := do
  if 2 > data.len then return (none, t)
  let ver ← ntoh d data.ptr 2
  return (some .done, { t with version := max t.version ver })

/-- The `switch` of `tlsext_read` -/
def extSwitch (d : List UInt8) (type : ℕ) (data : Str) (t : Fftls) :
    Except MemStop (Option Ret × Fftls) :=
  if type = EXT_SERVER_NAME then tlsextServnameRead d data t
  else if type = EXT_ALPN then tlsextClihelAlpnRead d data t
  else if type = EXT_SUPP_VERS then
    if t.hshakeType = HS_CLIENT_HELLO then tlsextClihelSuppversRead d data t
    else tlsextSrvhelSuppversRead d data t
  else .ok (some .done, t)

/-- `tlsext_read`: the result, `none` for 0. -/
def tlsextRead (d : List UInt8) (t : Fftls) : Except MemStop (Option Ret × Fftls) := do
  let ext := t.buf.ptr
  if 4 > t.buf.len then return (none, t)
  let t := { t with buf := t.buf.shift 4 }
  let n ← ntoh d (ext + 2) 2
  if n > t.buf.len then return (none, t)
  let t := { t with buf := t.buf.shift n }
  let type ← ntoh d ext 2
  extSwitch d type ⟨ext + 4, n⟩ t

/-! ### Certificates -/

/-- `tls_certs_read` -/
def tlsCertsRead (d : List UInt8) (t : Fftls) : Except MemStop (Option Ret × Fftls) := do
  match ← datalen d 3 t.buf with
  | none => return (none, t)
  | some (n, data) =>
    let t := { t with buf := t.buf.shift (3 + n) }
    match ← datalen d 3 data with
    | none => return (none, t)
    | some (n, data) => return (some .cert, { t with cert := ⟨data.ptr, n⟩ })

/-! ### The reader -/

/-- What an iteration of `fftls_read` does: go on, or return. -/
inductive Step
  | next (t : Fftls)
  | ret (r : Ret) (t : Fftls)
  deriving DecidableEq, Repr

/-- `ERR(t, -r)` -/
def Fftls.fail (t : Fftls) (r : ℤ) : Step := .ret .err { t with err := r }

/-- `R_REC` -/
def rRec (d : List UInt8) (t : Fftls) : Except MemStop Step := do
  let (r, t) ← tlsRecRead d t
  if r = 0 then return .ret .more t
  else if r < 0 then return t.fail r
  else if r = RT_HANDSHAKE then return .next { t with state := .hshake }
  else return t.fail (-FFTLS_ENOTSUPP)

/-- `R_HSHAKE` -/
def rHshake (d : List UInt8) (t : Fftls) : Except MemStop Step := do
  let (r, t) ← tlsHshakeRead d t
  if r ≤ 0 then return t.fail r
  let t := { t with hshakeType := r.toNat }
  if r = HS_CLIENT_HELLO then return .next { t with state := .clihel }
  else if r = HS_SERVER_HELLO then return .next { t with state := .srvhel }
  else if r = HS_CERTIFICATE then return .next { t with state := .certs }
  else if r = HS_SERVER_KEY_EXCHANGE then return .ret .keyExch { t with state := .record }
  else if r = HS_CERTIFICATE_REQUEST then return .ret .certReq { t with state := .record }
  else if r = HS_SERVER_HELLO_DONE then return .ret .servHelloDone { t with state := .record }
  else return t.fail (-FFTLS_ENOTSUPP)

/-- `R_CLIHEL`, `R_SRVHEL` -/
def rHello (read : Fftls → Except MemStop (ℤ × Fftls)) (ret : Ret) (t : Fftls) : Except MemStop Step := do
  let (r, t) ← read t
  if r ≤ 0 then return t.fail r
  return .ret ret { t with state := .helExts }

/-- `R_HEL_EXTS` -/
def rHelExts (d : List UInt8) (t : Fftls) : Except MemStop Step := do
  match ← datalen d 2 t.buf with
  | none => return t.fail 0
  | some (n, data) => return .next { t with buf := ⟨data.ptr, n⟩, state := .helExt }

/-- `R_HEL_EXT` -/
def rHelExt (d : List UInt8) (t : Fftls) : Except MemStop Step := do
  if t.buf.len = 0 then return .ret .done { t with state := .record }
  let (r, t) ← tlsextRead d t
  match r with
  | none => return t.fail 0
  | some .done => return .next t
  | some r => return .ret r t

/-- `R_CERTS` -/
def rCerts (d : List UInt8) (t : Fftls) : Except MemStop Step := do
  let (r, t) ← tlsCertsRead d t
  match r with
  | none => return .ret .err t
  | some _ => return .ret .cert { t with state := .record }

/-- An iteration of `fftls_read` -/
def fftlsStep (d : List UInt8) (t : Fftls) : Except MemStop Step :=
  match t.state with
  | .record => rRec d t
  | .hshake => rHshake d t
  | .clihel => rHello (tlsClihelloRead d) .clientHello t
  | .srvhel => rHello (tlsSrvhelloRead d) .serverHello t
  | .helExts => rHelExts d t
  | .helExt => rHelExt d t
  | .certs => rCerts d t

/-- The loop of `fftls_read`, with `n` iterations at most. -/
def readLoop (d : List UInt8) : ℕ → Fftls → Except MemStop (Ret × Fftls)
  | 0, _ => .error .endless
  | n + 1, t => do
      match ← fftlsStep d t with
      | .next t => readLoop d n t
      | .ret r t => return (r, t)

/-- `fftls_read` -/
def fftlsRead (d : List UInt8) (t : Fftls) : Except MemStop (Ret × Fftls) :=
  readLoop d (d.length + 4) t

/-- A reader that has been set to zero, with the input. -/
def Fftls.new (d : List UInt8) : Fftls :=
  ⟨.record, 0, 0, 0, ⟨0, d.length⟩, ⟨0, 0⟩, ⟨0, 0⟩, ⟨0, 0⟩, ⟨0, 0⟩, ⟨0, 0⟩, ⟨0, 0⟩⟩

end Tls

end FF
