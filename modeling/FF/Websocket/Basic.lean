import FF.Lib.Bytes

/-!
# WebSocket frames

`ffwebskt_newmsg` and `ffwebskt_writenext` write a message as one frame: a header of 2 bytes, the
length of a long body, the mask key, and the body, masked by the key. `ffwebskt_parse` reads
frames from input that comes in fragments: it gathers the header and passes the body on in pieces.

The mask key is the list of its 4 bytes in memory. The reader is called again with the rest of
its input until it asks for more.

## Main definitions

* `ffmemXor4`: masking, from the first byte of the key on.
* `ffwebsktCook`: the frame of a message.
* `ffwebsktParse`: one call of the reader.
* `Reads`: all the calls for a list of fragments, with what the reader has returned.
-/

namespace FF

namespace Websocket

/-! ### Masking -/

/-- The bytes of a mask key in memory. -/
def keyBytes (mask : UInt32) : List UInt8 :=
  [mask.toUInt8, (mask >>> 8).toUInt8, (mask >>> 16).toUInt8, (mask >>> 24).toUInt8]

/-- `ffmem_xor4`: 4 bytes at a time, and the bytes that are left one by one. -/
def ffmemXor4 (key : List UInt8) : List UInt8 → List UInt8
  | b0 :: b1 :: b2 :: b3 :: src =>
    (b0 ^^^ key.getD 0 0) :: (b1 ^^^ key.getD 1 0) :: (b2 ^^^ key.getD 2 0) ::
      (b3 ^^^ key.getD 3 0) :: ffmemXor4 key src
  | src => src.mapIdx fun i b => b ^^^ key.getD (i % 4) 0

/-! ### The writer -/

/-- `WS_F_FIN` -/
def WS_F_FIN : UInt8 := 0x80

/-- `WS_F_RES` -/
def WS_F_RES : UInt8 := 0x70

/-- `WS_F_OPCODE` -/
def WS_F_OPCODE : UInt8 := 0x0f

/-- `WS_F_MASK` -/
def WS_F_MASK : UInt8 := 0x80

/-- `WS_F_DATALEN` -/
def WS_F_DATALEN : UInt8 := 0x7f

/-- `WS_MAXMSG1` -/
def WS_MAXMSG1 : ℕ := 126

/-- `WS_MAXMSG2` -/
def WS_MAXMSG2 : ℕ := 0xffff

/-- `WS_MAXMSG` -/
def WS_MAXMSG : ℕ := 0x00ffffffffffffff

/-- The size of the buffers. -/
def BUF_SIZE : ℕ := 4096

/-- A number in `n` bytes, the highest one first: `ffint_hton16`, `ffint_hton64`. -/
def hton : ℕ → ℕ → List UInt8
  | 0, _ => []
  | n + 1, x => hton n (x / 256) ++ [UInt8.ofNat x]

/-- `ffwebskt_newmsg`: the header of the message; `none` where it is too long. -/
def ffwebsktNewmsg (mask : UInt32) (op : UInt8) (payload : List UInt8) : Option (List UInt8) :=
  let b0 := WS_F_FIN ||| op
  let maskBit := if mask ≠ 0 then WS_F_MASK else 0
  let key := if mask ≠ 0 then keyBytes mask else []
  if payload.length < WS_MAXMSG1 then
    some ([b0, UInt8.ofNat payload.length ||| maskBit] ++ key)
  else if payload.length ≤ WS_MAXMSG2 then
    some ([b0, maskBit] ++ hton 2 payload.length ++ key)
  else if payload.length ≤ WS_MAXMSG then
    some ([b0, maskBit] ++ hton 8 payload.length ++ key)
  else none

/-- The calls of `ffwebskt_writenext`, `n` at most: the bytes of the body; `none` where there are
more calls. -/
def writeLoop (mask : UInt32) : ℕ → List UInt8 → Option (List UInt8)
  | 0, _ => none
  | n + 1, payload =>
    if payload = [] then some []
    else if mask ≠ 0 then
      (writeLoop mask n (payload.drop BUF_SIZE)).map
        (ffmemXor4 (keyBytes mask) (payload.take BUF_SIZE) ++ ·)
    else (writeLoop mask n []).map (payload ++ ·)

/-- The frame of a message. -/
def ffwebsktCook (mask : UInt32) (op : UInt8) (payload : List UInt8) : Option (List UInt8) :=
  match ffwebsktNewmsg mask op payload with
  | none => none
  | some hdr => (writeLoop mask (payload.length + 2) payload).map (hdr ++ ·)

/-! ### The reader -/

/-- The states of `ffwebskt_parse` -/
inductive St
  | init
  | gather
  | hdr
  | hlen2
  | hlen8
  | hok
  | body
  deriving DecidableEq, Repr

/-- The states behind `R_GATHER` -/
inductive Next
  | hdr
  | hlen2
  | hlen8
  | hok
  deriving DecidableEq, Repr

/-- `ffwebskt`: `buf` are the first `nbuf` bytes of the buffer while a header is gathered, `mask`
are the bytes of the key. -/
structure Ws where
  state : St
  nxstate : Next
  gathlen : ℕ
  datalen : ℕ
  maskOff : ℕ
  mask : List UInt8
  op : UInt8
  cont : Bool
  server : Bool
  buf : List UInt8
  deriving DecidableEq, Repr

/-- What a call of the reader returns. -/
inductive Ret
  | more
  | err
  | msg (op : UInt8)
  | data (out : List UInt8)
  | fin
  deriving DecidableEq, Repr

/-- The result of a call: what it returns, the state, and the rest of the input. -/
structure Res where
  ret : Ret
  w : Ws
  inp : List UInt8
  deriving DecidableEq, Repr

/-- `R_BODY` -/
def rBody (w : Ws) (inp : List UInt8) : Res :=
  if w.datalen = 0 then
    ⟨.fin, { w with buf := [], state := .gather, nxstate := .hdr, gathlen := 2 }, inp⟩
  else if inp = [] then ⟨.more, w, inp⟩
  else if w.maskOff ≠ 0 then
    let nn := min (min w.datalen inp.length) BUF_SIZE
    ⟨.data (ffmemXor4 w.mask (inp.take nn)), { w with datalen := w.datalen - nn }, inp.drop nn⟩
  else
    let nn := min w.datalen inp.length
    ⟨.data (inp.take nn), { w with datalen := w.datalen - nn }, inp.drop nn⟩

/-- `R_HOK` -/
def rHok (w : Ws) (inp : List UInt8) : Res :=
  let w := if w.maskOff ≠ 0 then { w with mask := (w.buf.drop w.maskOff).take 4 } else w
  let w := { w with state := .body }
  if w.op = 0 then rBody w inp else ⟨.msg w.op, w, inp⟩

/-- `R_HLEN2` -/
def rHlen2 (w : Ws) (inp : List UInt8) : Res :=
  rHok { w with datalen := beNat ((w.buf.drop 2).take 2), state := .hok } inp

/-- `R_HLEN8` -/
def rHlen8 (w : Ws) (inp : List UInt8) : Res :=
  if w.buf.getD 2 0 ≠ 0 then ⟨.err, w, inp⟩
  else rHok { w with datalen := beNat ((w.buf.drop 2).take 8), state := .hok } inp

/-- `R_GATHER`, with what follows when all of the bytes are there. -/
def rGather (w : Ws) (inp : List UInt8) (next : Ws → List UInt8 → Res) : Res :=
  let n := min (w.gathlen - w.buf.length) inp.length
  let w := { w with buf := w.buf ++ inp.take n }
  if w.buf.length ≠ w.gathlen then ⟨.more, w, inp.drop n⟩
  else next w (inp.drop n)

/-- What follows when the length and the key have been gathered. -/
def rNext (w : Ws) (inp : List UInt8) : Res :=
  match w.nxstate with
  | .hlen2 => rHlen2 { w with state := .hlen2 } inp
  | .hlen8 => rHlen8 { w with state := .hlen8 } inp
  | .hok => rHok { w with state := .hok } inp
  | .hdr => ⟨.err, w, inp⟩

/-- The part of `R_HDR` behind the checks of the opcode: the state to gather the rest of the
header, with the number of its bytes; `none` where the mask is missing. -/
def hdrLen (w : Ws) (b1 : UInt8) : Option (Ws × ℕ) :=
  let n := (b1 &&& WS_F_DATALEN).toNat
  let w := { w with maskOff := 0 }
  let (w, hdrsize) :=
    if n = 126 then ({ w with state := .gather, nxstate := .hlen2 }, 2)
    else if n = 127 then ({ w with state := .gather, nxstate := .hlen8 }, 8)
    else ({ w with datalen := n }, 0)
  if b1 &&& WS_F_MASK ≠ 0 then
    let w := if hdrsize = 0 then { w with state := .gather, nxstate := .hok } else w
    some ({ w with maskOff := 2 + hdrsize }, hdrsize + 4)
  else if w.server then none
  else some (w, hdrsize)

/-- `R_HDR` -/
def rHdr (w : Ws) (inp : List UInt8) : Res :=
  let b0 := w.buf.getD 0 0
  let w := { w with state := .hdr, op := b0 &&& WS_F_OPCODE }
  if b0 &&& WS_F_RES ≠ 0 then ⟨.err, w, inp⟩
  else if !w.cont ∧ w.op = 0 then ⟨.err, w, inp⟩
  else if w.cont ∧ w.op ≠ 0 then ⟨.err, w, inp⟩
  else
    let w := { w with cont := b0 &&& WS_F_FIN = 0 }
    match hdrLen w (w.buf.getD 1 0) with
    | none => ⟨.err, { w with maskOff := 0 }, inp⟩
    | some (w, hdrsize) =>
      if hdrsize ≠ 0 then rGather { w with gathlen := 2 + hdrsize } inp rNext
      else rHok { w with state := .hok } inp

/-- `ffwebskt_parse` -/
def ffwebsktParse (w : Ws) (inp : List UInt8) : Res :=
  match w.state with
  | .init => rGather { w with state := .gather, nxstate := .hdr, gathlen := 2 } inp rHdr
  | .gather => rGather w inp (if w.nxstate = .hdr then rHdr else rNext)
  | .hdr => rHdr w inp
  | .hlen2 => rHlen2 w inp
  | .hlen8 => rHlen8 w inp
  | .hok => rHok w inp
  | .body => rBody w inp

/-- A reader that has been set to zero. -/
def Ws.new (server : Bool) : Ws := ⟨.init, .hdr, 0, 0, 0, [], 0, false, server, []⟩

/-! ### All the calls -/

/-- **The calls of the reader** for the input `inp` and the fragments behind it, with what they
return: it is called again until it asks for more, having taken all of its input, and then gets
the next fragment. -/
inductive Reads : Ws → List UInt8 → List (List UInt8) → List Ret → Ws → Prop
  | done {w w' : Ws} {inp : List UInt8} (h : ffwebsktParse w inp = ⟨.more, w', []⟩) :
      Reads w inp [] [] w'
  | feed {w w' w'' : Ws} {inp f : List UInt8} {fs : List (List UInt8)} {rs : List Ret}
      (h : ffwebsktParse w inp = ⟨.more, w', []⟩) (hs : Reads w' f fs rs w'') :
      Reads w inp (f :: fs) rs w''
  | err {w w' : Ws} {inp rest : List UInt8} {fs : List (List UInt8)}
      (h : ffwebsktParse w inp = ⟨.err, w', rest⟩) : Reads w inp fs [.err] w'
  | next {w w' w'' : Ws} {inp rest : List UInt8} {fs : List (List UInt8)} {r : Ret}
      {rs : List Ret} (h : ffwebsktParse w inp = ⟨r, w', rest⟩) (hmore : r ≠ .more)
      (herr : r ≠ .err) (hs : Reads w' rest fs rs w'') : Reads w inp fs (r :: rs) w''

end Websocket

end FF
