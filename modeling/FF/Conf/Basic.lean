import FF.Json.Basic

/-!
# The configuration parser

`ffconf_parse` as passes over the bytes of a chunk (`confPass`), each one iteration of its loop, and
what it does at its end (`confFin`). The functions `val_add` and `val_store` and the codes are those
of the JSON parser, and so are the operations on the buffer (`ValOps`).

Of the open contexts only the number is kept: their types are never read.
-/

namespace FF

namespace Conf

/-- `enum CONF_IDX`, the states of the parser; `none` is the value -1 of `nextst`. -/
inductive ConfIdx
  | iwspace
  | err
  | icmtBegin
  | icmtLine
  | icmtMline
  | icmtMlineslash
  | keyFirst
  | key
  | keyBare
  | keySplit
  | valSplit
  | valFirst
  | val
  | valBare
  | newCtx
  | rmCtx
  | quot
  | quotEsc
  | none
  deriving DecidableEq, Repr

/-- `enum FFCONF_T` -/
inductive FfconfT
  | obj
  | key
  | keyctx
  | val
  | valnext
  deriving DecidableEq, Repr

/-- `ffconf`, over the type `B` of the buffer. `esc` holds the `esc[0]` characters of an escape
sequence; `ctxs` is the length of the context stack, a `size_t`. -/
structure Ffconf (B : Type) where
  state : ConfIdx
  nextst : ConfIdx
  type : FfconfT
  ret : FfparsE
  line : UInt32
  ch : UInt32
  esc : List UInt8
  val : List UInt8
  buf : B
  ctxs : ℕ
  ctxsCap : ℕ

/-! ### Escape sequences -/

/-- `escchar` -/
def escchar : List UInt8 := [0x22, 0x5c, 0x62, 0x66, 0x72, 0x6e, 0x74]

/-- `escbyte` -/
def escbyte : List UInt8 := [0x22, 0x5c, 0x08, 0x0c, 0x0d, 0x0a, 0x09]

/-- What `unesc` returns: a byte, 0 for an incomplete sequence, -1. -/
inductive Unesc
  | byte (b : UInt8)
  | incomplete
  | error
  deriving DecidableEq, Repr

/-- `unesc` -/
def unesc (text : List UInt8) : Unesc :=
  match text with
  | [] => .incomplete
  | c :: digits =>
    if c ∈ escchar then .byte (escbyte.getD (escchar.idxOf c) 0)
    else if c = 0x78 then
      if text.length < 3 then .incomplete
      else
        match ffsToint (digits.take 2) ⟨1, false, true, false⟩ with
        | some (2, b) => .byte (UInt8.ofNat b)
        | _ => .error
    else .error

section Parser

variable {B : Type}

/-- `ffconf_parseinit`: the context at the top level is open. -/
def ffconfParseinit (alloc : ℕ → Bool) (free : B) : Ffconf B where
  state := if alloc 1 then .iwspace else .err
  nextst := .key
  type := .obj
  ret := if alloc 1 then .open else .more
  line := 1
  ch := 0
  esc := []
  val := []
  buf := free
  ctxs := if alloc 1 then 1 else 0
  ctxsCap := if alloc 1 then 1 else 0

/-- `conf_cleardata` -/
def confCleardata (o : ValOps B) (p : Ffconf B) : Ffconf B := { p with val := [], buf := o.free }

/-! ### Values -/

/-- The type of a value: the first one behind a key, or one of the next. -/
def valType (type : FfconfT) : FfconfT :=
  if type = .val ∨ type = .valnext then .valnext else .val

/-- `val_add`, with its code. -/
def addByte (o : ValOps B) (p : Ffconf B) (data : List UInt8) : Ffconf B × FfparsE :=
  match o.add p.buf data with
  | some buf => ({ p with buf := buf }, .more)
  | none => (p, .esys)

/-- `hdlQuote` -/
def hdlQuote (o : ValOps B) (p : Ffconf B) (ch : UInt8) (data : List UInt8) :
    Ffconf B × FfparsE :=
  if ch = 0x22 then
    if p.nextst = .key then ({ p with state := .keySplit }, .more)
    else ({ p with type := valType p.type, state := .valSplit }, .val)
  else if ch = 0x5c then ({ p with esc := [], state := .quotEsc }, .more)
  else if ch = 0x0a then (p, .ebadchar)
  else addByte o p data

/-- `hdlEsc` -/
def hdlEsc (o : ValOps B) (p : Ffconf B) (ch : UInt8) : Ffconf B × FfparsE :=
  if p.esc.length ≥ 3 then (p, .eesc)
  else
    let p := { p with esc := p.esc ++ [ch] }
    match unesc p.esc with
    | .error => (p, .eesc)
    | .incomplete => (p, .more)
    | .byte b =>
      match o.store p.buf [b] with
      | some buf => ({ p with buf := buf, esc := [], state := .quot }, .more)
      | none => (p, .esys)

/-- `hdl_cmt` -/
def hdlCmt (p : Ffconf B) (ch : UInt8) : Ffconf B × FfparsE :=
  match p.state with
  | .icmtBegin =>
    if ch = 0x2f then ({ p with state := .icmtLine }, .more)
    else if ch = 0x2a then ({ p with state := .icmtMline }, .more)
    else (p, .ebadcmt)
  | .icmtLine => (if ch = 0x0a then { p with state := .iwspace } else p, .more)
  | .icmtMline => (if ch = 0x2a then { p with state := .icmtMlineslash } else p, .more)
  | .icmtMlineslash =>
    ({ p with state := if ch = 0x2f then .iwspace else .icmtMline }, .more)
  | _ => (p, .more)

/-! ### The passes of the parser -/

/-- What a pass does, and whether the character is processed again. -/
abbrev PassRes (B : Type) := Ffconf B × FfparsE × Bool

/-- Whether a key or a value that is not quoted ends before the character. -/
def endsBare (ch : UInt8) : Bool := ffcharIswhitespace ch || ch == 0x2f || ch == 0x23

/-- `case FFPARS_IWSPACE` -/
def caseIwspace (o : ValOps B) (p : Ffconf B) (ch : UInt8) : PassRes B :=
  if ch = 0x0a then ({ confCleardata o p with nextst := .key }, .more, false)
  else if ffcharIswhitespace ch then (p, .more, false)
  else if ch = 0x2f then ({ p with state := .icmtBegin }, .more, false)
  else if ch = 0x23 then ({ p with state := .icmtLine }, .more, false)
  else ({ p with state := p.nextst, nextst := .none }, .more, true)

/-- `case iKey` -/
def caseKey (p : Ffconf B) (ch : UInt8) : PassRes B :=
  if ch = 0x22 then ({ p with state := .quot, nextst := .key }, .more, false)
  else if ch = 0x7d then ({ p with state := .rmCtx, type := .obj }, .close, false)
  else ({ p with state := .keyBare }, .more, true)

/-- `case iVal` -/
def caseVal (p : Ffconf B) (ch : UInt8) : PassRes B :=
  if ch = 0x22 then ({ p with state := .quot, nextst := .val }, .more, false)
  else if ch = 0x7b then
    ({ p with state := .newCtx, type := .obj, nextst := .valSplit }, .open, false)
  else ({ p with state := .valBare }, .more, true)

/-- `case iValBare`, for a key too. The position is not set back where the character is left. -/
def caseBare (o : ValOps B) (p : Ffconf B) (ch : UInt8) (data : List UInt8) : PassRes B :=
  if !endsBare ch then
    let (p, er) := addByte o p data
    (p, er, false)
  else if p.state = .keyBare then ({ p with type := .key, state := .valSplit }, .key, true)
  else ({ p with type := valType p.type, state := .valSplit }, .val, true)

/-- `case iKeyBare` -/
def caseKeyBare (o : ValOps B) (p : Ffconf B) (ch : UInt8) (data : List UInt8) : PassRes B :=
  if ch = 0x2e then ({ p with type := .keyctx, state := .keyFirst }, .key, false)
  else caseBare o p ch data

/-- `case iKeySplit` -/
def caseKeySplit (p : Ffconf B) (ch : UInt8) : PassRes B :=
  if ch = 0x2e then ({ p with type := .keyctx, state := .keyFirst }, .key, false)
  else ({ p with ch := p.ch - 1, type := .key, state := .valSplit }, .key, true)

/-- `case iValSplit` -/
def caseValSplit (o : ValOps B) (p : Ffconf B) (ch : UInt8) : PassRes B :=
  let p := confCleardata o p
  if !endsBare ch then (p, .ebadchar, false)
  else ({ p with state := .iwspace, nextst := .val }, .more, true)

/-- `case iNewCtx`: `ffarr_push`. -/
def caseNewCtx (alloc : ℕ → Bool) (p : Ffconf B) : PassRes B :=
  let len := (p.ctxs + 1) % SIZE_BOUND
  if p.ctxsCap < len ∧ !alloc len then (p, .esys, false)
  else
    ({ p with ctxs := len, ctxsCap := max p.ctxsCap len, state := .iwspace }, .more, true)

/-- `case iRmCtx`: the length of the stack is not checked. -/
def caseRmCtx (p : Ffconf B) : PassRes B :=
  ({ p with state := .valSplit, type := .obj, ctxs := sizeSub p.ctxs 1 }, .more, true)

/-- The `switch` of `ffconf_parse`, on the character `ch` at `data`. -/
def confSwitch (o : ValOps B) (alloc : ℕ → Bool) (p : Ffconf B) (ch : UInt8)
    (data : List UInt8) : PassRes B :=
  let plain (r : Ffconf B × FfparsE) : PassRes B := (r.1, r.2, false)
  match p.state with
  | .iwspace => caseIwspace o p ch
  | .icmtLine =>
    if ch = 0x0a then ({ p with state := .iwspace }, .more, true) else plain (hdlCmt p ch)
  | .icmtBegin | .icmtMline | .icmtMlineslash => plain (hdlCmt p ch)
  | .keyFirst => caseKey { confCleardata o p with state := .key } ch
  | .key => caseKey p ch
  | .keyBare => caseKeyBare o p ch data
  | .valBare => caseBare o p ch data
  | .val => caseVal p ch
  | .keySplit => caseKeySplit p ch
  | .valSplit => caseValSplit o p ch
  | .quot => plain (hdlQuote o p ch data)
  | .quotEsc => plain (hdlEsc o p ch)
  | .newCtx => caseNewCtx alloc p
  | .rmCtx => caseRmCtx p
  | .err => (p, .esys, false)
  | .valFirst | .none => (p, .more, false)

/-- One iteration of the loop of `ffconf_parse`: the next state, the code, and whether the
character is consumed. -/
def confPass (o : ValOps B) (alloc : ℕ → Bool) (p : Ffconf B) (ch : UInt8)
    (data : List UInt8) : Ffconf B × FfparsE × Bool :=
  let (p, er, again) := confSwitch o alloc { p with ch := p.ch + 1 } ch data
  match er.verdict with
  | .more =>
    if again then ({ p with ch := p.ch - 1 }, er, false)
    else if ch = 0x0a then ({ p with line := p.line + 1, ch := 0 }, er, true)
    else (p, er, true)
  | .event => (p, er, !again)
  | .stop => (p, er, false)

/-- The end of `ffconf_parse`. -/
def confFin (o : ValOps B) (p : Ffconf B) (er : FfparsE) : Ffconf B × FfparsE :=
  let (p, er) :=
    if er = .more ∧ o.len p.buf ≠ 0 then
      match o.store p.buf [] with
      | some buf => ({ p with buf := buf }, er)
      | none => (p, .esys)
    else (p, er)
  ({ p with val := o.bytes p.buf, ret := er }, er)

end Parser

end Conf

end FF
