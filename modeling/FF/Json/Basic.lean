import FF.Ffarr
import FF.Ffstring
import FF.Utf8
import FF.Lib.Incremental

/-!
# The JSON parser

`ffjson_parse` as passes over the bytes of a chunk (`jsonPass`), each one iteration of its loop,
and what it does at its end (`jsonFin`).

The value that is read goes to `buf`. As long as it is a piece of the chunk, `buf` refers to that
piece; it is copied when the chunk ends before the value does, or when an escape sequence has to
be decoded. The functions that touch `buf` are written over the operations on it (`ValOps`),
since the parser is compared with one that keeps the bytes themselves.
-/

namespace FF

/-- `enum FFPARS_E`, as far as the parser returns it. -/
inductive FfparsE
  | more
  | val
  | key
  | open
  | close
  | esys
  | ebadchar
  | ekvsep
  | enoval
  | ebadval
  | eesc
  | ebadbrace
  | ebadcmt
  deriving DecidableEq, Repr

/-- The codes below 0 are events, those above 0 are errors. -/
def FfparsE.verdict : FfparsE → Verdict
  | .more => .more
  | .val | .key | .open | .close => .event
  | _ => .stop

/-- `enum FFJSON_T` -/
inductive FfjsonT
  | null
  | str
  | int
  | bool
  | obj
  | arr
  | num
  deriving DecidableEq, Repr

/-- `enum IDX`, the states of the parser; `none` is the value -1 of `nextst`. -/
inductive JsonIdx
  | iwspace
  | icmtBegin
  | icmtLine
  | icmtMline
  | icmtMlineslash
  | valFirst
  | val
  | valBare
  | valBareNum
  | afterVal
  | closeBrace
  | newCtx
  | rmCtx
  | quot
  | quotFirst
  | quotEsc
  | keyFirst
  | key
  | afterKey
  | none
  deriving DecidableEq, Repr

/-- `ffjson`, over the type `B` of the buffer. The members of the union are apart here: none is
read unless it was written last. `esc` holds the `esc_len` characters of an escape sequence;
`escUtf16` is the flag `F_ESC_UTF16_2`; the innermost of `ctxs` comes first. -/
structure Ffjson (B δ : Type) where
  state : JsonIdx
  nextst : JsonIdx
  type : FfjsonT
  ret : FfparsE
  line : UInt32
  ch : UInt32
  escUtf16 : Bool
  intval : ℤ
  fltval : Option δ
  esc : List UInt8
  escHiword : UInt32
  barevalIdx : UInt32
  val : List UInt8
  buf : B
  ctxs : List FfjsonT
  ctxsCap : ℕ

/-- What the parser does with its buffer: `val_add` of the first byte of `data`, `val_store`,
`ffarr_free`, the bytes it holds and their number. -/
structure ValOps (B : Type) where
  add : B → List UInt8 → Option B
  store : B → List UInt8 → Option B
  free : B
  bytes : B → List UInt8
  len : B → ℕ

/-! ### The buffer -/

/-- `val_store` -/
def valStore (alloc : ℕ → Bool) (buf : Ffarr) (s : List UInt8) : Option Ffarr := do
  let buf ← ffarrGrow alloc buf s.length 256
  ffarrAppend alloc buf s

/-- `val_add` of the first byte of `data`. -/
def valAdd (alloc : ℕ → Bool) (buf : Ffarr) (data : List UInt8) : Option Ffarr :=
  match buf with
  | .own .. => valStore alloc buf (data.take 1)
  | .ref ptr len => some (.ref (if len = 0 then data else ptr) (len + 1))

/-- The operations on `ffarr`. -/
def ffarrOps (alloc : ℕ → Bool) : ValOps Ffarr where
  add := valAdd alloc
  store := valStore alloc
  free := .null
  bytes := Ffarr.bytes
  len := Ffarr.len

/-! ### Escape sequences -/

/-- `escchar` -/
def escchar : List UInt8 := [0x22, 0x5c, 0x62, 0x66, 0x72, 0x6e, 0x74, 0x2f]

/-- `escbyte` -/
def escbyte : List UInt8 := [0x22, 0x5c, 0x08, 0x0c, 0x0d, 0x0a, 0x09, 0x2f]

/-- What `ffjson_unescapechar` returns: a character, 0 for an incomplete sequence, -1. -/
inductive Unescape
  | char (uch : UInt32)
  | incomplete
  | error
  deriving DecidableEq, Repr

/-- `ffjson_unescapechar` -/
def ffjsonUnescapechar (text : List UInt8) : Unescape :=
  match text with
  | [] => .incomplete
  | c :: digits =>
    if c ∈ escchar then .char (escbyte.getD (escchar.idxOf c) 0).toUInt32
    else if c = 0x75 then
      if text.length < 5 then .incomplete
      else
        match ffsToint (digits.take 4) ⟨2, false, true, false⟩ with
        | some (4, sh) => .char (UInt32.ofNat sh)
        | _ => .error
    else .error

section Parser

variable {B δ : Type}

/-- `ffjson_parseinit` -/
def ffjsonParseinit (free : B) : Ffjson B δ where
  state := .iwspace
  nextst := .val
  type := .null
  ret := .more
  line := 1
  ch := 0
  escUtf16 := false
  intval := 0
  fltval := none
  esc := []
  escHiword := 0
  barevalIdx := 0
  val := []
  buf := free
  ctxs := []
  ctxsCap := 0

/-- `json_cleardata` -/
def jsonCleardata (o : ValOps B) (p : Ffjson B δ) : Ffjson B δ :=
  { p with buf := o.free, intval := 0 }

/-! ### Values -/

/-- `_ffjson_words` -/
def ffjsonWords : List (List UInt8) :=
  [[0x74, 0x72, 0x75, 0x65], [0x66, 0x61, 0x6c, 0x73, 0x65], [0x6e, 0x75, 0x6c, 0x6c]]

/-- `wordType` -/
def wordType : List FfjsonT := [.bool, .bool, .null]

/-- `valBareType` -/
def valBareType (ch : UInt8) : UInt32 :=
  if ch = 0x74 then 1 else if ch = 0x66 then 2 else if ch = 0x6e then 3 else 0

/-- Whether a character belongs to a number. -/
def isNumChar (ch : UInt8) : Bool :=
  ffcharIsdigit ch || ch == 0x2d || ch == 0x2b || ch == 0x2e || ffcharLower ch == 0x65

/-- `val_add`, with its code. -/
def addByte (o : ValOps B) (p : Ffjson B δ) (data : List UInt8) : Ffjson B δ × FfparsE :=
  match o.add p.buf data with
  | some buf => ({ p with buf := buf }, .more)
  | none => (p, .esys)

/-- `hdlValBare`: true, false or null. -/
def hdlValBare (o : ValOps B) (p : Ffjson B δ) (ch : UInt8) (data : List UInt8) :
    Ffjson B δ × FfparsE :=
  let i := p.barevalIdx.toNat
  match addByte o p data with
  | (p, .more) =>
    let len := o.len p.buf - 1
    let word := ffjsonWords.getD i []
    if ch ≠ word.getD len 0 then (p, .ebadval)
    else if word.getD (len + 1) 0 = 0 then
      ({ p with type := wordType.getD i .null, intval := if i = 0 then 1 else 0 }, .val)
    else (p, .more)
  | r => r

/-- `hdlValBareNum`: an integer or a floating-point number, whose value `floatVal` gives. -/
def hdlValBareNum (o : ValOps B) (floatVal : List UInt8 → δ) (p : Ffjson B δ) (ch : UInt8)
    (data : List UInt8) : Ffjson B δ × FfparsE :=
  if !isNumChar ch then
    let v := o.bytes p.buf
    if v.length = 0 then (p, .enoval)
    else
      match (ffsToint v ⟨8, true, false, false⟩).filter fun r => v.length = r.1 with
      | some (_, i) => ({ p with type := .int, intval := int64 i }, .val)
      | none =>
        if ffsTofloat v = some v.length then
          ({ p with type := .num, fltval := some (floatVal v) }, .val)
        else (p, .ebadval)
  else addByte o p data

/-- The `switch` of `hdlQuote`. -/
def quoteChar (o : ValOps B) (p : Ffjson B δ) (ch : UInt8) (data : List UInt8) :
    Ffjson B δ × FfparsE :=
  if ch = 0x22 then
    let p := { p with type := .str, state := .iwspace }
    if p.nextst = .key then ({ p with nextst := .afterKey }, .key)
    else ({ p with nextst := .afterVal }, .val)
  else if ch = 0x5c then ({ p with esc := [], state := .quotEsc }, .more)
  else if ch = 0x0a then (p, .ebadchar)
  else addByte o p data

/-- `hdlQuote`: after the first of two surrogates another escape sequence must follow. -/
def hdlQuote (o : ValOps B) (p : Ffjson B δ) (ch : UInt8) (data : List UInt8) :
    Ffjson B δ × FfparsE :=
  let (p, er) := quoteChar o p ch data
  (p, if p.escUtf16 ∧ p.state ≠ .quotEsc then .eesc else er)

/-- The end of `hdlEsc`: the character goes to the value. -/
def escPut (o : ValOps B) (p : Ffjson B δ) (uch : UInt32) : Ffjson B δ × FfparsE :=
  match o.store p.buf (ffutf8Encode1 8 uch) with
  | some buf => ({ p with buf := buf, state := .quot }, .more)
  | none => (p, .esys)

/-- `hdlEsc` -/
def hdlEsc (o : ValOps B) (p : Ffjson B δ) (ch : UInt8) : Ffjson B δ × FfparsE :=
  if p.esc.length ≥ 5 then (p, .eesc)
  else
    let p := { p with esc := p.esc ++ [ch] }
    match ffjsonUnescapechar p.esc with
    | .error => (p, .eesc)
    | .incomplete => (p, .more)
    | .char uch =>
      if ffutf16Basic uch then escPut o p uch
      else if ffutf16Highsurr uch then
        if p.escUtf16 then (p, .eesc)
        else ({ p with escUtf16 := true, escHiword := uch, state := .quot }, .more)
      else if !p.escUtf16 then (p, .eesc)
      else
        escPut o { p with escUtf16 := false, escHiword := 0 } (ffutf16Suppl p.escHiword uch)

/-! ### Comments -/

/-- `json_cmt` -/
def jsonCmt (p : Ffjson B δ) (ch : UInt8) : Ffjson B δ × FfparsE :=
  match p.state with
  | .icmtBegin =>
    if ch = 0x2f then ({ p with state := .icmtLine }, .more)
    else if ch = 0x2a then ({ p with state := .icmtMline }, .more)
    else (p, .ebadcmt)
  | .icmtLine => (if ch = 0x0a then { p with state := .iwspace } else p, .more)
  | .icmtMline => (if ch = 0x2a then { p with state := .icmtMlineslash } else p, .more)
  | .icmtMlineslash =>
    ({ p with state := if ch = 0x2f then .iwspace else .icmtMline }, .more)
  | _ => (p, .more)

/-! ### The passes of the parser -/

/-- What a pass does, and whether the character is processed again. -/
abbrev PassRes (B δ : Type) := Ffjson B δ × FfparsE × Bool

/-- `case iVal` -/
def caseVal (p : Ffjson B δ) (ch : UInt8) : PassRes B δ :=
  if ch = 0x22 then ({ p with state := .quotFirst, nextst := .val }, .more, false)
  else if ch = 0x5b ∨ ch = 0x7b then
    ({ p with
        state := .newCtx
        type := if ch = 0x5b then .arr else .obj
        nextst := if ch = 0x5b then .valFirst else .keyFirst }, .open, false)
  else
    let t := valBareType ch
    ({ p with state := if t ≠ 0 then .valBare else .valBareNum, barevalIdx := t - 1 }, .more, true)

/-- `case iKey` -/
def caseKey (p : Ffjson B δ) (ch : UInt8) : PassRes B δ :=
  if ch = 0x22 then ({ p with state := .quotFirst, nextst := .key }, .more, false)
  else (p, .ebadchar, false)

/-- `case iCloseBrace`; `none` where `FF_ASSERT` fails. -/
def caseCloseBrace (p : Ffjson B δ) (ch : UInt8) : Option (PassRes B δ) :=
  let type : FfjsonT := if ch = 0x5d then .arr else .obj
  if p.ctxs.length = 0 then none
  else if p.ctxs.head? ≠ some type then some (p, .ebadbrace, false)
  else some ({ p with state := .rmCtx, type := type }, .close, false)

/-- `case iAfterVal` -/
def caseAfterVal (o : ValOps B) (p : Ffjson B δ) (ch : UInt8) : Option (PassRes B δ) :=
  let p := jsonCleardata o p
  if p.ctxs.length = 0 then some (p, .ebadchar, false)
  else if ch = 0x2c then
    let nextst : JsonIdx := if p.ctxs.head? = some .arr then .val else .key
    some ({ p with state := .iwspace, nextst := nextst }, .more, false)
  else if ch ≠ 0x5d ∧ ch ≠ 0x7d then some (p, .ebadchar, false)
  else caseCloseBrace { p with state := .closeBrace } ch

/-- `case iAfterKey` -/
def caseAfterKey (o : ValOps B) (p : Ffjson B δ) (ch : UInt8) : PassRes B δ :=
  let p := jsonCleardata o p
  if ch = 0x3a then ({ p with state := .iwspace, nextst := .val }, .more, false)
  else (p, .ekvsep, false)

/-- `case iNewCtx` -/
def caseNewCtx (alloc : ℕ → Bool) (p : Ffjson B δ) : PassRes B δ :=
  let cap := if p.ctxsCap < p.ctxs.length + 1 then p.ctxs.length + 1 else p.ctxsCap
  if p.ctxsCap < p.ctxs.length + 1 ∧ !alloc (p.ctxs.length + 1) then (p, .esys, false)
  else ({ p with ctxs := p.type :: p.ctxs, ctxsCap := cap, state := .iwspace }, .more, true)

/-- A code of a bareword or a number; on a value, whitespace is next. -/
def afterBare (r : Ffjson B δ × FfparsE) (again : Bool) : PassRes B δ :=
  if r.2 = .val then ({ r.1 with state := .iwspace, nextst := .afterVal }, .val, again)
  else (r.1, r.2, false)

/-- The `switch` of `ffjson_parse`, on the character `ch` at `data`. -/
def jsonSwitch (o : ValOps B) (alloc : ℕ → Bool) (floatVal : List UInt8 → δ) (p : Ffjson B δ)
    (ch : UInt8) (data : List UInt8) : Option (PassRes B δ) :=
  let plain (r : Ffjson B δ × FfparsE) : PassRes B δ := (r.1, r.2, false)
  match p.state with
  | .iwspace =>
    if ffcharIswhitespace ch then some (p, .more, false)
    else if ch = 0x2f then some ({ p with state := .icmtBegin }, .more, false)
    else some ({ p with state := p.nextst, nextst := .none }, .more, true)
  | .icmtBegin | .icmtLine | .icmtMline | .icmtMlineslash => some (plain (jsonCmt p ch))
  | .valFirst =>
    if ch = 0x5d then some ({ p with state := .closeBrace }, .more, true)
    else some (caseVal { p with state := .val } ch)
  | .val => some (caseVal p ch)
  | .valBare => some (afterBare (hdlValBare o p ch data) false)
  | .valBareNum => some (afterBare (hdlValBareNum o floatVal p ch data) true)
  | .quotFirst => some (plain (hdlQuote o { p with state := .quot } ch data))
  | .quot => some (plain (hdlQuote o p ch data))
  | .quotEsc => some (plain (hdlEsc o p ch))
  | .afterVal => caseAfterVal o p ch
  | .closeBrace => caseCloseBrace p ch
  | .newCtx => some (caseNewCtx alloc p)
  | .rmCtx =>
    some ({ p with state := .iwspace, nextst := .afterVal, ctxs := p.ctxs.tail }, .more, true)
  | .keyFirst =>
    if ch = 0x7d then some ({ p with state := .closeBrace }, .more, true)
    else some (caseKey { p with state := .key } ch)
  | .key => some (caseKey p ch)
  | .afterKey => some (caseAfterKey o p ch)
  | .none => some (p, .more, false)

/-- One iteration of the loop of `ffjson_parse`: the next state, the code, and whether the
character is consumed. -/
def jsonPass (o : ValOps B) (alloc : ℕ → Bool) (floatVal : List UInt8 → δ) (p : Ffjson B δ)
    (ch : UInt8) (data : List UInt8) : Option (Ffjson B δ × FfparsE × Bool) := do
  let (p, er, again) ← jsonSwitch o alloc floatVal { p with ch := p.ch + 1 } ch data
  match er.verdict with
  | .more =>
    if again then some ({ p with ch := p.ch - 1 }, er, false)
    else if ch = 0x0a then some ({ p with line := p.line + 1, ch := 0 }, er, true)
    else some (p, er, true)
  | .event => some (p, er, !again)
  | .stop => some (p, er, false)

/-- The end of `ffjson_parse`. -/
def jsonFin (o : ValOps B) (p : Ffjson B δ) (er : FfparsE) : Ffjson B δ × FfparsE :=
  let (p, er) :=
    if er = .more ∧ o.len p.buf ≠ 0 then
      match o.store p.buf [] with
      | some buf => ({ p with buf := buf }, er)
      | none => (p, .esys)
    else (p, er)
  ({ p with val := o.bytes p.buf, ret := er }, er)

end Parser

end FF
