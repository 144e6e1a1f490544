import FF.Json.Basic

/-!
# The JSON writer

`ffjson_add` writes one entity into a buffer of a fixed size: a comma and whitespace, the entity,
and what is between a key and its value. What does not fit is cut off, except for a string that is
escaped: it is left out as a whole.
-/

namespace FF

open List

/-! ### Escaping -/

/-- The text of one byte in `ffjson_escape`. -/
def escapeByte (b : UInt8) : List UInt8 :=
  if b ∈ escbyte.take 7 then [0x5c, escchar.getD (escbyte.idxOf b) 0]
  else if b < 0x20 ∨ b = 0x7f then [0x5c, 0x75, 0x30, 0x30] ++ ffsHexbyte b ffHEX
  else [b]

/-- The loop of `ffjson_escape` with room for `cap` bytes; `none` where it returns 0 for want of
room. -/
def escapeLoop (cap : ℕ) : List UInt8 → List UInt8 → Option (List UInt8)
  | [], dst => some dst
  | b :: s, dst =>
    if dst.length = cap then none
    else if dst.length + (escapeByte b).length > cap then none
    else escapeLoop cap s (dst ++ escapeByte b)

/-- `ffjson_escape`: the bytes it reports to have written. -/
def ffjsonEscape (cap : ℕ) (s : List UInt8) : List UInt8 := (escapeLoop cap s []).getD []

/-- `ffjson_escape` without a buffer: the number of bytes. -/
def ffjsonEscapeSize (s : List UInt8) : ℕ := (s.map fun b => (escapeByte b).length).sum

/-- The escaped text. -/
def escapeText (s : List UInt8) : List UInt8 := s.flatMap escapeByte

theorem escapeByte_pos (b : UInt8) : 0 < (escapeByte b).length := by
  unfold escapeByte
  split
  · simp
  · split <;> simp

theorem length_escapeText (s : List UInt8) : (escapeText s).length = ffjsonEscapeSize s := by
  simp [escapeText, ffjsonEscapeSize, length_flatMap]

theorem escapeLoop_eq (cap : ℕ) (s dst : List UInt8) (hdst : dst.length ≤ cap) :
    escapeLoop cap s dst =
      if dst.length + (escapeText s).length ≤ cap then some (dst ++ escapeText s) else none := by
  induction s generalizing dst with
  | nil => simp [escapeLoop, escapeText, hdst]
  | cons b s ih =>
    have hpos := escapeByte_pos b
    have hcons : escapeText (b :: s) = escapeByte b ++ escapeText s := rfl
    rw [escapeLoop, hcons, length_append]
    by_cases h1 : dst.length = cap
    · rw [if_pos h1, if_neg (by omega)]
    · rw [if_neg h1]
      by_cases h2 : dst.length + (escapeByte b).length > cap
      · rw [if_pos h2, if_neg (by omega)]
      · rw [if_neg h2, ih _ (by rw [length_append]; omega), length_append,
          append_assoc, Nat.add_assoc]

theorem ffjsonEscape_eq (cap : ℕ) (s : List UInt8) :
    ffjsonEscape cap s = if (escapeText s).length ≤ cap then escapeText s else [] := by
  rw [ffjsonEscape, escapeLoop_eq cap s [] (Nat.zero_le cap)]
  simp only [length_nil, Nat.zero_add, nil_append]
  split <;> rfl

/-! ### The state of the writer -/

/-- `st` of `ffjson_cook`: `stComma`, `stKey`, `stVal`, `ST_CONTINUE` and `ST_LF`. -/
structure CookSt where
  comma : Bool
  key : Bool
  val : Bool
  cont : Bool
  lf : Bool
  deriving DecidableEq, Repr

/-- No flag. -/
def CookSt.zero : CookSt := ⟨false, false, false, false, false⟩

/-- `enum FFJSON_F` -/
structure JsonF where
  noesc : Bool
  pretty : Bool
  pretty2spc : Bool
  pretty4spc : Bool
  strz : Bool
  f32bit : Bool
  more : Bool
  deriving DecidableEq, Repr

namespace JsonF

/-- `f | g` -/
def or (f g : JsonF) : JsonF where
  noesc := f.noesc || g.noesc
  pretty := f.pretty || g.pretty
  pretty2spc := f.pretty2spc || g.pretty2spc
  pretty4spc := f.pretty4spc || g.pretty4spc
  strz := f.strz || g.strz
  f32bit := f.f32bit || g.f32bit
  more := f.more || g.more

/-- `f & _FFJSON_PRETTYMASK` -/
def prettymask (f : JsonF) : Bool := f.pretty || f.pretty2spc || f.pretty4spc

/-- No flag. -/
def zero : JsonF := ⟨false, false, false, false, false, false, false⟩

end JsonF

/-- The types of the open contexts, the outermost first. What is behind `len` stays in memory. -/
structure CtxArr where
  cells : List FfjsonT
  len : ℕ
  deriving DecidableEq, Repr

namespace CtxArr

/-- The open contexts. -/
def items (a : CtxArr) : List FfjsonT := a.cells.take a.len

/-- `ffarr_back` -/
def back (a : CtxArr) : Option FfjsonT := a.cells[a.len - 1]?

/-- `ffarr_push` -/
def push (alloc : ℕ → Bool) (a : CtxArr) (x : FfjsonT) : Option CtxArr :=
  if a.cells.length < a.len + 1 then
    if alloc (a.len + 1) then some ⟨a.cells.take a.len ++ [x], a.len + 1⟩ else none
  else some ⟨a.cells.set a.len x, a.len + 1⟩

end CtxArr

/-- `ffjson_cook`. Without a buffer (`nobuf`) its pointer is `NULL`, and its length and capacity
are 0. -/
structure FfjsonCook where
  nobuf : Bool
  buf : List UInt8
  cap : ℕ
  st : CookSt
  ctxs : CtxArr
  gflags : JsonF
  deriving DecidableEq, Repr

/-- The type of an entity with what `src` points to. For the context types it is whether `src` is
`FFJSON_CTXCLOSE`. -/
inductive JsonEntity
  | str (s : List UInt8)
  | int (i : UInt64)
  | num (s : List UInt8)
  | bool (b : Bool)
  | null
  | obj (close : Bool)
  | arr (close : Bool)
  | other
  deriving DecidableEq, Repr

namespace JsonEntity

/-- `closingCtx` -/
def closingCtx : JsonEntity → Bool
  | obj close => close
  | arr close => close
  | _ => false

end JsonEntity

/-- `FFJSON_OK` -/
def FFJSON_OK : ℤ := 0

/-- `FFJSON_BUFFULL` -/
def FFJSON_BUFFULL : ℤ := 1

/-- `FFJSON_ERR` -/
def FFJSON_ERR : ℤ := 2

/-! ### Writing -/

/-- The output: the bytes up to `d`, and `len`. -/
structure CookOut where
  out : List UInt8
  len : ℕ

/-- `ffs_copy` and its like: bytes to `d`, cut off at the end of the buffer; `n` is counted. -/
def CookOut.put (cap : ℕ) (w : CookOut) (s : List UInt8) (n : ℕ) : CookOut :=
  ⟨w.out ++ s.take (cap - w.out.length), w.len + n⟩

/-- `ffs_fill` -/
def CookOut.fill (cap : ℕ) (w : CookOut) (ch : UInt8) (n : ℕ) : CookOut :=
  ⟨w.out ++ List.replicate (min n (cap - w.out.length)) ch, w.len + n⟩

/-- The string of `src`: with `FFJSON_FSTRZ` it ends at the first NUL. -/
def strSrc (f : JsonF) (s : List UInt8) : List UInt8 :=
  if f.strz then s.takeWhile (· ≠ 0) else s

/-- The integer of `src` as a 64-bit word: with `FFJSON_F32BIT` it is an `int`. -/
def intSrc (f : JsonF) (i : UInt64) : ℕ :=
  if f.f32bit then
    let i := i.toNat % 2 ^ 32
    if i < 2 ^ 31 then i else i + (2 ^ 64 - 2 ^ 32)
  else i.toNat

/-- "insert whitespace": the indentation, as a `size_t`, and its character. -/
def wsIndent (f : JsonF) (len : ℕ) (closingCtx : Bool) : ℕ × UInt8 :=
  let n := if closingCtx then sizeSub len 1 else len
  if !f.pretty then (n * (if f.pretty4spc then 4 else 2) % SIZE_BOUND, 0x20) else (n, 0x09)

/-- The part of `ffjson_add` before the `switch`: a comma and whitespace. -/
def addPre (c : FfjsonCook) (f : JsonF) (closingCtx : Bool) : CookOut :=
  let w : CookOut := ⟨c.buf, 0⟩
  let w := if c.st.comma && !closingCtx then w.put c.cap [0x2c] 1 else w
  if f.prettymask && !c.st.val then
    let (n, ch) := wsIndent f c.ctxs.len closingCtx
    let w := if c.st.lf then w.put c.cap [0x0a] 1 else w
    w.fill c.cap ch n
  else w

/-- The part of `ffjson_add` after `done`. -/
def addDone (c : FfjsonCook) (w : CookOut) : FfjsonCook × ℤ :=
  if c.nobuf then (c, (-(w.len : ℤ)).bmod (2 ^ 32))
  else if w.out.length = c.cap then (c, FFJSON_BUFFULL)
  else ({ c with st := { c.st with lf := true }, buf := w.out }, FFJSON_OK)

/-- The part of `ffjson_add` after the `switch`, for an entity that is not a context. -/
def addScalar (c : FfjsonCook) (f : JsonF) (w : CookOut) : FfjsonCook × ℤ :=
  if c.st.key then
    let w := w.put c.cap [0x3a] 1
    let w := if f.prettymask then w.put c.cap [0x20] 1 else w
    addDone { c with st := { CookSt.zero with val := true } } w
  else if c.ctxs.len ≠ 0 then
    addDone { c with st := { CookSt.zero with comma := true, key := c.ctxs.back == some .obj } } w
  else addDone c w

/-- The string of `case FFJSON_TSTR`, as it is or escaped. -/
def addBody (c : FfjsonCook) (f : JsonF) (w : CookOut) (s : List UInt8) : CookOut :=
  let s := strSrc f s
  if f.noesc then w.put c.cap s s.length
  else if c.nobuf then ⟨w.out, w.len + ffjsonEscapeSize s⟩
  else
    let tmp := ffjsonEscape (c.cap - w.out.length) s
    ⟨w.out ++ tmp, w.len + tmp.length⟩

/-- `case FFJSON_TSTR` -/
def addStr (c : FfjsonCook) (f : JsonF) (w : CookOut) (s : List UInt8) : FfjsonCook × ℤ :=
  let w := if !c.st.cont then w.put c.cap [0x22] 1 else w
  let w := addBody c f w s
  if f.more then addDone { c with st := { c.st with cont := true } } w
  else addScalar { c with st := { c.st with cont := false } } f (w.put c.cap [0x22] 1)

/-- `case FFJSON_TINT` -/
def addInt (c : FfjsonCook) (f : JsonF) (w : CookOut) (i : UInt64) : FfjsonCook × ℤ :=
  addScalar c f ⟨w.out ++ ffsFromint (intSrc f i) (c.cap - w.out.length) true, w.len + 20⟩

/-- A number as text, `true`, `false` or `null`. -/
def addWord (c : FfjsonCook) (f : JsonF) (w : CookOut) (s : List UInt8) : FfjsonCook × ℤ :=
  addScalar c f (w.put c.cap s s.length)

/-- "open new context" -/
def addOpen (alloc : ℕ → Bool) (c : FfjsonCook) (w : CookOut) (type : FfjsonT) : FfjsonCook × ℤ :=
  match c.ctxs.push alloc type with
  | none => (c, FFJSON_ERR)
  | some ctxs =>
    addDone { c with ctxs := ctxs, st := { CookSt.zero with key := type == .obj } }
      (w.put c.cap [if type = .arr then 0x5b else 0x7b] 1)

/-- "close context" -/
def addClose (c : FfjsonCook) (w : CookOut) (type : FfjsonT) : FfjsonCook × ℤ :=
  if c.ctxs.len = 0 then (c, FFJSON_ERR)
  else if c.ctxs.back ≠ some type then (c, FFJSON_ERR)
  else
    let ctxs := { c.ctxs with len := c.ctxs.len - 1 }
    let key := decide (ctxs.len ≠ 0) && ctxs.back == some .obj
    addDone { c with ctxs := ctxs, st := { CookSt.zero with comma := true, key := key } }
      (w.put c.cap [if type = .arr then 0x5d else 0x7d] 1)

/-- `ffjson_add` -/
def ffjsonAdd (alloc : ℕ → Bool) (c : FfjsonCook) (f : JsonF) (e : JsonEntity) :
    FfjsonCook × ℤ :=
  let f := f.or c.gflags
  let w := addPre c f e.closingCtx
  match e with
  | .str s => addStr c f w s
  | .int i => addInt c f w i
  | .num s => addWord c f w s
  | .bool b => addWord c f w (if b then ffjsonWords.getD 0 [] else ffjsonWords.getD 1 [])
  | .null => addWord c f w (ffjsonWords.getD 2 [])
  | .obj true => addClose c w .obj
  | .obj false => addOpen alloc c w .obj
  | .arr true => addClose c w .arr
  | .arr false => addOpen alloc c w .arr
  | .other => (c, FFJSON_ERR)

/-! ### The text of an entity -/

/-- Whitespace before an entity. -/
def wsText (f : JsonF) (st : CookSt) (len : ℕ) (closingCtx : Bool) : List UInt8 :=
  if f.prettymask && !st.val then
    (if st.lf then [0x0a] else []) ++
      List.replicate (wsIndent f len closingCtx).1 (wsIndent f len closingCtx).2
  else []

/-- A comma and whitespace. -/
def preText (f : JsonF) (st : CookSt) (len : ℕ) (closingCtx : Bool) : List UInt8 :=
  (if st.comma && !closingCtx then [0x2c] else []) ++ wsText f st len closingCtx

/-- The opening quote. -/
def openQuote (st : CookSt) : JsonEntity → List UInt8
  | .str _ => if st.cont then [] else [0x22]
  | _ => []

/-- What is written before the text of an entity. -/
def entPre (f : JsonF) (st : CookSt) (len : ℕ) (e : JsonEntity) : List UInt8 :=
  preText f st len e.closingCtx ++ openQuote st e

/-- The text of an entity. -/
def entBody (f : JsonF) : JsonEntity → List UInt8
  | .str s => if f.noesc then strSrc f s else escapeText (strSrc f s)
  | .int i => ffsFromint (intSrc f i) 64 true
  | .num s => s
  | .bool b => if b then ffjsonWords.getD 0 [] else ffjsonWords.getD 1 []
  | .null => ffjsonWords.getD 2 []
  | .obj close => [if close then 0x7d else 0x7b]
  | .arr close => [if close then 0x5d else 0x5b]
  | .other => []

/-- The separator behind a key. -/
def sepText (f : JsonF) (st : CookSt) : List UInt8 :=
  if st.key then if f.prettymask then [0x3a, 0x20] else [0x3a] else []

/-- What is written behind the text of an entity. -/
def entPost (f : JsonF) (st : CookSt) : JsonEntity → List UInt8
  | .str _ => if f.more then [] else 0x22 :: sepText f st
  | .obj _ | .arr _ | .other => []
  | _ => sepText f st

/-- What a buffer that is large enough receives. -/
def entText (f : JsonF) (st : CookSt) (len : ℕ) (e : JsonEntity) : List UInt8 :=
  entPre f st len e ++ entBody f e ++ entPost f st e

/-- What `ffjson_add` counts without a buffer. -/
def entSize (f : JsonF) (st : CookSt) (len : ℕ) (e : JsonEntity) : ℕ :=
  (entPre f st len e).length + (match e with | .int _ => 20 | _ => (entBody f e).length) +
    (entPost f st e).length

/-- The state behind an entity that is not a context. -/
def scalarNext (st : CookSt) (ctxs : CtxArr) : CookSt :=
  if st.key then { CookSt.zero with val := true }
  else if ctxs.len ≠ 0 then { CookSt.zero with comma := true, key := ctxs.back == some .obj }
  else st

/-- The state behind a string. -/
def strNext (f : JsonF) (st : CookSt) (ctxs : CtxArr) : CookSt :=
  if f.more then { st with cont := true } else scalarNext { st with cont := false } ctxs

/-- The state behind an opening or a closing bracket; `none` where the call is refused. -/
def ctxNext (alloc : ℕ → Bool) (ctxs : CtxArr) (type : FfjsonT) (close : Bool) :
    Option (CookSt × CtxArr) :=
  if close then
    if ctxs.len = 0 ∨ ctxs.back ≠ some type then none
    else
      let ctxs' := { ctxs with len := ctxs.len - 1 }
      let key := decide (ctxs'.len ≠ 0) && ctxs'.back == some .obj
      some ({ CookSt.zero with comma := true, key := key }, ctxs')
  else (ctxs.push alloc type).map fun ctxs => ({ CookSt.zero with key := type == .obj }, ctxs)

/-- The state behind an entity; `none` where the call is refused with `FFJSON_ERR`. -/
def entNext (alloc : ℕ → Bool) (f : JsonF) (st : CookSt) (ctxs : CtxArr) :
    JsonEntity → Option (CookSt × CtxArr)
  | .str _ => some (strNext f st ctxs, ctxs)
  | .obj close => ctxNext alloc ctxs .obj close
  | .arr close => ctxNext alloc ctxs .arr close
  | .other => none
  | _ => some (scalarNext st ctxs, ctxs)

/-- The string that is written where there is room for `room` bytes: with escaping it is left out
if it does not fit. -/
def strWritten (f : JsonF) (room : ℕ) (s : List UInt8) : List UInt8 :=
  if f.noesc then strSrc f s
  else if (escapeText (strSrc f s)).length ≤ room then escapeText (strSrc f s) else []

/-- What is written where there is room for `room` bytes, before it is cut off. -/
def entWritten (f : JsonF) (st : CookSt) (len room : ℕ) : JsonEntity → List UInt8
  | .str s =>
    entPre f st len (.str s) ++ strWritten f (room - (entPre f st len (.str s)).length) s ++
      entPost f st (.str s)
  | e => entText f st len e

/-! ### What a call does -/

/-- A buffer has its length and capacity; without one they are 0. -/
structure FfjsonCook.Ok (c : FfjsonCook) : Prop where
  nobuf : c.nobuf = true → c.buf = [] ∧ c.cap = 0
  cap : c.buf.length ≤ c.cap

/-- To `buf` the bytes `t` have been written as far as there is room, and `n` has been counted. -/
structure Wrote (cap : ℕ) (buf : List UInt8) (w : CookOut) (t : List UInt8) (n : ℕ) : Prop where
  out : w.out = buf ++ t.take (cap - buf.length)
  len : w.len = n

section Wrote

variable {cap n : ℕ} {buf t : List UInt8} {w : CookOut}

theorem wrote_nil (cap : ℕ) (buf : List UInt8) : Wrote cap buf ⟨buf, 0⟩ [] 0 :=
  ⟨by simp, rfl⟩

theorem Wrote.room (h : Wrote cap buf w t n) :
    cap - w.out.length = cap - buf.length - t.length := by
  rw [h.out, length_append, length_take]
  omega

theorem Wrote.append (h : Wrote cap buf w t n) (s : List UInt8) (m : ℕ) :
    Wrote cap buf ⟨w.out ++ s.take (cap - w.out.length), w.len + m⟩ (t ++ s) (n + m) := by
  refine ⟨?_, by rw [h.len]⟩
  rw [h.room, h.out, take_append, append_assoc]

theorem Wrote.put (h : Wrote cap buf w t n) (s : List UInt8) :
    Wrote cap buf (w.put cap s s.length) (t ++ s) (n + s.length) :=
  h.append s s.length

theorem Wrote.fill (h : Wrote cap buf w t n) (ch : UInt8) (m : ℕ) :
    Wrote cap buf (w.fill cap ch m) (t ++ List.replicate m ch) (n + m) := by
  have := h.append (List.replicate m ch) m
  rwa [take_replicate, Nat.min_comm] at this

end Wrote

section Add

variable {c : FfjsonCook} {cap n : ℕ} {buf t : List UInt8} {w : CookOut}

theorem addPre_spec (c : FfjsonCook) (f : JsonF) (closingCtx : Bool) :
    Wrote c.cap c.buf (addPre c f closingCtx) (preText f c.st c.ctxs.len closingCtx)
      (preText f c.st c.ctxs.len closingCtx).length := by
  have h₁ : ∀ b : Bool, Wrote c.cap c.buf
      (if b then (⟨c.buf, 0⟩ : CookOut).put c.cap [0x2c] 1 else ⟨c.buf, 0⟩)
      (if b then [0x2c] else []) (if b then [(0x2c : UInt8)] else []).length := by
    intro b
    cases b with
    | true => simpa using (wrote_nil c.cap c.buf).put [0x2c]
    | false => exact wrote_nil c.cap c.buf
  have h₂ := h₁ (c.st.comma && !closingCtx)
  simp only [addPre, preText, wsText]
  cases hws : f.prettymask && !c.st.val with
  | false => simpa using h₂
  | true =>
    cases hlf : c.st.lf with
    | false =>
      simpa [Nat.add_assoc] using
        h₂.fill (wsIndent f c.ctxs.len closingCtx).2 (wsIndent f c.ctxs.len closingCtx).1
    | true =>
      simpa [Nat.add_assoc, Nat.add_comm 1] using
        (h₂.put [0x0a]).fill (wsIndent f c.ctxs.len closingCtx).2
          (wsIndent f c.ctxs.len closingCtx).1

theorem sepText_spec (h : Wrote cap buf w t n) (f : JsonF) (st : CookSt) (hk : st.key = true) :
    Wrote cap buf
      (if f.prettymask then (w.put cap [0x3a] 1).put cap [0x20] 1 else w.put cap [0x3a] 1)
      (t ++ sepText f st) (n + (sepText f st).length) := by
  simp only [sepText, hk, if_true]
  cases f.prettymask with
  | true => simpa [append_assoc] using (h.put [0x3a]).put [0x20]
  | false => simpa using h.put [0x3a]

theorem addScalar_spec (h : Wrote cap buf w t n) (f : JsonF) (hcap : c.cap = cap) :
    ∃ w', addScalar c f w = addDone { c with st := scalarNext c.st c.ctxs } w' ∧
      Wrote cap buf w' (t ++ sepText f c.st) (n + (sepText f c.st).length) := by
  subst hcap
  cases hk : c.st.key with
  | true =>
    refine ⟨_, ?_, sepText_spec h f c.st hk⟩
    simp only [addScalar, scalarNext, hk, if_true]
  | false =>
    refine ⟨w, ?_, by simpa [sepText, hk] using h⟩
    simp only [addScalar, scalarNext, hk, Bool.false_eq_true, if_false]
    split <;> rfl

/-- A call is refused where there is no next state; else the state moves on, and the bytes `t` go to
the buffer as far as there is room, or their number `n` is counted. -/
def addResult (c : FfjsonCook) (next : Option (CookSt × CtxArr)) (t : List UInt8) (n : ℕ) :
    FfjsonCook × ℤ :=
  match next with
  | none => (c, FFJSON_ERR)
  | some (st, ctxs) =>
    addDone { c with st := st, ctxs := ctxs } ⟨c.buf ++ t.take (c.cap - c.buf.length), n⟩

theorem Wrote.done (h : Wrote c.cap c.buf w t n) {m : ℕ} (hm : c.nobuf = true → n = m)
    (st : CookSt) (ctxs : CtxArr) :
    addDone { c with st := st, ctxs := ctxs } w = addResult c (some (st, ctxs)) t m := by
  simp only [addResult, addDone, h.out, h.len]
  cases hn : c.nobuf with
  | true => rw [hm hn]
  | false => rfl

theorem addWord_spec (h : Wrote c.cap c.buf w t n) (f : JsonF) (s : List UInt8) :
    addWord c f w s = addResult c (some (scalarNext c.st c.ctxs, c.ctxs))
      (t ++ s ++ sepText f c.st) (n + s.length + (sepText f c.st).length) := by
  obtain ⟨w', hadd, hw'⟩ := addScalar_spec (c := c) (h.put s) f rfl
  rw [addWord, hadd]
  exact hw'.done (fun _ => rfl) (scalarNext c.st c.ctxs) c.ctxs

theorem intSrc_lt (f : JsonF) (i : UInt64) : intSrc f i < 2 ^ 64 := by
  have := i.toNat_lt
  simp only [intSrc]
  split
  · split <;> omega
  · exact this

theorem addInt_spec (h : Wrote c.cap c.buf w t n) (f : JsonF) (i : UInt64) :
    addInt c f w i = addResult c (some (scalarNext c.st c.ctxs, c.ctxs))
      (t ++ ffsFromint (intSrc f i) 64 true ++ sepText f c.st)
      (n + 20 + (sepText f c.st).length) := by
  have hlen := length_ffsFromint (intSrc_lt f i) (by omega : 32 ≤ 64)
  obtain ⟨w', hadd, hw'⟩ := addScalar_spec (c := c)
    (h.append (ffsFromint (intSrc f i) 64 true) 20) f rfl
  rw [addInt, ffsFromint_take _ (by omega : (ffsFromint (intSrc f i) 64 true).length < 64), hadd]
  exact hw'.done (fun _ => rfl) (scalarNext c.st c.ctxs) c.ctxs

theorem addBody_spec (hc : c.Ok) (h : Wrote c.cap c.buf w t n) (f : JsonF) (s : List UInt8) :
    ∃ m, Wrote c.cap c.buf (addBody c f w s)
        (t ++ strWritten f (c.cap - c.buf.length - t.length) s) m ∧
      (c.nobuf = true → m = n + (entBody f (.str s)).length) := by
  cases hesc : f.noesc with
  | true =>
    simp only [addBody, if_true, strWritten, hesc, entBody]
    exact ⟨_, h.put _, fun _ => rfl⟩
  | false =>
    cases hn : c.nobuf with
    | true =>
      simp only [addBody, Bool.false_eq_true, if_false, strWritten, hesc, entBody, hn, if_true]
      refine ⟨_, ⟨?_, by rw [h.len]⟩, fun _ => by rw [length_escapeText]⟩
      simpa [(hc.nobuf hn).2] using h.out
    | false =>
      simp only [addBody, Bool.false_eq_true, if_false, strWritten, hesc, hn]
      rw [ffjsonEscape_eq, h.room]
      split
      · next hfit =>
          have happ := h.append (escapeText (strSrc f s)) (escapeText (strSrc f s)).length
          rw [h.room, take_of_length_le hfit] at happ
          exact ⟨_, happ, fun h => h.elim⟩
      · exact ⟨_, by simpa using h, fun h => h.elim⟩

theorem addStr_spec (hc : c.Ok) (h : Wrote c.cap c.buf w t n) (f : JsonF) (s : List UInt8) :
    addStr c f w s = addResult c (some (strNext f c.st c.ctxs, c.ctxs))
      (t ++ openQuote c.st (.str s) ++
        strWritten f (c.cap - c.buf.length - (t ++ openQuote c.st (.str s)).length) s ++
        entPost f c.st (.str s))
      (n + (openQuote c.st (.str s)).length + (entBody f (.str s)).length +
        (entPost f c.st (.str s)).length) := by
  obtain ⟨w₁, hw₁⟩ : ∃ w₁, w₁ = if !c.st.cont then w.put c.cap [0x22] 1 else w := ⟨_, rfl⟩
  have hquote : Wrote c.cap c.buf w₁ (t ++ openQuote c.st (.str s))
      (n + (openQuote c.st (.str s)).length) := by
    rw [hw₁]
    cases hcont : c.st.cont with
    | true => simpa [openQuote, hcont] using h
    | false => simpa [openQuote, hcont] using h.put [0x22]
  obtain ⟨m, hbody, hm⟩ := addBody_spec hc hquote f s
  simp only [addStr, ← hw₁]
  cases hmore : f.more with
  | true =>
    have hpost : entPost f c.st (.str s) = [] := by simp [entPost, hmore]
    simp only [strNext, hmore, if_true, hpost, append_nil, length_nil, Nat.add_zero]
    exact hbody.done hm _ c.ctxs
  | false =>
    obtain ⟨w', hadd, hw'⟩ := addScalar_spec (c := { c with st := { c.st with cont := false } })
      (hbody.put [0x22]) f rfl
    have hsep : sepText f { c.st with cont := false } = sepText f c.st := rfl
    have hpost : entPost f c.st (.str s) = [0x22] ++ sepText f c.st := by simp [entPost, hmore]
    rw [hsep] at hw'
    simp only [strNext, hmore, Bool.false_eq_true, if_false]
    refine hadd.trans ?_
    rw [hpost, ← append_assoc]
    refine hw'.done (fun hn => ?_) _ c.ctxs
    rw [hm hn, length_append, Nat.add_assoc]

theorem addOpen_spec (alloc : ℕ → Bool) (h : Wrote c.cap c.buf w t n) (type : FfjsonT) :
    addOpen alloc c w type = addResult c (ctxNext alloc c.ctxs type false)
      (t ++ [if type = FfjsonT.arr then 0x5b else 0x7b]) (n + 1) := by
  simp only [addOpen, ctxNext, Bool.false_eq_true, if_false]
  cases c.ctxs.push alloc type with
  | none => rfl
  | some ctxs => exact (h.put [if type = FfjsonT.arr then 0x5b else 0x7b]).done (fun _ => rfl) _ ctxs

theorem addClose_spec (alloc : ℕ → Bool) (h : Wrote c.cap c.buf w t n) (type : FfjsonT) :
    addClose c w type = addResult c (ctxNext alloc c.ctxs type true)
      (t ++ [if type = FfjsonT.arr then 0x5d else 0x7d]) (n + 1) := by
  simp only [addClose, ctxNext, if_true]
  by_cases h0 : c.ctxs.len = 0
  · rw [if_pos h0, if_pos (.inl h0)]
    rfl
  by_cases hb : c.ctxs.back ≠ some type
  · rw [if_neg h0, if_pos hb, if_pos (.inr hb)]
    rfl
  · rw [if_neg h0, if_neg hb,
      if_neg (show ¬(c.ctxs.len = 0 ∨ c.ctxs.back ≠ some type) from fun h => h.elim h0 hb)]
    exact (h.put [if type = FfjsonT.arr then 0x5d else 0x7d]).done (fun _ => rfl) _ _

/-- **What a call does**: it is refused, or the state moves on and what is written for the entity
goes to the buffer as far as there is room. -/
theorem ffjsonAdd_spec (alloc : ℕ → Bool) (hc : c.Ok) (f : JsonF) (e : JsonEntity) :
    ffjsonAdd alloc c f e = addResult c (entNext alloc (f.or c.gflags) c.st c.ctxs e)
      (entWritten (f.or c.gflags) c.st c.ctxs.len (c.cap - c.buf.length) e)
      (entSize (f.or c.gflags) c.st c.ctxs.len e) := by
  have hpre := addPre_spec c (f.or c.gflags) e.closingCtx
  unfold ffjsonAdd
  cases e with
  | str s =>
    simp only [addStr_spec hc hpre]
    simp [entNext, entWritten, entSize, entPre, JsonEntity.closingCtx]
  | int i =>
    simp only [addInt_spec hpre]
    simp [entNext, entWritten, entText, entSize, entPre, entBody, entPost, openQuote]
  | num s | bool b | null =>
    simp only [addWord_spec hpre]
    simp [entNext, entWritten, entText, entSize, entPre, entBody, entPost, openQuote]
  | obj close | arr close =>
    cases close with
    | true =>
      simp only [addClose_spec alloc hpre]
      simp [entNext, entWritten, entText, entSize, entPre, entBody, entPost, openQuote]
    | false =>
      simp only [addOpen_spec alloc hpre]
      simp [entNext, entWritten, entText, entSize, entPre, entBody, entPost, openQuote]
  | other => rfl

end Add

end FF
