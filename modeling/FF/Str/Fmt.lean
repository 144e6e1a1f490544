import FF.Str.Fmatch
import FF.Str.Fromint

/-!
# Text by a format

`ffs_fmtv2` goes through a format and writes text into a buffer. It counts the bytes that it would
need, and takes a buffer that has been filled up for one that is too small. The numbers, strings
and messages notice lack of room each in a way of its own.

## Conventions

* The functions of the system that give texts for errors are a parameter, `FErr`.
* `%F` is left out: it writes a floating-point number.
-/

namespace FF

/-! ### The format -/

/-- An argument. What a pointer to characters points to may go on behind the zero byte. -/
inductive FmtArg
  | w32 (v : UInt32)
  | w64 (v : UInt64)
  | str (s : Option (List UInt8))
  | ffstr (s : List UInt8)
  deriving DecidableEq, Repr

/-- A conversion, or a byte of the format, with its argument. -/
inductive FmtBasic
  | copy (bs : List UInt8)
  | copyz (bs : List UInt8)
  | int (num : UInt64) (f : FromintFlags)
  | hex (bs : List UInt8) (up : Bool)
  deriving DecidableEq, Repr

/-- What stands in the format, with its argument: `err` is `%E`, and `bad` ends the loop. -/
inductive FmtItem
  | basic (x : FmtBasic)
  | err (e : UInt32)
  | bad
  deriving DecidableEq, Repr

/-- What the modifiers set: the flags, and `swidth`. -/
structure FmtMods where
  hexlow : Bool := false
  hexup : Bool := false
  sep1000 : Bool := false
  swidth : Option ℕ
  deriving DecidableEq, Repr

/-- The loop over the modifiers; with `frac`, the digits behind a dot are passed. -/
def fmtMods (frac : Bool) (m : FmtMods) : List UInt8 → List FmtArg →
    Option (FmtMods × List UInt8 × List FmtArg)
  | [], args => some (m, [], args)
  | c :: fmt, args =>
    if frac = true ∧ ffcharIsdigit c = true then fmtMods true m fmt args
    else if c = 0x2a then
      match args with
      | .w64 v :: args =>
        fmtMods false
          { m with swidth := if v.toNat = 2 ^ 64 - 1 then none else some v.toNat } fmt args
      | _ => none
    else if c = 0x78 then fmtMods false { m with hexlow := true } fmt args
    else if c = 0x58 then fmtMods false { m with hexup := true } fmt args
    else if c = 0x2e then fmtMods true m fmt args
    else if c = 0x2c then fmtMods false { m with sep1000 := true } fmt args
    else some (m, c :: fmt, args)

/-- `from_int`: the flags for `ffs_fromint`. -/
def FmtMods.intFlags (m : FmtMods) (signed zero : Bool) (width : ℕ) : FromintFlags :=
  { signed := signed, hexlow := m.hexlow, hexup := m.hexup, zerowidth := zero,
    sep1000 := m.sep1000, width := UInt8.ofNat (min width 255) }

/-- The conversion `c` with its argument; `none` if the argument is of another type. -/
def fmtConv (zero : Bool) (width : ℕ) (m : FmtMods) (c : UInt8) (args : List FmtArg) :
    Option (FmtItem × List FmtArg) :=
  if c = 0x44 ∨ c = 0x49 then
    match args with
    | .w64 v :: args => some (.basic (.int v (m.intFlags true zero width)), args)
    | _ => none
  else if c = 0x55 ∨ c = 0x4c then
    match args with
    | .w64 v :: args => some (.basic (.int v (m.intFlags false zero width)), args)
    | _ => none
  else if c = 0x64 then
    match args with
    | .w32 v :: args =>
      some (.basic (.int v.toInt32.toInt64.toUInt64 (m.intFlags true zero width)), args)
    | _ => none
  else if c = 0x75 then
    match args with
    | .w32 v :: args => some (.basic (.int v.toUInt64 (m.intFlags false zero width)), args)
    | _ => none
  else if c = 0x70 then
    match args with
    | .w64 v :: args =>
      let width := if int64 v.toNat ≤ 0xffffffff then 8 else 16
      some (.basic (.int v ({ m with hexlow := true }.intFlags false true width)), args)
    | _ => none
  else if c = 0x73 ∨ c = 0x71 then
    match args with
    | .str s :: args =>
      let s := s.getD (ascii "(null)" ++ [0])
      match m.swidth with
      | none => some (.basic (.copyz s), args)
      | some n => if n ≤ s.length then some (.basic (.copy (s.take n)), args) else none
    | _ => none
  else if c = 0x53 ∨ c = 0x51 then
    match args with
    | .ffstr s :: args => some (.basic (.copy s), args)
    | _ => none
  else if c = 0x62 then
    match m.swidth with
    | none => some (.bad, args)
    | some n =>
      match args with
      | .str (some s) :: args =>
        if n ≤ s.length then some (.basic (.hex (s.take n) m.hexup), args) else none
      | _ => none
  else if c = 0x45 then
    match args with
    | .w32 e :: args => some (.err e, args)
    | _ => none
  else if c = 0x63 then
    match args with
    | .w32 v :: args =>
      some (.basic (.copy (List.replicate (m.swidth.getD 1) v.toUInt8)), args)
    | _ => none
  else if c = 0x5a then some (.basic (.copy [0]), args)
  else if c = 0x25 then some (.basic (.copy [0x25]), args)
  else if c = 0x46 then none
  else some (.bad, args)

/-- **The functions of the system**: `fferr_opstr`, and `fferr_str` with its status and the bytes
that it writes into a buffer of this size. It writes the message with a zero byte if there is room
for it, and fails if there is not; the buffer `tmp` is large enough for it. -/
structure FErr where
  opstr : UInt32 → List UInt8
  msg : UInt32 → List UInt8
  str : UInt32 → ℕ → Bool × List UInt8
  str_ok : ∀ e cap, (msg e).length < cap → str e cap = (true, msg e ++ [0])
  str_short : ∀ e cap, cap ≤ (msg e).length → (str e cap).1 = false ∧ (str e cap).2.length ≤ cap
  msg_small : ∀ e, (msg e).length < 256
  msg_nonzero : ∀ e, 0 ∉ msg e

/-- One conversion behind the `%`, with what is left of the format and the arguments. -/
def fmtDirective (err : FErr) (fmt : List UInt8) (args : List FmtArg) :
    Option (FmtItem × List UInt8 × List FmtArg) :=
  let zero := fmt.head? == some 0x30
  let fmt := if zero then fmt.tail else fmt
  let width := fmWidth fmt
  let m : FmtMods := { swidth := if width ≠ 0 then some width else none }
  match fmtMods false m (fmt.dropWhile ffcharIsdigit) args with
  | none => none
  | some (_, [], args) => some (.bad, [], args)
  | some (m, c :: fmt, args) =>
    if c = 0x65 then
      match args with
      | .w32 e :: args => some (.basic (.copyz (err.opstr e)), fmt, args)
      | _ => none
    else (fmtConv zero width m c args).map fun out => (out.1, fmt, out.2)

/-- **The format and matching arguments**, as the loop reads them. -/
inductive FmtReads (err : FErr) : List UInt8 → List FmtArg → List FmtItem → Prop
  | nil {args : List FmtArg} : FmtReads err [] args []
  | char {c : UInt8} {fmt : List UInt8} {args : List FmtArg} {items : List FmtItem}
      (hc : c ≠ 0x25) (h : FmtReads err fmt args items) :
      FmtReads err (c :: fmt) args (.basic (.copy [c]) :: items)
  | conv {fmt fmt' : List UInt8} {args args' : List FmtArg} {x : FmtItem} {items : List FmtItem}
      (hx : fmtDirective err fmt args = some (x, fmt', args')) (hbad : x ≠ .bad)
      (h : FmtReads err fmt' args' items) : FmtReads err (0x25 :: fmt) args (x :: items)
  | bad {fmt fmt' : List UInt8} {args args' : List FmtArg}
      (hx : fmtDirective err fmt args = some (.bad, fmt', args')) :
      FmtReads err (0x25 :: fmt) args [.bad]

theorem fmtReads_unique {err : FErr} {fmt : List UInt8} {args : List FmtArg}
    {items items' : List FmtItem} (h : FmtReads err fmt args items)
    (h' : FmtReads err fmt args items') : items = items' := by
  induction h generalizing items' with
  | nil =>
    cases h'
    rfl
  | char hc _ ih =>
    cases h' with
    | char _ h' => rw [ih h']
    | conv _ _ _ => exact absurd rfl hc
    | bad _ => exact absurd rfl hc
  | conv hx hbad _ ih =>
    cases h' with
    | char hc _ => exact absurd rfl hc
    | conv hx' _ h' =>
      obtain ⟨rfl, rest⟩ := Prod.mk.inj (Option.some.inj (hx.symm.trans hx'))
      obtain ⟨rfl, rfl⟩ := Prod.mk.inj rest
      rw [ih h']
    | bad hx' =>
      exact absurd (congrArg Prod.fst (Option.some.inj (hx.symm.trans hx'))) hbad
  | bad hx =>
    cases h' with
    | char hc _ => exact absurd rfl hc
    | conv hx' hbad _ =>
      exact absurd (congrArg Prod.fst (Option.some.inj (hx'.symm.trans hx))) hbad
    | bad _ => rfl

/-! ### The buffer -/

/-- The buffer, the place `buf` in it, and the local `len`. -/
structure FmtBuf where
  mem : List UInt8
  pos : ℕ
  len : ℕ
  deriving DecidableEq, Repr

/-- Bytes written at `pos`. -/
def fmtPut (mem : List UInt8) (pos : ℕ) (bs : List UInt8) : List UInt8 :=
  mem.take pos ++ bs ++ mem.drop (pos + bs.length)

/-- The text of bytes in hexadecimal digits. -/
def hexText (bs : List UInt8) (up : Bool) : List UInt8 :=
  bs.flatMap fun b => ffsHexbyte b (if up then ffHEX else ffhex)

/-- `ffs_hexstr`: nothing is written if there is no room. -/
def ffsHexstr (cap : ℕ) (bs : List UInt8) (up : Bool) : List UInt8 :=
  if cap < bs.length * 2 then [] else hexText bs up

/-- One conversion in a buffer of `cap` bytes; `none` if it writes over the end. -/
def fmtBasic (cap : ℕ) (b : FmtBuf) : FmtBasic → Option FmtBuf
  | .copy bs =>
    let n := min (cap - b.pos) bs.length
    some ⟨fmtPut b.mem b.pos (bs.take n), b.pos + n, b.len + bs.length⟩
  | .copyz bs =>
    let s := bs.takeWhile (· != 0)
    let n := min (cap - b.pos) s.length
    some ⟨fmtPut b.mem b.pos (s.take n), b.pos + n,
      b.len + if b.pos + n ≠ cap then n else s.length⟩
  | .int num f =>
    (ffsFromintFlags num.toNat (cap - b.pos) f).map fun out =>
      ⟨fmtPut b.mem b.pos out.2, b.pos + out.1,
        b.len + if b.pos + out.1 ≠ cap then out.1 else max f.width.toNat 20⟩
  | .hex bs up =>
    let s := ffsHexstr (cap - b.pos) bs up
    some ⟨fmtPut b.mem b.pos s, if b.pos ≠ cap then b.pos + s.length else b.pos,
      b.len + bs.length * 2⟩

/-- The conversions of a format that has no `%E`. -/
def fmtBasics (cap : ℕ) (b : FmtBuf) : List FmtBasic → Option FmtBuf
  | [] => some b
  | x :: xs => (fmtBasic cap b x).bind fun b => fmtBasics cap b xs

/-- The format `(%u) ` of `%E`. -/
def errFmt (e : UInt32) : List FmtBasic :=
  [.copy [0x28], .int e.toUInt64 {}, .copy [0x29], .copy [0x20]]

/-- `%E` -/
def fmtErr (err : FErr) (cap : ℕ) (b : FmtBuf) (e : UInt32) : Option FmtBuf :=
  (fmtBasics cap { b with len := 0 } (errFmt e)).map fun b' =>
    if b'.pos = cap then
      -- the call for the number returns `-(len + 1)`
      ⟨b'.mem, cap,
        b.len + (b'.len + 1) + ((err.str e 256).2.takeWhile (· != 0)).length⟩
    else
      let out := err.str e (cap - b'.pos)
      let mem := fmtPut b'.mem b'.pos out.2
      if out.1 then
        let n := ((mem.drop b'.pos).takeWhile (· != 0)).length
        ⟨mem, b'.pos + n, b.len + (b'.pos - b.pos + n)⟩
      else ⟨mem, cap, b.len + 255⟩

/-- The loop of `ffs_fmtv2`, and the result; `none` if it writes over the end of the buffer. -/
def fmtLoop (err : FErr) (cap : ℕ) : FmtBuf → List FmtItem → Option (ℤ × List UInt8)
  | b, [] =>
    some (if b.pos = cap then -int64 ((b.len + 1) % 2 ^ 64) else b.pos, b.mem)
  | b, .basic x :: items => (fmtBasic cap b x).bind fun b => fmtLoop err cap b items
  | b, .err e :: items => (fmtErr err cap b e).bind fun b => fmtLoop err cap b items
  | b, .bad :: _ => some (0, b.mem)

/-- `ffs_fmtv2` for what has been read of the format and the arguments, in the buffer `mem`. -/
def ffsFmtv2 (err : FErr) (mem : List UInt8) (items : List FmtItem) : Option (ℤ × List UInt8) :=
  fmtLoop err mem.length ⟨mem, 0, 0⟩ items

end FF
