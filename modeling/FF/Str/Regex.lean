import FF.Ffstring
import FF.Lib.Runs

/-!
# Regular expressions

The loop of `ffs_regex` with the state that it keeps between two bytes of the expression, and the
language that an expression stands for. There is no way back in the string: an optional element
takes a byte if it can, and a mismatch is remembered until a `?` may forgive it.
-/

namespace FF

open List

/-! ### The function -/

/-- `enum RX_ST` -/
inductive RxSt
  | matched
  | nmatch1
  | nmatch
  | bracket1
  | bracket
  | bracketRange
  | bracket2
  deriving DecidableEq, Repr

/-- `struct rx_s` with its `struct brkt_s`: the state, the rest of the input, then `prev`,
`last_state` and `match` of the bracket, and `esc`. -/
structure Rx where
  st : RxSt
  input : List UInt8
  prev : UInt8
  lastState : RxSt
  found : Bool
  esc : Bool
  deriving DecidableEq, Repr

/-- `RX_ESC_CHARS` -/
def rxEscChars : List UInt8 := [0x5c, 0x2e, 0x7c, 0x3f, 0x5b, 0x2d, 0x5d]

/-- The order of `char`, which has a sign. -/
def charLe (a b : UInt8) : Bool := decide (a.toInt8 ≤ b.toInt8)

/-- A byte of a bracket against the input. -/
def regexMember (r : Rx) (c : UInt8) : Rx :=
  let r :=
    if r.lastState ≠ .matched ∨ r.found = true then r
    else
      match r.input with
      | [] => { r with lastState := .nmatch1 }
      | d :: input =>
        if r.st = .bracketRange then
          if charLe r.prev d && charLe d c then { r with input := input, found := true } else r
        else if c = d then { r with prev := c, input := input, found := true }
        else r
  { r with st := .bracket2 }

/-- `basic` of `_ffs_regex_bracket`: the next state, and the expression behind it. -/
def regexBasic (r : Rx) (c : UInt8) (rx : List UInt8) : Rx × List UInt8 :=
  if r.st = .bracket1 ∨ r.st = .bracket2 then
    if rx.head? = some 0x2d then ({ r with prev := c, st := .bracketRange }, rx.tail)
    else (regexMember { r with st := .bracket } c, rx)
  else (regexMember r c, rx)

/-- `_ffs_regex_bracket`; `none` for an invalid expression. -/
def ffsRegexBracket (r : Rx) (c : UInt8) (rx : List UInt8) : Option (Rx × List UInt8) :=
  if r.esc then
    if c ∈ rxEscChars then some (regexBasic { r with esc := false } c rx) else none
  else if c = 0x5c then some ({ r with esc := true }, rx)
  else if c = 0x5d then
    if r.st ≠ .bracket2 then none
    else if r.lastState = .matched ∧ r.found = false then some ({ r with st := .nmatch1 }, rx)
    else some ({ r with st := r.lastState, found := false }, rx)
  else if (c = 0x5b ∧ r.st ≠ .bracket1) ∨ c = 0x7c ∨ c = 0x2e ∨ c = 0x3f then none
  else if c = 0x2d then
    if r.st = .bracket2 ∨ r.st = .bracket then some ({ r with st := .bracketRange }, rx) else none
  else some (regexBasic r c rx)

/-- `basic` of `ffs_regex`. -/
def regexChar (r : Rx) (c : UInt8) : Rx :=
  if r.st = .matched then
    match r.input with
    | [] => { r with st := .nmatch1 }
    | d :: input => if c = d then { r with input := input } else { r with st := .nmatch1 }
  else if r.st = .nmatch1 then { r with st := .nmatch }
  else r

/-- The state is one of those within brackets. -/
def RxSt.inBracket (st : RxSt) : Bool :=
  st == .bracket1 || st == .bracket || st == .bracketRange || st == .bracket2

/-- One byte of the expression: what is returned, or the next state and the expression behind. -/
def regexByte (s : List UInt8) (r : Rx) (c : UInt8) (rx : List UInt8) :
    ℤ ⊕ Rx × List UInt8 :=
  if r.st.inBracket then
    match ffsRegexBracket r c rx with
    | none => .inl (-1)
    | some next => .inr next
  else if r.esc then
    if c ∈ rxEscChars then .inr (regexChar { r with esc := false } c, rx) else .inl (-1)
  else if c = 0x5c then .inr ({ r with esc := true }, rx)
  else if c = 0x3f then
    -- the previous element was optional
    .inr (if r.st = .nmatch1 then { r with st := .matched } else r, rx)
  else if c = 0x5b then .inr ({ r with lastState := r.st, st := .bracket1 }, rx)
  else if c = 0x5d then .inl (-1)
  else if c = 0x7c then
    if r.st = .matched ∧ r.input = [] then .inl 0
    else .inr ({ r with input := s, st := .matched }, rx)
  else if c = 0x2e ∧ r.st = .matched then
    match r.input with
    | [] => .inr ({ r with st := .nmatch1 }, rx)
    | _ :: input => .inr ({ r with input := input }, rx)
  else .inr (regexChar r c, rx)

/-- The loop of `ffs_regex`; the only event is the result. -/
def regexMove (s : List UInt8) (w : Rx × List UInt8) : List ℤ × Option (Rx × List UInt8) :=
  match w.2 with
  | [] =>
    ([if w.1.st = .matched then if w.1.input = [] then 0 else 1
      else if w.1.st = .nmatch ∨ w.1.st = .nmatch1 then 1 else -1], none)
  | c :: rx =>
    match regexByte s w.1 c rx with
    | .inl n => ([n], none)
    | .inr next => ([], some next)

/-- The state at the begin. -/
def Rx.start (s : List UInt8) : Rx := ⟨.matched, s, 0, .matched, false, false⟩

/-- **`ffs_regex` returns `n`.** -/
def FfsRegex (regexp s : List UInt8) (n : ℤ) : Prop :=
  RunEnds (regexMove s) (Rx.start s, regexp) [n]

/-! ### The syntax -/

/-- A character outside brackets: a special one is escaped; a `-` may be. -/
structure RxLit where
  c : UInt8
  esc : Bool
  ok : if esc then c ∈ rxEscChars else c = 0x2d ∨ c ∉ rxEscChars

/-- A character within brackets: a special one is escaped. -/
structure RxSetLit where
  c : UInt8
  esc : Bool
  ok : if esc then c ∈ rxEscChars else c ∉ rxEscChars

/-- A character or a range within brackets. -/
inductive RxMember
  | one (a : RxSetLit)
  | range (a b : RxSetLit)

/-- What an element of the expression is without its `?`. -/
inductive RxAtom
  | lit (a : RxLit)
  | any
  | set (m : RxMember) (ms : List RxMember)

/-- An element of the expression. -/
structure RxElem where
  atom : RxAtom
  opt : Bool

/-- **A well-formed expression**: alternatives of elements. -/
structure RxPattern where
  first : List RxElem
  rest : List (List RxElem)

/-- A character as it is written. -/
def rxCharText (esc : Bool) (c : UInt8) : List UInt8 := if esc then [0x5c, c] else [c]

/-- The text of a member of a set. -/
def RxMember.text : RxMember → List UInt8
  | .one a => rxCharText a.esc a.c
  | .range a b => rxCharText a.esc a.c ++ 0x2d :: rxCharText b.esc b.c

/-- The text of an element without its `?`. -/
def RxAtom.text : RxAtom → List UInt8
  | .lit a => rxCharText a.esc a.c
  | .any => [0x2e]
  | .set m ms => 0x5b :: ((m :: ms).flatMap RxMember.text ++ [0x5d])

/-- The text of an element. -/
def RxElem.text (e : RxElem) : List UInt8 := e.atom.text ++ if e.opt then [0x3f] else []

/-- The text of an alternative. -/
def altText (es : List RxElem) : List UInt8 := es.flatMap RxElem.text

/-- **The text of an expression.** -/
def RxPattern.text (p : RxPattern) : List UInt8 :=
  altText p.first ++ p.rest.flatMap fun es => 0x7c :: altText es

/-! ### The language -/

/-- The bytes that a member of a set stands for. -/
def RxMember.has (d : UInt8) : RxMember → Bool
  | .one a => a.c == d
  | .range a b => charLe a.c d && charLe d b.c

/-- The bytes that an element stands for. -/
def RxAtom.has (d : UInt8) : RxAtom → Bool
  | .lit a => a.c == d
  | .any => true
  | .set m ms => (m :: ms).any (RxMember.has d)

/-- The string begins with a byte of the element. -/
def RxElem.Starts (e : RxElem) (s : List UInt8) : Prop := ∃ d t, s = d :: t ∧ e.atom.has d = true

/-- **The strings of an alternative**: an optional element takes a byte or none. -/
inductive AltHas : List RxElem → List UInt8 → Prop
  | nil : AltHas [] []
  | take {e : RxElem} {es : List RxElem} {d : UInt8} {s : List UInt8} (hd : e.atom.has d = true)
      (h : AltHas es s) : AltHas (e :: es) (d :: s)
  | skip {e : RxElem} {es : List RxElem} {s : List UInt8} (hopt : e.opt = true)
      (h : AltHas es s) : AltHas (e :: es) s

/-- **The language of an expression.** -/
def RxPattern.Has (p : RxPattern) (s : List UInt8) : Prop :=
  AltHas p.first s ∨ ∃ es ∈ p.rest, AltHas es s

/-! ### One pass -/

/-- The element is a set. -/
def RxAtom.isSet : RxAtom → Bool
  | .set _ _ => true
  | _ => false

/-- **A reading in one pass.** An optional element takes a byte whenever it can. Where an element
that must be there is not, only sets may follow it, of which an optional one forgives the mismatch;
the last argument tells if this happens. -/
inductive AltReads : List RxElem → List UInt8 → Bool → Prop
  | nil : AltReads [] [] false
  | take {e : RxElem} {es : List RxElem} {d : UInt8} {s : List UInt8} {b : Bool}
      (hd : e.atom.has d = true) (h : AltReads es s b) : AltReads (e :: es) (d :: s) b
  | skip {e : RxElem} {es : List RxElem} {s : List UInt8} {b : Bool} (hopt : e.opt = true)
      (hs : ¬e.Starts s) (h : AltReads es s b) : AltReads (e :: es) s b
  | forgive {e f : RxElem} {sets es : List RxElem} {s : List UInt8} {b : Bool}
      (hopt : e.opt = false) (hs : ¬e.Starts s)
      (hsets : ∀ g ∈ sets, g.atom.isSet = true ∧ g.opt = false) (hf : f.atom.isSet = true)
      (hfopt : f.opt = true) (h : AltReads es s b) : AltReads (e :: (sets ++ f :: es)) s true

/-- Some alternative is read in one pass, without a forgiven mismatch or with one. -/
def RxPattern.Reads (p : RxPattern) (s : List UInt8) (b : Bool) : Prop :=
  AltReads p.first s b ∨ ∃ es ∈ p.rest, AltReads es s b

/-! ### Readings and the language -/

theorem altReads_sound {es : List RxElem} {s : List UInt8} {b : Bool} (h : AltReads es s b)
    (hb : b = false) : AltHas es s := by
  induction h with
  | nil => exact .nil
  | take hd _ ih => exact .take hd (ih hb)
  | skip hopt _ _ ih => exact .skip hopt (ih hb)
  | forgive => exact absurd hb (by decide)

theorem altReads_forgiven {es : List RxElem} {s : List UInt8} {b : Bool} (h : AltReads es s b)
    (hplain : ∀ e ∈ es, e.opt = false) : b = false := by
  induction h with
  | nil => rfl
  | take _ _ ih => exact ih fun e he => hplain e (mem_cons_of_mem _ he)
  | skip hopt _ _ _ =>
    exact absurd ((hplain _ mem_cons_self).symm.trans hopt) Bool.false_ne_true
  | forgive _ _ _ _ hfopt _ _ =>
    have hf := hplain _ (mem_cons_of_mem _ (mem_append_right _ mem_cons_self))
    exact absurd (hf.symm.trans hfopt) Bool.false_ne_true

/-- **Without optional elements**, the readings are the language. -/
theorem altReads_plain {es : List RxElem} {s : List UInt8} (hplain : ∀ e ∈ es, e.opt = false) :
    (∃ b, AltReads es s b) ↔ AltHas es s := by
  constructor
  · rintro ⟨b, h⟩
    exact altReads_sound h (altReads_forgiven h hplain)
  intro h
  induction h with
  | nil => exact ⟨false, .nil⟩
  | take hd _ ih =>
    obtain ⟨b, h⟩ := ih fun e he => hplain e (mem_cons_of_mem _ he)
    exact ⟨b, .take hd h⟩
  | skip hopt _ _ =>
    exact absurd ((hplain _ mem_cons_self).symm.trans hopt) Bool.false_ne_true

end FF
