import FF.Number

/-!
# The pointer ring

`ffring` is a circular array of pointers that threads write to and read from at the same time.
A thread inside of a call is at one of the places of `RingPc`, between two accesses to shared
memory; `ringStep` is one access together with the work on the thread's own variables that
follows it. Memory is sequentially consistent, so that the fences do nothing.

A writer reserves a slot by moving `whead`, stores the element, waits for the writers before it
and moves `wtail`. A reader copies an element and takes it by moving `r`.
-/

namespace FF

/-- `struct ffring`, with the memory that `d` points to. -/
structure Ffring (α : Type*) where
  d : List α
  cap : ℕ
  whead : ℕ
  wtail : ℕ
  r : ℕ
  deriving DecidableEq, Repr

/-- The state after `ffring_create` of a zeroed structure with the memory `d` for the array:
`none` where the assertion fails. -/
def ffringCreate {α : Type*} (d : List α) (size : ℕ) : Option (Ffring α) :=
  if 0 = size &&& (size - 1) then some ⟨d, size, 0, 0, 0⟩ else none

/-- What a call returns: 0 or -1 from a write, 0 and an element or -1 from a read. -/
inductive RingRes (α : Type*)
  | written
  | full
  | value (p : α)
  | empty
  deriving DecidableEq, Repr

/-- The places in `_ffring_write` and `ffring_read` before an access to shared memory, with the
local variables that are still needed. -/
inductive RingPc (α : Type*)
  /-- `head_old = ffatom_get(&r->whead)` -/
  | getHead (p : α) (single : Bool)
  /-- `head_new == ffatom_get(&r->r)` -/
  | getR (p : α) (single : Bool) (headOld : ℕ)
  /-- `ffatom_cmpset(&r->whead, head_old, head_new)` -/
  | casHead (p : α) (headOld : ℕ)
  /-- `r->d[head_old] = p` -/
  | store (p : α) (single : Bool) (headOld : ℕ)
  /-- `ffatom_get(&r->wtail) != head_old` -/
  | waitTail (headOld : ℕ)
  /-- `ffatom_set(&r->wtail, head_new)` -/
  | setTail (headOld : ℕ)
  /-- `rr = ffatom_get(&r->r)` -/
  | readR
  /-- `rr == ffatom_get(&r->wtail)` -/
  | readTail (rr : ℕ)
  /-- `rc = r->d[rr]` -/
  | copy (rr : ℕ)
  /-- `ffatom_cmpset(&r->r, rr, rnew)` -/
  | casR (rr : ℕ) (rc : α)
  /-- The call has returned. -/
  | ret (res : RingRes α)
  deriving DecidableEq, Repr

section Step

variable {α : Type*}

/-- One access to shared memory. An access outside of the array is a fault. -/
def ringStep (s : Ffring α) : RingPc α → Option (Ffring α × RingPc α)
  | .getHead p single => some (s, .getR p single s.whead)
  | .getR p single headOld =>
    if ffintIncreset2 headOld s.cap = s.r then some (s, .ret .full)
    else if single then some (s, .store p single headOld)
    else some (s, .casHead p headOld)
  | .casHead p headOld =>
    if s.whead = headOld then
      some ({ s with whead := ffintIncreset2 headOld s.cap }, .store p false headOld)
    else some (s, .getHead p false)
  | .store p single headOld =>
    if headOld < s.d.length then
      some ({ s with d := s.d.set headOld p },
        if single then .setTail headOld else .waitTail headOld)
    else none
  | .waitTail headOld =>
    if s.wtail ≠ headOld then some (s, .waitTail headOld) else some (s, .setTail headOld)
  | .setTail headOld =>
    some ({ s with wtail := ffintIncreset2 headOld s.cap }, .ret .written)
  | .readR => some (s, .readTail s.r)
  | .readTail rr => if rr = s.wtail then some (s, .ret .empty) else some (s, .copy rr)
  | .copy rr =>
    match s.d[rr]? with
    | none => none
    | some rc => some (s, .casR rr rc)
  | .casR rr rc =>
    if s.r = rr then some ({ s with r := ffintIncreset2 rr s.cap }, .ret (.value rc))
    else some (s, .readR)
  | .ret res => some (s, .ret res)

/-- The calls of a user. -/
inductive RingOp (α : Type*)
  | write (p : α)
  | writeExcl (p : α)
  | read
  deriving DecidableEq, Repr

/-- Where a call begins: `ffring_write` and `ffring_write_excl` are `_ffring_write` with
`single` 0 and 1. -/
def RingOp.start : RingOp α → RingPc α
  | .write p => .getHead p false
  | .writeExcl p => .getHead p true
  | .read => .readR

end Step

end FF
