import FF.Json.Calls

/-!
# The JSON writer with a growing buffer

`ffjson_bufadd` and `ffjson_bufaddv` run the writer without a buffer to count the bytes, restore the
state, make room and run the writer again. The count leaves out the line feeds of all entities but
the first, since `ST_LF` is only set by a call that writes; it is an `int`; and the context stack is
restored in its length only.
-/

namespace FF

open List Option

variable {alloc : ℕ → Bool}

/-- `ffjson_addvv`, from the return value `ret` on. -/
def ffjsonAddvv (alloc : ℕ → Bool) (c : FfjsonCook) (ret : ℤ) :
    List (JsonF × JsonEntity) → FfjsonCook × ℤ
  | [] => (c, ret)
  | (f, e) :: calls =>
    let r := (ffjsonAdd alloc c f e).2
    let c := (ffjsonAdd alloc c f e).1
    if r = FFJSON_OK then ffjsonAddvv alloc c ret calls
    else if r < 0 then ffjsonAddvv alloc c ((ret + r).bmod (2 ^ 32)) calls
    else (c, r)

/-- `ffarr_null` on the buffer. -/
def cookNull (c : FfjsonCook) : FfjsonCook := { c with nobuf := true, buf := [], cap := 0 }

/-- The state, the buffer and the length of the context stack are those of `tmp` again. -/
def cookRestore (c tmp : FfjsonCook) : FfjsonCook where
  nobuf := tmp.nobuf
  buf := tmp.buf
  cap := tmp.cap
  st := tmp.st
  ctxs := { c.ctxs with len := tmp.ctxs.len }
  gflags := c.gflags

/-- The capacity that `ffarr_grow` asks for, with `FFARR_GROWQUARTER` or without. -/
def growCap (quarter : Bool) (len n : ℕ) : ℕ :=
  len + max (if quarter then (len + n) / 4 else 0) n

/-- `ffarr_grow` on the buffer. -/
def cookGrow (alloc : ℕ → Bool) (quarter : Bool) (c : FfjsonCook) (n : ℕ) : Option FfjsonCook :=
  if c.cap ≥ c.buf.length + n then some c
  else if alloc (growCap quarter c.buf.length n) then
    some { c with nobuf := false, cap := growCap quarter c.buf.length n }
  else none

/-- What is common to `ffjson_bufadd` and `ffjson_bufaddv`, where `add` is the run of the writer. -/
def bufaddWith (alloc : ℕ → Bool) (quarter : Bool) (add : FfjsonCook → FfjsonCook × ℤ)
    (c : FfjsonCook) : FfjsonCook × ℤ :=
  let r := (add (cookNull c)).2
  let c := cookRestore (add (cookNull c)).1 c
  if r ≥ 0 then (c, r)
  else
    match cookGrow alloc quarter c ((-r).toNat + 1) with
    | none => (c, FFJSON_ERR)
    | some c => add c

/-- `ffjson_bufadd` -/
def ffjsonBufadd (alloc : ℕ → Bool) (c : FfjsonCook) (f : JsonF) (e : JsonEntity) :
    FfjsonCook × ℤ :=
  bufaddWith alloc true (fun c => ffjsonAdd alloc c f e) c

/-- `ffjson_bufaddv` -/
def ffjsonBufaddv (alloc : ℕ → Bool) (c : FfjsonCook) (calls : List (JsonF × JsonEntity)) :
    FfjsonCook × ℤ :=
  bufaddWith alloc false (fun c => ffjsonAddvv alloc c 0 calls) c

/-! ### Counting -/

/-- The bytes that are counted for each entity, up to the first that is refused, and the context
stack at the end. -/
def drySizes (alloc : ℕ → Bool) (g : JsonF) (st : CookSt) (ctxs : CtxArr) :
    List (JsonF × JsonEntity) → List ℕ × Option CtxArr
  | [] => ([], some ctxs)
  | (f, e) :: calls =>
    match entNext alloc (f.or g) st ctxs e with
    | none => ([], none)
    | some (st', ctxs') =>
      (entSize (f.or g) st ctxs.len e :: (drySizes alloc g st' ctxs' calls).1,
        (drySizes alloc g st' ctxs' calls).2)

/-- The sum of the counted bytes as a negative `int`, from `ret` on. An `int` that overflows into
the positive numbers passes for a code. -/
def countCode (refused : Bool) (ret : ℤ) : List ℕ → ℤ
  | [] => if refused then FFJSON_ERR else ret
  | n :: ns =>
    let r := (-(n : ℤ)).bmod (2 ^ 32)
    if r = FFJSON_OK then countCode refused ret ns
    else if r < 0 then countCode refused ((ret + r).bmod (2 ^ 32)) ns
    else r

/-- **The run without a buffer** counts the bytes; where it gets to the end, the context stack is
the one that the writer would have. -/
theorem ffjsonAddvv_count {c : FfjsonCook} (hn : c.nobuf = true) (hbuf : c.buf = []) (hcap : c.cap = 0)
    (ret : ℤ) (calls : List (JsonF × JsonEntity)) :
    ∃ st ctxs, ffjsonAddvv alloc c ret calls = ({ c with st := st, ctxs := ctxs },
        countCode (drySizes alloc c.gflags c.st c.ctxs calls).2.isNone ret
          (drySizes alloc c.gflags c.st c.ctxs calls).1) ∧
      ∀ ctxs', (drySizes alloc c.gflags c.st c.ctxs calls).2 = some ctxs' →
        (ffjsonAddvv alloc c ret calls).2 ≤ 0 → ctxs = ctxs' := by
  induction calls generalizing c ret with
  | nil =>
    refine ⟨c.st, c.ctxs, rfl, fun ctxs' h _ => ?_⟩
    exact some.inj h
  | cons call calls ih =>
    obtain ⟨f, e⟩ := call
    have hspec := ffjsonAdd_spec alloc (c := c) ⟨fun _ => ⟨hbuf, hcap⟩, by simp [hbuf]⟩ f e
    simp only [drySizes, ffjsonAddvv]
    cases hnext : entNext alloc (f.or c.gflags) c.st c.ctxs e with
    | none =>
      rw [hnext] at hspec
      have hadd : ffjsonAdd alloc c f e = (c, FFJSON_ERR) := hspec
      refine ⟨c.st, c.ctxs, ?_, fun ctxs' h => by cases h⟩
      rw [hadd]
      rfl
    | some r =>
      obtain ⟨st', ctxs'⟩ := r
      rw [hnext] at hspec
      obtain ⟨code, hcode⟩ : ∃ code, code =
        (-(entSize (f.or c.gflags) c.st c.ctxs.len e : ℤ)).bmod (2 ^ 32) := ⟨_, rfl⟩
      have hadd : ffjsonAdd alloc c f e = ({ c with st := st', ctxs := ctxs' }, code) := by
        rw [hspec, hcode]
        simp only [addResult, addDone, hn, if_true]
      simp only [hadd, countCode, ← hcode]
      by_cases h0 : code = FFJSON_OK
      · simp only [if_pos h0]
        exact ih (c := { c with st := st', ctxs := ctxs' }) hn hbuf hcap ret
      simp only [if_neg h0]
      by_cases hneg : code < 0
      · simp only [if_pos hneg]
        exact ih (c := { c with st := st', ctxs := ctxs' }) hn hbuf hcap _
      · simp only [if_neg hneg]
        refine ⟨st', ctxs', rfl, fun _ _ hle => ?_⟩
        simp only [FFJSON_OK] at h0
        omega

/-! ### The context stack -/

/-- The context stack behind an entity; `none` where the call is refused. -/
def ctxStep (alloc : ℕ → Bool) (ctxs : CtxArr) : JsonEntity → Option CtxArr
  | .obj close => (ctxNext alloc ctxs .obj close).map Prod.snd
  | .arr close => (ctxNext alloc ctxs .arr close).map Prod.snd
  | .other => none
  | _ => some ctxs

/-- The context stack behind a run of calls. -/
def ctxRun (alloc : ℕ → Bool) (ctxs : CtxArr) : List (JsonF × JsonEntity) → Option CtxArr
  | [] => some ctxs
  | (_, e) :: calls => (ctxStep alloc ctxs e).bind fun ctxs => ctxRun alloc ctxs calls

theorem entNext_ctxs (f : JsonF) (st : CookSt) (ctxs : CtxArr) (e : JsonEntity) :
    (entNext alloc f st ctxs e).map Prod.snd = ctxStep alloc ctxs e := by
  cases e <;> rfl

theorem drySizes_ctxs (g : JsonF) (st : CookSt) (ctxs : CtxArr) (calls : List (JsonF × JsonEntity)) :
    (drySizes alloc g st ctxs calls).2 = ctxRun alloc ctxs calls := by
  induction calls generalizing st ctxs with
  | nil => rfl
  | cons call calls ih =>
    obtain ⟨f, e⟩ := call
    rw [ctxRun, ← entNext_ctxs (f.or g) st, drySizes]
    cases entNext alloc (f.or g) st ctxs e with
    | none => rfl
    | some r => exact ih r.1 r.2

theorem entRun_ctxs (g : JsonF) (st : CookSt) (ctxs : CtxArr) (calls : List (JsonF × JsonEntity)) :
    (entRun alloc g st ctxs calls).map (fun r => r.2.2) = ctxRun alloc ctxs calls := by
  induction calls generalizing st ctxs with
  | nil => rfl
  | cons call calls ih =>
    obtain ⟨f, e⟩ := call
    rw [ctxRun, ← entNext_ctxs (f.or g) st, entRun]
    cases entNext alloc (f.or g) st ctxs e with
    | none => rfl
    | some r =>
      obtain ⟨st₁, ctxs₁⟩ := r
      simp only [map_some, bind_some, ← ih { st₁ with lf := true } ctxs₁]
      cases entRun alloc g { st₁ with lf := true } ctxs₁ calls <;> rfl

/-- A context stack is no longer than its memory. -/
def CtxArr.Valid (a : CtxArr) : Prop := a.len ≤ a.cells.length

theorem CtxArr.Valid.pop {a : CtxArr} (h : a.Valid) :
    CtxArr.Valid { a with len := a.len - 1 } :=
  Nat.le_trans (Nat.sub_le a.len 1) h

theorem CtxArr.back_eq {a : CtxArr} (h0 : a.len ≠ 0) : a.back = a.items[a.len - 1]? := by
  rw [CtxArr.back, CtxArr.items, getElem?_take, if_pos (by omega)]

/-- `ffarr_push` puts one more context on the stack and leaves the others. -/
theorem CtxArr.push_spec {a a' : CtxArr} (h : a.Valid) {x : FfjsonT}
    (hpush : a.push alloc x = some a') :
    a'.Valid ∧ a'.len = a.len + 1 ∧ a.cells.length ≤ a'.cells.length ∧ a'.items = a.items ++ [x] ∧
      ∀ j, j < a.len → a'.cells[j]? = a.cells[j]? := by
  simp only [CtxArr.Valid] at h
  simp only [CtxArr.push] at hpush
  by_cases hlt : a.cells.length < a.len + 1
  · have hlen : a.len = a.cells.length := by omega
    rw [if_pos hlt] at hpush
    by_cases halloc : alloc (a.len + 1) = true
    · rw [if_pos halloc] at hpush
      obtain rfl := some.inj hpush
      have hcells : a.cells.take a.len ++ [x] = a.cells ++ [x] := by
        rw [hlen, take_length]
      have hcount : (a.cells ++ [x]).length = a.len + 1 := by
        rw [length_append, length_singleton, hlen]
      simp only [hcells, CtxArr.Valid, CtxArr.items, hcount]
      refine ⟨Nat.le_refl _, trivial, by omega, take_of_length_le (by omega), fun j hj => ?_⟩
      exact getElem?_append_left (by omega)
    · rw [if_neg halloc] at hpush
      cases hpush
  rw [if_neg hlt] at hpush
  obtain rfl := some.inj hpush
  simp only [CtxArr.Valid, CtxArr.items, length_set]
  refine ⟨by omega, trivial, Nat.le_refl _, ?_, fun j hj => getElem?_set_ne (by omega)⟩
  rw [take_add_one, getElem?_set_self (by omega), take_set_of_le (Nat.le_refl _)]
  rfl

theorem CtxArr.push_some (halloc : ∀ n, alloc n = true) (a : CtxArr) (x : FfjsonT) :
    ∃ a', a.push alloc x = some a' := by
  simp only [CtxArr.push, halloc, if_true]
  by_cases hlt : a.cells.length < a.len + 1
  · exact ⟨_, if_pos hlt⟩
  · exact ⟨_, if_neg hlt⟩

theorem ctxNext_close {a a' : CtxArr} {type : FfjsonT} {st : CookSt}
    (h : ctxNext alloc a type true = some (st, a')) :
    a.len ≠ 0 ∧ a.back = some type ∧ a' = { a with len := a.len - 1 } := by
  simp only [ctxNext, if_true] at h
  by_cases hcond : a.len = 0 ∨ a.back ≠ some type
  · rw [if_pos hcond] at h
    cases h
  · rw [if_neg hcond] at h
    obtain ⟨h0, hback⟩ := not_or.mp hcond
    exact ⟨h0, not_not.mp hback, (Prod.ext_iff.mp (some.inj h)).2.symm⟩

theorem ctxNext_open {a a' : CtxArr} {type : FfjsonT} {st : CookSt}
    (h : ctxNext alloc a type false = some (st, a')) : a.push alloc type = some a' := by
  simp only [ctxNext, Bool.false_eq_true, if_false, map_eq_some_iff] at h
  obtain ⟨a₁, hpush, h⟩ := h
  exact hpush.trans (congrArg some (Prod.ext_iff.mp h).2)

theorem ctxStep_cases {a a' : CtxArr} {e : JsonEntity} (h : ctxStep alloc a e = some a') :
    (a' = a ∧ ∀ b, ctxStep alloc b e = some b) ∨
    (∃ type, a.len ≠ 0 ∧ a.back = some type ∧ a' = { a with len := a.len - 1 } ∧
      ∀ b, ctxStep alloc b e = (ctxNext alloc b type true).map Prod.snd) ∨
    (∃ type, a.push alloc type = some a' ∧
      ∀ b, ctxStep alloc b e = (ctxNext alloc b type false).map Prod.snd) := by
  have hctx : ∀ type close, (ctxNext alloc a type close).map Prod.snd = some a' →
      (∀ b, ctxStep alloc b e = (ctxNext alloc b type close).map Prod.snd) →
      (∃ type, a.len ≠ 0 ∧ a.back = some type ∧ a' = { a with len := a.len - 1 } ∧
        ∀ b, ctxStep alloc b e = (ctxNext alloc b type true).map Prod.snd) ∨
      (∃ type, a.push alloc type = some a' ∧
        ∀ b, ctxStep alloc b e = (ctxNext alloc b type false).map Prod.snd) := by
    intro type close hmap hb
    obtain ⟨⟨st, a₁⟩, hnext, rfl⟩ := map_eq_some_iff.mp hmap
    cases close with
    | true =>
      obtain ⟨h0, hback, ha⟩ := ctxNext_close hnext
      exact .inl ⟨type, h0, hback, ha, hb⟩
    | false => exact .inr ⟨type, ctxNext_open hnext, hb⟩
  cases e with
  | obj close => exact .inr (hctx .obj close h fun _ => rfl)
  | arr close => exact .inr (hctx .arr close h fun _ => rfl)
  | other => cases h
  | str s | int i | num s | bool b | null => exact .inl ⟨(some.inj h).symm, fun _ => rfl⟩

theorem ctxRun_valid {a a' : CtxArr} (h : a.Valid) {calls : List (JsonF × JsonEntity)}
    (hrun : ctxRun alloc a calls = some a') : a'.Valid ∧ a.cells.length ≤ a'.cells.length := by
  induction calls generalizing a with
  | nil =>
    obtain rfl := some.inj hrun
    exact ⟨h, Nat.le_refl _⟩
  | cons call calls ih =>
    obtain ⟨a₁, hstep, hrest⟩ := bind_eq_some_iff.mp hrun
    rcases ctxStep_cases hstep with ⟨rfl, -⟩ | ⟨type, h0, -, rfl, -⟩ | ⟨type, hpush, -⟩
    · exact ih h hrest
    · have := ih h.pop hrest
      exact this
    · obtain ⟨hval, -, hle, -⟩ := CtxArr.push_spec h hpush
      have := ih hval hrest
      exact ⟨this.1, Nat.le_trans hle this.2⟩

/-- **A context is replaced only after it has been closed**, so that a run that both stacks accept
replaces it only where they agree on it. -/
theorem ctxRun_cells {a b a' b' : CtxArr} (ha : a.Valid) (hb : b.Valid) (hlen : a.len = b.len)
    {calls : List (JsonF × JsonEntity)} (hruna : ctxRun alloc a calls = some a')
    (hrunb : ctxRun alloc b calls = some b') {j : ℕ} (hj : j < a.len) :
    a'.cells[j]? = a.cells[j]? ∨ a.cells[j]? = b.cells[j]? := by
  induction calls generalizing a b with
  | nil => exact .inl (by rw [some.inj hruna])
  | cons call calls ih =>
    obtain ⟨a₁, hstepa, hresta⟩ := bind_eq_some_iff.mp hruna
    obtain ⟨b₁, hstepb, hrestb⟩ := bind_eq_some_iff.mp hrunb
    rcases ctxStep_cases hstepa with
      ⟨rfl, hsame⟩ | ⟨type, h0, hback, rfl, hsame⟩ | ⟨type, hpush, hsame⟩
    · obtain rfl := some.inj ((hsame b).symm.trans hstepb)
      exact ih ha hb hlen hresta hrestb hj
    · rw [hsame b] at hstepb
      obtain ⟨⟨st, b₂⟩, hnext, rfl⟩ := map_eq_some_iff.mp hstepb
      obtain ⟨-, hbackb, rfl⟩ := ctxNext_close hnext
      by_cases hlast : j = a.len - 1
      · subst hlast
        refine .inr (hback.trans (hbackb.symm.trans ?_))
        rw [CtxArr.back, hlen]
      · have := ih ha.pop hb.pop (by simp only [hlen]) hresta hrestb (by simp only; omega)
        exact this
    rw [hsame b] at hstepb
    obtain ⟨⟨st, b₂⟩, hnext, rfl⟩ := map_eq_some_iff.mp hstepb
    obtain ⟨hvala, hlena, -, -, hcella⟩ := CtxArr.push_spec ha hpush
    obtain ⟨hvalb, hlenb, -, -, hcellb⟩ := CtxArr.push_spec hb (ctxNext_open hnext)
    have := ih hvala hvalb (by rw [hlena, hlenb, hlen]) hresta hrestb (by omega)
    rwa [hcella j hj, hcellb j (hlen ▸ hj)] at this

/-- Two context stacks with the same open contexts. -/
structure CtxSame (a b : CtxArr) : Prop where
  left : a.Valid
  right : b.Valid
  len : a.len = b.len
  items : a.items = b.items

theorem CtxSame.back {a b : CtxArr} (h : CtxSame a b) (h0 : a.len ≠ 0) : a.back = b.back := by
  rw [CtxArr.back_eq h0, CtxArr.back_eq (h.len ▸ h0), h.items, h.len]

theorem CtxSame.scalarNext {a b : CtxArr} (h : CtxSame a b) (st : CookSt) :
    FF.scalarNext st a = FF.scalarNext st b := by
  simp only [FF.scalarNext, ← h.len]
  by_cases h0 : a.len = 0
  · simp [h0]
  · rw [h.back h0]

theorem CtxSame.pop {a b : CtxArr} (h : CtxSame a b) :
    CtxSame { a with len := a.len - 1 } { b with len := b.len - 1 } := by
  refine ⟨h.left.pop, h.right.pop, by simp only [h.len], ?_⟩
  have hitems := congrArg (List.take (a.len - 1)) h.items
  simp only [CtxArr.items, take_take] at hitems ⊢
  rw [Nat.min_eq_left (by omega), Nat.min_eq_left (by have := h.len; omega)] at hitems
  rw [hitems, h.len]

theorem CtxSame.push (halloc : ∀ n, alloc n = true) {a b a' : CtxArr} (h : CtxSame a b)
    {x : FfjsonT} (hpush : a.push alloc x = some a') :
    ∃ b', b.push alloc x = some b' ∧ CtxSame a' b' := by
  obtain ⟨b', hpushb⟩ := CtxArr.push_some halloc b x
  obtain ⟨hvala, hlena, -, hitemsa, -⟩ := CtxArr.push_spec h.left hpush
  obtain ⟨hvalb, hlenb, -, hitemsb, -⟩ := CtxArr.push_spec h.right hpushb
  exact ⟨b', hpushb, hvala, hvalb, by rw [hlena, hlenb, h.len],
    by rw [hitemsa, hitemsb, h.items]⟩

theorem CtxSame.ctxNext (halloc : ∀ n, alloc n = true) {a b a' : CtxArr} (h : CtxSame a b)
    {type : FfjsonT} {close : Bool} {st' : CookSt}
    (ha : FF.ctxNext alloc a type close = some (st', a')) :
    ∃ b', FF.ctxNext alloc b type close = some (st', b') ∧ CtxSame a' b' := by
  cases close with
  | true =>
    obtain ⟨h0, hback, rfl⟩ := ctxNext_close ha
    have hpop := h.pop
    have hb : FF.ctxNext alloc b type true =
        some ({ CookSt.zero with
          comma := true
          key := decide (b.len - 1 ≠ 0) && CtxArr.back { b with len := b.len - 1 } == some .obj },
        { b with len := b.len - 1 }) := by
      simp only [FF.ctxNext, if_true]
      rw [if_neg (by rw [← h.len, ← h.back h0]; exact fun hor => hor.elim h0 (· hback))]
    refine ⟨_, hb.trans (congrArg some (Prod.ext ?_ rfl)), hpop⟩
    simp only [FF.ctxNext, if_true] at ha
    rw [if_neg (fun hor => hor.elim h0 (· hback))] at ha
    rw [← (Prod.ext_iff.mp (some.inj ha)).1]
    simp only [← h.len]
    by_cases h1 : a.len - 1 = 0
    · simp [h1]
    · rw [hpop.back h1, h.len]
  | false =>
    obtain ⟨b', hpushb, hsame⟩ := h.push halloc (ctxNext_open ha)
    simp only [FF.ctxNext, Bool.false_eq_true, if_false, map_eq_some_iff] at ha ⊢
    obtain ⟨a₁, -, ha⟩ := ha
    exact ⟨b', ⟨b', hpushb, Prod.ext (Prod.ext_iff.mp ha).1 rfl⟩, hsame⟩

theorem CtxSame.entNext (halloc : ∀ n, alloc n = true) {a b a' : CtxArr} (h : CtxSame a b)
    {f : JsonF} {st st' : CookSt} {e : JsonEntity}
    (ha : FF.entNext alloc f st a e = some (st', a')) :
    ∃ b', FF.entNext alloc f st b e = some (st', b') ∧ CtxSame a' b' := by
  cases e with
  | obj close | arr close => exact h.ctxNext halloc ha
  | other => cases ha
  | str s =>
    simp only [FF.entNext, strNext, h.scalarNext, some.injEq, Prod.mk.injEq] at ha ⊢
    obtain ⟨hst, rfl⟩ := ha
    exact ⟨b, ⟨hst, rfl⟩, h⟩
  | int i | num s | bool v | null =>
    simp only [FF.entNext, h.scalarNext, some.injEq, Prod.mk.injEq] at ha ⊢
    obtain ⟨hst, rfl⟩ := ha
    exact ⟨b, ⟨hst, rfl⟩, h⟩

theorem CtxSame.entRun (halloc : ∀ n, alloc n = true) {a b a' : CtxArr} (h : CtxSame a b)
    {g : JsonF} {st st' : CookSt} {calls : List (JsonF × JsonEntity)} {t : List UInt8}
    (ha : FF.entRun alloc g st a calls = some (t, st', a')) :
    ∃ b', FF.entRun alloc g st b calls = some (t, st', b') ∧ CtxSame a' b' := by
  induction calls generalizing st a b t with
  | nil =>
    obtain ⟨rfl, rfl, rfl⟩ : [] = t ∧ st = st' ∧ a = a' := by simpa [FF.entRun] using ha
    exact ⟨b, rfl, h⟩
  | cons call calls ih =>
    obtain ⟨f, e⟩ := call
    simp only [FF.entRun] at ha ⊢
    cases hnext : FF.entNext alloc (f.or g) st a e with
    | none =>
      rw [hnext] at ha
      cases ha
    | some r =>
      obtain ⟨st₁, a₁⟩ := r
      obtain ⟨b₁, hnextb, hsame⟩ := h.entNext halloc hnext
      simp only [hnext] at ha
      simp only [hnextb]
      cases hrun : FF.entRun alloc g { st₁ with lf := true } a₁ calls with
      | none =>
        rw [hrun] at ha
        cases ha
      | some r =>
        obtain ⟨t₁, st₂, a₂⟩ := r
        simp only [hrun, some.injEq, Prod.mk.injEq] at ha
        obtain ⟨rfl, rfl, rfl⟩ := ha
        obtain ⟨b', hrunb, hsame'⟩ := ih hsame hrun
        exact ⟨b', by rw [hrunb, h.len], hsame'⟩

/-! ### Runs on a buffer -/

theorem ffjsonAdd_ok {c : FfjsonCook} (hn : c.nobuf = false) (hcap : c.buf.length ≤ c.cap)
    {f : JsonF} {e : JsonEntity} (hok : (ffjsonAdd alloc c f e).2 = FFJSON_OK) :
    ∃ buf st ctxs, entNext alloc (f.or c.gflags) c.st c.ctxs e = some (st, ctxs) ∧
      buf.length < c.cap ∧
      (ffjsonAdd alloc c f e).1 = { c with buf := buf, st := { st with lf := true }, ctxs := ctxs } := by
  have hspec := ffjsonAdd_spec alloc (c := c) ⟨fun h => by simp [hn] at h, hcap⟩ f e
  cases hnext : entNext alloc (f.or c.gflags) c.st c.ctxs e with
  | none =>
    rw [hnext] at hspec
    rw [hspec] at hok
    cases hok
  | some r =>
    obtain ⟨st, ctxs⟩ := r
    obtain ⟨w, hw⟩ : ∃ w, w = entWritten (f.or c.gflags) c.st c.ctxs.len (c.cap - c.buf.length) e :=
      ⟨_, rfl⟩
    rw [hnext, ← hw] at hspec
    simp only [addResult, addDone] at hspec
    rw [if_neg (by simp [hn])] at hspec
    have hle : (c.buf ++ w.take (c.cap - c.buf.length)).length ≤ c.cap := by
      rw [length_append, length_take]
      omega
    by_cases hfull : (c.buf ++ w.take (c.cap - c.buf.length)).length = c.cap
    · rw [if_pos hfull] at hspec
      rw [hspec] at hok
      cases hok
    · rw [if_neg hfull] at hspec
      exact ⟨c.buf ++ w.take (c.cap - c.buf.length), st, ctxs, rfl, by omega, by rw [hspec]⟩

theorem entRun_of_addRun {c c' : FfjsonCook} (hn : c.nobuf = false) (hcap : c.buf.length ≤ c.cap)
    {calls : List (JsonF × JsonEntity)} (hrun : addRun alloc c calls = some c') :
    ∃ t, entRun alloc c.gflags c.st c.ctxs calls = some (t, c'.st, c'.ctxs) := by
  induction calls generalizing c with
  | nil =>
    obtain rfl := some.inj hrun
    exact ⟨[], rfl⟩
  | cons call calls ih =>
    obtain ⟨f, e⟩ := call
    rw [addRun] at hrun
    by_cases hok : (ffjsonAdd alloc c f e).2 = FFJSON_OK
    · obtain ⟨buf, st, ctxs, hnext, hbuf, hadd⟩ := ffjsonAdd_ok hn hcap hok
      rw [if_pos hok, hadd] at hrun
      obtain ⟨t, ht⟩ := ih (c := { c with buf := buf, st := { st with lf := true }, ctxs := ctxs })
        hn (Nat.le_of_lt hbuf) hrun
      have ht' : entRun alloc c.gflags { st with lf := true } ctxs calls =
        some (t, c'.st, c'.ctxs) := ht
      refine ⟨entText (f.or c.gflags) c.st c.ctxs.len e ++ t, ?_⟩
      simp only [entRun, hnext, ht']
    · rw [if_neg hok] at hrun
      cases hrun

theorem ffjsonAddvv_of_addRun {c c' : FfjsonCook} {calls : List (JsonF × JsonEntity)}
    (hrun : addRun alloc c calls = some c') (ret : ℤ) :
    ffjsonAddvv alloc c ret calls = (c', ret) := by
  induction calls generalizing c with
  | nil =>
    obtain rfl := some.inj hrun
    rfl
  | cons call calls ih =>
    obtain ⟨f, e⟩ := call
    rw [addRun] at hrun
    by_cases hok : (ffjsonAdd alloc c f e).2 = FFJSON_OK
    · rw [if_pos hok] at hrun
      simp only [ffjsonAddvv, hok, if_true]
      exact ih hrun
    · rw [if_neg hok] at hrun
      cases hrun

/-- A run on a buffer that returns `FFJSON_OK` leaves room for a byte, and the context stack is the
one that the entities make of it. -/
theorem ffjsonAddvv_ok {c : FfjsonCook} (hn : c.nobuf = false) (hcap : c.buf.length ≤ c.cap)
    {calls : List (JsonF × JsonEntity)} (hok : (ffjsonAddvv alloc c 0 calls).2 = FFJSON_OK) :
    ctxRun alloc c.ctxs calls = some (ffjsonAddvv alloc c 0 calls).1.ctxs ∧
      (calls ≠ [] → (ffjsonAddvv alloc c 0 calls).1.buf.length < c.cap) := by
  induction calls generalizing c with
  | nil => exact ⟨rfl, fun h => absurd rfl h⟩
  | cons call calls ih =>
    obtain ⟨f, e⟩ := call
    have hstep : (ffjsonAdd alloc c f e).2 = FFJSON_OK := by
      by_contra hne
      have hspec := ffjsonAdd_spec alloc (c := c) ⟨fun h => by simp [hn] at h, hcap⟩ f e
      simp only [ffjsonAddvv] at hok
      rw [if_neg hne] at hok
      have hnonneg : ¬(ffjsonAdd alloc c f e).2 < 0 := by
        rw [hspec]
        simp only [addResult, addDone]
        cases entNext alloc (f.or c.gflags) c.st c.ctxs e with
        | none => exact of_decide_eq_false rfl
        | some r =>
          simp only [hn, Bool.false_eq_true, if_false]
          split <;> exact of_decide_eq_false rfl
      rw [if_neg hnonneg] at hok
      exact hne hok
    obtain ⟨buf, st, ctxs, hnext, hbuf, heq⟩ := ffjsonAdd_ok hn hcap hstep
    have hvv : ffjsonAddvv alloc c 0 ((f, e) :: calls) = ffjsonAddvv alloc
        { c with buf := buf, st := { st with lf := true }, ctxs := ctxs } 0 calls := by
      rw [← heq]
      simp only [ffjsonAddvv, hstep, if_true]
    rw [hvv] at hok ⊢
    obtain ⟨hctx, hlt⟩ := ih (c := { c with
      buf := buf
      st := { st with lf := true }
      ctxs := ctxs }) hn (Nat.le_of_lt hbuf) hok
    constructor
    · rw [ctxRun, ← entNext_ctxs (f.or c.gflags) c.st, hnext]
      exact hctx
    · intro _
      cases calls with
      | nil => exact hbuf
      | cons call calls => exact hlt (cons_ne_nil _ _)

/-! ### The call as a whole -/

/-- What `ffjson_bufadd` and `ffjson_bufaddv` promise: they never report a full buffer, and where
single calls on an unlimited buffer succeed, they leave the same text and the same state. -/
structure BufaddOk (alloc : ℕ → Bool) (c : FfjsonCook) (calls : List (JsonF × JsonEntity))
    (res : FfjsonCook × ℤ) : Prop where
  buffull : res.2 ≠ FFJSON_BUFFULL
  same : ∃ cap₀, ∀ cap, cap₀ ≤ cap → ∀ c₁,
    addRun alloc { c with nobuf := false, cap := cap } calls = some c₁ →
      res.2 = FFJSON_OK ∧ res.1.buf = c₁.buf ∧ res.1.st = c₁.st ∧
        res.1.ctxs.items = c₁.ctxs.items

/-- The counted bytes as an `int`. -/
def countedCode (alloc : ℕ → Bool) (c : FfjsonCook) (calls : List (JsonF × JsonEntity)) : ℤ :=
  countCode (drySizes alloc c.gflags c.st c.ctxs calls).2.isNone 0
    (drySizes alloc c.gflags c.st c.ctxs calls).1

/-- The capacity when `n` bytes have been counted. -/
def roomCap (quarter : Bool) (c : FfjsonCook) (n : ℕ) : ℕ :=
  if c.cap ≥ c.buf.length + (n + 1) then c.cap else growCap quarter c.buf.length (n + 1)

/-- When the promise is kept. For calls that are refused the count must not look like
`FFJSON_BUFFULL`. Else nothing is counted and there is nothing to do; or the text fits into what has
been counted, and no context that was open before has been replaced by another one. -/
def BufaddCond (alloc : ℕ → Bool) (quarter : Bool) (c : FfjsonCook)
    (calls : List (JsonF × JsonEntity)) : Prop :=
  match entRun alloc c.gflags c.st c.ctxs calls with
  | none => countedCode alloc c calls ≠ FFJSON_BUFFULL
  | some (t, st, ctxs) =>
    (countedCode alloc c calls = 0 ∧ t = [] ∧ st = c.st ∧
      ctxs.cells.take c.ctxs.len = ctxs.items) ∨
    (countedCode alloc c calls < 0 ∧
      c.buf.length + t.length < roomCap quarter c (-countedCode alloc c calls).toNat ∧
      ctxs.cells.take c.ctxs.len = c.ctxs.items)

theorem countCode_refused (ret : ℤ) (ns : List ℕ) : 0 < countCode true ret ns := by
  induction ns generalizing ret with
  | nil => exact of_decide_eq_true rfl
  | cons n ns ih =>
    simp only [countCode]
    split
    · exact ih _
    next h0 =>
      split
      · exact ih _
      · next hneg =>
          simp only [FFJSON_OK] at h0
          omega

theorem cookNull_ok (c : FfjsonCook) : (cookNull c).Ok :=
  ⟨fun _ => ⟨rfl, rfl⟩, Nat.zero_le _⟩

theorem cookGrow_eq (halloc : ∀ n, alloc n = true) {c : FfjsonCook} (hc : c.Ok) (quarter : Bool)
    (n : ℕ) : cookGrow alloc quarter c (n + 1) =
      some { c with nobuf := false, cap := roomCap quarter c n } := by
  simp only [cookGrow, roomCap, halloc, if_true]
  by_cases hfit : c.cap ≥ c.buf.length + (n + 1)
  · have hn : c.nobuf = false := by
      by_contra hne
      have := (hc.nobuf (Bool.not_eq_false _ ▸ hne)).2
      omega
    rw [if_pos hfit, if_pos hfit, ← hn]
  · rw [if_neg hfit, if_neg hfit]

theorem le_roomCap (quarter : Bool) (c : FfjsonCook) (n : ℕ) : c.buf.length ≤ roomCap quarter c n := by
  simp only [roomCap, growCap]
  split <;> omega

theorem bufaddOk_iff {c : FfjsonCook} {calls : List (JsonF × JsonEntity)} {res : FfjsonCook × ℤ}
    {t : List UInt8} {st : CookSt} {ctxs : CtxArr}
    (hrun : entRun alloc c.gflags c.st c.ctxs calls = some (t, st, ctxs)) :
    BufaddOk alloc c calls res ↔ res.2 = FFJSON_OK ∧ res.1.buf = c.buf ++ t ∧ res.1.st = st ∧
      res.1.ctxs.items = ctxs.items := by
  have hadd : ∀ cap, c.buf.length + t.length < cap →
      addRun alloc { c with nobuf := false, cap := cap } calls =
        some { c with nobuf := false, cap := cap, buf := c.buf ++ t, st := st, ctxs := ctxs } :=
    fun cap hcap => addRun_eq (c := { c with nobuf := false, cap := cap }) rfl hrun hcap
  constructor
  · intro h
    obtain ⟨cap₀, hsame⟩ := h.same
    exact hsame (cap₀ + (c.buf.length + t.length + 1)) (by omega) _ (hadd _ (by omega))
  rintro ⟨hok, hbuf, hst, hitems⟩
  constructor
  · rw [hok]
    exact of_decide_eq_false rfl
  · refine ⟨c.buf.length + t.length + 1, fun cap hcap c₁ h₁ => ?_⟩
    obtain rfl := some.inj ((hadd cap (by omega)).symm.trans h₁)
    exact ⟨hok, hbuf, hst, hitems⟩

theorem bufaddOk_refused {c : FfjsonCook} {calls : List (JsonF × JsonEntity)} {res : FfjsonCook × ℤ}
    (hrun : entRun alloc c.gflags c.st c.ctxs calls = none) :
    BufaddOk alloc c calls res ↔ res.2 ≠ FFJSON_BUFFULL := by
  refine ⟨BufaddOk.buffull, fun h => ⟨h, c.buf.length, fun cap hcap c₁ h₁ => ?_⟩⟩
  obtain ⟨t, ht⟩ := entRun_of_addRun (c := { c with nobuf := false, cap := cap }) rfl hcap h₁
  have hsome : entRun alloc c.gflags c.st c.ctxs calls = some (t, c₁.st, c₁.ctxs) := ht
  rw [hrun] at hsome
  cases hsome

theorem bufaddOk_second (halloc : ∀ n, alloc n = true) {c : FfjsonCook}
    (hval : c.ctxs.Valid) {calls : List (JsonF × JsonEntity)} (hcalls : calls ≠ [])
    {t : List UInt8} {st : CookSt} {ctxs : CtxArr}
    (hrun : entRun alloc c.gflags c.st c.ctxs calls = some (t, st, ctxs)) {cap : ℕ}
    (hcap : c.buf.length ≤ cap) :
    BufaddOk alloc c calls (ffjsonAddvv alloc
        { c with nobuf := false, cap := cap, ctxs := { ctxs with len := c.ctxs.len } } 0 calls) ↔
      c.buf.length + t.length < cap ∧ ctxs.cells.take c.ctxs.len = c.ctxs.items := by
  obtain ⟨c', hc'⟩ : ∃ c', c' =
    ({ c with nobuf := false, cap := cap, ctxs := { ctxs with len := c.ctxs.len } } : FfjsonCook) :=
    ⟨_, rfl⟩
  have hctx : ctxRun alloc c.ctxs calls = some ctxs := by
    rw [← entRun_ctxs c.gflags c.st, hrun]
    rfl
  obtain ⟨-, hcells⟩ := ctxRun_valid hval hctx
  have hval' : CtxArr.Valid { ctxs with len := c.ctxs.len } := Nat.le_trans hval hcells
  rw [bufaddOk_iff hrun, ← hc']
  constructor
  · rintro ⟨hok, hbuf, -, -⟩
    obtain ⟨hctx', hlt⟩ := ffjsonAddvv_ok (c := c') (by rw [hc']) (by rw [hc']; exact hcap) hok
    constructor
    · have := hlt hcalls
      rw [hbuf, hc', length_append] at this
      exact this
    rw [hc'] at hctx'
    refine ext_getElem? fun j => ?_
    rw [CtxArr.items, getElem?_take, getElem?_take]
    by_cases hj : j < c.ctxs.len
    · rw [if_pos hj, if_pos hj]
      rcases ctxRun_cells hval hval' rfl hctx hctx' hj with h | h
      · exact h
      · exact h.symm
    · rw [if_neg hj, if_neg hj]
  rintro ⟨hfit, hitems⟩
  have hsame : CtxSame c.ctxs { ctxs with len := c.ctxs.len } := ⟨hval, hval', rfl, hitems.symm⟩
  obtain ⟨ctxs', hrun', hsame'⟩ := hsame.entRun halloc hrun
  have hadd := addRun_eq (c := c') (by rw [hc']) (by rw [hc']; exact hrun') (by rw [hc']; exact hfit)
  rw [ffjsonAddvv_of_addRun hadd 0, hc']
  exact ⟨rfl, rfl, rfl, hsame'.items.symm⟩

theorem bufaddWith_iff (halloc : ∀ n, alloc n = true) {c : FfjsonCook} (hc : c.Ok)
    (hval : c.ctxs.Valid) (quarter : Bool) (calls : List (JsonF × JsonEntity)) :
    BufaddOk alloc c calls
        (bufaddWith alloc quarter (fun c => ffjsonAddvv alloc c 0 calls) c) ↔
      BufaddCond alloc quarter c calls := by
  obtain ⟨st₀, ctxs₀, hdry, hctxs⟩ :=
    @ffjsonAddvv_count alloc (cookNull c) rfl rfl rfl 0 calls
  have hcode : (ffjsonAddvv alloc (cookNull c) 0 calls).2 = countedCode alloc c calls := by
    rw [hdry]
    rfl
  have hrestore : cookRestore (ffjsonAddvv alloc (cookNull c) 0 calls).1 c =
      { c with ctxs := { ctxs₀ with len := c.ctxs.len } } := by
    rw [hdry]
    rfl
  have hlast : (drySizes alloc c.gflags c.st c.ctxs calls).2 =
      (entRun alloc c.gflags c.st c.ctxs calls).map fun r => r.2.2 := by
    rw [drySizes_ctxs, entRun_ctxs]
  simp only [bufaddWith, hcode, hrestore, BufaddCond]
  cases hrun : entRun alloc c.gflags c.st c.ctxs calls with
  | none =>
    rw [hrun] at hlast
    have hpos : 0 < countedCode alloc c calls := by
      rw [countedCode, hlast]
      exact countCode_refused 0 _
    rw [if_pos (Int.le_of_lt hpos), bufaddOk_refused hrun]
  | some r =>
    obtain ⟨t, st, ctxs⟩ := r
    rw [hrun] at hlast
    by_cases hneg : countedCode alloc c calls < 0
    · obtain rfl : ctxs₀ = ctxs := hctxs ctxs hlast (by rw [hcode]; omega)
      have hcalls : calls ≠ [] := by
        rintro rfl
        exact absurd hneg (of_decide_eq_false rfl)
      have hgrow := cookGrow_eq halloc (c := { c with ctxs := { ctxs₀ with len := c.ctxs.len } })
        ⟨hc.nobuf, hc.cap⟩ quarter (-countedCode alloc c calls).toNat
      rw [if_neg (by omega), hgrow]
      refine (bufaddOk_second halloc hval hcalls hrun (le_roomCap quarter c _)).trans ?_
      constructor
      · rintro ⟨hfit, hitems⟩
        exact .inr ⟨hneg, hfit, hitems⟩
      · rintro (⟨h0, -⟩ | ⟨-, hfit, hitems⟩)
        · omega
        · exact ⟨hfit, hitems⟩
    rw [if_pos (by omega), bufaddOk_iff hrun]
    constructor
    · rintro ⟨h0, hbuf, hst, hitems⟩
      obtain rfl : ctxs₀ = ctxs := hctxs ctxs hlast (hcode.trans h0).le
      exact .inl ⟨h0, by simpa using hbuf, hst.symm, hitems⟩
    · rintro (⟨h0, rfl, rfl, hitems⟩ | ⟨hneg', -⟩)
      · obtain rfl : ctxs₀ = ctxs := hctxs ctxs hlast (hcode.trans h0).le
        exact ⟨h0, (append_nil _).symm, rfl, hitems⟩
      · exact absurd hneg' hneg

theorem ffjsonAddvv_single {c : FfjsonCook} (hc : c.Ok) (f : JsonF) (e : JsonEntity) :
    ffjsonAddvv alloc c 0 [(f, e)] = ffjsonAdd alloc c f e := by
  obtain ⟨c', r, hadd⟩ : ∃ c' r, ffjsonAdd alloc c f e = (c', r) := ⟨_, _, rfl⟩
  have hneg : r < 0 → r.bmod (2 ^ 32) = r := by
    intro hneg
    have hspec := congrArg Prod.snd ((ffjsonAdd_spec alloc hc f e).symm.trans hadd)
    simp only [addResult, addDone] at hspec
    cases hnext : entNext alloc (f.or c.gflags) c.st c.ctxs e with
    | none =>
      rw [hnext] at hspec
      simp only [FFJSON_ERR] at hspec
      omega
    | some next =>
      rw [hnext] at hspec
      cases hn : c.nobuf with
      | true =>
        simp only [hn, if_true] at hspec
        rw [← hspec, Int.bmod_bmod]
      | false =>
        simp only [hn, Bool.false_eq_true, if_false] at hspec
        split at hspec <;> simp only [FFJSON_BUFFULL, FFJSON_OK] at hspec <;> omega
  simp only [ffjsonAddvv, hadd, FFJSON_OK]
  by_cases h0 : r = 0
  · rw [if_pos h0, h0]
  · rw [if_neg h0]
    by_cases hlt : r < 0
    · rw [if_pos hlt, Int.zero_add, hneg hlt]
    · rw [if_neg hlt]

theorem ffjsonBufadd_eq (halloc : ∀ n, alloc n = true) {c : FfjsonCook} (hc : c.Ok) (f : JsonF)
    (e : JsonEntity) : ffjsonBufadd alloc c f e =
      bufaddWith alloc true (fun c => ffjsonAddvv alloc c 0 [(f, e)]) c := by
  simp only [ffjsonBufadd, bufaddWith, ffjsonAddvv_single (cookNull_ok c)]
  obtain ⟨r, hr⟩ : ∃ r, r = (ffjsonAdd alloc (cookNull c) f e).2 := ⟨_, rfl⟩
  obtain ⟨c', hc'⟩ : ∃ c', c' = cookRestore (ffjsonAdd alloc (cookNull c) f e).1 c := ⟨_, rfl⟩
  have hok : c'.Ok := by
    rw [hc']
    exact ⟨hc.nobuf, hc.cap⟩
  rw [← hr, ← hc']
  by_cases hneg : r ≥ 0
  · rw [if_pos hneg, if_pos hneg]
  · rw [if_neg hneg, if_neg hneg, cookGrow_eq halloc hok]
    exact (ffjsonAddvv_single (c := { c' with
      nobuf := false
      cap := roomCap true c' (-r).toNat }) ⟨fun h => (Bool.false_ne_true h).elim,
        le_roomCap true c' _⟩ f e).symm

/-- **The writer with a growing buffer** keeps its promise exactly under the condition. -/
theorem ffjson_bufadd_iff (halloc : ∀ n, alloc n = true) {c : FfjsonCook} (hc : c.Ok)
    (hval : c.ctxs.Valid) :
    (∀ calls, BufaddOk alloc c calls (ffjsonBufaddv alloc c calls) ↔
      BufaddCond alloc false c calls) ∧
    (∀ f e, BufaddOk alloc c [(f, e)] (ffjsonBufadd alloc c f e) ↔
      BufaddCond alloc true c [(f, e)]) := by
  constructor
  · intro calls
    exact bufaddWith_iff halloc hc hval false calls
  · intro f e
    rw [ffjsonBufadd_eq halloc hc]
    exact bufaddWith_iff halloc hc hval true [(f, e)]

/-- A new writer. -/
def newCook (gflags : JsonF) : FfjsonCook := ⟨true, [], 0, CookSt.zero, ⟨[], 0⟩, gflags⟩

/-- A new writer takes any list of entities. -/
theorem ffjson_bufadd_iff_example :
    (∀ calls, BufaddOk (fun _ => true) (newCook JsonF.zero) calls
        (ffjsonBufaddv (fun _ => true) (newCook JsonF.zero) calls) ↔
      BufaddCond (fun _ => true) false (newCook JsonF.zero) calls) ∧
    (∀ f e, BufaddOk (fun _ => true) (newCook JsonF.zero) [(f, e)]
        (ffjsonBufadd (fun _ => true) (newCook JsonF.zero) f e) ↔
      BufaddCond (fun _ => true) true (newCook JsonF.zero) [(f, e)]) :=
  ffjson_bufadd_iff (fun _ => rfl) ⟨fun _ => ⟨rfl, rfl⟩, by decide⟩ (by decide : (0 : ℕ) ≤ 0)

/-- In an object, behind its first key and value. -/
def inObject : FfjsonCook where
  nobuf := false
  buf := [0x7b, 0x22, 0x61, 0x22, 0x3a, 0x31]
  cap := 6
  st := { CookSt.zero with comma := true, key := true, lf := true }
  ctxs := ⟨[.obj], 1⟩
  gflags := JsonF.zero

/-- **The first run does not do what the second does.** It counts no line feeds: with
`FFJSON_PRETTY` an object of one key and one value does not fit into the room that has been made.
And it leaves behind the type of an array that follows a closed object, so that the object cannot
be closed again. -/
theorem ffjson_bufaddv_breaks :
    (∃ calls, calls = [(JsonF.zero, .obj false), (JsonF.zero, .str [0x61]),
        (JsonF.zero, .str [0x62]), (JsonF.zero, .obj true)] ∧
      (ffjsonBufaddv (fun _ => true) (newCook { JsonF.zero with pretty := true }) calls).2 =
        FFJSON_BUFFULL ∧
      ¬BufaddOk (fun _ => true) (newCook { JsonF.zero with pretty := true }) calls
        (ffjsonBufaddv (fun _ => true) (newCook { JsonF.zero with pretty := true }) calls)) ∧
    (∃ calls, calls = [(JsonF.zero, .obj true), (JsonF.zero, .arr false)] ∧
      (ffjsonBufaddv (fun _ => true) inObject calls).2 = FFJSON_ERR ∧
      ¬BufaddOk (fun _ => true) inObject calls (ffjsonBufaddv (fun _ => true) inObject calls)) := by
  constructor
  · refine ⟨_, rfl, by decide, fun h => ?_⟩
    exact h.buffull (by decide)
  refine ⟨_, rfl, by decide, fun h => ?_⟩
  have hrun : entRun (fun _ => true) inObject.gflags inObject.st inObject.ctxs
      [(JsonF.zero, .obj true), (JsonF.zero, .arr false)] =
        some ([0x7d, 0x2c, 0x5b], { CookSt.zero with lf := true }, ⟨[.arr], 1⟩) := by
    decide
  exact absurd ((bufaddOk_iff hrun).mp h).1 (by decide)

end FF
