import FF.Json.Machine

/-!
# The JSON parser, chunk by chunk

A chunk may end anywhere: inside of an escape sequence, a word, a number, a comment. The parser is
compared with the machine that sees one byte at a time. The two differ in the buffer only, and how
that of the parser is related to the chunk (`BufRel`) depends on the state: it is empty, holds the
value that is being read, or is not needed any more.
-/

namespace FF

open List Option

section Buffer

variable {b : Ffarr} {l : List UInt8} {alloc : ℕ → Bool}

/-- **The buffer takes bytes** into its own memory. -/
theorem valStore_spec (halloc : ∀ n, alloc n = true) (h : b.Has l) (s : List UInt8) :
    ∃ b', valStore alloc b s = some b' ∧ b'.Has (l ++ s) ∧ b'.Owned := by
  obtain ⟨b₁, hgrow, h₁, hcap⟩ := ffarrGrow_spec halloc h s.length 256
  obtain ⟨b₂, happ, h₂⟩ := @ffarrAppend_spec _ _ alloc h₁ _ hcap
  exact ⟨b₂, by simp [valStore, hgrow, happ], h₂⟩

theorem valStore_some (halloc : ∀ n, alloc n = true) (b : Ffarr) (s : List UInt8) :
    ∃ b', valStore alloc b s = some b' := by
  have hreal : ∀ b n, ∃ b', ffarrRealloc alloc b n = some b' := by
    intro b n
    obtain ⟨m, hm⟩ : ∃ m, m = if n = 0 then 1 else n := ⟨_, rfl⟩
    simp only [ffarrRealloc, ← hm, halloc, if_true]
    split <;> exact ⟨_, rfl⟩
  obtain ⟨b₁, hgrow⟩ : ∃ b₁, ffarrGrow alloc b s.length 256 = some b₁ := by
    simp only [ffarrGrow]
    split
    · exact ⟨_, rfl⟩
    · exact hreal _ _
  obtain ⟨b₂, hb₂⟩ : ∃ b₂, (if b₁.cap < b₁.len + s.length then
      ffarrRealloc alloc b₁ (b₁.len + s.length) else some b₁) = some b₂ := by
    split
    · exact hreal _ _
    · exact ⟨_, rfl⟩
  simp only [valStore, hgrow, ffarrAppend, hb₂, bind_eq_bind, bind_some]
  cases b₂ <;> exact ⟨_, rfl⟩

/-- **The buffer takes another byte** of the chunk, by reference or in its memory. -/
theorem valAdd_spec (halloc : ∀ n, alloc n = true) {c : UInt8} {cs : List UInt8} (h : b.Has l)
    (hadj : b.Adjacent (c :: cs)) :
    ∃ b', valAdd alloc b (c :: cs) = some b' ∧ b'.Has (l ++ [c]) ∧ b'.Adjacent cs := by
  cases b with
  | own bytes cap =>
    obtain ⟨b', hstore, h', hown⟩ := valStore_spec halloc h [c]
    exact ⟨b', hstore, h', hown.adjacent cs⟩
  | ref data len =>
    obtain ⟨hbytes, hlen⟩ := h
    simp only [Ffarr.bytes, Ffarr.len] at hbytes hlen
    refine ⟨_, rfl, ?_, ?_⟩
    · by_cases h0 : len = 0
      · obtain rfl : l = [] := eq_nil_of_length_eq_zero (by omega)
        rw [if_pos h0, h0]
        exact ⟨rfl, rfl⟩
      rw [if_neg h0]
      have hdrop := hadj data len rfl h0
      refine ⟨?_, by simp [Ffarr.len, hlen]⟩
      have : data = l ++ c :: cs := by
        rw [← take_append_drop len data, hbytes, hdrop]
      simp only [Ffarr.bytes]
      rw [this, hlen, take_append, take_of_length_le (by omega),
        Nat.add_sub_cancel_left]
      rfl
    intro data' len' hb _
    obtain ⟨rfl, rfl⟩ : (if len = 0 then c :: cs else data) = data' ∧ len + 1 = len' := by
      simpa using hb
    by_cases h0 : len = 0
    · rw [if_pos h0, h0]
      rfl
    · rw [if_neg h0]
      have hdrop := hadj data len rfl h0
      rw [← tail_drop, hdrop]
      rfl

theorem valAdd_some (halloc : ∀ n, alloc n = true) (b : Ffarr) (data : List UInt8) :
    ∃ b', valAdd alloc b data = some b' := by
  cases b with
  | ref ptr len => exact ⟨_, rfl⟩
  | own bytes cap => exact valStore_some halloc _ _

end Buffer

/-! ### The parser and the machine -/

section Simulation

variable {δ : Type}

/-- A pass of the parser over a chunk. -/
@[grind =] def jsonChunk (alloc : ℕ → Bool) (floatVal : List UInt8 → δ) (p : Ffjson Ffarr δ) :
    List UInt8 → Option (Ffjson Ffarr δ × FfparsE × Bool)
  | [] => none
  | c :: cs => jsonPass (ffarrOps alloc) alloc floatVal p c (c :: cs)

/-- `ffjson_parse`: the state, the code and the rest of the chunk. -/
def ffjsonParse (alloc : ℕ → Bool) (floatVal : List UInt8 → δ) (n : ℕ) (p : Ffjson Ffarr δ)
    (data : List UInt8) : Option (Ffjson Ffarr δ × FfparsE × List UInt8) :=
  callWith (jsonChunk alloc floatVal) FfparsE.verdict .more (jsonFin (ffarrOps alloc)) n p data

/-- The memory of the chunk before has changed. -/
@[grind =] def Ffjson.stale (mem : List UInt8 → List UInt8) (p : Ffjson Ffarr δ) : Ffjson Ffarr δ :=
  { p with buf := p.buf.stale mem }

/-- The state `a` with another buffer, and another value and code of the last call. -/
def Ffjson.withBuf {B B' : Type} (a : Ffjson B δ) (buf : B') (val : List UInt8) (ret : FfparsE) :
    Ffjson B' δ where
  state := a.state
  nextst := a.nextst
  type := a.type
  ret := ret
  line := a.line
  ch := a.ch
  escUtf16 := a.escUtf16
  intval := a.intval
  fltval := a.fltval
  esc := a.esc
  escHiword := a.escHiword
  barevalIdx := a.barevalIdx
  val := val
  buf := buf
  ctxs := a.ctxs
  ctxsCap := a.ctxsCap

/-- What the buffer is in a state: empty, a value that is read, or one that is not needed any
more. -/
inductive BufUse
  | empty
  | live
  | dead
  deriving DecidableEq

/-- The use of the buffer. -/
@[grind =] def bufUse : JsonIdx → JsonIdx → BufUse
  | .valBare, _ | .valBareNum, _ | .quot, _ | .quotFirst, _ | .quotEsc, _ => .live
  | .afterVal, _ | .afterKey, _ => .dead
  | .iwspace, .afterVal | .icmtBegin, .afterVal | .icmtLine, .afterVal | .icmtMline, .afterVal
  | .icmtMlineslash, .afterVal => .dead
  | .iwspace, .afterKey | .icmtBegin, .afterKey | .icmtLine, .afterKey | .icmtMline, .afterKey
  | .icmtMlineslash, .afterKey => .dead
  | _, _ => .empty

/-- The buffer `b` of the parser, in the state `a` of the machine, before the rest `d` of the
chunk. A reference ends at `d`, except in the course of escape sequences. -/
@[grind =] def BufRel (a : Ffjson (List UInt8) δ) (b : Ffarr) (d : List UInt8) : Prop :=
  match bufUse a.state a.nextst with
  | .empty => a.buf = [] ∧ b.Has []
  | .live => b.Has a.buf ∧
      (a.state ≠ .quotEsc → (a.state = .quot → a.escUtf16 = false) → b.Adjacent d)
  | .dead => True

/-- The parser `p` before the rest `d` of the chunk and the machine `a` are in the same state. -/
def JsonRel (p : Ffjson Ffarr δ) (a : Ffjson (List UInt8) δ) (d : List UInt8) : Prop :=
  ∃ b v r, p = a.withBuf b v r ∧ BufRel a b d

variable {a a' : Ffjson (List UInt8) δ} {b : Ffarr} {d : List UInt8}

theorem BufRel.of_empty (ha : a.buf = []) (hb : b.Has []) : BufRel a b d := by
  cases hu : bufUse a.state a.nextst <;> simp only [BufRel, hu]
  · exact ⟨ha, hb⟩
  · exact ⟨by rwa [ha], fun _ _ => hb.owned.adjacent d⟩

theorem BufRel.of_owned (h : BufRel a b d) (hb : b.Owned) (mem : List UInt8 → List UInt8)
    (d' : List UInt8) : BufRel a b d' ∧ BufRel a (b.stale mem) d' := by
  cases hu : bufUse a.state a.nextst <;> simp only [BufRel, hu] at h ⊢
  · exact ⟨h, h.1, (hb.stale h.2 mem).2⟩
  · exact ⟨⟨h.1, fun _ _ => hb.adjacent d'⟩, (hb.stale h.1 mem).2,
      fun _ _ => (hb.stale h.1 mem).1.adjacent d'⟩
  · exact ⟨trivial, trivial⟩

theorem BufRel.of_not_live (h : BufRel a b d) (hlive : bufUse a.state a.nextst ≠ .live)
    (mem : List UInt8 → List UInt8) (d' : List UInt8) :
    BufRel a b d' ∧ BufRel a (b.stale mem) d' := by
  cases hu : bufUse a.state a.nextst <;> simp only [BufRel, hu] at h ⊢
  · exact ⟨h, h.1, (h.2.owned.stale h.2 mem).2⟩
  · exact absurd hu hlive
  · exact ⟨trivial, trivial⟩

/-! ### Passes -/

/-- A pass of the machine, and one of the parser at the character `c` before `cs` that goes like
it. -/
inductive PassSim (c : UInt8) (cs v : List UInt8) (r : FfparsE) :
    PassRes (List UInt8) δ → PassRes Ffarr δ → Prop
  | stop {a b er again} (her : er.verdict = .stop) :
      PassSim c cs v r (a, er, again) (a.withBuf b v r, er, again)
  | more {a b again} (h : BufRel a b (if again then c :: cs else cs)) :
      PassSim c cs v r (a, .more, again) (a.withBuf b v r, .more, again)
  | value {a b er again} (her : er.verdict = .event) (hb : b.bytes = a.buf)
      (hu : bufUse a.state a.nextst ≠ .live) (h : BufRel a b []) :
      PassSim c cs v r (a, er, again) (a.withBuf b v r, er, again)

variable {alloc : ℕ → Bool} {floatVal : List UInt8 → δ} {c : UInt8} {cs v : List UInt8}
  {r : FfparsE}

theorem addByte_sim (halloc : ∀ n, alloc n = true) (hb : b.Has a.buf)
    (hadj : b.Adjacent (c :: cs)) :
    ∃ b', addByte (ffarrOps alloc) (a.withBuf b v r) (c :: cs) =
        (Ffjson.withBuf { a with buf := a.buf ++ [c] } b' v r, .more) ∧
      b'.Has (a.buf ++ [c]) ∧ b'.Adjacent cs := by
  obtain ⟨b', hadd, h'⟩ := valAdd_spec halloc hb hadj
  exact ⟨b', by simp [addByte, ffarrOps, Ffjson.withBuf, hadd], h'⟩

theorem hdlValBare_sim (halloc : ∀ n, alloc n = true) (hst : a.state = .valBare)
    (h : BufRel a b (c :: cs)) :
    PassSim c cs v r
      (afterBare (hdlValBare listOps a c [c]) false)
      (afterBare (hdlValBare (ffarrOps alloc) (a.withBuf b v r) c (c :: cs)) false) := by
  simp only [BufRel, hst, bufUse] at h
  obtain ⟨b', hadd, hb', hadj⟩ := addByte_sim (v := v) (r := r) halloc h.1
    (h.2 (by simp) (by simp))
  have hlen : (ffarrOps alloc).len b' = (a.buf ++ [c]).length := hb'.2
  simp only [hdlValBare, hadd, addByte_listOps, take_one, head?_cons, Option.toList]
  simp only [Ffjson.withBuf, hlen, len_listOps]
  obtain ⟨word, hword⟩ : ∃ word, word = ffjsonWords.getD a.barevalIdx.toNat [] := ⟨_, rfl⟩
  obtain ⟨len, hlen'⟩ : ∃ len, len = (a.buf ++ [c]).length - 1 := ⟨_, rfl⟩
  simp only [← hword, ← hlen']
  by_cases h1 : c = word.getD len 0
  · rw [if_neg (not_not.mpr h1), if_neg (not_not.mpr h1)]
    by_cases h2 : word.getD (len + 1) 0 = 0
    · rw [if_pos h2, if_pos h2]
      exact .value rfl hb'.1 (by simp [bufUse]) (by simp [BufRel, bufUse])
    · rw [if_neg h2, if_neg h2]
      refine .more ?_
      simp only [BufRel, hst, bufUse]
      exact ⟨hb', fun _ _ => hadj⟩
  · rw [if_pos h1, if_pos h1]
    exact .stop rfl

theorem hdlValBareNum_sim (halloc : ∀ n, alloc n = true) (hst : a.state = .valBareNum)
    (h : BufRel a b (c :: cs)) :
    PassSim c cs v r
      (afterBare (hdlValBareNum listOps floatVal a c [c]) true)
      (afterBare (hdlValBareNum (ffarrOps alloc) floatVal (a.withBuf b v r) c (c :: cs))
        true) := by
  simp only [BufRel, hst, bufUse] at h
  have hbytes : (ffarrOps alloc).bytes (a.withBuf b v r).buf = a.buf := h.1.1
  simp only [hdlValBareNum]
  rw [hbytes, bytes_listOps]
  cases hnum : isNumChar c with
  | true =>
    obtain ⟨b', hadd, hb', hadj⟩ := addByte_sim (v := v) (r := r) halloc h.1
      (h.2 (by simp) (by simp))
    simp only [Bool.not_true, Bool.false_eq_true, if_false, hadd, addByte_listOps,
      take_one, head?_cons, Option.toList]
    refine .more ?_
    simp only [BufRel, hst, bufUse]
    exact ⟨hb', fun _ _ => hadj⟩
  | false =>
    by_cases h0 : a.buf.length = 0
    · rw [if_pos h0, if_pos h0]
      exact .stop rfl
    rw [if_neg h0, if_neg h0]
    cases (ffsToint a.buf ⟨8, true, false, false⟩).filter fun r => a.buf.length = r.1 with
    | some r => exact .value rfl h.1.1 (by simp [bufUse]) (by simp [BufRel, bufUse])
    | none =>
      by_cases hf : ffsTofloat a.buf = some a.buf.length
      · simp only [if_pos hf]
        exact .value rfl h.1.1 (by simp [bufUse]) (by simp [BufRel, bufUse])
      · simp only [if_neg hf]
        exact .stop rfl

/-- The result of a handler that moves on to the next character. -/
abbrev plain {B : Type} (r : Ffjson B δ × FfparsE) : PassRes B δ := (r.1, r.2, false)

theorem hdlQuote_sim (halloc : ∀ n, alloc n = true) (hst : a.state = .quot) (hb : b.Has a.buf)
    (hadj : a.escUtf16 = false → b.Adjacent (c :: cs)) :
    PassSim c cs v r (plain (hdlQuote listOps a c [c]))
      (plain (hdlQuote (ffarrOps alloc) (a.withBuf b v r) c (c :: cs))) := by
  simp only [plain, hdlQuote, quoteChar]
  by_cases h1 : c = 0x22
  · have hk : (a.withBuf b v r).nextst = a.nextst := rfl
    simp only [if_pos h1, hk]
    cases hf : a.escUtf16 with
    | true => split <;> simp only [hf, Ffjson.withBuf] <;> exact .stop rfl
    | false =>
      split <;> simp only [hf, Ffjson.withBuf] <;>
        exact .value rfl hb.1 (by simp [bufUse]) (by simp [BufRel, bufUse])
  simp only [if_neg h1]
  by_cases h2 : c = 0x5c
  · simp only [if_pos h2, ne_eq, not_true, and_false, if_false]
    refine .more ?_
    exact ⟨hb, fun hne => absurd rfl hne⟩
  simp only [if_neg h2]
  by_cases h3 : c = 0x0a
  · simp only [if_pos h3]
    have hne : a.state ≠ .quotEsc := by simp [hst]
    cases hf : a.escUtf16 with
    | true =>
      rw [if_pos ⟨rfl, hne⟩, if_pos ⟨hf, hne⟩]
      exact .stop rfl
    | false =>
      rw [if_neg (by simp), if_neg (by simp [Ffjson.withBuf, hf])]
      exact .stop rfl
  simp only [if_neg h3]
  cases hf : a.escUtf16 with
  | true =>
    obtain ⟨b', hadd⟩ := valAdd_some halloc b (c :: cs)
    simp [addByte, ffarrOps, Ffjson.withBuf, hadd, hf, hst, listOps]
    exact .stop rfl
  | false =>
    obtain ⟨b', hadd, hb', hadj'⟩ := addByte_sim (v := v) (r := r) halloc hb
      (hadj hf)
    simp only [hadd, addByte_listOps, take_one, head?_cons, Option.toList]
    simp only [Ffjson.withBuf, hf, Bool.false_eq_true, false_and, if_false]
    refine .more ?_
    simp only [BufRel, hst, bufUse]
    exact ⟨hb', fun _ _ => hadj'⟩

theorem escPut_sim (halloc : ∀ n, alloc n = true) (hb : b.Has a.buf) (uch : UInt32) :
    PassSim c cs v r (plain (escPut listOps a uch))
      (plain (escPut (ffarrOps alloc) (a.withBuf b v r) uch)) := by
  obtain ⟨b', hstore, hb', hown⟩ := valStore_spec halloc hb (ffutf8Encode1 8 uch)
  have hstore' : (ffarrOps alloc).store b (ffutf8Encode1 8 uch) = some b' := hstore
  simp only [plain, escPut, store_listOps, Ffjson.withBuf, hstore']
  refine .more ?_
  exact ⟨hb', fun _ _ => hown.adjacent _⟩

theorem hdlEsc_sim (halloc : ∀ n, alloc n = true) (hst : a.state = .quotEsc) (hb : b.Has a.buf) :
    PassSim c cs v r (plain (hdlEsc listOps a c))
      (plain (hdlEsc (ffarrOps alloc) (a.withBuf b v r) c)) := by
  have hesc : (a.withBuf b v r).esc = a.esc := rfl
  have hflag : (a.withBuf b v r).escUtf16 = a.escUtf16 := rfl
  simp only [hdlEsc, hesc, hflag]
  split
  · exact .stop rfl
  cases ffjsonUnescapechar (a.esc ++ [c]) with
  | error => exact .stop rfl
  | incomplete =>
    refine .more ?_
    simp only [BufRel, hst, bufUse]
    exact ⟨hb, fun hne => absurd rfl hne⟩
  | char uch =>
    simp only
    split
    · exact escPut_sim (a := { a with esc := a.esc ++ [c] }) halloc hb uch
    split
    · split
      · exact .stop rfl
      · refine .more ?_
        simp only [BufRel, bufUse]
        exact ⟨hb, fun _ hf => Bool.noConfusion (hf trivial)⟩
    · split
      · exact .stop rfl
      · exact escPut_sim
          (a := { a with esc := a.esc ++ [c], escUtf16 := false, escHiword := 0 }) halloc hb _

theorem BufRel.comment (hst : a.state = .iwspace ∨ a.state = .icmtBegin ∨ a.state = .icmtLine ∨
      a.state = .icmtMline ∨ a.state = .icmtMlineslash) (h : BufRel a b d) {st : JsonIdx}
    (hst' : st = .iwspace ∨ st = .icmtBegin ∨ st = .icmtLine ∨ st = .icmtMline ∨
      st = .icmtMlineslash) (d' : List UInt8) : BufRel { a with state := st } b d' := by
  have hu : ∀ st, st = .iwspace ∨ st = .icmtBegin ∨ st = .icmtLine ∨ st = .icmtMline ∨
      st = .icmtMlineslash → bufUse st a.nextst =
        if a.nextst = .afterVal ∨ a.nextst = .afterKey then .dead else .empty := by
    rintro st (rfl | rfl | rfl | rfl | rfl) <;> cases a.nextst <;> rfl
  simp only [BufRel, hu a.state hst, hu st hst'] at h ⊢
  by_cases hn : a.nextst = .afterVal ∨ a.nextst = .afterKey
  · simp only [if_pos hn]
  · simpa only [if_neg hn] using h

theorem jsonCmt_sim (hst : a.state = .icmtBegin ∨ a.state = .icmtLine ∨ a.state = .icmtMline ∨
      a.state = .icmtMlineslash) (h : BufRel a b (c :: cs)) :
    PassSim c cs v r (plain (jsonCmt a c)) (plain (jsonCmt (a.withBuf b v r) c)) := by
  have hcmt : ∀ st, st = .iwspace ∨ st = .icmtBegin ∨ st = .icmtLine ∨ st = .icmtMline ∨
      st = .icmtMlineslash → BufRel { a with state := st } b cs :=
    fun st hst' => h.comment (.inr hst) hst' cs
  have hself : BufRel a b cs := hcmt a.state (.inr hst)
  have hstate : (a.withBuf b v r).state = a.state := rfl
  simp only [plain, jsonCmt, hstate]
  rcases hst with hst | hst | hst | hst <;> simp only [hst]
  · split
    · exact .more (hcmt _ (by simp))
    · split
      · exact .more (hcmt _ (by simp))
      · exact .stop rfl
  · split
    · exact .more (hcmt _ (by simp))
    · exact .more hself
  · split
    · exact .more (hcmt _ (by simp))
    · exact .more hself
  · refine .more (hcmt _ ?_)
    split <;> simp

theorem caseVal_sim (ha : a.buf = []) (hb : b.Has []) :
    PassSim c cs v r (caseVal a c) (caseVal (a.withBuf b v r) c) := by
  simp only [caseVal]
  split
  · exact .more (.of_empty ha hb)
  · split
    · refine .value rfl (hb.1.trans ha.symm) ?_ (.of_empty ha hb)
      simp [bufUse]
    · exact .more (.of_empty ha hb)

theorem caseKey_sim (ha : a.buf = []) (hb : b.Has []) :
    PassSim c cs v r (caseKey a c) (caseKey (a.withBuf b v r) c) := by
  simp only [caseKey]
  split
  · exact .more (.of_empty ha hb)
  · exact .stop rfl

theorem caseCloseBrace_sim (ha : a.buf = []) (hb : b.Has []) {ra : PassRes (List UInt8) δ}
    (hra : caseCloseBrace a c = some ra) :
    ∃ rc, caseCloseBrace (a.withBuf b v r) c = some rc ∧ PassSim c cs v r ra rc := by
  have hctxs : (a.withBuf b v r).ctxs = a.ctxs := rfl
  simp only [caseCloseBrace] at hra ⊢
  rw [hctxs]
  by_cases h0 : a.ctxs.length = 0
  · rw [if_pos h0] at hra
    cases hra
  rw [if_neg h0] at hra ⊢
  by_cases hctx : a.ctxs.head? = some (if c = 0x5d then FfjsonT.arr else .obj)
  · rw [if_neg (not_not.mpr hctx)] at hra ⊢
    obtain rfl := some.inj hra
    refine ⟨_, rfl, .value rfl (hb.1.trans ha.symm) ?_ (.of_empty ha hb)⟩
    simp [bufUse]
  · rw [if_pos hctx] at hra ⊢
    obtain rfl := some.inj hra
    exact ⟨_, rfl, .stop rfl⟩

theorem caseAfterVal_sim {ra : PassRes (List UInt8) δ} (hra : caseAfterVal listOps a c = some ra) :
    ∃ rc, caseAfterVal (ffarrOps alloc) (a.withBuf b v r) c = some rc ∧
      PassSim c cs v r ra rc := by
  obtain ⟨p, hp⟩ : ∃ p, p = jsonCleardata listOps a := ⟨_, rfl⟩
  have hclear : jsonCleardata (ffarrOps alloc) (a.withBuf b v r) =
      p.withBuf Ffarr.null v r := by
    rw [hp]
    rfl
  have hbuf : p.buf = [] := by
    rw [hp]
    rfl
  have hctxs : (p.withBuf Ffarr.null v r).ctxs = p.ctxs := rfl
  simp only [caseAfterVal] at hra ⊢
  rw [← hp] at hra
  rw [hclear, hctxs]
  by_cases h0 : p.ctxs.length = 0
  · rw [if_pos h0] at hra ⊢
    obtain rfl := some.inj hra
    exact ⟨_, rfl, .stop rfl⟩
  rw [if_neg h0] at hra ⊢
  by_cases h1 : c = 0x2c
  · rw [if_pos h1] at hra ⊢
    obtain rfl := some.inj hra
    exact ⟨_, rfl, .more (.of_empty hbuf has_null)⟩
  rw [if_neg h1] at hra ⊢
  by_cases h2 : c ≠ 0x5d ∧ c ≠ 0x7d
  · rw [if_pos h2] at hra ⊢
    obtain rfl := some.inj hra
    exact ⟨_, rfl, .stop rfl⟩
  · rw [if_neg h2] at hra ⊢
    exact caseCloseBrace_sim (a := { p with state := .closeBrace }) hbuf has_null hra

theorem jsonSwitch_sim (halloc : ∀ n, alloc n = true) (h : BufRel a b (c :: cs))
    {ra : PassRes (List UInt8) δ}
    (hra : jsonSwitch listOps (fun _ => true) floatVal a c [c] = some ra) :
    ∃ rc, jsonSwitch (ffarrOps alloc) alloc floatVal (a.withBuf b v r) c (c :: cs) = some rc ∧
      PassSim c cs v r ra rc := by
  have hstate : (a.withBuf b v r).state = a.state := rfl
  unfold jsonSwitch at hra ⊢
  rw [hstate]
  cases hst : a.state with
  | none =>
    simp only [hst] at hra ⊢
    obtain rfl := some.inj hra
    refine ⟨_, rfl, .more ?_⟩
    simp only [BufRel, hst, bufUse] at h ⊢
    exact h
  | iwspace =>
    simp only [hst] at hra ⊢
    by_cases h1 : ffcharIswhitespace c = true
    · rw [if_pos h1] at hra ⊢
      obtain rfl := some.inj hra
      exact ⟨_, rfl, .more (h.comment (.inl hst) (.inl hst) cs)⟩
    rw [if_neg h1] at hra ⊢
    by_cases h2 : c = 0x2f
    · rw [if_pos h2] at hra ⊢
      obtain rfl := some.inj hra
      exact ⟨_, rfl, .more (h.comment (.inl hst) (by simp) cs)⟩
    rw [if_neg h2] at hra ⊢
    obtain rfl := some.inj hra
    refine ⟨_, rfl, .more ?_⟩
    simp only [BufRel, hst] at h
    cases hn : a.nextst <;> simp only [hn, bufUse] at h <;>
      first | exact .of_empty h.1 h.2 | simp only [BufRel, bufUse]
  | icmtBegin | icmtLine | icmtMline | icmtMlineslash =>
    simp only [hst] at hra ⊢
    obtain rfl := some.inj hra
    exact ⟨_, rfl, jsonCmt_sim (by simp [hst]) h⟩
  | valFirst =>
    simp only [hst] at hra ⊢
    simp only [BufRel, hst, bufUse] at h
    by_cases h1 : c = 0x5d
    · rw [if_pos h1] at hra ⊢
      obtain rfl := some.inj hra
      exact ⟨_, rfl, .more (.of_empty h.1 h.2)⟩
    · rw [if_neg h1] at hra ⊢
      obtain rfl := some.inj hra
      exact ⟨_, rfl, caseVal_sim (a := { a with state := .val }) h.1 h.2⟩
  | val =>
    simp only [hst] at hra ⊢
    simp only [BufRel, hst, bufUse] at h
    obtain rfl := some.inj hra
    exact ⟨_, rfl, caseVal_sim h.1 h.2⟩
  | valBare =>
    simp only [hst] at hra ⊢
    obtain rfl := some.inj hra
    exact ⟨_, rfl, hdlValBare_sim halloc hst h⟩
  | valBareNum =>
    simp only [hst] at hra ⊢
    obtain rfl := some.inj hra
    exact ⟨_, rfl, hdlValBareNum_sim halloc hst h⟩
  | quotFirst =>
    simp only [hst] at hra ⊢
    simp only [BufRel, hst, bufUse] at h
    obtain rfl := some.inj hra
    exact ⟨_, rfl, hdlQuote_sim (a := { a with state := .quot }) halloc rfl h.1
      fun _ => h.2 (by simp) (by simp)⟩
  | quot =>
    simp only [hst] at hra ⊢
    simp only [BufRel, hst, bufUse] at h
    obtain rfl := some.inj hra
    exact ⟨_, rfl, hdlQuote_sim halloc hst h.1 fun hf => h.2 (by simp) fun _ => hf⟩
  | quotEsc =>
    simp only [hst] at hra ⊢
    simp only [BufRel, hst, bufUse] at h
    obtain rfl := some.inj hra
    exact ⟨_, rfl, hdlEsc_sim halloc hst h.1⟩
  | afterVal =>
    simp only [hst] at hra ⊢
    exact caseAfterVal_sim hra
  | closeBrace =>
    simp only [hst] at hra ⊢
    simp only [BufRel, hst, bufUse] at h
    exact caseCloseBrace_sim h.1 h.2 hra
  | newCtx =>
    simp only [hst] at hra ⊢
    simp only [BufRel, hst, bufUse] at h
    obtain rfl := some.inj hra
    simp only [caseNewCtx, halloc, Bool.not_true, Bool.false_eq_true, and_false, if_false]
    exact ⟨_, rfl, .more (.of_empty h.1 h.2)⟩
  | rmCtx =>
    simp only [hst] at hra ⊢
    simp only [BufRel, hst, bufUse] at h
    obtain rfl := some.inj hra
    exact ⟨_, rfl, .more (.of_empty h.1 h.2)⟩
  | keyFirst =>
    simp only [hst] at hra ⊢
    simp only [BufRel, hst, bufUse] at h
    by_cases h1 : c = 0x7d
    · rw [if_pos h1] at hra ⊢
      obtain rfl := some.inj hra
      exact ⟨_, rfl, .more (.of_empty h.1 h.2)⟩
    · rw [if_neg h1] at hra ⊢
      obtain rfl := some.inj hra
      exact ⟨_, rfl, caseKey_sim (a := { a with state := .key }) h.1 h.2⟩
  | key =>
    simp only [hst] at hra ⊢
    simp only [BufRel, hst, bufUse] at h
    obtain rfl := some.inj hra
    exact ⟨_, rfl, caseKey_sim h.1 h.2⟩
  | afterKey =>
    simp only [hst] at hra ⊢
    obtain rfl := some.inj hra
    refine ⟨_, rfl, ?_⟩
    simp only [caseAfterKey]
    split
    · exact .more (.of_empty rfl has_null)
    · exact .stop rfl

/-- **A pass of the parser follows the machine.** -/
theorem jsonPass_sim (halloc : ∀ n, alloc n = true) (h : BufRel a b (c :: cs)) {er : FfparsE}
    {consumed : Bool} (ha : jsonByte floatVal a c = some (a', er, consumed)) :
    ∃ b', jsonPass (ffarrOps alloc) alloc floatVal (a.withBuf b v r) c (c :: cs) =
        some (a'.withBuf b' v r, er, consumed) ∧
      (er.verdict = .more → BufRel a' b' (if consumed then cs else c :: cs)) ∧
      (er.verdict = .event →
        b'.bytes = a'.buf ∧ bufUse a'.state a'.nextst ≠ .live ∧ BufRel a' b' []) := by
  simp only [jsonByte, jsonPass, bind_eq_bind, bind_eq_some_iff] at ha ⊢
  obtain ⟨⟨a₁, er₁, again⟩, hsw, ha⟩ := ha
  obtain ⟨rc, hrc, hsim⟩ := jsonSwitch_sim (a := { a with ch := a.ch + 1 }) (v := v) (r := r)
    halloc h hsw
  refine (?_ : ∃ b', (∃ r, _ ∧ _) ∧ _)
  have hrc' : jsonSwitch (ffarrOps alloc) alloc floatVal
      { a.withBuf b v r with ch := (a.withBuf b v r).ch + 1 } c (c :: cs) = some rc := hrc
  cases hsim with
  | @stop _ b' _ _ her =>
    simp only [her] at ha
    cases ha
    exact ⟨b', ⟨_, hrc', by simp only [her]⟩, by simp [her], by simp [her]⟩
  | @more _ b' _ h' =>
    cases again with
    | true =>
      cases ha
      exact ⟨b', ⟨_, hrc', rfl⟩, fun _ => h', fun hv => by cases hv⟩
    | false =>
      simp only [FfparsE.verdict, Bool.false_eq_true, if_false] at ha
      split at ha
      · next hnl =>
          cases ha
          refine ⟨b', ⟨_, hrc', ?_⟩, fun _ => h', fun hv => by cases hv⟩
          simp only [FfparsE.verdict, Bool.false_eq_true, if_false, if_pos hnl]
          rfl
      · next hnl =>
          cases ha
          refine ⟨b', ⟨_, hrc', ?_⟩, fun _ => h', fun hv => by cases hv⟩
          simp only [FfparsE.verdict, Bool.false_eq_true, if_false, if_neg hnl]
  | @value _ b' _ _ her hb hu h' =>
    simp only [her] at ha
    cases ha
    exact ⟨b', ⟨_, hrc', by simp only [her]⟩, by simp [her], fun _ => ⟨hb, hu, h'⟩⟩

theorem jsonFin_of_ne_more {er : FfparsE} (her : er ≠ .more) (p : Ffjson Ffarr δ) :
    jsonFin (ffarrOps alloc) p er = ({ p with val := p.buf.bytes, ret := er }, er) := by
  simp [jsonFin, her, ffarrOps]

theorem jsonFin_more (halloc : ∀ n, alloc n = true) (h : BufRel a b []) :
    ∃ b' val', jsonFin (ffarrOps alloc) (a.withBuf b v r) .more =
        (a.withBuf b' val' .more, .more) ∧
      ∀ mem d, BufRel a (b'.stale mem) d := by
  have hlen : (ffarrOps alloc).len (a.withBuf b v r).buf = b.len := rfl
  by_cases h0 : b.len = 0
  · refine ⟨b, b.bytes, ?_, fun mem d => ?_⟩
    · simp only [jsonFin]
      rw [hlen, if_neg (by simp [h0])]
      rfl
    · have hown : b.Owned := by
        rintro data len rfl
        exact h0
      exact (h.of_owned hown mem d).2
  have hstore : ∃ b', valStore alloc b [] = some b' ∧
      ∀ mem d, BufRel a (b'.stale mem) d := by
    cases hu : bufUse a.state a.nextst with
    | dead =>
      obtain ⟨b', hb'⟩ := valStore_some halloc b []
      exact ⟨b', hb', fun mem d => by simp only [BufRel, hu]⟩
    | empty =>
      simp only [BufRel, hu] at h
      exact absurd h.2.2 h0
    | live =>
      simp only [BufRel, hu] at h
      obtain ⟨b', hb', hhas, hown⟩ := valStore_spec halloc h.1 []
      rw [append_nil] at hhas
      refine ⟨b', hb', fun mem d => ?_⟩
      simp only [BufRel, hu]
      exact ⟨(hown.stale hhas mem).2, fun _ _ => (hown.stale hhas mem).1.adjacent d⟩
  obtain ⟨b', hb', hrel⟩ := hstore
  refine ⟨b', b'.bytes, ?_, hrel⟩
  have hb'' : (ffarrOps alloc).store (a.withBuf b v r).buf [] = some b' := hb'
  simp only [jsonFin, hlen, hb'']
  rw [if_pos ⟨trivial, h0⟩]
  rfl

/-- The event that the caller sees when `ffjson_parse` returns. -/
def parseEvent (p : Ffjson Ffarr δ) (er : FfparsE) : JsonEvent δ := jsonEvent p p.val er

/-- **The parser follows the machine**, whatever happens to the memory of the chunks before. -/
theorem json_chunkSim (halloc : ∀ n, alloc n = true) (mem : List UInt8 → List UInt8) :
    ChunkSim (jsonChunk alloc floatVal) (jsonByte floatVal) FfparsE.verdict .more
      (jsonFin (ffarrOps alloc)) (Ffjson.stale mem) parseEvent
      (fun a er => jsonEvent a a.buf er) JsonRel where
  more_iff := FfparsE.verdict_more
  step := by
    rintro p a c cs a' er consumed ⟨b, v, r, rfl, h⟩ hpass
    obtain ⟨b', hcpass, hmore, hevent⟩ := jsonPass_sim (v := v) (r := r) halloc h hpass
    refine ⟨_, hcpass, fun hv => ⟨b', v, r, rfl, hmore hv⟩, fun hv => ?_, fun hv => ?_⟩
    · obtain ⟨hbytes, hu, hrel⟩ := hevent hv
      have hne : er ≠ .more := by
        rintro rfl
        cases hv
      refine ⟨_, jsonFin_of_ne_more hne _, ?_, fun d => ⟨⟨b', _, _, rfl, ?_⟩, ⟨_, _, _, rfl, ?_⟩⟩⟩
      · simp only [parseEvent, jsonEvent, Ffjson.withBuf, hbytes]
      · exact (hrel.of_not_live hu mem d).1
      · exact (hrel.of_not_live hu mem d).2
    · have hne : er ≠ .more := by
        rintro rfl
        cases hv
      exact ⟨_, jsonFin_of_ne_more hne _⟩
  done := by
    rintro p a ⟨b, v, r, rfl, h⟩
    obtain ⟨b', val', hfin, hrel⟩ := jsonFin_more (v := v) (r := r) halloc h
    exact ⟨_, hfin, fun d => ⟨_, _, _, rfl, hrel mem d⟩⟩

/-- The caller: the chunks one after another, with at most `n` calls for each. -/
def jsonFeed (alloc : ℕ → Bool) (floatVal : List UInt8 → δ) (mem : List UInt8 → List UInt8) (n : ℕ)
    (ds : List (List UInt8)) : Option (Ffjson Ffarr δ × List (JsonEvent δ) × FfparsE) :=
  feedChunks (ffjsonParse alloc floatVal n) FfparsE.verdict parseEvent (Ffjson.stale mem) n
    (ffjsonParseinit Ffarr.null) .more ds

theorem jsonFeed_eq (halloc : ∀ n, alloc n = true) (mem : List UInt8 → List UInt8) {N n : ℕ}
    (hn : N < n) {ds : List (List UInt8)} (hds : ∀ d ∈ ds, d ≠ []) {es : List (JsonEvent δ)}
    {er : FfparsE}
    (hrun : jsonRun floatVal N (ffjsonParseinit []) .more ds.flatten = some (a', es, er)) :
    ∃ p, jsonFeed alloc floatVal mem n ds = some (p, es, er) :=
  (json_chunkSim halloc mem).feedChunks_eq hn hds
    (fun _ => ⟨Ffarr.null, [], .more, rfl, .of_empty rfl has_null⟩) (by simp [FfparsE.verdict]) hrun

/-- **However the input is divided** into chunks that are not empty, parsing them one after
another gives the same events and the same last code as parsing it at once. -/
theorem ffjson_parse_chunks {δ : Type} {alloc : ℕ → Bool} (halloc : ∀ n, alloc n = true)
    (floatVal : List UInt8 → δ) (mem : List UInt8 → List UInt8) {ds : List (List UInt8)}
    (hds : ∀ d ∈ ds, d ≠ []) {n : ℕ} (hn : 6 * ds.flatten.length + 5 < n) :
    ∃ p p' es er, jsonFeed alloc floatVal mem n ds = some (p, es, er) ∧
      jsonFeed alloc floatVal mem n [ds.flatten] = some (p', es, er) := by
  obtain ⟨⟨a, es, er⟩, hrun⟩ := jsonRun_total floatVal (a := ffjsonParseinit []) trivial .more
    ds.flatten le_rfl
  obtain ⟨p, hp⟩ := jsonFeed_eq halloc mem hn hds hrun
  by_cases hnil : ds.flatten = []
  · obtain rfl : ds = [] := by
      cases ds with
      | nil => rfl
      | cons d ds => exact absurd (append_eq_nil_iff.mp hnil).1 (hds d mem_cons_self)
    obtain ⟨n, rfl⟩ : ∃ m, n = m + 1 := ⟨n - 1, by omega⟩
    exact ⟨_, _, [], .more, rfl, rfl⟩
  · have hrun' : jsonRun floatVal (6 * ds.flatten.length + 5) (ffjsonParseinit []) .more
        [ds.flatten].flatten = some (a, es, er) := by
      simpa using hrun
    obtain ⟨p', hp'⟩ := jsonFeed_eq halloc mem hn (by simpa using hnil) hrun'
    exact ⟨p, p', es, er, hp, hp'⟩

/-- An array with a string, cut inside of an escape sequence. -/
theorem ffjson_parse_chunks_example :
    ∃ p p' es er, jsonFeed (fun _ => true) (fun _ => ()) (fun _ => [])
        100 [[0x5b, 0x22, 0x61, 0x5c], [0x6e, 0x22, 0x5d]] = some (p, es, er) ∧
      jsonFeed (fun _ => true) (fun _ => ()) (fun _ => [])
        100 [[0x5b, 0x22, 0x61, 0x5c, 0x6e, 0x22, 0x5d]] = some (p', es, er) :=
  @ffjson_parse_chunks Unit (fun _ => true) (fun _ => rfl) (fun _ => ()) (fun _ => [])
    [[0x5b, 0x22, 0x61, 0x5c], [0x6e, 0x22, 0x5d]] (by decide) 100 (by decide)

end Simulation

end FF
