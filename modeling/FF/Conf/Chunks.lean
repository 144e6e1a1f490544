import FF.Conf.Basic
import FF.Json.Chunks

/-!
# The configuration parser, chunk by chunk

The parser is compared with the machine that sees one byte at a time and keeps the bytes of the key
or value itself. The two differ in the buffer only, and how that of the parser is related to the
chunk depends on the state (`BufRel`): a reference is continued in a state that adds bytes, and
between the closing quote of a key and the next character it only waits to be reported.
-/

namespace FF

namespace Conf

/-! ### The machine -/

/-- A pass of the machine. -/
def confByte (a : Ffconf (List UInt8)) (ch : UInt8) :
    Option (Ffconf (List UInt8) × FfparsE × Bool) :=
  some (confPass listOps (fun _ => true) a ch [ch])

/-- What the caller sees of an event: the code, the type, the text, and the number of open
contexts. -/
structure ConfEvent where
  code : FfparsE
  type : FfconfT
  val : List UInt8
  ctxs : ℕ
  deriving DecidableEq, Repr

/-- The event with the code `er` and the text `val`. -/
def confEvent {B : Type} (p : Ffconf B) (val : List UInt8) (er : FfparsE) : ConfEvent :=
  ⟨er, p.type, val, p.ctxs⟩

/-- The machine on `d`. -/
def confRun (n : ℕ) (a : Ffconf (List UInt8)) (er : FfparsE) (d : List UInt8) :
    Option (Ffconf (List UInt8) × List ConfEvent × FfparsE) :=
  byteRun confByte FfparsE.verdict (fun a er => confEvent a a.buf er) n a er d

/-- Where the parser may go on after whitespace. -/
@[grind =] def ResumeOk : ConfIdx → Prop
  | .key | .val | .valSplit => True
  | _ => False

/-- The states that occur. -/
@[grind =] def ConfInv {B : Type} (p : Ffconf B) : Prop :=
  match p.state with
  | .iwspace | .icmtBegin | .icmtLine | .icmtMline | .icmtMlineslash | .newCtx => ResumeOk p.nextst
  | .err | .valFirst | .none => False
  | _ => True

/-- How many passes may leave the character. -/
@[grind =] def confRank {B : Type} (p : Ffconf B) (ch : UInt8) : ℕ :=
  if endsBare ch then
    match p.state with
    | .key | .keyFirst | .val => 3
    | .keyBare | .valBare | .keySplit | .rmCtx => 2
    | .valSplit | .newCtx | .icmtLine => 1
    | _ => 0
  else
    match p.state with
    | .newCtx => 3
    | .iwspace => 2
    | .key | .keyFirst | .val | .keySplit | .rmCtx => 1
    | _ => 0

theorem confRank_le {B : Type} (p : Ffconf B) (ch : UInt8) : confRank p ch ≤ 3 := by
  unfold confRank
  split <;> split <;> omega

/-- What the switch may do from the state `a`. -/
structure SwitchOk {B : Type} (a : Ffconf B) (ch : UInt8) (r : PassRes B) : Prop where
  inv : r.2.1.verdict ≠ .stop → ConfInv r.1
  rank : r.2.1.verdict ≠ .stop → r.2.2 = true → confRank r.1 ch < confRank a ch

section Invariant

variable {a : Ffconf (List UInt8)} {ch : UInt8}

@[simp] theorem addByte_listOps (a : Ffconf (List UInt8)) (data : List UInt8) :
    addByte listOps a data = ({ a with buf := a.buf ++ data.take 1 }, .more) := rfl

theorem SwitchOk.taken {B : Type} {a : Ffconf B} {ch : UInt8} {r : PassRes B} (h : ConfInv r.1)
    (hagain : r.2.2 = false) : SwitchOk a ch r :=
  ⟨fun _ => h, fun _ hag => by rw [hagain] at hag; cases hag⟩

theorem SwitchOk.error {B : Type} {a : Ffconf B} {ch : UInt8} {r : PassRes B}
    (h : r.2.1.verdict = .stop) : SwitchOk a ch r :=
  ⟨fun hns => absurd h hns, fun hns => absurd h hns⟩

theorem hdlCmt_inv (hst : a.state = .icmtBegin ∨ a.state = .icmtLine ∨ a.state = .icmtMline ∨
    a.state = .icmtMlineslash) (h : ConfInv a) : ConfInv (hdlCmt a ch).1 := by
  rcases hst with hst | hst | hst | hst <;> simp only [hdlCmt, hst] <;>
    simp only [ConfInv, hst] at h
  · split
    · exact h
    · split
      · exact h
      · simpa [ConfInv, hst] using h
  · split
    · exact h
    · simpa [ConfInv, hst] using h
  · split
    · exact h
    · simpa [ConfInv, hst] using h
  · split <;> exact h

theorem caseIwspace_ok (hst : a.state = .iwspace) (h : ConfInv a) :
    SwitchOk a ch (caseIwspace listOps a ch) := by
  simp only [ConfInv, hst] at h
  unfold caseIwspace
  split
  · exact .taken (by simp [ConfInv, confCleardata, hst, ResumeOk]) rfl
  split
  · exact .taken (by simpa [ConfInv, hst] using h) rfl
  split
  · exact .taken h rfl
  split
  · exact .taken h rfl
  next hnl hws hslash hsharp =>
    have hends : endsBare ch = false := by
      simp [endsBare, hws, hslash, hsharp]
    refine ⟨fun _ => ?_, fun _ _ => ?_⟩
    · revert h
      cases hn : a.nextst <;> simp [ConfInv, ResumeOk]
    · revert h
      cases hn : a.nextst <;> simp [confRank, ResumeOk, hst, hends]

theorem caseKey_ok (ha : confRank a ch = if endsBare ch then 3 else 1) (p : Ffconf (List UInt8)) :
    SwitchOk a ch (caseKey p ch) := by
  unfold caseKey
  split
  · exact .taken trivial rfl
  · split
    · exact .taken trivial rfl
    · refine ⟨fun _ => trivial, fun _ _ => ?_⟩
      rw [ha]
      cases hends : endsBare ch <;> simp [confRank, hends]

theorem caseVal_ok (hst : a.state = .val) : SwitchOk a ch (caseVal a ch) := by
  unfold caseVal
  split
  · exact .taken trivial rfl
  · split
    · exact .taken trivial rfl
    · refine ⟨fun _ => trivial, fun _ _ => ?_⟩
      cases hends : endsBare ch <;> simp [confRank, hends, hst]

theorem caseBare_ok (hst : a.state = .keyBare ∨ a.state = .valBare) (data : List UInt8) :
    SwitchOk a ch (caseBare listOps a ch data) := by
  simp only [caseBare, addByte_listOps]
  cases hends : endsBare ch with
  | false =>
    refine .taken ?_ rfl
    rcases hst with hst | hst <;> simp [ConfInv, hst]
  | true =>
    simp only [Bool.not_true, Bool.false_eq_true, if_false]
    split
    · refine ⟨fun _ => trivial, fun _ _ => ?_⟩
      rcases hst with hst | hst <;> simp [confRank, hends, hst]
    · refine ⟨fun _ => trivial, fun _ _ => ?_⟩
      rcases hst with hst | hst <;> simp [confRank, hends, hst]

theorem confSwitch_ok (h : ConfInv a) : SwitchOk a ch (confSwitch listOps (fun _ => true) a ch [ch]) := by
  unfold confSwitch
  cases hst : a.state with
  | none | err | valFirst => simp [ConfInv, hst] at h
  | iwspace => exact caseIwspace_ok hst h
  | icmtBegin | icmtMline | icmtMlineslash => exact .taken (hdlCmt_inv (by simp [hst]) h) rfl
  | icmtLine =>
    simp only
    split
    · next hnl =>
        have hends : endsBare ch = true := by
          rw [hnl]
          rfl
        refine ⟨fun _ => ?_, fun _ _ => by simp [confRank, hends, hst]⟩
        simpa [ConfInv, hst] using h
    · exact .taken (hdlCmt_inv (by simp [hst]) h) rfl
  | keyFirst => exact caseKey_ok (by simp [confRank, hst]) _
  | key => exact caseKey_ok (by simp [confRank, hst]) _
  | keyBare =>
    simp only [caseKeyBare]
    split
    · exact .taken trivial rfl
    · exact caseBare_ok (.inl hst) [ch]
  | valBare => exact caseBare_ok (.inr hst) [ch]
  | val => exact caseVal_ok hst
  | keySplit =>
    simp only [caseKeySplit]
    split
    · exact .taken trivial rfl
    · next hdot =>
        refine ⟨fun _ => trivial, fun _ _ => ?_⟩
        cases hends : endsBare ch <;> simp [confRank, hends, hst]
  | valSplit =>
    simp only [caseValSplit]
    cases hends : endsBare ch with
    | false => exact .error rfl
    | true =>
      exact ⟨fun _ => trivial, fun _ _ => by simp [confRank, hends, hst]⟩
  | quot =>
    refine .taken ?_ rfl
    simp only [hdlQuote, addByte_listOps]
    split
    · split <;> trivial
    · split
      · trivial
      · split <;> simp [ConfInv, hst]
  | quotEsc =>
    refine .taken ?_ rfl
    simp only [hdlEsc, store_listOps]
    split
    · simp [ConfInv, hst]
    · split
      · simp [ConfInv, hst]
      · simp [ConfInv, hst]
      · trivial
  | newCtx =>
    simp only [caseNewCtx]
    rw [if_neg (by simp)]
    simp only [ConfInv, hst] at h
    refine ⟨fun _ => h, fun _ _ => ?_⟩
    cases hends : endsBare ch <;> simp [confRank, hends, hst]
  | rmCtx =>
    simp only [caseRmCtx]
    refine ⟨fun _ => trivial, fun _ _ => ?_⟩
    cases hends : endsBare ch <;> simp [confRank, hends, hst]

/-- **A pass keeps the invariant**, and a character that is not consumed lowers the rank. -/
theorem confByte_total (a : Ffconf (List UInt8)) (ch : UInt8) (h : ConfInv a) :
    ∃ a' er consumed, confByte a ch = some (a', er, consumed) ∧
      (er.verdict ≠ .stop →
        ConfInv a' ∧ (consumed = false → confRank a' ch < confRank a ch)) := by
  obtain ⟨a', er, again, hsw⟩ : ∃ a' er again, confSwitch listOps (fun _ => true)
      { a with ch := a.ch + 1 } ch [ch] = (a', er, again) := ⟨_, _, _, rfl⟩
  obtain ⟨hinv, hrank⟩ := @confSwitch_ok { a with ch := a.ch + 1 } ch h
  simp only [hsw] at hinv hrank
  simp only [confByte, confPass, hsw]
  cases hv : er.verdict with
  | more =>
    have hns : er.verdict ≠ .stop := by simp [hv]
    cases again with
    | true => exact ⟨_, _, _, rfl, fun _ => ⟨hinv hns, fun _ => hrank hns rfl⟩⟩
    | false =>
      simp only [Bool.false_eq_true, if_false]
      split
      · exact ⟨_, _, _, rfl, fun _ => ⟨hinv hns, fun hc => Bool.noConfusion hc⟩⟩
      · exact ⟨_, _, _, rfl, fun _ => ⟨hinv hns, fun hc => Bool.noConfusion hc⟩⟩
  | event =>
    have hns : er.verdict ≠ .stop := by simp [hv]
    exact ⟨_, _, _, rfl, fun _ => ⟨hinv hns, fun hc => hrank hns (by simpa using hc)⟩⟩
  | stop => exact ⟨_, _, _, rfl, fun hns => absurd hv hns⟩

/-- **The machine ends** on every input. -/
theorem confRun_total (h : ConfInv a) (er : FfparsE) (d : List UInt8) {n : ℕ}
    (hn : 4 * d.length ≤ n) : ∃ r, confRun n a er d = some r :=
  byteRun_total confRank_le confByte_total h er d hn

end Invariant

/-! ### The parser and the machine -/

section Simulation

/-- A pass of the parser over a chunk. -/
@[grind =] def confChunk (alloc : ℕ → Bool) (p : Ffconf Ffarr) :
    List UInt8 → Option (Ffconf Ffarr × FfparsE × Bool)
  | [] => none
  | c :: cs => some (confPass (ffarrOps alloc) alloc p c (c :: cs))

/-- `ffconf_parse`: the state, the code and the rest of the chunk. -/
def ffconfParse (alloc : ℕ → Bool) (n : ℕ) (p : Ffconf Ffarr) (data : List UInt8) :
    Option (Ffconf Ffarr × FfparsE × List UInt8) :=
  callWith (confChunk alloc) FfparsE.verdict .more (confFin (ffarrOps alloc)) n p data

/-- The memory of the chunk before has changed. -/
@[grind =] def Ffconf.stale (mem : List UInt8 → List UInt8) (p : Ffconf Ffarr) : Ffconf Ffarr :=
  { p with buf := p.buf.stale mem }

/-- The state `a` with another buffer, and another value and code of the last call. The memory of
the context stack is that of the parser. -/
def Ffconf.withBuf {B B' : Type} (a : Ffconf B) (buf : B') (val : List UInt8) (ret : FfparsE) :
    Ffconf B' where
  state := a.state
  nextst := a.nextst
  type := a.type
  ret := ret
  line := a.line
  ch := a.ch
  esc := a.esc
  val := val
  buf := buf
  ctxs := a.ctxs
  ctxsCap := a.ctxsCap

/-- The use of the buffer. -/
@[grind =] def bufUse : ConfIdx → BufUse
  | .keyBare | .valBare | .quot | .quotEsc | .keySplit => .live
  | .valSplit | .keyFirst => .dead
  | _ => .empty

/-- The buffer `b` of the parser, in the state `a` of the machine, before the rest `d` of the
chunk. A reference ends at `d` where it may be continued. -/
@[grind =] def BufRel (a : Ffconf (List UInt8)) (b : Ffarr) (d : List UInt8) : Prop :=
  match bufUse a.state with
  | .empty => a.buf = [] ∧ b.Has []
  | .live => b.Has a.buf ∧ (a.state ≠ .quotEsc → a.state ≠ .keySplit → b.Adjacent d)
  | .dead => True

/-- The parser `p` before the rest `d` of the chunk and the machine `a` are in the same state. -/
def ConfRel (p : Ffconf Ffarr) (a : Ffconf (List UInt8)) (d : List UInt8) : Prop :=
  ConfInv a ∧ ∃ b v r, p = a.withBuf b v r ∧ BufRel a b d

variable {a a' : Ffconf (List UInt8)} {b : Ffarr} {d : List UInt8}

theorem BufRel.of_empty (ha : a.buf = []) (hb : b.Has []) : BufRel a b d := by
  cases hu : bufUse a.state <;> simp only [BufRel, hu]
  · exact ⟨ha, hb⟩
  · exact ⟨by rwa [ha], fun _ _ => hb.owned.adjacent d⟩

theorem BufRel.of_owned (h : BufRel a b d) (hb : b.Owned) (mem : List UInt8 → List UInt8)
    (d' : List UInt8) : BufRel a b d' ∧ BufRel a (b.stale mem) d' := by
  cases hu : bufUse a.state <;> simp only [BufRel, hu] at h ⊢
  · exact ⟨h, h.1, (hb.stale h.2 mem).2⟩
  · exact ⟨⟨h.1, fun _ _ => hb.adjacent d'⟩, (hb.stale h.1 mem).2,
      fun _ _ => (hb.stale h.1 mem).1.adjacent d'⟩
  · exact ⟨trivial, trivial⟩

theorem BufRel.of_not_live (h : BufRel a b d) (hlive : bufUse a.state ≠ .live)
    (mem : List UInt8 → List UInt8) (d' : List UInt8) :
    BufRel a b d' ∧ BufRel a (b.stale mem) d' := by
  cases hu : bufUse a.state <;> simp only [BufRel, hu] at h ⊢
  · exact ⟨h, h.1, (h.2.owned.stale h.2 mem).2⟩
  · exact absurd hu hlive
  · exact ⟨trivial, trivial⟩

/-- A pass of the machine, and one of the parser at the character `c` before `cs` that goes like
it. -/
inductive PassSim (c : UInt8) (cs : List UInt8) (r : FfparsE) :
    PassRes (List UInt8) → PassRes Ffarr → Prop
  | stop {a b v er again} (her : er.verdict = .stop) :
      PassSim c cs r (a, er, again) (a.withBuf b v r, er, again)
  | more {a b v again} (h : BufRel a b (if again then c :: cs else cs)) :
      PassSim c cs r (a, .more, again) (a.withBuf b v r, .more, again)
  | value {a b v er again} (her : er.verdict = .event) (hb : b.bytes = a.buf)
      (hu : bufUse a.state ≠ .live) (h : BufRel a b []) :
      PassSim c cs r (a, er, again) (a.withBuf b v r, er, again)

variable {alloc : ℕ → Bool} {c : UInt8} {cs v : List UInt8} {r : FfparsE}

theorem addByte_sim (halloc : ∀ n, alloc n = true) (hb : b.Has a.buf)
    (hadj : b.Adjacent (c :: cs)) :
    ∃ b', addByte (ffarrOps alloc) (a.withBuf b v r) (c :: cs) =
        (Ffconf.withBuf { a with buf := a.buf ++ [c] } b' v r, .more) ∧
      b'.Has (a.buf ++ [c]) ∧ b'.Adjacent cs := by
  obtain ⟨b', hadd, h'⟩ := valAdd_spec halloc hb hadj
  exact ⟨b', by simp [addByte, ffarrOps, Ffconf.withBuf, hadd], h'⟩

theorem PassSim.added (halloc : ∀ n, alloc n = true)
    (hst : a.state = .keyBare ∨ a.state = .valBare ∨ a.state = .quot) (h : BufRel a b (c :: cs)) :
    PassSim c cs r
      ((addByte listOps a [c]).1, (addByte listOps a [c]).2, false)
      ((addByte (ffarrOps alloc) (a.withBuf b v r) (c :: cs)).1,
        (addByte (ffarrOps alloc) (a.withBuf b v r) (c :: cs)).2, false) := by
  have hlive : bufUse a.state = .live ∧ a.state ≠ .quotEsc ∧ a.state ≠ .keySplit := by
    rcases hst with hst | hst | hst <;> simp [hst, bufUse]
  simp only [BufRel, hlive.1] at h
  obtain ⟨b', hadd, hb', hadj⟩ := addByte_sim (v := v) (r := r) halloc h.1 (h.2 hlive.2.1 hlive.2.2)
  rw [hadd, addByte_listOps]
  refine .more ?_
  simp only [BufRel, hlive.1]
  exact ⟨hb', fun _ _ => hadj⟩

theorem caseIwspace_sim (hst : a.state = .iwspace) (hinv : ConfInv a) (h : BufRel a b (c :: cs)) :
    PassSim c cs r (caseIwspace listOps a c)
      (caseIwspace (ffarrOps alloc) (a.withBuf b v r) c) := by
  simp only [BufRel, hst, bufUse] at h
  simp only [caseIwspace]
  split
  · exact .more (.of_empty rfl has_null)
  split
  · exact .more (.of_empty h.1 h.2)
  · split
    · exact .more (.of_empty h.1 h.2)
    · split
      · exact .more (.of_empty h.1 h.2)
      · exact .more (.of_empty h.1 h.2)

theorem hdlCmt_sim (hst : a.state = .icmtBegin ∨ a.state = .icmtLine ∨ a.state = .icmtMline ∨
    a.state = .icmtMlineslash) (h : BufRel a b (c :: cs)) :
    PassSim c cs r ((hdlCmt a c).1, (hdlCmt a c).2, false)
      ((hdlCmt (a.withBuf b v r) c).1, (hdlCmt (a.withBuf b v r) c).2, false) := by
  have hbuf : a.buf = [] ∧ b.Has [] := by
    rcases hst with hst | hst | hst | hst <;> simpa only [BufRel, hst, bufUse] using h
  have hst' : (a.withBuf b v r).state = a.state := rfl
  rcases hst with hst | hst | hst | hst <;> simp only [hdlCmt, hst', hst]
  · split
    · exact .more (.of_empty hbuf.1 hbuf.2)
    · split
      · exact .more (.of_empty hbuf.1 hbuf.2)
      · exact .stop rfl
  · split
    · exact .more (.of_empty hbuf.1 hbuf.2)
    · exact .more (.of_empty hbuf.1 hbuf.2)
  · split
    · exact .more (.of_empty hbuf.1 hbuf.2)
    · exact .more (.of_empty hbuf.1 hbuf.2)
  · exact .more (.of_empty hbuf.1 hbuf.2)

theorem caseKey_sim (ha : a.buf = []) (hb : b.Has []) :
    PassSim c cs r (caseKey a c) (caseKey (a.withBuf b v r) c) := by
  simp only [caseKey]
  split
  · exact .more (.of_empty ha hb)
  · split
    · exact .value rfl (hb.1.trans ha.symm) (by simp [bufUse]) (.of_empty ha hb)
    · exact .more (.of_empty ha hb)

theorem caseVal_sim (ha : a.buf = []) (hb : b.Has []) :
    PassSim c cs r (caseVal a c) (caseVal (a.withBuf b v r) c) := by
  simp only [caseVal]
  split
  · exact .more (.of_empty ha hb)
  · split
    · exact .value rfl (hb.1.trans ha.symm) (by simp [bufUse]) (.of_empty ha hb)
    · exact .more (.of_empty ha hb)

theorem caseBare_sim (halloc : ∀ n, alloc n = true)
    (hst : a.state = .keyBare ∨ a.state = .valBare) (h : BufRel a b (c :: cs)) :
    PassSim c cs r (caseBare listOps a c [c])
      (caseBare (ffarrOps alloc) (a.withBuf b v r) c (c :: cs)) := by
  have hb : b.Has a.buf := by
    rcases hst with hst | hst <;> simp only [BufRel, hst, bufUse] at h <;> exact h.1
  have hst' : (a.withBuf b v r).state = a.state := rfl
  simp only [caseBare, hst']
  cases endsBare c with
  | false => exact .added halloc (by tauto) h
  | true =>
    simp only [Bool.not_true, Bool.false_eq_true, if_false]
    split
    · exact .value rfl hb.1 (by simp [bufUse]) (by simp [BufRel, bufUse])
    · exact .value rfl hb.1 (by simp [bufUse]) (by simp [BufRel, bufUse])

theorem hdlQuote_sim (halloc : ∀ n, alloc n = true) (hst : a.state = .quot)
    (h : BufRel a b (c :: cs)) :
    PassSim c cs r ((hdlQuote listOps a c [c]).1, (hdlQuote listOps a c [c]).2, false)
      ((hdlQuote (ffarrOps alloc) (a.withBuf b v r) c (c :: cs)).1,
        (hdlQuote (ffarrOps alloc) (a.withBuf b v r) c (c :: cs)).2, false) := by
  have hadded := PassSim.added (v := v) (r := r) halloc (by tauto) h
  simp only [BufRel, hst, bufUse] at h
  have hn : (a.withBuf b v r).nextst = a.nextst := rfl
  simp only [hdlQuote, hn]
  split
  · split
    · refine .more ?_
      exact ⟨h.1, fun _ hne => absurd rfl hne⟩
    · exact .value rfl h.1.1 (by simp [bufUse]) (by simp [BufRel, bufUse])
  split
  · refine .more ?_
    exact ⟨h.1, fun hne => absurd rfl hne⟩
  · split
    · exact .stop rfl
    · exact hadded

theorem hdlEsc_sim (halloc : ∀ n, alloc n = true) (hst : a.state = .quotEsc)
    (h : BufRel a b (c :: cs)) :
    PassSim c cs r ((hdlEsc listOps a c).1, (hdlEsc listOps a c).2, false)
      ((hdlEsc (ffarrOps alloc) (a.withBuf b v r) c).1,
        (hdlEsc (ffarrOps alloc) (a.withBuf b v r) c).2, false) := by
  simp only [BufRel, hst, bufUse] at h
  have he : (a.withBuf b v r).esc = a.esc := rfl
  simp only [hdlEsc, he, store_listOps]
  split
  · exact .stop rfl
  cases unesc (a.esc ++ [c]) with
  | error => exact .stop rfl
  | incomplete =>
    refine .more ?_
    simp only [BufRel, hst, bufUse]
    exact ⟨h.1, fun hne => absurd rfl hne⟩
  | byte x =>
    obtain ⟨b', hstore, hb', hown⟩ := valStore_spec halloc h.1 [x]
    have hstore' : (ffarrOps alloc).store (a.withBuf b v r).buf [x] = some b' := hstore
    simp only [hstore']
    refine .more ?_
    exact ⟨hb', fun _ _ => hown.adjacent _⟩

/-- **The switch of the parser follows that of the machine.** -/
theorem confSwitch_sim (halloc : ∀ n, alloc n = true) (hinv : ConfInv a)
    (h : BufRel a b (c :: cs)) :
    PassSim c cs r (confSwitch listOps (fun _ => true) a c [c])
      (confSwitch (ffarrOps alloc) alloc (a.withBuf b v r) c (c :: cs)) := by
  have hst' : (a.withBuf b v r).state = a.state := rfl
  unfold confSwitch
  rw [hst']
  cases hst : a.state with
  | none | err | valFirst => simp [ConfInv, hst] at hinv
  | iwspace => exact caseIwspace_sim hst hinv h
  | icmtBegin | icmtMline | icmtMlineslash => exact hdlCmt_sim (by simp [hst]) h
  | icmtLine =>
    simp only
    have hbuf : a.buf = [] ∧ b.Has [] := by
      simpa only [BufRel, hst, bufUse] using h
    split
    · exact .more (.of_empty hbuf.1 hbuf.2)
    · exact hdlCmt_sim (by simp [hst]) h
  | keyFirst =>
    exact caseKey_sim (a := { confCleardata listOps a with state := .key }) rfl has_null
  | key =>
    simp only [BufRel, hst, bufUse] at h
    exact caseKey_sim h.1 h.2
  | val =>
    simp only [BufRel, hst, bufUse] at h
    exact caseVal_sim h.1 h.2
  | keyBare =>
    have hbare := caseBare_sim (v := v) (r := r) halloc (.inl hst) h
    simp only [BufRel, hst, bufUse] at h
    simp only [caseKeyBare]
    split
    · exact .value rfl h.1.1 (by simp [bufUse]) (by simp [BufRel, bufUse])
    · exact hbare
  | valBare => exact caseBare_sim halloc (.inr hst) h
  | keySplit =>
    simp only [BufRel, hst, bufUse] at h
    simp only [caseKeySplit]
    split
    · exact .value rfl h.1.1 (by simp [bufUse]) (by simp [BufRel, bufUse])
    · exact .value rfl h.1.1 (by simp [bufUse]) (by simp [BufRel, bufUse])
  | valSplit =>
    simp only [caseValSplit]
    cases endsBare c with
    | false => exact .stop rfl
    | true => exact .more (.of_empty rfl has_null)
  | quot => exact hdlQuote_sim halloc hst h
  | quotEsc => exact hdlEsc_sim halloc hst h
  | newCtx =>
    simp only [BufRel, hst, bufUse] at h
    simp only [caseNewCtx, halloc]
    rw [if_neg (by simp), if_neg (by simp)]
    exact .more (.of_empty h.1 h.2)
  | rmCtx =>
    simp only [BufRel, hst, bufUse] at h
    exact .more (.of_empty h.1 h.2)

/-- **A pass of the parser follows the machine.** -/
theorem confPass_sim (halloc : ∀ n, alloc n = true) (hinv : ConfInv a)
    (h : BufRel a b (c :: cs)) {er : FfparsE} {consumed : Bool}
    (ha : confByte a c = some (a', er, consumed)) :
    ∃ b' v', confPass (ffarrOps alloc) alloc (a.withBuf b v r) c (c :: cs) =
        (a'.withBuf b' v' r, er, consumed) ∧
      (er.verdict = .more → BufRel a' b' (if consumed then cs else c :: cs)) ∧
      (er.verdict = .event →
        b'.bytes = a'.buf ∧ bufUse a'.state ≠ .live ∧ BufRel a' b' []) := by
  obtain ⟨ra, hra⟩ : ∃ ra, confSwitch listOps (fun _ => true) { a with ch := a.ch + 1 } c [c] =
      ra := ⟨_, rfl⟩
  obtain ⟨rc, hrc⟩ : ∃ rc, confSwitch (ffarrOps alloc) alloc
      { a.withBuf b v r with ch := (a.withBuf b v r).ch + 1 } c (c :: cs) = rc := ⟨_, rfl⟩
  have hsim : PassSim c cs r ra rc := by
    rw [← hra, ← hrc]
    exact confSwitch_sim (a := { a with ch := a.ch + 1 }) (v := v) (r := r) halloc hinv h
  simp only [confByte, confPass, hra] at ha
  simp only [confPass, hrc]
  cases hsim with
  | @stop _ b' v' _ _ her =>
    simp only [her] at ha ⊢
    cases ha
    exact ⟨b', v', rfl, (by rw [her]; intro hv; cases hv), by rw [her]; intro hv; cases hv⟩
  | @more _ b' v' again h' =>
    simp only [FfparsE.verdict] at ha ⊢
    cases again with
    | true =>
      cases ha
      exact ⟨b', v', rfl, fun _ => h', fun hv => by cases hv⟩
    | false =>
      simp only [Bool.false_eq_true, if_false] at ha ⊢
      split at ha
      · next hnl =>
          cases ha
          rw [if_pos hnl]
          exact ⟨b', v', rfl, fun _ => h', fun hv => by cases hv⟩
      · next hnl =>
          cases ha
          rw [if_neg hnl]
          exact ⟨b', v', rfl, fun _ => h', fun hv => by cases hv⟩
  | @value _ b' v' _ _ her hb hu h' =>
    simp only [her] at ha ⊢
    cases ha
    exact ⟨b', v', rfl, (by rw [her]; intro hv; cases hv), fun _ => ⟨hb, hu, h'⟩⟩

theorem confFin_of_ne_more {er : FfparsE} (her : er ≠ .more) (p : Ffconf Ffarr) :
    confFin (ffarrOps alloc) p er = ({ p with val := p.buf.bytes, ret := er }, er) := by
  simp [confFin, her, ffarrOps]

theorem confFin_more (halloc : ∀ n, alloc n = true) (h : BufRel a b []) :
    ∃ b' val', confFin (ffarrOps alloc) (a.withBuf b v r) .more =
        (a.withBuf b' val' .more, .more) ∧
      ∀ mem d, BufRel a (b'.stale mem) d := by
  have hlen : (ffarrOps alloc).len (a.withBuf b v r).buf = b.len := rfl
  by_cases h0 : b.len = 0
  · refine ⟨b, b.bytes, ?_, fun mem d => ?_⟩
    · simp only [confFin]
      rw [hlen, if_neg (by simp [h0])]
      rfl
    · have hown : b.Owned := by
        rintro data len rfl
        exact h0
      exact (h.of_owned hown mem d).2
  have hstore : ∃ b', valStore alloc b [] = some b' ∧
      ∀ mem d, BufRel a (b'.stale mem) d := by
    cases hu : bufUse a.state with
    | dead =>
      obtain ⟨b', hb'⟩ := valStore_some halloc b []
      exact ⟨b', hb', fun mem d => by simp only [BufRel, hu]⟩
    | empty =>
      simp only [BufRel, hu] at h
      exact absurd h.2.2 h0
    | live =>
      simp only [BufRel, hu] at h
      obtain ⟨b', hb', hhas, hown⟩ := valStore_spec halloc h.1 []
      rw [List.append_nil] at hhas
      refine ⟨b', hb', fun mem d => ?_⟩
      simp only [BufRel, hu]
      exact ⟨(hown.stale hhas mem).2, fun _ _ => (hown.stale hhas mem).1.adjacent d⟩
  obtain ⟨b', hb', hrel⟩ := hstore
  refine ⟨b', b'.bytes, ?_, hrel⟩
  have hb'' : (ffarrOps alloc).store (a.withBuf b v r).buf [] = some b' := hb'
  simp only [confFin, hlen, hb'']
  rw [if_pos ⟨trivial, h0⟩]
  rfl

/-- The event that the caller sees when `ffconf_parse` returns. -/
def parseEvent (p : Ffconf Ffarr) (er : FfparsE) : ConfEvent := confEvent p p.val er

/-- **The parser follows the machine**, whatever happens to the memory of the chunks before. -/
theorem conf_chunkSim (halloc : ∀ n, alloc n = true) (mem : List UInt8 → List UInt8) :
    ChunkSim (confChunk alloc) confByte FfparsE.verdict .more (confFin (ffarrOps alloc))
      (Ffconf.stale mem) parseEvent (fun a er => confEvent a a.buf er) ConfRel where
  more_iff := FfparsE.verdict_more
  step := by
    rintro p a c cs a' er consumed ⟨hinv, b, v, r, rfl, h⟩ hpass
    obtain ⟨b', v', hcpass, hmore, hevent⟩ := confPass_sim (v := v) (r := r) halloc hinv h hpass
    have hinv' : er.verdict ≠ .stop → ConfInv a' := by
      intro hns
      obtain ⟨a₁, er₁, consumed₁, hp, hok⟩ := confByte_total a c hinv
      obtain ⟨rfl, rfl, rfl⟩ : a₁ = a' ∧ er₁ = er ∧ consumed₁ = consumed := by
        simpa [hp] using hpass
      exact (hok hns).1
    refine ⟨_, congrArg some hcpass, fun hv => ⟨hinv' (by simp [hv]), b', v', r, rfl, hmore hv⟩,
      fun hv => ?_, fun hv => ?_⟩
    · obtain ⟨hbytes, hu, hrel⟩ := hevent hv
      have hne : er ≠ .more := by
        rintro rfl
        cases hv
      have hinv'' := hinv' (by simp [hv])
      refine ⟨_, confFin_of_ne_more hne _, ?_, fun d =>
        ⟨⟨hinv'', b', _, _, rfl, ?_⟩, ⟨hinv'', _, _, _, rfl, ?_⟩⟩⟩
      · simp only [parseEvent, confEvent, Ffconf.withBuf, hbytes]
      · exact (hrel.of_not_live hu mem d).1
      · exact (hrel.of_not_live hu mem d).2
    · have hne : er ≠ .more := by
        rintro rfl
        cases hv
      exact ⟨_, confFin_of_ne_more hne _⟩
  done := by
    rintro p a ⟨hinv, b, v, r, rfl, h⟩
    obtain ⟨b', val', hfin, hrel⟩ := confFin_more (v := v) (r := r) halloc h
    exact ⟨_, hfin, fun d => ⟨hinv, _, _, _, rfl, hrel mem d⟩⟩

/-- The caller: the chunks one after another, with at most `n` calls for each. -/
def confFeed (alloc : ℕ → Bool) (mem : List UInt8 → List UInt8) (n : ℕ) (ds : List (List UInt8)) :
    Option (Ffconf Ffarr × List ConfEvent × FfparsE) :=
  feedChunks (ffconfParse alloc n) FfparsE.verdict parseEvent (Ffconf.stale mem) n
    (ffconfParseinit alloc Ffarr.null) .more ds

/-- The state of the machine before the input. -/
def confInit : Ffconf (List UInt8) := ffconfParseinit (fun _ => true) []

theorem confInit_inv : ConfInv confInit := trivial

theorem confInit_rel (halloc : ∀ n, alloc n = true) (d : List UInt8) :
    ConfRel (ffconfParseinit alloc Ffarr.null) confInit d := by
  refine ⟨confInit_inv, Ffarr.null, [], .open, ?_, .of_empty rfl has_null⟩
  simp [ffconfParseinit, confInit, Ffconf.withBuf, halloc]

theorem confFeed_eq (halloc : ∀ n, alloc n = true) (mem : List UInt8 → List UInt8) {N n : ℕ}
    (hn : N < n) {ds : List (List UInt8)} (hds : ∀ d ∈ ds, d ≠ []) {es : List ConfEvent}
    {er : FfparsE} (hrun : confRun N confInit .more ds.flatten = some (a', es, er)) :
    ∃ p, confFeed alloc mem n ds = some (p, es, er) :=
  (conf_chunkSim halloc mem).feedChunks_eq hn hds (confInit_rel halloc)
    (by simp [FfparsE.verdict]) hrun

/-- **However the input is divided** into chunks that are not empty, parsing them one after
another gives the same events and the same last code as parsing it at once. -/
theorem ffconf_parse_chunks {alloc : ℕ → Bool} (halloc : ∀ n, alloc n = true)
    (mem : List UInt8 → List UInt8) {ds : List (List UInt8)} (hds : ∀ d ∈ ds, d ≠ []) {n : ℕ}
    (hn : 4 * ds.flatten.length < n) :
    ∃ p p' es er, confFeed alloc mem n ds = some (p, es, er) ∧
      confFeed alloc mem n [ds.flatten] = some (p', es, er) := by
  obtain ⟨⟨a, es, er⟩, hrun⟩ := confRun_total confInit_inv .more ds.flatten le_rfl
  obtain ⟨p, hp⟩ := confFeed_eq halloc mem hn hds hrun
  by_cases hnil : ds.flatten = []
  · obtain rfl : ds = [] := by
      cases ds with
      | nil => rfl
      | cons d ds => exact absurd (List.append_eq_nil_iff.mp hnil).1 (hds d List.mem_cons_self)
    obtain ⟨n, rfl⟩ : ∃ m, n = m + 1 := ⟨n - 1, by omega⟩
    exact ⟨_, _, [], .more, rfl, rfl⟩
  · have hrun' : confRun (4 * ds.flatten.length) confInit .more [ds.flatten].flatten =
        some (a, es, er) := by
      simpa using hrun
    obtain ⟨p', hp'⟩ := confFeed_eq halloc mem hn (by simpa using hnil) hrun'
    exact ⟨p, p', es, er, hp, hp'⟩

/-- A quoted value, cut inside of an escape sequence. -/
theorem ffconf_parse_chunks_example :
    ∃ p p' es er, confFeed (fun _ => true) (fun _ => [])
        100 [[0x6b, 0x20, 0x22, 0x5c], [0x6e, 0x22, 0x0a]] = some (p, es, er) ∧
      confFeed (fun _ => true) (fun _ => [])
        100 [[0x6b, 0x20, 0x22, 0x5c, 0x6e, 0x22, 0x0a]] = some (p', es, er) :=
  @ffconf_parse_chunks (fun _ => true) (fun _ => rfl) (fun _ => [])
    [[0x6b, 0x20, 0x22, 0x5c], [0x6e, 0x22, 0x0a]] (by decide) 100 (by decide)

end Simulation

end Conf

end FF
