import FF.Conf.Scheme
import FF.Lib.Refine

/-!
# The contexts of a configuration

The parser reports that a context is opened or closed before it changes its stack, so that the
number of contexts is told by the state too (`Ffconf.depth`). Two steps go wrong: a closing brace
is reported where only the context at the top level is open (`Stray`), and the line
`ctx1.key value` inside of a context makes the scheme drop the contexts around it (`Resets`).
-/

namespace FF

namespace Conf

open List Option

/-! ### The stack of the parser -/

section Depth

variable {B : Type}

/-- The number of contexts, with the one that is reported as opened and without the one that is
reported as closed. -/
def Ffconf.depth (p : Ffconf B) : ℕ :=
  match p.state with
  | .newCtx => p.ctxs + 1
  | .rmCtx => p.ctxs - 1
  | _ => p.ctxs

/-- A closing brace where a key may begin and no context is open. -/
def Stray (p : Ffconf B) (data : List UInt8) : Prop :=
  data.head? = some 0x7d ∧ (p.state = .key ∨ p.state = .keyFirst) ∧ p.ctxs ≤ 1

/-- A state in which the stack is that of the contexts. -/
def Plain (st : ConfIdx) : Prop := st ≠ .err ∧ st ≠ .newCtx ∧ st ≠ .rmCtx

instance (st : ConfIdx) : Decidable (Plain st) := inferInstanceAs (Decidable (_ ∧ _))

instance (p : Ffconf B) (data : List UInt8) : Decidable (Stray p data) :=
  inferInstanceAs (Decidable (_ ∧ _))

/-- The parser with `D` contexts open. -/
structure Depth (D : ℕ) (p : Ffconf B) : Prop where
  cap : p.ctxs ≤ p.ctxsCap
  mem : p.ctxsCap + 1 < SIZE_BOUND
  next : Plain p.nextst
  init : p.state = .err → D = 0
  depth : p.state ≠ .err → p.depth = D + 1
  rmCtx : p.state = .rmCtx → 0 < p.ctxs

/-- The parser behind a pass with the code `er`. -/
def DepthAfter (D : ℕ) (p : Ffconf B) (er : FfparsE) : Prop :=
  match er with
  | .more | .key | .val => Depth D p
  | .open => Depth (D + 1) p
  | .close => ∃ D', D = D' + 1 ∧ Depth D' p
  | _ => True

variable {o : ValOps B} {alloc : ℕ → Bool} {D : ℕ} {p p' : Ffconf B} {ch : UInt8}
  {data : List UInt8}

theorem DepthAfter.of_stop {er : FfparsE} (h : er.verdict = .stop) : DepthAfter D p er := by
  cases er <;> first | trivial | cases h

theorem Depth.of_eq (h : Depth D p) (hctxs : p'.ctxs = p.ctxs) (hcap : p'.ctxsCap = p.ctxsCap)
    (hst : p'.state = p.state) (hn : p'.nextst = p.nextst) : Depth D p' where
  cap := by rw [hctxs, hcap]; exact h.cap
  mem := by rw [hcap]; exact h.mem
  next := by rw [hn]; exact h.next
  init := by rw [hst]; exact h.init
  depth := by
    rw [hst]
    intro hne
    have hd : p'.depth = p.depth := by simp only [Ffconf.depth, hst, hctxs]
    rw [hd]
    exact h.depth hne
  rmCtx := by rw [hst, hctxs]; exact h.rmCtx

theorem Plain.depth (h : Plain p.state) : p.depth = p.ctxs := by
  obtain ⟨-, hnew, hrm⟩ := h
  unfold Ffconf.depth
  split
  · next hst => exact absurd hst hnew
  · next hst => exact absurd hst hrm
  · rfl

theorem Depth.plain (h : Depth D p) (hst : Plain p.state) (hst' : Plain p'.state)
    (hn : Plain p'.nextst) (hctxs : p'.ctxs = p.ctxs) (hcap : p'.ctxsCap = p.ctxsCap) :
    Depth D p' where
  cap := by rw [hctxs, hcap]; exact h.cap
  mem := by rw [hcap]; exact h.mem
  next := hn
  init := fun herr => absurd herr hst'.1
  depth := fun _ => by rw [hst'.depth, hctxs, ← hst.depth]; exact h.depth hst.1
  rmCtx := fun hrm => absurd hrm hst'.2.2

theorem addByte_depth (h : Depth D p) :
    DepthAfter D (addByte o p data).1 (addByte o p data).2 := by
  unfold addByte
  split
  · exact h.of_eq rfl rfl rfl rfl
  · exact .of_stop rfl

theorem caseIwspace_depth (hst : p.state = .iwspace) (h : Depth D p) :
    DepthAfter D (caseIwspace o p ch).1 (caseIwspace o p ch).2.1 := by
  have hp : Plain p.state := by simp [Plain, hst]
  unfold caseIwspace
  split
  · exact h.plain hp hp (by simp [Plain]) rfl rfl
  split
  · exact h
  · split
    · exact h.plain hp (by simp [Plain]) h.next rfl rfl
    · split
      · exact h.plain hp (by simp [Plain]) h.next rfl rfl
      · exact h.plain hp h.next (by simp [Plain]) rfl rfl

theorem hdlCmt_depth (hst : p.state = .icmtBegin ∨ p.state = .icmtLine ∨ p.state = .icmtMline ∨
    p.state = .icmtMlineslash) (h : Depth D p) :
    DepthAfter D (hdlCmt p ch).1 (hdlCmt p ch).2 := by
  have hp : Plain p.state := by rcases hst with hst | hst | hst | hst <;> simp [Plain, hst]
  unfold hdlCmt
  split
  · split
    · exact h.plain hp (by simp [Plain]) h.next rfl rfl
    · split
      · exact h.plain hp (by simp [Plain]) h.next rfl rfl
      · exact .of_stop rfl
  · split
    · exact h.plain hp (by simp [Plain]) h.next rfl rfl
    · exact h
  · split
    · exact h.plain hp (by simp [Plain]) h.next rfl rfl
    · exact h
  · refine h.plain hp ?_ h.next rfl rfl
    split <;> simp [Plain]
  · exact h

theorem caseKey_depth (hst : p.state = .key ∨ p.state = .keyFirst) (h : Depth D p)
    (hgood : ch = 0x7d → 1 < p.ctxs) : DepthAfter D (caseKey p ch).1 (caseKey p ch).2.1 := by
  have hp : Plain p.state := by rcases hst with hst | hst <;> simp [Plain, hst]
  unfold caseKey
  split
  · exact h.plain hp (by simp [Plain]) (by simp [Plain]) rfl rfl
  split
  · next hbrace =>
      have hctxs := hgood hbrace
      have hdepth := h.depth hp.1
      rw [hp.depth] at hdepth
      obtain ⟨D', rfl⟩ : ∃ D', D = D' + 1 := ⟨D - 1, by omega⟩
      refine ⟨D', rfl, h.cap, h.mem, h.next, fun herr => (by cases herr), fun _ => ?_,
        fun _ => Nat.zero_lt_of_lt hctxs⟩
      show p.ctxs - 1 = D' + 1
      omega
  · exact h.plain hp (by simp [Plain]) h.next rfl rfl

theorem caseVal_depth (hst : p.state = .val) (h : Depth D p) :
    DepthAfter D (caseVal p ch).1 (caseVal p ch).2.1 := by
  have hp : Plain p.state := by simp [Plain, hst]
  unfold caseVal
  split
  · exact h.plain hp (by simp [Plain]) (by simp [Plain]) rfl rfl
  split
  · refine ⟨h.cap, h.mem, (by simp [Plain]), fun herr => (by cases herr), fun _ => ?_,
      fun hrm => (by cases hrm)⟩
    have hdepth := h.depth hp.1
    rw [hp.depth] at hdepth
    show p.ctxs + 1 = D + 1 + 1
    omega
  · exact h.plain hp (by simp [Plain]) h.next rfl rfl

theorem caseBare_depth (hst : p.state = .keyBare ∨ p.state = .valBare) (h : Depth D p) :
    DepthAfter D (caseBare o p ch data).1 (caseBare o p ch data).2.1 := by
  have hp : Plain p.state := by rcases hst with hst | hst <;> simp [Plain, hst]
  unfold caseBare
  split
  · exact addByte_depth h
  · split <;> exact h.plain hp (by simp [Plain]) h.next rfl rfl

theorem hdlQuote_depth (hst : p.state = .quot) (h : Depth D p) :
    DepthAfter D (hdlQuote o p ch data).1 (hdlQuote o p ch data).2 := by
  have hp : Plain p.state := by simp [Plain, hst]
  unfold hdlQuote
  split
  · split <;> exact h.plain hp (by simp [Plain]) h.next rfl rfl
  · split
    · exact h.plain hp (by simp [Plain]) h.next rfl rfl
    · split
      · exact .of_stop rfl
      · exact addByte_depth h

theorem hdlEsc_depth (hst : p.state = .quotEsc) (h : Depth D p) :
    DepthAfter D (hdlEsc o p ch).1 (hdlEsc o p ch).2 := by
  have hp : Plain p.state := by simp [Plain, hst]
  simp only [hdlEsc]
  split
  · exact .of_stop rfl
  split
  · exact .of_stop rfl
  · exact h.plain hp hp h.next rfl rfl
  · split
    · exact h.plain hp (by simp [Plain]) h.next rfl rfl
    · exact .of_stop rfl

theorem caseNewCtx_depth (hmem : ∀ n, alloc n = true → n + 1 < SIZE_BOUND)
    (hst : p.state = .newCtx) (h : Depth D p) :
    DepthAfter D (caseNewCtx alloc p).1 (caseNewCtx alloc p).2.1 := by
  have hlen : (p.ctxs + 1) % SIZE_BOUND = p.ctxs + 1 :=
    Nat.mod_eq_of_lt (by have := h.cap; have := h.mem; omega)
  simp only [caseNewCtx, hlen]
  split
  · exact .of_stop rfl
  next hfull =>
    have hcap : max p.ctxsCap (p.ctxs + 1) + 1 < SIZE_BOUND := by
      rcases Nat.lt_or_ge p.ctxsCap (p.ctxs + 1) with hlt | hge
      · rw [max_eq_right hlt.le]
        refine hmem _ ?_
        by_contra hno
        exact hfull ⟨hlt, by simpa using hno⟩
      · rw [max_eq_left hge]
        exact h.mem
    refine ⟨le_max_right _ _, hcap, h.next, fun herr => (by cases herr), fun _ => ?_,
      fun hrm => (by cases hrm)⟩
    have hdepth := h.depth (by rw [hst]; simp)
    simp only [Ffconf.depth, hst] at hdepth
    exact hdepth

theorem caseRmCtx_depth (hst : p.state = .rmCtx) (h : Depth D p) :
    DepthAfter D (caseRmCtx p).1 (caseRmCtx p).2.1 := by
  have hpos := h.rmCtx hst
  have hlt : p.ctxs < SIZE_BOUND := by
    have := h.cap
    have := h.mem
    omega
  have hdepth := h.depth (by simp [hst])
  simp only [Ffconf.depth, hst] at hdepth
  simp only [caseRmCtx, sizeSub_of_le hpos hlt]
  refine ⟨(Nat.sub_le _ _).trans h.cap, h.mem, h.next, fun herr => (by cases herr), fun _ => ?_,
    fun hrm => (by cases hrm)⟩
  exact hdepth

/-- **What a pass does to the number of contexts.** -/
theorem confSwitch_depth (hmem : ∀ n, alloc n = true → n + 1 < SIZE_BOUND) (h : Depth D p)
    (hgood : ch = 0x7d → p.state = .key ∨ p.state = .keyFirst → 1 < p.ctxs) :
    DepthAfter D (confSwitch o alloc p ch data).1 (confSwitch o alloc p ch data).2.1 := by
  unfold confSwitch
  cases hst : p.state with
  | err => exact .of_stop rfl
  | none | valFirst => exact h
  | iwspace => exact caseIwspace_depth hst h
  | icmtBegin | icmtMline | icmtMlineslash => exact hdlCmt_depth (by simp [hst]) h
  | icmtLine =>
    simp only
    split
    · exact h.plain (by simp [Plain, hst]) (by simp [Plain]) h.next rfl rfl
    · exact hdlCmt_depth (by simp [hst]) h
  | keyFirst =>
    have h' : Depth D { confCleardata o p with state := .key } :=
      h.plain (by simp [Plain, hst]) (by simp [Plain]) h.next rfl rfl
    exact caseKey_depth (.inl rfl) h' fun hbrace => hgood hbrace (.inr hst)
  | key => exact caseKey_depth (.inl hst) h fun hbrace => hgood hbrace (.inl hst)
  | keyBare =>
    simp only [caseKeyBare]
    split
    · exact h.plain (by simp [Plain, hst]) (by simp [Plain]) h.next rfl rfl
    · exact caseBare_depth (.inl hst) h
  | valBare => exact caseBare_depth (.inr hst) h
  | val => exact caseVal_depth hst h
  | keySplit =>
    simp only [caseKeySplit]
    split <;> exact h.plain (by simp [Plain, hst]) (by simp [Plain]) h.next rfl rfl
  | valSplit =>
    simp only [caseValSplit]
    split
    · exact .of_stop rfl
    · exact h.plain (by simp [Plain, hst]) (by simp [Plain]) (by simp [Plain]) rfl rfl
  | quot => exact hdlQuote_depth hst h
  | quotEsc => exact hdlEsc_depth hst h
  | newCtx => exact caseNewCtx_depth hmem hst h
  | rmCtx => exact caseRmCtx_depth hst h

theorem DepthAfter.of_eq {er : FfparsE} (h : DepthAfter D p er) (hctxs : p'.ctxs = p.ctxs)
    (hcap : p'.ctxsCap = p.ctxsCap) (hst : p'.state = p.state) (hn : p'.nextst = p.nextst) :
    DepthAfter D p' er := by
  cases er with
  | more | key | val | «open» => exact Depth.of_eq h hctxs hcap hst hn
  | close =>
    obtain ⟨D', hD, h⟩ := h
    exact ⟨D', hD, h.of_eq hctxs hcap hst hn⟩
  | _ => trivial

theorem confPass_depth (hmem : ∀ n, alloc n = true → n + 1 < SIZE_BOUND) (h : Depth D p)
    (hgood : ¬ Stray p (ch :: data)) {er : FfparsE} {consumed : Bool} {cs : List UInt8}
    (hpass : confPass o alloc p ch cs = (p', er, consumed)) : DepthAfter D p' er := by
  obtain ⟨p₁, er₁, again, hsw⟩ : ∃ p₁ er₁ again,
      confSwitch o alloc { p with ch := p.ch + 1 } ch cs = (p₁, er₁, again) := ⟨_, _, _, rfl⟩
  have hafter : DepthAfter D p₁ er₁ := by
    have hsw' := @confSwitch_depth _ o _ _ { p with ch := p.ch + 1 } ch cs hmem
      (h.of_eq rfl rfl rfl rfl) fun hbrace hkey => by
        by_contra hno
        exact hgood ⟨congrArg some hbrace, hkey, Nat.le_of_not_lt hno⟩
    rwa [hsw] at hsw'
  simp only [confPass, hsw] at hpass
  split at hpass
  · split at hpass
    · cases hpass
      exact hafter.of_eq rfl rfl rfl rfl
    · split at hpass <;> cases hpass <;> exact hafter.of_eq rfl rfl rfl rfl
  · cases hpass
    exact hafter
  · cases hpass
    exact hafter

theorem confFin_depth {er : FfparsE} (h : DepthAfter D p er) :
    (confFin o p er).1.ret = (confFin o p er).2 ∧
      DepthAfter D (confFin o p er).1 (confFin o p er).2 := by
  refine ⟨rfl, ?_⟩
  unfold confFin
  by_cases hcopy : er = .more ∧ o.len p.buf ≠ 0
  · rw [if_pos hcopy]
    cases o.store p.buf [] with
    | none => exact .of_stop rfl
    | some buf => exact h.of_eq rfl rfl rfl rfl
  · rw [if_neg hcopy]
    exact h.of_eq rfl rfl rfl rfl

end Depth

/-! ### A call of the parser -/

section Call

variable {alloc : ℕ → Bool} {D n : ℕ} {p p' : Ffconf Ffarr} {data rest : List UInt8} {er : FfparsE}

/-- No pass of the call meets a closing brace where no context is open. -/
def BracesOk (alloc : ℕ → Bool) (n : ℕ) (p : Ffconf Ffarr) (data : List UInt8) : Prop :=
  LoopGood (confChunk alloc) FfparsE.verdict (fun p d => ¬ Stray p d) n p data

theorem ffconfParse_depth (hmem : ∀ n, alloc n = true → n + 1 < SIZE_BOUND) (h : Depth D p)
    (hgood : BracesOk alloc n p data) (hcall : ffconfParse alloc n p data = some (p', er, rest)) :
    p'.ret = er ∧ DepthAfter D p' er := by
  simp only [ffconfParse, callWith, bind_eq_bind, bind_eq_some_iff] at hcall
  obtain ⟨⟨p₁, er₁, rest₁⟩, hloop, hcall⟩ := hcall
  have hpass : ∀ {q : Ffconf Ffarr} {c cs q' er consumed}, Depth D q → ¬ Stray q (c :: cs) →
      confChunk alloc q (c :: cs) = some (q', er, consumed) →
      (er.verdict = .more → Depth D q') ∧ (er.verdict ≠ .more → DepthAfter D q' er) := by
    intro q c cs q' er consumed h hg hpass
    have hd : DepthAfter D q' er := confPass_depth hmem h hg (some.inj hpass)
    refine ⟨fun hv => ?_, fun _ => hd⟩
    obtain rfl := (FfparsE.verdict_more er).mp hv
    exact hd
  have hend : ∀ {q : Ffconf Ffarr}, Depth D q → DepthAfter D q .more := fun h => h
  have hafter := callLoop_inv (Depth D) (DepthAfter D) hpass hend hgood h hloop
  cases hcall
  exact confFin_depth hafter

end Call

/-! ### Runs with a scheme -/

section Run

variable {D O U : Type}

/-- The caller: the parser, the scheme, the codes of what the parser reported, and the last code of
`ffconf_schemrun`. -/
structure ConfLoad (D O U : Type) where
  conf : Ffconf Ffarr
  schem : FfparserSchem D O U
  events : List FfparsE
  ret : SchemE

/-- A call of `ffconf_parse` on some bytes and one of `ffconf_schemrun`, as in `ffconf_loadfile`;
behind an error there is no other. The memory of the bytes before may have changed. -/
def confLoadStep (alloc : ℕ → Bool) (env : SchemEnv D O U) (n : ℕ)
    (mem : List UInt8 → List UInt8) (s : ConfLoad D O U) (data : List UInt8) :
    Option (ConfLoad D O U) :=
  if s.ret.isErr then none
  else do
    let (conf, er, _) ← ffconfParse alloc n (s.conf.stale mem) data
    let (schem, ret) ← ffconfSchemrun env s.schem conf
    some ⟨conf, schem, if er.verdict = .event then s.events ++ [er] else s.events, ret⟩

/-- Before the first call. -/
def confLoadInit (alloc : ℕ → Bool) (env : SchemEnv D O U) (ctx : FfparsCtx D O) (user : U) :
    ConfLoad D O U :=
  let (schem, ret) := ffconfScheminit env ctx user
  ⟨ffconfParseinit alloc Ffarr.null, schem, [], ret⟩

/-- The step meets no closing brace where no context is open, and where it drops the contexts of
the scheme none is open. -/
def ConfLoadGood (alloc : ℕ → Bool) (n : ℕ)
    (mem : List UInt8 → List UInt8) (s : ConfLoad D O U) (data : List UInt8) : Prop :=
  BracesOk alloc n (s.conf.stale mem) data ∧
    ∀ conf er rest, ffconfParse alloc n (s.conf.stale mem) data = some (conf, er, rest) →
      Resets s.schem er → s.conf.depth ≤ 1

instance (alloc : ℕ → Bool) (n : ℕ) (mem : List UInt8 → List UInt8) (s : ConfLoad D O U)
    (data : List UInt8) : Decidable (ConfLoadGood alloc n mem s data) :=
  have : Decidable (BracesOk alloc n (s.conf.stale mem) data) :=
    LoopGood.decidable _ _ (fun p d => ¬ Stray p d) n _ _
  match h : ffconfParse alloc n (s.conf.stale mem) data with
  | none => decidable_of_iff (BracesOk alloc n (s.conf.stale mem) data)
      (by simp [ConfLoadGood, h])
  | some (conf, er, rest) =>
    decidable_of_iff (BracesOk alloc n (s.conf.stale mem) data ∧
      (Resets s.schem er → s.conf.depth ≤ 1)) (by
        simp only [ConfLoadGood, h, some.injEq, Prod.mk.injEq]
        constructor
        · rintro ⟨hb, hr⟩
          refine ⟨hb, ?_⟩
          rintro _ _ _ ⟨-, rfl, -⟩
          exact hr
        · rintro ⟨hb, hr⟩
          exact ⟨hb, hr _ _ _ ⟨rfl, rfl, rfl⟩⟩)

/-- The contexts are balanced: a context is reported as closed only where one is open, and the
check at the end of the input succeeds only where all are closed. -/
structure Balanced (env : SchemEnv D O U) (s : ConfLoad D O U) : Prop where
  close : ∀ es es', s.events = es ++ .close :: es' → es.count .close < es.count .open
  fin : s.ret.isErr = false → ∀ schem ret, ffconfSchemfin env s.schem s.conf = some (schem, ret) →
    ret.isErr = false → s.events.count .close = s.events.count .open

variable {alloc : ℕ → Bool} {env : SchemEnv D O U} {n : ℕ} {mem : List UInt8 → List UInt8}
  {s s' : ConfLoad D O U} {data : List UInt8}

/-- **The invariant**: the scheme has at least one context for each that is open, and one for the
top level. -/
structure LoadInv (s : ConfLoad D O U) : Prop where
  close : ∀ es es', s.events = es ++ .close :: es' → es.count .close < es.count .open
  depth : s.ret.isErr = false → ∃ k, s.events.count .open = s.events.count .close + k ∧
    Depth k s.conf ∧ k + 1 ≤ s.schem.ctxs.length

theorem close_append {es : List FfparsE} {e : FfparsE}
    (h : ∀ es₁ es₂, es = es₁ ++ .close :: es₂ → es₁.count .close < es₁.count .open)
    (he : e = .close → es.count .close < es.count .open) (es₁ es₂ : List FfparsE)
    (heq : es ++ [e] = es₁ ++ .close :: es₂) : es₁.count .close < es₁.count .open := by
  rcases eq_nil_or_concat es₂ with rfl | ⟨es₃, e', rfl⟩
  · obtain ⟨rfl, he'⟩ := append_inj' heq rfl
    exact he (List.cons.inj he').1
  · rw [concat_eq_append, ← cons_append, ← append_assoc] at heq
    exact h es₁ es₃ (append_inj' heq rfl).1

theorem LoadInv.step (hmem : ∀ n, alloc n = true → n + 1 < SIZE_BOUND) (h : LoadInv s)
    (hgood : ConfLoadGood alloc n mem s data)
    (hs : confLoadStep alloc env n mem s data = some s') : LoadInv s' := by
  unfold confLoadStep at hs
  split at hs
  · cases hs
  next hret =>
    simp only [bind_eq_bind, bind_eq_some_iff] at hs
    obtain ⟨⟨conf, er, rest⟩, hcall, ⟨schem, ret⟩, hrun, hs⟩ := hs
    cases hs
    obtain ⟨k, hcount, hdepth, hctxs⟩ := h.depth (by simpa using hret)
    have hstale : Depth k (s.conf.stale mem) := hdepth.of_eq rfl rfl rfl rfl
    obtain ⟨hcret, hafter⟩ := ffconfParse_depth hmem hstale hgood.1 hcall
    have hclose : er = .close → s.events.count .close < s.events.count .open := by
      rintro rfl
      obtain ⟨k', rfl, -⟩ := hafter
      omega
    have hreset : Resets s.schem er → k = 0 := by
      intro hr
      have hle := hgood.2 _ _ _ hcall hr
      by_cases herr : s.conf.state = .err
      · exact hdepth.init herr
      · have := hdepth.depth herr
        omega
    refine ⟨?_, fun hok => ?_⟩
    · simp only
      split
      · exact close_append h.close hclose
      · exact h.close
    obtain ⟨m, hstep, hm⟩ := ffconfSchemrun_ctxs hrun hok
    have hle : k + 1 ≤ m := by
      rcases hm with rfl | ⟨hr, rfl⟩
      · exact hctxs
      · rw [hreset (hcret ▸ hr)] at hctxs ⊢
        omega
    have hns : er.verdict ≠ .stop := by
      intro hstop
      rw [ffconfSchemrun_stop hrun (by rw [hcret]; exact hstop)] at hok
      cases hok
    rw [hcret] at hstep
    simp only
    cases er with
    | more => exact ⟨k, hcount, hafter, hle.trans hstep⟩
    | key | val =>
      refine ⟨k, ?_, hafter, hle.trans hstep⟩
      simpa [FfparsE.verdict] using hcount
    | «open» =>
      refine ⟨k + 1, ?_, hafter, ?_⟩
      · simp only [FfparsE.verdict, if_true, count_append, hcount]
        simp
        omega
      · have hstep : schem.ctxs.length = m + 1 := hstep
        omega
    | close =>
      obtain ⟨k', rfl, hafter⟩ := hafter
      refine ⟨k', ?_, hafter, ?_⟩
      · simp only [FfparsE.verdict, if_true, count_append, hcount]
        simp
        omega
      · have hstep : m = schem.ctxs.length + 1 := hstep
        omega
    | _ => exact absurd rfl hns

theorem Depth.parseinit (hmem : ∀ n, alloc n = true → n + 1 < SIZE_BOUND) :
    Depth 0 (ffconfParseinit alloc Ffarr.null) := by
  cases halloc : alloc 1 with
  | true =>
    simp only [ffconfParseinit, halloc, if_true]
    exact ⟨le_rfl, hmem 1 halloc, (by simp [Plain]), fun _ => rfl, fun _ => rfl,
      fun hrm => (by cases hrm)⟩
  | false =>
    simp only [ffconfParseinit, halloc, Bool.false_eq_true, if_false]
    exact ⟨le_rfl, (by decide), (by simp [Plain]), fun _ => rfl, fun hne => absurd rfl hne,
      fun hrm => (by cases hrm)⟩

theorem LoadInv.init (hmem : ∀ n, alloc n = true → n + 1 < SIZE_BOUND) (env : SchemEnv D O U)
    (ctx : FfparsCtx D O) (user : U) : LoadInv (confLoadInit alloc env ctx user) := by
  have hdepth := Depth.parseinit hmem
  refine ⟨fun es es' heq => absurd heq (by cases es <;> simp [confLoadInit]), fun hok => ?_⟩
  refine ⟨0, rfl, hdepth, ?_⟩
  cases hctxs : env.allocCtxs 1 <;>
    simp [confLoadInit, ffconfScheminit, hctxs, SchemE.isErr, FfparsE.verdict] at hok ⊢

theorem LoadInv.balanced (h : LoadInv s) : Balanced env s where
  close := h.close
  fin := by
    intro hret schem ret hfin hok
    obtain ⟨k, hcount, -, hctxs⟩ := h.depth hret
    unfold ffconfSchemfin at hfin
    split at hfin
    · omega
    · cases hfin
      cases hok

/-- **The contexts are balanced**, for every input and however it is divided, in a run whose steps
meet no closing brace where no context is open and drop no open context of the scheme. -/
theorem ffconf_balanced {alloc : ℕ → Bool} (hmem : ∀ n, alloc n = true → n + 1 < SIZE_BOUND)
    (env : SchemEnv D O U) (ctx : FfparsCtx D O) (user : U) (n : ℕ) (mem : List UInt8 → List UInt8)
    {ds : List (List UInt8)} (hgood : GoodRun (confLoadStep alloc env n mem)
      (ConfLoadGood alloc n mem) (confLoadInit alloc env ctx user) ds) {s : ConfLoad D O U}
    (h : run (confLoadStep alloc env n mem) (confLoadInit alloc env ctx user) ds = some s) :
    Balanced env s := by
  have hinv : LoadInv s := hgood.inv (fun hinv hg hs => hinv.step hmem hg hs)
    (LoadInv.init hmem env ctx user) h
  exact hinv.balanced

/-- An argument of `sampleCtx`. -/
def sampleArg (name : UInt8) (type : FfparsT) : FfparsArg Unit :=
  ⟨[name], type, false, false, true, false, false, false, false, ()⟩

/-- A context with the objects `a` and `b` and the values `c` and `k`. -/
def sampleCtx : FfparsCtx Unit Unit where
  obj := ()
  args := [sampleArg 0x61 .obj, sampleArg 0x62 .obj, sampleArg 0x63 .other, sampleArg 0x6b .other]
  skip := false
  used := []

/-- A scheme whose objects have the arguments of `sampleCtx` again. -/
def sampleEnv : SchemEnv Unit Unit Unit where
  argProcess := fun _ _ _ u => (u, 0)
  fObj := fun _ _ u => (u, 0, sampleCtx)
  fClose := fun _ _ u => (u, 0)
  ctx := fun _ => sampleCtx
  allocCtxs := fun _ => true
  allocVal := fun _ => true

/-- The calls on the pieces `ds`, with `sampleEnv`. -/
def sampleRun (ds : List (List UInt8)) : Option (ConfLoad Unit Unit Unit) :=
  run (confLoadStep (fun n => n < 100) sampleEnv 100 id)
    (confLoadInit (fun n => n < 100) sampleEnv sampleCtx ()) ds

/-- The text `a {`, `c 2`, `}`. -/
theorem ffconf_balanced_example : ∃ s, sampleRun [[0x61, 0x20], [0x20, 0x7b], [0x0a, 0x63, 0x20],
    [0x20, 0x32, 0x0a], [0x0a, 0x7d]] = some s ∧ Balanced sampleEnv s := by
  refine ⟨_, rfl, @ffconf_balanced Unit Unit Unit (fun n => n < 100) ?_ sampleEnv sampleCtx () 100 id
    [[0x61, 0x20], [0x20, 0x7b], [0x0a, 0x63, 0x20], [0x20, 0x32, 0x0a], [0x0a, 0x7d]] ?_ _ rfl⟩
  · intro n hn
    have hlt : n < 100 := by simpa using hn
    exact (Nat.succ_lt_succ hlt).trans (by decide)
  · decide

/-- **Each of the two steps breaks it.** For the text `}` a context is reported as closed and there
is no error; behind `a {`, `b.k 1`, `c 2` the check at the end succeeds. -/
theorem ffconf_balanced_breaks :
    (∃ s, sampleRun [[0x7d]] = some s ∧ s.events = [.close] ∧ s.ret.isErr = false) ∧
    ∃ s, sampleRun [[0x61, 0x20], [0x20, 0x7b], [0x0a, 0x62, 0x2e], [0x6b, 0x20], [0x20, 0x31, 0x0a],
        [0x0a, 0x63, 0x20], [0x20, 0x32, 0x20]] = some s ∧ s.ret.isErr = false ∧
      (ffconfSchemfin sampleEnv s.schem s.conf).map Prod.snd = some (.parse .more) ∧
      s.events.count .open = 1 ∧ s.events.count .close = 0 := by
  refine ⟨⟨_, rfl, ?_, ?_⟩, ⟨_, rfl, ?_, ?_, ?_, ?_⟩⟩
  all_goals rfl

end Run

end Conf

end FF
