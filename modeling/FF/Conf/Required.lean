import FF.Conf.Scheme

/-!
# Arguments that are required, and arguments that are given once

A context has a bit for each of its first 64 arguments, which `ffpars_ctx_findarg` sets when the key
is found, and which `scCloseBrace` looks at. The keys that were seen in the open contexts are not in
the program: they are kept beside the run, and its behaviour is stated with them.
-/

namespace FF

namespace Conf

open List Option

variable {D O U : Type}

/-! ### The steps -/

/-- What a parser reports: a key (looked for with `FFPARS_CTX_FANY` where `any` is set), a value,
and the begin and the end of a context. -/
inductive SchemEv
  | key (any : Bool) (name : List UInt8)
  | val (v : List UInt8)
  | open
  | close
  deriving DecidableEq, Repr

/-- The code of the parser. -/
def SchemEv.ret : SchemEv → FfparsE
  | .key _ _ => .key
  | .val _ => .val
  | .open => .open
  | .close => .close

/-- The arguments among which a key is looked for: not the handler of the end. -/
def keyArgs (args : List (FfparsArg D)) : List (FfparsArg D) :=
  match args.getLast? with
  | some last => args.take (if last.type = .close then args.length - 1 else args.length)
  | none => []

/-- The index of the argument with the name of a key; `"*"` is a reserved name. -/
def argIndex (icase : Bool) (args : List (FfparsArg D)) (name : List UInt8) : Option ℕ :=
  let i := (keyArgs args).findIdx fun a => nameEq icase name a.name
  ((keyArgs args)[i]?.filter fun a => a.name ≠ star).map fun _ => i

/-- `ffpars_ctx_findarg` with `FFPARS_CTX_FDUP`. -/
def findargDup (ctx : FfparsCtx D O) (name : List UInt8) (icase : Bool) :
    Option (FfparsCtx D O × FindArg D) := do
  let last ← ctx.args.getLast?
  let nargs := if last.type = .close then ctx.args.length - 1 else ctx.args.length
  let i := (ctx.args.take nargs).findIdx fun a => nameEq icase name a.name
  match ((ctx.args.take nargs)[i]?).filter fun a => a.name ≠ star with
  | none => some (ctx, .missing)
  | some a =>
    if i < 64 then
      let r := if i ∈ ctx.used ∧ !a.fmulti then .dup else .found a
      some ({ ctx with used := i :: ctx.used }, r)
    else some (ctx, .found a)

/-- `ffpars_ctx_findarg` as the parsers with a scheme call it. -/
def findarg (any : Bool) (ctx : FfparsCtx D O) (name : List UInt8) (icase : Bool) :
    Option (FfparsCtx D O × FindArg D) :=
  if any then ffparsCtxFindarg ctx name icase else findargDup ctx name icase

/-- `_ffpars_schemrun_key` for the innermost context. -/
def ffparsSchemrunKey (any : Bool) (ps : FfparserSchem D O U) (name : List UInt8) :
    Option (FfparserSchem D O U × SchemE) :=
  match ps.ctxs with
  | [] => none
  | ctx :: ctxs => do
      let (ctx, r) ← findarg any ctx name ps.keyicase
      let ps := { ps with ctxs := ctx :: ctxs, curarg := none }
      match r with
      | .missing => some (ps, .euknkey)
      | .dup => some (ps, .edupkey)
      | .found arg => some ({ ps with curarg := some arg }, .parse .more)

/-- The value is given to the argument of the key. -/
def schemVal (env : SchemEnv D O U) (ps : FfparserSchem D O U) (v : List UInt8) :
    Option (FfparserSchem D O U × SchemE) := do
  let arg ← ps.curarg
  argVal env ps arg v

/-- A parser with a scheme processes what it has read. -/
def schemStep (env : SchemEnv D O U) (ps : FfparserSchem D O U) (ev : SchemEv) :
    Option (FfparserSchem D O U × SchemE) :=
  match ffparsSkipctx env ps ev.ret with
  | some r => some r
  | none =>
    match ev with
    | .key any name => ffparsSchemrunKey any ps name
    | .val v => schemVal env ps v
    | .open => ffparsSchemrun env ps .open
    | .close => ffparsSchemrun env ps .close

/-- The keys that were seen in each of the open contexts, behind a step that gives the code `r`. -/
def seenStep (ev : SchemEv) (r : SchemE) (seen : List (List (List UInt8))) :
    List (List (List UInt8)) :=
  if r.isErr then seen
  else
    match ev, seen with
    | .key _ name, names :: seen => (name :: names) :: seen
    | .open, seen => [] :: seen
    | .close, seen => seen.tail
    | _, seen => seen

/-- A run, with the keys that were seen. -/
def schemRun (env : SchemEnv D O U) (ps : FfparserSchem D O U) (seen : List (List (List UInt8))) :
    List SchemEv → Option (FfparserSchem D O U × List (List (List UInt8)))
  | [] => some (ps, seen)
  | ev :: evs => do
      let (ps', r) ← schemStep env ps ev
      schemRun env ps' (seenStep ev r seen) evs

/-! ### The argument of a key -/

variable {icase any : Bool} {ctx ctx' : FfparsCtx D O} {name : List UInt8} {i : ℕ}
  {fa : FindArg D}

theorem keyArgs_prefix (args : List (FfparsArg D)) : keyArgs args <+: args := by
  unfold keyArgs
  split
  · exact take_prefix _ _
  · exact nil_prefix

theorem argIndex_spec {args : List (FfparsArg D)} (h : argIndex icase args name = some i) :
    ∃ a, args[i]? = some a ∧ (keyArgs args)[i]? = some a ∧ a.name ≠ star ∧
      (keyArgs args).findIdx (fun a => nameEq icase name a.name) = i := by
  simp only [argIndex, map_eq_some_iff, filter_eq_some_iff] at h
  obtain ⟨a, ⟨hget, hstar⟩, rfl⟩ := h
  have hlt := (List.getElem?_eq_some_iff.mp hget).1
  have ha := hget
  obtain ⟨t, ht⟩ := keyArgs_prefix args
  rw [← List.getElem?_append_left hlt, ht] at ha
  exact ⟨a, ha, hget, by simpa using hstar, rfl⟩

/-- What `ffpars_ctx_findarg` does for the key of an argument. -/
def usedStep (ctx : FfparsCtx D O) (i : ℕ) (a : FfparsArg D) : FfparsCtx D O × FindArg D :=
  if i < 64 then
    ({ ctx with used := i :: ctx.used }, if i ∈ ctx.used ∧ !a.fmulti then .dup else .found a)
  else (ctx, .found a)

theorem usedStep_ne_missing (ctx : FfparsCtx D O) (i : ℕ) (a : FfparsArg D) :
    (usedStep ctx i a).2 ≠ .missing := by
  unfold usedStep
  repeat' split
  all_goals exact nofun

variable (any) in
theorem findarg_of_index (h : argIndex icase ctx.args name = some i) :
    ∃ a, ctx.args[i]? = some a ∧ findarg any ctx name icase = some (usedStep ctx i a) := by
  obtain ⟨a, ha, hget, hstar, hidx⟩ := argIndex_spec h
  refine ⟨a, ha, ?_⟩
  cases hlast : ctx.args.getLast? with
  | none =>
    rw [getLast?_eq_none_iff.mp hlast] at ha
    cases ha
  | some last =>
    simp only [keyArgs, hlast] at hget hidx
    have hfilter : (some a).filter (fun a => decide (a.name ≠ star)) = some a :=
      filter_eq_some_iff.mpr ⟨rfl, by simpa using hstar⟩
    cases any <;>
      simp only [findarg, ffparsCtxFindarg, findargDup, hlast, hidx, hget, hfilter, usedStep,
        bind_eq_bind, bind_some, if_true, Bool.false_eq_true, if_false] <;>
      split <;> rfl

theorem findarg_of_none (h : argIndex icase ctx.args name = none)
    (hfind : findarg any ctx name icase = some (ctx', fa)) : ctx' = ctx := by
  cases hlast : ctx.args.getLast? with
  | none =>
    cases any <;> simp [findarg, ffparsCtxFindarg, findargDup, hlast] at hfind
  | some last =>
    simp only [argIndex, keyArgs, hlast, map_eq_none_iff] at h
    cases any with
    | false =>
      simp only [findarg, findargDup, hlast, h, bind_eq_bind, bind_some,
        Bool.false_eq_true, if_false, some.injEq] at hfind
      cases hfind
      rfl
    | true =>
      simp only [findarg, ffparsCtxFindarg, hlast, h, bind_eq_bind, bind_some,
        if_true, bind_eq_some_iff] at hfind
      obtain ⟨r, -, hfind⟩ := hfind
      cases hfind
      rfl

/-! ### The keys that were seen -/

/-- The bits of a context are those of the keys that were seen in it. -/
def CtxSeen (icase : Bool) (ctx : FfparsCtx D O) (names : List (List UInt8)) : Prop :=
  ctx.skip = false →
    ∀ i < 64, i ∈ ctx.used ↔ ∃ name ∈ names, argIndex icase ctx.args name = some i

/-- What holds in every run. -/
def SeenInv (ps : FfparserSchem D O U) (seen : List (List (List UInt8))) : Prop :=
  List.Forall₂ (CtxSeen ps.keyicase) ps.ctxs seen

theorem CtxSeen.fresh (icase : Bool) {ctx : FfparsCtx D O} (h : ctx.used = []) :
    CtxSeen icase ctx [] := by
  intro _ i _
  simp [h]

theorem CtxSeen.skipped (icase : Bool) {ctx : FfparsCtx D O} (h : ctx.skip = true)
    (names : List (List UInt8)) : CtxSeen icase ctx names :=
  fun hskip => Bool.noConfusion (h.symm.trans hskip)

variable {names : List (List UInt8)}

theorem CtxSeen.cons_none (h : CtxSeen icase ctx names)
    (hidx : argIndex icase ctx.args name = none) : CtxSeen icase ctx (name :: names) := by
  intro hskip i hi
  rw [h hskip i hi]
  simp [hidx]

theorem CtxSeen.cons_some (h : CtxSeen icase ctx names)
    (hidx : argIndex icase ctx.args name = some i) (a : FfparsArg D) :
    CtxSeen icase (usedStep ctx i a).1 (name :: names) := by
  intro hskip j hj
  unfold usedStep at hskip ⊢
  split
  · next hlt =>
      rw [if_pos hlt] at hskip
      simp only [mem_cons, h hskip j hj, exists_eq_or_imp, hidx, some.injEq]
      exact or_congr_left eq_comm
  · next hge =>
      rw [if_neg hge] at hskip
      have hne : i ≠ j := fun he => hge (he ▸ hj)
      simp [h hskip j hj, hidx, hne]

theorem CtxSeen.dup (h : CtxSeen icase ctx names) {a : FfparsArg D}
    (hdup : (usedStep ctx i a).2 = .dup) : CtxSeen icase (usedStep ctx i a).1 names := by
  intro hskip j hj
  unfold usedStep at hskip hdup ⊢
  split
  · next hlt =>
      rw [if_pos hlt] at hskip hdup
      have hmem : i ∈ ctx.used := by
        by_contra hno
        simp [hno] at hdup
      rw [← h hskip j hj, mem_cons, or_iff_right_of_imp]
      rintro rfl
      exact hmem
  · next hge =>
      rw [if_neg hge] at hdup
      cases hdup

variable {env : SchemEnv D O U} {ps ps' : FfparserSchem D O U} {ev : SchemEv} {r : SchemE}
  {seen : List (List (List UInt8))}

theorem ffparsSchemrunKey_inv (h : ffparsSchemrunKey any ps name = some (ps', r))
    (hinv : SeenInv ps seen) : SeenInv ps' (seenStep (.key any name) r seen) := by
  unfold ffparsSchemrunKey at h
  unfold SeenInv at hinv
  split at h
  · cases h
  next ctx ctxs hctxs =>
    rw [hctxs] at hinv
    cases hinv with
    | @cons _ names _ seen hctx hrest =>
      cases hidx : argIndex ps.keyicase ctx.args name with
      | none =>
        obtain ⟨⟨ctx', fa⟩, hfind, h⟩ := bind_eq_some_iff.mp h
        cases findarg_of_none hidx hfind
        cases fa <;> cases h
        · exact .cons (hctx.cons_none hidx) hrest
        · exact .cons hctx hrest
        · exact .cons hctx hrest
      | some i =>
        obtain ⟨a, -, hfind⟩ := findarg_of_index any hidx
        have hsome := hctx.cons_some hidx a
        have hdup := hctx.dup (i := i) (a := a)
        rw [hfind] at h
        have hne := usedStep_ne_missing ctx i a
        generalize usedStep ctx i a = p at h hsome hdup hne
        obtain ⟨ctx', fa⟩ := p
        cases fa <;> cases h
        · exact .cons hsome hrest
        · exact absurd rfl hne
        · exact .cons (hdup rfl) hrest

theorem seenStep_val (v : List UInt8) (r : SchemE) (seen : List (List (List UInt8))) :
    seenStep (.val v) r seen = seen := by
  unfold seenStep
  split
  · rfl
  · cases seen <;> rfl

theorem schemVal_inv {v : List UInt8} (h : schemVal env ps v = some (ps', r))
    (hinv : SeenInv ps seen) : SeenInv ps' (seenStep (.val v) r seen) := by
  obtain ⟨arg, -, h⟩ := bind_eq_some_iff.mp h
  obtain ⟨ctx, -, h⟩ := bind_eq_some_iff.mp h
  cases h
  rw [seenStep_val]
  exact hinv

theorem ffparsSchemrun_open_inv (h : ffparsSchemrun env ps .open = some (ps', r))
    (hinv : SeenInv ps seen) : SeenInv ps' (seenStep .open r seen) := by
  simp only [ffparsSchemrun, map_eq_some_iff] at h
  obtain ⟨⟨ps₁, r₁⟩, hopen, h⟩ := h
  cases h
  simp only [scOpenBrace, bind_eq_bind, bind_eq_some_iff] at hopen
  obtain ⟨curarg, -, hopen⟩ := hopen
  split at hopen
  · split at hopen
    · cases hopen
      exact hinv
    · cases hopen
      exact .cons (.fresh _ rfl) hinv
  obtain ⟨curctx, -, hopen⟩ := bind_eq_some_iff.mp hopen
  split at hopen
  · cases hopen
    exact hinv
  · split at hopen
    · cases hopen
      exact .cons (.fresh _ rfl) hinv
    · cases hopen
      exact hinv

theorem ffparsSchemrun_close_inv (h : ffparsSchemrun env ps .close = some (ps', r))
    (hinv : SeenInv ps seen) : SeenInv ps' (seenStep .close r seen) := by
  cases h
  unfold scCloseBrace
  unfold SeenInv at hinv
  split
  · next hctxs => exact hinv
  next ctx ctxs hctxs =>
    have hrest := hinv
    rw [hctxs] at hrest
    obtain - | ⟨-, hrest⟩ := hrest
    split
    · exact hinv
    · split
      split
      · exact hrest
      · exact hinv

theorem ffparsSkipctx_inv {p : FfparserSchem D O U × SchemE}
    (h : ffparsSkipctx env ps ev.ret = some p) (hinv : SeenInv ps seen) :
    SeenInv p.1 (seenStep ev p.2 seen) := by
  unfold ffparsSkipctx at h
  unfold SeenInv at hinv
  split at h
  · cases h
  next ctx ctxs hctxs =>
    split at h
    · cases h
    next hskip =>
      rw [Bool.not_eq_true', Bool.not_eq_false] at hskip
      have hrest := hinv
      rw [hctxs] at hrest
      obtain - | @⟨_, names, _, _, hctx, hrest⟩ := hrest
      cases ev with
      | key any name =>
        cases h
        have hnames := CtxSeen.skipped ps.keyicase hskip (name :: names)
        have hkey := List.Forall₂.cons hnames hrest
        rw [← hctxs] at hkey
        exact hkey
      | val v =>
        cases h
        rw [seenStep_val]
        exact hinv
      | «open» =>
        simp only [SchemEv.ret] at h
        split at h
        · cases h
          exact hinv
        · cases h
          exact .cons (.skipped _ (by exact hskip) _) hinv
      | close =>
        cases h
        exact hrest

theorem schemStep_inv (h : schemStep env ps ev = some (ps', r)) (hinv : SeenInv ps seen) :
    SeenInv ps' (seenStep ev r seen) := by
  unfold schemStep at h
  split at h
  · next p hskip =>
      cases h
      exact ffparsSkipctx_inv hskip hinv
  · cases ev with
    | key any name => exact ffparsSchemrunKey_inv h hinv
    | val v => exact schemVal_inv h hinv
    | «open» => exact ffparsSchemrun_open_inv h hinv
    | close => exact ffparsSchemrun_close_inv h hinv

theorem schemRun_inv {evs : List SchemEv} {seen' : List (List (List UInt8))}
    (h : schemRun env ps seen evs = some (ps', seen')) (hinv : SeenInv ps seen) :
    SeenInv ps' seen' := by
  induction evs generalizing ps seen with
  | nil =>
    cases h
    exact hinv
  | cons ev evs ih =>
    obtain ⟨⟨ps₁, r⟩, hstep, h⟩ := bind_eq_some_iff.mp h
    exact ih h (schemStep_inv hstep hinv)

/-! ### The first 64 arguments -/

theorem SeenInv.init (h : ∀ ctx ∈ ps.ctxs, ctx.used = []) :
    SeenInv ps (ps.ctxs.map fun _ => []) := by
  unfold SeenInv
  generalize ps.ctxs = ctxs at h ⊢
  induction ctxs with
  | nil => exact .nil
  | cons ctx ctxs ih =>
    obtain ⟨hctx, hctxs⟩ := forall_mem_cons.mp h
    exact .cons (.fresh _ hctx) (ih hctxs)

theorem ffparsSkipctx_eq_none {ctxs : List (FfparsCtx D O)} (hctxs : ps.ctxs = ctx :: ctxs)
    (hskip : ctx.skip = false) (ret : FfparsE) : ffparsSkipctx env ps ret = none := by
  simp [ffparsSkipctx, hctxs, hskip]

theorem mem_used_of_requiredArg (h : requiredArg ctx = none) {a : FfparsArg D} (hi : i < 64)
    (ha : ctx.args[i]? = some a) (hreq : a.frequired = true) : i ∈ ctx.used := by
  simp only [requiredArg, map_eq_none_iff, find?_eq_none] at h
  have hget : (ctx.args.take 64)[i]? = some a := by
    rw [getElem?_take_of_lt hi, ha]
  have hmem : (a, i) ∈ (ctx.args.take 64).zipIdx := mem_zipIdx_iff_getElem?.mpr hget
  simpa [hreq] using h _ hmem

theorem requiredArg_of_close {ctxs : List (FfparsCtx D O)} (hctxs : ps.ctxs = ctx :: ctxs)
    (hskip : ctx.skip = false) (h : schemStep env ps .close = some (ps', r))
    (hr : r.isErr = false) : requiredArg ctx = none := by
  simp only [schemStep, ffparsSkipctx_eq_none hctxs hskip, ffparsSchemrun, some.injEq] at h
  cases h
  have herr := isErr_orCode hr
  simp only [scCloseBrace, hctxs] at herr
  cases hreq : requiredArg ctx with
  | none => rfl
  | some arg =>
    rw [hreq] at herr
    cases herr

theorem schemStep_key_dup {ctxs : List (FfparsCtx D O)} (hctxs : ps.ctxs = ctx :: ctxs)
    (hskip : ctx.skip = false) (hidx : argIndex ps.keyicase ctx.args name = some i) (hi : i < 64)
    {a : FfparsArg D} (ha : ctx.args[i]? = some a) (hmulti : a.fmulti = false)
    (hused : i ∈ ctx.used) : ∃ ps', schemStep env ps (.key any name) = some (ps', .edupkey) := by
  obtain ⟨b, hb, hfind⟩ := findarg_of_index any hidx
  cases ha.symm.trans hb
  simp only [schemStep, ffparsSkipctx_eq_none hctxs hskip, ffparsSchemrunKey, hctxs, hfind,
    usedStep, if_pos hi, hused, hmulti, bind_eq_bind, bind_some]
  exact ⟨_, rfl⟩

/-- In every run, a context is left only where each of its first 64 arguments that are required was
seen in it, and the key of one of them that must not repeat is rejected where it was seen. -/
theorem schem_required (env : SchemEnv D O U) {ps₀ ps : FfparserSchem D O U} {evs : List SchemEv}
    {seen : List (List (List UInt8))} (h₀ : ∀ ctx ∈ ps₀.ctxs, ctx.used = [])
    (hrun : schemRun env ps₀ (ps₀.ctxs.map fun _ => []) evs = some (ps, seen))
    {ctx : FfparsCtx D O} {ctxs : List (FfparsCtx D O)} (hctxs : ps.ctxs = ctx :: ctxs)
    (hskip : ctx.skip = false) :
    ∃ names rest, seen = names :: rest ∧
      (∀ ps' r, schemStep env ps .close = some (ps', r) → r.isErr = false →
        ∀ i a, i < 64 → ctx.args[i]? = some a → a.frequired = true →
          ∃ name ∈ names, argIndex ps.keyicase ctx.args name = some i) ∧
      ∀ any name i a, argIndex ps.keyicase ctx.args name = some i → i < 64 →
        ctx.args[i]? = some a → a.fmulti = false →
        (∃ name' ∈ names, argIndex ps.keyicase ctx.args name' = some i) →
          ∃ ps', schemStep env ps (.key any name) = some (ps', .edupkey) := by
  have hinv := schemRun_inv hrun (.init h₀)
  unfold SeenInv at hinv
  rw [hctxs] at hinv
  obtain - | @⟨_, names, _, rest, hctx, -⟩ := hinv
  have hused := hctx hskip
  refine ⟨names, rest, rfl, ?_, ?_⟩
  · intro ps' r hclose hr i a hi ha hreq
    rw [← hused i hi]
    exact mem_used_of_requiredArg (requiredArg_of_close hctxs hskip hclose hr) hi ha hreq
  · intro any name i a hidx hi ha hmulti hseen
    exact schemStep_key_dup hctxs hskip hidx hi ha hmulti ((hused i hi).mpr hseen)

section Tables

/-- An argument with a letter as its name, that must not repeat. -/
def letterArg (c : UInt8) (type : FfparsT) (frequired : Bool) : FfparsArg Unit :=
  ⟨[c], type, false, frequired, false, false, false, false, false, ()⟩

/-- A context for the arguments. -/
def tableCtx (args : List (FfparsArg Unit)) : FfparsCtx Unit Unit := ⟨(), args, false, []⟩

/-- A parser in contexts. -/
def tableParser (ctxs : List (FfparsCtx Unit Unit)) : FfparserSchem Unit Unit Unit :=
  ⟨false, false, false, false, false, false, ctxs, none, [], 0, ()⟩

/-- An object has the one argument `"c"`, which is required. -/
def tableEnv : SchemEnv Unit Unit Unit where
  argProcess _ _ _ _ := ((), 0)
  fObj _ _ _ := ((), 0, tableCtx [letterArg 0x63 .other true])
  fClose _ _ _ := ((), 0)
  ctx _ := tableCtx []
  allocCtxs _ := true
  allocVal _ := true

/-- `a {c v}`, where `"a"` and `"b"` are arguments, and `"a"` is required: `"a"` was seen. -/
theorem schem_required_nested :
    ∃ names rest, [[[0x61]]] = names :: rest ∧
      (∀ ps' r,
        schemStep tableEnv
          (tableParser [⟨(), [letterArg 0x62 .other false, letterArg 0x61 .obj true], false, [1]⟩])
          .close = some (ps', r) → r.isErr = false →
        ∀ i a, i < 64 →
          [letterArg 0x62 .other false, letterArg 0x61 .obj true][i]? = some a →
          a.frequired = true →
          ∃ name ∈ names,
            argIndex false [letterArg 0x62 .other false, letterArg 0x61 .obj true] name = some i) ∧
      ∀ any name i a,
        argIndex false [letterArg 0x62 .other false, letterArg 0x61 .obj true] name = some i →
        i < 64 → [letterArg 0x62 .other false, letterArg 0x61 .obj true][i]? = some a →
        a.fmulti = false →
        (∃ name' ∈ names,
          argIndex false [letterArg 0x62 .other false, letterArg 0x61 .obj true] name' = some i) →
          ∃ ps',
            schemStep tableEnv
              (tableParser
                [⟨(), [letterArg 0x62 .other false, letterArg 0x61 .obj true], false, [1]⟩])
              (.key any name) = some (ps', .edupkey) :=
  @schem_required Unit Unit Unit tableEnv
    (tableParser [tableCtx [letterArg 0x62 .other false, letterArg 0x61 .obj true]]) _
    [.key false [0x61], .open, .key false [0x63], .val [0x76], .close] _
    (by simp [tableParser, tableCtx]) rfl _ _ rfl rfl

/-- Of 66 arguments, the one at index 64 is given twice, and the one behind it, which is required,
is not given. And the argument `"*"` is given with two keys. -/
theorem schem_required_65 :
    ∃ args : List (FfparsArg Unit),
      args[64]? = some (letterArg 0x62 .other false) ∧
      args[65]? = some (letterArg 0x63 .other true) ∧
      schemRun tableEnv (tableParser [tableCtx args]) [[]]
          [.key false [0x62], .val [], .key false [0x62]] =
        some (⟨false, false, false, false, false, false, [tableCtx args],
          some (letterArg 0x62 .other false), [], 0, ()⟩, [[[0x62], [0x62]]]) ∧
      schemRun tableEnv (tableParser [tableCtx args]) [[]] [.key false [0x62], .val [], .close] =
        some (tableParser [], []) ∧
      schemRun tableEnv (tableParser [tableCtx [letterArg 0x2a .other false]]) [[]]
          [.key true [0x61], .key true [0x62]] =
        some (⟨false, false, false, false, false, false, [tableCtx [letterArg 0x2a .other false]],
          some (letterArg 0x2a .other false), [], 0, ()⟩, [[[0x62], [0x61]]]) :=
  ⟨List.replicate 64 (letterArg 0x61 .other false) ++
      [letterArg 0x62 .other false, letterArg 0x63 .other true], rfl, rfl, rfl, rfl, rfl⟩

end Tables

end Conf

end FF
