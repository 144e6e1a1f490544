import FF.Conf.Chunks

/-!
# Parsing with a scheme

`ffconf_schemrun` works on what `ffconf_parse` reports: it looks for a key among the arguments of
the innermost context, opens and closes contexts and hands the values to the user. It has a stack of
contexts of its own, and `ffconf_schemfin` decides at the end of the input by its length.

The handlers of the user and the conversion of a value for its destination (`ffpars_arg_process`)
are parameters (`SchemEnv`): they give a code and change the user's data, and the handler of an
object sets its context.
-/

namespace FF

namespace Conf

/-! ### The data of a scheme -/

/-- The codes of parsing with a scheme: those of the parser, those of `ffconf_schemrun`, and the
codes that handlers give. -/
inductive SchemE
  | parse (er : FfparsE)
  | enobrace
  | euknkey
  | edupkey
  | enoreq
  | evaltype
  | evalempty
  | evalunexp
  | econf
  | eintl
  | handler (code : ℕ)
  deriving DecidableEq, Repr

/-- `ffpars_iserr` -/
def SchemE.isErr : SchemE → Bool
  | .parse er => er.verdict == .stop
  | _ => true

/-- The code that a handler returns, 0 where it succeeds. -/
def SchemE.ofCode (code : ℕ) : SchemE := if code = 0 then .parse .more else .handler code

/-- `enum FFPARS_T`, as far as `ffconf_schemrun` looks at it. -/
inductive FfparsT
  | obj
  | arr
  | anything
  | close
  | other
  deriving DecidableEq, Repr

/-- `ffpars_arg`, with the type `D` of destinations. -/
structure FfparsArg (D : Type) where
  name : List UInt8
  type : FfparsT
  fptr : Bool
  frequired : Bool
  fmulti : Bool
  fnotempty : Bool
  fobj1 : Bool
  flist : Bool
  fwithkey : Bool
  dst : D

/-- `ffpars_ctx`; `skip` is set where `obj` and `args` are -1, and `used` holds the bits that are
set. -/
structure FfparsCtx (D O : Type) where
  obj : O
  args : List (FfparsArg D)
  skip : Bool
  used : List ℕ

/-- `ffparser_schem`, with the data `U` of the user. The head of `ctxs` is the innermost
context. -/
structure FfparserSchem (D O U : Type) where
  keyicase : Bool
  schavkey : Bool
  scctx : Bool
  scctxAny : Bool
  resetctx : Bool
  resetctxVal : Bool
  ctxs : List (FfparsCtx D O)
  curarg : Option (FfparsArg D)
  vals : List UInt8
  listIdx : UInt32
  user : U

/-- What the scheme calls: `ffpars_arg_process`, the handlers `f_obj` and `f_0`, the context behind
a pointer, and whether there is memory for so many contexts or for a string of that length. -/
structure SchemEnv (D O U : Type) where
  argProcess : FfparsArg D → List UInt8 → O → U → U × ℕ
  fObj : D → O → U → U × ℕ × FfparsCtx D O
  fClose : D → O → U → U × ℕ
  ctx : D → FfparsCtx D O
  allocCtxs : ℕ → Bool
  allocVal : ℕ → Bool

section Scheme

variable {D O U : Type}

/-! ### Arguments -/

/-- The name `"*"`. -/
def star : List UInt8 := [0x2a]

/-- `ffs_icmpz` and `ffs_cmpz`, compared with 0. -/
def nameEq (icase : Bool) (name arg : List UInt8) : Bool :=
  if icase then name.map lowerUp == arg.map lowerUp else name == arg

/-- What `ffpars_ctx_findarg` returns: an argument, `NULL` or -1. -/
inductive FindArg (D : Type)
  | found (a : FfparsArg D)
  | missing
  | dup

/-- The search of `ffpars_ctx_findarg` for `"*"`, among `nargs` arguments. -/
def findStar (args : List (FfparsArg D)) (nargs : ℕ) : Option (FindArg D) :=
  let first := if (args.head?.map FfparsArg.name) = some [] then 1 else 0
  if nargs = first then some .missing
  else do
    let a ← args[first]?
    if a.name = star then some (.found a)
    else
      let b ← args[nargs - 1]?
      if b.name = star then some (.found b) else some .missing

/-- `ffpars_ctx_findarg` with `FFPARS_CTX_FANY` and `FFPARS_CTX_FDUP`; `none` is the failed
assertion, and a read behind the arguments. -/
def ffparsCtxFindarg (ctx : FfparsCtx D O) (name : List UInt8) (icase : Bool) :
    Option (FfparsCtx D O × FindArg D) := do
  let last ← ctx.args.getLast?
  let nargs := if last.type = .close then ctx.args.length - 1 else ctx.args.length
  let i := (ctx.args.take nargs).findIdx fun a => nameEq icase name a.name
  match ((ctx.args.take nargs)[i]?).filter fun a => a.name ≠ star with
  | none =>
    let r ← findStar ctx.args nargs
    some (ctx, r)
  | some a =>
    if i < 64 then
      let r := if i ∈ ctx.used ∧ !a.fmulti then .dup else .found a
      some ({ ctx with used := i :: ctx.used }, r)
    else some (ctx, .found a)

/-! ### Contexts -/

/-- `scOpenBrace` -/
def scOpenBrace (env : SchemEnv D O U) (ps : FfparserSchem D O U) :
    Option (FfparserSchem D O U × SchemE) := do
  let curarg ← ps.curarg
  if curarg.fptr then
    if !env.allocCtxs (ps.ctxs.length + 1) then some (ps, .parse .esys)
    else
      let ctx := { env.ctx curarg.dst with used := [] }
      some ({ ps with ctxs := ctx :: ps.ctxs, curarg := none }, .parse .more)
  else
    let curctx ← ps.ctxs.head?
    if !env.allocCtxs (ps.ctxs.length + 1) then some (ps, .parse .esys)
    else
      let (user, er, ctx) := env.fObj curarg.dst curctx.obj ps.user
      if er = 0 then
        let ctx := { ctx with used := [] }
        some ({ ps with user := user, ctxs := ctx :: ps.ctxs, curarg := none }, .parse .more)
      else some ({ ps with user := user }, .handler er)

/-- The argument that is required but was not used. -/
def requiredArg (ctx : FfparsCtx D O) : Option (FfparsArg D) :=
  (((ctx.args.take 64).zipIdx).find? fun (a, i) => a.frequired && !ctx.used.contains i).map Prod.fst

/-- The handler of `FFPARS_TCLOSE`. -/
def closeHandler (env : SchemEnv D O U) (ctx : FfparsCtx D O) (user : U) : U × ℕ :=
  match ctx.args.getLast? with
  | some a => if a.type = .close then env.fClose a.dst ctx.obj user else (user, 0)
  | none => (user, 0)

/-- `scCloseBrace` -/
def scCloseBrace (env : SchemEnv D O U) (ps : FfparserSchem D O U) :
    FfparserSchem D O U × SchemE :=
  match ps.ctxs with
  | [] => (ps, .econf)
  | ctx :: ctxs =>
    match requiredArg ctx with
    | some arg => ({ ps with curarg := some arg }, .enoreq)
    | none =>
      let (user, er) := closeHandler env ctx ps.user
      if er = 0 then ({ ps with user := user, ctxs := ctxs, curarg := none }, .parse .more)
      else ({ ps with user := user }, .handler er)

/-- The code `e` where the code behind `r` is 0. -/
def orCode (r : FfparserSchem D O U × SchemE) (e : FfparsE) : FfparserSchem D O U × SchemE :=
  (r.1, if r.2 = .parse .more then .parse e else r.2)

/-- `_ffpars_schemrun` -/
def ffparsSchemrun (env : SchemEnv D O U) (ps : FfparserSchem D O U) (e : FfparsE) :
    Option (FfparserSchem D O U × SchemE) :=
  match e with
  | .open => (scOpenBrace env ps).map fun r => orCode r e
  | .close => some (orCode (scCloseBrace env ps) e)
  | _ => some (ps, .parse e)

/-- `_ffpars_skipctx`: `none` where the context is not skipped. -/
def ffparsSkipctx (env : SchemEnv D O U) (ps : FfparserSchem D O U) (ret : FfparsE) :
    Option (FfparserSchem D O U × SchemE) :=
  match ps.ctxs with
  | [] => none
  | ctx :: ctxs =>
    if !ctx.skip then none
    else
      match ret with
      | .open =>
        if !env.allocCtxs (ps.ctxs.length + 1) then some (ps, .parse .esys)
        else some ({ ps with ctxs := { ctx with args := [], used := [] } :: ps.ctxs }, .parse ret)
      | .close => some ({ ps with ctxs := ctxs }, .parse ret)
      | _ => some (ps, .parse ret)

/-! ### The run of a scheme -/

variable {B : Type}

/-- The value is kept in `vals`. -/
def saveVal (env : SchemEnv D O U) (ps : FfparserSchem D O U) (v : List UInt8) :
    FfparserSchem D O U × SchemE :=
  if env.allocVal v.length then ({ ps with vals := v }, .parse .more) else (ps, .parse .esys)

/-- `ffconf_schemval` for a value of an argument that is not an object. -/
def argVal (env : SchemEnv D O U) (ps : FfparserSchem D O U) (arg : FfparsArg D)
    (v : List UInt8) : Option (FfparserSchem D O U × SchemE) := do
  let ctx ← ps.ctxs.head?
  let (user, er) := env.argProcess arg v ctx.obj ps.user
  some ({ ps with user := user }, .ofCode er)

/-- The `switch` of `ffconf_schemval`, and whether its end is reached. -/
def schemvalSwitch (env : SchemEnv D O U) (ps : FfparserSchem D O U) (arg : FfparsArg D)
    (v : List UInt8) : Option ((FfparserSchem D O U × SchemE) × Bool) :=
  if arg.type = .obj then
    if !arg.fobj1 then some ((ps, .evaltype), false)
    else if v = [] ∧ arg.fnotempty then some ((ps, .evalempty), false)
    else
      let (ps, r) := saveVal env ps v
      if r.isErr then some ((ps, r), false)
      else if arg.name = star then some (({ ps with scctxAny := true }, r), true)
      else some (({ ps with scctx := true }, r), true)
  else (argVal env ps arg v).map fun r => (r, true)

/-- `ffconf_schemval` -/
def ffconfSchemval (env : SchemEnv D O U) (ps : FfparserSchem D O U) (c : Ffconf B) :
    Option (FfparserSchem D O U × SchemE) := do
  let arg ← ps.curarg
  if c.type = .valnext ∧ !(arg.type = .anything ∨ arg.flist) then some (ps, .evalunexp)
  else
    let ps :=
      if c.type = .valnext then { ps with listIdx := ps.listIdx + 1 }
      else if c.type = .val then { ps with listIdx := 0 }
      else ps
    let (r, done) ← schemvalSwitch env ps arg c.val
    if done ∧ r.1.resetctx then some ({ r.1 with resetctxVal := true }, r.2) else some r

/-- `case FFPARS_KEY` where the argument is `"*"`. -/
def keyStar (env : SchemEnv D O U) (ps : FfparserSchem D O U) (arg : FfparsArg D) (c : Ffconf B) :
    Option (FfparserSchem D O U × SchemE) :=
  if arg.type = .obj then
    (ffconfSchemval env ps c).bind fun r =>
      if r.2.isErr then some r else ffparsSchemrun env r.1 .open
  else if arg.fwithkey then some (saveVal env ps c.val)
  else (argVal env ps arg c.val).map fun r => orCode r .key

/-- `case FFPARS_KEY` where the argument is found. -/
def keyFound (env : SchemEnv D O U) (ps : FfparserSchem D O U) (arg : FfparsArg D) (c : Ffconf B) :
    Option (FfparserSchem D O U × SchemE) :=
  let ps := { ps with curarg := some arg }
  if arg.name = star then keyStar env ps arg c
  else if c.type = .keyctx ∧ arg.type = .obj then ffparsSchemrun env ps .open
  else if arg.type ≠ .obj ∧ arg.type ≠ .arr then some ({ ps with schavkey := true }, .parse .key)
  else some (ps, .parse .key)

/-- `case FFPARS_KEY` -/
def caseSchemKey (env : SchemEnv D O U) (ps : FfparserSchem D O U) (c : Ffconf B) :
    Option (FfparserSchem D O U × SchemE) :=
  match ps.ctxs with
  | [] => none
  | ctx :: ctxs => do
      let ps := { ps with resetctx := ps.resetctx || c.type == FfconfT.keyctx }
      let (ctx, r) ← ffparsCtxFindarg ctx c.val ps.keyicase
      let ps := { ps with ctxs := ctx :: ctxs }
      match r with
      | .missing => some (ps, .euknkey)
      | .dup => some (ps, .edupkey)
      | .found arg => keyFound env ps arg c

/-- The `switch` of `ffconf_schemrun`. -/
def schemSwitch (env : SchemEnv D O U) (ps : FfparserSchem D O U) (c : Ffconf B) :
    Option (FfparserSchem D O U × SchemE) :=
  match c.ret with
  | .key => caseSchemKey env ps c
  | .val => (ffconfSchemval env ps c).map fun r => orCode r .val
  | .open => (ffparsSchemrun env ps .open).map fun r => ({ r.1 with vals := [] }, r.2)
  | .close => ffparsSchemrun env ps .close
  | _ => some (ps, .eintl)

/-- `ffconf_schemrun` behind the reset of the contexts. -/
def schemrunBody (env : SchemEnv D O U) (ps : FfparserSchem D O U) (c : Ffconf B) :
    Option (FfparserSchem D O U × SchemE) :=
  if c.ret.verdict ≠ .event then some (ps, .parse c.ret)
  else if ps.ctxs = [] then some (ps, .econf)
  else
    match ffparsSkipctx env ps c.ret with
    | some r => some r
    | none =>
      if ps.schavkey then
        let ps := { ps with schavkey := false }
        if c.ret ≠ .val then some (ps, .evalempty) else schemSwitch env ps c
      else if ps.scctx then
        let ps := { ps with scctx := false }
        if c.ret ≠ .open then some (ps, .evalempty) else schemSwitch env ps c
      else schemSwitch env ps c

/-- The line `ctx1.key value...` is processed: only the context at the top level stays. -/
def resetCtxs (ps : FfparserSchem D O U) : FfparserSchem D O U :=
  { ps with
    ctxs := ps.ctxs.drop (ps.ctxs.length - 1)
    curarg := none
    resetctx := false
    resetctxVal := false }

/-- Whether `ffconf_schemrun` drops the contexts. -/
def Resets (ps : FfparserSchem D O U) (ret : FfparsE) : Prop := ps.resetctxVal = true ∧ ret ≠ .val

instance (ps : FfparserSchem D O U) (ret : FfparsE) : Decidable (Resets ps ret) :=
  inferInstanceAs (Decidable (_ ∧ _))

/-- `ffconf_schemrun`; `none` is the use of a null pointer and of memory that is not there. -/
def ffconfSchemrun (env : SchemEnv D O U) (ps : FfparserSchem D O U) (c : Ffconf B) :
    Option (FfparserSchem D O U × SchemE) :=
  if Resets ps c.ret then schemrunBody env (resetCtxs ps) c else schemrunBody env ps c

/-- `ffconf_scheminit` for the context at the top level, behind `ffconf_parseinit`. -/
def ffconfScheminit (env : SchemEnv D O U) (ctx : FfparsCtx D O) (user : U) :
    FfparserSchem D O U × SchemE :=
  let ps : FfparserSchem D O U :=
    ⟨false, false, false, false, false, false, [], none, [], 0, user⟩
  if !env.allocCtxs 1 then (ps, .parse .esys)
  else ({ ps with ctxs := [{ ctx with used := [] }] }, .parse .more)

/-- `ffconf_schemfin`: the code 0 is `more`. -/
def ffconfSchemfin (env : SchemEnv D O U) (ps : FfparserSchem D O U) (c : Ffconf B) :
    Option (FfparserSchem D O U × SchemE) :=
  if ps.ctxs.length = 1 then do
    let (ps, r) ← ffconfSchemrun env ps { c with ret := .close, type := .obj }
    some (ps, if r = .parse .close then .parse .more else r)
  else some (ps, .enobrace)

/-! ### The number of contexts -/

variable {env : SchemEnv D O U} {ps ps' : FfparserSchem D O U} {r : SchemE} {c : Ffconf B}

theorem scOpenBrace_ctxs (h : scOpenBrace env ps = some (ps', r)) (hr : r.isErr = false) :
    ps'.ctxs.length = ps.ctxs.length + 1 := by
  simp only [scOpenBrace, Option.bind_eq_bind, Option.bind_eq_some_iff] at h
  obtain ⟨curarg, -, h⟩ := h
  split at h
  · split at h
    · cases h
      cases hr
    · cases h
      rfl
  obtain ⟨curctx, -, h⟩ := Option.bind_eq_some_iff.mp h
  split at h
  · cases h
    cases hr
  · split at h
    · cases h
      rfl
    · cases h
      cases hr

theorem scCloseBrace_ctxs (h : scCloseBrace env ps = (ps', r)) (hr : r.isErr = false) :
    ps.ctxs.length = ps'.ctxs.length + 1 := by
  unfold scCloseBrace at h
  split at h
  · cases h
    cases hr
  next ctx ctxs hctxs =>
    split at h
    · cases h
      cases hr
    split at h
    split at h
    · cases h
      rw [hctxs]
      rfl
    · cases h
      cases hr

theorem isErr_orCode {p : FfparserSchem D O U × SchemE} {e : FfparsE}
    (h : (orCode p e).2.isErr = false) : p.2.isErr = false := by
  by_cases hmore : p.2 = .parse .more
  · rw [hmore]
    rfl
  · simpa [orCode, hmore] using h

theorem ffparsSchemrun_open (h : ffparsSchemrun env ps .open = some (ps', r))
    (hr : r.isErr = false) : ps'.ctxs.length = ps.ctxs.length + 1 := by
  simp only [ffparsSchemrun, Option.map_eq_some_iff] at h
  obtain ⟨⟨ps₁, r₁⟩, hopen, h⟩ := h
  cases h
  exact scOpenBrace_ctxs hopen (isErr_orCode hr)

theorem ffparsSchemrun_close (h : ffparsSchemrun env ps .close = some (ps', r))
    (hr : r.isErr = false) : ps.ctxs.length = ps'.ctxs.length + 1 := by
  cases h
  exact scCloseBrace_ctxs rfl (isErr_orCode hr)

theorem argVal_ctxs {arg : FfparsArg D} {v : List UInt8} {p : FfparserSchem D O U × SchemE}
    (h : argVal env ps arg v = some p) : p.1.ctxs = ps.ctxs := by
  simp only [argVal, Option.bind_eq_bind, Option.bind_eq_some_iff] at h
  obtain ⟨ctx, -, h⟩ := h
  cases h
  rfl

theorem saveVal_ctxs (env : SchemEnv D O U) (ps : FfparserSchem D O U) (v : List UInt8) :
    (saveVal env ps v).1.ctxs = ps.ctxs := by
  unfold saveVal
  split <;> rfl

theorem schemvalSwitch_ctxs {arg : FfparsArg D} {v : List UInt8}
    {p : (FfparserSchem D O U × SchemE) × Bool} (h : schemvalSwitch env ps arg v = some p) :
    p.1.1.ctxs = ps.ctxs := by
  have hsave := saveVal_ctxs env ps v
  unfold schemvalSwitch at h
  split at h
  · split at h
    · cases h
      rfl
    split at h
    · cases h
      rfl
    split at h
    next q r₁ hq =>
      rw [hq] at hsave
      split at h
      · cases h
        exact hsave
      · split at h <;> cases h <;> exact hsave
  · obtain ⟨q, hq, rfl⟩ := Option.map_eq_some_iff.mp h
    exact argVal_ctxs hq

theorem ffconfSchemval_ctxs {p : FfparserSchem D O U × SchemE}
    (h : ffconfSchemval env ps c = some p) : p.1.ctxs = ps.ctxs := by
  simp only [ffconfSchemval, Option.bind_eq_bind, Option.bind_eq_some_iff] at h
  obtain ⟨arg, -, h⟩ := h
  split at h
  · cases h
    rfl
  obtain ⟨⟨q, done⟩, hq, h⟩ := Option.bind_eq_some_iff.mp h
  have hctxs : q.1.ctxs = ps.ctxs := by
    rw [schemvalSwitch_ctxs hq]
    split
    · rfl
    · split <;> rfl
  split at h <;> cases h <;> exact hctxs

theorem keyStar_ctxs {arg : FfparsArg D} (h : keyStar env ps arg c = some (ps', r))
    (hr : r.isErr = false) : ps.ctxs.length ≤ ps'.ctxs.length := by
  unfold keyStar at h
  split at h
  · obtain ⟨q, hq, h⟩ := Option.bind_eq_some_iff.mp h
    have hctxs := ffconfSchemval_ctxs hq
    split at h
    · cases h
      exact le_of_eq (congrArg List.length hctxs.symm)
    · have hlen := ffparsSchemrun_open h hr
      rw [hctxs] at hlen
      omega
  split at h
  · have hctxs := saveVal_ctxs env ps c.val
    rw [Option.some.inj h] at hctxs
    exact le_of_eq (congrArg List.length hctxs.symm)
  · obtain ⟨q, hq, h⟩ := Option.map_eq_some_iff.mp h
    have hctxs := argVal_ctxs hq
    cases h
    exact le_of_eq (congrArg List.length hctxs.symm)

theorem keyFound_ctxs {arg : FfparsArg D} (h : keyFound env ps arg c = some (ps', r))
    (hr : r.isErr = false) : ps.ctxs.length ≤ ps'.ctxs.length := by
  unfold keyFound at h
  split at h
  · have hstar := keyStar_ctxs h hr
    exact hstar
  · split at h
    · have hopen := ffparsSchemrun_open h hr
      exact Nat.le_of_lt (by rw [hopen]; exact Nat.lt_succ_self _)
    · split at h <;> cases h <;> exact le_rfl

theorem caseSchemKey_ctxs (h : caseSchemKey env ps c = some (ps', r)) (hr : r.isErr = false) :
    ps.ctxs.length ≤ ps'.ctxs.length := by
  unfold caseSchemKey at h
  split at h
  · cases h
  next ctx ctxs hctxs =>
    simp only [Option.bind_eq_bind, Option.bind_eq_some_iff] at h
    obtain ⟨⟨ctx', fa⟩, -, h⟩ := h
    rw [hctxs, List.length_cons]
    split at h
    · cases h
      cases hr
    · cases h
      cases hr
    · exact keyFound_ctxs h hr

/-- What a call that gives no error does to the number of contexts. -/
def CtxsStep (ret : FfparsE) (n n' : ℕ) : Prop :=
  match ret with
  | .open => n' = n + 1
  | .close => n = n' + 1
  | _ => n ≤ n'

theorem schemSwitch_ctxs (h : schemSwitch env ps c = some (ps', r)) (hr : r.isErr = false) :
    CtxsStep c.ret ps.ctxs.length ps'.ctxs.length := by
  unfold schemSwitch at h
  cases hret : c.ret with
  | key =>
    simp only [hret] at h
    exact caseSchemKey_ctxs h hr
  | val =>
    simp only [hret, Option.map_eq_some_iff] at h
    obtain ⟨q, hq, h⟩ := h
    have hctxs := ffconfSchemval_ctxs hq
    cases h
    exact le_of_eq (congrArg List.length hctxs.symm)
  | «open» =>
    simp only [hret, Option.map_eq_some_iff] at h
    obtain ⟨⟨ps₁, r₁⟩, hq, h⟩ := h
    cases h
    have hlen := ffparsSchemrun_open hq hr
    exact hlen
  | close =>
    simp only [hret] at h
    exact ffparsSchemrun_close h hr
  | _ =>
    simp only [hret] at h
    cases h
    cases hr

theorem ffparsSkipctx_ctxs {p : FfparserSchem D O U × SchemE}
    (h : ffparsSkipctx env ps c.ret = some p) (hr : p.2.isErr = false) :
    CtxsStep c.ret ps.ctxs.length p.1.ctxs.length := by
  unfold ffparsSkipctx at h
  split at h
  · cases h
  next ctx ctxs hctxs =>
    split at h
    · cases h
    cases hret : c.ret with
    | «open» =>
      simp only [hret] at h
      split at h
      · cases h
        cases hr
      · cases h
        rfl
    | close =>
      simp only [hret] at h
      cases h
      rw [hctxs]
      rfl
    | _ =>
      simp only [hret] at h
      cases h
      exact le_rfl

theorem schemrunBody_ctxs (h : schemrunBody env ps c = some (ps', r)) (hr : r.isErr = false) :
    CtxsStep c.ret ps.ctxs.length ps'.ctxs.length := by
  unfold schemrunBody at h
  split at h
  · next hev =>
      cases h
      cases hret : c.ret <;> simp [hret, FfparsE.verdict] at hev <;> exact le_rfl
  split at h
  · cases h
    cases hr
  split at h
  · next p hskip =>
      cases h
      exact ffparsSkipctx_ctxs hskip hr
  split at h
  · split at h
    · cases h
      cases hr
    · have hlen := schemSwitch_ctxs h hr
      exact hlen
  split at h
  · split at h
    · cases h
      cases hr
    · have hlen := schemSwitch_ctxs h hr
      exact hlen
  · exact schemSwitch_ctxs h hr

/-- **What a call does to the number of contexts**: they may all be dropped but the one at the top
level; then an opening brace adds one, a closing brace removes one, and a key may add one. -/
theorem ffconfSchemrun_ctxs (h : ffconfSchemrun env ps c = some (ps', r)) (hr : r.isErr = false) :
    ∃ n, CtxsStep c.ret n ps'.ctxs.length ∧
      (n = ps.ctxs.length ∨ Resets ps c.ret ∧ n = min 1 ps.ctxs.length) := by
  unfold ffconfSchemrun at h
  split at h
  · next hreset =>
      refine ⟨_, schemrunBody_ctxs h hr, .inr ⟨hreset, ?_⟩⟩
      simp only [resetCtxs, List.length_drop]
      omega
  · exact ⟨_, schemrunBody_ctxs h hr, .inl rfl⟩

theorem ffconfSchemrun_stop (h : ffconfSchemrun env ps c = some (ps', r))
    (hstop : c.ret.verdict = .stop) : r.isErr = true := by
  have hbody : ∀ q, schemrunBody env q c = some (q, .parse c.ret) := by
    intro q
    rw [schemrunBody, if_pos (by simp [hstop])]
  unfold ffconfSchemrun at h
  split at h <;> rw [hbody] at h <;> cases h <;> simp [SchemE.isErr, hstop]

end Scheme

end Conf

end FF
