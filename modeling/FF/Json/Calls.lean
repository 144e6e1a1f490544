import FF.Json.Write

/-!
# Calls of the JSON writer

What one call of `ffjson_add` on a buffer of a fixed size promises, what a run of calls writes where
there is room, and strings that are added piece by piece.
-/

namespace FF

open List Option

variable {alloc : ℕ → Bool}

/-! ### One call -/

theorem entWritten_of_fits {f : JsonF} {st : CookSt} {len room : ℕ} {e : JsonEntity}
    (h : (entText f st len e).length ≤ room) : entWritten f st len room e = entText f st len e := by
  cases e with
  | str s =>
    simp only [entText, length_append] at h
    have hbody : strWritten f (room - (entPre f st len (.str s)).length) s =
        entBody f (.str s) := by
      simp only [strWritten, entBody]
      cases hesc : f.noesc with
      | true => rfl
      | false =>
        simp only [entBody, hesc, Bool.false_eq_true, if_false] at h ⊢
        rw [if_pos (by omega)]
    rw [entWritten, hbody, entText]
  | _ => rfl

/-- **Where there is room** and the call is not refused, the text of the entity is appended. -/
theorem ffjsonAdd_fits {c : FfjsonCook} (hn : c.nobuf = false) {f : JsonF} {e : JsonEntity}
    {st : CookSt} {ctxs : CtxArr}
    (hnext : entNext alloc (f.or c.gflags) c.st c.ctxs e = some (st, ctxs))
    (hfit : c.buf.length + (entText (f.or c.gflags) c.st c.ctxs.len e).length < c.cap) :
    ffjsonAdd alloc c f e =
      ({ c with
          buf := c.buf ++ entText (f.or c.gflags) c.st c.ctxs.len e
          st := { st with lf := true }
          ctxs := ctxs }, FFJSON_OK) := by
  have hc : c.Ok := ⟨fun h => by simp [hn] at h, by omega⟩
  rw [ffjsonAdd_spec alloc hc, hnext, entWritten_of_fits (by omega)]
  simp only [addResult, addDone]
  rw [take_of_length_le (by omega), if_neg (by simp [hn]),
    if_neg (by rw [length_append]; omega)]

/-- What a call on a buffer of a fixed size promises: after `FFJSON_OK` the whole text has been
appended; after `FFJSON_BUFFULL` nothing has changed, and the same call with a larger buffer gives
the text. -/
structure AddOk (alloc : ℕ → Bool) (c : FfjsonCook) (f : JsonF) (e : JsonEntity) : Prop where
  ok : (ffjsonAdd alloc c f e).2 = FFJSON_OK →
    (ffjsonAdd alloc c f e).1.buf = c.buf ++ entText (f.or c.gflags) c.st c.ctxs.len e
  buffull : (ffjsonAdd alloc c f e).2 = FFJSON_BUFFULL →
    (ffjsonAdd alloc c f e).1.buf = c.buf ∧ (ffjsonAdd alloc c f e).1.st = c.st ∧
    (ffjsonAdd alloc c f e).1.ctxs = c.ctxs ∧
    ∀ cap, c.buf.length + (entText (f.or c.gflags) c.st c.ctxs.len e).length < cap →
      (ffjsonAdd alloc { (ffjsonAdd alloc c f e).1 with cap := cap } f e).2 = FFJSON_OK ∧
      (ffjsonAdd alloc { (ffjsonAdd alloc c f e).1 with cap := cap } f e).1.buf =
        c.buf ++ entText (f.or c.gflags) c.st c.ctxs.len e

/-- The call is refused with `FFJSON_ERR`: a context that cannot be opened for want of memory, or
is not the one that is open, or an entity of another type. -/
def Refused (alloc : ℕ → Bool) (ctxs : CtxArr) : JsonEntity → Prop
  | .obj true => ctxs.len = 0 ∨ ctxs.back ≠ some .obj
  | .arr true => ctxs.len = 0 ∨ ctxs.back ≠ some .arr
  | .obj false | .arr false => ctxs.cells.length < ctxs.len + 1 ∧ alloc (ctxs.len + 1) = false
  | .other => True
  | _ => False

/-- An escaped string does not fit, and what is written around it does. -/
def Skips (f : JsonF) (st : CookSt) (len room : ℕ) : JsonEntity → Prop
  | .str s => f.noesc = false ∧
      room < (entPre f st len (.str s)).length + (escapeText (strSrc f s)).length ∧
      (entPre f st len (.str s)).length + (entPost f st (.str s)).length < room
  | _ => False

/-- An entity that is not a context leaves the state as it is: it is not a key, and no comma or
line feed becomes necessary. -/
def ScalarKeeps (st : CookSt) (ctxs : CtxArr) : Prop :=
  st.key = false ∧
    (ctxs.len ≠ 0 → ctxs.back ≠ some .obj ∧ st = { CookSt.zero with comma := true })

/-- An entity leaves the state as it is. -/
def Keeps (f : JsonF) (st : CookSt) (ctxs : CtxArr) : JsonEntity → Prop
  | .str _ => if f.more then st.cont = true else st.cont = false ∧ ScalarKeeps st ctxs
  | .obj _ | .arr _ => False
  | _ => ScalarKeeps st ctxs

/-- When a call keeps its promise: it is refused, or the text fits with a byte to spare, or the
string is not left out and the entity leaves the state as it is. -/
def AddCond (alloc : ℕ → Bool) (c : FfjsonCook) (f : JsonF) (e : JsonEntity) : Prop :=
  Refused alloc c.ctxs e ∨
  c.buf.length + (entText (f.or c.gflags) c.st c.ctxs.len e).length < c.cap ∨
  (¬Skips (f.or c.gflags) c.st c.ctxs.len (c.cap - c.buf.length) e ∧
    Keeps (f.or c.gflags) c.st c.ctxs e)

theorem ctxNext_close_eq_none (ctxs : CtxArr) (type : FfjsonT) :
    ctxNext alloc ctxs type true = none ↔ ctxs.len = 0 ∨ ctxs.back ≠ some type := by
  simp only [ctxNext, if_true]
  split
  · next h => exact iff_of_true rfl h
  · next h => exact iff_of_false (by simp) h

theorem ctxNext_open_eq_none (ctxs : CtxArr) (type : FfjsonT) :
    ctxNext alloc ctxs type false = none ↔
      ctxs.cells.length < ctxs.len + 1 ∧ alloc (ctxs.len + 1) = false := by
  simp only [ctxNext, Bool.false_eq_true, if_false, map_eq_none_iff, CtxArr.push]
  split
  · next h => cases halloc : alloc (ctxs.len + 1) <;> simp [h]
  · next h => simp [h]

theorem entNext_eq_none (f : JsonF) (st : CookSt) (ctxs : CtxArr) (e : JsonEntity) :
    entNext alloc f st ctxs e = none ↔ Refused alloc ctxs e := by
  cases e with
  | obj close | arr close =>
    cases close with
    | true => exact ctxNext_close_eq_none ctxs _
    | false => exact ctxNext_open_eq_none ctxs _
  | _ => simp [entNext, Refused]

theorem scalarNext_eq_self (st : CookSt) (ctxs : CtxArr) :
    scalarNext st ctxs = st ↔ ScalarKeeps st ctxs := by
  obtain ⟨comma, key, val, cont, lf⟩ := st
  simp only [scalarNext, ScalarKeeps, CookSt.zero]
  cases key with
  | true => simp
  | false =>
    by_cases h0 : ctxs.len = 0
    · simp [h0]
    by_cases hb : ctxs.back = some .obj
    · simp [h0, hb]
    · have hb' : (ctxs.back == some FfjsonT.obj) = false := by simpa using hb
      simp only [Bool.false_eq_true, if_false, ne_eq, h0, not_false_eq_true, if_true, hb',
        true_and, forall_const, hb]
      exact eq_comm

theorem strNext_eq_self (f : JsonF) (st : CookSt) (ctxs : CtxArr) :
    strNext f st ctxs = st ↔
      if f.more then st.cont = true else st.cont = false ∧ ScalarKeeps st ctxs := by
  simp only [strNext]
  cases hmore : f.more with
  | true =>
    obtain ⟨comma, key, val, cont, lf⟩ := st
    simp [eq_comm]
  | false =>
    simp only [Bool.false_eq_true, if_false]
    cases hcont : st.cont with
    | false =>
      have hst : { st with cont := false } = st := by rw [← hcont]
      rw [hst, scalarNext_eq_self]
      simp
    | true =>
      refine iff_of_false (fun h => ?_) (by simp)
      have hc : (scalarNext { st with cont := false } ctxs).cont = false := by
        simp only [scalarNext, CookSt.zero]
        split
        · rfl
        · split <;> rfl
      rw [h, hcont] at hc
      cases hc

theorem CtxArr.push_len {a a' : CtxArr} {x : FfjsonT} (h : a.push alloc x = some a') :
    a'.len = a.len + 1 := by
  simp only [CtxArr.push] at h
  split at h
  · split at h
    · rw [← some.inj h]
    · cases h
  · rw [← some.inj h]

theorem entNext_eq_self {f : JsonF} {st st' : CookSt} {ctxs ctxs' : CtxArr} {e : JsonEntity}
    (hnext : entNext alloc f st ctxs e = some (st', ctxs')) :
    st' = st ∧ ctxs' = ctxs ↔ Keeps f st ctxs e := by
  have hctx : ∀ type close, ctxNext alloc ctxs type close = some (st', ctxs') →
      ¬(st' = st ∧ ctxs' = ctxs) := by
    rintro type close h ⟨-, rfl⟩
    cases close with
    | true =>
      simp only [ctxNext, if_true] at h
      split at h
      · cases h
      · next h0 =>
          have := congrArg CtxArr.len (Prod.ext_iff.mp (some.inj h)).2
          simp only [not_or] at h0 this
          omega
    | false =>
      simp only [ctxNext, Bool.false_eq_true, if_false, map_eq_some_iff] at h
      obtain ⟨a, ha, h⟩ := h
      obtain rfl := (Prod.ext_iff.mp h).2
      have := CtxArr.push_len ha
      simp only at this
      omega
  cases e with
  | str s =>
    obtain ⟨rfl, rfl⟩ := hnext
    simp only [and_true, strNext_eq_self, Keeps]
  | obj close => exact iff_of_false (hctx _ _ hnext) id
  | arr close => exact iff_of_false (hctx _ _ hnext) id
  | other => cases hnext
  | int i | num s | bool b | null =>
    obtain ⟨rfl, rfl⟩ := hnext
    simp only [and_true, scalarNext_eq_self, Keeps]

/-- Where the text does not fit, what is written fills the buffer unless a string is left out. -/
theorem length_entWritten_lt {f : JsonF} {st : CookSt} {len room : ℕ} {e : JsonEntity}
    (h : room ≤ (entText f st len e).length) :
    (entWritten f st len room e).length < room ↔ Skips f st len room e := by
  cases e with
  | str s =>
    simp only [entText, entBody, entWritten, strWritten, Skips, length_append] at h ⊢
    cases hesc : f.noesc with
    | true =>
      simp only [hesc, if_true] at h ⊢
      exact iff_of_false (by omega) (by simp)
    | false =>
      simp only [hesc, Bool.false_eq_true, if_false, true_and] at h ⊢
      split
      · exact iff_of_false (by omega) (by omega)
      · rw [length_nil]
        omega
  | _ => exact iff_of_false (by simpa [entWritten] using h) id

/-- **A call keeps its promise** exactly under the condition. -/
theorem ffjson_add_iff {c : FfjsonCook} (hn : c.nobuf = false) (hcap : c.buf.length ≤ c.cap)
    (f : JsonF) (e : JsonEntity) : AddOk alloc c f e ↔ AddCond alloc c f e := by
  have hc : c.Ok := ⟨fun h => by simp [hn] at h, hcap⟩
  have hspec := ffjsonAdd_spec alloc hc f e
  by_cases href : Refused alloc c.ctxs e
  · rw [(entNext_eq_none _ _ _ _).mpr href] at hspec
    refine iff_of_true ⟨fun h => ?_, fun h => ?_⟩ (.inl href)
    · rw [hspec] at h
      cases h
    · rw [hspec] at h
      cases h
  obtain ⟨⟨st', ctxs'⟩, hnext⟩ :=
    ne_none_iff_exists'.mp (fun h => href ((entNext_eq_none (f.or c.gflags) c.st _ _).mp h))
  by_cases hfit : c.buf.length + (entText (f.or c.gflags) c.st c.ctxs.len e).length < c.cap
  · have hadd := ffjsonAdd_fits hn hnext hfit
    refine iff_of_true ⟨fun _ => by rw [hadd], fun h => ?_⟩ (.inr (.inl hfit))
    rw [hadd] at h
    cases h
  have hroom : c.cap - c.buf.length ≤ (entText (f.or c.gflags) c.st c.ctxs.len e).length := by
    omega
  have hlt := length_entWritten_lt hroom
  rw [hnext] at hspec
  simp only [addResult, addDone] at hspec
  rw [if_neg (by simp [hn])] at hspec
  by_cases hskip : Skips (f.or c.gflags) c.st c.ctxs.len (c.cap - c.buf.length) e
  · have hw := hlt.mpr hskip
    rw [take_of_length_le (Nat.le_of_lt hw),
      if_neg (by rw [length_append]; omega)] at hspec
    refine iff_of_false (fun h => ?_) ?_
    · have hok := congrArg List.length (h.ok (by rw [hspec]))
      rw [hspec] at hok
      simp only [length_append] at hok
      omega
    · rintro (h | h | h)
      · exact href h
      · exact hfit h
      · exact h.1 hskip
  have hw := (not_iff_not.mpr hlt).mpr hskip
  rw [if_pos (by rw [length_append, length_take]; omega)] at hspec
  constructor
  · intro h
    obtain ⟨-, hst, hctxs, -⟩ := h.buffull (by rw [hspec])
    rw [hspec] at hst hctxs
    exact .inr (.inr ⟨hskip, (entNext_eq_self hnext).mp ⟨hst, hctxs⟩⟩)
  rintro (h | h | ⟨-, h⟩)
  · exact absurd h href
  · exact absurd h hfit
  obtain ⟨rfl, rfl⟩ := (entNext_eq_self hnext).mpr h
  refine ⟨fun hok => ?_, fun _ => ?_⟩
  · rw [hspec] at hok
    cases hok
  · have hsame : ffjsonAdd alloc c f e = (c, FFJSON_BUFFULL) := hspec
    rw [hsame]
    refine ⟨rfl, rfl, rfl, fun cap hcap => ?_⟩
    have hrep := ffjsonAdd_fits (c := { c with cap := cap }) hn hnext hcap
    exact ⟨congrArg Prod.snd hrep, congrArg (fun r => r.1.buf) hrep⟩

/-- The state of the writer in an array, behind its first element. -/
def inArray : FfjsonCook where
  nobuf := false
  buf := [0x5b, 0x31]
  cap := 8
  st := { CookSt.zero with comma := true, lf := true }
  ctxs := ⟨[.arr], 1⟩
  gflags := JsonF.zero

/-- A string that fits. -/
theorem ffjson_add_iff_example :
    AddOk (fun _ => true) inArray JsonF.zero (.str [0x61]) ↔
      AddCond (fun _ => true) inArray JsonF.zero (.str [0x61]) :=
  ffjson_add_iff rfl (by decide) JsonF.zero (.str [0x61])

/-- **Neither result can be trusted.** A string of five bytes is left out, and the call succeeds
with the empty string; an opening bracket that does not fit has opened its context. -/
theorem ffjson_add_breaks :
    ¬AddOk (fun _ => true) inArray JsonF.zero (.str [0x61, 0x62, 0x63, 0x64, 0x65]) ∧
    ¬AddOk (fun _ => true) { inArray with cap := 4 } JsonF.zero (.arr false) := by
  constructor
  · intro h
    exact absurd (h.ok (by decide)) (by decide)
  · intro h
    exact absurd (h.buffull (by decide)).2.1 (by decide)

/-! ### Runs -/

/-- The text of a run of calls and the state behind it, where there is room; `none` where a call is
refused. -/
def entRun (alloc : ℕ → Bool) (g : JsonF) (st : CookSt) (ctxs : CtxArr) :
    List (JsonF × JsonEntity) → Option (List UInt8 × CookSt × CtxArr)
  | [] => some ([], st, ctxs)
  | (f, e) :: calls =>
    match entNext alloc (f.or g) st ctxs e with
    | none => none
    | some (st', ctxs') =>
      match entRun alloc g { st' with lf := true } ctxs' calls with
      | none => none
      | some (t, r) => some (entText (f.or g) st ctxs.len e ++ t, r)

/-- Calls one after another; `none` where one of them does not return `FFJSON_OK`. -/
def addRun (alloc : ℕ → Bool) (c : FfjsonCook) : List (JsonF × JsonEntity) → Option FfjsonCook
  | [] => some c
  | (f, e) :: calls =>
    if (ffjsonAdd alloc c f e).2 = FFJSON_OK then addRun alloc (ffjsonAdd alloc c f e).1 calls
    else none

/-- **Where there is room**, a run writes its text. -/
theorem addRun_eq {c : FfjsonCook} (hn : c.nobuf = false) {calls : List (JsonF × JsonEntity)}
    {t : List UInt8} {st : CookSt} {ctxs : CtxArr}
    (hrun : entRun alloc c.gflags c.st c.ctxs calls = some (t, st, ctxs))
    (hfit : c.buf.length + t.length < c.cap) :
    addRun alloc c calls = some { c with buf := c.buf ++ t, st := st, ctxs := ctxs } := by
  induction calls generalizing c t with
  | nil =>
    obtain ⟨rfl, rfl, rfl⟩ : [] = t ∧ c.st = st ∧ c.ctxs = ctxs := by simpa [entRun] using hrun
    simp [addRun]
  | cons call calls ih =>
    obtain ⟨f, e⟩ := call
    simp only [entRun] at hrun
    split at hrun
    · cases hrun
    next st₁ ctxs₁ hnext =>
      split at hrun
      · cases hrun
      next t₂ r hrest =>
        obtain ⟨rfl, rfl⟩ : entText (f.or c.gflags) c.st c.ctxs.len e ++ t₂ = t ∧
          r = (st, ctxs) := by simpa using hrun
        simp only [length_append] at hfit
        have hadd := ffjsonAdd_fits hn hnext (by omega)
        have hrec := ih (c := { c with
          buf := c.buf ++ entText (f.or c.gflags) c.st c.ctxs.len e
          st := { st₁ with lf := true }
          ctxs := ctxs₁ }) hn hrest (by simp only [length_append]; omega)
        simp only [addRun, hadd, if_true, hrec, append_assoc]

/-! ### Pieces of a string -/

/-- The calls that add a string piece by piece: with `FFJSON_FMORE` on all but the last. -/
def pieceCalls (f : JsonF) : List (List UInt8) → List (JsonF × JsonEntity)
  | [] => []
  | [s] => [(f, .str s)]
  | s :: ss => ({ f with more := true }, .str s) :: pieceCalls f ss

/-- What is written before every piece but the first. -/
def pieceGlue (f : JsonF) (st : CookSt) (len : ℕ) : List UInt8 :=
  preText f { st with cont := true, lf := true } len false

theorem pieceGlue_eq_nil (f : JsonF) (st : CookSt) (len : ℕ) :
    pieceGlue f st len = [] ↔ st.comma = false ∧ (f.prettymask = false ∨ st.val = true) := by
  simp only [pieceGlue, preText, wsText, Bool.not_false, Bool.and_true, if_true]
  cases st.comma <;> cases f.prettymask <;> cases st.val <;> simp

theorem entBody_str {f : JsonF} (hstrz : f.strz = false) (s : List UInt8) :
    entBody f (.str s) = if f.noesc then s else escapeText s := by
  simp [entBody, strSrc, hstrz]

theorem entBody_flatten {f : JsonF} (hstrz : f.strz = false) (ss : List (List UInt8)) :
    entBody f (.str ss.flatten) = ss.flatMap fun s => entBody f (.str s) := by
  simp only [entBody_str hstrz]
  cases f.noesc with
  | true => simp [flatMap_id']
  | false =>
    simp only [Bool.false_eq_true, if_false, escapeText]
    rw [← flatMap_id, flatMap_assoc]
    rfl

theorem entRun_pieces (f g : JsonF) {st : CookSt} (hcont : st.cont = true) (hlf : st.lf = true)
    (ctxs : CtxArr) {ss : List (List UInt8)} (hss : ss ≠ []) :
    entRun alloc g st ctxs (pieceCalls f ss) =
      some ((ss.flatMap fun s => preText (f.or g) st ctxs.len false ++ entBody (f.or g) (.str s)) ++
          entPost (f.or g) st (.str []),
        { strNext (f.or g) st ctxs with lf := true }, ctxs) := by
  have hst : ({ st with cont := true, lf := true } : CookSt) = st := by
    cases st
    simp_all
  induction ss with
  | nil => exact absurd rfl hss
  | cons s ss ih =>
    cases ss with
    | nil =>
      simp [pieceCalls, entRun, entNext, entText, entPre, openQuote, hcont, entPost,
        JsonEntity.closingCtx]
    | cons s' ss =>
      have hmore : (({ f with more := true } : JsonF).or g).more = true := rfl
      have hpost : entPost (({ f with more := true } : JsonF).or g) st (.str s) = [] := by
        simp [entPost, hmore]
      have hpre : entPre (({ f with more := true } : JsonF).or g) st ctxs.len (.str s) =
          preText (f.or g) st ctxs.len false := by
        simp only [entPre, openQuote, hcont, if_true, append_nil]
        rfl
      have hbody : entBody (({ f with more := true } : JsonF).or g) (.str s) =
          entBody (f.or g) (.str s) := rfl
      have hnext : strNext (({ f with more := true } : JsonF).or g) st ctxs =
          { st with cont := true } := by
        rw [strNext, hmore, if_pos rfl]
      simp only [pieceCalls, entRun, entNext, hnext, hst]
      rw [ih (by simp)]
      simp [entText, hpost, hpre, hbody]

theorem length_pieces (glue : List UInt8) (body : List UInt8 → List UInt8)
    (ss : List (List UInt8)) :
    (ss.flatMap fun s => glue ++ body s).length =
      ss.length * glue.length + (ss.flatMap body).length := by
  induction ss with
  | nil => simp
  | cons s ss ih =>
    simp only [flatMap_cons, length_append, ih, length_cons, Nat.succ_mul]
    omega

theorem strNext_mid (f : JsonF) (st : CookSt) (ctxs : CtxArr) :
    { strNext f { st with cont := true, lf := true } ctxs with lf := true } =
      { strNext f st ctxs with lf := true } := by
  simp only [strNext, scalarNext]
  cases f.more with
  | true => rfl
  | false =>
    simp only [Bool.false_eq_true, if_false]
    split
    · rfl
    · split <;> rfl

theorem entRun_pieceCalls (f g : JsonF) (st : CookSt) (ctxs : CtxArr) (s : List UInt8)
    (ss : List (List UInt8)) :
    entRun alloc g st ctxs (pieceCalls f (s :: ss)) =
      some (entPre (f.or g) st ctxs.len (.str s) ++ (entBody (f.or g) (.str s) ++
          (ss.flatMap fun s => pieceGlue (f.or g) st ctxs.len ++ entBody (f.or g) (.str s))) ++
          entPost (f.or g) st (.str []),
        { strNext (f.or g) st ctxs with lf := true }, ctxs) := by
  cases ss with
  | nil => simp [pieceCalls, entRun, entNext, entText, entPost]
  | cons s' ss =>
    have hmore : (({ f with more := true } : JsonF).or g).more = true := rfl
    have hpost : entPost (({ f with more := true } : JsonF).or g) st (.str s) = [] := by
      simp [entPost, hmore]
    have hpre : entPre (({ f with more := true } : JsonF).or g) st ctxs.len (.str s) =
        entPre (f.or g) st ctxs.len (.str s) := rfl
    have hbody : entBody (({ f with more := true } : JsonF).or g) (.str s) =
        entBody (f.or g) (.str s) := rfl
    have hnext : strNext (({ f with more := true } : JsonF).or g) st ctxs =
        { st with cont := true } := by
      rw [strNext, hmore, if_pos rfl]
    simp only [pieceCalls, entRun, entNext, hnext]
    rw [entRun_pieces f g rfl rfl ctxs (by simp), strNext_mid]
    simp only [entText, hpost, hpre, hbody, append_nil, pieceGlue, append_assoc]
    rfl

/-- **Pieces give the same as the whole string** exactly where no comma and no whitespace is due, or
where there is only one piece. -/
theorem ffjson_pieces_iff {c : FfjsonCook} (hn : c.nobuf = false) {f : JsonF}
    (hstrz : (f.or c.gflags).strz = false) {ss : List (List UInt8)} (hss : ss ≠ []) :
    ∃ cap₀, ∀ cap, cap₀ ≤ cap → ∃ c₁ c₂,
      addRun alloc { c with cap := cap } (pieceCalls f ss) = some c₁ ∧
      addRun alloc { c with cap := cap } [(f, .str ss.flatten)] = some c₂ ∧
      (c₁ = c₂ ↔ ss.length = 1 ∨
        (c.st.comma = false ∧ ((f.or c.gflags).prettymask = false ∨ c.st.val = true))) := by
  obtain ⟨s, ss, rfl⟩ := exists_cons_of_ne_nil hss
  have h₁ := @entRun_pieceCalls alloc f c.gflags c.st c.ctxs s ss
  have h₂ := @entRun_pieceCalls alloc f c.gflags c.st c.ctxs (s :: ss).flatten []
  rw [entBody_flatten hstrz, flatMap_nil, append_nil] at h₂
  obtain ⟨glue, hglue⟩ : ∃ glue, glue = pieceGlue (f.or c.gflags) c.st c.ctxs.len := ⟨_, rfl⟩
  rw [← hglue] at h₁
  obtain ⟨t₁, ht₁⟩ : ∃ t₁, t₁ = entPre (f.or c.gflags) c.st c.ctxs.len (.str s) ++
      (entBody (f.or c.gflags) (.str s) ++
        (ss.flatMap fun s => glue ++ entBody (f.or c.gflags) (.str s))) ++
      entPost (f.or c.gflags) c.st (.str []) := ⟨_, rfl⟩
  obtain ⟨t₂, ht₂⟩ : ∃ t₂, t₂ = entPre (f.or c.gflags) c.st c.ctxs.len (.str (s :: ss).flatten) ++
      ((s :: ss).flatMap fun s => entBody (f.or c.gflags) (.str s)) ++
      entPost (f.or c.gflags) c.st (.str []) := ⟨_, rfl⟩
  rw [← ht₁] at h₁
  rw [← ht₂] at h₂
  refine ⟨c.buf.length + t₁.length + t₂.length + 1, fun cap hcap => ⟨_, _,
    addRun_eq (c := { c with cap := cap }) hn h₁ (by simp only; omega),
    addRun_eq (c := { c with cap := cap }) hn h₂ (by simp only; omega), ?_⟩⟩
  rw [← pieceGlue_eq_nil (f.or c.gflags) c.st c.ctxs.len, ← hglue]
  have hpre : entPre (f.or c.gflags) c.st c.ctxs.len (.str (s :: ss).flatten) =
      entPre (f.or c.gflags) c.st c.ctxs.len (.str s) := rfl
  constructor
  · intro h
    have hbuf := congrArg (fun c => c.buf.length) h
    simp only [ht₁, ht₂, length_append, length_pieces, hpre, flatMap_cons] at hbuf
    have hzero : ss.length * glue.length = 0 := by omega
    rcases Nat.mul_eq_zero.mp hzero with h0 | h0
    · exact .inl (by rw [length_cons, h0])
    · exact .inr (eq_nil_of_length_eq_zero h0)
  intro h
  have heq : t₁ = t₂ := by
    rw [ht₁, ht₂, hpre]
    rcases h with h | h
    · obtain rfl : ss = [] := by simpa using h
      simp
    · rw [h]
      simp
  rw [heq]

/-- An element behind another one, in two pieces. -/
theorem ffjson_pieces_iff_example :
    ∃ cap₀, ∀ cap, cap₀ ≤ cap → ∃ c₁ c₂,
      addRun (fun _ => true) { inArray with cap := cap } (pieceCalls JsonF.zero [[0x61], [0x62]]) =
        some c₁ ∧
      addRun (fun _ => true) { inArray with cap := cap } [(JsonF.zero, .str [0x61, 0x62])] =
        some c₂ ∧
      (c₁ = c₂ ↔ [[(0x61 : UInt8)], [0x62]].length = 1 ∨
        (inArray.st.comma = false ∧
          ((JsonF.zero.or inArray.gflags).prettymask = false ∨ inArray.st.val = true))) :=
  ffjson_pieces_iff rfl rfl (by decide)

/-- **A comma goes into the string** that is added in two pieces behind another element. -/
theorem ffjson_pieces_comma :
    (addRun (fun _ => true) { inArray with cap := 32 }
      (pieceCalls JsonF.zero [[0x61], [0x62]])).map FfjsonCook.buf =
        some [0x5b, 0x31, 0x2c, 0x22, 0x61, 0x2c, 0x62, 0x22] ∧
    (addRun (fun _ => true) { inArray with cap := 32 }
      [(JsonF.zero, .str [0x61, 0x62])]).map FfjsonCook.buf =
        some [0x5b, 0x31, 0x2c, 0x22, 0x61, 0x62, 0x22] := by
  decide

end FF
