import FF.Json.Escapes

/-!
# Numbers and strings in a JSON text

What the parser reports where a text goes on with a number or a string.
-/

namespace FF

open List Option

section Literals

variable {δ : Type} {floatVal : List UInt8 → δ} {a a' : Ffjson (List UInt8) δ}

/-! ### The second surrogate -/

/-- A second surrogate is waited for inside of a string only. -/
def EscInv (a : Ffjson (List UInt8) δ) : Prop :=
  a.escUtf16 = true → a.state = .quot ∨ a.state = .quotEsc

/-- Behind whitespace the parser expects what `n` stands for. -/
def Awaits (b : Ffjson (List UInt8) δ) (n : JsonIdx) : Prop :=
  (b.state = .iwspace ∨ b.state = .newCtx) ∧ b.nextst = n

theorem Awaits.enter {b : Ffjson (List UInt8) δ} {n : JsonIdx} (h : Awaits b n)
    (hn : n = .val ∨ n = .valFirst ∨ n = .key ∨ n = .keyFirst)
    (hinv : JsonInv b ∧ RestInv b ∧ EscInv b) :
    ∃ b' stack, At b' n stack ∧ JsonInv b' ∧ ∀ {c cs es er a'},
      Reach floatVal b' (c :: cs) es er a' → Reach floatVal b (c :: cs) es er a' := by
  obtain ⟨hst, rfl⟩ := h
  have hesc : b.escUtf16 = false := by
    by_contra hflag
    rcases hinv.2.2 (by simpa using hflag) with h | h
    · rcases hst with hst | hst <;> rw [hst] at h <;> cases h
    · rcases hst with hst | hst <;> rw [hst] at h <;> cases h
  have hbuf : b.buf = [] := by
    refine hinv.2.1.empty ?_
    rcases hst with hst | hst
    · rw [hst]
      rcases hn with hn | hn | hn | hn <;> rw [hn] <;> rfl
    · rw [hst]
      rfl
  rcases hst with hst | hst
  · exact ⟨b, b.ctxs, ⟨hst, rfl, rfl, hesc, fun _ => hbuf⟩, hinv.1, fun h => h⟩
  obtain ⟨cap, hcap⟩ : ∃ cap, cap =
      if b.ctxsCap < b.ctxs.length + 1 then b.ctxs.length + 1 else b.ctxsCap := ⟨_, rfl⟩
  refine ⟨{ b with ctxs := b.type :: b.ctxs, ctxsCap := cap, state := .iwspace }, _,
    ⟨rfl, rfl, rfl, hesc, fun _ => hbuf⟩, ?_, fun hr => .again ?_ hr⟩
  · have hfirst := hinv.1
    simp only [JsonInv, hst] at hfirst
    rcases hfirst with hfirst | hfirst <;> simp [JsonInv, ResumeOk, hfirst]
  · simp only [jsonSwitch, hst, caseNewCtx]
    rw [if_neg (by simp), hcap]

theorem reach_opening {b : Ffjson (List UInt8) δ} {n : JsonIdx} {stack : List FfjsonT}
    (h : At b n stack) (hn : n = .val ∨ n = .valFirst ∨ n = .key ∨ n = .keyFirst) :
    ∃ a nextst, InStr a nextst stack [] ∧ ∀ {t es er a'}, Reach floatVal a t es er a' →
      ∃ b', Reach floatVal b (0x22 :: t) es er b' := by
  have hbuf := h.buf_nil hn
  have hfirst : ∀ {nextst} {t es er a'}, Reach floatVal
      { b with state := .quot, nextst := nextst } t es er a' → ∃ b', Reach floatVal
      { b with state := .quotFirst, nextst := nextst } t es er b' := by
    intro nextst t es er a' hr
    cases t with
    | nil =>
      obtain ⟨k, l, p, hrun⟩ := hr
      have hnil : jsonRun floatVal 0 { b with state := .quot, nextst := nextst } .more [] =
          some ({ b with state := .quot, nextst := nextst }, [], .more) := rfl
      obtain ⟨-, hes, her⟩ := (Prod.mk.injEq ..).mp (jsonRun_unique hrun hnil) |>.imp_right
        (Prod.mk.injEq ..).mp
      rw [hes, her]
      exact ⟨_, .nil _⟩
    | cons c cs =>
      have hsw : jsonSwitch listOps (fun _ => true) floatVal
          { b with state := .quotFirst, nextst := nextst } c [c] =
            some (plain (hdlQuote listOps { b with state := .quot, nextst := nextst } c [c])) :=
        rfl
      exact ⟨_, @Reach.congr _ floatVal _ { b with state := .quot, nextst := nextst } _ _ _ _ _ _
        hsw rfl rfl rfl hr⟩
  by_cases hval : n = .val ∨ n = .valFirst
  · refine ⟨{ b with state := .quot, nextst := .val }, .val, ⟨rfl, rfl, h.ctxs, hbuf, h.esc⟩,
      fun hr => ?_⟩
    obtain ⟨b', hr'⟩ := hfirst hr
    exact ⟨b', h.enterVal hval rfl (by decide) (by decide) (.cons rfl hr')⟩
  · refine ⟨{ b with state := .quot, nextst := .key }, .key, ⟨rfl, rfl, h.ctxs, hbuf, h.esc⟩,
      fun hr => ?_⟩
    obtain ⟨b', hr'⟩ := hfirst hr
    exact ⟨b', h.enterKey (by tauto) (.cons rfl hr')⟩

/-! ### Numbers -/

/-- The integers of the parser: 64 bits with a sign. -/
def jsonInt : IntFlags := ⟨8, true, false, false⟩

/-- **A literal with neither a fraction nor an exponent**: a sign, or none, and digits. -/
def IsIntLiteral (v : List UInt8) : Prop :=
  intDigits v jsonInt ≠ [] ∧ intSign v jsonInt + (intDigits v jsonInt).length = v.length

theorem intTaken_jsonInt (v : List UInt8) : intTaken v jsonInt = intDigits v jsonInt := by
  have hdigit : jsonInt.digit = digitOf 10 := funext ffcharTodec_eq
  rw [intTaken, hdigit]
  rfl

/-- What `ffs_toint` reads to the end is such a literal. -/
theorem isIntLiteral_of_toint {v : List UInt8} {i : ℕ}
    (h : ffsToint v jsonInt = some (v.length, i)) : IsIntLiteral v := by
  rw [ffsToint_eq v (.inr (.inr (.inr rfl))), intTaken_jsonInt] at h
  split at h
  · cases h
  · next hok =>
      exact ⟨fun hnil => hok (.inl hnil), (Prod.mk.inj (some.inj h)).1⟩

theorem wordVal_jsonInt {i : ℕ} : jsonInt.wordVal i = int64 i := by
  have hbits : jsonInt.bits = 63 := rfl
  have hsize : jsonInt.size * 8 = 64 := rfl
  have hsign : jsonInt.sign = true := rfl
  rw [IntFlags.wordVal, hbits, hsize, int64]
  by_cases h : i < 2 ^ 63
  · rw [if_neg (fun hge => absurd h (Nat.not_lt.mpr hge.2)), if_pos h]
  · rw [if_pos ⟨hsign, Nat.not_lt.mp h⟩, if_neg h]

/-- **An integer is read exactly where there is one that fits.** -/
theorem toint_literal {v : List UInt8} (hv : v ≠ [])
    (hok : IsIntLiteral v → TointOk v jsonInt) (x : ℤ) :
    (∃ i, (ffsToint v jsonInt).filter (fun r => v.length = r.1) = some (v.length, i) ∧
      int64 i = x) ↔
      IsIntLiteral v ∧ jsonInt.Fits (intVal v jsonInt) ∧ intVal v jsonInt = x := by
  have hlen := length_pos_iff.mpr hv
  have hvalid : jsonInt.Valid := .inr (.inr (.inr rfl))
  constructor
  · rintro ⟨i, h, rfl⟩
    have hread := (filter_eq_some_iff.mp h).1
    have hlit := isIntLiteral_of_toint hread
    obtain ⟨hiff, hval, -⟩ := (ffsToint_iff v jsonInt hvalid).mpr (hok hlit) 0 _ hlen
    have hinto : ffsTointInto v jsonInt 0 = (v.length, i) := by rw [ffsTointInto, hread]; rfl
    rw [hinto] at hiff hval
    exact ⟨hlit, (hiff.mp rfl).2.2, by rw [← hval rfl, wordVal_jsonInt]⟩
  rintro ⟨hlit, hfits, rfl⟩
  obtain ⟨hiff, hval, -⟩ := (ffsToint_iff v jsonInt hvalid).mpr (hok hlit) 0 _ hlen
  have hone := hiff.mpr ⟨hlit.1, hlit.2, hfits⟩
  cases hread : ffsToint v jsonInt with
  | none =>
    rw [ffsTointInto, hread] at hone
    change 0 = v.length at hone
    omega
  | some r =>
    have hinto : ffsTointInto v jsonInt 0 = r := by rw [ffsTointInto, hread]; rfl
    rw [hinto] at hone hval
    refine ⟨r.2, ?_, by rw [← wordVal_jsonInt]; exact hval hone⟩
    rw [filter_some, if_pos (by simpa using hone.symm), ← hone]

theorem reach_numChars {b : Ffjson (List UInt8) δ} {n : JsonIdx} {stack : List FfjsonT}
    (h : At b n stack) (hn : n = .val ∨ n = .valFirst) {v : List UInt8} (hv : v ≠ [])
    (hnum : ∀ c ∈ v, isNumChar c = true) :
    ∃ a, a.state = .valBareNum ∧ a.buf = v ∧ Reach floatVal b v [] .more a := by
  obtain ⟨c, cs, rfl⟩ := exists_cons_of_ne_nil hv
  obtain ⟨hws, hslash, hclose, hquote, hopen, hbare⟩ := isNumChar_first (hnum c mem_cons_self)
  have hbuf := h.buf_nil (by tauto)
  obtain ⟨a, ha⟩ : ∃ a : Ffjson (List UInt8) δ,
    a = { b with state := .valBareNum, nextst := .none, barevalIdx := 0 - 1 } := ⟨_, rfl⟩
  have hst : a.state = .valBareNum := by rw [ha]
  have hnil : a.buf = [] := by
    rw [ha]
    exact hbuf
  have hstart : jsonSwitch listOps (fun _ => true) floatVal
      { b with state := .val, nextst := .none } c [c] = some (a, .more, true) := by
    simp only [jsonSwitch, caseVal]
    rw [if_neg hquote, if_neg hopen, hbare, if_neg (by simp), ha]
  have hrun := @reach_number _ floatVal a hst _ hnum
  rw [hnil, nil_append] at hrun
  exact ⟨{ a with buf := c :: cs }, hst, rfl,
    h.enterVal hn hws hslash hclose (.again hstart hrun)⟩

/-- **Where a number is read**, an integer is reported exactly if it is one that fits. -/
theorem reach_int {b : Ffjson (List UInt8) δ} {n : JsonIdx} {stack : List FfjsonT}
    (h : At b n stack) (hn : n = .val ∨ n = .valFirst) {v : List UInt8} (hv : v ≠ [])
    (hnum : ∀ c ∈ v, isNumChar c = true) {c : UInt8} (hc : isNumChar c = false)
    (hok : IsIntLiteral v → TointOk v jsonInt) {r : List UInt8} {es : List (JsonEvent δ)}
    {er : FfparsE} (hr : Reach floatVal b (v ++ c :: r) es er a') (x : ℤ) :
    (∃ e, es.head? = some e ∧ e.code = .val ∧ e.type = .int ∧ e.num = .int x) ↔
      IsIntLiteral v ∧ jsonInt.Fits (intVal v jsonInt) ∧ intVal v jsonInt = x := by
  rw [← toint_literal hv hok x]
  obtain ⟨a, hst, rfl, hreach⟩ := @reach_numChars _ floatVal _ _ _ h hn _ hv hnum
  have hgo := fun {es er b'} (hr' : Reach floatVal a (c :: r) es er b') =>
    (hreach.append (by simp [FfparsE.verdict]) (.inr rfl) hr').unique hr
  have hsw : jsonSwitch listOps (fun _ => true) floatVal a c [c] =
      some (afterBare (hdlValBareNum listOps floatVal a c [c]) true) := by
    simp only [jsonSwitch, hst]
  have hlen : ¬a.buf.length = 0 := fun h => hv (length_eq_zero_iff.mp h)
  have hint : ∀ m i, (ffsToint a.buf jsonInt).filter (fun r => a.buf.length = r.1) = some (m, i) →
      hdlValBareNum listOps floatVal a c [c] =
        ({ a with type := .int, intval := int64 i }, .val) := by
    intro m i hmi
    rw [hdlValBareNum, hc]
    refine (if_pos rfl).trans ((if_neg hlen).trans ?_)
    split
    · next m' i' hmi' =>
        obtain ⟨-, rfl⟩ := Prod.mk.inj (some.inj (hmi'.symm.trans hmi))
        rfl
    · next hno => exact absurd (hno.symm.trans hmi) (some_ne_none _).symm
  have hflt : (ffsToint a.buf jsonInt).filter (fun r => a.buf.length = r.1) = none →
      hdlValBareNum listOps floatVal a c [c] =
        if ffsTofloat a.buf = some a.buf.length then
          ({ a with type := .num, fltval := some (floatVal a.buf) }, .val)
        else (a, .ebadval) := by
    intro hno
    rw [hdlValBareNum, hc]
    refine (if_pos rfl).trans ((if_neg hlen).trans ?_)
    split
    · next m i hmi => exact absurd (hmi.symm.trans hno) (some_ne_none _)
    · rfl
  -- the event of a value, and what follows it
  have hevent : ∀ p : Ffjson (List UInt8) δ, jsonSwitch listOps (fun _ => true) floatVal a c [c] =
      some ({ p with state := .iwspace, nextst := .afterVal }, .val, true) →
      ∃ es', es = jsonEvent p p.buf .val :: es' := by
    intro p hp
    obtain ⟨es', er', b', hr'⟩ := @reach_total _ floatVal
      { p with state := .iwspace, nextst := .afterVal } trivial (c :: r)
    exact ⟨es', (hgo (.eventAgain hp rfl hr')).symm⟩
  cases hread : (ffsToint a.buf jsonInt).filter (fun r => a.buf.length = r.1) with
  | some mi =>
    obtain ⟨m, i⟩ := mi
    obtain rfl : a.buf.length = m := of_decide_eq_true (filter_eq_some_iff.mp hread).2
    rw [hint _ _ hread] at hsw
    obtain ⟨es', rfl⟩ := hevent { a with type := .int, intval := int64 i } hsw
    constructor
    · rintro ⟨e, he, -, -, hx⟩
      obtain rfl := some.inj he
      exact ⟨i, rfl, JsonNum.int.inj hx⟩
    · rintro ⟨i', hi, rfl⟩
      obtain ⟨-, rfl⟩ := Prod.mk.inj (some.inj hi)
      exact ⟨_, rfl, rfl, rfl, rfl⟩
  | none =>
    rw [hflt hread] at hsw
    have hno : ¬∃ i, none = some (a.buf.length, i) ∧ int64 i = x := by
      rintro ⟨i, hi, -⟩
      cases hi
    refine iff_of_false ?_ hno
    rintro ⟨e, he, -, htype, -⟩
    by_cases hflt : ffsTofloat a.buf = some a.buf.length
    · simp only [if_pos hflt] at hsw
      obtain ⟨es', rfl⟩ := hevent { a with type := .num, fltval := some (floatVal a.buf) } hsw
      obtain rfl := some.inj he
      cases htype
    · simp only [if_neg hflt] at hsw
      obtain rfl := hgo (.stop hsw rfl)
      cases he

/-! ### Texts -/

/-- The first event is an integer. -/
def ReportsInt (es : List (JsonEvent δ)) (x : ℤ) : Prop :=
  ∃ e, es.head? = some e ∧ e.code = .val ∧ e.type = .int ∧ e.num = .int x

/-- The first event is a string: a value or a key. -/
def ReportsStr (es : List (JsonEvent δ)) (s : List UInt8) : Prop :=
  ∃ e, es.head? = some e ∧ e.type = .str ∧ e.val = s

theorem Awaits.int {b : Ffjson (List UInt8) δ} {n : JsonIdx} (h : Awaits b n)
    (hn : n = .val ∨ n = .valFirst) (hinv : JsonInv b ∧ RestInv b ∧ EscInv b) {v : List UInt8}
    (hv : v ≠ []) (hnum : ∀ c ∈ v, isNumChar c = true) {c : UInt8} (hc : isNumChar c = false)
    (hok : IsIntLiteral v → TointOk v jsonInt) {r : List UInt8} {es : List (JsonEvent δ)}
    {er : FfparsE} (hr : Reach floatVal b (v ++ c :: r) es er a') (x : ℤ) :
    ReportsInt es x ↔
      IsIntLiteral v ∧ jsonInt.Fits (intVal v jsonInt) ∧ intVal v jsonInt = x := by
  obtain ⟨b', stack, hat, hb', henter⟩ := @Awaits.enter _ floatVal _ _ h (by tauto) hinv
  obtain ⟨es', er', a₁, hr'⟩ := @reach_total _ floatVal _ hb' (v ++ c :: r)
  obtain ⟨c₀, v', rfl⟩ := exists_cons_of_ne_nil hv
  obtain rfl := (henter hr').unique hr
  exact reach_int hat hn hv hnum hc hok hr' x

theorem Awaits.str {b : Ffjson (List UInt8) δ} {n : JsonIdx} (h : Awaits b n)
    (hn : n = .val ∨ n = .valFirst ∨ n = .key ∨ n = .keyFirst)
    (hinv : JsonInv b ∧ RestInv b ∧ EscInv b) {t : List UInt8} (hslip : NoSlip t)
    {es : List (JsonEvent δ)} {er : FfparsE} (hr : Reach floatVal b (0x22 :: t) es er a')
    (w : List UInt8) : ReportsStr es w ↔ ∃ r, StrReads t w (0x22 :: r) := by
  obtain ⟨b', stack, hat, -, henter⟩ := @Awaits.enter _ floatVal _ _ h hn hinv
  obtain ⟨a, nextst, ha, hopen⟩ := @reach_opening _ floatVal _ _ _ hat hn
  obtain ⟨es', er', a₁, hr'⟩ := @reach_total _ floatVal _ ha.inv t
  obtain ⟨b₁, hopened⟩ := hopen hr'
  obtain rfl := (henter hopened).unique hr
  refine (reach_string ha hslip hr' w).trans ⟨?_, ?_⟩
  · rintro ⟨w', r, hw, rfl⟩
    exact ⟨r, hw⟩
  · rintro ⟨r, hw⟩
    exact ⟨w, r, hw, rfl⟩

end Literals

end FF
