import FF.Json.Reach

/-!
# Validating a JSON text

`ffjson_validate` calls the parser until the data is used up or an error is reported. Where the
last call asks for more it passes a NUL byte, which is no whitespace and no end of anything but a
number.
-/

namespace FF

open List Option

section Validate

variable {δ : Type} {alloc : ℕ → Bool} {floatVal : List UInt8 → δ}

/-- The text of a number. -/
def NumOk (v : List UInt8) : Prop :=
  v ≠ [] ∧ ((ffsToint v ⟨8, true, false, false⟩).filter (fun r => v.length = r.1) ≠ none ∨
    ffsTofloat v = some v.length)

theorem Ffjson.stale_id (p : Ffjson Ffarr δ) : p.stale id = p := by
  obtain ⟨_, _, _, _, _, _, _, _, _, _, _, _, _, buf, _, _⟩ := p
  cases buf <;> rfl

/-- The states in which the parser may ask for more. -/
@[grind =] def Waits : JsonIdx → Prop
  | .iwspace | .icmtBegin | .icmtLine | .icmtMline | .icmtMlineslash | .valBare | .valBareNum
  | .quotFirst | .quot | .quotEsc => True
  | _ => False

/-- What is known of a value that is being read: none has been begun, a word is not complete, an
escape sequence is empty or begins with `u`. -/
structure RestInv (a : Ffjson (List UInt8) δ) : Prop where
  empty : bufUse a.state a.nextst = .empty → a.buf = []
  word : a.state = .valBare →
    a.buf.length < (ffjsonWords.getD a.barevalIdx.toNat []).length
  esc : a.state = .quotEsc →
    a.esc.length = 0 ∨ (a.esc.head? = some 0x75 ∧ a.esc.length < 5)

/-- What a pass that does not stop leaves behind. -/
structure RestOk (r : PassRes (List UInt8) δ) : Prop where
  inv : RestInv r.1
  waits : r.2.2 = false → r.2.1 = .more → Waits r.1.state

variable {a : Ffjson (List UInt8) δ}

theorem RestInv.of_state (h₁ : a.state ≠ .valBare) (h₂ : a.state ≠ .quotEsc)
    (h : bufUse a.state a.nextst = .empty → a.buf = []) : RestInv a :=
  ⟨h, fun h => absurd h h₁, fun h => absurd h h₂⟩

theorem RestInv.of_nil (h₁ : a.state ≠ .valBare) (h₂ : a.state ≠ .quotEsc) (h : a.buf = []) :
    RestInv a :=
  .of_state h₁ h₂ fun _ => h

theorem hdlValBare_rest (hst : a.state = .valBare) (ch : UInt8)
    (hns : (afterBare (hdlValBare listOps a ch [ch]) false).2.1.verdict ≠ .stop) :
    RestOk (afterBare (hdlValBare listOps a ch [ch]) false) := by
  simp only [hdlValBare, addByte_listOps, len_listOps] at hns ⊢
  obtain ⟨word, hword⟩ : ∃ word, word = ffjsonWords.getD a.barevalIdx.toNat [] := ⟨_, rfl⟩
  simp only [← hword] at hns ⊢
  by_cases h1 : ch = word.getD ((a.buf ++ [ch].take 1).length - 1) 0
  · rw [if_neg (not_not.mpr h1)] at hns ⊢
    by_cases h2 : word.getD ((a.buf ++ [ch].take 1).length - 1 + 1) 0 = 0
    · rw [if_pos h2]
      exact ⟨.of_state (by simp [afterBare]) (by simp [afterBare]) (by simp [afterBare, bufUse]),
        by simp [afterBare]⟩
    rw [if_neg h2]
    refine ⟨⟨?_, fun _ => ?_, ?_⟩, fun _ _ => ?_⟩
    · simp [afterBare, hst, bufUse]
    · have hlt : (a.buf ++ [ch].take 1).length - 1 + 1 < word.length := by
        by_contra hge
        exact h2 (by rw [getD_eq_getElem?_getD, getElem?_eq_none (by omega)]; rfl)
      simp only [afterBare]
      rw [if_neg (by simp)]
      simp only [← hword]
      simpa using hlt
    · simp [afterBare, hst]
    · simp [afterBare, hst, Waits]
  · rw [if_pos h1] at hns
    exact absurd rfl hns

theorem hdlValBareNum_rest (floatVal : List UInt8 → δ) (hst : a.state = .valBareNum) (ch : UInt8)
    (hns : (afterBare (hdlValBareNum listOps floatVal a ch [ch]) true).2.1.verdict ≠ .stop) :
    RestOk (afterBare (hdlValBareNum listOps floatVal a ch [ch]) true) := by
  have hval : ∀ p : Ffjson (List UInt8) δ, RestOk (afterBare (p, .val) true) := fun p =>
    ⟨.of_state (by simp [afterBare]) (by simp [afterBare]) (by simp [afterBare, bufUse]),
      by simp [afterBare]⟩
  simp only [hdlValBareNum, addByte_listOps] at hns ⊢
  rw [bytes_listOps] at hns ⊢
  cases hnum : isNumChar ch with
  | true =>
    exact ⟨⟨by simp [afterBare, hst, bufUse], by simp [afterBare, hst], by simp [afterBare, hst]⟩,
      by simp [afterBare, hst, Waits]⟩
  | false =>
    simp only [hnum, Bool.not_false, if_true] at hns ⊢
    by_cases h0 : a.buf.length = 0
    · rw [if_pos h0] at hns
      exact absurd rfl hns
    rw [if_neg h0] at hns ⊢
    cases hint : (ffsToint a.buf ⟨8, true, false, false⟩).filter
        fun r => a.buf.length = r.1 with
    | some r => exact hval _
    | none =>
      rw [hint] at hns
      by_cases hflt : ffsTofloat a.buf = some a.buf.length
      · simp only [if_pos hflt]
        exact hval _
      · simp only [if_neg hflt] at hns
        exact absurd rfl hns

theorem hdlQuote_rest (hst : a.state = .quot) (ch : UInt8)
    (hns : (hdlQuote listOps a ch [ch]).2.verdict ≠ .stop) :
    RestOk (plain (hdlQuote listOps a ch [ch])) := by
  simp only [hdlQuote, quoteChar, addByte_listOps, plain] at hns ⊢
  by_cases h1 : ch = 0x22
  · simp only [if_pos h1] at hns ⊢
    by_cases hk : a.nextst = .key
    · simp only [if_pos hk] at hns ⊢
      refine ⟨.of_state (by simp) (by simp) (by simp [bufUse]), fun _ => ?_⟩
      split <;> simp
    · simp only [if_neg hk] at hns ⊢
      refine ⟨.of_state (by simp) (by simp) (by simp [bufUse]), fun _ => ?_⟩
      split <;> simp
  simp only [if_neg h1] at hns ⊢
  by_cases h2 : ch = 0x5c
  · simp only [if_pos h2] at hns ⊢
    exact ⟨⟨by simp [bufUse], by simp, by simp⟩, fun _ _ => trivial⟩
  simp only [if_neg h2] at hns ⊢
  by_cases h3 : ch = 0x0a
  · simp only [if_pos h3] at hns
    exact absurd (by split <;> rfl) hns
  · simp only [if_neg h3] at hns ⊢
    exact ⟨⟨by simp [hst, bufUse], by simp [hst], by simp [hst]⟩, by simp [hst, Waits]⟩

/-- An escape sequence that is not complete begins with `u`. -/
theorem ffjsonUnescapechar_incomplete {text : List UInt8}
    (h : ffjsonUnescapechar text = .incomplete) :
    text.length = 0 ∨ (text.head? = some 0x75 ∧ text.length < 5) := by
  cases text with
  | nil => exact .inl rfl
  | cons c digits =>
    simp only [ffjsonUnescapechar] at h
    by_cases h1 : c ∈ escchar
    · rw [if_pos h1] at h
      cases h
    rw [if_neg h1] at h
    by_cases h2 : c = 0x75
    · rw [if_pos h2] at h
      by_cases h3 : (c :: digits).length < 5
      · exact .inr ⟨by rw [h2]; rfl, h3⟩
      · rw [if_neg h3] at h
        split at h <;> cases h
    · rw [if_neg h2] at h
      cases h

theorem hdlEsc_rest (hst : a.state = .quotEsc) (ch : UInt8)
    (hns : (hdlEsc listOps a ch).2.verdict ≠ .stop) : RestOk (plain (hdlEsc listOps a ch)) := by
  have hquot : ∀ p : Ffjson (List UInt8) δ, p.state = .quot → RestOk (plain (p, .more)) :=
    fun p hp => ⟨⟨by simp [hp, bufUse], by simp [hp], by simp [hp]⟩, by simp [hp, Waits]⟩
  simp only [hdlEsc, escPut, store_listOps, plain] at hns ⊢
  by_cases h5 : a.esc.length ≥ 5
  · rw [if_pos h5] at hns
    exact absurd rfl hns
  rw [if_neg h5] at hns ⊢
  cases hun : ffjsonUnescapechar (a.esc ++ [ch]) with
  | error =>
    simp only [hun] at hns
    exact absurd rfl hns
  | incomplete =>
    have := ffjsonUnescapechar_incomplete hun
    exact ⟨⟨by simp [hst, bufUse], by simp [hst], fun _ => this⟩, by simp [hst, Waits]⟩
  | char uch =>
    simp only [hun] at hns ⊢
    by_cases hb : ffutf16Basic uch = true
    · simp only [if_pos hb]
      exact hquot _ rfl
    simp only [if_neg hb] at hns ⊢
    by_cases hh : ffutf16Highsurr uch = true
    · simp only [if_pos hh] at hns ⊢
      by_cases hf : a.escUtf16 = true
      · simp only [if_pos hf] at hns
        exact absurd rfl hns
      · simp only [if_neg hf]
        exact hquot _ rfl
    simp only [if_neg hh] at hns ⊢
    by_cases hf : (!a.escUtf16) = true
    · simp only [if_pos hf] at hns
      exact absurd rfl hns
    · simp only [if_neg hf]
      exact hquot _ rfl

theorem caseVal_rest (hbuf : a.buf = []) (ch : UInt8) : RestOk (caseVal a ch) := by
  simp only [caseVal]
  by_cases h1 : ch = 0x22
  · rw [if_pos h1]
    exact ⟨.of_nil (by simp) (by simp) hbuf, fun _ _ => trivial⟩
  rw [if_neg h1]
  by_cases h2 : ch = 0x5b ∨ ch = 0x7b
  · rw [if_pos h2]
    exact ⟨.of_nil (by simp) (by simp) hbuf, fun _ h => by cases h⟩
  rw [if_neg h2]
  have hword : valBareType ch ≠ 0 →
      0 < (ffjsonWords.getD (valBareType ch - 1).toNat []).length := by
    simp only [valBareType]
    by_cases ht : ch = 0x74
    · rw [if_pos ht]
      decide
    rw [if_neg ht]
    by_cases hf : ch = 0x66
    · rw [if_pos hf]
      decide
    rw [if_neg hf]
    by_cases hn : ch = 0x6e
    · rw [if_pos hn]
      decide
    · rw [if_neg hn]
      exact fun h => absurd rfl h
  by_cases ht : valBareType ch ≠ 0
  · simp only [if_pos ht]
    refine ⟨⟨fun _ => hbuf, fun _ => ?_, by simp⟩, fun h => by cases h⟩
    simp only [hbuf]
    exact hword ht
  · simp only [if_neg ht]
    exact ⟨.of_nil (by simp) (by simp) hbuf, fun h => by cases h⟩

theorem caseKey_rest (hbuf : a.buf = []) (ch : UInt8)
    (hns : (caseKey a ch).2.1.verdict ≠ .stop) : RestOk (caseKey a ch) := by
  simp only [caseKey] at hns ⊢
  by_cases h1 : ch = 0x22
  · rw [if_pos h1]
    exact ⟨.of_nil (by simp) (by simp) hbuf, fun _ _ => trivial⟩
  · rw [if_neg h1] at hns
    exact absurd rfl hns

theorem caseCloseBrace_rest (hbuf : a.buf = []) {ch : UInt8} {r : PassRes (List UInt8) δ}
    (h : caseCloseBrace a ch = some r) (hns : r.2.1.verdict ≠ .stop) : RestOk r := by
  simp only [caseCloseBrace] at h
  by_cases h0 : a.ctxs.length = 0
  · rw [if_pos h0] at h
    cases h
  rw [if_neg h0] at h
  by_cases h1 : a.ctxs.head? ≠ some (if ch = 0x5d then FfjsonT.arr else .obj)
  · rw [if_pos h1] at h
    obtain rfl := some.inj h
    exact absurd rfl hns
  · rw [if_neg h1] at h
    obtain rfl := some.inj h
    exact ⟨.of_nil (by simp) (by simp) hbuf, fun _ h => by cases h⟩

/-- **What is known of a value** is kept by a pass. -/
theorem jsonSwitch_rest (floatVal : List UInt8 → δ) (hinv : JsonInv a) (h : RestInv a) (ch : UInt8)
    {r : PassRes (List UInt8) δ}
    (hsw : jsonSwitch listOps (fun _ => true) floatVal a ch [ch] = some r)
    (hns : r.2.1.verdict ≠ .stop) : RestOk r := by
  have hempty := h.empty
  unfold jsonSwitch at hsw
  cases hst : a.state with
  | none => simp [JsonInv, hst] at hinv
  | iwspace =>
    simp only [hst] at hsw hempty
    by_cases h1 : ffcharIswhitespace ch = true
    · rw [if_pos h1] at hsw
      obtain rfl := some.inj hsw
      exact ⟨h, fun _ _ => by simp only [hst, Waits]⟩
    rw [if_neg h1] at hsw
    by_cases h2 : ch = 0x2f
    · rw [if_pos h2] at hsw
      obtain rfl := some.inj hsw
      refine ⟨.of_state (by simp) (by simp) ?_, fun _ _ => trivial⟩
      cases hn : a.nextst <;> simp only [hn, bufUse] at hempty ⊢ <;> simpa using hempty
    rw [if_neg h2] at hsw
    obtain rfl := some.inj hsw
    simp only [JsonInv, hst] at hinv
    refine ⟨?_, fun hag => by cases hag⟩
    cases hn : a.nextst <;> simp only [hn, ResumeOk] at hinv <;>
      simp only [hn, bufUse] at hempty <;>
      exact .of_state (by simp) (by simp) (by simpa [bufUse] using hempty)
  | icmtBegin | icmtLine | icmtMline | icmtMlineslash =>
    simp only [hst] at hsw hempty
    obtain rfl := some.inj hsw
    simp only [jsonCmt, hst] at hns ⊢
    repeat' split
    all_goals first
      | exact absurd rfl hns
      | (refine ⟨.of_state (by simp [hst]) (by simp [hst]) ?_, fun _ _ => by simp [hst, Waits]⟩
         cases hn : a.nextst <;> simp only [hn, hst, bufUse] at hempty ⊢ <;> simpa using hempty)
  | valFirst =>
    simp only [hst, bufUse] at hsw hempty
    by_cases h1 : ch = 0x5d
    · rw [if_pos h1] at hsw
      obtain rfl := some.inj hsw
      exact ⟨.of_nil (by simp) (by simp) (hempty trivial), fun hag => by cases hag⟩
    · rw [if_neg h1] at hsw
      obtain rfl := some.inj hsw
      exact caseVal_rest (a := { a with state := .val }) (hempty trivial) ch
  | val =>
    simp only [hst, bufUse] at hsw hempty
    obtain rfl := some.inj hsw
    exact caseVal_rest (hempty trivial) ch
  | valBare =>
    simp only [hst] at hsw
    obtain rfl := some.inj hsw
    exact hdlValBare_rest hst ch hns
  | valBareNum =>
    simp only [hst] at hsw
    obtain rfl := some.inj hsw
    exact hdlValBareNum_rest floatVal hst ch hns
  | quotFirst =>
    simp only [hst] at hsw
    obtain rfl := some.inj hsw
    exact hdlQuote_rest (a := { a with state := .quot }) rfl ch hns
  | quot =>
    simp only [hst] at hsw
    obtain rfl := some.inj hsw
    exact hdlQuote_rest hst ch hns
  | quotEsc =>
    simp only [hst] at hsw
    obtain rfl := some.inj hsw
    exact hdlEsc_rest hst ch hns
  | afterVal =>
    simp only [hst, caseAfterVal] at hsw
    generalize hp : jsonCleardata listOps a = p at hsw
    have hbuf : p.buf = [] := by
      rw [← hp]
      rfl
    by_cases h0 : p.ctxs.length = 0
    · rw [if_pos h0] at hsw
      obtain rfl := some.inj hsw
      exact absurd rfl hns
    rw [if_neg h0] at hsw
    by_cases h1 : ch = 0x2c
    · rw [if_pos h1] at hsw
      obtain rfl := some.inj hsw
      exact ⟨.of_nil (by simp) (by simp) hbuf, fun _ _ => trivial⟩
    rw [if_neg h1] at hsw
    by_cases h2 : ch ≠ 0x5d ∧ ch ≠ 0x7d
    · rw [if_pos h2] at hsw
      obtain rfl := some.inj hsw
      exact absurd rfl hns
    · rw [if_neg h2] at hsw
      exact caseCloseBrace_rest (a := { p with state := .closeBrace }) hbuf hsw hns
  | closeBrace =>
    simp only [hst, bufUse] at hsw hempty
    exact caseCloseBrace_rest (hempty trivial) hsw hns
  | newCtx =>
    simp only [hst, bufUse] at hsw hempty
    simp only [caseNewCtx, Bool.not_true, Bool.false_eq_true, and_false, if_false] at hsw
    obtain rfl := some.inj hsw
    exact ⟨.of_nil (by simp) (by simp) (hempty trivial), fun hag => by cases hag⟩
  | rmCtx =>
    simp only [hst, bufUse] at hsw hempty
    obtain rfl := some.inj hsw
    exact ⟨.of_nil (by simp) (by simp) (hempty trivial), fun hag => by cases hag⟩
  | keyFirst =>
    simp only [hst, bufUse] at hsw hempty
    by_cases h1 : ch = 0x7d
    · rw [if_pos h1] at hsw
      obtain rfl := some.inj hsw
      exact ⟨.of_nil (by simp) (by simp) (hempty trivial), fun hag => by cases hag⟩
    · rw [if_neg h1] at hsw
      obtain rfl := some.inj hsw
      exact caseKey_rest (a := { a with state := .key }) (hempty trivial) ch hns
  | key =>
    simp only [hst, bufUse] at hsw hempty
    obtain rfl := some.inj hsw
    exact caseKey_rest (hempty trivial) ch hns
  | afterKey =>
    simp only [hst, caseAfterKey] at hsw
    obtain rfl := some.inj hsw
    by_cases h1 : ch = 0x3a
    · simp only [if_pos h1]
      exact ⟨.of_nil (by simp) (by simp) rfl, fun _ _ => trivial⟩
    · simp only [if_neg h1] at hns
      exact absurd rfl hns

/-- Where a text may end. -/
structure AtEnd (a : Ffjson (List UInt8) δ) (er : FfparsE) : Prop where
  inv : JsonInv a
  rest : RestInv a
  waits : er = .more → Waits a.state

theorem RestInv.congr {a b : Ffjson (List UInt8) δ} (h : RestInv a) (h₁ : b.state = a.state)
    (h₂ : b.nextst = a.nextst) (h₃ : b.buf = a.buf) (h₄ : b.barevalIdx = a.barevalIdx)
    (h₅ : b.esc = a.esc) : RestInv b :=
  ⟨by rw [h₁, h₂, h₃]; exact h.empty, by rw [h₁, h₃, h₄]; exact h.word,
    by rw [h₁, h₅]; exact h.esc⟩

theorem jsonByte_rest (floatVal : List UInt8 → δ) {c : UInt8} {a' : Ffjson (List UInt8) δ}
    {er : FfparsE} {consumed : Bool} (h : JsonInv a ∧ RestInv a)
    (hp : jsonByte floatVal a c = some (a', er, consumed)) (hns : er.verdict ≠ .stop) :
    (JsonInv a' ∧ RestInv a') ∧ (consumed = true → er = .more → Waits a'.state) := by
  obtain ⟨b, er', consumed', hb, hok⟩ := jsonByte_total floatVal a c h.1
  obtain ⟨rfl, rfl, rfl⟩ : b = a' ∧ er' = er ∧ consumed' = consumed := by
    simpa using hb.symm.trans hp
  have hinv := (hok hns).1
  simp only [jsonByte, jsonPass, bind_eq_bind, bind_eq_some_iff] at hp
  obtain ⟨⟨a₁, er₁, again⟩, hsw, hp⟩ := hp
  have hrest : er₁.verdict ≠ .stop → RestOk (a₁, er₁, again) :=
    jsonSwitch_rest (a := { a with ch := a.ch + 1 }) floatVal h.1
      (h.2.congr rfl rfl rfl rfl rfl) c hsw
  simp only at hp
  cases hv : er₁.verdict with
  | more =>
    obtain ⟨hr, hw⟩ := hrest (by simp [hv])
    rw [hv] at hp
    cases again with
    | true =>
      obtain ⟨rfl, rfl, rfl⟩ := hp
      exact ⟨⟨hinv, hr.congr rfl rfl rfl rfl rfl⟩, fun hc => by cases hc⟩
    | false =>
      by_cases hnl : c = 0x0a
      · rw [if_pos hnl] at hp
        obtain ⟨rfl, rfl, -⟩ := hp
        exact ⟨⟨hinv, hr.congr rfl rfl rfl rfl rfl⟩, fun _ her => hw rfl her⟩
      · rw [if_neg hnl] at hp
        obtain ⟨rfl, rfl, -⟩ := hp
        exact ⟨⟨hinv, hr⟩, fun _ her => hw rfl her⟩
  | event =>
    obtain ⟨hr, -⟩ := hrest (by simp [hv])
    rw [hv] at hp
    obtain ⟨rfl, rfl, -⟩ := hp
    exact ⟨⟨hinv, hr⟩, fun _ her => by rw [her] at hv; cases hv⟩
  | stop =>
    rw [hv] at hp
    obtain ⟨-, rfl, -⟩ := hp
    exact absurd hv hns

/-- **Where a run ends**, a value that is being read is not complete. -/
theorem jsonRun_atEnd {n : ℕ} {d : List UInt8} {a' : Ffjson (List UInt8) δ}
    {es : List (JsonEvent δ)} {er : FfparsE}
    (h : jsonRun floatVal n (ffjsonParseinit []) .more d = some (a', es, er))
    (hns : er.verdict ≠ .stop) : AtEnd a' er := by
  have hinit : JsonInv (ffjsonParseinit [] : Ffjson (List UInt8) δ) ∧
      RestInv (ffjsonParseinit [] : Ffjson (List UInt8) δ) :=
    ⟨trivial, .of_nil (by simp [ffjsonParseinit]) (by simp [ffjsonParseinit]) rfl⟩
  obtain ⟨⟨hinv, hrest⟩, hwaits⟩ :=
    @byteRun_inv _ _ _ _ _ _ _ (fun a => JsonInv a ∧ RestInv a) (fun a er => er = .more → Waits a.state)
      (jsonByte_rest floatVal) _ _ _ _ _ _ _ hinit (fun _ _ => trivial) h hns
  exact ⟨hinv, hrest, hwaits⟩

/-! ### The NUL byte -/

/-- Whether the NUL byte is an error. -/
@[grind =] def NulErr (a : Ffjson (List UInt8) δ) : Prop :=
  match a.state with
  | .iwspace | .icmtBegin | .valBare => True
  | .valBareNum => ¬NumOk a.buf
  | .quotFirst | .quot => a.escUtf16 = true
  | .quotEsc => a.esc.length = 0 ∨ a.esc.length = 4
  | _ => False

/-- The NUL byte is an error. -/
def NulStops (floatVal : List UInt8 → δ) (n : ℕ) (a : Ffjson (List UInt8) δ) : Prop :=
  ∃ a' er, jsonRun floatVal n a .more [0] = some (a', [], er) ∧ er.verdict = .stop

/-- What a run on the NUL byte gives. -/
def NulOk (floatVal : List UInt8 → δ) (a : Ffjson (List UInt8) δ) : Prop :=
  ∃ a' es er, jsonRun floatVal 11 a .more [0] = some (a', es, er) ∧
    (es = [] ∧ er.verdict = .stop ↔ NulErr a)

theorem NulStops.stop {n : ℕ} {r : PassRes (List UInt8) δ}
    (hsw : jsonSwitch listOps (fun _ => true) floatVal { a with ch := a.ch + 1 } 0 [0] = some r)
    (her : r.2.1.verdict = .stop) : NulStops floatVal (n + 1) a := by
  obtain ⟨a', er, again⟩ := r
  have hv : er.verdict = .stop := her
  have hp : jsonByte floatVal a 0 = some (a', er, false) := by
    simp only [jsonByte, jsonPass, hsw, hv, bind_eq_bind, bind_some]
  exact ⟨a', er, jsonRun_stop hp her, her⟩

theorem NulStops.again {n : ℕ} {a' : Ffjson (List UInt8) δ}
    (hsw : jsonSwitch listOps (fun _ => true) floatVal { a with ch := a.ch + 1 } 0 [0] =
      some (a', .more, true)) (h : NulStops floatVal n { a' with ch := a'.ch - 1 }) :
    NulStops floatVal (n + 1) a := by
  obtain ⟨b, er, hrun, her⟩ := h
  have hp : jsonByte floatVal a 0 = some ({ a' with ch := a'.ch - 1 }, .more, false) := by
    simp only [jsonByte, jsonPass, hsw, bind_eq_bind, bind_some]
    rfl
  exact ⟨b, er, jsonRun_more hp rfl hrun, her⟩

theorem NulStops.ok (h : NulStops floatVal 11 a) (herr : NulErr a) : NulOk floatVal a := by
  obtain ⟨a', er, hrun, her⟩ := h
  exact ⟨a', [], er, hrun, iff_of_true ⟨rfl, her⟩ herr⟩

end Validate

end FF
