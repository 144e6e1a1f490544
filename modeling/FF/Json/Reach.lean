import FF.Json.Chunks

/-!
# Runs of the JSON machine

What a run gives does not depend on the position in the text (`jsonRun_atPos`), so that runs on the
pieces of a text can be put together: `Reach a d es er a'` says that the bytes `d` lead from the
state `a` to `a'`, with the events `es` and the last code `er`, whatever the position is.
-/

namespace FF

section Reach

variable {δ : Type} {floatVal : List UInt8 → δ}

/-! ### Positions -/

/-- Another position in the text. -/
abbrev Ffjson.atPos {B : Type} (a : Ffjson B δ) (line ch : UInt32) : Ffjson B δ :=
  { a with line := line, ch := ch }

section AtPos

variable (a : Ffjson (List UInt8) δ) (line pos : UInt32) (ch : UInt8) (data : List UInt8)

theorem jsonCmt_atPos : jsonCmt (a.atPos line pos) ch =
    ((jsonCmt a ch).1.atPos line pos, (jsonCmt a ch).2) := by
  obtain ⟨state, _, _, _, _, _, _, _, _, _, _, _, _, _, _, _⟩ := a
  simp only [jsonCmt, Ffjson.atPos]
  cases state with
  | icmtBegin =>
    simp only
    split
    · rfl
    · split <;> rfl
  | icmtLine | icmtMline =>
    simp only
    split <;> rfl
  | _ => rfl

theorem hdlValBare_atPos : hdlValBare listOps (a.atPos line pos) ch data =
    ((hdlValBare listOps a ch data).1.atPos line pos, (hdlValBare listOps a ch data).2) := by
  simp only [hdlValBare, addByte_listOps, Ffjson.atPos]
  by_cases h1 : ch ≠ (ffjsonWords.getD a.barevalIdx.toNat []).getD
      (listOps.len (a.buf ++ data.take 1) - 1) 0
  · simp only [if_pos h1]
  · simp only [if_neg h1]
    by_cases h2 : (ffjsonWords.getD a.barevalIdx.toNat []).getD
        (listOps.len (a.buf ++ data.take 1) - 1 + 1) 0 = 0
    · simp only [if_pos h2]
    · simp only [if_neg h2]

theorem hdlValBareNum_atPos (floatVal : List UInt8 → δ) :
    hdlValBareNum listOps floatVal (a.atPos line pos) ch data =
      ((hdlValBareNum listOps floatVal a ch data).1.atPos line pos,
        (hdlValBareNum listOps floatVal a ch data).2) := by
  simp only [hdlValBareNum, addByte_listOps, Ffjson.atPos]
  cases isNumChar ch with
  | true => rfl
  | false =>
    simp only [Bool.not_false, if_true]
    by_cases h0 : (listOps.bytes a.buf).length = 0
    · simp only [if_pos h0]
    simp only [if_neg h0]
    cases (ffsToint (listOps.bytes a.buf) ⟨8, true, false, false⟩).filter
        fun r => (listOps.bytes a.buf).length = r.1 with
    | some r => rfl
    | none =>
      by_cases hflt : ffsTofloat (listOps.bytes a.buf) = some (listOps.bytes a.buf).length
      · simp only [if_pos hflt]
      · simp only [if_neg hflt]

theorem quoteChar_atPos : quoteChar listOps (a.atPos line pos) ch data =
    ((quoteChar listOps a ch data).1.atPos line pos, (quoteChar listOps a ch data).2) := by
  simp only [quoteChar, addByte_listOps, Ffjson.atPos]
  split
  · by_cases hk : a.nextst = .key
    · simp only [if_pos hk]
    · simp only [if_neg hk]
  · split
    · rfl
    · split <;> rfl

theorem hdlQuote_atPos : hdlQuote listOps (a.atPos line pos) ch data =
    ((hdlQuote listOps a ch data).1.atPos line pos, (hdlQuote listOps a ch data).2) := by
  simp only [hdlQuote, quoteChar_atPos]

theorem hdlEsc_atPos : hdlEsc listOps (a.atPos line pos) ch =
    ((hdlEsc listOps a ch).1.atPos line pos, (hdlEsc listOps a ch).2) := by
  simp only [hdlEsc, escPut, store_listOps, Ffjson.atPos]
  by_cases h5 : a.esc.length ≥ 5
  · simp only [if_pos h5]
  simp only [if_neg h5]
  cases ffjsonUnescapechar (a.esc ++ [ch]) with
  | error => rfl
  | incomplete => rfl
  | char uch =>
    simp only
    split
    · rfl
    · cases a.escUtf16 <;> split <;> rfl

theorem afterBare_atPos (r : Ffjson (List UInt8) δ × FfparsE) (again : Bool) :
    afterBare (r.1.atPos line pos, r.2) again =
      ((afterBare r again).1.atPos line pos, (afterBare r again).2) := by
  simp only [afterBare]
  split <;> rfl

theorem caseVal_atPos : caseVal (a.atPos line pos) ch =
    ((caseVal a ch).1.atPos line pos, (caseVal a ch).2) := by
  simp only [caseVal, Ffjson.atPos]
  split
  · rfl
  · split <;> rfl

theorem caseKey_atPos : caseKey (a.atPos line pos) ch =
    ((caseKey a ch).1.atPos line pos, (caseKey a ch).2) := by
  simp only [caseKey]
  split <;> rfl

theorem caseCloseBrace_atPos : caseCloseBrace (a.atPos line pos) ch =
    (caseCloseBrace a ch).map fun r => (r.1.atPos line pos, r.2) := by
  simp only [caseCloseBrace, Ffjson.atPos]
  by_cases h0 : a.ctxs.length = 0
  · simp only [if_pos h0, Option.map_none]
  · simp only [if_neg h0]
    by_cases h1 : a.ctxs.head? ≠ some (if ch = 0x5d then FfjsonT.arr else .obj)
    · simp only [if_pos h1, Option.map_some]
    · simp only [if_neg h1, Option.map_some]

theorem caseAfterVal_atPos : caseAfterVal listOps (a.atPos line pos) ch =
    (caseAfterVal listOps a ch).map fun r => (r.1.atPos line pos, r.2) := by
  have hctxs : (jsonCleardata listOps (a.atPos line pos)).ctxs = (jsonCleardata listOps a).ctxs := rfl
  simp only [caseAfterVal, hctxs]
  split
  · rfl
  · split
    · rfl
    · split
      · rfl
      · exact caseCloseBrace_atPos { jsonCleardata listOps a with state := .closeBrace } line pos ch

theorem jsonSwitch_atPos (floatVal : List UInt8 → δ) :
    jsonSwitch listOps (fun _ => true) floatVal (a.atPos line pos) ch data =
      (jsonSwitch listOps (fun _ => true) floatVal a ch data).map
        fun r => (r.1.atPos line pos, r.2) := by
  have hst : (a.atPos line pos).state = a.state := rfl
  rw [jsonSwitch, jsonSwitch, hst]
  cases a.state with
  | iwspace =>
    simp only [Ffjson.atPos]
    split
    · rfl
    · split <;> rfl
  | icmtBegin | icmtLine | icmtMline | icmtMlineslash => simp only [jsonCmt_atPos, Option.map_some]
  | valFirst =>
    simp only
    split
    · rfl
    · exact congrArg some (caseVal_atPos { a with state := .val } line pos ch)
  | val => exact congrArg some (caseVal_atPos a line pos ch)
  | valBare => simp only [hdlValBare_atPos, afterBare_atPos, Option.map_some]
  | valBareNum => simp only [hdlValBareNum_atPos, afterBare_atPos, Option.map_some]
  | quotFirst =>
    have := hdlQuote_atPos { a with state := .quot } line pos ch data
    simp only [this, Option.map_some]
  | quot => simp only [hdlQuote_atPos, Option.map_some]
  | quotEsc => simp only [hdlEsc_atPos, Option.map_some]
  | afterVal => exact caseAfterVal_atPos a line pos ch
  | closeBrace => exact caseCloseBrace_atPos a line pos ch
  | newCtx => simp [caseNewCtx]
  | rmCtx => rfl
  | keyFirst =>
    simp only
    split
    · rfl
    · exact congrArg some (caseKey_atPos { a with state := .key } line pos ch)
  | key => exact congrArg some (caseKey_atPos a line pos ch)
  | afterKey =>
    simp only [caseAfterKey]
    split <;> rfl
  | none => rfl

end AtPos

theorem jsonByte_atPos (floatVal : List UInt8 → δ) {a a' : Ffjson (List UInt8) δ} {c : UInt8}
    {er : FfparsE} {consumed : Bool} (h : jsonByte floatVal a c = some (a', er, consumed))
    (line pos : UInt32) : ∃ line' pos',
      jsonByte floatVal (a.atPos line pos) c = some (a'.atPos line' pos', er, consumed) := by
  simp only [jsonByte, jsonPass, Option.bind_eq_bind, Option.bind_eq_some_iff] at h ⊢
  obtain ⟨⟨a₁, er₁, again⟩, hsw, h⟩ := h
  have hsw' := jsonSwitch_atPos { a with ch := a.ch + 1 } line (pos + 1) c [c] floatVal
  rw [hsw, Option.map_some] at hsw'
  refine (?_ : ∃ line' pos', ∃ r, _ ∧ _)
  cases hv : er₁.verdict with
  | more =>
    rw [hv] at h
    cases again with
    | true =>
      obtain ⟨rfl, rfl, rfl⟩ := h
      exact ⟨line, pos + 1 - 1, _, hsw', by simp only [hv, if_true]⟩
    | false =>
      by_cases hnl : c = 0x0a
      · simp only [if_pos hnl, Option.some.injEq, Prod.mk.injEq] at h
        obtain ⟨rfl, rfl, rfl⟩ := h
        refine ⟨line + 1, 0, _, hsw', ?_⟩
        simp only [hv, Bool.false_eq_true, if_false, if_pos hnl]
      · simp only [if_neg hnl, Option.some.injEq, Prod.mk.injEq] at h
        obtain ⟨rfl, rfl, rfl⟩ := h
        refine ⟨line, pos + 1, _, hsw', ?_⟩
        simp only [hv, Bool.false_eq_true, if_false, if_neg hnl]
  | event | stop =>
    rw [hv] at h
    obtain ⟨rfl, rfl, rfl⟩ := h
    exact ⟨line, pos + 1, _, hsw', by simp only [hv]⟩

theorem jsonRun_atPos {n : ℕ} {a a' : Ffjson (List UInt8) δ} {er er' : FfparsE} {d : List UInt8}
    {es : List (JsonEvent δ)} (h : jsonRun floatVal n a er d = some (a', es, er'))
    (line pos : UInt32) : ∃ line' pos',
      jsonRun floatVal n (a.atPos line pos) er d = some (a'.atPos line' pos', es, er') := by
  have hpass : ∀ {a b : Ffjson (List UInt8) δ} {c a' er consumed},
      (∃ line pos, b = a.atPos line pos) → jsonByte floatVal a c = some (a', er, consumed) →
      ∃ b', jsonByte floatVal b c = some (b', er, consumed) ∧
        (∃ line pos, b' = a'.atPos line pos) ∧ jsonEvent b' b'.buf er = jsonEvent a' a'.buf er := by
    rintro a b c a' er consumed ⟨line, pos, rfl⟩ hp
    obtain ⟨line', pos', hp'⟩ := jsonByte_atPos floatVal hp line pos
    exact ⟨_, hp', ⟨line', pos', rfl⟩, rfl⟩
  obtain ⟨b', hr, line', pos', rfl⟩ := byteRun_rel hpass ⟨line, pos, rfl⟩ h
  exact ⟨line', pos', hr⟩

theorem jsonRun_unique {n m : ℕ} {a : Ffjson (List UInt8) δ} {er : FfparsE} {d : List UInt8}
    {r r' : Ffjson (List UInt8) δ × List (JsonEvent δ) × FfparsE}
    (h : jsonRun floatVal n a er d = some r) (h' : jsonRun floatVal m a er d = some r') : r = r' :=
  Option.some.inj ((byteRun_mono (Nat.le_add_right n m) h).symm.trans
    (byteRun_mono (Nat.le_add_left m n) h'))

/-! ### Reaching a state -/

/-- The bytes `d` lead from `a` to `a'`, with the events `es` and the last code `er`. -/
def Reach (floatVal : List UInt8 → δ) (a : Ffjson (List UInt8) δ) (d : List UInt8)
    (es : List (JsonEvent δ)) (er : FfparsE) (a' : Ffjson (List UInt8) δ) : Prop :=
  ∃ n line pos, jsonRun floatVal n a .more d = some (a'.atPos line pos, es, er)

section Rules

variable {a a₁ a' : Ffjson (List UInt8) δ} {d d' cs : List UInt8} {c : UInt8}
  {es es' : List (JsonEvent δ)} {er er' : FfparsE}

theorem Reach.nil (a : Ffjson (List UInt8) δ) : Reach floatVal a [] [] .more a :=
  ⟨0, a.line, a.ch, rfl⟩

theorem Reach.atPos (h : Reach floatVal a d es er a') (line pos : UInt32) :
    Reach floatVal (a.atPos line pos) d es er a' := by
  obtain ⟨n, l, p, h⟩ := h
  obtain ⟨l', p', h'⟩ := jsonRun_atPos h line pos
  exact ⟨n, l', p', h'⟩

/-- **One after another.** -/
theorem Reach.append (h : Reach floatVal a d es er a₁) (hns : er.verdict ≠ .stop)
    (hd : d' ≠ [] ∨ er = .more) (h' : Reach floatVal a₁ d' es' er' a') :
    Reach floatVal a (d ++ d') (es ++ es') er' a' := by
  obtain ⟨n, l, p, h⟩ := h
  obtain ⟨m, l', p', h'⟩ := h'.atPos l p
  have hstart : jsonRun floatVal m (a₁.atPos l p) er d' = some (a'.atPos l' p', es', er') := by
    rcases hd with hd | rfl
    · obtain ⟨c, cs, rfl⟩ := List.exists_cons_of_ne_nil hd
      cases m <;> exact h'
    · exact h'
  exact ⟨n + m, l', p', byteRun_append h hns hstart⟩

theorem jsonSwitch_next {r : PassRes (List UInt8) δ}
    (h : jsonSwitch listOps (fun _ => true) floatVal a c [c] = some r) :
    jsonSwitch listOps (fun _ => true) floatVal { a with ch := a.ch + 1 } c [c] =
      some (r.1.atPos a.line (a.ch + 1), r.2) := by
  have hpos := jsonSwitch_atPos a a.line (a.ch + 1) c [c] floatVal
  rw [h, Option.map_some] at hpos
  exact hpos

theorem Reach.more (h : jsonSwitch listOps (fun _ => true) floatVal a c [c] =
    some (a', .more, false)) : Reach floatVal a [c] [] .more a' := by
  have hsw := jsonSwitch_next h
  by_cases hnl : c = 0x0a
  · have hp : jsonByte floatVal a c = some (a'.atPos (a.line + 1) 0, .more, true) := by
      simp only [jsonByte, jsonPass, hsw, Option.bind_eq_bind, Option.bind_some, FfparsE.verdict,
        Bool.false_eq_true, if_false, if_pos hnl]
    exact ⟨1, _, _, jsonRun_more hp rfl rfl⟩
  · have hp : jsonByte floatVal a c = some (a'.atPos a.line (a.ch + 1), .more, true) := by
      simp only [jsonByte, jsonPass, hsw, Option.bind_eq_bind, Option.bind_some, FfparsE.verdict,
        Bool.false_eq_true, if_false, if_neg hnl]
    exact ⟨1, _, _, jsonRun_more hp rfl rfl⟩

theorem Reach.event (h : jsonSwitch listOps (fun _ => true) floatVal a c [c] =
    some (a', er, false)) (hv : er.verdict = .event) :
    Reach floatVal a [c] [jsonEvent a' a'.buf er] er a' := by
  have hp : jsonByte floatVal a c = some (a'.atPos a.line (a.ch + 1), er, true) := by
    simp only [jsonByte, jsonPass, jsonSwitch_next h, Option.bind_eq_bind, Option.bind_some, hv]
    rfl
  have hrun : jsonRun floatVal (0 + 1) a .more [c] =
      some (_, [jsonEvent (a'.atPos a.line (a.ch + 1)) a'.buf er], er) :=
    jsonRun_event hp hv rfl
  exact ⟨1, _, _, hrun⟩

theorem Reach.again (h : jsonSwitch listOps (fun _ => true) floatVal a c [c] =
    some (a₁, .more, true)) (h' : Reach floatVal a₁ (c :: cs) es er a') :
    Reach floatVal a (c :: cs) es er a' := by
  have hp : jsonByte floatVal a c = some (a₁.atPos a.line (a.ch + 1 - 1), .more, false) := by
    simp only [jsonByte, jsonPass, jsonSwitch_next h, Option.bind_eq_bind, Option.bind_some]
    rfl
  obtain ⟨n, l, p, hrun⟩ := h'.atPos a.line (a.ch + 1 - 1)
  exact ⟨n + 1, l, p, jsonRun_more hp rfl hrun⟩

theorem Reach.eventAgain (h : jsonSwitch listOps (fun _ => true) floatVal a c [c] =
    some (a₁, er, true)) (hv : er.verdict = .event) (h' : Reach floatVal a₁ (c :: cs) es er' a') :
    Reach floatVal a (c :: cs) (jsonEvent a₁ a₁.buf er :: es) er' a' := by
  have hp : jsonByte floatVal a c = some (a₁.atPos a.line (a.ch + 1), er, false) := by
    simp only [jsonByte, jsonPass, jsonSwitch_next h, Option.bind_eq_bind, Option.bind_some, hv]
    rfl
  obtain ⟨n, l, p, hrun⟩ := h'.atPos a.line (a.ch + 1)
  have hstart : jsonRun floatVal n (a₁.atPos a.line (a.ch + 1)) er (c :: cs) =
      some (a'.atPos l p, es, er') := by
    cases n <;> exact hrun
  have hall : jsonRun floatVal (n + 1) a .more (c :: cs) =
      some (_, jsonEvent (a₁.atPos a.line (a.ch + 1)) a₁.buf er :: es, er') :=
    jsonRun_event hp hv hstart
  exact ⟨n + 1, l, p, hall⟩

theorem Reach.cons (h : jsonSwitch listOps (fun _ => true) floatVal a c [c] =
    some (a₁, .more, false)) (h' : Reach floatVal a₁ cs es er a') :
    Reach floatVal a (c :: cs) es er a' :=
  (Reach.more h).append (by simp [FfparsE.verdict]) (.inr rfl) h'

end Rules

/-! ### Whitespace and comments -/

/-- The text of a block comment behind its opening. -/
inductive BlockBody : List UInt8 → Prop
  | done : BlockBody [0x2a, 0x2f]
  | char {c body} (hc : c ≠ 0x2a) (h : BlockBody body) : BlockBody (c :: body)
  | star {c body} (hc : c ≠ 0x2f) (h : BlockBody body) : BlockBody (0x2a :: c :: body)

/-- Whitespace and comments that are complete: a comment ends where the parser leaves it. -/
inductive Blanks : List UInt8 → Prop
  | nil : Blanks []
  | space {c w} (hc : ffcharIswhitespace c = true) (h : Blanks w) : Blanks (c :: w)
  | line {body w} (hb : (0x0a : UInt8) ∉ body) (h : Blanks w) :
      Blanks (0x2f :: 0x2f :: (body ++ 0x0a :: w))
  | block {body w} (hb : BlockBody body) (h : Blanks w) : Blanks (0x2f :: 0x2a :: (body ++ w))

theorem BlockBody.reach {body : List UInt8} (h : BlockBody body) (a : Ffjson (List UInt8) δ) :
    Reach floatVal { a with state := .icmtMline } body [] .more { a with state := .iwspace } := by
  have hstar : jsonSwitch listOps (fun _ => true) floatVal { a with state := .icmtMline } 0x2a [0x2a] =
      some ({ a with state := .icmtMlineslash }, .more, false) := rfl
  induction h with
  | done => exact .cons hstar (.more rfl)
  | @char c body hc h ih =>
    refine .cons ?_ ih
    simp only [jsonSwitch, jsonCmt, if_neg hc]
  | @star c body hc h ih =>
    refine .cons hstar (.cons ?_ ih)
    simp only [jsonSwitch, jsonCmt, if_neg hc]

/-- **Whitespace and comments** leave the parser where it was. -/
theorem Blanks.reach {w : List UInt8} (h : Blanks w) {a : Ffjson (List UInt8) δ}
    (hst : a.state = .iwspace) : Reach floatVal a w [] .more a := by
  have ha : { a with state := .iwspace } = a := by
    rw [← hst]
  have hslash : jsonSwitch listOps (fun _ => true) floatVal a 0x2f [0x2f] =
      some ({ a with state := .icmtBegin }, .more, false) := by
    simp only [jsonSwitch, hst]
    rfl
  induction h with
  | nil => exact .nil a
  | @space c w hc h ih =>
    refine .cons ?_ ih
    simp only [jsonSwitch, hst, if_pos hc]
  | @line body w hb h ih =>
    have hbody : Reach floatVal { a with state := .icmtLine } (body ++ 0x0a :: w) [] .more a := by
      induction body with
      | nil => exact .cons rfl (ha.symm ▸ ih)
      | cons c body ihb =>
        rw [List.mem_cons, not_or] at hb
        refine .cons ?_ (ihb hb.2)
        simp only [jsonSwitch, jsonCmt, if_neg (Ne.symm hb.1)]
    exact .cons hslash (.cons rfl hbody)
  | @block body w hb h ih =>
    refine .cons hslash (.cons rfl ?_)
    exact (hb.reach a).append (by simp [FfparsE.verdict]) (.inr rfl) (ha.symm ▸ ih)

end Reach

end FF
