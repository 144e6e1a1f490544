import FF.Json.Basic

/-!
# The JSON parser, byte by byte

The machine that makes the passes of `ffjson_parse` on one byte at a time and keeps the bytes of
the value itself.
-/

namespace FF

section Machine

variable {δ : Type}

/-- The operations on a buffer that is the list of its bytes. -/
def listOps : ValOps (List UInt8) where
  add buf data := some (buf ++ data.take 1)
  store buf s := some (buf ++ s)
  free := []
  bytes := id
  len := List.length

theorem FfparsE.verdict_more (er : FfparsE) : er.verdict = .more ↔ er = .more := by
  cases er <;> simp [FfparsE.verdict]

/-- A pass of the machine. -/
def jsonByte (floatVal : List UInt8 → δ) (a : Ffjson (List UInt8) δ) (ch : UInt8) :
    Option (Ffjson (List UInt8) δ × FfparsE × Bool) :=
  jsonPass listOps (fun _ => true) floatVal a ch [ch]

/-- The number or boolean of an event. -/
inductive JsonNum (δ : Type)
  | none
  | int (i : ℤ)
  | flt (x : Option δ)
  deriving DecidableEq

/-- What the caller sees of an event: the code, the type, the text, the number, and the types of
the open contexts. -/
structure JsonEvent (δ : Type) where
  code : FfparsE
  type : FfjsonT
  val : List UInt8
  num : JsonNum δ
  ctxs : List FfjsonT
  deriving DecidableEq

/-- The event with the code `er` and the text `val`. -/
def jsonEvent {B : Type} (p : Ffjson B δ) (val : List UInt8) (er : FfparsE) : JsonEvent δ where
  code := er
  type := p.type
  val := val
  num :=
    match p.type with
    | .int | .bool => .int p.intval
    | .num => .flt p.fltval
    | _ => .none
  ctxs := p.ctxs

/-- The machine on `d`. -/
def jsonRun (floatVal : List UInt8 → δ) (n : ℕ) (a : Ffjson (List UInt8) δ) (er : FfparsE)
    (d : List UInt8) : Option (Ffjson (List UInt8) δ × List (JsonEvent δ) × FfparsE) :=
  byteRun (jsonByte floatVal) FfparsE.verdict (fun a er => jsonEvent a a.buf er) n a er d

section Steps

variable {floatVal : List UInt8 → δ} {n : ℕ} {a a₁ b : Ffjson (List UInt8) δ} {er er₁ er' : FfparsE}
  {c : UInt8} {cs : List UInt8} {consumed : Bool} {es : List (JsonEvent δ)}

theorem jsonRun_more (hp : jsonByte floatVal a c = some (a₁, er₁, consumed))
    (hv : er₁.verdict = .more)
    (hr : jsonRun floatVal n a₁ er₁ (if consumed then cs else c :: cs) = some (b, es, er')) :
    jsonRun floatVal (n + 1) a er (c :: cs) = some (b, es, er') := by
  simp only [jsonRun] at hr
  simp only [jsonRun, byteRun, hp, hv, Option.bind_eq_bind, Option.bind_some, hr]

theorem jsonRun_event (hp : jsonByte floatVal a c = some (a₁, er₁, consumed))
    (hv : er₁.verdict = .event)
    (hr : jsonRun floatVal n a₁ er₁ (if consumed then cs else c :: cs) = some (b, es, er')) :
    jsonRun floatVal (n + 1) a er (c :: cs) = some (b, jsonEvent a₁ a₁.buf er₁ :: es, er') := by
  simp only [jsonRun] at hr
  simp only [jsonRun, byteRun, hp, hv, Option.bind_eq_bind, Option.bind_some, hr]

theorem jsonRun_stop (hp : jsonByte floatVal a c = some (a₁, er₁, consumed))
    (hv : er₁.verdict = .stop) :
    jsonRun floatVal (n + 1) a er (c :: cs) = some (a₁, [], er₁) := by
  simp only [jsonRun, byteRun, hp, hv, Option.bind_eq_bind, Option.bind_some]

end Steps

/-! ### The invariant -/

/-- Where the parser may go on after whitespace. -/
def ResumeOk (ctxs : List FfjsonT) : JsonIdx → Prop
  | .val | .key | .afterVal | .afterKey => True
  | .valFirst | .keyFirst => ctxs ≠ []
  | _ => False

/-- The states that occur, and where a context is open. -/
def JsonInv {B : Type} (p : Ffjson B δ) : Prop :=
  match p.state with
  | .iwspace | .icmtBegin | .icmtLine | .icmtMline | .icmtMlineslash => ResumeOk p.ctxs p.nextst
  | .newCtx => p.nextst = .valFirst ∨ p.nextst = .keyFirst
  | .closeBrace | .rmCtx | .valFirst | .keyFirst => p.ctxs ≠ []
  | .none => False
  | _ => True

/-- How many passes may leave the character. -/
def jsonRank {B : Type} (p : Ffjson B δ) : ℕ :=
  match p.state with
  | .newCtx => 5
  | .iwspace =>
    match p.nextst with
    | .afterVal | .afterKey => 1
    | _ => 4
  | .val | .valFirst | .keyFirst => 3
  | .valBareNum | .rmCtx => 2
  | _ => 0

theorem jsonRank_le {B : Type} (p : Ffjson B δ) : jsonRank p ≤ 5 := by
  unfold jsonRank
  split <;> try omega
  split <;> omega

/-- What the switch may do from the state `a`. -/
structure SwitchOk {B : Type} (a : Ffjson B δ) (r : PassRes B δ) : Prop where
  inv : r.2.1.verdict ≠ .stop → JsonInv r.1
  rank : r.2.1.verdict ≠ .stop → r.2.2 = true → jsonRank r.1 < jsonRank a

@[simp] theorem addByte_listOps (a : Ffjson (List UInt8) δ) (data : List UInt8) :
    addByte listOps a data = ({ a with buf := a.buf ++ data.take 1 }, .more) := rfl

@[simp] theorem bytes_listOps (l : List UInt8) : listOps.bytes l = l := rfl

@[simp] theorem len_listOps (l : List UInt8) : listOps.len l = l.length := rfl

@[simp] theorem free_listOps : listOps.free = [] := rfl

@[simp] theorem store_listOps (l s : List UInt8) : listOps.store l s = some (l ++ s) := rfl

/-- What a handler of values does to the state: it goes on in it, or the value ends. -/
structure ValueOk {B : Type} (a : Ffjson B δ) (r : Ffjson B δ × FfparsE) : Prop where
  state : r.1.state = a.state
  stop : r.2 = .more ∨ r.2 = .val ∨ r.2.verdict = .stop

theorem hdlValBare_ok (a : Ffjson (List UInt8) δ) (ch : UInt8) (data : List UInt8) :
    ValueOk a (hdlValBare listOps a ch data) := by
  simp only [hdlValBare, addByte_listOps]
  split
  · exact ⟨rfl, .inr (.inr rfl)⟩
  · split
    · exact ⟨rfl, .inr (.inl rfl)⟩
    · exact ⟨rfl, .inl rfl⟩

theorem hdlValBareNum_ok (floatVal : List UInt8 → δ) (a : Ffjson (List UInt8) δ) (ch : UInt8)
    (data : List UInt8) : ValueOk a (hdlValBareNum listOps floatVal a ch data) := by
  simp only [hdlValBareNum, addByte_listOps]
  split
  · split
    · exact ⟨rfl, .inr (.inr rfl)⟩
    · split
      · exact ⟨rfl, .inr (.inl rfl)⟩
      · split
        · exact ⟨rfl, .inr (.inl rfl)⟩
        · exact ⟨rfl, .inr (.inr rfl)⟩
  · exact ⟨rfl, .inl rfl⟩

theorem afterBare_ok {B : Type} {a : Ffjson B δ} {r : Ffjson B δ × FfparsE} (h : ValueOk a r)
    (hst : a.state = .valBare ∨ a.state = .valBareNum) {again : Bool}
    (hagain : again = true → a.state = .valBareNum) : SwitchOk a (afterBare r again) := by
  unfold afterBare
  split
  · refine ⟨fun _ => trivial, fun _ hag => ?_⟩
    simp [jsonRank, hagain hag]
  · next hv =>
      refine ⟨fun hns => ?_, fun _ hag => Bool.noConfusion hag⟩
      have : r.1.state = .valBare ∨ r.1.state = .valBareNum := by rwa [h.state]
      rcases this with this | this <;> simp [JsonInv, this]

theorem hdlQuote_inv (a : Ffjson (List UInt8) δ) (ch : UInt8) (data : List UInt8)
    (hst : a.state = .quot) : JsonInv (hdlQuote listOps a ch data).1 := by
  simp only [hdlQuote, quoteChar, addByte_listOps]
  split
  · split <;> trivial
  · split
    · trivial
    · split <;> simp [JsonInv, hst]

theorem hdlEsc_inv (a : Ffjson (List UInt8) δ) (ch : UInt8) (hst : a.state = .quotEsc) :
    JsonInv (hdlEsc listOps a ch).1 := by
  simp only [hdlEsc, escPut, store_listOps]
  split
  · simp [JsonInv, hst]
  split
  · simp [JsonInv, hst]
  · simp [JsonInv, hst]
  split
  · trivial
  · split
    · split <;> simp [JsonInv, hst]
    · split
      · simp [JsonInv, hst]
      · trivial

theorem jsonCmt_inv {B : Type} (p : Ffjson B δ) (ch : UInt8)
    (hst : p.state = .icmtBegin ∨ p.state = .icmtLine ∨ p.state = .icmtMline ∨
      p.state = .icmtMlineslash) (h : JsonInv p) : JsonInv (jsonCmt p ch).1 := by
  rcases hst with hst | hst | hst | hst <;> simp only [jsonCmt, hst] <;>
    simp only [JsonInv, hst] at h
  · split
    · exact h
    · split
      · exact h
      · simpa [JsonInv, hst] using h
  · split
    · exact h
    · simpa [JsonInv, hst] using h
  · split
    · exact h
    · simpa [JsonInv, hst] using h
  · split <;> exact h

theorem caseVal_ok {B : Type} {a p : Ffjson B δ} (ha : jsonRank a = 3) (ch : UInt8) :
    SwitchOk a (caseVal p ch) := by
  unfold caseVal
  split
  · exact ⟨fun _ => trivial, fun _ hag => Bool.noConfusion hag⟩
  split
  · refine ⟨fun _ => ?_, fun _ hag => Bool.noConfusion hag⟩
    by_cases hch : ch = 0x5b
    · exact .inl (by simp [hch])
    · exact .inr (by simp [hch])
  · simp only
    split
    · exact ⟨fun _ => trivial, fun _ _ => ha ▸ (by decide : 0 < 3)⟩
    · exact ⟨fun _ => trivial, fun _ _ => ha ▸ (by decide : 2 < 3)⟩

theorem caseKey_ok {B : Type} {a p : Ffjson B δ} (ch : UInt8) : SwitchOk a (caseKey p ch) := by
  unfold caseKey
  split
  · exact ⟨fun _ => trivial, fun _ hag => Bool.noConfusion hag⟩
  · exact ⟨fun hns => absurd rfl hns, fun _ hag => Bool.noConfusion hag⟩

theorem caseCloseBrace_ok {B : Type} {a p : Ffjson B δ} (hp : p.ctxs ≠ []) (ch : UInt8) :
    ∃ r, caseCloseBrace p ch = some r ∧ SwitchOk a r := by
  simp only [caseCloseBrace]
  rw [if_neg (by simpa using hp)]
  by_cases hctx : p.ctxs.head? = some (if ch = 0x5d then FfjsonT.arr else .obj)
  · rw [if_neg (not_not.mpr hctx)]
    exact ⟨_, rfl, fun _ => by simpa [JsonInv] using hp, fun _ hag => Bool.noConfusion hag⟩
  · rw [if_pos hctx]
    exact ⟨_, rfl, fun hns => absurd rfl hns, fun _ hag => Bool.noConfusion hag⟩

theorem caseAfterVal_ok {a : Ffjson (List UInt8) δ} (ch : UInt8) :
    ∃ r, caseAfterVal listOps a ch = some r ∧ SwitchOk a r := by
  simp only [caseAfterVal]
  generalize jsonCleardata listOps a = p
  by_cases hctxs : p.ctxs.length = 0
  · rw [if_pos hctxs]
    exact ⟨_, rfl, fun hns => absurd rfl hns, fun _ hag => Bool.noConfusion hag⟩
  rw [if_neg hctxs]
  split
  · refine ⟨_, rfl, fun _ => ?_, fun _ hag => Bool.noConfusion hag⟩
    by_cases hctx : p.ctxs.head? = some .arr <;> simp [JsonInv, ResumeOk, hctx]
  · split
    · exact ⟨_, rfl, fun hns => absurd rfl hns, fun _ hag => Bool.noConfusion hag⟩
    · exact caseCloseBrace_ok (by simpa using hctxs) ch

theorem jsonSwitch_ok (floatVal : List UInt8 → δ) {a : Ffjson (List UInt8) δ} (h : JsonInv a)
    (ch : UInt8) : ∃ r, jsonSwitch listOps (fun _ => true) floatVal a ch [ch] = some r ∧
      SwitchOk a r := by
  unfold jsonSwitch
  cases hst : a.state with
  | none => simp [JsonInv, hst] at h
  | iwspace =>
    simp only
    simp only [JsonInv, hst] at h
    split
    · exact ⟨_, rfl, fun _ => by simpa [JsonInv, hst] using h, by simp⟩
    split
    · exact ⟨_, rfl, fun _ => by simpa [JsonInv, hst] using h, by simp⟩
    · refine ⟨_, rfl, fun _ => ?_, fun _ _ => ?_⟩
      · revert h
        cases hn : a.nextst <;> simp [JsonInv, ResumeOk]
      · revert h
        cases hn : a.nextst <;> simp [jsonRank, ResumeOk, hst, hn]
  | icmtBegin | icmtLine | icmtMline | icmtMlineslash =>
    exact ⟨_, rfl, fun _ => jsonCmt_inv a ch (by simp [hst]) h, fun _ hag => Bool.noConfusion hag⟩
  | valFirst =>
    simp only
    simp only [JsonInv, hst] at h
    split
    · exact ⟨_, rfl, fun _ => by simpa [JsonInv] using h, fun _ _ => by simp [jsonRank, hst]⟩
    · exact ⟨_, rfl, caseVal_ok (by simp [jsonRank, hst]) ch⟩
  | val => exact ⟨_, rfl, caseVal_ok (by simp [jsonRank, hst]) ch⟩
  | valBare =>
    exact ⟨_, rfl, afterBare_ok (hdlValBare_ok a ch _) (.inl hst) (fun hag => Bool.noConfusion hag)⟩
  | valBareNum =>
    exact ⟨_, rfl, afterBare_ok (hdlValBareNum_ok floatVal a ch _) (.inr hst) (fun _ => hst)⟩
  | quotFirst =>
    exact ⟨_, rfl, fun _ => hdlQuote_inv _ ch _ rfl, fun _ hag => Bool.noConfusion hag⟩
  | quot => exact ⟨_, rfl, fun _ => hdlQuote_inv a ch _ hst, fun _ hag => Bool.noConfusion hag⟩
  | quotEsc => exact ⟨_, rfl, fun _ => hdlEsc_inv a ch hst, fun _ hag => Bool.noConfusion hag⟩
  | afterVal => exact caseAfterVal_ok ch
  | closeBrace => exact caseCloseBrace_ok (by simpa [JsonInv, hst] using h) ch
  | newCtx =>
    simp only [caseNewCtx]
    rw [if_neg (by simp)]
    simp only [JsonInv, hst] at h
    refine ⟨_, rfl, fun _ => ?_, fun _ _ => ?_⟩
    · rcases h with h | h <;> simp [JsonInv, ResumeOk, h]
    · rcases h with h | h <;> simp [jsonRank, hst, h]
  | rmCtx =>
    exact ⟨_, rfl, fun _ => trivial, fun _ _ => by simp [jsonRank, hst]⟩
  | keyFirst =>
    simp only
    simp only [JsonInv, hst] at h
    split
    · exact ⟨_, rfl, fun _ => by simpa [JsonInv] using h, fun _ _ => by simp [jsonRank, hst]⟩
    · exact ⟨_, rfl, caseKey_ok ch⟩
  | key => exact ⟨_, rfl, caseKey_ok ch⟩
  | afterKey =>
    simp only [caseAfterKey, jsonCleardata]
    split
    · exact ⟨_, rfl, fun _ => trivial, fun _ hag => Bool.noConfusion hag⟩
    · exact ⟨_, rfl, fun hns => absurd rfl hns, fun _ hag => Bool.noConfusion hag⟩

/-- **A pass keeps the invariant**, no assertion fails in it, and a character that is not consumed
lowers the rank. -/
theorem jsonByte_total (floatVal : List UInt8 → δ) (a : Ffjson (List UInt8) δ) (ch : UInt8)
    (h : JsonInv a) : ∃ a' er consumed, jsonByte floatVal a ch = some (a', er, consumed) ∧
      (er.verdict ≠ .stop →
        JsonInv a' ∧ jsonRank a' ≤ 5 ∧ (consumed = false → jsonRank a' < jsonRank a)) := by
  obtain ⟨⟨a', er, again⟩, hsw, hinv, hrank⟩ :=
    jsonSwitch_ok (a := { a with ch := a.ch + 1 }) floatVal h ch
  simp only [jsonByte, jsonPass, hsw, Option.bind_eq_bind, Option.bind_some]
  cases hv : er.verdict with
  | more =>
    cases again with
    | true => exact ⟨_, _, _, rfl, fun hns => ⟨hinv hns, jsonRank_le _, fun _ => hrank hns rfl⟩⟩
    | false =>
      simp only [Bool.false_eq_true, if_false]
      split
      · exact ⟨_, _, _, rfl, fun hns =>
          ⟨hinv hns, jsonRank_le _, fun hc => Bool.noConfusion hc⟩⟩
      · exact ⟨_, _, _, rfl, fun hns =>
          ⟨hinv hns, jsonRank_le _, fun hc => Bool.noConfusion hc⟩⟩
  | event =>
    exact ⟨_, _, _, rfl, fun hns => ⟨hinv hns, jsonRank_le _, fun hc => hrank hns (by simpa using hc)⟩⟩
  | stop => exact ⟨_, _, _, rfl, fun hns => absurd hv hns⟩

theorem jsonRun_total (floatVal : List UInt8 → δ) {a : Ffjson (List UInt8) δ} (h : JsonInv a)
    (er : FfparsE) (d : List UInt8) {n : ℕ} (hn : 6 * d.length + 5 ≤ n) :
    ∃ r, jsonRun floatVal n a er d = some r := by
  have hrank : ∀ (a : Ffjson (List UInt8) δ) (_ : UInt8), jsonRank a ≤ 5 := fun a _ => jsonRank_le a
  refine byteRun_total hrank (fun a c hinv => ?_) h er d (by omega)
  obtain ⟨a', er', consumed, hp, hok⟩ := jsonByte_total floatVal a c hinv
  exact ⟨a', er', consumed, hp, fun hns => ⟨(hok hns).1, (hok hns).2.2⟩⟩

end Machine

end FF
