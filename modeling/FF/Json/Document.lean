import FF.Json.RoundTrip

/-!
# Documents

A document is a sequence of calls of `ffjson_add` that is well-formed: one value, where a key comes
before each value of an object and every context is closed. Writer and parser are followed call by
call.
-/

namespace FF

open List Option

section Document

variable {δ : Type} {floatVal : List UInt8 → δ} {alloc : ℕ → Bool}

/-! ### Well-formed sequences of calls -/

/-- Where in a document an entity stands: where a value must come, behind an opening bracket, or
behind a value. -/
inductive DocPos
  | value
  | first
  | after
  deriving DecidableEq, Repr

/-- A value: what it means, and what comes next. The innermost context comes first. -/
def docValue (stack : List FfjsonT) :
    JsonEntity → Option (EventValue δ × DocPos × List FfjsonT)
  | .str s => some ((.val, .str, s, .none), .after, stack)
  | .int i => some ((.val, .int, [], .int (int64 i.toNat)), .after, stack)
  | .bool b => some ((.val, .bool, [], .int (if b then 1 else 0)), .after, stack)
  | .null => some ((.val, .null, [], .none), .after, stack)
  | .obj false => some ((.open, .obj, [], .none), .first, .obj :: stack)
  | .arr false => some ((.open, .arr, [], .none), .first, .arr :: stack)
  | .obj true | .arr true | .num _ | .other => none

/-- An entity of a document: what it means, and what comes next. -/
def docStep : DocPos → List FfjsonT → JsonEntity → Option (EventValue δ × DocPos × List FfjsonT)
  | .value, stack, e => docValue stack e
  | _, .arr :: stack, .arr true => some ((.close, .arr, [], .none), .after, stack)
  | _, .arr :: stack, e => docValue (.arr :: stack) e
  | _, .obj :: stack, .str s => some ((.key, .str, s, .none), .value, .obj :: stack)
  | _, .obj :: stack, .obj true => some ((.close, .obj, [], .none), .after, stack)
  | _, _, _ => none

/-- Entities one after another: what they mean, and what comes next. -/
def docRun : DocPos → List FfjsonT → List JsonEntity →
    Option (List (EventValue δ) × DocPos × List FfjsonT)
  | p, stack, [] => some ([], p, stack)
  | p, stack, e :: es => do
      let (v, p, stack) ← docStep p stack e
      let (vs, r) ← docRun p stack es
      some (v :: vs, r)

/-- **A document** that means `vs`. -/
def IsDocument (es : List JsonEntity) (vs : List (EventValue δ)) : Prop :=
  docRun .value [] es = some (vs, .after, [])

/-- No other flag than those for whitespace. -/
structure PrettyOnly (f : JsonF) : Prop where
  noesc : f.noesc = false
  strz : f.strz = false
  f32bit : f.f32bit = false
  more : f.more = false

/-- What is read where `v` was written. -/
def readValue (floatVal : List UInt8 → δ) (v : EventValue δ) : EventValue δ :=
  match v with
  | (.val, .int, _, .int i) =>
    if i = -2 ^ 63 then (.val, .num, [], .flt (some (floatVal (ffsFromint (2 ^ 63) 64 true))))
    else v
  | _ => v

/-! ### The position of the writer -/

/-- Whether a key must come. -/
def keyPos (p : DocPos) (stack : List FfjsonT) : Bool :=
  p != .value && stack.head? == some .obj

/-- The writer is at a position. -/
structure CookAt (p : DocPos) (stack : List FfjsonT) (st : CookSt) (ctxs : CtxArr) : Prop where
  valid : ctxs.Valid
  items : ctxs.items = stack.reverse
  cont : st.cont = false
  key : st.key = keyPos p stack
  comma : st.comma = true → p = .after
  sep : p = .after → stack ≠ [] → st.comma = true

section CookAt

variable {p : DocPos} {stack : List FfjsonT} {st : CookSt} {ctxs ctxs' : CtxArr} {type : FfjsonT}

theorem CookAt.len (h : CookAt p stack st ctxs) : ctxs.len = stack.length := by
  have hlen := congrArg List.length h.items
  rw [CtxArr.items, length_take, length_reverse] at hlen
  have := h.valid
  simp only [CtxArr.Valid] at this
  omega

theorem CookAt.back (h : CookAt p stack st ctxs) (hne : stack ≠ []) : ctxs.back = stack.head? := by
  have hpos : 0 < stack.length := length_pos_iff.mpr hne
  rw [CtxArr.back_eq (by rw [h.len]; omega), h.items, h.len,
    getElem?_reverse (by omega), head?_eq_getElem?]
  congr 1
  omega

theorem CookAt.scalar (h : CookAt p stack st ctxs) (hkey : st.key = false) :
    CookAt .after stack { scalarNext st ctxs with lf := true } ctxs := by
  simp only [scalarNext, hkey, Bool.false_eq_true, if_false]
  by_cases hnil : stack = []
  · subst hnil
    rw [if_neg (by rw [h.len]; simp)]
    exact ⟨h.valid, h.items, h.cont, hkey, fun _ => rfl, fun _ hne => absurd rfl hne⟩
  · have hpos : 0 < stack.length := length_pos_iff.mpr hnil
    rw [if_pos (by rw [h.len]; omega), h.back hnil]
    exact ⟨h.valid, h.items, rfl, rfl, fun _ => rfl, fun _ _ => rfl⟩

theorem CookAt.open (h : CookAt p stack st ctxs) (hpush : ctxs.push alloc type = some ctxs') :
    CookAt .first (type :: stack) { CookSt.zero with key := type == .obj, lf := true } ctxs' := by
  obtain ⟨hval, -, -, hitems, -⟩ := CtxArr.push_spec h.valid hpush
  refine ⟨hval, by rw [hitems, h.items, reverse_cons], rfl, ?_,
    (fun h => by cases h), (fun h => by cases h)⟩
  rfl

theorem CookAt.close (h : CookAt p (type :: stack) st ctxs) :
    CookAt .after stack
      { CookSt.zero with
        comma := true
        key := decide (ctxs.len - 1 ≠ 0) && CtxArr.back { ctxs with len := ctxs.len - 1 } == some .obj
        lf := true }
      { ctxs with len := ctxs.len - 1 } := by
  have hlen := h.len
  rw [length_cons] at hlen
  have hitems : CtxArr.items { ctxs with len := ctxs.len - 1 } = stack.reverse := by
    have htake : ctxs.items.take (ctxs.len - 1) = ctxs.cells.take (ctxs.len - 1) := by
      rw [CtxArr.items, take_take, Nat.min_eq_left (by omega)]
    have hpop : (type :: stack).reverse.take (ctxs.len - 1) = stack.reverse := by
      rw [reverse_cons, take_append_of_le_length (by rw [length_reverse]; omega),
        take_of_length_le (by rw [length_reverse]; omega)]
    rw [CtxArr.items, ← htake, h.items, hpop]
  have hat : CookAt .after stack
      { CookSt.zero with comma := true, key := keyPos .after stack, lf := true }
      { ctxs with len := ctxs.len - 1 } :=
    ⟨h.valid.pop, hitems, rfl, rfl, fun _ => rfl, fun _ _ => rfl⟩
  by_cases hnil : stack = []
  · subst hnil
    have h0 : decide (ctxs.len - 1 ≠ 0) = false := by simp [hlen]
    simp only [h0, Bool.false_and]
    exact hat
  · have hpos : 0 < stack.length := length_pos_iff.mpr hnil
    have h0 : decide (ctxs.len - 1 ≠ 0) = true := decide_eq_true (by omega)
    simp only [h0, Bool.true_and, hat.back hnil]
    exact hat

end CookAt

/-! ### One call -/

/-- Where the parser is. -/
def docIdx (p : DocPos) (stack : List FfjsonT) : JsonIdx :=
  match p with
  | .value => .val
  | .first => if stack.head? = some .obj then .keyFirst else .valFirst
  | .after => .afterVal

theorem isNumChar_pre (f : JsonF) (st : CookSt) (len : ℕ) (closing : Bool) :
    ∀ c ∈ preText f st len closing, isNumChar c = false := by
  intro c hc
  simp only [preText, wsText, mem_append] at hc
  rcases hc with hc | hc
  · split at hc
    · obtain rfl := mem_singleton.mp hc
      rfl
    · cases hc
  split at hc
  · rcases mem_append.mp hc with hc | hc
    · split at hc
      · obtain rfl := mem_singleton.mp hc
        rfl
      · cases hc
    have hch : (wsIndent f len closing).2 = 0x20 ∨ (wsIndent f len closing).2 = 0x09 := by
      simp only [wsIndent]
      split
      · exact .inl rfl
      · exact .inr rfl
    rw [(mem_replicate.mp hc).2]
    rcases hch with h | h <;> rw [h] <;> rfl
  · cases hc

theorem isNumChar_head {f : JsonF} {st : CookSt} {len : ℕ} {e : JsonEntity}
    (h : st.comma = true ∨ e.closingCtx = true) :
    ∀ c, (entText f st len e).head? = some c → isNumChar c = false := by
  intro c hc
  cases hpre : preText f st len e.closingCtx with
  | cons x xs =>
    simp only [entText, entPre, hpre, cons_append, head?_cons, some.injEq] at hc
    rw [← hc]
    exact isNumChar_pre f st len e.closingCtx x (by rw [hpre]; exact mem_cons_self)
  | nil =>
    have hclosing : e.closingCtx = true := by
      rcases h with h | h
      · by_contra hne
        simp [preText, h, hne] at hpre
      · exact h
    cases e with
    | obj close | arr close =>
      obtain rfl : close = true := hclosing
      simp only [entText, entPre, hpre, openQuote, entBody, if_true] at hc
      obtain rfl := some.inj hc
      rfl
    | _ => cases hclosing

section Step

variable {p : DocPos} {stack : List FfjsonT} {st : CookSt} {ctxs : CtxArr} {f : JsonF} {len : ℕ}
  {b : Ffjson (List UInt8) δ} {n : JsonIdx} {type : FfjsonT}

theorem reach_preText {closing : Bool} (h : (st.comma && !closing) = false) (hb : At b n stack) :
    Reach floatVal b (preText f st len closing) [] .more b := by
  simp only [preText, h]
  exact (wsText_blanks f st len closing).reach hb.state

theorem reach_preText_comma (h : st.comma = true) (hb : At b .afterVal (type :: stack)) :
    ∃ b', Reach floatVal b (preText f st len false) [] .more b' ∧
      At b' (if type = .arr then .val else .key) (type :: stack) := by
  obtain ⟨b', hreach, hb'⟩ := @At.comma _ floatVal _ _ _ hb
  refine ⟨b', ?_, hb'⟩
  simp only [preText, h, Bool.not_false, Bool.and_true, if_true]
  exact hreach.append (by simp [FfparsE.verdict]) (.inr rfl)
    ((wsText_blanks f st len false).reach hb'.state)

theorem reach_pre (hw : CookAt p stack st ctxs)
    (hstack : p ≠ .value → ∃ t s, stack = t :: s ∧ (t = .arr ∨ t = .obj))
    (hb : At b (docIdx p stack) stack) :
    ∃ b' n, Reach floatVal b (preText f st len false) [] .more b' ∧ At b' n stack ∧
      (keyPos p stack = false → n = .val ∨ n = .valFirst) ∧
      (keyPos p stack = true → n = .key ∨ n = .keyFirst) := by
  cases p with
  | value =>
    have hcomma : st.comma = false := by
      by_contra h
      cases hw.comma (Bool.not_eq_false _ ▸ h)
    exact ⟨b, _, reach_preText (by simp [hcomma]) hb, hb, fun _ => .inl rfl, fun h => by cases h⟩
  | first =>
    have hcomma : st.comma = false := by
      by_contra h
      cases hw.comma (Bool.not_eq_false _ ▸ h)
    refine ⟨b, _, reach_preText (by simp [hcomma]) hb, hb, fun hk => ?_, fun hk => ?_⟩
    · have : ¬stack.head? = some .obj := by simpa [keyPos] using hk
      simp only [docIdx]
      rw [if_neg this]
      exact .inr rfl
    · have : stack.head? = some .obj := by simpa [keyPos] using hk
      simp only [docIdx]
      rw [if_pos this]
      exact .inr rfl
  | after =>
    obtain ⟨t, s, rfl, ht⟩ := hstack (by decide)
    obtain ⟨b', hreach, hb'⟩ := @reach_preText_comma _ floatVal _ _ f len _ _
      (hw.sep rfl (cons_ne_nil _ _)) hb
    refine ⟨b', _, hreach, hb', fun hk => ?_, fun hk => ?_⟩
    · rcases ht with rfl | rfl
      · exact .inl rfl
      · cases hk
    · rcases ht with rfl | rfl
      · cases hk
      · exact .inl rfl

/-- The text of a value. -/
def valueText : JsonEntity → List UInt8
  | .str s => 0x22 :: (escapeText s ++ [0x22])
  | .int i => ffsFromint i.toNat 64 true
  | .bool b => if b then ffjsonWords.getD 0 [] else ffjsonWords.getD 1 []
  | .null => ffjsonWords.getD 2 []
  | .obj false => [openCh .obj]
  | .arr false => [openCh .arr]
  | .obj true | .arr true | .num _ | .other => []

/-- **A value** is read back, except for the least integer. -/
theorem gives_value {stack' : List FfjsonT} {p' : DocPos} {e : JsonEntity} {v : EventValue δ}
    (h : docValue stack e = some (v, p', stack')) (hb : At b n stack)
    (hn : n = .val ∨ n = .valFirst) :
    Gives floatVal b (valueText e) [readValue floatVal v] (docIdx p' stack') stack' := by
  cases e with
  | str s =>
    cases h
    exact gives_str hb hn s
  | int i =>
    cases h
    have hread : readValue floatVal (.val, .int, [], .int (int64 i.toNat)) =
        intValue floatVal i := by
      simp only [readValue, intValue]
      by_cases hi : i.toNat = 2 ^ 63
      · have hmin : int64 i.toNat = -2 ^ 63 := by
          rw [hi]
          rfl
        rw [if_pos hmin, if_pos hi, hi]
      · have hne : int64 i.toNat ≠ -2 ^ 63 := by
          simp only [int64]
          split <;> omega
        rw [if_neg hne, if_neg hi]
    rw [hread]
    exact gives_int hb hn i
  | bool t =>
    cases h
    cases t with
    | true => exact gives_word hb hn (i := 0) (by decide)
    | false => exact gives_word hb hn (i := 1) (by decide)
  | null =>
    cases h
    exact gives_word hb hn (i := 2) (by decide)
  | obj close =>
    cases close with
    | true => cases h
    | false =>
      cases h
      exact gives_open hb hn (.inr rfl)
  | arr close =>
    cases close with
    | true => cases h
    | false =>
      cases h
      exact gives_open hb hn (.inl rfl)
  | num s => cases h
  | other => cases h

theorem entText_value (hf : PrettyOnly f) (hkey : st.key = false) (hcont : st.cont = false)
    {e : JsonEntity} {r : EventValue δ × DocPos × List FfjsonT} (h : docValue stack e = some r) :
    entText f st len e = preText f st len false ++ valueText e ∧ valueText e ≠ [] := by
  have hsep : sepText f st = [] := by
    rw [sepText, hkey, if_neg Bool.false_ne_true]
  have hscalar : ∀ pre body : List UInt8, pre ++ [] ++ body ++ [] = pre ++ body := by
    intro pre body
    rw [append_nil, append_nil]
  cases e with
  | str s =>
    refine ⟨?_, cons_ne_nil _ _⟩
    simp only [entText, entPre, entBody, entPost, openQuote, valueText, strSrc, hcont, hf.noesc,
      hf.strz, hf.more, hsep, Bool.false_eq_true, if_false, JsonEntity.closingCtx,
      append_assoc, cons_append, nil_append]
  | int i =>
    refine ⟨?_, (isNumChar_fromint i).1⟩
    simp only [entText, entPre, entBody, entPost, openQuote, valueText, intSrc, hf.f32bit, hsep,
      Bool.false_eq_true, if_false, JsonEntity.closingCtx]
    exact hscalar _ _
  | bool t =>
    refine ⟨?_, by cases t <;> exact cons_ne_nil _ _⟩
    simp only [entText, entPre, entBody, entPost, openQuote, valueText, hsep, JsonEntity.closingCtx]
    exact hscalar _ _
  | null =>
    refine ⟨?_, cons_ne_nil _ _⟩
    simp only [entText, entPre, entBody, entPost, openQuote, valueText, hsep, JsonEntity.closingCtx]
    exact hscalar _ _
  | obj close | arr close =>
    cases close with
    | true => cases h
    | false =>
      refine ⟨?_, cons_ne_nil _ _⟩
      exact hscalar _ _
  | num s => cases h
  | other => cases h

theorem cookAt_value (halloc : ∀ n, alloc n = true) (hf : PrettyOnly f)
    (hw : CookAt p stack st ctxs) (hkey : keyPos p stack = false) {stack' : List FfjsonT}
    {p' : DocPos} {e : JsonEntity} {v : EventValue δ}
    (h : docValue stack e = some (v, p', stack')) :
    ∃ st' ctxs', entNext alloc f st ctxs e = some (st', ctxs') ∧
      CookAt p' stack' { st' with lf := true } ctxs' := by
  have hscalar := hw.scalar (hw.key.trans hkey)
  have hopen : ∀ type, ∃ st' ctxs', ctxNext alloc ctxs type false = some (st', ctxs') ∧
      CookAt .first (type :: stack) { st' with lf := true } ctxs' := by
    intro type
    obtain ⟨ctxs', hpush⟩ := CtxArr.push_some halloc ctxs type
    refine ⟨{ CookSt.zero with key := type == .obj }, ctxs', ?_, hw.open hpush⟩
    simp only [ctxNext, Bool.false_eq_true, if_false, hpush, map_some]
  cases e with
  | str s =>
    cases h
    have hst : { st with cont := false } = st := by rw [← hw.cont]
    refine ⟨_, ctxs, rfl, ?_⟩
    simp only [strNext, hf.more, Bool.false_eq_true, if_false, hst]
    exact hscalar
  | int i =>
    cases h
    exact ⟨_, ctxs, rfl, hscalar⟩
  | bool t =>
    cases h
    exact ⟨_, ctxs, rfl, hscalar⟩
  | null =>
    cases h
    exact ⟨_, ctxs, rfl, hscalar⟩
  | obj close =>
    cases close with
    | true => cases h
    | false =>
      cases h
      exact hopen .obj
  | arr close =>
    cases close with
    | true => cases h
    | false =>
      cases h
      exact hopen .arr
  | num s => cases h
  | other => cases h

/-- The closing bracket of a context. -/
def closing (type : FfjsonT) : JsonEntity := if type = .arr then .arr true else .obj true

theorem docStep_cases {p' : DocPos} {stack' : List FfjsonT} {e : JsonEntity} {v : EventValue δ}
    (h : docStep p stack e = some (v, p', stack')) :
    (p ≠ .value → ∃ t s, stack = t :: s ∧ (t = .arr ∨ t = .obj)) ∧
    ((keyPos p stack = false ∧ docValue stack e = some (v, p', stack')) ∨
    (∃ s, keyPos p stack = true ∧ e = .str s ∧ v = (.key, .str, s, .none) ∧ p' = .value ∧
      stack' = stack) ∨
    (∃ type, p ≠ .value ∧ (type = .arr ∨ type = .obj) ∧ stack = type :: stack' ∧
      e = closing type ∧ v = (.close, type, [], .none) ∧ p' = .after)) := by
  by_cases hp : p = .value
  · subst hp
    exact ⟨fun hne => absurd rfl hne, .inl ⟨rfl, h⟩⟩
  have hcases : (∃ s, stack = .arr :: s) ∨ ∃ s, stack = .obj :: s := by
    cases p with
    | value => exact absurd rfl hp
    | first | after =>
      cases stack with
      | nil => cases e <;> cases h
      | cons t s =>
        cases t with
        | arr => exact .inl ⟨s, rfl⟩
        | obj => exact .inr ⟨s, rfl⟩
        | _ => cases e <;> cases h
  have hp' : p = .first ∨ p = .after := by
    cases p with
    | value => exact absurd rfl hp
    | first => exact .inl rfl
    | after => exact .inr rfl
  rcases hcases with ⟨s, rfl⟩ | ⟨s, rfl⟩
  · refine ⟨fun _ => ⟨_, s, rfl, .inl rfl⟩, ?_⟩
    by_cases he : e = .arr true
    · subst he
      obtain ⟨rfl, rfl, rfl⟩ : _ = v ∧ _ = p' ∧ s = stack' := by
        rcases hp' with rfl | rfl <;> simpa [docStep] using h
      exact .inr (.inr ⟨.arr, hp, .inl rfl, rfl, rfl, rfl, rfl⟩)
    · refine .inl ⟨by rcases hp' with rfl | rfl <;> rfl, ?_⟩
      rcases hp' with rfl | rfl
      · simpa [docStep, he] using h
      · simpa [docStep, he] using h
  refine ⟨fun _ => ⟨_, s, rfl, .inr rfl⟩, .inr ?_⟩
  cases e with
  | str t =>
    obtain ⟨rfl, rfl, rfl⟩ : _ = v ∧ _ = p' ∧ _ = stack' := by
      rcases hp' with rfl | rfl <;> simpa [docStep] using h
    exact .inl ⟨t, by rcases hp' with rfl | rfl <;> rfl, rfl, rfl, rfl, rfl⟩
  | obj close =>
    cases close with
    | true =>
      obtain ⟨rfl, rfl, rfl⟩ : _ = v ∧ _ = p' ∧ s = stack' := by
        rcases hp' with rfl | rfl <;> simpa [docStep] using h
      exact .inr ⟨.obj, hp, .inr rfl, rfl, rfl, rfl, rfl⟩
    | false => rcases hp' with rfl | rfl <;> cases h
  | _ => rcases hp' with rfl | rfl <;> cases h

/-- **The text of one call gives its event**, and writer and parser are at the next position. -/
theorem docStep_gives (halloc : ∀ n, alloc n = true) (hf : PrettyOnly f)
    (hw : CookAt p stack st ctxs) {p' : DocPos} {stack' : List FfjsonT} {e : JsonEntity}
    {v : EventValue δ} (h : docStep p stack e = some (v, p', stack')) :
    ∃ st' ctxs', entNext alloc f st ctxs e = some (st', ctxs') ∧
      CookAt p' stack' { st' with lf := true } ctxs' ∧ entText f st ctxs.len e ≠ [] ∧
      (p = .after → ∀ c, (entText f st ctxs.len e).head? = some c → isNumChar c = false) ∧
      ∀ b, At b (docIdx p stack) stack → Gives floatVal b (entText f st ctxs.len e)
        [readValue floatVal v] (docIdx p' stack') stack' := by
  obtain ⟨hstack, hcases⟩ := docStep_cases h
  have hcomma : p = .after → st.comma = true := by
    intro hp
    obtain ⟨t, s, hs, -⟩ := hstack (by rw [hp]; decide)
    exact hw.sep hp (by rw [hs]; exact cons_ne_nil _ _)
  rcases hcases with ⟨hkey, hval⟩ | ⟨s, hkey, rfl, rfl, rfl, rfl⟩ |
    ⟨type, hp, htype, rfl, rfl, rfl, rfl⟩
  · obtain ⟨st', ctxs', hnext, hat⟩ := cookAt_value halloc hf hw hkey hval
    obtain ⟨htext, hne⟩ := @entText_value _ _ _ f ctxs.len hf
      (hw.key.trans hkey) hw.cont _ _ hval
    refine ⟨st', ctxs', hnext, hat, ?_, fun hp => isNumChar_head (.inl (hcomma hp)), fun b hb => ?_⟩
    · rw [htext]
      exact append_ne_nil_of_right_ne_nil _ hne
    · obtain ⟨b', n, hreach, hb', hn, -⟩ := @reach_pre _ floatVal _ _ _ _ f ctxs.len _ hw
        hstack hb
      rw [htext]
      exact (gives_value hval hb' (hn hkey)).skip hreach
  · have hst : st.key = true := hw.key.trans hkey
    have htext : entText f st ctxs.len (.str s) = preText f st ctxs.len false ++
        (0x22 :: (escapeText s ++ [0x22]) ++ sepText f st) := by
      simp [entText, entPre, entBody, entPost, openQuote, strSrc, hw.cont, hf.noesc, hf.strz,
        hf.more, JsonEntity.closingCtx]
    have hsep : sepText f st = [0x3a] ∨ sepText f st = [0x3a, 0x20] := by
      simp only [sepText, hst, if_true]
      split
      · exact .inr rfl
      · exact .inl rfl
    refine ⟨_, ctxs, rfl, ?_, ?_, fun hp => isNumChar_head (.inl (hcomma hp)), fun b hb => ?_⟩
    · simp only [strNext, hf.more, Bool.false_eq_true, if_false, scalarNext, hst, if_true]
      exact ⟨hw.valid, hw.items, rfl, rfl, (fun h => by cases h), (fun h => by cases h)⟩
    · rw [htext]
      exact append_ne_nil_of_right_ne_nil _ (cons_ne_nil _ _)
    · obtain ⟨b', n, hreach, hb', -, hn⟩ := @reach_pre _ floatVal _ _ _ _ f ctxs.len _ hw
        hstack hb
      rw [htext]
      exact (gives_key hb' (hn hkey) s hsep).skip hreach
  have hlen := hw.len
  rw [length_cons] at hlen
  have hback : ctxs.back = some type := hw.back (cons_ne_nil _ _)
  have hclosing : (closing type).closingCtx = true := by
    rcases htype with rfl | rfl <;> rfl
  have hnext : entNext alloc f st ctxs (closing type) = ctxNext alloc ctxs type true := by
    rcases htype with rfl | rfl <;> rfl
  have htext : entText f st ctxs.len (closing type) =
      preText f st ctxs.len true ++ [closeCh type] := by
    rcases htype with rfl | rfl <;>
      simp [closing, entText, entPre, entBody, entPost, openQuote, closeCh, JsonEntity.closingCtx]
  have hidx : MayClose (docIdx p (type :: stack')) type := by
    cases p with
    | value => exact absurd rfl hp
    | first => rcases htype with rfl | rfl <;> exact .inr rfl
    | after => exact .inl rfl
  refine ⟨{ CookSt.zero with
      comma := true
      key := decide (ctxs.len - 1 ≠ 0) && CtxArr.back { ctxs with len := ctxs.len - 1 } == some .obj },
    { ctxs with len := ctxs.len - 1 }, ?_, hw.close, ?_, fun _ => isNumChar_head (.inr hclosing),
    fun b hb => ?_⟩
  · rw [hnext]
    simp only [ctxNext, if_true]
    rw [if_neg (by simp [hback]; omega)]
  · rw [htext]
    exact append_ne_nil_of_right_ne_nil _ (cons_ne_nil _ _)
  · rw [htext]
    exact (gives_close htype hb hidx).skip (reach_preText (by simp) hb)

end Step

/-! ### Whole documents -/

theorem docRun_cons {p p' : DocPos} {stack stack' : List FfjsonT} {e : JsonEntity}
    {es : List JsonEntity} {vs : List (EventValue δ)}
    (h : docRun p stack (e :: es) = some (vs, p', stack')) :
    ∃ v p₁ stack₁ vs₁, docStep p stack e = some (v, p₁, stack₁) ∧
      docRun p₁ stack₁ es = some (vs₁, p', stack') ∧ vs = v :: vs₁ := by
  simp only [docRun, bind_eq_bind, bind_eq_some_iff] at h
  obtain ⟨⟨v, p₁, stack₁⟩, hstep, ⟨vs₁, r⟩, hrest, h⟩ := h
  obtain ⟨rfl, rfl⟩ : v :: vs₁ = vs ∧ r = (p', stack') := by simpa using h
  exact ⟨v, p₁, stack₁, vs₁, hstep, hrest, rfl⟩

theorem docRun_gives (halloc : ∀ n, alloc n = true) {g : JsonF} {calls : List (JsonF × JsonEntity)}
    (hne : calls ≠ []) (hflags : ∀ call ∈ calls, PrettyOnly (call.1.or g)) {p p' : DocPos}
    {stack stack' : List FfjsonT} {vs : List (EventValue δ)}
    (h : docRun p stack (calls.map Prod.snd) = some (vs, p', stack')) {st : CookSt} {ctxs : CtxArr}
    (hw : CookAt p stack st ctxs) :
    ∃ t r, entRun alloc g st ctxs calls = some (t, r) ∧ t ≠ [] ∧
      (p = .after → ∀ c, t.head? = some c → isNumChar c = false) ∧
      ∀ b, At b (docIdx p stack) stack →
        Gives floatVal b t (vs.map (readValue floatVal)) (docIdx p' stack') stack' := by
  induction calls generalizing p stack st ctxs vs with
  | nil => exact absurd rfl hne
  | cons call calls ih =>
    obtain ⟨f, e⟩ := call
    obtain ⟨v, p₁, stack₁, vs₁, hstep, hrest, rfl⟩ := docRun_cons h
    obtain ⟨st₁, ctxs₁, hnext, hw₁, htext, hhead, hgives⟩ :=
      @docStep_gives _ floatVal _ _ _ _ _ _ halloc (hflags _ mem_cons_self) hw _ _ _ _ hstep
    cases calls with
    | nil =>
      obtain ⟨rfl, rfl, rfl⟩ : [] = vs₁ ∧ p₁ = p' ∧ stack₁ = stack' := by
        simpa [docRun] using hrest
      refine ⟨_, ({ st₁ with lf := true }, ctxs₁), ?_, htext, hhead, hgives⟩
      rw [entRun, hnext]
      simp only [entRun, append_nil]
    | cons call calls =>
      obtain ⟨t, r, hrun, htne, hthead, hgives'⟩ := ih (cons_ne_nil _ _)
        (fun c hc => hflags c (mem_cons_of_mem _ hc)) hrest hw₁
      refine ⟨entText (f.or g) st ctxs.len e ++ t, r, ?_, ?_, fun hp c hc => ?_, fun b hb => ?_⟩
      · rw [entRun, hnext]
        simp only [hrun]
      · exact append_ne_nil_of_left_ne_nil htext _
      · obtain ⟨x, xs, hx⟩ := exists_cons_of_ne_nil htext
        refine hhead hp c ?_
        rw [hx] at hc ⊢
        exact hc
      have hafter : docIdx p₁ stack₁ = .afterVal → p₁ = .after := by
        cases p₁ with
        | value =>
          intro h
          cases h
        | first =>
          intro h
          simp only [docIdx] at h
          split at h <;> cases h
        | after => exact fun _ => rfl
      exact (hgives b hb).append htne (fun hn => hthead (hafter hn)) hgives'

theorem Reach.stop {a a₁ : Ffjson (List UInt8) δ} {c : UInt8} {cs : List UInt8} {er : FfparsE}
    {again : Bool}
    (h : jsonSwitch listOps (fun _ => true) floatVal a c [c] = some (a₁, er, again))
    (hv : er.verdict = .stop) : Reach floatVal a (c :: cs) [] er a₁ := by
  have hp : jsonByte floatVal a c = some (a₁.atPos a.line (a.ch + 1), er, false) := by
    simp only [jsonByte, jsonPass, jsonSwitch_next h, bind_eq_bind, bind_some, hv]
  exact ⟨1, _, _, jsonRun_stop hp hv⟩

/-- What is read from a text. Where more is asked for behind the last byte, the end of the text is
shown to the parser as a NUL byte, as `ffjson_validate` does. -/
def parseText (alloc : ℕ → Bool) (floatVal : List UInt8 → δ) (n : ℕ) (text : List UInt8) :
    Option (List (JsonEvent δ) × FfparsE) := do
  let (p, es, er) ← feedChunk (ffjsonParse alloc floatVal n) FfparsE.verdict parseEvent n
    (ffjsonParseinit Ffarr.null) text
  if er = .more then
    let (p, er, _) ← ffjsonParse alloc floatVal n p [0]
    some (if er.verdict = .event then es ++ [parseEvent p er] else es, er)
  else some (es, er)

theorem parseText_gives (halloc : ∀ n, alloc n = true) {t : List UInt8} (hne : t ≠ [])
    {vs : List (EventValue δ)}
    (h : Gives floatVal (ffjsonParseinit []) t vs .afterVal []) {n : ℕ}
    (hn : 6 * t.length + 11 ≤ n) :
    ∃ es er, parseText alloc floatVal n t = some (es, er) ∧ er.verdict ≠ .stop ∧
      es.map JsonEvent.value = vs := by
  obtain ⟨es, er, a, es₀, b, ⟨m, l, pos, hrun⟩, hpend, hvs⟩ := h
  obtain ⟨r, htotal⟩ := jsonRun_total floatVal (a := ffjsonParseinit []) trivial .more t le_rfl
  obtain rfl := jsonRun_unique htotal hrun
  obtain ⟨p, hfeed, hrel⟩ := (json_chunkSim halloc id).feedChunk (n := n) (by omega) (.inl hne)
    (⟨Ffarr.null, [], .more, rfl, .of_empty rfl has_null⟩ :
      JsonRel (ffjsonParseinit Ffarr.null) (ffjsonParseinit []) t) htotal n (by omega)
  have hfeed' : feedChunk (ffjsonParse alloc floatVal n) FfparsE.verdict parseEvent n
      (ffjsonParseinit Ffarr.null) t = some (p, es, er) := hfeed
  simp only [parseText, hfeed', bind_eq_bind, bind_some]
  rcases hpend.last rfl with ⟨her, e, rfl⟩ | ⟨her, rfl⟩
  · have hstop : jsonSwitch listOps (fun _ => true) floatVal
        { b with state := .afterVal, nextst := .none } 0 [0] =
          some (jsonCleardata listOps { b with state := .afterVal, nextst := .none }, .ebadchar,
            false) := by
      exact if_pos (congrArg List.length hpend.pos.ctxs)
    have hstop' := fun cs => @Reach.stop _ floatVal _ _ _ cs _ _ hstop rfl
    obtain ⟨m', l', pos', hrun'⟩ := (hpend.settles (fun _ => rfl)
      (hpend.pos.enter rfl (by decide) (hstop' []))).atPos l pos
    obtain ⟨r', htotal'⟩ := jsonRun_total floatVal (jsonRun_atEnd hrun hpend.code).inv .more [0]
      (n := 11) (by decide)
    obtain rfl := jsonRun_unique htotal' hrun'
    have hrel' := hrel hpend.code [0]
    rw [Ffjson.stale_id] at hrel'
    obtain ⟨q, er₁, rest, hcall, hres⟩ := (json_chunkSim halloc id).call (n := n) (by omega) hrel'
      htotal'
    have hcall' : ffjsonParse alloc floatVal n p [0] = some (q, er₁, rest) := hcall
    rw [if_pos her]
    simp only [hcall', bind_some]
    cases hv : er₁.verdict with
    | more =>
      rw [hv] at hres
      cases hres.2.1
    | stop =>
      rw [hv] at hres
      cases hres.1
    | event =>
      rw [hv] at hres
      obtain ⟨a₁, N₁, es₁, -, hes, -⟩ := hres
      obtain ⟨he, -⟩ := List.cons.inj hes
      refine ⟨_, er₁, rfl, by simp [hv], ?_⟩
      rw [if_pos rfl, ← hvs, he]
  · rw [if_neg her]
    exact ⟨es, er, rfl, hpend.code, by rw [← hvs, append_nil]⟩

theorem readValue_int (i : UInt64) :
    readValue floatVal (.val, .int, [], .int (int64 i.toNat)) =
      (.val, .int, [], .int (int64 i.toNat)) ↔ i.toNat ≠ 2 ^ 63 := by
  simp only [readValue]
  by_cases hi : i.toNat = 2 ^ 63
  · have hmin : int64 i.toNat = -2 ^ 63 := by
      rw [hi]
      rfl
    rw [if_pos hmin]
    exact iff_of_false (by simp) (not_not.mpr hi)
  · have hne : int64 i.toNat ≠ -2 ^ 63 := by
      simp only [int64]
      split <;> omega
    rw [if_neg hne]
    exact iff_of_true rfl hi

theorem docStep_read {p p' : DocPos} {stack stack' : List FfjsonT} {e : JsonEntity}
    {v : EventValue δ} (h : docStep p stack e = some (v, p', stack')) :
    readValue floatVal v = v ↔ ∀ i, e = .int i → i.toNat ≠ 2 ^ 63 := by
  have hother : (∀ i, e ≠ .int i) → readValue floatVal v = v →
      (readValue floatVal v = v ↔ ∀ i, e = .int i → i.toNat ≠ 2 ^ 63) :=
    fun hne hv => iff_of_true hv fun i he => absurd he (hne i)
  obtain ⟨-, ⟨-, hval⟩ | ⟨s, -, rfl, rfl, -⟩ | ⟨type, -, htype, -, rfl, rfl, -⟩⟩ := docStep_cases h
  · cases e with
    | int i =>
      cases hval
      exact (readValue_int i).trans (by simp)
    | str s | bool t | null =>
      cases hval
      exact hother (fun _ => JsonEntity.noConfusion) rfl
    | obj close | arr close =>
      cases close with
      | true => cases hval
      | false =>
        cases hval
        exact hother (fun _ => JsonEntity.noConfusion) rfl
    | num s => cases hval
    | other => cases hval
  · exact hother (fun _ => JsonEntity.noConfusion) rfl
  · rcases htype with rfl | rfl <;> exact hother (fun _ => JsonEntity.noConfusion) rfl

theorem docRun_read {es : List JsonEntity} {p p' : DocPos} {stack stack' : List FfjsonT}
    {vs : List (EventValue δ)} (h : docRun p stack es = some (vs, p', stack')) :
    vs.map (readValue floatVal) = vs ↔ ∀ i, .int i ∈ es → i.toNat ≠ 2 ^ 63 := by
  induction es generalizing p stack vs with
  | nil =>
    obtain ⟨rfl, -⟩ : [] = vs ∧ _ := by simpa [docRun] using h
    simp
  | cons e es ih =>
    obtain ⟨v, p₁, stack₁, vs₁, hstep, hrest, rfl⟩ := docRun_cons h
    rw [map_cons, List.cons.injEq, docStep_read hstep, ih hrest]
    simp only [mem_cons]
    constructor
    · rintro ⟨h₁, h₂⟩ i (he | hi)
      · exact h₁ i he.symm
      · exact h₂ i hi
    · intro h
      exact ⟨fun i he => h i (.inl he.symm), fun i hi => h i (.inr hi)⟩

/-- A new writer with a buffer. -/
def newBuf (gflags : JsonF) (cap : ℕ) : FfjsonCook :=
  { newCook gflags with nobuf := false, cap := cap }

/-- **What was written is read back**, for every document and with every kind of whitespace, unless
the least integer is in it. -/
theorem ffjson_roundtrip_iff (halloc : ∀ n, alloc n = true) (floatVal : List UInt8 → δ) {g : JsonF}
    {calls : List (JsonF × JsonEntity)} (hflags : ∀ call ∈ calls, PrettyOnly (call.1.or g))
    {vs : List (EventValue δ)} (hdoc : IsDocument (calls.map Prod.snd) vs) :
    ∃ t, (∀ cap, t.length < cap → ∃ c, addRun alloc (newBuf g cap) calls = some c ∧ c.buf = t) ∧
      ∀ n, 6 * t.length + 11 ≤ n → ∃ es er, parseText alloc floatVal n t = some (es, er) ∧
        er.verdict ≠ .stop ∧
        (es.map JsonEvent.value = vs ↔ ∀ i, .int i ∈ calls.map Prod.snd → i.toNat ≠ 2 ^ 63) := by
  have hne : calls ≠ [] := by
    rintro rfl
    cases hdoc
  have hw : CookAt .value [] CookSt.zero ⟨[], 0⟩ :=
    ⟨Nat.le_refl 0, rfl, rfl, rfl, (fun h => by cases h), (fun h => by cases h)⟩
  obtain ⟨t, ⟨st, ctxs⟩, hrun, htne, -, hgives⟩ :=
    @docRun_gives _ floatVal _ halloc g _ hne hflags _ _ _ _ _ hdoc _ _ hw
  refine ⟨t, fun cap hcap => ⟨_, addRun_eq (c := newBuf g cap) rfl hrun ?_, rfl⟩, fun n hn => ?_⟩
  · simpa [newBuf, newCook] using hcap
  · obtain ⟨es, er, hparse, hns, hes⟩ := parseText_gives halloc htne
      (hgives (ffjsonParseinit []) ⟨rfl, rfl, rfl, rfl, fun _ => rfl⟩) hn
    exact ⟨es, er, hparse, hns, by rw [hes, docRun_read hdoc]⟩

/-- An object with a key and an integer, on lines of their own. -/
theorem ffjson_roundtrip_iff_example :
    ∃ t, (∀ cap, t.length < cap → ∃ c, addRun (fun _ => true)
        (newBuf { JsonF.zero with pretty := true } cap)
        [(JsonF.zero, .obj false), (JsonF.zero, .str [0x61]), (JsonF.zero, .int 5),
          (JsonF.zero, .obj true)] = some c ∧ c.buf = t) ∧
      ∀ n, 6 * t.length + 11 ≤ n → ∃ es er, parseText (fun _ => true) (fun _ => ()) n t =
          some (es, er) ∧ er.verdict ≠ .stop ∧
        (es.map JsonEvent.value = [(.open, .obj, [], .none), (.key, .str, [0x61], .none),
            (.val, .int, [], .int 5), (.close, .obj, [], .none)] ↔
          ∀ i, .int i ∈ [JsonEntity.obj false, .str [0x61], .int 5, .obj true] →
            i.toNat ≠ 2 ^ 63) :=
  ffjson_roundtrip_iff (fun _ => rfl) (fun _ => ())
    (fun call hcall => by
      simp only [mem_cons, not_mem_nil, or_false] at hcall
      rcases hcall with rfl | rfl | rfl | rfl <;> exact ⟨rfl, rfl, rfl, rfl⟩) rfl

/-- The text of the least integer. -/
def leastInt : List UInt8 :=
  [0x2d, 0x39, 0x32, 0x32, 0x33, 0x33, 0x37, 0x32, 0x30, 0x33, 0x36, 0x38, 0x35, 0x34, 0x37, 0x37,
    0x35, 0x38, 0x30, 0x38]

/-- **The least integer** is written as it is, and read as a floating-point number. -/
theorem ffjson_roundtrip_breaks :
    IsDocument [JsonEntity.int 0x8000000000000000] [((.val, .int, [], .int (-2 ^ 63)) : EventValue Unit)] ∧
    ∃ c es er, addRun (fun _ => true) (newBuf JsonF.zero 32) [(JsonF.zero, .int 0x8000000000000000)] = some c ∧
      parseText (fun _ => true) (fun _ => ()) 200 c.buf = some (es, er) ∧
      es.map JsonEvent.value = [(.val, .num, [], .flt (some ()))] ∧
      es.map JsonEvent.value ≠ [(.val, .int, [], .int (-2 ^ 63))] := by
  have hval : int64 (0x8000000000000000 : UInt64).toNat = -2 ^ 63 := by decide
  refine ⟨?_, { newBuf JsonF.zero 32 with buf := leastInt, st := { CookSt.zero with lf := true } },
    [⟨.val, .num, leastInt, .flt (some ()), []⟩], .val, ?_⟩
  · simp only [IsDocument, docRun, docStep, docValue, hval, bind_eq_bind, bind_some]
  · exact ⟨by decide, by decide, rfl, by decide⟩

end Document

end FF
