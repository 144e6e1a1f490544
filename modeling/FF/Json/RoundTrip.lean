import FF.Json.Bufadd
import FF.Json.Validate

/-!
# Reading what the JSON writer writes

What the JSON machine makes of the pieces of text that `ffjson_add` writes. A piece may leave work
for the next byte: a number is only reported with it (`Pending`).
-/

namespace FF

open List

section RoundTrip

variable {δ : Type} {floatVal : List UInt8 → δ}

/-! ### Strings -/

/-- The parser is inside of a string whose bytes so far are `s`. -/
structure InStr (a : Ffjson (List UInt8) δ) (nextst : JsonIdx) (ctxs : List FfjsonT)
    (s : List UInt8) : Prop where
  state : a.state = .quot
  nextst : a.nextst = nextst
  ctxs : a.ctxs = ctxs
  buf : a.buf = s
  esc : a.escUtf16 = false

/-- What a byte that is written with an escape sequence looks like to the parser. -/
structure EscSeq (x : UInt8) (seq : List UInt8) : Prop where
  ne : seq ≠ []
  len : seq.length ≤ 5
  prefixes : ∀ k, k < seq.length → ffjsonUnescapechar (seq.take k) = .incomplete
  char : ffjsonUnescapechar seq = .char x.toUInt32
  basic : ffutf16Basic x.toUInt32 = true
  utf8 : ffutf8Encode1 8 x.toUInt32 = [x]

instance (x : UInt8) (seq : List UInt8) : Decidable (EscSeq x seq) :=
  decidable_of_iff (seq ≠ [] ∧ seq.length ≤ 5 ∧
      (∀ k, k < seq.length → ffjsonUnescapechar (seq.take k) = .incomplete) ∧
      ffjsonUnescapechar seq = .char x.toUInt32 ∧ ffutf16Basic x.toUInt32 = true ∧
      ffutf8Encode1 8 x.toUInt32 = [x])
    ⟨fun ⟨h₁, h₂, h₃, h₄, h₅, h₆⟩ => ⟨h₁, h₂, h₃, h₄, h₅, h₆⟩,
      fun ⟨h₁, h₂, h₃, h₄, h₅, h₆⟩ => ⟨h₁, h₂, h₃, h₄, h₅, h₆⟩⟩

theorem escapeByte_cases (x : UInt8) :
    (escapeByte x = [x] ∧ x ≠ 0x22 ∧ x ≠ 0x5c ∧ x ≠ 0x0a) ∨
    ∃ seq, escapeByte x = 0x5c :: seq ∧ EscSeq x seq := by
  unfold escapeByte
  by_cases h1 : x ∈ escbyte.take 7
  · have hall : (escbyte.take 7).all
        (fun x => EscSeq x [escchar.getD (escbyte.idxOf x) 0]) = true := rfl
    rw [if_pos h1]
    exact .inr ⟨_, rfl, of_decide_eq_true (all_eq_true.mp hall x h1)⟩
  rw [if_neg h1]
  by_cases h2 : x < 0x20 ∨ x = 0x7f
  · rw [if_pos h2]
    refine .inr ⟨_, rfl, ?_⟩
    rcases h2 with h2 | rfl
    · have hall : ∀ n < 32, EscSeq (UInt8.ofNat n)
          ([0x75, 0x30, 0x30] ++ ffsHexbyte (UInt8.ofNat n) ffHEX) := by decide
      have := hall x.toNat (by simpa [UInt8.lt_iff_toNat_lt] using h2)
      rwa [UInt8.ofNat_toNat] at this
    · decide
  · rw [if_neg h2]
    have hmem : ∀ y ∈ escbyte.take 7, x ≠ y := fun y hy hxy => h1 (hxy ▸ hy)
    exact .inl ⟨rfl, hmem _ (by decide), hmem _ (by decide), hmem _ (by decide)⟩

theorem reach_escSeq {x : UInt8} {seq : List UInt8} (h : EscSeq x seq) {pre rest : List UInt8}
    (hseq : pre ++ rest = seq) (hrest : rest ≠ []) {a : Ffjson (List UInt8) δ}
    {nextst : JsonIdx} {ctxs : List FfjsonT} {s : List UInt8} (hst : a.state = .quotEsc)
    (hesc : a.esc = pre) (ha : InStr { a with state := .quot } nextst ctxs s) :
    ∃ a', Reach floatVal a rest [] .more a' ∧ InStr a' nextst ctxs (s ++ [x]) := by
  induction rest generalizing pre a with
  | nil => exact absurd rfl hrest
  | cons c rest ih =>
    have hlen : pre.length + (rest.length + 1) = seq.length := by
      rw [← hseq, length_append, length_cons]
    have hmax := h.len
    have hsw : jsonSwitch listOps (fun _ => true) floatVal a c [c] =
        some ((hdlEsc listOps a c).1, (hdlEsc listOps a c).2, false) := by
      simp only [jsonSwitch, hst]
    simp only [hdlEsc, hesc] at hsw
    rw [if_neg (by omega)] at hsw
    cases rest with
    | nil =>
      simp only [hseq, h.char, h.basic, if_true, escPut, store_listOps, h.utf8] at hsw
      exact ⟨_, .more hsw, rfl, ha.nextst, ha.ctxs, by simp only [← ha.buf], ha.esc⟩
    | cons c' rest =>
      have hsplit : seq = pre ++ [c] ++ c' :: rest := by
        rw [← hseq, append_assoc]
        rfl
      have htake : seq.take (pre ++ [c]).length = pre ++ [c] := by
        rw [hsplit, take_left]
      have hinc := h.prefixes (pre ++ [c]).length (by
        rw [length_append, length_singleton]
        rw [length_cons] at hlen
        omega)
      rw [htake] at hinc
      simp only [hinc] at hsw
      obtain ⟨a', hreach, ha'⟩ := ih hsplit.symm (cons_ne_nil _ _)
        (a := { a with esc := pre ++ [c] }) hst rfl
        ⟨rfl, ha.nextst, ha.ctxs, ha.buf, ha.esc⟩
      exact ⟨a', .cons hsw hreach, ha'⟩

theorem reach_escapeByte {a : Ffjson (List UInt8) δ} {nextst : JsonIdx} {ctxs : List FfjsonT}
    {s : List UInt8} (ha : InStr a nextst ctxs s) (x : UInt8) :
    ∃ a', Reach floatVal a (escapeByte x) [] .more a' ∧ InStr a' nextst ctxs (s ++ [x]) := by
  have hsw : ∀ c, jsonSwitch listOps (fun _ => true) floatVal a c [c] =
      some (plain (hdlQuote listOps a c [c])) := by
    intro c
    simp only [jsonSwitch, ha.state]
  rcases escapeByte_cases x with ⟨hx, h1, h2, h3⟩ | ⟨seq, hx, hseq⟩
  · refine ⟨{ a with buf := a.buf ++ [x] }, ?_, ha.state, ha.nextst, ha.ctxs, ?_, ha.esc⟩
    · rw [hx]
      refine .more ((hsw x).trans ?_)
      simp only [plain, hdlQuote, quoteChar, if_neg h1, if_neg h2, if_neg h3, addByte_listOps,
        ha.esc]
      rfl
    · simp only [ha.buf]
  have hquote : jsonSwitch listOps (fun _ => true) floatVal a 0x5c [0x5c] =
      some ({ a with esc := [], state := .quotEsc }, .more, false) := by
    refine (hsw 0x5c).trans ?_
    simp [plain, hdlQuote, quoteChar]
  obtain ⟨a', hreach, ha'⟩ := @reach_escSeq _ floatVal _ _ hseq [] _ rfl hseq.ne
    { a with esc := [], state := .quotEsc } _ _ _ rfl rfl ⟨rfl, ha.nextst, ha.ctxs, ha.buf, ha.esc⟩
  rw [hx]
  exact ⟨a', .cons hquote hreach, ha'⟩

/-- **An escaped string** is read back. -/
theorem reach_escapeText {a : Ffjson (List UInt8) δ} {nextst : JsonIdx} {ctxs : List FfjsonT}
    {s : List UInt8} (ha : InStr a nextst ctxs s) (t : List UInt8) :
    ∃ a', Reach floatVal a (escapeText t) [] .more a' ∧ InStr a' nextst ctxs (s ++ t) := by
  induction t generalizing a s with
  | nil => exact ⟨a, .nil a, by rwa [append_nil]⟩
  | cons x t ih =>
    obtain ⟨a₁, h₁, ha₁⟩ := @reach_escapeByte _ floatVal _ _ _ _ ha x
    obtain ⟨a', h', ha'⟩ := ih ha₁
    refine ⟨a', h₁.append (by simp [FfparsE.verdict]) (.inr rfl) h', ?_⟩
    rwa [append_assoc] at ha'

theorem reach_quote {a : Ffjson (List UInt8) δ} {nextst : JsonIdx} {ctxs : List FfjsonT}
    {s : List UInt8} (ha : InStr a nextst ctxs s) :
    Reach floatVal a [0x22]
      [jsonEvent { a with type := .str, state := .iwspace, nextst := if nextst = .key then .afterKey
        else .afterVal } s (if nextst = .key then .key else .val)]
      (if nextst = .key then .key else .val)
      { a with type := .str, state := .iwspace, nextst := if nextst = .key then .afterKey
        else .afterVal } := by
  have hsw : jsonSwitch listOps (fun _ => true) floatVal a 0x22 [0x22] =
      some (plain (hdlQuote listOps a 0x22 [0x22])) := by
    simp only [jsonSwitch, ha.state]
  simp only [plain, hdlQuote, quoteChar, if_true, ha.nextst, ha.esc] at hsw
  rw [← ha.buf]
  by_cases hk : nextst = .key
  · simp only [if_pos hk, ha.esc, Bool.false_eq_true, false_and, if_false] at hsw ⊢
    exact .event hsw rfl
  · simp only [if_neg hk, ha.esc, Bool.false_eq_true, false_and, if_false] at hsw ⊢
    exact .event hsw rfl

/-! ### What a piece of text gives -/

/-- The code, the type and the value of an event. -/
abbrev EventValue (δ : Type) := FfparsE × FfjsonT × List UInt8 × JsonNum δ

/-- The text of an event belongs to its value if it is a string. -/
def JsonEvent.value (e : JsonEvent δ) : EventValue δ :=
  (e.code, e.type, if e.type = .str then e.val else [], e.num)

/-- The parser skips whitespace and goes on at `n`, in the contexts `stack`. -/
structure At (b : Ffjson (List UInt8) δ) (n : JsonIdx) (stack : List FfjsonT) : Prop where
  state : b.state = .iwspace
  nextst : b.nextst = n
  ctxs : b.ctxs = stack
  esc : b.escUtf16 = false
  buf : bufUse .iwspace n = .empty → b.buf = []

/-- The state `a` gives the events `es₀` as soon as the next byte is seen, and goes on as `b`. The
byte must not continue a number. -/
def Settles (floatVal : List UInt8 → δ) (a : Ffjson (List UInt8) δ) (es₀ : List (JsonEvent δ))
    (b : Ffjson (List UInt8) δ) : Prop :=
  ∀ {c cs es er a'}, (es₀ ≠ [] → isNumChar c = false) → Reach floatVal b (c :: cs) es er a' →
    Reach floatVal a (c :: cs) (es₀ ++ es) er a'

/-- Behind a piece of text with the last code `er`: a number is still to be reported, or nothing
is. -/
structure Pending (floatVal : List UInt8 → δ) (a : Ffjson (List UInt8) δ) (er : FfparsE)
    (es₀ : List (JsonEvent δ)) (b : Ffjson (List UInt8) δ) (n : JsonIdx)
    (stack : List FfjsonT) : Prop where
  settles : Settles floatVal a es₀ b
  pos : At b n stack
  code : er.verdict ≠ .stop
  last : n = .afterVal → (er = .more ∧ ∃ e, es₀ = [e]) ∨ (er ≠ .more ∧ es₀ = [])
  number : es₀ ≠ [] → n = .afterVal

/-- The text `t` gives events with the values `vs`, and leads to `n` in the contexts `stack`. -/
def Gives (floatVal : List UInt8 → δ) (b : Ffjson (List UInt8) δ) (t : List UInt8)
    (vs : List (EventValue δ)) (n : JsonIdx) (stack : List FfjsonT) : Prop :=
  ∃ es er a' es₀ b', Reach floatVal b t es er a' ∧ Pending floatVal a' er es₀ b' n stack ∧
    (es ++ es₀).map JsonEvent.value = vs

section Gives

variable {b b₁ : Ffjson (List UInt8) δ} {t t' w : List UInt8} {vs vs' : List (EventValue δ)}
  {n n' : JsonIdx} {stack stack' : List FfjsonT}

/-- **One piece after another.** -/
theorem Gives.append (h : Gives floatVal b t vs n stack) (ht' : t' ≠ [])
    (hhead : n = .afterVal → ∀ c, t'.head? = some c → isNumChar c = false)
    (h' : ∀ b₁, At b₁ n stack → Gives floatVal b₁ t' vs' n' stack') :
    Gives floatVal b (t ++ t') (vs ++ vs') n' stack' := by
  obtain ⟨es, er, a, es₀, b₁, hreach, hpend, rfl⟩ := h
  obtain ⟨es', er', a', es₀', b', hreach', hpend', rfl⟩ := h' b₁ hpend.pos
  obtain ⟨c, cs, rfl⟩ := exists_cons_of_ne_nil ht'
  have hnext : Reach floatVal a (c :: cs) (es₀ ++ es') er' a' :=
    hpend.settles (fun hne => hhead (hpend.number hne) c rfl) hreach'
  exact ⟨_, er', a', es₀', b', hreach.append hpend.code (.inl ht') hnext, hpend', by simp⟩

theorem Gives.skip (hw : Reach floatVal b w [] .more b₁) (h : Gives floatVal b₁ t vs n stack) :
    Gives floatVal b (w ++ t) vs n stack := by
  obtain ⟨es, er, a', es₀, b', hreach, hpend, hvs⟩ := h
  exact ⟨es, er, a', es₀, b', hw.append (by simp [FfparsE.verdict]) (.inr rfl) hreach, hpend, hvs⟩

theorem Settles.refl (a : Ffjson (List UInt8) δ) : Settles floatVal a [] a := fun _ h => h

theorem Settles.again {a b : Ffjson (List UInt8) δ}
    (h : ∀ c, jsonSwitch listOps (fun _ => true) floatVal a c [c] = some (b, .more, true)) :
    Settles floatVal a [] b := fun _ hr => .again (h _) hr

theorem gives_event {es : List (JsonEvent δ)} {er : FfparsE} {a' b' : Ffjson (List UInt8) δ}
    (hreach : Reach floatVal b t es er a') (hv : er.verdict = .event)
    (hsettles : Settles floatVal a' [] b') (hat : At b' n stack) :
    Gives floatVal b t (es.map JsonEvent.value) n stack := by
  have hne : er ≠ .more := by
    rintro rfl
    cases hv
  exact ⟨es, er, a', [], b', hreach,
    ⟨@hsettles, hat, by simp [hv], fun _ => .inr ⟨hne, rfl⟩, fun h => absurd rfl h⟩,
    by rw [append_nil]⟩

theorem At.enter (h : At b n stack) {c : UInt8} (hws : ffcharIswhitespace c = false)
    (hslash : c ≠ 0x2f) {cs : List UInt8} {es : List (JsonEvent δ)} {er : FfparsE}
    {a' : Ffjson (List UInt8) δ}
    (hr : Reach floatVal { b with state := n, nextst := .none } (c :: cs) es er a') :
    Reach floatVal b (c :: cs) es er a' := by
  refine .again ?_ hr
  simp only [jsonSwitch, h.state, h.nextst]
  rw [if_neg (by simp [hws]), if_neg hslash]

theorem Reach.congr {a a₂ a' : Ffjson (List UInt8) δ} {c : UInt8} {cs : List UInt8}
    {es : List (JsonEvent δ)} {er : FfparsE} {r : PassRes (List UInt8) δ}
    (h : jsonSwitch listOps (fun _ => true) floatVal a c [c] = some r)
    (h₂ : jsonSwitch listOps (fun _ => true) floatVal a₂ c [c] = some r)
    (hline : a.line = a₂.line) (hch : a.ch = a₂.ch) (hr : Reach floatVal a₂ (c :: cs) es er a') :
    Reach floatVal a (c :: cs) es er a' := by
  have hp : jsonByte floatVal a c = jsonByte floatVal a₂ c := by
    simp only [jsonByte, jsonPass, jsonSwitch_next h, jsonSwitch_next h₂]
    rw [hline, hch]
  obtain ⟨n, l, p, hr⟩ := hr
  refine ⟨n, l, p, ?_⟩
  cases n with
  | zero => exact hr
  | succ n =>
    simp only [jsonRun, byteRun, hp] at hr ⊢
    exact hr

/-- A value: `iValFirst` goes on as `iVal`. -/
theorem At.enterVal (h : At b n stack) (hn : n = .val ∨ n = .valFirst) {c : UInt8}
    (hws : ffcharIswhitespace c = false) (hslash : c ≠ 0x2f) (hclose : c ≠ 0x5d) {cs : List UInt8}
    {es : List (JsonEvent δ)} {er : FfparsE} {a' : Ffjson (List UInt8) δ}
    (hr : Reach floatVal { b with state := .val, nextst := .none } (c :: cs) es er a') :
    Reach floatVal b (c :: cs) es er a' := by
  refine h.enter hws hslash ?_
  rcases hn with rfl | rfl
  · exact hr
  have hfirst : jsonSwitch listOps (fun _ => true) floatVal
      { b with state := .valFirst, nextst := .none } c [c] =
        some (caseVal { b with state := .val, nextst := .none } c) := by
    simp only [jsonSwitch]
    rw [if_neg hclose]
  exact @Reach.congr _ floatVal _ { b with state := .val, nextst := .none } _ _ _ _ _ _ hfirst rfl
    rfl rfl hr

/-- A key: `iKeyFirst` goes on as `iKey`. -/
theorem At.enterKey (h : At b n stack) (hn : n = .key ∨ n = .keyFirst) {cs : List UInt8}
    {es : List (JsonEvent δ)} {er : FfparsE} {a' : Ffjson (List UInt8) δ}
    (hr : Reach floatVal { b with state := .key, nextst := .none } (0x22 :: cs) es er a') :
    Reach floatVal b (0x22 :: cs) es er a' := by
  refine h.enter rfl (by decide) ?_
  rcases hn with rfl | rfl
  · exact hr
  · have hfirst : jsonSwitch listOps (fun _ => true) floatVal
        { b with state := .keyFirst, nextst := .none } 0x22 [0x22] =
          some (caseKey { b with state := .key, nextst := .none } 0x22) := rfl
    exact @Reach.congr _ floatVal _ { b with state := .key, nextst := .none } _ _ _ _ _ _ hfirst rfl
      rfl rfl hr

theorem gives_none {a' : Ffjson (List UInt8) δ} (hreach : Reach floatVal b t [] .more a')
    (hat : At a' n stack) (hn : n ≠ .afterVal) : Gives floatVal b t [] n stack :=
  ⟨[], .more, a', [], a', hreach,
    ⟨Settles.refl a', hat, by simp [FfparsE.verdict], fun h => absurd h hn, fun h => absurd rfl h⟩,
    rfl⟩

theorem At.buf_nil (h : At b n stack)
    (hn : n = .val ∨ n = .valFirst ∨ n = .key ∨ n = .keyFirst) : b.buf = [] := by
  refine h.buf ?_
  rcases hn with rfl | rfl | rfl | rfl <;> rfl

/-! ### Strings and keys -/

theorem gives_quoted (hb : InStr { b with state := .quot } n stack []) (s : List UInt8) :
    Gives floatVal { b with state := .quotFirst } (escapeText s ++ [0x22])
      [(if n = .key then .key else .val, .str, s, .none)]
      (if n = .key then .afterKey else .afterVal) stack := by
  obtain ⟨a, hreach, ha⟩ := @reach_escapeText _ floatVal _ _ _ _ hb s
  rw [nil_append] at ha
  have hquot := hreach.append (by simp [FfparsE.verdict]) (.inr rfl) (reach_quote ha)
  obtain ⟨c, cs, hc⟩ := exists_cons_of_ne_nil
    (append_ne_nil_of_right_ne_nil (escapeText s) (cons_ne_nil (0x22 : UInt8) []))
  have hfirst : jsonSwitch listOps (fun _ => true) floatVal { b with state := .quotFirst } c [c] =
      some (plain (hdlQuote listOps { b with state := .quot } c [c])) := rfl
  rw [hc] at hquot ⊢
  have hall := @Reach.congr _ floatVal _ { b with state := .quot } _ _ _ _ _ _ hfirst rfl rfl rfl
    hquot
  have hv : (if n = .key then FfparsE.key else .val).verdict = .event := by
    split <;> rfl
  refine gives_event hall hv (Settles.refl _) ⟨rfl, rfl, ha.ctxs, ha.esc, fun h => ?_⟩
  split at h <;> cases h

/-- **A string** is a value. -/
theorem gives_str (h : At b n stack) (hn : n = .val ∨ n = .valFirst) (s : List UInt8) :
    Gives floatVal b (0x22 :: (escapeText s ++ [0x22])) [(.val, .str, s, .none)] .afterVal stack := by
  obtain ⟨es, er, a', es₀, b', hreach, hpend, hvs⟩ :=
    @gives_quoted _ floatVal { b with nextst := .val } _ _
      ⟨rfl, rfl, h.ctxs, h.buf_nil (by tauto), h.esc⟩ s
  refine ⟨es, er, a', es₀, b', h.enterVal hn rfl (by decide) (by decide) ?_, hpend, hvs⟩
  exact .cons rfl hreach

/-- **A key** and its separator. -/
theorem gives_key (h : At b n stack) (hn : n = .key ∨ n = .keyFirst) (s : List UInt8)
    {sep : List UInt8} (hsep : sep = [0x3a] ∨ sep = [0x3a, 0x20]) :
    Gives floatVal b (0x22 :: (escapeText s ++ [0x22]) ++ sep) [(.key, .str, s, .none)] .val
      stack := by
  have hkey : Gives floatVal b (0x22 :: (escapeText s ++ [0x22])) [(.key, .str, s, .none)] .afterKey
      stack := by
    obtain ⟨es, er, a', es₀, b', hreach, hpend, hvs⟩ :=
      @gives_quoted _ floatVal { b with nextst := .key } _ _
        ⟨rfl, rfl, h.ctxs, h.buf_nil (by tauto), h.esc⟩ s
    exact ⟨es, er, a', es₀, b', h.enterKey hn (.cons rfl hreach), hpend, hvs⟩
  have hcolon : ∀ b₁ : Ffjson (List UInt8) δ, At b₁ .afterKey stack → ∀ cs es er a',
      Reach floatVal (jsonCleardata listOps { b₁ with state := .iwspace, nextst := .val }) cs es er
        a' → Reach floatVal b₁ (0x3a :: cs) es er a' := by
    intro b₁ h₁ cs es er a' hr
    exact h₁.enter rfl (by decide) (.cons rfl hr)
  have hne : sep ≠ [] := by
    rcases hsep with rfl | rfl <;> exact cons_ne_nil _ _
  refine hkey.append hne (fun hn => by cases hn) fun b₁ h₁ => ?_
  have hat : At (jsonCleardata listOps { b₁ with state := .iwspace, nextst := .val }) .val stack :=
    ⟨rfl, rfl, h₁.ctxs, h₁.esc, fun _ => rfl⟩
  rcases hsep with rfl | rfl
  · exact gives_none (hcolon b₁ h₁ _ _ _ _ (.nil _)) hat (by decide)
  · exact gives_none (hcolon b₁ h₁ _ _ _ _ (.more rfl)) hat (by decide)

/-! ### Brackets -/

/-- The bracket that opens a context. -/
def openCh (type : FfjsonT) : UInt8 := if type = .arr then 0x5b else 0x7b

/-- The bracket that closes a context. -/
def closeCh (type : FfjsonT) : UInt8 := if type = .arr then 0x5d else 0x7d

/-- Where the parser waits behind an opening bracket. -/
def firstIdx (type : FfjsonT) : JsonIdx := if type = .arr then .valFirst else .keyFirst

/-- **An opening bracket.** -/
theorem gives_open (h : At b n stack) (hn : n = .val ∨ n = .valFirst) {type : FfjsonT}
    (htype : type = .arr ∨ type = .obj) :
    Gives floatVal b [openCh type] [(.open, type, [], .none)] (firstIdx type) (type :: stack) := by
  have hbuf := h.buf_nil (by tauto)
  have hsettles : Settles floatVal { b with state := .newCtx, type := type, nextst := firstIdx type } []
      { b with
        state := .iwspace
        type := type
        nextst := firstIdx type
        ctxs := type :: b.ctxs
        ctxsCap := if b.ctxsCap < b.ctxs.length + 1 then b.ctxs.length + 1 else b.ctxsCap } := by
    refine Settles.again fun c => ?_
    simp only [jsonSwitch, caseNewCtx]
    rw [if_neg (by simp)]
  have hreach : Reach floatVal b [openCh type]
      [jsonEvent { b with state := .newCtx, type := type, nextst := firstIdx type } b.buf .open] .open
      { b with state := .newCtx, type := type, nextst := firstIdx type } := by
    rcases htype with rfl | rfl
    · exact h.enterVal hn rfl (by decide) (by decide) (.event rfl rfl)
    · exact h.enterVal hn rfl (by decide) (by decide) (.event rfl rfl)
  have hgives := gives_event hreach rfl hsettles
    ⟨rfl, rfl, congrArg (type :: ·) h.ctxs, h.esc, fun _ => hbuf⟩
  rcases htype with rfl | rfl <;> exact hgives

/-- Where a closing bracket may stand. -/
def MayClose (n : JsonIdx) (type : FfjsonT) : Prop := n = .afterVal ∨ n = firstIdx type

/-- **A closing bracket.** -/
theorem gives_close {type : FfjsonT} (htype : type = .arr ∨ type = .obj)
    (h : At b n (type :: stack)) (hn : MayClose n type) :
    Gives floatVal b [closeCh type] [(.close, type, [], .none)] .afterVal stack := by
  have hws : ffcharIswhitespace (closeCh type) = false ∧ closeCh type ≠ 0x2f ∧
      closeCh type ≠ 0x2c := by
    rcases htype with rfl | rfl <;> decide
  have hbrace : ∀ p : Ffjson (List UInt8) δ, p.ctxs = type :: stack →
      caseCloseBrace p (closeCh type) = some ({ p with state := .rmCtx, type := type }, .close, false) := by
    intro p hp
    have htop : (if closeCh type = 0x5d then FfjsonT.arr else .obj) = type := by
      rcases htype with rfl | rfl <;> rfl
    simp only [caseCloseBrace, hp, htop]
    rw [if_neg (by simp), if_neg (by simp)]
  have hfrom : ∃ p : Ffjson (List UInt8) δ, p.ctxs = type :: stack ∧ p.escUtf16 = false ∧
      Reach floatVal b [closeCh type]
        [jsonEvent { p with state := .rmCtx, type := type } p.buf .close] .close
        { p with state := .rmCtx, type := type } := by
    rcases hn with rfl | hn
    · refine ⟨jsonCleardata listOps { b with state := .closeBrace, nextst := .none }, h.ctxs, h.esc, ?_⟩
      obtain ⟨p, hp⟩ : ∃ p, p = jsonCleardata listOps { b with state := .afterVal, nextst := .none } :=
        ⟨_, rfl⟩
      have hctxs : p.ctxs = type :: stack := by
        rw [hp]
        exact h.ctxs
      have hmatch : ¬(closeCh type ≠ 0x5d ∧ closeCh type ≠ 0x7d) := by
        rcases htype with rfl | rfl <;> decide
      have hcase : caseAfterVal listOps { b with state := .afterVal, nextst := .none }
          (closeCh type) = caseCloseBrace { p with state := .closeBrace } (closeCh type) := by
        simp only [caseAfterVal, ← hp]
        rw [if_neg (by simp [hctxs]), if_neg hws.2.2, if_neg hmatch]
      refine h.enter hws.1 hws.2.1 (.event ?_ rfl)
      refine hcase.trans ?_
      rw [hp]
      exact hbrace { jsonCleardata listOps { b with state := .afterVal, nextst := .none } with
        state := .closeBrace } h.ctxs
    refine ⟨{ b with state := .closeBrace, nextst := .none }, h.ctxs, h.esc, ?_⟩
    refine h.enter hws.1 hws.2.1 ?_
    have hclose : jsonSwitch listOps (fun _ => true) floatVal
        { b with state := .closeBrace, nextst := .none } (closeCh type) [closeCh type] =
          some ({ b with state := .rmCtx, nextst := .none, type := type }, .close, false) :=
      hbrace { b with state := .closeBrace, nextst := .none } h.ctxs
    refine Reach.again ?_ (.event hclose rfl)
    rcases htype with rfl | rfl <;> rw [hn] <;> rfl
  obtain ⟨p, hctxs, hesc, hreach⟩ := hfrom
  have hsettles : Settles floatVal { p with state := .rmCtx, type := type } []
      { p with state := .iwspace, type := type, nextst := .afterVal, ctxs := p.ctxs.tail } :=
    Settles.again fun c => rfl
  have hgives := gives_event hreach rfl hsettles
    ⟨rfl, rfl, by rw [hctxs, tail_cons], hesc, fun h => by cases h⟩
  rcases htype with rfl | rfl <;> exact hgives

/-! ### Words and integers -/

/-- What is read for a word. -/
def wordValue (i : ℕ) : EventValue δ :=
  (.val, wordType.getD i .null, [], if i = 2 then .none else .int (if i = 0 then 1 else 0))

theorem reach_word {i : ℕ} (hi : i < 3) (hword : ffjsonWords.getD i [] = w)
    {p q : Ffjson (List UInt8) δ}
    (hq : q = { p with
      state := .iwspace
      nextst := .afterVal
      type := wordType.getD i .null
      intval := if i = 0 then 1 else 0
      barevalIdx := UInt32.ofNat i
      buf := w })
    {pre rest : List UInt8} (hw : w = pre ++ rest) (hrest : rest ≠ []) :
    Reach floatVal { p with state := .valBare, barevalIdx := UInt32.ofNat i, buf := pre } rest
      [jsonEvent q q.buf .val] .val q := by
  induction rest generalizing pre with
  | nil => exact absurd rfl hrest
  | cons c rest ih =>
    have hidx : (UInt32.ofNat i).toNat = i := by
      rw [UInt32.toNat_ofNat']
      exact Nat.mod_eq_of_lt (by omega)
    have hall : w.all (· != 0) = true := by
      rw [← hword]
      obtain rfl | rfl | rfl : i = 0 ∨ i = 1 ∨ i = 2 := by omega
      all_goals rfl
    have hnz : ∀ x ∈ w, x ≠ 0 := fun x hx => bne_iff_ne.mp (all_eq_true.mp hall x hx)
    have hlen : listOps.len (pre ++ [c].take 1) - 1 = pre.length := by
      simp
    have hchar : w.getD pre.length 0 = c := by
      rw [hw]
      simp
    have hnext : w.getD (pre.length + 1) 0 = rest.getD 0 0 := by
      rw [hw]
      simp [getElem?_append_right]
    obtain ⟨a, ha⟩ : ∃ a, a = { p with
      state := .valBare
      barevalIdx := UInt32.ofNat i
      buf := pre } := ⟨_, rfl⟩
    have hst : a.state = .valBare ∧ a.barevalIdx = UInt32.ofNat i ∧ a.buf = pre := by
      rw [ha]
      exact ⟨rfl, rfl, rfl⟩
    have hsw : jsonSwitch listOps (fun _ => true) floatVal a c [c] =
        some (afterBare (hdlValBare listOps a c [c]) false) := by
      simp only [jsonSwitch, hst.1]
    simp only [hdlValBare, addByte_listOps, hst.2.1, hst.2.2, hidx, hword, hlen, hchar, hnext] at hsw
    rw [if_neg (by simp)] at hsw
    cases rest with
    | nil =>
      have hnil : ([] : List UInt8).getD 0 0 = 0 := rfl
      rw [if_pos hnil] at hsw
      rw [← ha]
      refine .event (hsw.trans ?_) rfl
      rw [hq, ha, hw]
      rfl
    | cons c' rest =>
      have hc' : ¬(c' :: rest).getD 0 0 = 0 := hnz c' (by rw [hw]; simp)
      rw [if_neg hc'] at hsw
      have hrec := @ih (pre ++ [c]) (by rw [hw]; simp) (cons_ne_nil _ _)
      rw [← ha]
      refine .cons (hsw.trans ?_) hrec
      rw [ha]
      rfl

/-- **`true`, `false` and `null`.** -/
theorem gives_word (h : At b n stack) (hn : n = .val ∨ n = .valFirst) {i : ℕ} (hi : i < 3) :
    Gives floatVal b (ffjsonWords.getD i []) [wordValue i] .afterVal stack := by
  obtain ⟨c, cs, hw, hstart⟩ : ∃ c cs, ffjsonWords.getD i [] = c :: cs ∧
      ffcharIswhitespace c = false ∧ c ≠ 0x2f ∧ c ≠ 0x5d ∧ c ≠ 0x22 ∧ ¬(c = 0x5b ∨ c = 0x7b) ∧
      valBareType c = UInt32.ofNat i + 1 ∧ UInt32.ofNat i + 1 ≠ 0 := by
    obtain rfl | rfl | rfl : i = 0 ∨ i = 1 ∨ i = 2 := by omega
    · exact ⟨_, _, rfl, by decide⟩
    · exact ⟨_, _, rfl, by decide⟩
    · exact ⟨_, _, rfl, by decide⟩
  obtain ⟨hws, hslash, hclose, hquote, hopen, hbare, hidx⟩ := hstart
  obtain ⟨q, hq⟩ : ∃ q : Ffjson (List UInt8) δ, q =
      { b with
        state := .iwspace
        nextst := .afterVal
        type := wordType.getD i .null
        intval := if i = 0 then 1 else 0
        barevalIdx := UInt32.ofNat i
        buf := c :: cs } := ⟨_, rfl⟩
  have hrest := @reach_word _ floatVal _ i hi hw { b with state := .val, nextst := .none } q hq
    [] _ rfl (cons_ne_nil _ _)
  have hreach : Reach floatVal b (ffjsonWords.getD i []) [jsonEvent q q.buf .val] .val q := by
    rw [hw]
    refine h.enterVal hn hws hslash hclose (.again ?_ hrest)
    simp only [jsonSwitch, caseVal]
    rw [if_neg hquote, if_neg hopen, hbare, if_pos hidx, ← h.buf_nil (by tauto)]
    simp
  have hat : At q .afterVal stack := by
    rw [hq]
    exact ⟨rfl, rfl, h.ctxs, h.esc, fun h => by cases h⟩
  have hgives := gives_event hreach rfl (Settles.refl q) hat
  rw [hq] at hgives
  obtain rfl | rfl | rfl : i = 0 ∨ i = 1 ∨ i = 2 := by omega
  · exact hgives
  · exact hgives
  · exact hgives

/-- What is read for an integer: the least one is taken for a floating-point number. -/
def intValue (floatVal : List UInt8 → δ) (i : UInt64) : EventValue δ :=
  if i.toNat = 2 ^ 63 then (.val, .num, [], .flt (some (floatVal (ffsFromint i.toNat 64 true))))
  else (.val, .int, [], .int (int64 i.toNat))

theorem isNumChar_fromint (i : UInt64) : ffsFromint i.toNat 64 true ≠ [] ∧
    ∀ c ∈ ffsFromint i.toNat 64 true, isNumChar c = true := by
  obtain ⟨ds, htext, hne, -, hdig, -⟩ :=
    ffsFromint_spec i.toNat_lt (by decide : 32 ≤ 64)
  rw [htext]
  refine ⟨append_ne_nil_of_right_ne_nil _ hne, fun c hc => ?_⟩
  rcases mem_append.mp hc with hc | hc
  · split at hc
    · cases hc
    · obtain rfl := mem_singleton.mp hc
      rfl
  · simp [isNumChar, hdig c hc]

theorem isNumChar_first {c : UInt8} (h : isNumChar c = true) :
    ffcharIswhitespace c = false ∧ c ≠ 0x2f ∧ c ≠ 0x5d ∧ c ≠ 0x22 ∧ ¬(c = 0x5b ∨ c = 0x7b) ∧
      valBareType c = 0 := by
  have hall : ∀ n < 256, isNumChar (UInt8.ofNat n) = true →
      ffcharIswhitespace (UInt8.ofNat n) = false ∧ UInt8.ofNat n ≠ 0x2f ∧ UInt8.ofNat n ≠ 0x5d ∧
        UInt8.ofNat n ≠ 0x22 ∧ ¬(UInt8.ofNat n = 0x5b ∨ UInt8.ofNat n = 0x7b) ∧
        valBareType (UInt8.ofNat n) = 0 := by
    decide +kernel
  have := hall c.toNat c.toNat_lt
  rw [UInt8.ofNat_toNat] at this
  exact this h

theorem reach_number {a : Ffjson (List UInt8) δ} (hst : a.state = .valBareNum) {ds : List UInt8}
    (hds : ∀ c ∈ ds, isNumChar c = true) :
    Reach floatVal a ds [] .more { a with buf := a.buf ++ ds } := by
  induction ds generalizing a with
  | nil =>
    rw [append_nil]
    exact .nil a
  | cons c ds ih =>
    have hsw : jsonSwitch listOps (fun _ => true) floatVal a c [c] =
        some ({ a with buf := a.buf ++ [c] }, .more, false) := by
      simp only [jsonSwitch, hst, hdlValBareNum, hds c mem_cons_self, Bool.not_true]
      rw [if_neg Bool.false_ne_true, addByte_listOps]
      simp only [afterBare, take_succ_cons, take_zero]
      rw [if_neg (by simp), ← hst]
    have hrest := @ih { a with buf := a.buf ++ [c] } hst
      fun d hd => hds d (mem_cons_of_mem _ hd)
    simp only [append_assoc, singleton_append] at hrest
    exact .cons hsw hrest

/-- **An integer** is reported with the next byte. -/
theorem gives_int (h : At b n stack) (hn : n = .val ∨ n = .valFirst) (i : UInt64) :
    Gives floatVal b (ffsFromint i.toNat 64 true) [intValue floatVal i] .afterVal stack := by
  obtain ⟨hne, hnum⟩ := isNumChar_fromint i
  have hback := ffsToint_fromint i.toNat_lt (by decide : 32 ≤ 64)
  have hmin : i.toNat = 2 ^ 63 → ffsTofloat (ffsFromint i.toNat 64 true) =
      some (ffsFromint i.toNat 64 true).length := by
    intro hi
    rw [hi]
    decide
  simp only [intValue]
  obtain ⟨t, ht⟩ : ∃ t, t = ffsFromint i.toNat 64 true := ⟨_, rfl⟩
  rw [← ht] at hne hnum hback hmin ⊢
  obtain ⟨a, ha⟩ : ∃ a : Ffjson (List UInt8) δ,
    a = { b with state := .valBareNum, nextst := .none, barevalIdx := 0 - 1, buf := t } := ⟨_, rfl⟩
  have hreach : Reach floatVal b t [] .more a := by
    obtain ⟨c, cs, rfl⟩ := exists_cons_of_ne_nil hne
    obtain ⟨hws, hslash, hclose, hquote, hopen, hbare⟩ := isNumChar_first (hnum c mem_cons_self)
    have hstart : jsonSwitch listOps (fun _ => true) floatVal
        { b with state := .val, nextst := .none } c [c] =
          some ({ b with state := .valBareNum, nextst := .none, barevalIdx := 0 - 1 }, .more,
            true) := by
      simp only [jsonSwitch, caseVal]
      rw [if_neg hquote, if_neg hopen, hbare, if_neg (by simp)]
    have hrun := @reach_number _ floatVal
      { b with state := .valBareNum, nextst := .none, barevalIdx := 0 - 1 } rfl _ hnum
    have hbuf := h.buf_nil (by tauto)
    simp only [hbuf, nil_append] at hstart hrun
    refine h.enterVal hn hws hslash hclose ?_
    rw [hbuf, ha]
    exact .again hstart hrun
  obtain ⟨p, hp⟩ : ∃ p : Ffjson (List UInt8) δ, p =
      if i.toNat = 2 ^ 63 then { a with type := .num, fltval := some (floatVal t) }
      else { a with type := .int, intval := int64 i.toNat } := ⟨_, rfl⟩
  have hsw : ∀ c, isNumChar c = false → jsonSwitch listOps (fun _ => true) floatVal a c [c] =
      some ({ p with state := .iwspace, nextst := .afterVal }, .val, true) := by
    intro c hc
    have hst : a.state = .valBareNum := by rw [ha]
    have hbuf : a.buf = t := by rw [ha]
    simp only [jsonSwitch, hst, hdlValBareNum, hc, bytes_listOps, hbuf, Bool.not_false, if_true]
    rw [if_neg (by simpa using hne), hback, hp]
    by_cases hi : i.toNat = 2 ^ 63
    · simp only [if_pos hi, Option.filter_none, hmin hi, if_true, afterBare]
      rw [← hbuf]
    · simp only [if_neg hi, Option.filter_some, decide_true, if_true, afterBare]
      rw [← hbuf]
  have hfields : p.ctxs = stack ∧ p.escUtf16 = false ∧ p.buf = t := by
    rw [hp, ha]
    split
    · exact ⟨h.ctxs, h.esc, rfl⟩
    · exact ⟨h.ctxs, h.esc, rfl⟩
  refine ⟨[], .more, a, [jsonEvent { p with state := .iwspace, nextst := .afterVal } p.buf .val],
    { p with state := .iwspace, nextst := .afterVal }, hreach, ⟨?_, ?_, ?_, ?_, fun _ => rfl⟩, ?_⟩
  · intro c cs es er a' hc hr
    exact .eventAgain (hsw c (hc (cons_ne_nil _ _))) rfl hr
  · exact ⟨rfl, rfl, hfields.1, hfields.2.1, fun h => by cases h⟩
  · simp [FfparsE.verdict]
  · exact fun _ => .inl ⟨rfl, _, rfl⟩
  rw [hp]
  by_cases hi : i.toNat = 2 ^ 63
  · rw [if_pos hi, if_pos hi]
    rfl
  · rw [if_neg hi, if_neg hi]
    rfl

/-! ### Commas and whitespace -/

theorem wsText_blanks (f : JsonF) (st : CookSt) (len : ℕ) (closing : Bool) :
    Blanks (wsText f st len closing) := by
  have hch : ffcharIswhitespace (wsIndent f len closing).2 = true := by
    simp only [wsIndent]
    split <;> rfl
  have hfill : ∀ k, Blanks (List.replicate k (wsIndent f len closing).2) := by
    intro k
    induction k with
    | zero => exact .nil
    | succ k ih => exact .space hch ih
  simp only [wsText]
  split
  · split
    · exact .space rfl (hfill _)
    · exact hfill _
  · exact .nil

theorem At.comma {type : FfjsonT} (h : At b .afterVal (type :: stack)) :
    ∃ b', Reach floatVal b [0x2c] [] .more b' ∧
      At b' (if type = .arr then .val else .key) (type :: stack) := by
  obtain ⟨p, hp⟩ : ∃ p, p = jsonCleardata listOps { b with state := .afterVal, nextst := .none } :=
    ⟨_, rfl⟩
  have hctxs : p.ctxs = type :: stack := by
    rw [hp]
    exact h.ctxs
  have hcase : caseAfterVal listOps { b with state := .afterVal, nextst := .none } 0x2c =
      some ({ p with state := .iwspace, nextst := if type = .arr then .val else .key }, .more,
        false) := by
    simp only [caseAfterVal, ← hp]
    rw [if_neg (by simp [hctxs]), if_pos trivial, hctxs]
    simp only [head?_cons, Option.some.injEq]
  refine ⟨_, h.enter rfl (by decide) (.more hcase), rfl, rfl, hctxs, ?_, fun _ => ?_⟩
  · rw [hp]
    exact h.esc
  · rw [hp]
    rfl

end Gives

end RoundTrip

end FF
