import FF.Conf.Chunks
import Mathlib.Data.List.Induction

/-!
# Comments of the JSON and the configuration parser

`json_cmt` and `hdl_cmt` are the same automaton (`cmtStep`). Where a comment ends is said apart
from it (`Comment.Wf`), and compared with what the parsers do between any two tokens, however the
input is divided into chunks.
-/

namespace FF

open List Option

/-! ### Comments -/

/-- A comment: a block, a line, or a line that begins with `#`, which only the configuration
parser knows. -/
inductive Comment
  | block (body : List UInt8)
  | line (body : List UInt8)
  | hash (body : List UInt8)
  deriving DecidableEq, Repr

/-- The text of a comment behind its first character, with the line feed that ends a line. -/
def Comment.rest : Comment → List UInt8
  | .block body => 0x2a :: (body ++ [0x2a, 0x2f])
  | .line body => 0x2f :: (body ++ [0x0a])
  | .hash body => body ++ [0x0a]

/-- The text of a comment. -/
def Comment.text : Comment → List UInt8
  | .hash body => 0x23 :: (Comment.hash body).rest
  | c => 0x2f :: c.rest

/-- The end of the text is the first end of the comment: there is no other `*/` behind the opening,
no other line feed on the line. -/
def Comment.Wf : Comment → Prop
  | .block body => ∀ p q, body ++ [0x2a] ≠ p ++ 0x2a :: 0x2f :: q
  | .line body | .hash body => 0x0a ∉ body

/-- The number of asterisks at the end of the body. -/
def starsAtEnd (body : List UInt8) : ℕ := (body.reverse.takeWhile fun c => c == 0x2a).length

/-- **The comments that end where they should**: the number of asterisks in front of the `*/` of a
block is even. -/
def Comment.Ok : Comment → Prop
  | .block body => Even (starsAtEnd body)
  | .line _ | .hash _ => True

/-! ### The automaton -/

/-- The states in a comment, and `out` behind it. -/
inductive CmtSt
  | begin
  | line
  | mline
  | slash
  | out
  deriving DecidableEq, Repr

/-- The steps of `json_cmt` and `hdl_cmt`. -/
def cmtStep : CmtSt → UInt8 → CmtSt
  | .begin, c => if c = 0x2f then .line else .mline
  | .line, c => if c = 0x0a then .out else .line
  | .mline, c => if c = 0x2a then .slash else .mline
  | .slash, c => if c = 0x2f then .out else .mline
  | .out, _ => .out

/-- The characters that the automaton takes in a state. -/
def CmtGood (s : CmtSt) (c : UInt8) : Prop := s ≠ .out ∧ (s = .begin → c = 0x2f ∨ c = 0x2a)

theorem fold_line {body : List UInt8} (h : 0x0a ∉ body) : body.foldl cmtStep .line = .line := by
  induction body with
  | nil => rfl
  | cons c body ih =>
    obtain ⟨hc, hbody⟩ := not_or.mp (mt mem_cons.mpr h)
    have hstep : cmtStep .line c = .line := if_neg (Ne.symm hc)
    rw [foldl_cons, hstep, ih hbody]

theorem starsAtEnd_append (body : List UInt8) (c : UInt8) :
    starsAtEnd (body ++ [c]) = if c = 0x2a then starsAtEnd body + 1 else 0 := by
  unfold starsAtEnd
  rw [reverse_append, reverse_singleton, singleton_append]
  by_cases hc : c = 0x2a
  · rw [takeWhile_cons_of_pos (by simp [hc]), if_pos hc, length_cons]
  · rw [takeWhile_cons_of_neg (by simp [hc]), if_neg hc, length_nil]

/-- A body with no `*/` in it does not leave the block, and the state behind it says whether the
number of asterisks at its end is even. -/
theorem fold_body {body : List UInt8} (h : ∀ p q, body ≠ p ++ 0x2a :: 0x2f :: q) :
    body.foldl cmtStep .mline = if Even (starsAtEnd body) then .mline else .slash := by
  induction body using List.reverseRecOn with
  | nil => rfl
  | append_singleton body c ih =>
    have hbody : ∀ p q, body ≠ p ++ 0x2a :: 0x2f :: q := by
      rintro p q rfl
      exact h p (q ++ [c]) (by simp)
    rw [foldl_append, ih hbody, foldl_cons, foldl_nil, starsAtEnd_append]
    by_cases heven : Even (starsAtEnd body)
    · rw [if_pos heven]
      by_cases hc : c = 0x2a
      · have hodd : ¬Even (starsAtEnd body + 1) := by
          rw [Nat.even_add_one]
          exact not_not.mpr heven
        rw [if_pos hc, if_neg hodd, cmtStep, if_pos hc]
      · rw [if_neg hc, if_pos Even.zero, cmtStep, if_neg hc]
    rw [if_neg heven]
    have hslash : c ≠ 0x2f := by
      rintro rfl
      -- an asterisk is in front of the character
      induction body using List.reverseRecOn with
      | nil => exact heven Even.zero
      | append_singleton body c' _ =>
        rw [starsAtEnd_append] at heven
        by_cases hc' : c' = 0x2a
        · rw [hc'] at h
          exact h body [] (by simp)
        · rw [if_neg hc'] at heven
          exact heven Even.zero
    rw [cmtStep, if_neg hslash]
    by_cases hc : c = 0x2a
    · rw [if_pos hc, if_pos (Nat.even_add_one.mpr heven)]
    · rw [if_neg hc, if_pos Even.zero]

/-- **The automaton on a block comment**: it is out of it behind the first `*/` exactly where the
number of asterisks in front is even. -/
theorem fold_block {body : List UInt8} (h : (Comment.block body).Wf) :
    (0x2a :: (body ++ [0x2a, 0x2f])).foldl cmtStep .begin =
      if Even (starsAtEnd body) then .out else .mline := by
  have hbody : ∀ p q, body ≠ p ++ 0x2a :: 0x2f :: q := by
    rintro p q rfl
    exact h p (q ++ [0x2a]) (by simp)
  have hbegin : cmtStep .begin 0x2a = .mline := rfl
  rw [foldl_cons, hbegin, foldl_append, fold_body hbody]
  by_cases heven : Even (starsAtEnd body)
  · rw [if_pos heven, if_pos heven]
    rfl
  · rw [if_neg heven, if_neg heven]
    rfl

theorem fold_block_starts {body p q : List UInt8} (h : (Comment.block body).Wf) (hq : q ≠ [])
    (heq : (Comment.block body).rest = p ++ q) : p.foldl cmtStep .begin ≠ .out := by
  cases p with
  | nil => exact CmtSt.noConfusion
  | cons c p =>
    obtain ⟨hc, htl⟩ := List.cons.inj heq
    subst hc
    obtain ⟨q, x, rfl⟩ := (eq_nil_or_concat q).resolve_left hq
    rw [concat_eq_append] at htl
    have hsplit : (body ++ [0x2a]) ++ [0x2f] = (p ++ q) ++ [x] := by
      rw [append_assoc, append_assoc]
      exact htl
    obtain ⟨hp, -⟩ := append_inj' hsplit rfl
    have hno : ∀ p' q', p ≠ p' ++ 0x2a :: 0x2f :: q' := by
      rintro p' q' rfl
      refine h p' (q' ++ q) ?_
      rw [hp]
      simp
    have hbegin : cmtStep .begin 0x2a = .mline := rfl
    rw [foldl_cons, hbegin, fold_body hno]
    split
    · exact CmtSt.noConfusion
    · exact CmtSt.noConfusion

theorem fold_line_starts {body p q : List UInt8} (h : 0x0a ∉ body) (hq : q ≠ [])
    (heq : body ++ [0x0a] = p ++ q) : p.foldl cmtStep .line = .line := by
  obtain ⟨q, x, rfl⟩ := (eq_nil_or_concat q).resolve_left hq
  rw [concat_eq_append, ← append_assoc] at heq
  obtain ⟨hp, -⟩ := append_inj' heq rfl
  apply fold_line
  intro hmem
  exact h (by rw [hp]; exact mem_append_left q hmem)

/-- The state behind the first character. -/
def Comment.start : Comment → CmtSt
  | .hash _ => .line
  | _ => .begin

theorem Comment.fold_starts {c : Comment} (h : c.Wf) {p q : List UInt8} (hq : q ≠ [])
    (heq : c.rest = p ++ q) : p.foldl cmtStep c.start ≠ .out := by
  cases c with
  | block body => exact fold_block_starts h hq heq
  | line body =>
    cases p with
    | nil => exact CmtSt.noConfusion
    | cons x p =>
      obtain ⟨hx, htl⟩ := List.cons.inj heq
      subst hx
      have hline := fold_line_starts h hq htl
      change p.foldl cmtStep .line ≠ .out
      rw [hline]
      exact CmtSt.noConfusion
  | hash body =>
    change p.foldl cmtStep .line ≠ .out
    rw [fold_line_starts h hq heq]
    exact CmtSt.noConfusion

/-- **The automaton on a comment**: it is out of it at its end exactly where the comment is one of
those that end where they should. -/
theorem Comment.fold_rest {c : Comment} (h : c.Wf) :
    (c.Ok → c.rest.foldl cmtStep c.start = .out) ∧
      (¬c.Ok → c.rest.foldl cmtStep c.start = .mline) := by
  have hline : ∀ body : List UInt8, 0x0a ∉ body →
      (body ++ [0x0a]).foldl cmtStep .line = .out := by
    intro body hbody
    rw [foldl_append, fold_line hbody]
    rfl
  cases c with
  | block body =>
    have hfold := fold_block h
    exact ⟨fun hok => hfold.trans (if_pos hok), fun hno => hfold.trans (if_neg hno)⟩
  | line body => exact ⟨fun _ => hline body h, fun hno => absurd trivial hno⟩
  | hash body => exact ⟨fun _ => hline body h, fun hno => absurd trivial hno⟩

theorem cmtStep_ne_begin (s : CmtSt) (c : UInt8) : cmtStep s c ≠ .begin := by
  cases s <;> simp only [cmtStep] <;> first | exact CmtSt.noConfusion | (split <;> exact CmtSt.noConfusion)

theorem Comment.good {c : Comment} (h : c.Wf) {p q : List UInt8} {x : UInt8}
    (heq : c.rest = p ++ x :: q) : CmtGood (p.foldl cmtStep c.start) x := by
  refine ⟨c.fold_starts h (cons_ne_nil x q) heq, fun hbegin => ?_⟩
  cases p using List.reverseRecOn with
  | nil =>
    cases c with
    | block body => exact Or.inr (List.cons.inj heq).1.symm
    | line body => exact Or.inl (List.cons.inj heq).1.symm
    | hash body => exact absurd hbegin CmtSt.noConfusion
  | append_singleton p y _ =>
    rw [foldl_append] at hbegin
    exact absurd hbegin (cmtStep_ne_begin _ y)

/-! ### The JSON parser -/

theorem more_ne_stop : FfparsE.more.verdict ≠ .stop := by decide

/-- The state of the JSON parser in a comment. -/
def CmtSt.jsonIdx : CmtSt → JsonIdx
  | .begin => .icmtBegin
  | .line => .icmtLine
  | .mline => .icmtMline
  | .slash => .icmtMlineslash
  | .out => .iwspace

/-- A state in a comment. -/
def InCmt (st : JsonIdx) : Prop := ∃ s, s ≠ CmtSt.out ∧ st = s.jsonIdx

section Json

variable {δ : Type}

/-- The machine is in the state `s` of a comment, and otherwise as it was before, except for the
position. -/
def JsonIn (a : Ffjson (List UInt8) δ) (s : CmtSt) (b : Ffjson (List UInt8) δ) : Prop :=
  ∃ line ch, b = { a with state := s.jsonIdx, line := line, ch := ch }

/-- **The JSON parser skips the comment** between any two tokens, in every chunking. In front of
its end the parser is in the comment; behind it the parser goes on from the state before, with
another position. -/
def JsonSkips (text : List UInt8) : Prop :=
  ∀ (δ : Type) (alloc : ℕ → Bool) (floatVal : List UInt8 → δ) (mem : List UInt8 → List UInt8)
    (N : ℕ) (pre : List UInt8) (a : Ffjson (List UInt8) δ) (es : List (JsonEvent δ)) (er : FfparsE),
    (∀ n, alloc n = true) →
    jsonRun floatVal N (ffjsonParseinit []) .more pre = some (a, es, er) → er.verdict ≠ .stop →
    a.state = .iwspace →
      (∀ q r ds n, q ≠ [] → r ≠ [] → text = q ++ r → ds.flatten = pre ++ q → (∀ d ∈ ds, d ≠ []) →
        N + q.length < n →
          ∃ p, jsonFeed alloc floatVal mem n ds = some (p, es, .more) ∧ InCmt p.state) ∧
      ∃ line ch, ∀ M post a' es' er' ds n,
        jsonRun floatVal M { a with line := line, ch := ch } .more post = some (a', es', er') →
        ds.flatten = pre ++ (text ++ post) → (∀ d ∈ ds, d ≠ []) → N + (text.length + M) < n →
          ∃ p, jsonFeed alloc floatVal mem n ds = some (p, es ++ es', er') ∧
            (er'.verdict ≠ .stop → JsonRel p a' [])

theorem jsonIn_step (floatVal : List UInt8 → δ) {a b : Ffjson (List UInt8) δ} {s : CmtSt}
    {c : UInt8} (hin : JsonIn a s b) (hgood : CmtGood s c) :
    ∃ b', jsonByte floatVal b c = some (b', .more, true) ∧ JsonIn a (cmtStep s c) b' := by
  obtain ⟨line, ch, rfl⟩ := hin
  obtain ⟨hout, hbegin⟩ := hgood
  obtain ⟨b', hsw, hb'⟩ : ∃ b', jsonSwitch listOps (fun _ => true) floatVal
      { a with state := s.jsonIdx, line := line, ch := ch + 1 } c [c] = some (b', .more, false) ∧
      b' = { a with state := (cmtStep s c).jsonIdx, line := line, ch := ch + 1 } := by
    cases s with
    | begin =>
      rcases hbegin rfl with rfl | rfl
      · exact ⟨_, rfl, rfl⟩
      · exact ⟨_, rfl, rfl⟩
    | line =>
      by_cases hc : c = 0x0a
      · subst hc
        exact ⟨_, rfl, rfl⟩
      · refine ⟨_, rfl, ?_⟩
        simp only [CmtSt.jsonIdx, cmtStep, jsonCmt, if_neg hc]
    | mline =>
      by_cases hc : c = 0x2a
      · subst hc
        exact ⟨_, rfl, rfl⟩
      · refine ⟨_, rfl, ?_⟩
        simp only [CmtSt.jsonIdx, cmtStep, jsonCmt, if_neg hc]
    | slash =>
      refine ⟨_, rfl, ?_⟩
      by_cases hc : c = 0x2f
      · simp only [CmtSt.jsonIdx, cmtStep, jsonCmt, if_pos hc]
      · simp only [CmtSt.jsonIdx, cmtStep, jsonCmt, if_neg hc]
    | out => exact absurd rfl hout
  by_cases hlf : c = 0x0a
  · refine ⟨{ b' with line := b'.line + 1, ch := 0 }, ?_, line + 1, 0, by rw [hb']⟩
    simp only [jsonByte, jsonPass, hsw, bind_eq_bind, bind_some, FfparsE.verdict,
      Bool.false_eq_true, if_false, if_pos hlf]
  · refine ⟨b', ?_, line, ch + 1, hb'⟩
    simp only [jsonByte, jsonPass, hsw, bind_eq_bind, bind_some, FfparsE.verdict,
      Bool.false_eq_true, if_false, if_neg hlf]

theorem jsonRun_comment (floatVal : List UInt8 → δ) {a : Ffjson (List UInt8) δ}
    (hst : a.state = .iwspace) (er : FfparsE) {d : List UInt8}
    (hgood : ∀ p c q, d = p ++ c :: q → CmtGood (p.foldl cmtStep .begin) c) :
    ∃ b, jsonRun floatVal (d.length + 1) a er (0x2f :: d) = some (b, [], .more) ∧
      JsonIn a (d.foldl cmtStep .begin) b := by
  obtain ⟨b, hp, hin⟩ : ∃ b, jsonByte floatVal a 0x2f = some (b, .more, true) ∧
      JsonIn a .begin b := by
    refine ⟨{ a with state := .icmtBegin, ch := a.ch + 1 }, ?_, a.line, a.ch + 1, rfl⟩
    cases a
    cases hst
    rfl
  obtain ⟨b', hrun, hin'⟩ := byteRun_fold (show FfparsE.verdict .more = .more from rfl)
    (fun s a' c => jsonIn_step floatVal) hin d hgood le_rfl
  refine ⟨b', ?_, hin'⟩
  rw [jsonRun, byteRun_cons d hp rfl]
  exact hrun

theorem jsonFeed_rel {alloc : ℕ → Bool} {floatVal : List UInt8 → δ} (halloc : ∀ n, alloc n = true)
    (mem : List UInt8 → List UInt8) {N n : ℕ} (hn : N < n) {ds : List (List UInt8)}
    (hds : ∀ d ∈ ds, d ≠ []) {a : Ffjson (List UInt8) δ} {es : List (JsonEvent δ)} {er : FfparsE}
    (hrun : jsonRun floatVal N (ffjsonParseinit []) .more ds.flatten = some (a, es, er)) :
    ∃ p, jsonFeed alloc floatVal mem n ds = some (p, es, er) ∧
      (er.verdict ≠ .stop → ∀ d, JsonRel p a d) :=
  (json_chunkSim halloc mem).feedChunks_rel hn hds
    (fun _ => ⟨Ffarr.null, [], .more, rfl, .of_empty rfl has_null⟩) (by simp [FfparsE.verdict]) hrun

theorem JsonRel.state_eq {p : Ffjson Ffarr δ} {a : Ffjson (List UInt8) δ} {d : List UInt8}
    (h : JsonRel p a d) : p.state = a.state := by
  obtain ⟨b, v, r, rfl, -⟩ := h
  rfl

theorem JsonIn.state_eq {a b : Ffjson (List UInt8) δ} {s : CmtSt} (h : JsonIn a s b) :
    b.state = s.jsonIdx := by
  obtain ⟨line, ch, rfl⟩ := h
  rfl

theorem JsonIn.out {a b : Ffjson (List UInt8) δ} (hst : a.state = .iwspace)
    (h : JsonIn a .out b) : ∃ line ch, b = { a with line := line, ch := ch } := by
  obtain ⟨line, ch, rfl⟩ := h
  refine ⟨line, ch, ?_⟩
  cases a
  cases hst
  rfl

end Json

/-- **The comments that the JSON parser skips.** -/
theorem jsonSkips_of_ok {c : Comment} (hc : c.Wf) (hopen : c.text = 0x2f :: c.rest)
    (hstart : c.start = .begin) (hok : c.Ok) : JsonSkips c.text := by
  intro δ alloc floatVal mem N pre a es er halloc hpre hstop hst
  have hgood : ∀ {p x q}, c.rest = p ++ x :: q → CmtGood (p.foldl cmtStep .begin) x := by
    intro p x q heq
    rw [← hstart]
    exact Comment.good hc heq
  constructor
  · intro q r ds n hq hr htext hflat hds hn
    cases q with
    | nil => exact absurd rfl hq
    | cons x q =>
      rw [hopen] at htext
      obtain ⟨rfl, hrest⟩ := List.cons.inj htext
      change c.rest = q ++ r at hrest
      obtain ⟨b, hrun, hin⟩ := jsonRun_comment floatVal hst er (d := q) fun p y q' hq' =>
        hgood (q := q' ++ r) (by rw [hrest, hq', append_assoc, cons_append])
      have hall := byteRun_append hpre hstop hrun
      rw [append_nil, ← hflat] at hall
      obtain ⟨p, hfeed, hrel⟩ := jsonFeed_rel halloc mem hn hds hall
      refine ⟨p, hfeed, q.foldl cmtStep .begin, ?_, ?_⟩
      · rw [← hstart]
        exact c.fold_starts hc hr hrest
      · rw [(hrel more_ne_stop []).state_eq, hin.state_eq]
  obtain ⟨b, hrun, hin⟩ := jsonRun_comment floatVal hst er (d := c.rest) fun p y q hq => hgood hq
  rw [← hstart, (c.fold_rest hc).1 hok] at hin
  obtain ⟨line, ch, rfl⟩ := hin.out hst
  refine ⟨line, ch, ?_⟩
  intro M post a' es' er' ds n hpost hflat hds hn
  rw [hopen] at hflat hn
  have hall := byteRun_append hpre hstop (byteRun_append hrun more_ne_stop hpost)
  rw [← hflat] at hall
  obtain ⟨p, hfeed, hrel⟩ := jsonFeed_rel halloc mem hn hds hall
  exact ⟨p, hfeed, fun h => hrel h []⟩

/-- **Exactly the comments that the JSON parser skips.** -/
theorem jsonSkips_iff {c : Comment} (hc : c.Wf) (hopen : c.text = 0x2f :: c.rest)
    (hstart : c.start = .begin) : JsonSkips c.text ↔ c.Ok := by
  refine ⟨fun hskips => ?_, jsonSkips_of_ok hc hopen hstart⟩
  by_contra hno
  have halloc : ∀ n, (fun _ : ℕ => true) n = true := fun _ => rfl
  obtain ⟨-, line, ch, hpost⟩ := hskips Unit (fun _ => true) (fun _ => ()) id 0 []
    (ffjsonParseinit []) [] .more halloc rfl (by decide) rfl
  obtain ⟨p, hfeed, hrel⟩ := hpost 0 [] _ [] .more [c.text] (c.text.length + 1) rfl (by simp)
    (by simp [hopen]) (by omega)
  obtain ⟨b, hrun, hin⟩ := jsonRun_comment (fun _ => ()) (a := ffjsonParseinit []) rfl .more
    (d := c.rest) fun p y q hq => by
      rw [← hstart]
      exact Comment.good hc hq
  rw [← hstart, (c.fold_rest hc).2 hno] at hin
  have hflat : [c.text].flatten = 0x2f :: c.rest := by simp [hopen]
  have hlen : c.text.length = c.rest.length + 1 := by rw [hopen, length_cons]
  rw [← hflat, ← hlen] at hrun
  obtain ⟨p', hfeed', hrel'⟩ := jsonFeed_rel halloc id (Nat.lt_succ_self _) (by simp [hopen]) hrun
  rw [hfeed] at hfeed'
  obtain rfl : p = p' := congrArg (fun r => r.1) (some.inj hfeed')
  have hout := (hrel more_ne_stop).state_eq
  have hmline := (hrel' more_ne_stop []).state_eq
  rw [hin.state_eq, hout] at hmline
  cases hmline

/-! ### The configuration parser -/

/-- The state of the configuration parser in a comment. -/
def CmtSt.confIdx : CmtSt → Conf.ConfIdx
  | .begin => .icmtBegin
  | .line => .icmtLine
  | .mline => .icmtMline
  | .slash => .icmtMlineslash
  | .out => .iwspace

/-- A state in a comment. -/
def Conf.InCmt (st : Conf.ConfIdx) : Prop := ∃ s, s ≠ CmtSt.out ∧ st = s.confIdx

/-- The state in which the configuration parser goes on: the one before the comment, or, at the end
of a line, what its line feed makes of that state. -/
def Comment.confAfter (a : Conf.Ffconf (List UInt8)) : Comment → Conf.Ffconf (List UInt8)
  | .block _ => a
  | .line _ | .hash _ => { Conf.confCleardata listOps a with nextst := .key }

/-- The machine is in the state `s` of a comment, and otherwise as it was before, except for the
position. -/
def ConfIn (a : Conf.Ffconf (List UInt8)) (s : CmtSt) (b : Conf.Ffconf (List UInt8)) : Prop :=
  ∃ line ch, b = { a with state := s.confIdx, line := line, ch := ch }

/-- **The configuration parser skips the comment** between any two tokens, in every chunking. In
front of its end the parser is in the comment; behind it the parser goes on from the state before,
with another position; a line feed that ends the comment counts as one between the tokens. -/
def ConfSkips (c : Comment) : Prop :=
  ∀ (alloc : ℕ → Bool) (mem : List UInt8 → List UInt8) (N : ℕ) (pre : List UInt8)
    (a : Conf.Ffconf (List UInt8)) (es : List Conf.ConfEvent) (er : FfparsE),
    (∀ n, alloc n = true) →
    Conf.confRun N Conf.confInit .more pre = some (a, es, er) → er.verdict ≠ .stop →
    a.state = .iwspace →
      (∀ q r ds n, q ≠ [] → r ≠ [] → c.text = q ++ r → ds.flatten = pre ++ q →
        (∀ d ∈ ds, d ≠ []) → N + q.length < n →
          ∃ p, Conf.confFeed alloc mem n ds = some (p, es, .more) ∧ Conf.InCmt p.state) ∧
      ∃ line ch, ∀ M post a' es' er' ds n,
        Conf.confRun M { c.confAfter a with line := line, ch := ch } .more post =
          some (a', es', er') →
        ds.flatten = pre ++ (c.text ++ post) → (∀ d ∈ ds, d ≠ []) →
        N + (c.text.length + 1 + M) < n →
          ∃ p, Conf.confFeed alloc mem n ds = some (p, es ++ es', er') ∧
            (er'.verdict ≠ .stop → Conf.ConfRel p a' [])

theorem confIn_step {a b : Conf.Ffconf (List UInt8)} {s : CmtSt} {c : UInt8} (hin : ConfIn a s b)
    (hgood : CmtGood s c ∧ (s = .line → c ≠ 0x0a)) :
    ∃ b', Conf.confByte b c = some (b', .more, true) ∧ ConfIn a (cmtStep s c) b' := by
  obtain ⟨line, ch, rfl⟩ := hin
  obtain ⟨⟨hout, hbegin⟩, hline⟩ := hgood
  obtain ⟨b', hsw, hb'⟩ : ∃ b', Conf.confSwitch listOps (fun _ => true)
      { a with state := s.confIdx, line := line, ch := ch + 1 } c [c] = (b', .more, false) ∧
      b' = { a with state := (cmtStep s c).confIdx, line := line, ch := ch + 1 } := by
    cases s with
    | begin =>
      rcases hbegin rfl with rfl | rfl
      · exact ⟨_, rfl, rfl⟩
      · exact ⟨_, rfl, rfl⟩
    | line =>
      refine ⟨_, ?_, rfl⟩
      simp only [CmtSt.confIdx, cmtStep, Conf.confSwitch, Conf.hdlCmt, if_neg (hline rfl)]
    | mline =>
      by_cases hc : c = 0x2a
      · subst hc
        exact ⟨_, rfl, rfl⟩
      · refine ⟨_, rfl, ?_⟩
        simp only [CmtSt.confIdx, cmtStep, Conf.hdlCmt, if_neg hc]
    | slash =>
      refine ⟨_, rfl, ?_⟩
      by_cases hc : c = 0x2f
      · simp only [CmtSt.confIdx, cmtStep, Conf.hdlCmt, if_pos hc]
      · simp only [CmtSt.confIdx, cmtStep, Conf.hdlCmt, if_neg hc]
    | out => exact absurd rfl hout
  by_cases hlf : c = 0x0a
  · refine ⟨{ b' with line := b'.line + 1, ch := 0 }, ?_, line + 1, 0, by rw [hb']⟩
    simp only [Conf.confByte, Conf.confPass, hsw, FfparsE.verdict, Bool.false_eq_true, if_false,
      if_pos hlf]
  · refine ⟨b', ?_, line, ch + 1, hb'⟩
    simp only [Conf.confByte, Conf.confPass, hsw, FfparsE.verdict, Bool.false_eq_true, if_false,
      if_neg hlf]

theorem confRun_comment {c : Comment} {a : Conf.Ffconf (List UInt8)} (hst : a.state = .iwspace)
    (er : FfparsE) {d : List UInt8} {x : UInt8} (hx : x :: c.rest = c.text)
    (hgood : ∀ p y q, d = p ++ y :: q → CmtGood (p.foldl cmtStep c.start) y ∧
      (p.foldl cmtStep c.start = .line → y ≠ 0x0a)) :
    ∃ b, Conf.confRun (d.length + 1) a er (x :: d) = some (b, [], .more) ∧
      ConfIn a (d.foldl cmtStep c.start) b := by
  obtain ⟨b, hp, hin⟩ : ∃ b, Conf.confByte a x = some (b, .more, true) ∧
      ConfIn a c.start b := by
    cases a
    cases hst
    cases c with
    | block body =>
      obtain ⟨rfl, -⟩ := List.cons.inj hx
      exact ⟨_, rfl, _, _, rfl⟩
    | line body =>
      obtain ⟨rfl, -⟩ := List.cons.inj hx
      exact ⟨_, rfl, _, _, rfl⟩
    | hash body =>
      obtain ⟨rfl, -⟩ := List.cons.inj hx
      exact ⟨_, rfl, _, _, rfl⟩
  have hstep : ∀ s b y, ConfIn a s b → CmtGood s y ∧ (s = .line → y ≠ 0x0a) →
      ∃ b', Conf.confByte b y = some (b', .more, true) ∧ ConfIn a (cmtStep s y) b' :=
    fun s b y hin hgood => confIn_step hin hgood
  obtain ⟨b', hrun, hin'⟩ := byteRun_fold (show FfparsE.verdict .more = .more from rfl) hstep hin d
    hgood le_rfl
  refine ⟨b', ?_, hin'⟩
  rw [Conf.confRun, byteRun_cons d hp rfl]
  exact hrun

/-- The line feed at the end of a line: it is processed again, as one between the tokens. -/
theorem confRun_lf {a b : Conf.Ffconf (List UInt8)} (hst : a.state = .iwspace)
    (hin : ConfIn a .line b) (er : FfparsE) :
    ∃ line ch, Conf.confRun 2 b er [0x0a] =
      some ({ Conf.confCleardata listOps a with nextst := .key, line := line, ch := ch }, [],
        .more) := by
  obtain ⟨line, ch, rfl⟩ := hin
  cases a
  cases hst
  exact ⟨_, _, rfl⟩

/-- The text without its first character and without the line feed that ends a line. -/
def Comment.inner : Comment → List UInt8
  | .block body => (Comment.block body).rest
  | .line body => 0x2f :: body
  | .hash body => body

/-- The line feed at the end of a line. -/
def Comment.tail : Comment → List UInt8
  | .block _ => []
  | .line _ | .hash _ => [0x0a]

theorem Comment.inner_tail (c : Comment) : c.rest = c.inner ++ c.tail := by
  cases c with
  | block body => exact (append_nil _).symm
  | line body => rfl
  | hash body => rfl

theorem foldl_ne_line (p : List UInt8) {s : CmtSt} (hbegin : s ≠ .begin) (hline : s ≠ .line) :
    p.foldl cmtStep s ≠ .line := by
  induction p generalizing s with
  | nil => exact hline
  | cons c p ih =>
    refine ih (cmtStep_ne_begin s c) ?_
    cases s with
    | begin => exact absurd rfl hbegin
    | line => exact absurd rfl hline
    | mline | slash =>
      simp only [cmtStep]
      split <;> exact CmtSt.noConfusion
    | out => exact CmtSt.noConfusion

/-- Every character of a comment is one that the automaton takes; on a line it is no line feed. -/
theorem Comment.confGood {c : Comment} (h : c.Wf) {p q : List UInt8} {y : UInt8}
    (heq : c.inner = p ++ y :: q) :
    CmtGood (p.foldl cmtStep c.start) y ∧ (p.foldl cmtStep c.start = .line → y ≠ 0x0a) := by
  refine ⟨Comment.good (q := q ++ c.tail) h ?_, fun hline => ?_⟩
  · rw [c.inner_tail, heq, append_assoc, cons_append]
  cases c with
  | block body =>
    refine absurd hline ?_
    cases p with
    | nil => exact CmtSt.noConfusion
    | cons x p =>
      obtain ⟨rfl, -⟩ := List.cons.inj heq
      exact foldl_ne_line p CmtSt.noConfusion CmtSt.noConfusion
  | line body =>
    rintro rfl
    cases p with
    | nil => exact absurd (List.cons.inj heq).1 (by decide)
    | cons x p =>
      obtain ⟨-, hbody⟩ := List.cons.inj heq
      refine h ?_
      rw [hbody]
      exact mem_append_right p mem_cons_self
  | hash body =>
    rintro rfl
    refine h ?_
    change body = p ++ 0x0a :: q at heq
    rw [heq]
    exact mem_append_right p mem_cons_self

theorem Comment.inner_starts {c : Comment} {q r : List UInt8} (hr : r ≠ [])
    (heq : c.rest = q ++ r) : ∃ r', c.inner = q ++ r' := by
  rw [c.inner_tail] at heq
  have hline : ∀ l : List UInt8, l ++ [0x0a] = q ++ r → ∃ r', l = q ++ r' := by
    intro l hl
    obtain ⟨r, x, rfl⟩ := (eq_nil_or_concat r).resolve_left hr
    rw [concat_eq_append, ← append_assoc] at hl
    exact ⟨r, (append_inj' hl rfl).1⟩
  cases c with
  | block body => exact ⟨r, (append_nil _).symm.trans heq⟩
  | line body => exact hline _ heq
  | hash body => exact hline _ heq

theorem confFeed_rel {alloc : ℕ → Bool} (halloc : ∀ n, alloc n = true)
    (mem : List UInt8 → List UInt8) {N n : ℕ} (hn : N < n) {ds : List (List UInt8)}
    (hds : ∀ d ∈ ds, d ≠ []) {a : Conf.Ffconf (List UInt8)} {es : List Conf.ConfEvent}
    {er : FfparsE} (hrun : Conf.confRun N Conf.confInit .more ds.flatten = some (a, es, er)) :
    ∃ p, Conf.confFeed alloc mem n ds = some (p, es, er) ∧
      (er.verdict ≠ .stop → ∀ d, Conf.ConfRel p a d) :=
  (Conf.conf_chunkSim halloc mem).feedChunks_rel hn hds (Conf.confInit_rel halloc)
    (by simp [FfparsE.verdict]) hrun

theorem confRel_state_eq {p : Conf.Ffconf Ffarr} {a : Conf.Ffconf (List UInt8)} {d : List UInt8}
    (h : Conf.ConfRel p a d) : p.state = a.state := by
  obtain ⟨-, b, v, r, rfl, -⟩ := h
  rfl

theorem ConfIn.state_eq {a b : Conf.Ffconf (List UInt8)} {s : CmtSt} (h : ConfIn a s b) :
    b.state = s.confIdx := by
  obtain ⟨line, ch, rfl⟩ := h
  rfl

theorem Comment.text_eq (c : Comment) : ∃ x, c.text = x :: c.rest := by
  cases c <;> exact ⟨_, rfl⟩

theorem confRun_skip {c : Comment} (hc : c.Wf) (hok : c.Ok) {a : Conf.Ffconf (List UInt8)}
    (hst : a.state = .iwspace) (er : FfparsE) :
    ∃ n line ch, n ≤ c.text.length + 1 ∧ Conf.confRun n a er c.text =
      some ({ c.confAfter a with line := line, ch := ch }, [], .more) := by
  obtain ⟨x, hx⟩ := c.text_eq
  obtain ⟨b, hrun, hin⟩ := confRun_comment hst er (d := c.inner) hx.symm
    fun p y q hq => Comment.confGood hc hq
  have hend : c.inner = c.rest → c.confAfter a = a →
      ∃ n line ch, n ≤ c.text.length + 1 ∧ Conf.confRun n a er c.text =
        some ({ c.confAfter a with line := line, ch := ch }, [], .more) := by
    intro hinner hafter
    rw [hinner] at hrun hin
    rw [(c.fold_rest hc).1 hok] at hin
    obtain ⟨line, ch, rfl⟩ := hin
    refine ⟨c.rest.length + 1, line, ch, ?_, ?_⟩
    · rw [hx]
      exact Nat.le_succ _
    · rw [hx, hafter, hrun]
      cases a
      cases hst
      rfl
  have hlf : c.rest = c.inner ++ [0x0a] → c.inner.foldl cmtStep c.start = .line →
      c.confAfter a = { Conf.confCleardata listOps a with nextst := .key } →
      ∃ n line ch, n ≤ c.text.length + 1 ∧ Conf.confRun n a er c.text =
        some ({ c.confAfter a with line := line, ch := ch }, [], .more) := by
    intro hrest hfold hafter
    rw [hfold] at hin
    obtain ⟨line, ch, hlast⟩ := confRun_lf hst hin .more
    have hall := byteRun_append hrun more_ne_stop hlast
    refine ⟨c.inner.length + 1 + 2, line, ch, ?_, ?_⟩
    · rw [hx, hrest]
      simp
    · rw [hx, hafter, hrest]
      exact hall
  cases c with
  | block body => exact hend rfl rfl
  | line body => exact hlf rfl (fold_line hc) rfl
  | hash body => exact hlf rfl (fold_line hc) rfl

theorem confSkips_of_ok {c : Comment} (hc : c.Wf) (hok : c.Ok) : ConfSkips c := by
  intro alloc mem N pre a es er halloc hpre hstop hst
  obtain ⟨x, hx⟩ := c.text_eq
  constructor
  · intro q r ds n hq hr htext hflat hds hn
    cases q with
    | nil => exact absurd rfl hq
    | cons y q =>
      rw [hx] at htext
      obtain ⟨rfl, hrest⟩ := List.cons.inj htext
      obtain ⟨r', hinner⟩ := Comment.inner_starts hr hrest
      obtain ⟨b, hrun, hin⟩ := confRun_comment hst er (d := q) hx.symm fun p y q' hq' =>
        Comment.confGood hc (q := q' ++ r') (by
          rw [hinner, hq', append_assoc, cons_append])
      have hall := byteRun_append hpre hstop hrun
      rw [append_nil, ← hflat] at hall
      obtain ⟨p, hfeed, hrel⟩ := confFeed_rel halloc mem hn hds hall
      refine ⟨p, hfeed, q.foldl cmtStep c.start, c.fold_starts hc hr hrest, ?_⟩
      rw [confRel_state_eq (hrel more_ne_stop []), hin.state_eq]
  obtain ⟨m, line, ch, hm, hrun⟩ := confRun_skip hc hok hst er
  refine ⟨line, ch, ?_⟩
  intro M post a' es' er' ds n hpost hflat hds hn
  have hall := byteRun_append hpre hstop (byteRun_append hrun more_ne_stop hpost)
  rw [← hflat] at hall
  have hfuel : N + (m + M) < n := by omega
  obtain ⟨p, hfeed, hrel⟩ := confFeed_rel halloc mem hfuel hds hall
  exact ⟨p, hfeed, fun h => hrel h []⟩

/-- **Exactly the comments that the configuration parser skips.** -/
theorem confSkips_iff {c : Comment} (hc : c.Wf) : ConfSkips c ↔ c.Ok := by
  refine ⟨fun hskips => ?_, confSkips_of_ok hc⟩
  cases c with
  | line body => exact trivial
  | hash body => exact trivial
  | block body =>
    by_contra hno
    obtain ⟨c, hcb⟩ : ∃ c, c = Comment.block body := ⟨_, rfl⟩
    rw [← hcb] at hskips hc hno
    obtain ⟨x, hx⟩ := c.text_eq
    have halloc : ∀ n, (fun _ : ℕ => true) n = true := fun _ => rfl
    obtain ⟨-, line, ch, hpost⟩ := hskips (fun _ => true) id 0 [] Conf.confInit [] .more halloc
      rfl more_ne_stop rfl
    obtain ⟨p, hfeed, hrel⟩ := hpost 0 [] _ [] .more [c.text] (c.text.length + 2) rfl (by simp)
      (by simp [hx]) (by omega)
    have hinner : c.inner = c.rest := by
      rw [hcb]
      rfl
    have hafter : (c.confAfter Conf.confInit).state = .iwspace := by
      rw [hcb]
      rfl
    obtain ⟨b, hrun, hin⟩ := confRun_comment (a := Conf.confInit) rfl .more hx.symm
      (d := c.inner) fun p y q hq => Comment.confGood hc hq
    rw [hinner, (c.fold_rest hc).2 hno] at hin
    rw [hinner, ← hx] at hrun
    have hflat : [c.text].flatten = c.text := by simp
    rw [← hflat] at hrun
    have hlen : c.rest.length + 1 < c.text.length + 2 := by
      rw [hx, length_cons]
      omega
    obtain ⟨p', hfeed', hrel'⟩ := confFeed_rel halloc id hlen (by simp [hx]) hrun
    rw [hfeed] at hfeed'
    obtain rfl : p = p' := congrArg (fun r => r.1) (some.inj hfeed')
    have hmline := confRel_state_eq (hrel' more_ne_stop [])
    rw [hin.state_eq, confRel_state_eq (hrel more_ne_stop)] at hmline
    rw [hafter] at hmline
    cases hmline

/-! ### Both parsers -/

/-- The comment is skipped by every parser that knows it. -/
def Comment.Skipped : Comment → Prop
  | .hash body => ConfSkips (.hash body)
  | c => JsonSkips c.text ∧ ConfSkips c

/-- **Exactly the comments that the parsers skip**: the number of asterisks directly in front of
the first `*/` of a block is even; every comment of a line. -/
theorem comment_iff (c : Comment) (hc : c.Wf) : c.Skipped ↔ c.Ok := by
  cases c with
  | hash body => exact confSkips_iff hc
  | block body =>
    change JsonSkips (Comment.block body).text ∧ ConfSkips (.block body) ↔ _
    rw [jsonSkips_iff hc rfl rfl, confSkips_iff hc, and_self_iff]
  | line body =>
    change JsonSkips (Comment.line body).text ∧ ConfSkips (.line body) ↔ _
    rw [jsonSkips_iff hc rfl rfl, confSkips_iff hc, and_self_iff]

/-- The line `// a`. -/
theorem comment_iff_line :
    (Comment.line [0x20, 0x61]).Wf ∧
      ((Comment.line [0x20, 0x61]).Skipped ↔ (Comment.line [0x20, 0x61]).Ok) :=
  ⟨by unfold Comment.Wf; decide, comment_iff _ (by unfold Comment.Wf; decide)⟩

/-- **A block comment with one more asterisk at its end is not ended**: `/***/` behind nothing. -/
theorem comment_star : ¬∀ c : Comment, c.Wf → c.Skipped := by
  intro h
  have hwf : (Comment.block [0x2a]).Wf := by
    intro p q heq
    have hmem : (0x2f : UInt8) ∈ [0x2a] ++ [0x2a] := by
      rw [heq]
      simp
    exact absurd hmem (by decide)
  obtain ⟨-, hconf⟩ : JsonSkips (Comment.block [0x2a]).text ∧ ConfSkips (.block [0x2a]) :=
    h (.block [0x2a]) hwf
  obtain ⟨-, line, ch, hpost⟩ := hconf (fun _ => true) id 0 [] Conf.confInit [] .more
    (fun _ => rfl) rfl more_ne_stop rfl
  obtain ⟨p, hfeed, hrel⟩ := hpost 0 [] _ [] .more [[0x2f, 0x2a, 0x2a, 0x2a, 0x2f]] 10 rfl
    (by decide) (by decide) (by decide)
  have hstate := confRel_state_eq (hrel more_ne_stop)
  have hmline : (Conf.confFeed (fun _ => true) id 10 [[0x2f, 0x2a, 0x2a, 0x2a, 0x2f]]).map
      (fun r => r.1.state) = some .icmtMline := by decide
  rw [hfeed] at hmline
  have hp : p.state = .icmtMline := some.inj hmline
  rw [hp] at hstate
  cases hstate

end FF
