import FF.Str.Regex

/-!
# The run over a regular expression

What the loop of `ffs_regex` does with the text of each element, and what it returns.
-/

namespace FF

open List

/-! ### What an element does -/

/-- The state and the input behind an element without its `?`. -/
def rxAtomRun (a : RxAtom) : RxSt × List UInt8 → RxSt × List UInt8
  | (.matched, []) => (.nmatch1, [])
  | (.matched, d :: s) => if a.has d then (.matched, s) else (.nmatch1, d :: s)
  | (.nmatch1, s) => if a.isSet then (.nmatch1, s) else (.nmatch, s)
  | (st, s) => (st, s)

/-- The state and the input behind an element. -/
def rxElemRun (w : RxSt × List UInt8) (e : RxElem) : RxSt × List UInt8 :=
  let w := rxAtomRun e.atom w
  if e.opt = true ∧ w.1 = .nmatch1 then (.matched, w.2) else w

/-- **The alternative is accepted** from this state on. -/
def AltAccepts (es : List RxElem) (w : RxSt × List UInt8) : Prop :=
  es.foldl rxElemRun w = (.matched, [])

section Accept

variable {e : RxElem} {es : List RxElem} {s : List UInt8}

theorem altAccepts_cons (e : RxElem) (es : List RxElem) (w : RxSt × List UInt8) :
    AltAccepts (e :: es) w ↔ AltAccepts es (rxElemRun w e) := Iff.rfl

theorem rxElemRun_take {d : UInt8} (hd : e.atom.has d = true) :
    rxElemRun (.matched, d :: s) e = (.matched, s) := by
  have hatom : rxAtomRun e.atom (.matched, d :: s) = (.matched, s) := if_pos hd
  rw [rxElemRun, hatom]
  exact if_neg fun h => RxSt.noConfusion h.2

theorem rxElemRun_miss (hs : ¬e.Starts s) :
    rxElemRun (.matched, s) e = (if e.opt then .matched else .nmatch1, s) := by
  have hatom : rxAtomRun e.atom (.matched, s) = (.nmatch1, s) := by
    cases s with
    | nil => rfl
    | cons d s => exact if_neg fun hd => hs ⟨d, s, rfl, hd⟩
  rw [rxElemRun, hatom]
  cases e.opt <;> rfl

theorem rxElemRun_nmatch1 (e : RxElem) (s : List UInt8) :
    rxElemRun (.nmatch1, s) e =
      (if e.atom.isSet then if e.opt then .matched else .nmatch1 else .nmatch, s) := by
  have hatom : rxAtomRun e.atom (.nmatch1, s) =
      if e.atom.isSet then (.nmatch1, s) else (.nmatch, s) := rfl
  rw [rxElemRun, hatom]
  cases e.atom.isSet <;> cases e.opt <;> rfl

theorem not_altAccepts_nmatch (es : List RxElem) (s : List UInt8) :
    ¬AltAccepts es (.nmatch, s) := by
  induction es with
  | nil => exact fun h => absurd (Prod.mk.inj h).1 (by decide)
  | cons e es ih =>
    have hstep : rxElemRun (.nmatch, s) e = (.nmatch, s) := by
      rw [rxElemRun]
      exact if_neg fun h => RxSt.noConfusion h.2
    rwa [altAccepts_cons, hstep]

/-- **The alternatives that are accepted** are those that can be read in one pass; behind a
mismatch, sets up to an optional one have to follow. -/
theorem altAccepts_iff (es : List RxElem) :
    (∀ s, AltAccepts es (.matched, s) ↔ ∃ b, AltReads es s b) ∧
      ∀ s, AltAccepts es (.nmatch1, s) ↔ ∃ sets f es' b, es = sets ++ f :: es' ∧
        (∀ g ∈ sets, g.atom.isSet = true ∧ g.opt = false) ∧ f.atom.isSet = true ∧
        f.opt = true ∧ AltReads es' s b := by
  induction es with
  | nil =>
    constructor
    · intro s
      constructor
      · intro h
        obtain rfl : s = [] := (Prod.mk.inj h).2
        exact ⟨false, .nil⟩
      · rintro ⟨b, h⟩
        cases h
        rfl
    · intro s
      refine iff_of_false (fun h => absurd (Prod.mk.inj h).1 (by decide)) ?_
      rintro ⟨sets, f, es', b, heq, -⟩
      exact absurd heq.symm (append_ne_nil_of_right_ne_nil _ (cons_ne_nil _ _))
  | cons e es ih =>
    obtain ⟨ihm, ihn⟩ := ih
    constructor
    · intro s
      rw [altAccepts_cons]
      by_cases hs : e.Starts s
      · obtain ⟨d, t, rfl, hd⟩ := hs
        rw [rxElemRun_take hd, ihm]
        constructor
        · rintro ⟨b, h⟩
          exact ⟨b, .take hd h⟩
        · rintro ⟨b, h⟩
          cases h with
          | take _ h => exact ⟨b, h⟩
          | skip _ hs _ => exact absurd ⟨d, t, rfl, hd⟩ hs
          | forgive _ hs _ _ _ _ => exact absurd ⟨d, t, rfl, hd⟩ hs
      rw [rxElemRun_miss hs]
      cases hopt : e.opt with
      | true =>
        rw [if_pos rfl, ihm]
        constructor
        · rintro ⟨b, h⟩
          exact ⟨b, .skip hopt hs h⟩
        · rintro ⟨b, h⟩
          cases h with
          | take hd _ => exact absurd ⟨_, _, rfl, hd⟩ hs
          | skip _ _ h => exact ⟨b, h⟩
          | forgive hopt' _ _ _ _ _ => exact absurd (hopt.symm.trans hopt') (by decide)
      | false =>
        rw [if_neg Bool.false_ne_true, ihn]
        constructor
        · rintro ⟨sets, f, es', b, rfl, hsets, hf, hfopt, h⟩
          exact ⟨true, .forgive hopt hs hsets hf hfopt h⟩
        · rintro ⟨b, h⟩
          cases h with
          | take hd _ => exact absurd ⟨_, _, rfl, hd⟩ hs
          | skip hopt' _ _ => exact absurd (hopt.symm.trans hopt') (by decide)
          | forgive _ _ hsets hf hfopt h => exact ⟨_, _, _, _, rfl, hsets, hf, hfopt, h⟩
    · intro s
      rw [altAccepts_cons, rxElemRun_nmatch1]
      cases hset : e.atom.isSet with
      | false =>
        rw [if_neg Bool.false_ne_true]
        refine iff_of_false (not_altAccepts_nmatch es s) ?_
        rintro ⟨sets, f, es', b, heq, hsets, hf, -, -⟩
        cases sets with
        | nil =>
          obtain rfl : e = f := (List.cons.inj heq).1
          exact absurd (hset.symm.trans hf) (by decide)
        | cons g sets =>
          obtain rfl : e = g := (List.cons.inj heq).1
          exact absurd (hset.symm.trans (hsets e mem_cons_self).1) (by decide)
      | true =>
        rw [if_pos rfl]
        cases hopt : e.opt with
        | true =>
          rw [if_pos rfl, ihm]
          constructor
          · rintro ⟨b, h⟩
            exact ⟨[], e, es, b, rfl, fun g hg => absurd hg not_mem_nil, hset, hopt, h⟩
          rintro ⟨sets, f, es', b, heq, hsets, -, -, h⟩
          cases sets with
          | nil =>
            obtain rfl : es = es' := (List.cons.inj heq).2
            exact ⟨b, h⟩
          | cons g sets =>
            obtain rfl : e = g := (List.cons.inj heq).1
            exact absurd (hopt.symm.trans (hsets e mem_cons_self).2) (by decide)
        | false =>
          rw [if_neg Bool.false_ne_true, ihn]
          constructor
          · rintro ⟨sets, f, es', b, rfl, hsets, hf, hfopt, h⟩
            refine ⟨e :: sets, f, es', b, rfl, ?_, hf, hfopt, h⟩
            intro g hg
            rcases mem_cons.mp hg with rfl | hg
            · exact ⟨hset, hopt⟩
            · exact hsets g hg
          rintro ⟨sets, f, es', b, heq, hsets, hf, hfopt, h⟩
          cases sets with
          | nil =>
            obtain rfl : e = f := (List.cons.inj heq).1
            exact absurd (hopt.symm.trans hfopt) (by decide)
          | cons g sets =>
            exact ⟨sets, f, es', b, (List.cons.inj heq).2,
              fun g' hg' => hsets g' (mem_cons_of_mem g hg'), hf, hfopt, h⟩

end Accept

/-! ### A bracket -/

/-- A member of a set against the input. -/
def rxTry (has : UInt8 → Bool) (r : Rx) : Rx :=
  if r.lastState ≠ .matched ∨ r.found = true then r
  else
    match r.input with
    | [] => { r with lastState := .nmatch1 }
    | d :: input => if has d then { r with input := input, found := true } else r

section Bracket

variable {has has' : UInt8 → Bool} {r : Rx} {s tail : List UInt8} {c : UInt8}

theorem rxTry_done (h : r.lastState ≠ .matched ∨ r.found = true) : rxTry has r = r := if_pos h

theorem rxTry_nil (h : ¬(r.lastState ≠ .matched ∨ r.found = true)) (hin : r.input = []) :
    rxTry has r = { r with lastState := .nmatch1 } := by
  rw [rxTry, if_neg h, hin]

theorem rxTry_cons {d : UInt8} {input : List UInt8}
    (h : ¬(r.lastState ≠ .matched ∨ r.found = true)) (hin : r.input = d :: input) :
    rxTry has r = if has d then { r with input := input, found := true } else r := by
  rw [rxTry, if_neg h, hin]

/-- The state and `prev` do not count. -/
theorem rxTry_with (st : RxSt) (prev : UInt8) :
    rxTry has { r with st := st, prev := prev } =
      { rxTry has r with st := st, prev := prev } := by
  obtain ⟨st₀, input, prev₀, last, found, esc⟩ := r
  rw [rxTry, rxTry]
  split
  · rfl
  cases input with
  | nil => rfl
  | cons d input =>
    dsimp only
    split
    · rfl
    · rfl

/-- **Two members** are tried like one. -/
theorem rxTry_rxTry : rxTry has' (rxTry has r) = rxTry (fun d => has d || has' d) r := by
  by_cases h : r.lastState ≠ .matched ∨ r.found = true
  · rw [rxTry_done h, rxTry_done h, rxTry_done h]
  cases hin : r.input with
  | nil =>
    rw [rxTry_nil h hin, rxTry_nil h hin]
    exact rxTry_done (.inl (show RxSt.nmatch1 ≠ .matched by decide))
  | cons d input =>
    rw [rxTry_cons h hin, rxTry_cons h hin]
    cases hd : has d with
    | true =>
      rw [if_pos rfl, Bool.true_or, if_pos rfl]
      exact rxTry_done (.inr rfl)
    | false =>
      rw [if_neg Bool.false_ne_true, rxTry_cons h hin, Bool.false_or]

/-- The state behind a member of a set. -/
def rxBehind (has : UInt8 → Bool) (prev : UInt8) (r : Rx) : Rx :=
  { rxTry has r with st := .bracket2, prev := prev }

theorem rxTry_esc : (rxTry has r).esc = r.esc := by
  rw [rxTry]
  split
  · rfl
  · split
    · rfl
    · split
      · rfl
      · rfl

/-- **Behind two members** -/
theorem rxBehind_rxBehind (prev prev' : UInt8) :
    rxBehind has' prev' (rxBehind has prev r) = rxBehind (fun d => has d || has' d) prev' r := by
  have hwith := @rxTry_with has' (rxTry has r) .bracket2 prev
  rw [rxTry_rxTry] at hwith
  exact congrArg (fun r : Rx => { r with st := .bracket2, prev := prev' }) hwith

theorem regexMember_one (hst : r.st ≠ .bracketRange) (c : UInt8) :
    ∃ prev, regexMember r c = rxBehind (fun d => c == d) prev r := by
  by_cases h : r.lastState ≠ .matched ∨ r.found = true
  · refine ⟨r.prev, ?_⟩
    rw [rxBehind, rxTry_done h, regexMember]
    simp only [if_pos h]
  cases hin : r.input with
  | nil =>
    refine ⟨r.prev, ?_⟩
    rw [rxBehind, rxTry_nil h hin, regexMember]
    simp only [if_neg h, hin]
  | cons d input =>
    simp only [rxBehind, rxTry_cons h hin]
    rw [regexMember]
    simp only [if_neg h, hin, if_neg hst]
    by_cases hd : c = d
    · refine ⟨c, ?_⟩
      rw [if_pos hd, if_pos (beq_iff_eq.mpr hd)]
    · refine ⟨r.prev, ?_⟩
      rw [if_neg hd, if_neg (mt beq_iff_eq.mp hd)]

theorem regexMember_range (hst : r.st = .bracketRange) (c : UInt8) :
    regexMember r c = rxBehind (fun d => charLe r.prev d && charLe d c) r.prev r := by
  by_cases h : r.lastState ≠ .matched ∨ r.found = true
  · rw [rxBehind, rxTry_done h, regexMember]
    simp only [if_pos h]
  cases hin : r.input with
  | nil =>
    rw [rxBehind, rxTry_nil h hin, regexMember]
    simp only [if_neg h, hin]
  | cons d input =>
    simp only [rxBehind, rxTry_cons h hin]
    rw [regexMember]
    simp only [if_neg h, hin, if_pos hst]
    split
    · rfl
    · rfl

theorem regexByte_run {next : Rx × List UInt8} (h : regexByte s r c tail = .inr next) :
    RunsTo (regexMove s) (r, c :: tail) [] next := by
  refine RunsTo.one ?_
  rw [regexMove]
  simp only [h]

theorem regexByte_bracket {next : Rx × List UInt8} (hst : r.st.inBracket = true)
    (h : ffsRegexBracket r c tail = some next) : regexByte s r c tail = .inr next := by
  rw [regexByte, if_pos hst, h]

theorem bracketChar_run (a : RxSetLit) (hst : r.st.inBracket = true) (hesc : r.esc = false) :
    RunsTo (regexMove s) (r, rxCharText a.esc a.c ++ tail) [] (regexBasic r a.c tail) := by
  have hok := a.ok
  cases hae : a.esc with
  | true =>
    rw [hae, if_pos rfl] at hok
    have hbs : regexByte s r 0x5c (a.c :: tail) =
        .inr ({ r with esc := true }, a.c :: tail) := by
      refine regexByte_bracket hst ?_
      rw [ffsRegexBracket, hesc]
      rfl
    have hchar : regexByte s { r with esc := true } a.c tail =
        .inr (regexBasic r a.c tail) := by
      have hr : ({ { r with esc := true } with esc := false } : Rx) = r := by
        rw [← hesc]
      refine regexByte_bracket hst ?_
      rw [ffsRegexBracket]
      simp only [if_true, if_pos hok, hr]
    exact (regexByte_run hbs).trans (regexByte_run hchar)
  | false =>
    rw [hae, if_neg Bool.false_ne_true] at hok
    have hne : a.c ≠ 0x5c ∧ a.c ≠ 0x2e ∧ a.c ≠ 0x7c ∧ a.c ≠ 0x3f ∧ a.c ≠ 0x5b ∧ a.c ≠ 0x2d ∧
        a.c ≠ 0x5d := by
      simpa [rxEscChars] using hok
    obtain ⟨h1, h2, h3, h4, h5, h6, h7⟩ := hne
    refine regexByte_run (regexByte_bracket hst ?_)
    rw [ffsRegexBracket, hesc, if_neg Bool.false_ne_true, if_neg h1, if_neg h7,
      if_neg (by simp [h2, h3, h4, h5]), if_neg h6]
    rfl

/-- The first byte of a member is no `-`. -/
theorem rxCharText_head (a : RxSetLit) (tail : List UInt8) :
    (rxCharText a.esc a.c ++ tail).head? ≠ some 0x2d := by
  have hok := a.ok
  cases hae : a.esc with
  | true => simp [rxCharText]
  | false =>
    rw [hae, if_neg Bool.false_ne_true] at hok
    simp only [rxCharText, if_neg Bool.false_ne_true, singleton_append, head?_cons,
      ne_eq, Option.some.injEq]
    rintro h
    rw [h] at hok
    exact hok (by decide)

theorem member_head (m : RxMember) (tail : List UInt8) :
    (m.text ++ tail).head? ≠ some 0x2d := by
  cases m with
  | one a => exact rxCharText_head a tail
  | range a b =>
    rw [RxMember.text, append_assoc]
    exact rxCharText_head a _

/-- **The run over a member of a set.** -/
theorem member_run (m : RxMember) (hst : r.st = .bracket1 ∨ r.st = .bracket2)
    (hesc : r.esc = false) (htail : tail.head? ≠ some 0x2d) :
    ∃ prev, RunsTo (regexMove s) (r, m.text ++ tail) []
      (rxBehind (fun d => m.has d) prev r, tail) := by
  have hin : r.st.inBracket = true := by
    rcases hst with h | h
    · rw [h]
      rfl
    · rw [h]
      rfl
  cases m with
  | one a =>
    have hrun := @bracketChar_run r s tail a hin hesc
    obtain ⟨prev, hmember⟩ := @regexMember_one { r with st := .bracket }
      (fun h => RxSt.noConfusion h) a.c
    have hwith : rxBehind (fun d => a.c == d) prev { r with st := .bracket } =
        rxBehind (fun d => a.c == d) prev r :=
      congrArg (fun r : Rx => { r with st := .bracket2, prev := prev })
        (@rxTry_with (fun d => a.c == d) r .bracket r.prev)
    rw [regexBasic, if_pos hst, if_neg htail, hmember, hwith] at hrun
    exact ⟨prev, hrun⟩
  | range a b =>
    have hrun := @bracketChar_run r s (0x2d :: (rxCharText b.esc b.c ++ tail)) a hin hesc
    obtain ⟨r', hr'⟩ : ∃ r' : Rx, r' = { r with prev := a.c, st := .bracketRange } := ⟨_, rfl⟩
    rw [regexBasic, if_pos hst, if_pos head?_cons, tail_cons, ← hr'] at hrun
    have hend := @bracketChar_run r' s tail b (hr' ▸ rfl) (hr' ▸ hesc)
    have hnot : ¬(r'.st = .bracket1 ∨ r'.st = .bracket2) := by
      rw [hr']
      rintro (h | h)
      · cases h
      · cases h
    have hprev : r'.prev = a.c := by rw [hr']
    have hwith : rxBehind (fun d => charLe a.c d && charLe d b.c) a.c r' =
        rxBehind (fun d => charLe a.c d && charLe d b.c) a.c r := by
      rw [hr']
      exact congrArg (fun r : Rx => { r with st := .bracket2, prev := a.c })
        (@rxTry_with (fun d => charLe a.c d && charLe d b.c) r .bracketRange a.c)
    rw [regexBasic, if_neg hnot, regexMember_range (hr' ▸ rfl), hprev, hwith] at hend
    refine ⟨a.c, ?_⟩
    rw [RxMember.text, append_assoc]
    exact hrun.trans hend

/-- **The run over the members of a set.** -/
theorem members_run (m : RxMember) (ms : List RxMember)
    (hst : r.st = .bracket1 ∨ r.st = .bracket2) (hesc : r.esc = false)
    (htail : tail.head? ≠ some 0x2d) :
    ∃ prev, RunsTo (regexMove s) (r, (m :: ms).flatMap RxMember.text ++ tail) []
      (rxBehind (fun d => (m :: ms).any (RxMember.has d)) prev r, tail) := by
  induction ms generalizing m r with
  | nil =>
    have hany : (fun d => [m].any (RxMember.has d)) = fun d => m.has d := by
      funext d
      rw [any_cons, any_nil, Bool.or_false]
    rw [hany, flatMap_cons, flatMap_nil, append_nil]
    exact member_run m hst hesc htail
  | cons m' ms ih =>
    have hhead : ((m' :: ms).flatMap RxMember.text ++ tail).head? ≠ some 0x2d := by
      rw [flatMap_cons, append_assoc]
      exact member_head m' _
    obtain ⟨prev, hrun⟩ := @member_run r s _ m hst hesc hhead
    have hesc' : (rxBehind (fun d => m.has d) prev r).esc = false := rxTry_esc.trans hesc
    obtain ⟨prev', hrest⟩ := ih m' (.inr rfl) hesc'
    rw [rxBehind_rxBehind] at hrest
    refine ⟨prev', ?_⟩
    rw [flatMap_cons, append_assoc]
    exact hrun.trans hrest

end Bracket

/-! ### An element -/

/-- The state between two elements. -/
def Rx.Ready (r : Rx) (w : RxSt × List UInt8) : Prop :=
  r.st = w.1 ∧ r.input = w.2 ∧ r.st.inBracket = false ∧ r.found = false ∧ r.esc = false

section Elem

variable {r : Rx} {w : RxSt × List UInt8} {s tail : List UInt8} {c : UInt8}

theorem Rx.Ready.cases (h : r.Ready w) :
    r.st = .matched ∨ r.st = .nmatch1 ∨ r.st = .nmatch := by
  obtain ⟨-, -, hout, -⟩ := h
  cases hst : r.st with
  | matched => exact .inl rfl
  | nmatch1 => exact .inr (.inl rfl)
  | nmatch => exact .inr (.inr rfl)
  | bracket1 => rw [hst] at hout; cases hout
  | bracket => rw [hst] at hout; cases hout
  | bracketRange => rw [hst] at hout; cases hout
  | bracket2 => rw [hst] at hout; cases hout

/-- **A character** outside brackets. -/
theorem regexChar_ready (a : RxLit) (h : r.Ready w) :
    (regexChar r a.c).Ready (rxAtomRun (.lit a) w) := by
  obtain ⟨st, input, prev, last, found, esc⟩ := r
  obtain ⟨st', input'⟩ := w
  have hcases := h.cases
  obtain ⟨hst, hin, -, hfound, hesc⟩ := h
  subst hst hin hfound hesc
  rcases hcases with rfl | rfl | rfl
  · cases input with
    | nil => exact ⟨rfl, rfl, rfl, rfl, rfl⟩
    | cons d input =>
      have hatom : rxAtomRun (.lit a) (.matched, d :: input) =
          if a.c == d then (.matched, input) else (.nmatch1, d :: input) := rfl
      rw [hatom, regexChar, if_pos rfl]
      by_cases hd : a.c = d
      · simp only [if_pos hd, if_pos (beq_iff_eq.mpr hd)]
        exact ⟨rfl, rfl, rfl, rfl, rfl⟩
      · simp only [if_neg hd, if_neg (mt beq_iff_eq.mp hd)]
        exact ⟨rfl, rfl, rfl, rfl, rfl⟩
  · exact ⟨rfl, rfl, rfl, rfl, rfl⟩
  · exact ⟨rfl, rfl, rfl, rfl, rfl⟩

/-- **The end of a set.** -/
theorem bracket_close (m : RxMember) (ms : List RxMember) (prev : UInt8) (h : r.Ready w) :
    ∃ r', ffsRegexBracket (rxBehind (fun d => (m :: ms).any (RxMember.has d)) prev
        { r with lastState := r.st, st := .bracket1 }) 0x5d tail = some (r', tail) ∧
      r'.Ready (rxAtomRun (.set m ms) w) := by
  obtain ⟨st, input, prev₀, last, found, esc⟩ := r
  obtain ⟨st', input'⟩ := w
  have hcases := h.cases
  obtain ⟨hst, hin, -, hfound, hesc⟩ := h
  subst hst hin hfound hesc
  rcases hcases with rfl | rfl | rfl
  · cases input with
    | nil => exact ⟨_, rfl, rfl, rfl, rfl, rfl, rfl⟩
    | cons d input =>
      have hatom : rxAtomRun (.set m ms) (.matched, d :: input) =
          if (m :: ms).any (RxMember.has d) then (.matched, input)
          else (.nmatch1, d :: input) := rfl
      have htry := @rxTry_cons (fun d => (m :: ms).any (RxMember.has d))
        ⟨.bracket1, d :: input, prev₀, .matched, false, false⟩ d input
        (fun h => h.elim (fun h => h rfl) Bool.false_ne_true) rfl
      rw [hatom, rxBehind, htry]
      cases (m :: ms).any (RxMember.has d) with
      | true => exact ⟨_, rfl, rfl, rfl, rfl, rfl, rfl⟩
      | false => exact ⟨_, rfl, rfl, rfl, rfl, rfl, rfl⟩
  · exact ⟨_, rfl, rfl, rfl, rfl, rfl, rfl⟩
  · exact ⟨_, rfl, rfl, rfl, rfl, rfl, rfl⟩

/-- **The run over a set.** -/
theorem set_run (m : RxMember) (ms : List RxMember) (h : r.Ready w) :
    ∃ r', RunsTo (regexMove s) (r, (RxAtom.set m ms).text ++ tail) [] (r', tail) ∧
      r'.Ready (rxAtomRun (.set m ms) w) := by
  have hopen : ∀ rx, regexByte s r 0x5b rx =
      .inr ({ r with lastState := r.st, st := .bracket1 }, rx) := by
    intro rx
    obtain ⟨-, -, hout, -, hesc⟩ := h
    rw [regexByte, hout, hesc]
    rfl
  obtain ⟨prev, hmembers⟩ := @members_run { r with lastState := r.st, st := .bracket1 } s
    (0x5d :: tail) m ms (.inl rfl) h.2.2.2.2 (by simp)
  obtain ⟨r', hclose, hready⟩ := @bracket_close r w tail m ms prev h
  refine ⟨r', ?_, hready⟩
  have hend : regexByte s (rxBehind (fun d => (m :: ms).any (RxMember.has d)) prev
      { r with lastState := r.st, st := .bracket1 }) 0x5d tail = .inr (r', tail) :=
    regexByte_bracket rfl hclose
  rw [RxAtom.text, cons_append, append_assoc]
  exact (regexByte_run (hopen _)).trans (hmembers.trans (regexByte_run hend))

/-- **The run over an element** without its `?`. -/
theorem atom_run (a : RxAtom) (h : r.Ready w) :
    ∃ r', RunsTo (regexMove s) (r, a.text ++ tail) [] (r', tail) ∧ r'.Ready (rxAtomRun a w) := by
  obtain ⟨hst, hin, hout, hfound, hesc⟩ := h
  cases a with
  | lit a =>
    refine ⟨regexChar r a.c, ?_, regexChar_ready a ⟨hst, hin, hout, hfound, hesc⟩⟩
    have hok := a.ok
    cases hae : a.esc with
    | true =>
      rw [hae, if_pos rfl] at hok
      have hbs : regexByte s r 0x5c (a.c :: tail) =
          .inr ({ r with esc := true }, a.c :: tail) := by
        rw [regexByte, hout, hesc]
        rfl
      have hchar : regexByte s { r with esc := true } a.c tail =
          .inr (regexChar r a.c, tail) := by
        have hr : ({ { r with esc := true } with esc := false } : Rx) = r := by
          rw [← hesc]
        rw [regexByte]
        simp only [hout, if_neg Bool.false_ne_true, if_true, if_pos hok, hr]
      rw [RxAtom.text, rxCharText, hae]
      exact (regexByte_run hbs).trans (regexByte_run hchar)
    | false =>
      rw [hae, if_neg Bool.false_ne_true] at hok
      have hne : a.c ≠ 0x5c ∧ a.c ≠ 0x3f ∧ a.c ≠ 0x5b ∧ a.c ≠ 0x5d ∧ a.c ≠ 0x7c ∧
          a.c ≠ 0x2e := by
        rcases hok with hc | hc
        · rw [hc]
          decide
        · have hall : a.c ≠ 0x5c ∧ a.c ≠ 0x2e ∧ a.c ≠ 0x7c ∧ a.c ≠ 0x3f ∧ a.c ≠ 0x5b ∧
              a.c ≠ 0x2d ∧ a.c ≠ 0x5d := by
            simpa [rxEscChars] using hc
          exact ⟨hall.1, hall.2.2.2.1, hall.2.2.2.2.1, hall.2.2.2.2.2.2, hall.2.2.1,
            hall.2.1⟩
      obtain ⟨h1, h2, h3, h4, h5, h6⟩ := hne
      rw [RxAtom.text, rxCharText, hae]
      refine regexByte_run ?_
      rw [regexByte, hout, hesc, if_neg Bool.false_ne_true, if_neg Bool.false_ne_true,
        if_neg h1, if_neg h2, if_neg h3, if_neg h4, if_neg h5, if_neg fun h => h6 h.1]
      rfl
  | any =>
    obtain ⟨st, input, prev, last, found, esc⟩ := r
    obtain ⟨st', input'⟩ := w
    subst hst hin hfound hesc
    cases st with
    | matched =>
      cases input with
      | nil => exact ⟨_, regexByte_run rfl, rfl, rfl, rfl, rfl, rfl⟩
      | cons d input => exact ⟨_, regexByte_run rfl, rfl, rfl, rfl, rfl, rfl⟩
    | nmatch1 => exact ⟨_, regexByte_run rfl, rfl, rfl, rfl, rfl, rfl⟩
    | nmatch => exact ⟨_, regexByte_run rfl, rfl, rfl, rfl, rfl, rfl⟩
    | bracket1 => cases hout
    | bracket => cases hout
    | bracketRange => cases hout
    | bracket2 => cases hout
  | set m ms => exact set_run m ms ⟨hst, hin, hout, hfound, hesc⟩

/-- **The run over an element.** -/
theorem elem_run (e : RxElem) (h : r.Ready w) :
    ∃ r', RunsTo (regexMove s) (r, e.text ++ tail) [] (r', tail) ∧ r'.Ready (rxElemRun w e) := by
  obtain ⟨r₁, hrun, hready⟩ := @atom_run r w s ((if e.opt then [0x3f] else []) ++ tail) e.atom h
  rw [RxElem.text, append_assoc]
  cases hopt : e.opt with
  | false =>
    refine ⟨r₁, ?_, ?_⟩
    · rw [hopt] at hrun
      exact hrun
    · rw [rxElemRun, hopt]
      exact hready
  | true =>
    rw [hopt] at hrun
    obtain ⟨hst, hin, hout, hfound, hesc⟩ := hready
    refine ⟨if r₁.st = .nmatch1 then { r₁ with st := .matched } else r₁, hrun.trans ?_, ?_⟩
    · refine regexByte_run ?_
      rw [regexByte, if_neg (by rw [hout]; decide), hesc]
      rfl
    rw [rxElemRun, hopt]
    by_cases hn : r₁.st = .nmatch1
    · have helem : (if true = true ∧ (rxAtomRun e.atom w).1 = .nmatch1 then
          (RxSt.matched, (rxAtomRun e.atom w).2) else rxAtomRun e.atom w) =
          (.matched, (rxAtomRun e.atom w).2) := if_pos ⟨rfl, hst ▸ hn⟩
      rw [if_pos hn, helem]
      exact ⟨rfl, hin, rfl, hfound, hesc⟩
    · have helem : (if true = true ∧ (rxAtomRun e.atom w).1 = .nmatch1 then
          (RxSt.matched, (rxAtomRun e.atom w).2) else rxAtomRun e.atom w) =
          rxAtomRun e.atom w := if_neg fun h => hn (hst ▸ h.2)
      rw [if_neg hn, helem]
      exact ⟨hst, hin, hout, hfound, hesc⟩

/-- **The run over an alternative.** -/
theorem alt_run (es : List RxElem) (h : r.Ready w) :
    ∃ r', RunsTo (regexMove s) (r, altText es ++ tail) [] (r', tail) ∧
      r'.Ready (es.foldl rxElemRun w) := by
  induction es generalizing r w with
  | nil => exact ⟨r, fun _ hrun => hrun, h⟩
  | cons e es ih =>
    obtain ⟨r₁, hrun₁, h₁⟩ := @elem_run r w s (altText es ++ tail) e h
    obtain ⟨r₂, hrun₂, h₂⟩ := ih h₁
    refine ⟨r₂, ?_, h₂⟩
    rw [altText, flatMap_cons, append_assoc]
    exact hrun₁.trans hrun₂

/-! ### The whole expression -/

theorem altAccepts_ready {es : List RxElem} (h : r.Ready (es.foldl rxElemRun w)) :
    AltAccepts es w ↔ r.st = .matched ∧ r.input = [] := by
  rw [AltAccepts, h.1, h.2.1]
  exact Prod.ext_iff

/-- **The run over the alternatives**: one of them is accepted, or none. -/
theorem alts_run (es : List RxElem) (rest : List (List RxElem)) (h : r.Ready (.matched, s)) :
    ∃ n, RunEnds (regexMove s) (r, altText es ++ rest.flatMap fun es => 0x7c :: altText es) [n] ∧
      (n = 0 ∨ n = 1) ∧ (n = 0 ↔ AltAccepts es (.matched, s) ∨
        ∃ es' ∈ rest, AltAccepts es' (.matched, s)) := by
  induction rest generalizing r es with
  | nil =>
    obtain ⟨r₁, hrun, h₁⟩ := @alt_run r (.matched, s) s [] es h
    have haccept := altAccepts_ready h₁
    obtain ⟨n, hn, hn01, hn0⟩ : ∃ n, regexMove s (r₁, []) = ([n], none) ∧ (n = 0 ∨ n = 1) ∧
        (n = 0 ↔ r₁.st = .matched ∧ r₁.input = []) := by
      refine ⟨_, rfl, ?_⟩
      rcases h₁.cases with hst | hst | hst
      · by_cases hin : r₁.input = []
        · simp [hst, hin]
        · simp [hst, hin]
      · simp [hst]
      · simp [hst]
    refine ⟨n, hrun _ (RunEnds.last hn), hn01, ?_⟩
    rw [hn0, haccept]
    refine (or_iff_left ?_).symm
    rintro ⟨es', hes', -⟩
    exact not_mem_nil hes'
  | cons es' rest ih =>
    obtain ⟨r₁, hrun, h₁⟩ := @alt_run r (.matched, s) s
      ((es' :: rest).flatMap fun es => 0x7c :: altText es) es h
    have haccept := altAccepts_ready h₁
    obtain ⟨-, -, hout, hfound, hesc⟩ := h₁
    by_cases hend : r₁.st = .matched ∧ r₁.input = []
    · -- the alternative has matched the whole string
      have hbyte : regexByte s r₁ 0x7c
          (altText es' ++ rest.flatMap fun es => 0x7c :: altText es) = .inl 0 := by
        rw [regexByte, hout, hesc]
        exact if_pos hend
      have hmove : regexMove s (r₁, 0x7c ::
          (altText es' ++ rest.flatMap fun es => 0x7c :: altText es)) = ([0], none) := by
        rw [regexMove]
        simp only [hbyte]
      exact ⟨0, hrun _ (RunEnds.last hmove), .inl rfl, iff_of_true rfl (.inl (haccept.mpr hend))⟩
    have hbyte : regexByte s r₁ 0x7c
        (altText es' ++ rest.flatMap fun es => 0x7c :: altText es) =
        .inr ({ r₁ with input := s, st := .matched },
          altText es' ++ rest.flatMap fun es => 0x7c :: altText es) := by
      rw [regexByte, hout, hesc]
      exact if_neg hend
    obtain ⟨n, hrest, hn01, hn0⟩ := @ih { r₁ with input := s, st := .matched } es'
      ⟨rfl, rfl, rfl, hfound, hesc⟩
    refine ⟨n, hrun _ (regexByte_run hbyte _ hrest), hn01, ?_⟩
    rw [hn0, or_iff_right (mt haccept.mp hend)]
    simp only [mem_cons, exists_eq_or_imp]

end Elem

/-! ### Results -/

theorem reads_iff (p : RxPattern) (s : List UInt8) :
    (∃ b, p.Reads s b) ↔ AltAccepts p.first (.matched, s) ∨
      ∃ es ∈ p.rest, AltAccepts es (.matched, s) := by
  constructor
  · rintro ⟨b, h | ⟨es, hes, h⟩⟩
    · exact .inl (((altAccepts_iff _).1 s).mpr ⟨b, h⟩)
    · exact .inr ⟨es, hes, ((altAccepts_iff es).1 s).mpr ⟨b, h⟩⟩
  · rintro (h | ⟨es, hes, h⟩)
    · obtain ⟨b, h⟩ := ((altAccepts_iff _).1 s).mp h
      exact ⟨b, .inl h⟩
    · obtain ⟨b, h⟩ := ((altAccepts_iff es).1 s).mp h
      exact ⟨b, .inr ⟨es, hes, h⟩⟩

/-- **What `ffs_regex` returns**: zero exactly if some alternative is read in one pass. -/
theorem ffsRegex_run (p : RxPattern) (s : List UInt8) :
    ∃ n, FfsRegex p.text s n ∧ (n = 0 ∨ n = 1) ∧ (n = 0 ↔ ∃ b, p.Reads s b) := by
  obtain ⟨n, hrun, hn01, hn0⟩ := @alts_run (Rx.start s) s p.first p.rest
    ⟨rfl, rfl, rfl, rfl, rfl⟩
  exact ⟨n, hrun, hn01, hn0.trans (reads_iff p s).symm⟩

/-- **Without optional elements** the result is the language of the pattern. -/
theorem ffsRegex_plain {p : RxPattern} (hfirst : ∀ e ∈ p.first, e.opt = false)
    (hrest : ∀ es ∈ p.rest, ∀ e ∈ es, e.opt = false) (s : List UInt8) :
    ∃ n, FfsRegex p.text s n ∧ (n = 0 ∨ n = 1) ∧ (n = 0 ↔ p.Has s) := by
  obtain ⟨n, hrun, hn01, hn0⟩ := ffsRegex_run p s
  refine ⟨n, hrun, hn01, hn0.trans ⟨?_, ?_⟩⟩
  · rintro ⟨b, h | ⟨es, hes, h⟩⟩
    · exact .inl ((altReads_plain hfirst).mp ⟨b, h⟩)
    · exact .inr ⟨es, hes, (altReads_plain (hrest es hes)).mp ⟨b, h⟩⟩
  · rintro (h | ⟨es, hes, h⟩)
    · obtain ⟨b, h⟩ := (altReads_plain hfirst).mpr h
      exact ⟨b, .inl h⟩
    · obtain ⟨b, h⟩ := (altReads_plain (hrest es hes)).mpr h
      exact ⟨b, .inr ⟨es, hes, h⟩⟩

theorem ffsRegex_plain_any :
    ∃ n, FfsRegex (RxPattern.text ⟨[⟨.any, false⟩], []⟩) (ascii "a") n ∧ (n = 0 ∨ n = 1) ∧
      (n = 0 ↔ RxPattern.Has ⟨[⟨.any, false⟩], []⟩ (ascii "a")) :=
  ffsRegex_plain (by simp) (by simp) _

end FF
