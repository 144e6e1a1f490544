import FF.Lib.Runs
import FF.Toint
import Mathlib.Algebra.Order.Group.Abs

/-!
# Matching by a format

`ffs_fmatchv` goes through a format and a string together. A number or a run of letters ends where
the string does; `%Ns` and `%NS` take their `N` bytes without a look at the end.
-/

namespace FF

open List Option

/-! ### The function -/

/-- An item of the format. -/
inductive FmItem
  | lit (c : UInt8)
  | num (width : ℕ) (hex : Bool) (size : ℕ)
  | chars (width : ℕ)
  | bytes (width : ℕ)
  | letters
  | bad
  deriving DecidableEq, Repr

/-- What is done: an argument is stored, the function returns, or it reads behind the string. -/
inductive FmEvent
  | num (size w : ℕ)
  | copy (bs : List UInt8)
  | view (pos len : ℕ)
  | ret (r : ℤ)
  | over
  deriving DecidableEq, Repr

/-- The width, as `uint`. -/
def fmWidth (fmt : List UInt8) : ℕ :=
  (fmt.takeWhile ffcharIsdigit).foldl (fun width c => (width * 10 + (c.toNat - 0x30)) % 2 ^ 32) 0

/-- The format behind a width and `x`. -/
def fmSpec (width : ℕ) (hex : Bool) : List UInt8 → FmItem × List UInt8
  | [] => (.bad, [])
  | c :: fmt =>
    (if c = 0x55 then .num width hex 8
     else if c = 0x75 then .num width hex 4
     else if c = 0x73 then if hex = true ∨ width = 0 then .bad else .chars width
     else if c = 0x53 then
       if hex then .bad else if width ≠ 0 then .bytes width else .letters
     else .bad, fmt)

/-- The first item of a format, and what is left of it. -/
def fmItem : List UInt8 → FmItem × List UInt8
  | [] => (.bad, [])
  | c :: fmt =>
    if c ≠ 0x25 then (.lit c, fmt)
    else if fmt.head? = some 0x25 then (.lit 0x25, fmt.tail)
    else
      let spec := fmt.dropWhile ffcharIsdigit
      if spec.head? = some 0x78 then fmSpec (fmWidth fmt) true spec.tail
      else fmSpec (fmWidth fmt) false spec

/-- `goto fail` -/
def fmFail (p : ℕ) : List FmEvent × Option ℕ := ([.ret (-(p + 1))], none)

/-- One item, where `s` has come to the byte `p`; it may be behind the end. -/
def fmStep (s : List UInt8) (p : ℕ) : FmItem → List FmEvent × Option ℕ
  | .lit c =>
    match s[p]? with
    | none => ([.over], none)
    | some d => if c = d then ([], some (p + 1)) else fmFail p
  | .num width hex size =>
    if s.length < p then ([.over], none)
    else
      let n := if width = 0 then s.length - p else min (s.length - p) width
      match ffsToint ((s.drop p).take n) ⟨size, false, hex, false⟩ with
      | none => fmFail p
      | some (k, w) => ([.num size w], some (p + k))
  | .chars width =>
    if p + width ≤ s.length then ([.copy ((s.drop p).take width)], some (p + width))
    else ([.over], none)
  | .bytes width => ([.view p width], some (p + width))
  | .letters =>
    if s.length < p then ([.over], none)
    else
      let n := ((s.drop p).takeWhile ffcharIsletter).length
      ([.view p n], some (p + n))
  | .bad => fmFail p

/-- The loop of `ffs_fmatchv`: the rest of the format, and the place in the string. -/
def fmatchMove (s : List UInt8) (st : List UInt8 × ℕ) :
    List FmEvent × Option (List UInt8 × ℕ) :=
  if st.2 ≠ s.length ∧ st.1 ≠ [] then
    let out := fmStep s st.2 (fmItem st.1).1
    (out.1, out.2.map fun p => ((fmItem st.1).2, p))
  else if st.1 ≠ [] then ([.ret (-(st.2 + 1))], none)
  else ([.ret st.2], none)

/-- **`ffs_fmatchv` does this**, with the format `fmt` up to its zero byte. -/
def FfsFmatchv (s fmt : List UInt8) (es : List FmEvent) : Prop :=
  RunEnds (fmatchMove s) (fmt.takeWhile (· != 0), 0) es

/-! ### What it is for -/

/-- **An item takes `k` bytes** at the begin of `rest`. -/
def FmItem.Takes (rest : List UInt8) (k : ℕ) : FmItem → Prop
  | .lit c => rest.head? = some c ∧ k = 1
  | .num width hex size =>
    ∃ w, ffsToint (if width = 0 then rest else rest.take width) ⟨size, false, hex, false⟩ =
      some (k, w)
  | .chars width => width ≤ rest.length ∧ k = width
  | .bytes width => width ≤ rest.length ∧ k = width
  | .letters => k = (rest.takeWhile ffcharIsletter).length
  | .bad => False

/-- The next item of the format is there in the string. -/
def FmTakes (s : List UInt8) (st st' : List UInt8 × ℕ) : Prop :=
  st.1 ≠ [] ∧ st.2 < s.length ∧ st'.1 = (fmItem st.1).2 ∧
    ∃ k, (fmItem st.1).1.Takes (s.drop st.2) k ∧ st'.2 = st.2 + k

/-- A begin of the format matches. -/
def FmReaches (s : List UInt8) : List UInt8 × ℕ → List UInt8 × ℕ → Prop :=
  Relation.ReflTransGen (FmTakes s)

/-- **What a caller relies on**: the string is not left; `n` is returned if the format matches the
first `n` bytes, and `-(k + 1)` if the begin of it up to some item matches the first `k` bytes, and
that item is not there. -/
def FmatchOk (s : List UInt8) (st : List UInt8 × ℕ) (es : List FmEvent) : Prop :=
  ∃ (vs : List FmEvent) (r : ℤ), es = vs ++ [FmEvent.ret r] ∧ .over ∉ vs ∧ |r| ≤ s.length + 1 ∧
    (∀ n : ℕ, r = n → n ≤ s.length ∧ FmReaches s st ([], n)) ∧
    ∀ k : ℕ, r = -(k + 1) → k ≤ s.length ∧
      ∃ fmt, fmt ≠ [] ∧ FmReaches s st (fmt, k) ∧ ∀ st', ¬FmTakes s (fmt, k) st'

/-- **The condition**: where the format comes to `%Ns` or `%NS`, the string has `N` bytes left. -/
def FmatchFits (s : List UInt8) (st : List UInt8 × ℕ) : Prop :=
  ∀ fmt n width, FmReaches s st (fmt, n) → fmt ≠ [] → n < s.length →
    ((fmItem fmt).1 = .chars width ∨ (fmItem fmt).1 = .bytes width) → n + width ≤ s.length

/-! ### One item -/

theorem fmSpec_length (width : ℕ) (hex : Bool) (fmt : List UInt8) :
    (fmSpec width hex fmt).2.length ≤ fmt.length := by
  cases fmt with
  | nil => exact le_rfl
  | cons c fmt => exact Nat.le_succ _

theorem fmItem_length {fmt : List UInt8} (hfmt : fmt ≠ []) :
    (fmItem fmt).2.length < fmt.length := by
  cases fmt with
  | nil => exact absurd rfl hfmt
  | cons c fmt =>
    have hspec := length_dropWhile_le ffcharIsdigit fmt
    rw [fmItem, length_cons]
    split
    · exact Nat.lt_succ_self _
    split
    · rw [length_tail]
      omega
    dsimp only
    split
    · have hlen := fmSpec_length (fmWidth fmt) true (fmt.dropWhile ffcharIsdigit).tail
      rw [length_tail] at hlen
      omega
    · have hlen := fmSpec_length (fmWidth fmt) false (fmt.dropWhile ffcharIsdigit)
      omega

section Fmatch

variable {s : List UInt8} {p k : ℕ} {item : FmItem} {st st' : List UInt8 × ℕ}

theorem ffsToint_length {src : List UInt8} {size w : ℕ} {hex : Bool}
    (h : ffsToint src ⟨size, false, hex, false⟩ = some (k, w)) : k ≤ src.length := by
  by_cases hvalid : IntFlags.Valid ⟨size, false, hex, false⟩
  · rw [ffsToint_eq src hvalid] at h
    split at h
    · cases h
    have hsign : intSign src ⟨size, false, hex, false⟩ = 0 := rfl
    have hk : intSign src ⟨size, false, hex, false⟩ +
        (intTaken src ⟨size, false, hex, false⟩).length = k :=
      congrArg Prod.fst (some.inj h)
    have hle : (intTaken src ⟨size, false, hex, false⟩).length ≤ src.length :=
      ( takeWhile_prefix _).length_le
    omega
  have hnone : ffsToint src ⟨size, false, hex, false⟩ = none := by
    have hsize : ¬(size = 8 ∨ size = 4 ∨ size = 2 ∨ size = 1) := fun h' =>
      hvalid (by simp only [IntFlags.Valid]; omega)
    simp only [ffsToint, if_neg hsize, ite_self]
    exact Option.bind_fun_none _
  rw [hnone] at h
  cases h

theorem takes_le (h : item.Takes (s.drop p) k) (hp : p < s.length) : p + k ≤ s.length := by
  have hlen : (s.drop p).length = s.length - p := length_drop
  cases item with
  | lit c =>
    rw [h.2]
    exact hp
  | num width hex size =>
    obtain ⟨w, hw⟩ := h
    have hk := ffsToint_length hw
    split at hk
    · omega
    · rw [length_take] at hk
      omega
  | chars width =>
    obtain ⟨hle, rfl⟩ := h
    omega
  | bytes width =>
    obtain ⟨hle, rfl⟩ := h
    omega
  | letters =>
    have hle := ( takeWhile_prefix ffcharIsletter (l := s.drop p)).length_le
    rw [h]
    omega
  | bad => exact h.elim

theorem take_width (s : List UInt8) (p width : ℕ) :
    (s.drop p).take (if width = 0 then s.length - p else min (s.length - p) width) =
      if width = 0 then s.drop p else (s.drop p).take width := by
  have hlen : (s.drop p).length = s.length - p := length_drop
  rw [← hlen]
  split
  · exact take_length
  · rw [Nat.min_comm, take_eq_take_iff, Nat.min_assoc, Nat.min_self]

/-- **An item that is there**: the place behind it. -/
theorem fmStep_takes (h : item.Takes (s.drop p) k) (hp : p < s.length) :
    ∃ vs, fmStep s p item = (vs, some (p + k)) ∧ .over ∉ vs ∧ ∀ r, .ret r ∉ vs := by
  have hlen : (s.drop p).length = s.length - p := length_drop
  have hbehind : ¬s.length < p := by omega
  cases item with
  | lit c =>
    obtain ⟨hc, rfl⟩ := h
    rw [head?_drop] at hc
    refine ⟨[], ?_, not_mem_nil, fun r => not_mem_nil⟩
    rw [fmStep, hc]
    exact if_pos rfl
  | num width hex size =>
    obtain ⟨w, hw⟩ := h
    refine ⟨[.num size w], ?_, by simp, by simp⟩
    rw [fmStep, if_neg hbehind]
    dsimp only
    rw [take_width, hw]
  | chars width =>
    obtain ⟨hle, rfl⟩ := h
    refine ⟨[.copy ((s.drop p).take k)], ?_, by simp, by simp⟩
    rw [fmStep, if_pos (by omega)]
  | bytes width =>
    obtain ⟨hle, rfl⟩ := h
    exact ⟨[.view p k], rfl, by simp, by simp⟩
  | letters =>
    refine ⟨[.view p k], ?_, by simp, by simp⟩
    rw [fmStep, if_neg hbehind, h]
  | bad => exact h.elim

/-- **An item that is not there**, if it is not one with too large a width. -/
theorem fmStep_fails (h : ∀ k, ¬item.Takes (s.drop p) k) (hp : p < s.length)
    (hfit : ∀ width, item = .chars width ∨ item = .bytes width → p + width ≤ s.length) :
    fmStep s p item = fmFail p := by
  have hlen : (s.drop p).length = s.length - p := length_drop
  have hbehind : ¬s.length < p := by omega
  cases item with
  | lit c =>
    have hc : c ≠ s[p] := by
      rintro rfl
      exact h 1 ⟨by rw [head?_drop, getElem?_eq_getElem hp], rfl⟩
    rw [fmStep, getElem?_eq_getElem hp]
    exact if_neg hc
  | num width hex size =>
    have hnone : ffsToint (if width = 0 then s.drop p else (s.drop p).take width)
        ⟨size, false, hex, false⟩ = none := by
      rw [Option.eq_none_iff_forall_ne_some]
      rintro ⟨k, w⟩ hkw
      exact h k ⟨w, hkw⟩
    rw [fmStep, if_neg hbehind]
    dsimp only
    rw [take_width, hnone]
  | chars width =>
    have hle := hfit width (.inl rfl)
    exact absurd ⟨by omega, rfl⟩ (h width)
  | bytes width =>
    have hle := hfit width (.inr rfl)
    exact absurd ⟨by omega, rfl⟩ (h width)
  | letters => exact absurd rfl (h _)
  | bad => rfl

theorem fmStep_behind (item : FmItem) (hp : s.length < p) :
    fmStep s p item = ([.over], none) ∨ fmStep s p item = fmFail p ∨
      ∃ vs p', fmStep s p item = (vs, some p') ∧ p ≤ p' := by
  cases item with
  | lit c =>
    left
    rw [fmStep, getElem?_eq_none hp.le]
  | num width hex size =>
    left
    rw [fmStep, if_pos hp]
  | chars width =>
    left
    rw [fmStep, if_neg (by omega)]
  | bytes width => exact .inr (.inr ⟨_, _, rfl, Nat.le_add_right _ _⟩)
  | letters =>
    left
    rw [fmStep, if_pos hp]
  | bad => exact .inr (.inl rfl)

/-! ### The run -/

theorem fmatchMove_item {fmt : List UInt8} (hfmt : fmt ≠ []) (hp : p ≠ s.length) :
    fmatchMove s (fmt, p) =
      ((fmStep s p (fmItem fmt).1).1,
        (fmStep s p (fmItem fmt).1).2.map fun p => ((fmItem fmt).2, p)) :=
  if_pos ⟨hp, hfmt⟩

/-- What goes wrong. -/
def FmBad (s : List UInt8) (es : List FmEvent) : Prop :=
  .over ∈ es ∨ ∃ vs, ∃ r : ℤ, es = vs ++ [FmEvent.ret r] ∧ (s.length < r ∨ r < -(s.length + 1))

theorem FmBad.not_ok {es : List FmEvent} (h : FmBad s es) (st : List UInt8 × ℕ) :
    ¬FmatchOk s st es := by
  rintro ⟨vs, r, rfl, hover, habs, hend, -⟩
  obtain ⟨hle, hge⟩ := abs_le.mp habs
  rcases h with h | ⟨vs', r', heq, hr⟩
  · rcases mem_append.mp h with h | h
    · exact hover h
    · cases mem_singleton.mp h
  have hret : r = r' := by
    have hlast := congrArg List.getLast? heq
    rw [getLast?_concat, getLast?_concat] at hlast
    exact FmEvent.ret.inj (some.inj hlast)
  rcases hr with hr | hr
  · have hn := (hend r.toNat (by omega)).1
    omega
  · omega

theorem FmBad.append {es : List FmEvent} (h : FmBad s es) (vs : List FmEvent) :
    FmBad s (vs ++ es) := by
  rcases h with h | ⟨vs', r, rfl, hr⟩
  · exact .inl (mem_append_right vs h)
  · exact .inr ⟨vs ++ vs', r, (append_assoc vs vs' _).symm, hr⟩

/-- **Behind the end of the string, every run goes wrong.** -/
theorem fmatch_behind (n : ℕ) (fmt : List UInt8) (hn : fmt.length ≤ n) (hp : s.length < p) :
    ∃ es, RunEnds (fmatchMove s) (fmt, p) es ∧ FmBad s es := by
  induction n generalizing fmt p with
  | zero =>
    have hnil : fmt = [] := length_eq_zero_iff.mp (Nat.le_zero.mp hn)
    have hmove : fmatchMove s (fmt, p) = ([.ret p], none) := by
      rw [hnil]
      simp [fmatchMove]
    exact ⟨_, RunEnds.last hmove, .inr ⟨[], p, rfl, .inl (by omega)⟩⟩
  | succ n ih =>
    by_cases hfmt : fmt = []
    · have hmove : fmatchMove s (fmt, p) = ([.ret p], none) := by
        rw [hfmt]
        simp [fmatchMove]
      exact ⟨_, RunEnds.last hmove, .inr ⟨[], p, rfl, .inl (by omega)⟩⟩
    have hmove := @fmatchMove_item s p fmt hfmt (by omega)
    have hlen := fmItem_length hfmt
    rcases fmStep_behind (fmItem fmt).1 hp with h | h | ⟨vs, p', h, hle⟩
    · rw [h] at hmove
      exact ⟨_, RunEnds.last hmove, .inl (mem_singleton_self _)⟩
    · rw [h] at hmove
      exact ⟨_, RunEnds.last hmove, .inr ⟨[], _, rfl, .inr (by omega)⟩⟩
    · rw [h] at hmove
      obtain ⟨es, hrun, hbad⟩ := @ih p' (fmItem fmt).2 (by omega) (by omega)
      exact ⟨vs ++ es, RunEnds.cons hmove hrun, hbad.append vs⟩

theorem takes_unique {rest : List UInt8} {k k' : ℕ} (h : item.Takes rest k)
    (h' : item.Takes rest k') : k = k' := by
  cases item with
  | lit c => rw [h.2, h'.2]
  | num width hex size =>
    obtain ⟨w, hw⟩ := h
    obtain ⟨w', hw'⟩ := h'
    exact congrArg Prod.fst (some.inj (hw.symm.trans hw'))
  | chars width => rw [h.2, h'.2]
  | bytes width => rw [h.2, h'.2]
  | letters => exact h.trans h'.symm
  | bad => exact h.elim

theorem fmTakes_unique {st'' : List UInt8 × ℕ} (h : FmTakes s st st') (h' : FmTakes s st st'') :
    st' = st'' := by
  obtain ⟨-, -, hfmt, k, hk, hp⟩ := h
  obtain ⟨-, -, hfmt', k', hk', hp'⟩ := h'
  exact Prod.ext (hfmt.trans hfmt'.symm) (by rw [hp, hp', takes_unique hk hk'])

theorem fmReaches_step {st'' : List UInt8 × ℕ} (h : FmTakes s st st') :
    FmReaches s st st'' ↔ st'' = st ∨ FmReaches s st' st'' := by
  constructor
  · intro hreach
    rcases Relation.ReflTransGen.cases_head hreach with heq | ⟨st₁, hstep, hrest⟩
    · exact .inl heq.symm
    · exact .inr (fmTakes_unique hstep h ▸ hrest)
  · rintro (rfl | hreach)
    · exact Relation.ReflTransGen.refl
    · exact Relation.ReflTransGen.head h hreach

theorem fmReaches_stuck (h : ∀ st', ¬FmTakes s st st') (hreach : FmReaches s st st') :
    st' = st := by
  rcases Relation.ReflTransGen.cases_head hreach with heq | ⟨st₁, hstep, -⟩
  · exact heq.symm
  · exact absurd hstep (h st₁)

/-- **The result for a run with a first step.** -/
theorem fmatchOk_step {vs es : List FmEvent} (h : FmTakes s st st') (hvs : .over ∉ vs)
    (hret : ∀ r, .ret r ∉ vs) : FmatchOk s st (vs ++ es) ↔ FmatchOk s st' es := by
  have hne : ∀ p, st ≠ ([], p) := fun p heq => h.1 (by rw [heq])
  constructor
  · rintro ⟨us, r, heq, hover, habs, hend, hmis⟩
    have hes : ∃ ws, es = ws ++ [FmEvent.ret r] ∧ us = vs ++ ws := by
      rcases append_eq_append_iff.mp heq with ⟨ws, hus, hes⟩ | ⟨ws, hvs', hes⟩
      · exact ⟨ws, hes, hus⟩
      cases ws with
      | nil =>
        rw [nil_append] at hes
        rw [append_nil] at hvs'
        exact ⟨[], hes.symm, by rw [append_nil, hvs']⟩
      | cons w ws =>
        have hw : w = .ret r := (List.cons.inj hes).1.symm
        rw [hvs', hw] at hret
        exact absurd (mem_append_right us mem_cons_self) (hret r)
    obtain ⟨ws, rfl, rfl⟩ := hes
    refine ⟨ws, r, rfl, fun hmem => hover (mem_append_right vs hmem), habs, ?_, ?_⟩
    · intro n hn
      obtain ⟨hle, hreach⟩ := hend n hn
      exact ⟨hle, ((fmReaches_step h).mp hreach).resolve_left (hne n).symm⟩
    · intro k hk
      obtain ⟨hle, fmt, hfmt, hreach, hstuck⟩ := hmis k hk
      refine ⟨hle, fmt, hfmt, ((fmReaches_step h).mp hreach).resolve_left ?_, hstuck⟩
      rintro heq
      exact hstuck st' (heq ▸ h)
  rintro ⟨ws, r, rfl, hover, habs, hend, hmis⟩
  refine ⟨vs ++ ws, r, (append_assoc vs ws _).symm, ?_, habs, ?_, ?_⟩
  · intro hmem
    rcases mem_append.mp hmem with hmem | hmem
    · exact hvs hmem
    · exact hover hmem
  · intro n hn
    obtain ⟨hle, hreach⟩ := hend n hn
    exact ⟨hle, (fmReaches_step h).mpr (.inr hreach)⟩
  · intro k hk
    obtain ⟨hle, fmt, hfmt, hreach, hstuck⟩ := hmis k hk
    exact ⟨hle, fmt, hfmt, (fmReaches_step h).mpr (.inr hreach), hstuck⟩

theorem fmatchFits_step (h : FmTakes s st st') : FmatchFits s st ↔ FmatchFits s st' := by
  constructor
  · intro hfit fmt n width hreach
    exact hfit fmt n width ((fmReaches_step h).mpr (.inr hreach))
  intro hfit fmt n width hreach hfmt hn hitem
  rcases (fmReaches_step h).mp hreach with heq | hreach
  · obtain ⟨-, -, -, k, hk, -⟩ := heq ▸ h
    have hlen : (s.drop n).length = s.length - n := length_drop
    dsimp only at hk
    rcases hitem with hitem | hitem
    · rw [hitem] at hk
      have hle := hk.1
      omega
    · rw [hitem] at hk
      have hle := hk.1
      omega
  · exact hfit fmt n width hreach hfmt hn hitem

theorem fmatchOk_fail {fmt : List UInt8} (hfmt : fmt ≠ []) (hp : p ≤ s.length)
    (hstuck : ∀ st', ¬FmTakes s (fmt, p) st') :
    FmatchOk s (fmt, p) [.ret (-((p : ℤ) + 1))] := by
  refine ⟨[], _, rfl, not_mem_nil, ?_, ?_, ?_⟩
  · rw [abs_neg, abs_of_nonneg (by omega)]
    omega
  · intro n hn
    omega
  · intro k hk
    obtain rfl : k = p := by omega
    exact ⟨hp, fmt, hfmt, Relation.ReflTransGen.refl, hstuck⟩

theorem fmatch_end {fmt : List UInt8} (hp : p ≤ s.length) (hend : fmt = [] ∨ p = s.length) :
    ∃ es, RunEnds (fmatchMove s) (fmt, p) es ∧ FmatchOk s (fmt, p) es ∧
      FmatchFits s (fmt, p) := by
  have hstuck : ∀ st', ¬FmTakes s (fmt, p) st' := by
    rintro st' ⟨hfmt, hlt, -⟩
    rcases hend with h | h
    · exact hfmt h
    · exact absurd h (Nat.ne_of_lt hlt)
  have hfits : FmatchFits s (fmt, p) := by
    intro fmt' n width hreach hfmt hn
    obtain ⟨rfl, rfl⟩ := Prod.mk.inj (fmReaches_stuck hstuck hreach)
    rcases hend with h | h
    · exact absurd h hfmt
    · exact absurd h (Nat.ne_of_lt hn)
  have hloop : ¬(p ≠ s.length ∧ fmt ≠ []) := by
    rintro ⟨h1, h2⟩
    exact hend.elim h2 h1
  by_cases hfmt : fmt = []
  · have hmove : fmatchMove s (fmt, p) = ([.ret p], none) := by
      rw [fmatchMove, if_neg hloop]
      exact if_neg (not_not.mpr hfmt)
    refine ⟨_, RunEnds.last hmove, ⟨[], p, rfl, not_mem_nil, ?_, ?_, ?_⟩, hfits⟩
    · rw [abs_of_nonneg (by omega)]
      omega
    · intro n hn
      obtain rfl : p = n := by omega
      exact ⟨hp, hfmt ▸ Relation.ReflTransGen.refl⟩
    · intro k hk
      omega
  · have hmove : fmatchMove s (fmt, p) = ([.ret (-(p + 1))], none) := by
      rw [fmatchMove, if_neg hloop]
      exact if_pos hfmt
    exact ⟨_, RunEnds.last hmove, fmatchOk_fail hfmt hp hstuck, hfits⟩

theorem fmatch_wide {fmt : List UInt8} {width : ℕ} (hfmt : fmt ≠ []) (hp : p < s.length)
    (hitem : (fmItem fmt).1 = .chars width ∨ (fmItem fmt).1 = .bytes width)
    (hover : s.length < p + width) :
    ∃ es, RunEnds (fmatchMove s) (fmt, p) es ∧ ¬FmatchOk s (fmt, p) es ∧
      ¬FmatchFits s (fmt, p) := by
  have hmove := @fmatchMove_item s p fmt hfmt (by omega)
  have hnofit : ¬FmatchFits s (fmt, p) := fun hfit =>
    absurd (hfit fmt p width Relation.ReflTransGen.refl hfmt hp hitem) (not_le.mpr hover)
  rcases hitem with hitem | hitem
  · rw [hitem, fmStep, if_neg (not_le.mpr hover)] at hmove
    exact ⟨_, RunEnds.last hmove, FmBad.not_ok (.inl (mem_singleton_self _)) _, hnofit⟩
  · rw [hitem] at hmove
    obtain ⟨es, hrun, hbad⟩ := fmatch_behind _ (fmItem fmt).2 le_rfl hover
    exact ⟨_, RunEnds.cons hmove hrun, (hbad.append _).not_ok _, hnofit⟩

/-- **The run from any place in the string.** -/
theorem fmatch_run (n : ℕ) (fmt : List UInt8) (hn : fmt.length ≤ n) (hp : p ≤ s.length) :
    ∃ es, RunEnds (fmatchMove s) (fmt, p) es ∧
      (FmatchOk s (fmt, p) es ↔ FmatchFits s (fmt, p)) := by
  induction n generalizing fmt p with
  | zero =>
    have hnil : fmt = [] := length_eq_zero_iff.mp (Nat.le_zero.mp hn)
    obtain ⟨es, hrun, hok, hfits⟩ := @fmatch_end s p fmt hp (.inl hnil)
    exact ⟨es, hrun, iff_of_true hok hfits⟩
  | succ n ih =>
    by_cases hend : fmt = [] ∨ p = s.length
    · obtain ⟨es, hrun, hok, hfits⟩ := fmatch_end hp hend
      exact ⟨es, hrun, iff_of_true hok hfits⟩
    obtain ⟨hfmt, hne⟩ := not_or.mp hend
    have hlt : p < s.length := by omega
    have hlen := fmItem_length hfmt
    have hmove := @fmatchMove_item s p fmt hfmt hne
    by_cases htakes : ∃ k, (fmItem fmt).1.Takes (s.drop p) k
    · -- the item is there, and the run goes on behind it
      obtain ⟨k, hk⟩ := htakes
      obtain ⟨vs, hstep, hover, hret⟩ := fmStep_takes hk hlt
      have htake : FmTakes s (fmt, p) ((fmItem fmt).2, p + k) := ⟨hfmt, hlt, rfl, k, hk, rfl⟩
      obtain ⟨es, hrun, hiff⟩ := @ih (p + k) (fmItem fmt).2 (by omega) (takes_le hk hlt)
      rw [hstep] at hmove
      refine ⟨vs ++ es, RunEnds.cons hmove hrun, ?_⟩
      rw [fmatchOk_step htake hover hret, fmatchFits_step htake, hiff]
    have hstuck : ∀ st', ¬FmTakes s (fmt, p) st' := by
      rintro st' ⟨-, -, -, k, hk, -⟩
      exact htakes ⟨k, hk⟩
    by_cases hwide : ∃ width,
        ((fmItem fmt).1 = .chars width ∨ (fmItem fmt).1 = .bytes width) ∧ s.length < p + width
    · obtain ⟨width, hitem, hover⟩ := hwide
      obtain ⟨es, hrun, hnok, hnofit⟩ := fmatch_wide hfmt hlt hitem hover
      exact ⟨es, hrun, iff_of_false hnok hnofit⟩
    have hfit : ∀ width, (fmItem fmt).1 = .chars width ∨ (fmItem fmt).1 = .bytes width →
        p + width ≤ s.length := fun width hitem =>
      not_lt.mp fun hover => hwide ⟨width, hitem, hover⟩
    rw [fmStep_fails (fun k hk => htakes ⟨k, hk⟩) hlt hfit] at hmove
    refine ⟨_, RunEnds.last hmove, iff_of_true (fmatchOk_fail hfmt hp hstuck) ?_⟩
    intro fmt' n' width hreach _ _ hitem
    obtain ⟨rfl, rfl⟩ := Prod.mk.inj (fmReaches_stuck hstuck hreach)
    exact hfit width hitem

end Fmatch

/-! ### Results -/

/-- **When `ffs_fmatchv` stays in the string and its result is right**: if no width for `s` or `S`
is larger than what is left of the string there. -/
theorem ffsFmatchv_iff (s fmt : List UInt8) :
    ∃ es, FfsFmatchv s fmt es ∧
      (FmatchOk s (fmt.takeWhile (· != 0), 0) es ↔
        FmatchFits s (fmt.takeWhile (· != 0), 0)) :=
  fmatch_run _ _ le_rfl (Nat.zero_le _)

/-- `%4S` gives four bytes of the string `ab`. -/
theorem ffsFmatchv_wide :
    ¬∀ s fmt es, FfsFmatchv s fmt es → FmatchOk s (fmt.takeWhile (· != 0), 0) es := by
  intro h
  have hrun : FfsFmatchv (ascii "ab") (ascii "%4S") [.view 0 4, .ret 4] := by
    refine ⟨2, fun fuel hfuel => ?_⟩
    obtain ⟨n, rfl⟩ : ∃ n, fuel = n + 2 := ⟨fuel - 2, by omega⟩
    rfl
  obtain ⟨vs, r, heq, -, -, hend, -⟩ := h _ _ _ hrun
  have hr : r = 4 := by
    have hlast := congrArg List.getLast? heq
    rw [getLast?_concat] at hlast
    exact (FmEvent.ret.inj (some.inj hlast)).symm
  exact absurd (hend 4 hr).1 (by decide)

end FF
