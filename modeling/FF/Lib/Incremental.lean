import Mathlib.Order.Basic

/-!
# Incremental parsers

A parser is called with a chunk of the input. Its loop makes passes over the bytes: a pass may
leave the byte for the next pass, and a code other than `more` ends the call, so that the caller
calls again with the rest of the chunk. The parser may keep references to the chunk; when a call
ends for want of input it has to keep what it needs itself, because the memory of a chunk
belongs to the caller (`between`).

What the input means is given by a machine that sees one byte at a time and never refers to the
input (`byteRun`). `ChunkSim` says that the passes of the parser follow the machine.
-/

namespace FF

open List Option

/-- What a code means: the input is used up, an event, or the end of parsing. -/
inductive Verdict
  | more
  | event
  | stop
  deriving DecidableEq, Repr

section Definitions

variable {P A β ε E : Type}

/-- The loop of a call: passes over the chunk until a pass gives a code. -/
@[grind =] def callLoop (pass : P → List β → Option (P × ε × Bool)) (verdict : ε → Verdict) (more : ε) :
    ℕ → P → List β → Option (P × ε × List β)
  | _, p, [] => some (p, more, [])
  | 0, _, _ => none
  | n + 1, p, c :: cs => do
      let (p, er, consumed) ← pass p (c :: cs)
      let rest := if consumed then cs else c :: cs
      match verdict er with
      | .more => callLoop pass verdict more n p rest
      | _ => some (p, er, rest)

/-- The caller: calls until the chunk is used up or parsing ends. The events and the last
code. -/
@[grind =] def feedChunk (call : P → List β → Option (P × ε × List β)) (verdict : ε → Verdict)
    (event : P → ε → E) : ℕ → P → List β → Option (P × List E × ε)
  | 0, _, _ => none
  | n + 1, p, d => do
      let (p, er, rest) ← call p d
      match verdict er with
      | .more | .stop => some (p, [], er)
      | .event =>
        if rest.isEmpty then some (p, [event p er], er)
        else
          let (p', es, er') ← feedChunk call verdict event n p rest
          some (p', event p er :: es, er')

/-- The caller with chunks one after another. -/
@[grind =] def feedChunks (call : P → List β → Option (P × ε × List β)) (verdict : ε → Verdict)
    (event : P → ε → E) (between : P → P) (n : ℕ) :
    P → ε → List (List β) → Option (P × List E × ε)
  | p, er, [] => some (p, [], er)
  | p, _, d :: ds => do
      let (p, es, er) ← feedChunk call verdict event n p d
      if verdict er = .stop then some (p, es, er)
      else
        let (p', es', er') ← feedChunks call verdict event between n (between p) er ds
        some (p', es ++ es', er')

/-- The machine that sees one byte at a time. -/
@[grind =] def byteRun (pass : A → β → Option (A × ε × Bool)) (verdict : ε → Verdict) (event : A → ε → E) :
    ℕ → A → ε → List β → Option (A × List E × ε)
  | _, a, er, [] => some (a, [], er)
  | 0, _, _, _ => none
  | n + 1, a, _, c :: cs => do
      let (a, er, consumed) ← pass a c
      let rest := if consumed then cs else c :: cs
      match verdict er with
      | .more => byteRun pass verdict event n a er rest
      | .stop => some (a, [], er)
      | .event =>
        let (a', es, er') ← byteRun pass verdict event n a er rest
        some (a', event a er :: es, er')

end Definitions

section Machine

variable {A β ε E : Type} {pass : A → β → Option (A × ε × Bool)} {verdict : ε → Verdict}
  {event : A → ε → E}

/-- More steps do not change the result. -/
theorem byteRun_mono {n m : ℕ} (hnm : n ≤ m) {a : A} {er : ε} {d : List β} {r : A × List E × ε}
    (h : byteRun pass verdict event n a er d = some r) :
    byteRun pass verdict event m a er d = some r := by
  induction n generalizing m a er d r with
  | zero =>
    cases d with
    | nil => cases m <;> exact h
    | cons c cs => cases h
  | succ n ih =>
    cases d with
    | nil => cases m <;> exact h
    | cons c cs =>
      obtain ⟨m, rfl⟩ : ∃ m', m = m' + 1 := ⟨m - 1, by omega⟩
      simp only [byteRun, bind_eq_bind, bind_eq_some_iff] at h ⊢
      obtain ⟨⟨a', er', consumed⟩, hp, h⟩ := h
      refine ⟨_, hp, ?_⟩
      split at h
      · exact ih (by omega) h
      · exact h
      · obtain ⟨r', hr', h⟩ := bind_eq_some_iff.mp h
        exact bind_eq_some_iff.mpr ⟨r', ih (by omega) hr', h⟩

/-- A run on `d`, and from there on `d'`, is a run on both. -/
theorem byteRun_append {n m : ℕ} {a a' : A} {er er' : ε} {d d' : List β} {es : List E}
    (h : byteRun pass verdict event n a er d = some (a', es, er')) (hstop : verdict er' ≠ .stop)
    {r : A × List E × ε} (h' : byteRun pass verdict event m a' er' d' = some r) :
    byteRun pass verdict event (n + m) a er (d ++ d') = some (r.1, es ++ r.2.1, r.2.2) := by
  induction n generalizing a er d es with
  | zero =>
    cases d with
    | nil =>
      obtain ⟨rfl, rfl, rfl⟩ : a = a' ∧ [] = es ∧ er = er' := by simpa [byteRun] using h
      simpa using h'
    | cons c cs => cases h
  | succ n ih =>
    cases d with
    | nil =>
      obtain ⟨rfl, rfl, rfl⟩ : a = a' ∧ [] = es ∧ er = er' := by simpa [byteRun] using h
      simpa using byteRun_mono (Nat.le_add_left m (n + 1)) h'
    | cons c cs =>
      rw [show n + 1 + m = (n + m) + 1 by omega]
      simp only [cons_append, byteRun, bind_eq_bind, bind_eq_some_iff] at h ⊢
      obtain ⟨⟨a₁, er₁, consumed⟩, hp, h⟩ := h
      refine ⟨_, hp, ?_⟩
      have hrest : (if consumed = true then cs ++ d' else c :: (cs ++ d')) =
          (if consumed = true then cs else c :: cs) ++ d' := by
        split <;> rfl
      rw [hrest]
      split at h
      · exact ih h
      · next hv =>
          obtain ⟨rfl, rfl, rfl⟩ : a₁ = a' ∧ [] = es ∧ er₁ = er' := by simpa using h
          exact absurd hv hstop
      · obtain ⟨⟨a₂, es₂, er₂⟩, hr, h⟩ := bind_eq_some_iff.mp h
        obtain ⟨rfl, rfl, rfl⟩ : a₂ = a' ∧ event a₁ er₁ :: es₂ = es ∧ er₂ = er' := by
          simpa using h
        exact bind_eq_some_iff.mpr ⟨_, ih hr, by simp⟩

/-- A pass that consumes the byte and gives no code. -/
theorem byteRun_cons {n : ℕ} {a a₁ : A} {er er₁ : ε} {c : β} (cs : List β)
    (hp : pass a c = some (a₁, er₁, true)) (hv : verdict er₁ = .more) :
    byteRun pass verdict event (n + 1) a er (c :: cs) =
      byteRun pass verdict event n a₁ er₁ cs := by
  simp only [byteRun, hp, hv, bind_eq_bind, bind_some, if_true]

/-- **A part of the input that an automaton goes over**: the machine is in the state `s` of the
automaton (`In s`) and consumes one byte after another without a code. -/
theorem byteRun_fold {S : Type} {In : S → A → Prop} {step : S → β → S} {good : S → β → Prop}
    {more : ε} (hmore : verdict more = .more)
    (hstep : ∀ s a c, In s a → good s c → ∃ a', pass a c = some (a', more, true) ∧ In (step s c) a')
    {s : S} {a : A} (hin : In s a) (d : List β)
    (hgood : ∀ p c q, d = p ++ c :: q → good (p.foldl step s) c) {n : ℕ} (hn : d.length ≤ n) :
    ∃ a', byteRun pass verdict event n a more d = some (a', [], more) ∧
      In (d.foldl step s) a' := by
  induction d generalizing s a n with
  | nil => exact ⟨a, by cases n <;> rfl, hin⟩
  | cons c d ih =>
    obtain ⟨n, rfl⟩ : ∃ n', n = n' + 1 := ⟨n - 1, by rw [length_cons] at hn; omega⟩
    obtain ⟨a₁, hp, hin₁⟩ := hstep s a c hin (hgood [] c d rfl)
    obtain ⟨a', hrun, hin'⟩ := ih hin₁ (fun p c' q hd => hgood (c :: p) c' q (by rw [hd]; rfl))
      (Nat.le_of_succ_le_succ hn)
    exact ⟨a', by rw [byteRun_cons d hp hmore, hrun], hin'⟩

/-- A run on `d ++ d'` is one on `d` and, if that has not stopped, one on `d'`. -/
theorem byteRun_split {n : ℕ} {a a' : A} {er er' : ε} {d d' : List β} {es : List E}
    (h : byteRun pass verdict event n a er (d ++ d') = some (a', es, er'))
    (her : verdict er ≠ .stop) :
    ∃ a₁ es₁ er₁, byteRun pass verdict event n a er d = some (a₁, es₁, er₁) ∧
      if verdict er₁ = .stop then a₁ = a' ∧ es₁ = es ∧ er₁ = er'
      else ∃ es₂, byteRun pass verdict event n a₁ er₁ d' = some (a', es₂, er') ∧
        es = es₁ ++ es₂ := by
  induction n generalizing a er d es with
  | zero =>
    cases d with
    | nil => exact ⟨a, [], er, rfl, by rw [if_neg her]; exact ⟨es, h, rfl⟩⟩
    | cons c cs => cases h
  | succ n ih =>
    cases d with
    | nil => exact ⟨a, [], er, rfl, by rw [if_neg her]; exact ⟨es, h, rfl⟩⟩
    | cons c cs =>
      simp only [cons_append, byteRun, bind_eq_bind, bind_eq_some_iff] at h ⊢
      obtain ⟨⟨a₁, er₁, consumed⟩, hp, h⟩ := h
      have hrest : (if consumed = true then cs ++ d' else c :: (cs ++ d')) =
          (if consumed = true then cs else c :: cs) ++ d' := by
        split <;> rfl
      rw [hrest] at h
      cases hv : verdict er₁ with
      | more =>
        rw [hv] at h
        obtain ⟨a₂, es₂, er₂, hr, hres⟩ := ih h (by simp [hv])
        refine ⟨a₂, es₂, er₂, ⟨_, hp, by simp only [hv]; exact hr⟩, ?_⟩
        split at hres
        · next hs => rwa [if_pos hs]
        · next hs =>
            rw [if_neg hs]
            obtain ⟨es₃, hr₃, he⟩ := hres
            exact ⟨es₃, byteRun_mono (Nat.le_succ n) hr₃, he⟩
      | stop =>
        rw [hv] at h
        obtain ⟨rfl, rfl, rfl⟩ : a₁ = a' ∧ [] = es ∧ er₁ = er' := by simpa using h
        exact ⟨a₁, [], er₁, ⟨_, hp, by simp [hv]⟩, by simp [hv]⟩
      | event =>
        rw [hv] at h
        obtain ⟨⟨a₂, es₂, er₂⟩, hr, h⟩ := bind_eq_some_iff.mp h
        obtain ⟨rfl, rfl, rfl⟩ : a₂ = a' ∧ event a₁ er₁ :: es₂ = es ∧ er₂ = er' := by
          simpa using h
        obtain ⟨a₃, es₃, er₃, hr₃, hres⟩ := ih hr (by simp [hv])
        refine ⟨a₃, event a₁ er₁ :: es₃, er₃, ⟨_, hp, by simp [hv, hr₃]⟩, ?_⟩
        split at hres
        · next hs =>
            rw [if_pos hs]
            obtain ⟨h1, h2, h3⟩ := hres
            exact ⟨h1, by rw [h2], h3⟩
        · next hs =>
            rw [if_neg hs]
            obtain ⟨es₄, hr₄, he⟩ := hres
            exact ⟨es₄, byteRun_mono (Nat.le_succ n) hr₄, by rw [he, cons_append]⟩

/-- **The machine ends** where a byte that is not consumed lowers the rank of the state before
it. -/
theorem byteRun_total {inv : A → Prop} {rank : A → β → ℕ} {K : ℕ} (hK : ∀ a c, rank a c ≤ K)
    (hpass : ∀ a c, inv a → ∃ a' er consumed, pass a c = some (a', er, consumed) ∧
      (verdict er ≠ .stop → inv a' ∧ (consumed = false → rank a' c < rank a c)))
    {a : A} (hinv : inv a) (er : ε) (d : List β) {n : ℕ} (hn : (K + 1) * d.length ≤ n) :
    ∃ r, byteRun pass verdict event n a er d = some r := by
  have hall : ∀ n a er d, inv a →
      (∀ c cs, d = c :: cs → (K + 1) * cs.length + rank a c < n) →
      ∃ r, byteRun pass verdict event n a er d = some r := by
    intro n
    induction n with
    | zero =>
      intro a er d _ hn
      cases d with
      | nil => exact ⟨_, rfl⟩
      | cons c cs => exact absurd (hn c cs rfl) (Nat.not_lt_zero _)
    | succ n ih =>
      intro a er d hinv hn
      cases d with
      | nil => exact ⟨_, rfl⟩
      | cons c cs =>
        have hn := hn c cs rfl
        obtain ⟨a', er', consumed, hp, hok⟩ := hpass a c hinv
        simp only [byteRun, hp, bind_eq_bind, bind_some]
        cases hv : verdict er' with
        | stop => exact ⟨_, rfl⟩
        | more | event =>
          obtain ⟨hinv', hrank⟩ := hok (by simp [hv])
          have hfuel : ∀ c' cs', (if consumed = true then cs else c :: cs) = c' :: cs' →
              (K + 1) * cs'.length + rank a' c' < n := by
            intro c' cs' hcs
            have hle := hK a' c'
            cases consumed with
            | true =>
              rw [if_pos rfl] at hcs
              rw [hcs, length_cons, Nat.mul_succ] at hn
              omega
            | false =>
              rw [if_neg Bool.false_ne_true] at hcs
              obtain ⟨rfl, rfl⟩ := List.cons.inj hcs
              have := hrank rfl
              omega
          obtain ⟨r, hr⟩ := ih a' er' _ hinv' hfuel
          simp [hr]
  refine hall n a er d hinv fun c cs hcs => ?_
  have hle := hK a c
  rw [hcs, length_cons, Nat.mul_succ] at hn
  omega

/-- Every pass of the loop is made where it is allowed. -/
@[grind =] def LoopGood {P : Type} (cpass : P → List β → Option (P × ε × Bool)) (verdict : ε → Verdict)
    (good : P → List β → Prop) : ℕ → P → List β → Prop
  | _, _, [] => True
  | 0, _, _ => True
  | n + 1, p, c :: cs =>
    good p (c :: cs) ∧ ∀ p' er consumed, cpass p (c :: cs) = some (p', er, consumed) →
      verdict er = .more →
        LoopGood cpass verdict good n p' (if consumed then cs else c :: cs)

/-- A call can be checked by making it. -/
instance LoopGood.decidable {P : Type} (cpass : P → List β → Option (P × ε × Bool))
    (verdict : ε → Verdict) (good : P → List β → Prop) [∀ p d, Decidable (good p d)] :
    ∀ n p d, Decidable (LoopGood cpass verdict good n p d)
  | _, _, [] => by unfold LoopGood; exact isTrue trivial
  | 0, _, c :: cs => isTrue trivial
  | n + 1, p, c :: cs =>
    match h : cpass p (c :: cs) with
    | none => decidable_of_iff (good p (c :: cs)) (by simp [LoopGood, h])
    | some (p', er, consumed) =>
      have := LoopGood.decidable cpass verdict good n p' (if consumed then cs else c :: cs)
      decidable_of_iff (good p (c :: cs) ∧ (verdict er = .more →
        LoopGood cpass verdict good n p' (if consumed then cs else c :: cs)))
        (by simp [LoopGood, h])

/-- What the passes that are allowed keep holds behind a call. -/
theorem callLoop_inv {P : Type} {cpass : P → List β → Option (P × ε × Bool)} {more : ε}
    {good : P → List β → Prop} (inv : P → Prop) (after : P → ε → Prop)
    (hpass : ∀ {p c cs p' er consumed}, inv p → good p (c :: cs) →
      cpass p (c :: cs) = some (p', er, consumed) →
      (verdict er = .more → inv p') ∧ (verdict er ≠ .more → after p' er))
    (hend : ∀ {p}, inv p → after p more) {n : ℕ} {p p' : P} {d rest : List β} {er : ε}
    (hgood : LoopGood cpass verdict good n p d) (hinv : inv p)
    (h : callLoop cpass verdict more n p d = some (p', er, rest)) : after p' er := by
  induction n generalizing p d with
  | zero =>
    cases d with
    | nil =>
      obtain ⟨rfl, rfl, -⟩ : p = p' ∧ more = er ∧ [] = rest := by simpa [callLoop] using h
      exact hend hinv
    | cons c cs => cases h
  | succ n ih =>
    cases d with
    | nil =>
      obtain ⟨rfl, rfl, -⟩ : p = p' ∧ more = er ∧ [] = rest := by simpa [callLoop] using h
      exact hend hinv
    | cons c cs =>
      simp only [callLoop, bind_eq_bind, bind_eq_some_iff] at h
      obtain ⟨⟨p₁, er₁, consumed⟩, hp, h⟩ := h
      obtain ⟨hg, hgood⟩ := hgood
      obtain ⟨hmore, hafter⟩ := hpass hinv hg hp
      cases hv : verdict er₁ with
      | more =>
        rw [hv] at h
        exact ih (hgood _ _ _ hp hv) (hmore hv) h
      | event | stop =>
        rw [hv] at h
        obtain ⟨rfl, rfl, -⟩ : p₁ = p' ∧ er₁ = er ∧
            (if consumed then cs else c :: cs) = rest := by
          simpa using h
        exact hafter (by simp [hv])

/-- Machines whose passes go alike have runs that go alike. -/
theorem byteRun_rel {R : A → A → Prop}
    (hpass : ∀ {a b c a' er consumed}, R a b → pass a c = some (a', er, consumed) →
      ∃ b', pass b c = some (b', er, consumed) ∧ R a' b' ∧ event b' er = event a' er)
    {n : ℕ} {a b a' : A} {er er' : ε} {d : List β} {es : List E} (hR : R a b)
    (h : byteRun pass verdict event n a er d = some (a', es, er')) :
    ∃ b', byteRun pass verdict event n b er d = some (b', es, er') ∧ R a' b' := by
  induction n generalizing a b er d es with
  | zero =>
    cases d with
    | nil =>
      obtain ⟨rfl, rfl, rfl⟩ : a = a' ∧ [] = es ∧ er = er' := by simpa [byteRun] using h
      exact ⟨b, rfl, hR⟩
    | cons c cs => cases h
  | succ n ih =>
    cases d with
    | nil =>
      obtain ⟨rfl, rfl, rfl⟩ : a = a' ∧ [] = es ∧ er = er' := by simpa [byteRun] using h
      exact ⟨b, rfl, hR⟩
    | cons c cs =>
      simp only [byteRun, bind_eq_bind, bind_eq_some_iff] at h ⊢
      obtain ⟨⟨a₁, er₁, consumed⟩, hp, h⟩ := h
      obtain ⟨b₁, hpb, hR₁, hev⟩ := hpass hR hp
      cases hv : verdict er₁ with
      | more =>
        rw [hv] at h
        obtain ⟨b', hr, hR'⟩ := ih hR₁ h
        exact ⟨b', ⟨_, hpb, by simp only [hv]; exact hr⟩, hR'⟩
      | stop =>
        rw [hv] at h
        obtain ⟨rfl, rfl, rfl⟩ : a₁ = a' ∧ [] = es ∧ er₁ = er' := by simpa using h
        exact ⟨b₁, ⟨_, hpb, by simp only [hv]⟩, hR₁⟩
      | event =>
        rw [hv] at h
        obtain ⟨⟨a₂, es₂, er₂⟩, hr, h⟩ := bind_eq_some_iff.mp h
        obtain ⟨rfl, rfl, rfl⟩ : a₂ = a' ∧ event a₁ er₁ :: es₂ = es ∧ er₂ = er' := by
          simpa using h
        obtain ⟨b', hrb, hR'⟩ := ih hR₁ hr
        exact ⟨b', ⟨_, hpb, by simp only [hv, hrb, bind_some, hev]⟩, hR'⟩

/-- What every pass keeps holds behind a run, and what holds behind every byte that is consumed
holds behind the last one. -/
theorem byteRun_inv {inv : A → Prop} {rest : A → ε → Prop}
    (hpass : ∀ {a c a' er consumed}, inv a → pass a c = some (a', er, consumed) →
      verdict er ≠ .stop → inv a' ∧ (consumed = true → rest a' er))
    {n : ℕ} {a a' : A} {er er' : ε} {d : List β} {es : List E} (hinv : inv a)
    (hrest : d = [] → rest a er)
    (h : byteRun pass verdict event n a er d = some (a', es, er')) (hstop : verdict er' ≠ .stop) :
    inv a' ∧ rest a' er' := by
  induction n generalizing a er d es with
  | zero =>
    cases d with
    | nil =>
      obtain ⟨rfl, -, rfl⟩ : a = a' ∧ [] = es ∧ er = er' := by simpa [byteRun] using h
      exact ⟨hinv, hrest rfl⟩
    | cons c cs => cases h
  | succ n ih =>
    cases d with
    | nil =>
      obtain ⟨rfl, -, rfl⟩ : a = a' ∧ [] = es ∧ er = er' := by simpa [byteRun] using h
      exact ⟨hinv, hrest rfl⟩
    | cons c cs =>
      simp only [byteRun, bind_eq_bind, bind_eq_some_iff] at h
      obtain ⟨⟨a₁, er₁, consumed⟩, hp, h⟩ := h
      have hlast : (if consumed = true then cs else c :: cs) = [] → consumed = true := by
        cases consumed <;> simp
      cases hv : verdict er₁ with
      | stop =>
        rw [hv] at h
        obtain ⟨rfl, -, rfl⟩ : a₁ = a' ∧ [] = es ∧ er₁ = er' := by simpa using h
        exact absurd hv hstop
      | more =>
        rw [hv] at h
        obtain ⟨hinv₁, hrest₁⟩ := hpass hinv hp (by simp [hv])
        exact ih hinv₁ (fun hnil => hrest₁ (hlast hnil)) h
      | event =>
        rw [hv] at h
        obtain ⟨hinv₁, hrest₁⟩ := hpass hinv hp (by simp [hv])
        obtain ⟨⟨a₂, es₂, er₂⟩, hr, h⟩ := bind_eq_some_iff.mp h
        obtain ⟨rfl, -, rfl⟩ : a₂ = a' ∧ event a₁ er₁ :: es₂ = es ∧ er₂ = er' := by
          simpa using h
        exact ih hinv₁ (fun hnil => hrest₁ (hlast hnil)) hr

end Machine

/-! ### Parsers that follow the machine -/

section Simulation

variable {P A β ε E : Type}

/-- The call: the loop, and what is done at its end. -/
def callWith (pass : P → List β → Option (P × ε × Bool)) (verdict : ε → Verdict) (more : ε)
    (fin : P → ε → P × ε) (n : ℕ) (p : P) (d : List β) : Option (P × ε × List β) := do
  let (p, er, rest) ← callLoop pass verdict more n p d
  let (p, er) := fin p er
  some (p, er, rest)

/-- The passes of the parser `cpass` follow the machine `pass`; `R p a d` relates their states
where the rest of the chunk is `d`. -/
structure ChunkSim (cpass : P → List β → Option (P × ε × Bool))
    (pass : A → β → Option (A × ε × Bool)) (verdict : ε → Verdict) (more : ε)
    (fin : P → ε → P × ε) (between : P → P) (cevent : P → ε → E) (event : A → ε → E)
    (R : P → A → List β → Prop) : Prop where
  more_iff : ∀ er, verdict er = .more ↔ er = more
  step : ∀ {p a c cs a' er consumed}, R p a (c :: cs) → pass a c = some (a', er, consumed) →
    ∃ p', cpass p (c :: cs) = some (p', er, consumed) ∧
      (verdict er = .more → R p' a' (if consumed then cs else c :: cs)) ∧
      (verdict er = .event → ∃ p'', fin p' er = (p'', er) ∧ cevent p'' er = event a' er ∧
        ∀ d, R p'' a' d ∧ R (between p'') a' d) ∧
      (verdict er = .stop → ∃ p'', fin p' er = (p'', er))
  done : ∀ {p a}, R p a [] → ∃ p', fin p more = (p', more) ∧ ∀ d, R (between p') a d

variable {cpass : P → List β → Option (P × ε × Bool)} {pass : A → β → Option (A × ε × Bool)}
  {verdict : ε → Verdict} {more : ε} {fin : P → ε → P × ε} {between : P → P}
  {cevent : P → ε → E} {event : A → ε → E} {R : P → A → List β → Prop}

/-- A call makes the steps of the machine up to the next code. -/
theorem ChunkSim.call (h : ChunkSim cpass pass verdict more fin between cevent event R) {N n : ℕ}
    (hn : N ≤ n) {p : P} {a a' : A} {er er' : ε} {d : List β} {es : List E} (hR : R p a d)
    (hrun : byteRun pass verdict event N a er d = some (a', es, er')) :
    ∃ p' er₁ rest, callWith cpass verdict more fin n p d = some (p', er₁, rest) ∧
      match verdict er₁ with
      | .more => er₁ = more ∧ es = [] ∧ (∀ d, R (between p') a' d) ∧
          (if d = [] then er' = er else er' = more)
      | .stop => es = [] ∧ er' = er₁
      | .event => ∃ a₁ N₁ es₁, N₁ < N ∧ es = cevent p' er₁ :: es₁ ∧
          byteRun pass verdict event N₁ a₁ er₁ rest = some (a', es₁, er') ∧
          ∀ d, R p' a₁ d ∧ R (between p') a₁ d := by
  induction N generalizing n p a er d with
  | zero =>
    cases d with
    | nil =>
      obtain ⟨rfl, rfl, rfl⟩ : a = a' ∧ [] = es ∧ er = er' := by simpa [byteRun] using hrun
      obtain ⟨p', hfin, hR'⟩ := h.done hR
      refine ⟨p', more, [], by cases n <;> simp [callWith, callLoop, hfin], ?_⟩
      rw [(h.more_iff more).mpr rfl]
      exact ⟨rfl, rfl, hR', by simp⟩
    | cons c cs => cases hrun
  | succ N ih =>
    cases d with
    | nil =>
      obtain ⟨rfl, rfl, rfl⟩ : a = a' ∧ [] = es ∧ er = er' := by simpa [byteRun] using hrun
      obtain ⟨p', hfin, hR'⟩ := h.done hR
      refine ⟨p', more, [], by cases n <;> simp [callWith, callLoop, hfin], ?_⟩
      rw [(h.more_iff more).mpr rfl]
      exact ⟨rfl, rfl, hR', by simp⟩
    | cons c cs =>
      obtain ⟨n, rfl⟩ : ∃ n', n = n' + 1 := ⟨n - 1, by omega⟩
      simp only [byteRun, bind_eq_bind, bind_eq_some_iff] at hrun
      obtain ⟨⟨a₁, er₁, consumed⟩, hp, hrun⟩ := hrun
      obtain ⟨p₁, hcp, hmore, hevent, hstop⟩ := h.step hR hp
      cases hv : verdict er₁ with
      | more =>
        rw [hv] at hrun
        obtain rfl := (h.more_iff er₁).mp hv
        obtain ⟨p', er₂, rest, hcall, hres⟩ := ih (n := n) (by omega) (hmore hv) hrun
        refine ⟨p', er₂, rest, ?_, ?_⟩
        · rw [← hcall]
          simp [callWith, callLoop, hcp, hv]
        cases hv₂ : verdict er₂ with
        | more =>
          rw [hv₂] at hres
          obtain ⟨h1, h2, h3, h4⟩ := hres
          exact ⟨h1, h2, h3, by simpa using h4⟩
        | stop =>
          rw [hv₂] at hres
          exact hres
        | event =>
          rw [hv₂] at hres
          obtain ⟨a₂, N₁, es₁, hN, hrest⟩ := hres
          exact ⟨a₂, N₁, es₁, by omega, hrest⟩
      | stop =>
        rw [hv] at hrun
        obtain ⟨rfl, rfl, rfl⟩ : a₁ = a' ∧ [] = es ∧ er₁ = er' := by simpa using hrun
        obtain ⟨p', hfin⟩ := hstop hv
        refine ⟨p', er₁, if consumed then cs else c :: cs, ?_, ?_⟩
        · simp [callWith, callLoop, hcp, hv, hfin]
        · rw [hv]
          exact ⟨rfl, rfl⟩
      | event =>
        rw [hv] at hrun
        obtain ⟨⟨a₂, es₂, er₂⟩, hr, hrun⟩ := bind_eq_some_iff.mp hrun
        obtain ⟨rfl, rfl, rfl⟩ : a₂ = a' ∧ event a₁ er₁ :: es₂ = es ∧ er₂ = er' := by
          simpa using hrun
        obtain ⟨p', hfin, hev, hR'⟩ := hevent hv
        refine ⟨p', er₁, if consumed then cs else c :: cs, ?_, ?_⟩
        · simp [callWith, callLoop, hcp, hv, hfin]
        · rw [hv]
          exact ⟨a₁, N, es₂, by omega, by rw [hev], hr, hR'⟩

/-- The calls on a chunk make the steps of the machine on it. -/
theorem ChunkSim.feedChunk (h : ChunkSim cpass pass verdict more fin between cevent event R)
    {N n : ℕ} (hn : N < n) {p : P} {a a' : A} {er er' : ε} {d : List β} {es : List E}
    (hd : d ≠ [] ∨ er = more) (hR : R p a d)
    (hrun : byteRun pass verdict event N a er d = some (a', es, er')) (m : ℕ) (hm : N ≤ m) :
    ∃ p', feedChunk (callWith cpass verdict more fin m) verdict cevent n p d = some (p', es, er') ∧
      (verdict er' ≠ .stop → ∀ d, R (between p') a' d) := by
  induction n generalizing N p a er d es with
  | zero => omega
  | succ n ih =>
    obtain ⟨p', er₁, rest, hcall, hres⟩ := h.call hm hR hrun
    simp only [FF.feedChunk, hcall, bind_eq_bind, bind_some]
    cases hv : verdict er₁ with
    | more =>
      rw [hv] at hres
      obtain ⟨rfl, rfl, hR', her⟩ := hres
      obtain rfl : er' = er₁ := by
        split at her
        · next hnil => rw [her, hd.resolve_left (by simp [hnil])]
        · exact her
      exact ⟨p', rfl, fun _ => hR'⟩
    | stop =>
      rw [hv] at hres
      obtain ⟨rfl, rfl⟩ := hres
      exact ⟨p', rfl, fun hns => absurd hv hns⟩
    | event =>
      rw [hv] at hres
      obtain ⟨a₁, N₁, es₁, hN, rfl, hrun', hR'⟩ := hres
      cases rest with
      | nil =>
        obtain ⟨rfl, rfl, rfl⟩ : a₁ = a' ∧ [] = es₁ ∧ er₁ = er' := by
          cases N₁ <;> simpa [byteRun] using hrun'
        exact ⟨p', rfl, fun _ d => (hR' d).2⟩
      | cons c cs =>
        obtain ⟨p'', hfeed, hR''⟩ := ih (N := N₁) (by omega) (.inl (by simp))
          (hR' _).1 hrun' (by omega)
        exact ⟨p'', by simp [hfeed], hR''⟩

/-- The calls on the chunks one after another make the steps of the machine on the whole input. -/
theorem ChunkSim.feedChunks_rel (h : ChunkSim cpass pass verdict more fin between cevent event R)
    {N n : ℕ} (hn : N < n) {p : P} {a a' : A} {er er' : ε} {ds : List (List β)} {es : List E}
    (hds : ∀ d ∈ ds, d ≠ []) (hR : ∀ d, R p a d) (her : verdict er ≠ .stop)
    (hrun : byteRun pass verdict event N a er ds.flatten = some (a', es, er')) :
    ∃ p', feedChunks (callWith cpass verdict more fin n) verdict cevent between n p er ds =
      some (p', es, er') ∧ (verdict er' ≠ .stop → ∀ d, R p' a' d) := by
  induction ds generalizing p a er es with
  | nil =>
    obtain ⟨rfl, rfl, rfl⟩ : a = a' ∧ [] = es ∧ er = er' := by
      cases N <;> simpa [byteRun] using hrun
    exact ⟨p, rfl, fun _ => hR⟩
  | cons d ds ih =>
    rw [flatten_cons] at hrun
    obtain ⟨a₁, es₁, er₁, hr, hres⟩ := byteRun_split hrun her
    obtain ⟨p', hfeed, hR'⟩ := h.feedChunk hn (.inl (hds d mem_cons_self)) (hR d) hr n (Nat.le_of_lt hn)
    simp only [FF.feedChunks, hfeed, bind_eq_bind, bind_some]
    split at hres
    · next hs =>
        obtain ⟨-, rfl, rfl⟩ := hres
        exact ⟨p', if_pos hs, fun hns => absurd hs hns⟩
    · next hs =>
        obtain ⟨es₂, hr₂, rfl⟩ := hres
        obtain ⟨p'', hrest, hR''⟩ := ih (fun d' hd' => hds d' (mem_cons_of_mem _ hd'))
          (hR' hs) hs hr₂
        exact ⟨p'', by rw [if_neg hs, hrest]; rfl, hR''⟩

/-- **However the input is divided**, the events and the last code are those of the machine on
the whole input. -/
theorem ChunkSim.feedChunks_eq (h : ChunkSim cpass pass verdict more fin between cevent event R)
    {N n : ℕ} (hn : N < n) {p : P} {a a' : A} {er er' : ε} {ds : List (List β)} {es : List E}
    (hds : ∀ d ∈ ds, d ≠ []) (hR : ∀ d, R p a d) (her : verdict er ≠ .stop)
    (hrun : byteRun pass verdict event N a er ds.flatten = some (a', es, er')) :
    ∃ p', feedChunks (callWith cpass verdict more fin n) verdict cevent between n p er ds =
      some (p', es, er') := by
  obtain ⟨p', hfeed, -⟩ := h.feedChunks_rel hn hds hR her hrun
  exact ⟨p', hfeed⟩

end Simulation

end FF
