import FF.Icy.Parse
import Mathlib.Algebra.Ring.Nat
import Mathlib.Data.List.TakeWhile

/-!
# ICY metadata

The text of a block: pairs of a key and a value, `key='value';`, and zero bytes up to a multiple
of 16. There is no escaping; a value ends at a quote in front of a semicolon.

`fficy_metaparse` looks at every byte of a value for that semicolon, but not whether it stands
behind the quote that it found last (`metaLoop`), so that a value ends at its first semicolon.
-/

namespace FF

open List Option

/-! ### Reading -/

/-- The codes of `enum FFPARS_E` that are returned. -/
inductive IcyPars
  | more
  | key
  | val
  | ekvsep
  | enoval
  | ebadbrace
  deriving DecidableEq, Repr

/-- The states of `fficy_metaparse`. -/
inductive IcyMetaState
  | key
  | qopen
  | val
  | smcol
  deriving DecidableEq, Repr

/-- `fficymeta`. -/
structure Fficymeta where
  state : IcyMetaState
  val : List UInt8
  deriving DecidableEq, Repr

/-- `fficy_metaparse_init`. -/
def fficyMetaparseInit : Fficymeta := ⟨.key, []⟩

/-- `fficy_metaparse`, the state `I_VAL`: the value up to the next quote. The bytes `acc` lie
between `val.ptr` and the place of the loop. -/
def icyVal (acc l : List UInt8) : Option (List UInt8) :=
  if 0x27 ∈ l then some (acc ++ l.takeWhile (· ≠ 0x27)) else none

/-- `fficy_metaparse`, the loop. With a code other than `key` and `val` the input is used up. -/
@[grind =] def metaLoop : ℕ → Fficymeta → List UInt8 → List UInt8 → Option (IcyPars × Fficymeta × List UInt8)
  | _, p, _, [] => some (.more, p, [])
  | 0, _, _, _ :: _ => none
  | n + 1, p, acc, c :: r =>
    match p.state with
    | .key =>
      if 0x3d ∈ c :: r then
        some (.key, ⟨.qopen, (c :: r).takeWhile (· ≠ 0x3d)⟩, ((c :: r).dropWhile (· ≠ 0x3d)).tail)
      else some (.ekvsep, p, [])
    | .qopen =>
      if c ≠ 0x27 then some (.enoval, p, [])
      else
        match icyVal [] r with
        | none => some (.ebadbrace, ⟨.val, p.val⟩, [])
        | some v => metaLoop n ⟨.smcol, v⟩ (r.take 1) r.tail
    | .val =>
      match icyVal acc (c :: r) with
      | none => some (.ebadbrace, p, [])
      | some v => metaLoop n ⟨.smcol, v⟩ (acc ++ [c]) r
    | .smcol =>
      if c ≠ 0x3b then metaLoop n ⟨.val, p.val⟩ acc (c :: r)
      else some (.val, ⟨.key, p.val⟩, r)

/-- `fficy_metaparse`: the code, and the input behind what was processed. A value that a call has
begun is not continued in other memory. -/
def fficyMetaparse (p : Fficymeta) (data : List UInt8) : Option (IcyPars × Fficymeta × List UInt8) :=
  match p.state with
  | .key | .qopen => metaLoop (2 * data.length + 1) p [] data
  | .val | .smcol => none

/-- `fficy_metaparse_str` as long as it returns keys and values: these. -/
@[grind =] def metaResults : ℕ → Fficymeta → List UInt8 → Option (List (IcyPars × List UInt8))
  | 0, _, _ => none
  | n + 1, p, d => do
      let (code, p, d) ← fficyMetaparse p d
      if code = .key ∨ code = .val then
        let rs ← metaResults n p d
        some ((code, p.val) :: rs)
      else some []

/-- The keys and values of a block. -/
def icyMetaResults (block : List UInt8) : Option (List (IcyPars × List UInt8)) :=
  metaResults (block.length + 1) fficyMetaparseInit block

/-! ### Writing -/

/-- The `ffarr` of a block. -/
structure IcyMeta where
  bytes : List UInt8
  cap : ℕ
  deriving DecidableEq, Repr

/-- `fficy_initmeta`; without a buffer memory is allocated. -/
def fficyInitmeta (buf : List UInt8) : IcyMeta :=
  if buf.length ≠ 0 then ⟨buf.take 1, buf.length⟩ else ⟨[], ffICY_MAXMETA⟩

/-- A pair as text: the format `%*s='%*s';`. -/
def icyPair (p : List UInt8 × List UInt8) : List UInt8 :=
  p.1 ++ [0x3d, 0x27] ++ p.2 ++ [0x27, 0x3b]

/-- `fficy_addmeta`: the bytes that were written, 0 if there is not more room than that. -/
def fficyAddmeta (m : IcyMeta) (p : List UInt8 × List UInt8) : IcyMeta × ℕ :=
  if (icyPair p).length < m.cap - m.bytes.length then
    ({ m with bytes := m.bytes ++ icyPair p }, (icyPair p).length)
  else (m, 0)

/-- `fficy_finmeta`; the padding must not be written behind the memory. -/
def fficyFinmeta (m : IcyMeta) : Option (List UInt8) :=
  let n := (m.bytes.length + (2 ^ 32 - 1)) % 2 ^ 32
  let pad := if n % 16 ≠ 0 then 16 - n % 16 else 0
  if m.bytes.length + pad > m.cap then none
  else some ((m.bytes ++ List.replicate pad 0).set 0 (UInt8.ofNat ((n + pad) % 2 ^ 32 / 16)))

/-- The pairs are added one after another, and every call writes something. -/
@[grind =] def icyAdd : IcyMeta → List (List UInt8 × List UInt8) → Option IcyMeta
  | m, [] => some m
  | m, p :: ps => if (fficyAddmeta m p).2 = 0 then none else icyAdd (fficyAddmeta m p).1 ps

/-- **A block with the pairs**, and the byte for its length in front. -/
def icyBuild (buf : List UInt8) (ps : List (List UInt8 × List UInt8)) : Option (List UInt8) := do
  fficyFinmeta (← icyAdd (fficyInitmeta buf) ps)

/-- The results of reading the pairs. -/
def icyExpected (ps : List (List UInt8 × List UInt8)) : List (IcyPars × List UInt8) :=
  ps.flatMap fun p => [(.key, p.1), (.val, p.2)]

/-! ### Conditions -/

/-- The part of a value from its first semicolon on; one that begins the value does not count. -/
def fromSemicolon (v : List UInt8) : List UInt8 := v.tail.dropWhile (· ≠ 0x3b)

/-- No value goes on behind a semicolon; the last one may, without a quote and without `=`. -/
@[grind =] def ValuesOk : List (List UInt8 × List UInt8) → Prop
  | [] => True
  | [p] => 0x3d ∉ fromSemicolon p.2 ∧ 0x27 ∉ fromSemicolon p.2
  | p :: q :: ps => fromSemicolon p.2 = [] ∧ ValuesOk (q :: ps)

/-- There is memory of the caller, so that the first byte of the text is not overwritten, and
the values are read to their ends. -/
def IcyOk (buf : List UInt8) (ps : List (List UInt8 × List UInt8)) : Prop :=
  (buf ≠ [] ∨ ps = []) ∧ ValuesOk ps

instance ValuesOk.decidable : ∀ ps, Decidable (ValuesOk ps)
  | [] => isTrue trivial
  | [p] => inferInstanceAs (Decidable (0x3d ∉ fromSemicolon p.2 ∧ 0x27 ∉ fromSemicolon p.2))
  | p :: q :: ps =>
    have := ValuesOk.decidable (q :: ps)
    inferInstanceAs (Decidable (fromSemicolon p.2 = [] ∧ ValuesOk (q :: ps)))

/-! ### A call -/

section Calls

variable {n : ℕ} {v acc : List UInt8}

theorem takeWhile_ne_append {a : UInt8} {k : List UInt8} (hk : a ∉ k) (rest : List UInt8) :
    (k ++ a :: rest).takeWhile (· ≠ a) = k ∧ (k ++ a :: rest).dropWhile (· ≠ a) = a :: rest := by
  have hall : ∀ c ∈ k, decide (c ≠ a) = true := fun c hc =>
    decide_eq_true fun he => hk (he ▸ hc)
  constructor
  · rw [takeWhile_append_of_pos hall]
    simp
  · rw [dropWhile_append_of_pos hall]
    simp

theorem fficyMetaparse_key {k : List UInt8} (hk : 0x3d ∉ k) (rest : List UInt8) :
    fficyMetaparse ⟨.key, v⟩ (k ++ 0x3d :: rest) = some (.key, ⟨.qopen, k⟩, rest) := by
  obtain ⟨c, r, hcr⟩ : ∃ c r, k ++ 0x3d :: rest = c :: r := by
    cases k with
    | nil => exact ⟨_, _, rfl⟩
    | cons c k => exact ⟨_, _, rfl⟩
  obtain ⟨htake, hdrop⟩ := takeWhile_ne_append hk rest
  have hmem : 0x3d ∈ c :: r := by
    rw [← hcr]
    simp
  rw [hcr] at htake hdrop ⊢
  simp only [fficyMetaparse, metaLoop, if_pos hmem, htake, hdrop, tail_cons]

/-- There is no key where there is no `=`. -/
theorem fficyMetaparse_noKey {d : List UInt8} (hd : 0x3d ∉ d) :
    ∃ code p rest, fficyMetaparse ⟨.key, v⟩ d = some (code, p, rest) ∧ code ≠ .key ∧ code ≠ .val := by
  cases d with
  | nil => exact ⟨.more, _, _, rfl, by decide, by decide⟩
  | cons c r => exact ⟨.ekvsep, _, _, by simp only [fficyMetaparse, metaLoop, if_neg hd]; rfl,
      by decide, by decide⟩

/-- The loop behind a quote goes on to the first semicolon; the value ends at the first quote from
the byte in front of it on. -/
theorem metaLoop_smcol {m rest : List UInt8} {b : UInt8} (hm : 0x3b ∉ m ++ [b])
    (hq : 0x27 ∈ b :: 0x3b :: rest) (hn : 2 * m.length + 3 ≤ n) :
    metaLoop n ⟨.smcol, v⟩ acc (m ++ b :: 0x3b :: rest) = some (.val,
      ⟨.key, acc ++ m ++ (b :: 0x3b :: rest).takeWhile (· ≠ 0x27)⟩, rest) := by
  induction m generalizing n v acc with
  | nil =>
    obtain ⟨n, rfl⟩ : ∃ n', n = n' + 3 := ⟨n - 3, by simp at hn; omega⟩
    have hb : b ≠ 0x3b := fun he => hm (by simp [he])
    simp only [nil_append, metaLoop, if_pos hb, icyVal, if_pos hq, ne_eq,
      not_true_eq_false, if_false, append_nil]
  | cons c m ih =>
    obtain ⟨n, rfl⟩ : ∃ n', n = n' + 2 := ⟨n - 2, by simp at hn; omega⟩
    rw [cons_append, mem_cons, not_or] at hm
    have hc : c ≠ 0x3b := fun he => hm.1 he.symm
    have hmem : 0x27 ∈ c :: (m ++ b :: 0x3b :: rest) :=
      mem_cons_of_mem _ (mem_append_right _ hq)
    have hih := @ih n (acc ++ (c :: (m ++ b :: 0x3b :: rest)).takeWhile (· ≠ 0x27)) (acc ++ [c])
      hm.2 (by simp at hn; omega)
    simp only [cons_append, metaLoop, if_pos hc, icyVal, if_pos hmem, hih, append_assoc, nil_append]

/-- **A value** ends at the first semicolon behind its first byte. -/
theorem fficyMetaparse_val {u rest : List UInt8} {b : UInt8} (hu : 0x3b ∉ (u ++ [b]).tail)
    (hq : 0x27 ∈ b :: 0x3b :: rest) :
    fficyMetaparse ⟨.qopen, v⟩ (0x27 :: (u ++ b :: 0x3b :: rest)) = some (.val,
      ⟨.key, u ++ (b :: 0x3b :: rest).takeWhile (· ≠ 0x27)⟩, rest) := by
  have hmem : 0x27 ∈ u ++ b :: 0x3b :: rest := mem_append_right _ hq
  obtain ⟨N, hN⟩ : ∃ N, N = 2 * (0x27 :: (u ++ b :: 0x3b :: rest)).length := ⟨_, rfl⟩
  have hlen : 2 * u.length + 6 ≤ N := by
    simp only [length_cons, length_append] at hN
    omega
  simp only [fficyMetaparse, ← hN, metaLoop, ne_eq, not_true_eq_false, if_false, icyVal, if_pos hmem,
    nil_append]
  cases u with
  | nil =>
    obtain ⟨N, rfl⟩ : ∃ N', N = N' + 1 := ⟨N - 1, by omega⟩
    simp only [nil_append, tail_cons, metaLoop, ne_eq, not_true_eq_false, if_false]
  | cons c m =>
    rw [cons_append, tail_cons] at hu
    rw [cons_append, tail_cons, metaLoop_smcol hu hq (by simp at hlen; omega)]
    simp

theorem metaLoop_inv {l rest : List UInt8} {p : Fficymeta}
    (h : metaLoop n ⟨.smcol, v⟩ acc l = some (.val, p, rest)) :
    (l = 0x3b :: rest ∧ p = ⟨.key, v⟩) ∨ ∃ m b, l = m ++ b :: 0x3b :: rest ∧
      p = ⟨.key, acc ++ m ++ (b :: 0x3b :: rest).takeWhile (· ≠ 0x27)⟩ := by
  induction l generalizing n v acc with
  | nil => simp [metaLoop] at h
  | cons c r ih =>
    cases n with
    | zero => simp [metaLoop] at h
    | succ n =>
      by_cases hc : c = 0x3b
      · subst hc
        simp only [metaLoop, ne_eq, not_true_eq_false, if_false, some.injEq,
          Prod.mk.injEq, true_and] at h
        exact .inl ⟨by rw [h.2], h.1.symm⟩
      simp only [metaLoop, if_pos hc, ne_eq] at h
      cases n with
      | zero => simp [metaLoop] at h
      | succ n =>
        by_cases hq : 0x27 ∈ c :: r
        · simp only [metaLoop, icyVal, if_pos hq] at h
          obtain ⟨rfl, rfl⟩ | ⟨m, b, rfl, rfl⟩ := ih h
          · exact .inr ⟨[], c, rfl, by simp⟩
          · exact .inr ⟨c :: m, b, rfl, by simp⟩
        · simp [metaLoop, icyVal, hq] at h

end Calls

/-! ### The results -/

section Results

variable {n : ℕ} {x : List UInt8}

theorem metaResults_key {k : List UInt8} (hk : 0x3d ∉ k) (rest : List UInt8) :
    metaResults (n + 1) ⟨.key, x⟩ (k ++ 0x3d :: rest) =
      (metaResults n ⟨.qopen, k⟩ rest).map fun rs => (.key, k) :: rs := by
  rw [metaResults, fficyMetaparse_key hk rest]
  cases h : metaResults n ⟨.qopen, k⟩ rest <;> simp [h]

theorem metaResults_noKey {d : List UInt8} (hd : 0x3d ∉ d) :
    metaResults (n + 1) ⟨.key, x⟩ d = some [] := by
  obtain ⟨code, p, rest, he, hkey, hval⟩ := @fficyMetaparse_noKey x d hd
  simp [metaResults, he, hkey, hval]

theorem metaResults_val {u rest : List UInt8} {b : UInt8} (hu : 0x3b ∉ (u ++ [b]).tail)
    (hq : 0x27 ∈ b :: 0x3b :: rest) {v : List UInt8}
    (hv : v = u ++ (b :: 0x3b :: rest).takeWhile (· ≠ 0x27)) :
    metaResults (n + 1) ⟨.qopen, x⟩ (0x27 :: (u ++ b :: 0x3b :: rest)) =
      (metaResults n ⟨.key, v⟩ rest).map fun rs => (.val, v) :: rs := by
  rw [metaResults, fficyMetaparse_val hu hq, ← hv]
  cases h : metaResults n ⟨.key, v⟩ rest <;> simp [h]

/-- Where a text begins with a key, up to the first `=`. -/
theorem metaResults_key_inv {d k : List UInt8} {rs : List (IcyPars × List UInt8)}
    (h : metaResults n ⟨.key, x⟩ d = some ((.key, k) :: rs)) :
    ∃ m rest, 0x3d ∉ k ∧ d = k ++ 0x3d :: rest ∧ metaResults m ⟨.qopen, k⟩ rest = some rs := by
  cases n with
  | zero => simp [metaResults] at h
  | succ n =>
    by_cases hd : 0x3d ∈ d
    · obtain ⟨k', rest, rfl, hk'⟩ := eq_append_cons_of_mem hd
      rw [metaResults_key hk'] at h
      obtain ⟨rs', hrs', he⟩ := map_eq_some_iff.mp h
      obtain ⟨hkey, rfl⟩ := List.cons.inj he
      obtain ⟨-, rfl⟩ := Prod.mk.inj hkey
      exact ⟨n, rest, hk', rfl, hrs'⟩
    · rw [metaResults_noKey hd] at h
      cases h

theorem metaResults_val_inv {d v : List UInt8} {rs : List (IcyPars × List UInt8)}
    (h : metaResults n ⟨.qopen, x⟩ d = some ((.val, v) :: rs)) :
    ∃ m u b rest, d = 0x27 :: (u ++ b :: 0x3b :: rest) ∧
      v = u ++ (b :: 0x3b :: rest).takeWhile (· ≠ 0x27) ∧
      metaResults m ⟨.key, v⟩ rest = some rs := by
  cases n with
  | zero => simp [metaResults] at h
  | succ n =>
    rw [metaResults] at h
    cases hcall : fficyMetaparse ⟨.qopen, x⟩ d with
    | none => simp [hcall] at h
    | some r =>
      obtain ⟨code, p, rest⟩ := r
      simp only [hcall, bind_eq_bind, bind_some] at h
      by_cases hcode : code = .key ∨ code = .val
      · rw [if_pos hcode] at h
        obtain ⟨rs', hrs', he⟩ := bind_eq_some_iff.mp h
        obtain ⟨hval, rfl⟩ := List.cons.inj (some.inj he)
        obtain ⟨rfl, rfl⟩ := Prod.mk.inj hval
        obtain ⟨u, b, rfl, rfl⟩ : ∃ u b, d = 0x27 :: (u ++ b :: 0x3b :: rest) ∧
            p = ⟨.key, u ++ (b :: 0x3b :: rest).takeWhile (· ≠ 0x27)⟩ := by
          cases d with
          | nil => simp [fficyMetaparse, metaLoop] at hcall
          | cons c r =>
            by_cases hc : c = 0x27
            · subst hc
              by_cases hq : 0x27 ∈ r
              · simp only [fficyMetaparse, metaLoop, ne_eq, not_true_eq_false, if_false,
                  icyVal, if_pos hq, nil_append] at hcall
                cases r with
                | nil => exact absurd hq not_mem_nil
                | cons e r =>
                  obtain ⟨rfl, rfl⟩ | ⟨m, b, rfl, rfl⟩ := metaLoop_inv hcall
                  · exact ⟨[], e, rfl, by simp⟩
                  · exact ⟨e :: m, b, rfl, by simp⟩
              · simp [fficyMetaparse, metaLoop, icyVal, hq] at hcall
            · simp [fficyMetaparse, metaLoop, hc] at hcall
        exact ⟨n, u, b, rest, rfl, rfl, hrs'⟩
      · rw [if_neg hcode] at h
        cases h

/-- The `=` of some pairs. -/
def equalSigns (ps : List (List UInt8 × List UInt8)) : ℕ :=
  (ps.map fun p => p.2.count 0x3d + 1).sum

/-- A value has all `=` of the text that was taken for it. -/
theorem count_takeWhile_le (u rest : List UInt8) (b : UInt8) :
    (u ++ [b, 0x3b]).count 0x3d ≤
      (u ++ (b :: 0x3b :: rest).takeWhile (· ≠ 0x27)).count 0x3d := by
  rw [count_append, count_append]
  by_cases hb : b = 0x27
  · subst hb
    simp
  · rw [takeWhile_cons_of_pos (by simpa using hb),
      takeWhile_cons_of_pos (by simp), count_cons, count_cons, count_cons,
      count_cons, count_nil]
    omega

/-- **A text whose results are some pairs** has no more `=` than the pairs. -/
theorem count_le_of_results {ps : List (List UInt8 × List UInt8)} {d : List UInt8}
    (h : metaResults n ⟨.key, x⟩ d = some (icyExpected ps)) : d.count 0x3d ≤ equalSigns ps := by
  induction ps generalizing n x d with
  | nil =>
    by_cases hd : 0x3d ∈ d
    · obtain ⟨k, rest, rfl, hk⟩ := eq_append_cons_of_mem hd
      cases n with
      | zero => simp [metaResults] at h
      | succ n =>
        rw [metaResults_key hk] at h
        obtain ⟨rs, -, he⟩ := map_eq_some_iff.mp h
        cases he
    · rw [count_eq_zero_of_not_mem hd]
      exact Nat.zero_le _
  | cons p ps ih =>
    obtain ⟨m, rest, hk, rfl, h₁⟩ := metaResults_key_inv h
    obtain ⟨m', u, b, rest', rfl, hv, h₂⟩ := metaResults_val_inv h₁
    have hrest := ih h₂
    have hval := count_takeWhile_le u rest' b
    rw [← hv] at hval
    have hkey : p.1.count 0x3d = 0 := count_eq_zero_of_not_mem hk
    have hother : ∀ c : UInt8, c ≠ 0x3d → ∀ l : List UInt8, (c :: l).count 0x3d = l.count 0x3d :=
      fun c hc l => count_cons_of_ne hc
    rw [equalSigns] at hrest
    simp only [equalSigns, map_cons, sum_cons, count_append, hkey,
      count_cons_self, hother 0x27 (by decide), Nat.zero_add] at hval ⊢
    rw [count_cons, hother 0x3b (by decide)] at hval ⊢
    rw [count_nil] at hval
    omega

end Results

/-! ### Texts -/

section Texts

variable {n : ℕ} {x z : List UInt8}

/-- A value that does not contain a quote in front of a semicolon. -/
def Closed (v : List UInt8) : Prop := ¬ [0x27, 0x3b] <:+: v

/-- **A value that ends at its own quote** -/
theorem metaResults_closed {v : List UInt8} (hv : fromSemicolon v = []) (rest : List UInt8) :
    metaResults (n + 1) ⟨.qopen, x⟩ (0x27 :: (v ++ 0x27 :: 0x3b :: rest)) =
      (metaResults n ⟨.key, v⟩ rest).map fun rs => (.val, v) :: rs := by
  refine metaResults_val ?_ mem_cons_self (by simp)
  have hnot : 0x3b ∉ v.tail := by
    intro h
    obtain ⟨k, r, hk, hkn⟩ := eq_append_cons_of_mem h
    rw [fromSemicolon, hk, (takeWhile_ne_append hkn r).2] at hv
    cases hv
  cases v with
  | nil => exact not_mem_nil
  | cons c v =>
    rw [tail_cons] at hnot
    simpa using hnot

/-- **A value that goes on behind a semicolon** is read to its end, but the text goes on behind the
semicolon. -/
theorem metaResults_open {v : List UInt8} (hclosed : Closed v) (hv : fromSemicolon v ≠ []) :
    ∃ w, fromSemicolon v = 0x3b :: w ∧ ∀ n x rest rs,
      metaResults (n + 1) ⟨.qopen, x⟩ (0x27 :: (v ++ 0x27 :: 0x3b :: rest)) = some ((.val, v) :: rs) ↔
        0x27 ∉ w ∧ metaResults n ⟨.key, v⟩ (w ++ 0x27 :: 0x3b :: rest) = some rs := by
  have hmem : 0x3b ∈ v.tail := by
    by_contra h
    exact hv (dropWhile_eq_nil_iff.mpr fun c hc => decide_eq_true fun he => h (he ▸ hc))
  obtain ⟨k, w, hk, hkn⟩ := eq_append_cons_of_mem hmem
  obtain ⟨c, rfl⟩ : ∃ c, v = c :: (k ++ 0x3b :: w) := by
    cases v with
    | nil => cases hmem
    | cons c v => exact ⟨c, by rw [← hk, tail_cons]⟩
  have hfrom : fromSemicolon (c :: (k ++ 0x3b :: w)) = 0x3b :: w := (takeWhile_ne_append hkn w).2
  obtain ⟨u, b, hub⟩ : ∃ u b, c :: k = u ++ [b] :=
    ⟨_, _, (dropLast_append_getLast (cons_ne_nil c k)).symm⟩
  have hval : c :: (k ++ 0x3b :: w) = u ++ b :: 0x3b :: w := by
    rw [← cons_append, hub, append_assoc]
    rfl
  -- the byte in front of the semicolon is not a quote
  have hb : b ≠ 0x27 := by
    rintro rfl
    exact hclosed ⟨u, w, by rw [hval, append_assoc]; rfl⟩
  refine ⟨w, hfrom, fun n x rest rs => ?_⟩
  rw [hval]
  have hu : 0x3b ∉ (u ++ [b]).tail := by rwa [← hub, tail_cons]
  have hq : 0x27 ∈ b :: 0x3b :: (w ++ 0x27 :: 0x3b :: rest) := by simp
  have hcall := @metaResults_val n x u (w ++ 0x27 :: 0x3b :: rest) b hu hq _ rfl
  rw [takeWhile_cons_of_pos (by simpa using hb), takeWhile_cons_of_pos (by simp)] at hcall
  have htext : u ++ b :: 0x3b :: w ++ 0x27 :: 0x3b :: rest =
      u ++ b :: 0x3b :: (w ++ 0x27 :: 0x3b :: rest) := by simp
  rw [htext, hcall, map_eq_some_iff]
  by_cases hw : 0x27 ∈ w
  · obtain ⟨k', r, rfl, hk'⟩ := eq_append_cons_of_mem hw
    rw [append_assoc, cons_append, (takeWhile_ne_append hk' _).1]
    constructor
    · rintro ⟨rs', -, he⟩
      have := congrArg List.length (Prod.mk.inj (List.cons.inj he).1).2
      simp only [length_append, length_cons] at this
      omega
    · rintro ⟨h, -⟩
      exact absurd hw h
  · rw [(takeWhile_ne_append hw _).1]
    simp [hw]

theorem metaResults_pair {p : List UInt8 × List UInt8} (hk : 0x3d ∉ p.1) (rest : List UInt8)
    (rs : List (IcyPars × List UInt8)) :
    metaResults (n + 1) ⟨.key, x⟩ (icyPair p ++ rest) = some ((.key, p.1) :: rs) ↔
      metaResults n ⟨.qopen, p.1⟩ (0x27 :: (p.2 ++ 0x27 :: 0x3b :: rest)) = some rs := by
  have htext : icyPair p ++ rest = p.1 ++ 0x3d :: 0x27 :: (p.2 ++ 0x27 :: 0x3b :: rest) := by
    simp [icyPair]
  rw [htext, metaResults_key hk, map_eq_some_iff]
  simp

theorem equalSigns_text {ps : List (List UInt8 × List UInt8)} (hk : ∀ p ∈ ps, 0x3d ∉ p.1)
    (hz : 0x3d ∉ z) : (ps.flatMap icyPair ++ z).count 0x3d = equalSigns ps := by
  induction ps with
  | nil => simpa [equalSigns] using count_eq_zero_of_not_mem hz
  | cons p ps ih =>
    have hkey := count_eq_zero_of_not_mem (hk p mem_cons_self)
    have hih := ih fun q hq => hk q (mem_cons_of_mem _ hq)
    rw [flatMap_cons, append_assoc, count_append, hih]
    simp [icyPair, equalSigns, hkey]

/-- **The pairs of a text are read as they were added** if and only if no value goes on behind a
semicolon, the last one apart. -/
theorem icyMeta_iff {ps : List (List UInt8 × List UInt8)} (hk : ∀ p ∈ ps, 0x3d ∉ p.1)
    (hv : ∀ p ∈ ps, Closed p.2) (hz : 0x3d ∉ z) (hn : (ps.flatMap icyPair ++ z).length < n) :
    metaResults n ⟨.key, x⟩ (ps.flatMap icyPair ++ z) = some (icyExpected ps) ↔ ValuesOk ps := by
  induction ps generalizing n x with
  | nil =>
    obtain ⟨n, rfl⟩ := Nat.exists_eq_succ_of_ne_zero (Nat.ne_zero_of_lt hn)
    rw [flatMap_nil, nil_append, metaResults_noKey hz]
    simp [icyExpected, ValuesOk]
  | cons p ps ih =>
    have hk' : ∀ q ∈ ps, 0x3d ∉ q.1 := fun q hq => hk q (mem_cons_of_mem _ hq)
    have hkp := hk p mem_cons_self
    have hlen : (icyPair p).length = p.1.length + p.2.length + 4 := by
      simp [icyPair]
      omega
    rw [flatMap_cons, append_assoc, length_append, hlen] at hn
    obtain ⟨n, rfl⟩ : ∃ m, n = m + 2 := ⟨n - 2, by omega⟩
    have hexp : icyExpected (p :: ps) = (.key, p.1) :: (.val, p.2) :: icyExpected ps := rfl
    rw [flatMap_cons, append_assoc, hexp, metaResults_pair hkp]
    have hclosed := hv p mem_cons_self
    by_cases hsemi : fromSemicolon p.2 = []
    · rw [metaResults_closed hsemi, map_eq_some_iff]
      have hiff := @ih n p.2 hk' (fun q hq => hv q (mem_cons_of_mem _ hq)) (by omega)
      have hcons : ValuesOk (p :: ps) ↔ ValuesOk ps := by
        cases ps with
        | nil => simp [ValuesOk, hsemi]
        | cons q ps => simp [ValuesOk, hsemi]
      rw [hcons, ← hiff]
      simp
    obtain ⟨w, hw, hopen⟩ := metaResults_open hclosed hsemi
    rw [hopen]
    cases ps with
    | nil =>
      rw [ValuesOk, hw]
      have hz' : 0x3d ∈ w ++ 0x27 :: 0x3b :: z ↔ 0x3d ∈ w := by simp [hz]
      obtain ⟨n, rfl⟩ : ∃ m, n = m + 1 := ⟨n - 1, by omega⟩
      by_cases he : 0x3d ∈ w
      · have hres : metaResults (n + 1) ⟨.key, p.2⟩ (w ++ 0x27 :: 0x3b :: z) ≠ some [] := by
          intro h
          have hcount := @count_le_of_results _ _ [] _ h
          rw [count_append, equalSigns, map_nil, sum_nil] at hcount
          have := count_pos_iff.mpr he
          omega
        simp [hres, icyExpected, he]
      · rw [flatMap_nil, nil_append, metaResults_noKey (by rwa [hz'])]
        simp [icyExpected, he]
    | cons q ps =>
      rw [ValuesOk, hw]
      constructor
      · rintro ⟨-, hres⟩
        -- there would be more `=` than the remaining pairs have
        have hcount := count_le_of_results hres
        rw [count_append, count_cons_of_ne (by decide),
          count_cons_of_ne (by decide), equalSigns_text hk' hz] at hcount
        have hw' : 0x3d ∉ w := count_eq_zero.mp (by omega)
        obtain ⟨m, rest, hq, htext, -⟩ := metaResults_key_inv hres
        have hkey : (w ++ 0x27 :: 0x3b :: q.1) ++ 0x3d :: (0x27 :: (q.2 ++ 0x27 :: 0x3b ::
            (ps.flatMap icyPair ++ z))) = q.1 ++ 0x3d :: rest := by
          rw [← htext]
          simp [icyPair]
        have hfirst : 0x3d ∉ w ++ 0x27 :: 0x3b :: q.1 := by simp [hw', hq]
        have htake := congrArg (List.takeWhile fun c => decide (c ≠ 0x3d)) hkey
        rw [(takeWhile_ne_append hfirst _).1, (takeWhile_ne_append hq rest).1] at htake
        have := congrArg List.length htake
        simp only [length_append, length_cons] at this
        omega
      · rintro ⟨h, -⟩
        cases h

end Texts

/-! ### Blocks -/

section Blocks

variable {ps : List (List UInt8 × List UInt8)}

theorem icyAdd_eq {m m' : IcyMeta} (h : icyAdd m ps = some m') :
    m'.bytes = m.bytes ++ ps.flatMap icyPair := by
  induction ps generalizing m with
  | nil =>
    obtain rfl := some.inj h
    simp
  | cons p ps ih =>
    rw [icyAdd] at h
    by_cases hroom : (icyPair p).length < m.cap - m.bytes.length
    · have hadd : fficyAddmeta m p = ({ m with bytes := m.bytes ++ icyPair p }, (icyPair p).length) := by
        rw [fficyAddmeta, if_pos hroom]
      have hne : (icyPair p).length ≠ 0 := by simp [icyPair]
      rw [hadd, if_neg hne] at h
      rw [ih h, flatMap_cons, append_assoc]
    · rw [fficyAddmeta, if_neg hroom, if_pos rfl] at h
      cases h

/-- **The block**: the text with zero bytes behind it; without a buffer the first byte of the text
is overwritten. -/
theorem icyBuild_eq {buf block : List UInt8} (h : icyBuild buf ps = some block) :
    ∃ z, 0x3d ∉ z ∧ block.tail =
      if buf = [] then (ps.flatMap icyPair ++ z).tail else ps.flatMap icyPair ++ z := by
  obtain ⟨m, hm, hfin⟩ := bind_eq_some_iff.mp h
  have hbytes := icyAdd_eq hm
  obtain ⟨pad, c, rfl⟩ : ∃ pad c, block = (m.bytes ++ List.replicate pad 0).set 0 c := by
    obtain ⟨n, hn⟩ : ∃ n, n = (m.bytes.length + (2 ^ 32 - 1)) % 2 ^ 32 := ⟨_, rfl⟩
    obtain ⟨pad, hpad⟩ : ∃ pad, pad = if n % 16 ≠ 0 then 16 - n % 16 else 0 := ⟨_, rfl⟩
    simp only [fficyFinmeta, ← hn, ← hpad] at hfin
    by_cases hcap : m.bytes.length + pad > m.cap
    · rw [if_pos hcap] at hfin
      cases hfin
    · rw [if_neg hcap] at hfin
      exact ⟨pad, _, (some.inj hfin).symm⟩
  refine ⟨List.replicate pad 0, by simp [mem_replicate], ?_⟩
  have htail : ∀ (l : List UInt8) (c : UInt8), (l.set 0 c).tail = l.tail := by
    intro l c
    cases l <;> rfl
  rw [htail, hbytes]
  cases buf with
  | nil => simp [fficyInitmeta]
  | cons b buf => simp [fficyInitmeta]

/-- **The pairs of a block are read as they were added**, exactly if there is a buffer for it and no
value goes on behind a semicolon, the last one apart. -/
theorem icyBuild_iff {buf block : List UInt8} (hbuild : icyBuild buf ps = some block)
    (hk : ∀ p ∈ ps, 0x3d ∉ p.1) (hv : ∀ p ∈ ps, Closed p.2) :
    icyMetaResults block.tail = some (icyExpected ps) ↔ IcyOk buf ps := by
  obtain ⟨z, hz, hblock⟩ := icyBuild_eq hbuild
  by_cases hbuf : buf = []
  · rw [if_pos hbuf] at hblock
    rw [IcyOk, hblock]
    cases ps with
    | nil =>
      have hz' : 0x3d ∉ z.tail := fun h => hz (mem_of_mem_tail h)
      rw [icyMetaResults, flatMap_nil, nil_append]
      simp [fficyMetaparseInit, metaResults_noKey hz', icyExpected, ValuesOk]
    | cons p ps =>
      have hkp := hk p mem_cons_self
      constructor
      · intro hres
        -- the first key that is read lacks its first byte
        obtain ⟨m, rest, -, htext, -⟩ := @metaResults_key_inv _ _ _ _
          ((.val, p.2) :: icyExpected ps) hres
        have htext' : (p.1 ++ 0x3d :: (0x27 :: (p.2 ++ 0x27 :: 0x3b ::
            (ps.flatMap icyPair ++ z)))).tail = p.1 ++ 0x3d :: rest := by
          rw [← htext]
          simp [icyPair]
        obtain ⟨htake, -⟩ := takeWhile_ne_append hkp rest
        rw [← htext'] at htake
        cases hp : p.1 with
        | nil =>
          rw [hp, nil_append, tail_cons] at htake
          simp at htake
        | cons c k =>
          rw [hp, mem_cons, not_or] at hkp
          rw [hp, cons_append, tail_cons, (takeWhile_ne_append hkp.2 _).1] at htake
          have := congrArg List.length htake
          simp at this
      · rintro ⟨h | h, -⟩
        · exact absurd hbuf h
        · cases h
  · rw [if_neg hbuf] at hblock
    rw [icyMetaResults, hblock, fficyMetaparseInit, icyMeta_iff hk hv hz (Nat.lt_succ_self _), IcyOk]
    simp [hbuf]

end Blocks

/-- **ICY streams and metadata.** The pieces of a stream are its audio data and each block is
returned once and whole, however the stream was divided; the pairs of a block are read as they were
added, exactly if there is a buffer for it and no value goes on behind a semicolon, the last one
apart. -/
theorem fficy_iff {M : ℕ} (hM : 0 < M) (s : IcyStream M) {ds : List (List UInt8)}
    (hds : ds.flatten = s.bytes) {buf block : List UInt8} {ps : List (List UInt8 × List UInt8)}
    (hbuild : icyBuild buf ps = some block) (hk : ∀ p ∈ ps, 0x3d ∉ p.1)
    (hv : ∀ p ∈ ps, Closed p.2) :
    ((∃ ic rs, feeds fficyParse (fficyParseinit M) ds = some (ic, rs) ∧
        icyAudio rs = s.audio ∧ icyBlocks rs = s.metadata) ∧
      icyMetaResults block.tail = some (icyExpected ps)) ↔ IcyOk buf ps := by
  rw [icyBuild_iff hbuild hk hv]
  exact and_iff_right (fficyParse_stream hM s hds)

/-- A stream of one block in two parts, and a block of two pairs, the last with a semicolon. -/
theorem fficy_iff_example :
    ((∃ ic rs, feeds fficyParse (fficyParseinit 2) [[1, 2, 1, 3], List.replicate 15 4 ++ [5]] =
        some (ic, rs) ∧ icyAudio rs = [1, 2, 5] ∧ icyBlocks rs = [3 :: List.replicate 15 4]) ∧
      icyMetaResults ([0x6b, 0x3d, 0x27, 0x61, 0x27, 0x3b, 0x6c, 0x3d, 0x27, 0x61, 0x3b, 0x62, 0x27,
        0x3b] ++ List.replicate 2 0) =
        some (icyExpected [([0x6b], [0x61]), ([0x6c], [0x61, 0x3b, 0x62])])) ↔
      IcyOk (List.replicate 32 0) [([0x6b], [0x61]), ([0x6c], [0x61, 0x3b, 0x62])] :=
  @fficy_iff 2 (by decide)
    ⟨[([1, 2], 3 :: List.replicate 15 4)], .audio [5], by decide,
      fun b hb => ⟨1, by rw [mem_singleton.mp hb]; rfl⟩, .inr (by decide)⟩
    [[1, 2, 1, 3], List.replicate 15 4 ++ [5]] rfl (List.replicate 32 0)
    (1 :: ([0x6b, 0x3d, 0x27, 0x61, 0x27, 0x3b, 0x6c, 0x3d, 0x27, 0x61, 0x3b, 0x62, 0x27, 0x3b] ++
      List.replicate 2 0)) [([0x6b], [0x61]), ([0x6c], [0x61, 0x3b, 0x62])] (by decide) (by decide)
    (by unfold Closed; decide)

/-- **A value with a semicolon** that is not the last one: the rest of it is taken for a key. -/
theorem fficy_semicolon :
    ¬ ∀ (buf block : List UInt8) (ps : List (List UInt8 × List UInt8)),
      icyBuild buf ps = some block → (∀ p ∈ ps, 0x3d ∉ p.1) → (∀ p ∈ ps, Closed p.2) →
      icyMetaResults block.tail = some (icyExpected ps) := by
  intro hall
  have h := hall (List.replicate 32 0)
    (1 :: ([0x6b, 0x3d, 0x27, 0x61, 0x3b, 0x62, 0x27, 0x3b, 0x6c, 0x3d, 0x27, 0x63, 0x27, 0x3b] ++
      List.replicate 2 0)) [([0x6b], [0x61, 0x3b, 0x62]), ([0x6c], [0x63])] (by decide) (by decide)
    (by unfold Closed; decide)
  exact absurd h (by decide)

end FF
