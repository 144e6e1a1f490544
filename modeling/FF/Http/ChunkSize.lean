import FF.Http.Chunked
import FF.Toint

/-!
# The size on a chunk's line

`ffhttp_chunkparse` on a line with the size of a chunk, compared with the hexadecimal number that
the line holds.
-/

namespace FF

namespace Http

open List Option

/-! ### The number on a line -/

/-- The digits at the start of a line: the longest run of them. -/
def lineDigits (line : List UInt8) : List UInt8 := line.takeWhile fun c => (digitOf 16 c).isSome

/-- The characters at the start of a line that `ffchar_tohex` takes for digits. -/
def lineTaken (line : List UInt8) : List UInt8 := line.takeWhile fun c => (ffcharTohex c).isSome

/-- What may follow the digits in front of the line feed: a carriage return at the end only, and
an extension in front of it. -/
def LineTail (t : List UInt8) : Prop :=
  (∀ c, t.head? = some c → c = CR ∨ c = 0x3b ∨ c = 0x20 ∨ c = 0x09) ∧ CR ∉ t.dropLast

/-- **The size on a line**: the value of its digits, if there are any, the line ends as it should,
and the value is below `2 ^ 64`. -/
def lineSize (line : List UInt8) (v : ℕ) : Prop :=
  lineDigits line ≠ [] ∧ LineTail (line.drop (lineDigits line).length) ∧
    v = numVal (digitOf 16) 16 0 (lineDigits line) ∧ v < 2 ^ 64

/-- A code that reports an error. -/
def FfhttpE.IsErr (r : FfhttpE) : Prop := r ≠ .ok ∧ r ≠ .more ∧ r ≠ .done

/-- **The size used is the number on the line**: however the line and what follows it are divided
into fragments, the calls go on from the end of the line with the size on it; where there is none,
they report an error. -/
def SizeLineExact (line : List UInt8) : Prop :=
  ∀ (c : FfhttpChunked) (frags : List (List UInt8)) (tail : List UInt8) (n : ℕ),
    frags.flatten = line ++ LF :: tail → frags.flatten.length + frags.length < n →
      (∀ v, lineSize line v → ∀ c' r rest out,
        chnkRun ⟨v, .data, v == 0⟩ tail = (c', r, rest, out) →
          ∃ rs, chunkFeed n (ffhttpChunkinit c) frags = some (out, r, rs) ∧ rs.flatten = rest) ∧
      ((∀ v, ¬lineSize line v) →
        ∃ r rs, chunkFeed n (ffhttpChunkinit c) frags = some ([], r, rs) ∧ r.IsErr)

/-- A digit of 8 or more has at least 16 behind it: the number is refused as too large. -/
def TooLong (cs : List UInt8) : Prop :=
  ∃ p d q, cs = p ++ d :: q ∧ 8 ≤ (ffcharTohex d).getD 0 ∧ 16 ≤ q.length

/-- **The lines whose size is read right**: `ffchar_tohex` takes no more than the digits for
digits, and their value is below `2 ^ 64`; or the line is refused as too large or for its end. -/
def SizeLineOk (line : List UInt8) : Prop :=
  (lineTaken line = lineDigits line ∧ numVal (digitOf 16) 16 0 (lineDigits line) < 2 ^ 64) ∨
    TooLong (lineTaken line) ∨ ¬LineTail (line.drop (lineTaken line).length)

/-! ### Digits -/

theorem lineTaken_some {line : List UInt8} {c : UInt8} (h : c ∈ lineTaken line) :
    (ffcharTohex c).isSome = true :=
  mem_takeWhile_imp (p := fun c => (ffcharTohex c).isSome) h

theorem lineDigits_starts (line : List UInt8) : lineDigits line <+: lineTaken line := by
  refine takeWhile_prefix_takeWhile (fun c hc => ?_) _
  obtain ⟨b, hb⟩ := isSome_iff_exists.mp hc
  rw [ffcharTohex_of_digitOf hb]
  rfl

theorem numVal_lineDigits (line : List UInt8) :
    numVal ffcharTohex 16 0 (lineDigits line) = numVal (digitOf 16) 16 0 (lineDigits line) := by
  refine numVal_congr (fun c hc => ?_) _ _
  have hsome := mem_takeWhile_imp (p := fun c => (digitOf 16 c).isSome) hc
  obtain ⟨b, hb⟩ := isSome_iff_exists.mp hsome
  rw [hb, ffcharTohex_of_digitOf hb]

theorem numVal_hex_lt (cs : List UInt8) : numVal ffcharTohex 16 0 cs < 16 ^ cs.length :=
  numVal_lt (by omega) (fun _ _ h => ffcharTohex_lt h) cs

theorem accumulator_bit {p : List UInt8} :
    2 ^ 63 ≤ numVal ffcharTohex 16 0 p % 2 ^ 64 ↔
      ∃ p' d q, p = p' ++ d :: q ∧ 8 ≤ (ffcharTohex d).getD 0 ∧ q.length = 15 := by
  have hsplit : ∀ (p' : List UInt8) (d : UInt8) (q : List UInt8), q.length = 15 →
      (2 ^ 63 ≤ numVal ffcharTohex 16 0 (p' ++ d :: q) % 2 ^ 64 ↔
        8 ≤ (ffcharTohex d).getD 0) := by
    intro p' d q hq
    have hlt := numVal_hex_lt q
    have hd : (ffcharTohex d).getD 0 < 16 := by
      cases hx : ffcharTohex d with
      | none => simp
      | some b => simpa using ffcharTohex_lt hx
    rw [hq] at hlt
    rw [numVal_append, numVal_cons, numVal_eq, hq]
    generalize numVal ffcharTohex 16 0 p' = a
    generalize (ffcharTohex d).getD 0 = b at hd
    generalize numVal ffcharTohex 16 0 q = v at hlt
    omega
  constructor
  · intro h
    have hlen : 16 ≤ p.length := by
      by_contra hshort
      have hlt := numVal_hex_lt p
      have hpow : 16 ^ p.length ≤ 16 ^ 15 := Nat.pow_le_pow_right (by omega) (by omega)
      omega
    obtain ⟨p', q', hp, hq'⟩ : ∃ p' q', p = p' ++ q' ∧ q'.length = 16 :=
      ⟨p.take (p.length - 16), p.drop (p.length - 16), (take_append_drop _ _).symm, by
        rw [length_drop]
        omega⟩
    obtain ⟨d, q, rfl⟩ := exists_cons_of_length_pos (by omega : 0 < q'.length)
    rw [length_cons] at hq'
    rw [hp] at h
    exact ⟨p', d, q, hp, (hsplit p' d q (by omega)).mp h, by omega⟩
  · rintro ⟨p', d, q, rfl, hd, hq⟩
    exact (hsplit p' d q hq).mpr hd

/-- The number is refused where the accumulator has its highest bit and one more digit follows. -/
theorem tooLong_iff {cs : List UInt8} :
    TooLong cs ↔ ∃ p d q, cs = p ++ d :: q ∧ 2 ^ 63 ≤ numVal ffcharTohex 16 0 p % 2 ^ 64 := by
  constructor
  · rintro ⟨p, d, q, rfl, hd, hq⟩
    obtain ⟨e, q'', hdrop⟩ : ∃ e q'', q.drop 15 = e :: q'' := by
      refine exists_cons_of_length_pos ?_
      rw [length_drop]
      omega
    refine ⟨p ++ d :: q.take 15, e, q'', ?_, accumulator_bit.mpr ⟨p, d, q.take 15, rfl, hd, ?_⟩⟩
    · rw [← hdrop, append_assoc, cons_append, take_append_drop]
    · rw [length_take]
      omega
  · rintro ⟨p, d, q, rfl, hbit⟩
    obtain ⟨p', e, q', rfl, he, hq'⟩ := accumulator_bit.mp hbit
    refine ⟨p', e, q' ++ d :: q, by simp, he, ?_⟩
    rw [length_append, length_cons]
    omega

theorem TooLong.le {cs : List UInt8} (h : TooLong cs) : 2 ^ 64 ≤ numVal ffcharTohex 16 0 cs := by
  obtain ⟨p, d, q, rfl, hd, hq⟩ := h
  have hpow : 16 ^ 16 ≤ 16 ^ q.length := Nat.pow_le_pow_right (by omega) hq
  rw [numVal_append, numVal_cons, numVal_eq]
  calc 2 ^ 64 ≤ 8 * 16 ^ 16 := by omega
    _ ≤ (numVal ffcharTohex 16 0 p * 16 + (ffcharTohex d).getD 0) * 16 ^ q.length :=
        Nat.mul_le_mul (by omega) hpow
    _ ≤ _ := Nat.le_add_right _ _

/-- A run that is too long, without its first character of value `a`. -/
theorem tooLong_cons_iff {c : UInt8} {cs : List UInt8} {a : ℕ}
    (ha : a = numVal ffcharTohex 16 0 [c]) : TooLong (c :: cs) ↔
      ∃ p d q, cs = p ++ d :: q ∧ 2 ^ 63 ≤ numVal ffcharTohex 16 a p % 2 ^ 64 := by
  rw [tooLong_iff]
  constructor
  · rintro ⟨p, d, q, heq, hbit⟩
    cases p with
    | nil => exact absurd hbit (by decide)
    | cons c' p =>
      obtain ⟨rfl, rfl⟩ := List.cons.inj heq
      refine ⟨p, d, q, rfl, ?_⟩
      rw [ha, ← numVal_append]
      exact hbit
  · rintro ⟨p, d, q, rfl, hbit⟩
    refine ⟨c :: p, d, q, rfl, ?_⟩
    rw [ha, ← numVal_append] at hbit
    exact hbit

/-! ### The parser on a line -/

/-- The characters that the parser takes for digits: they are refused as too large, or the
accumulator holds their value modulo `2 ^ 64`. -/
theorem chnkRun_digits {a : ℕ} {ds : List UInt8} (ha : a < 2 ^ 64)
    (hds : ∀ c ∈ ds, (ffcharTohex c).isSome = true) (last : Bool) (cs : List UInt8) :
    ((∃ p d q, ds = p ++ d :: q ∧ 2 ^ 63 ≤ numVal ffcharTohex 16 a p % 2 ^ 64) →
      ∃ c' rest, chnkRun ⟨a, .size, last⟩ (ds ++ cs) = (c', .etoolarge, rest, [])) ∧
    ((¬∃ p d q, ds = p ++ d :: q ∧ 2 ^ 63 ≤ numVal ffcharTohex 16 a p % 2 ^ 64) →
      chnkRun ⟨a, .size, last⟩ (ds ++ cs) =
        chnkRun ⟨numVal ffcharTohex 16 a ds % 2 ^ 64, .size, last⟩ cs) := by
  induction ds generalizing a with
  | nil =>
    constructor
    · rintro ⟨p, d, q, h, -⟩
      exact absurd h (by simp)
    · intro _
      rw [nil_append, numVal, foldl_nil, Nat.mod_eq_of_lt ha]
  | cons ch ds ih =>
    obtain ⟨b, hb⟩ := isSome_iff_exists.mp (hds ch mem_cons_self)
    have hds' : ∀ c ∈ ds, (ffcharTohex c).isSome = true :=
      fun c hc => hds c (mem_cons_of_mem ch hc)
    have hbit : a.testBit 63 = true ↔ 2 ^ 63 ≤ a := by
      constructor
      · intro h
        exact Nat.ge_two_pow_of_testBit h
      · intro h
        by_contra hfalse
        rw [Bool.not_eq_true, Nat.testBit_eq_decide_div_mod_eq, decide_eq_false_iff_not] at hfalse
        omega
    by_cases hover : 2 ^ 63 ≤ a
    · have hstep : chnkSwitch ⟨a, .size, last⟩ ch = .fin ⟨a, .size, last⟩ .etoolarge false := by
        simp only [chnkSwitch, caseSize, chnkSize, hb, hbit.mpr hover, if_true]
      constructor
      · rintro -
        rw [cons_append, chnkRun_fin hstep]
        exact ⟨_, _, rfl⟩
      · intro hno
        refine absurd ⟨[], ch, ds, rfl, ?_⟩ hno
        rw [numVal, foldl_nil, Nat.mod_eq_of_lt ha]
        exact hover
    have hfalse : a.testBit 63 = false := by
      rw [← Bool.not_eq_true, hbit]
      exact hover
    have hstep : chnkSwitch ⟨a, .size, last⟩ ch =
        .next ⟨(a * 16 + b) % 2 ^ 64, .size, last⟩ := by
      simp only [chnkSwitch, caseSize, chnkSize, hb, hfalse, Bool.false_eq_true, if_false]
    have hval : ∀ p, numVal ffcharTohex 16 ((a * 16 + b) % 2 ^ 64) p % 2 ^ 64 =
        numVal ffcharTohex 16 a (ch :: p) % 2 ^ 64 := by
      intro p
      rw [numVal_mod, numVal_cons, hb, getD_some]
    have hiff : (∃ p d q, ch :: ds = p ++ d :: q ∧
          2 ^ 63 ≤ numVal ffcharTohex 16 a p % 2 ^ 64) ↔
        ∃ p d q, ds = p ++ d :: q ∧
          2 ^ 63 ≤ numVal ffcharTohex 16 ((a * 16 + b) % 2 ^ 64) p % 2 ^ 64 := by
      constructor
      · rintro ⟨p, d, q, heq, hp⟩
        cases p with
        | nil =>
          rw [numVal, foldl_nil, Nat.mod_eq_of_lt ha] at hp
          exact absurd hp hover
        | cons c' p =>
          obtain ⟨rfl, rfl⟩ := List.cons.inj heq
          exact ⟨p, d, q, rfl, by rw [hval]; exact hp⟩
      · rintro ⟨p, d, q, rfl, hp⟩
        exact ⟨ch :: p, d, q, rfl, by rw [← hval]; exact hp⟩
    rw [cons_append, chnkRun_next hstep, hiff, ← hval]
    exact ih (Nat.mod_lt _ (Nat.two_pow_pos 64)) hds'

theorem chnkRun_ext (v : ℕ) (last : Bool) {t : List UInt8} (hlf : LF ∉ t) (tail : List UInt8) :
    (CR ∉ t.dropLast →
      chnkRun ⟨v, .ext, last⟩ (t ++ LF :: tail) = chnkRun ⟨v, .data, last⟩ tail) ∧
    (CR ∈ t.dropLast →
      ∃ c' rest, chnkRun ⟨v, .ext, last⟩ (t ++ LF :: tail) = (c', .eeol, rest, [])) := by
  induction t with
  | nil => exact ⟨fun _ => rfl, fun h => absurd h (by simp)⟩
  | cons ch t ih =>
    obtain ⟨hch, hlf'⟩ := not_or.mp (mt mem_cons.mpr hlf)
    cases t with
    | nil =>
      refine ⟨fun _ => ?_, fun h => absurd h (by simp)⟩
      by_cases hcr : ch = CR
      · subst hcr
        rfl
      · have hstep : chnkSwitch ⟨v, .ext, last⟩ ch = .next ⟨v, .ext, last⟩ := by
          simp only [chnkSwitch, if_neg hcr, if_neg (Ne.symm hch)]
        rw [cons_append, chnkRun_next hstep]
        rfl
    | cons ch' t =>
      obtain ⟨hch', -⟩ := not_or.mp (mt mem_cons.mpr hlf')
      rw [dropLast_cons_cons, mem_cons]
      by_cases hcr : ch = CR
      · subst hcr
        refine ⟨fun h => absurd (Or.inl rfl) h, fun _ => ?_⟩
        have hstep : chnkSwitch ⟨v, .beforeDataLf, last⟩ ch' =
            .fin ⟨v, .beforeDataLf, last⟩ .eeol false := by
          simp only [chnkSwitch, expectLf, if_neg (Ne.symm hch')]
        have hcr : chnkSwitch ⟨v, .ext, last⟩ CR = .next ⟨v, .beforeDataLf, last⟩ := rfl
        rw [cons_append, cons_append, chnkRun_next hcr, chnkRun_fin hstep]
        exact ⟨_, _, rfl⟩
      have hstep : chnkSwitch ⟨v, .ext, last⟩ ch = .next ⟨v, .ext, last⟩ := by
        simp only [chnkSwitch, if_neg hcr, if_neg (Ne.symm hch)]
      rw [cons_append, chnkRun_next hstep]
      refine ⟨fun h => (ih hlf').1 fun hmem => h (Or.inr hmem), ?_⟩
      rintro (h | h)
      · exact absurd h.symm hcr
      · exact (ih hlf').2 h

theorem chnkRun_tail (v : ℕ) {t : List UInt8} (hlf : LF ∉ t)
    (hhead : ∀ c, t.head? = some c → ffcharTohex c = none) (tail : List UInt8) :
    (LineTail t →
      chnkRun ⟨v, .size, false⟩ (t ++ LF :: tail) = chnkRun ⟨v, .data, v == 0⟩ tail) ∧
    (¬LineTail t → ∃ c' r rest,
      chnkRun ⟨v, .size, false⟩ (t ++ LF :: tail) = (c', r, rest, []) ∧ r.IsErr) := by
  cases t with
  | nil =>
    have hstep : chnkSwitch ⟨v, .size, false⟩ LF = .next ⟨v, .data, v == 0⟩ := by
      have hhex : ffcharTohex LF = none := by decide
      have hcr : LF ≠ CR := by decide
      simp only [chnkSwitch, caseSize, chnkSize, hhex, if_neg hcr, if_true, Bool.or_false]
    refine ⟨fun _ => chnkRun_next hstep, fun h => absurd ?_ h⟩
    exact ⟨fun c hc => (by cases hc), by simp⟩
  | cons ch t =>
    have hhex := hhead ch rfl
    obtain ⟨hch, hlf'⟩ := not_or.mp (mt mem_cons.mpr hlf)
    have hchlf : ch ≠ LF := Ne.symm hch
    by_cases hcr : ch = CR
    · subst hcr
      have hstep : chnkSwitch ⟨v, .size, false⟩ CR = .next ⟨v, .beforeDataLf, v == 0⟩ := by
        simp only [chnkSwitch, caseSize, chnkSize, hhex, if_true, Bool.or_false]
      rw [cons_append, chnkRun_next hstep]
      cases t with
      | nil =>
        refine ⟨fun _ => rfl, fun h => absurd ?_ h⟩
        exact ⟨fun c hc => Or.inl (some.inj hc).symm, by simp⟩
      | cons ch' t =>
        obtain ⟨hch', -⟩ := not_or.mp (mt mem_cons.mpr hlf')
        have hfin : chnkSwitch ⟨v, .beforeDataLf, v == 0⟩ ch' =
            .fin ⟨v, .beforeDataLf, v == 0⟩ .eeol false := by
          simp only [chnkSwitch, expectLf, if_neg (Ne.symm hch')]
        refine ⟨fun h => absurd h.2 (by simp), fun _ => ?_⟩
        rw [cons_append, chnkRun_fin hfin]
        exact ⟨_, _, _, rfl, by decide, by decide, by decide⟩
    by_cases hext : ch = 0x3b ∨ ch = 0x20 ∨ ch = 0x09
    · have hstep : chnkSwitch ⟨v, .size, false⟩ ch = .next ⟨v, .ext, v == 0⟩ := by
        simp only [chnkSwitch, caseSize, chnkSize, hhex, if_neg hcr, if_neg hchlf, if_pos hext,
          Bool.or_false]
      have htail : LineTail (ch :: t) ↔ CR ∉ t.dropLast := by
        constructor
        · intro h
          cases t with
          | nil => simp
          | cons ch' t =>
            intro hmem
            exact h.2 (mem_cons_of_mem _ hmem)
        intro h
        refine ⟨fun c hc => ?_, ?_⟩
        · obtain rfl : ch = c := some.inj hc
          exact Or.inr hext
        cases t with
        | nil => simp
        | cons ch' t =>
          rw [dropLast_cons_cons, mem_cons]
          rintro (h' | h')
          · exact hcr h'.symm
          · exact h h'
      obtain ⟨hok, herr⟩ := chnkRun_ext v (v == 0) hlf' tail
      rw [htail, cons_append, chnkRun_next hstep]
      refine ⟨hok, fun h => ?_⟩
      obtain ⟨c', rest, hrun⟩ := herr (not_not.mp h)
      exact ⟨c', _, rest, hrun, by decide, by decide, by decide⟩
    have hstep : chnkSwitch ⟨v, .size, false⟩ ch =
        .fin ⟨v, .size, v == 0⟩ .ehdrval false := by
      simp only [chnkSwitch, caseSize, chnkSize, hhex, if_neg hcr, if_neg hchlf, if_neg hext,
        Bool.or_false]
    refine ⟨fun h => ?_, fun _ => ?_⟩
    · rcases h.1 ch rfl with h | h
      · exact absurd h hcr
      · exact absurd h hext
    · rw [cons_append, chnkRun_fin hstep]
      exact ⟨_, _, _, rfl, by decide, by decide, by decide⟩

/-! ### Exactly the lines that are read right -/

theorem lineTaken_append (line : List UInt8) :
    lineTaken line ++ line.drop (lineTaken line).length = line :=
  prefix_iff_eq_append.mp ( takeWhile_prefix _)

theorem head_drop_lineTaken {line : List UInt8} {c : UInt8}
    (h : (line.drop (lineTaken line).length).head? = some c) : ffcharTohex c = none := by
  have hdrop : line.drop (lineTaken line).length =
      line.dropWhile fun c => (ffcharTohex c).isSome :=
    append_cancel_left ((lineTaken_append line).trans takeWhile_append_dropWhile.symm)
  have hnot := head?_dropWhile_not (fun c => (ffcharTohex c).isSome) line
  rw [← hdrop, h] at hnot
  simpa using hnot

/-- **What the parser makes of a line**: it goes on with the value of what it takes for digits
modulo `2 ^ 64`, or it reports an error. -/
theorem chnkRun_line {line : List UInt8} (hlf : LF ∉ line) (c : FfhttpChunked)
    (tail : List UInt8) :
    (lineTaken line ≠ [] ∧ ¬TooLong (lineTaken line) ∧
        LineTail (line.drop (lineTaken line).length) →
      chnkRun (ffhttpChunkinit c) (line ++ LF :: tail) =
        chnkRun ⟨numVal ffcharTohex 16 0 (lineTaken line) % 2 ^ 64, .data,
          numVal ffcharTohex 16 0 (lineTaken line) % 2 ^ 64 == 0⟩ tail) ∧
    (lineTaken line = [] ∨ TooLong (lineTaken line) ∨
        ¬LineTail (line.drop (lineTaken line).length) →
      ∃ c' r rest,
        chnkRun (ffhttpChunkinit c) (line ++ LF :: tail) = (c', r, rest, []) ∧ r.IsErr) := by
  have hall : ∀ c ∈ lineTaken line, (ffcharTohex c).isSome = true := fun c hc =>
    lineTaken_some hc
  have hline := lineTaken_append line
  have hhead : ∀ c, (line.drop (lineTaken line).length).head? = some c → ffcharTohex c = none :=
    fun c hc => head_drop_lineTaken hc
  generalize lineTaken line = cs at hall hline hhead
  generalize line.drop cs.length = t at hline hhead
  subst hline
  have hlft : LF ∉ t := fun h => hlf (mem_append_right cs h)
  cases cs with
  | nil =>
    refine ⟨fun h => absurd rfl h.1, fun _ => ?_⟩
    obtain ⟨ch, t', ht, hch⟩ : ∃ ch t', t ++ LF :: tail = ch :: t' ∧ ffcharTohex ch = none := by
      cases t with
      | nil => exact ⟨LF, tail, rfl, by decide⟩
      | cons ch t => exact ⟨ch, t ++ LF :: tail, rfl, hhead ch rfl⟩
    have hstep : chnkSwitch (ffhttpChunkinit c) ch = .fin (ffhttpChunkinit c) .ehdrval false := by
      simp only [chnkSwitch, ffhttpChunkinit, hch]
    rw [nil_append, ht, chnkRun_fin hstep]
    exact ⟨_, _, _, rfl, by decide, by decide, by decide⟩
  | cons ch cs =>
    obtain ⟨b, hb⟩ := isSome_iff_exists.mp (hall ch mem_cons_self)
    have hb16 := ffcharTohex_lt hb
    have hone : b = numVal ffcharTohex 16 0 [ch] := by
      rw [numVal_cons, hb]
      simp [numVal]
    have hval : numVal ffcharTohex 16 0 (ch :: cs) = numVal ffcharTohex 16 b cs := by
      rw [hone, ← numVal_append, singleton_append]
    have hstep : chnkSwitch (ffhttpChunkinit c) ch = .next ⟨b, .size, false⟩ := by
      simp only [chnkSwitch, ffhttpChunkinit, hb]
    obtain ⟨hlong, hfit⟩ := chnkRun_digits (by omega : b < 2 ^ 64)
      (fun c hc => hall c (mem_cons_of_mem ch hc)) false (t ++ LF :: tail)
    obtain ⟨hok, herr⟩ :=
      chnkRun_tail (numVal ffcharTohex 16 b cs % 2 ^ 64) hlft hhead tail
    rw [tooLong_cons_iff hone, append_assoc, cons_append, chnkRun_next hstep, hval]
    constructor
    · rintro ⟨-, hshort, htail⟩
      rw [hfit hshort, hok htail]
    intro hbad
    by_cases hshort : ∃ p d q, cs = p ++ d :: q ∧ 2 ^ 63 ≤ numVal ffcharTohex 16 b p % 2 ^ 64
    · obtain ⟨c', rest, hrun⟩ := hlong hshort
      exact ⟨c', _, rest, hrun, by decide, by decide, by decide⟩
    have htail : ¬LineTail t := by
      rcases hbad with h | h | h
      · cases h
      · exact absurd h hshort
      · exact h
    rw [hfit hshort]
    exact herr htail

theorem drop_of_append_eq {a b l : List UInt8} (h : a ++ b = l) : l.drop a.length = b := by
  rw [← h, drop_left]

theorem not_lineSize {line : List UInt8} (hne : lineTaken line ≠ lineDigits line) (v : ℕ) :
    ¬lineSize line v := by
  rintro ⟨-, htail, -⟩
  obtain ⟨t, ht⟩ := lineDigits_starts line
  cases t with
  | nil =>
    rw [append_nil] at ht
    exact hne ht.symm
  | cons c t =>
    have hc : c ∈ lineTaken line := by
      rw [← ht]
      simp
    have hdrop : line.drop (lineDigits line).length =
        c :: (t ++ line.drop (lineTaken line).length) := by
      apply drop_of_append_eq
      rw [← cons_append, ← append_assoc, ht, lineTaken_append]
    have hhead := htail.1 c (by rw [hdrop]; rfl)
    have hsome := lineTaken_some hc
    rcases hhead with rfl | rfl | rfl | rfl <;> exact absurd hsome (by decide)

theorem sizeLineExact_of_run {line : List UInt8}
    (h : ∀ (c : FfhttpChunked) (tail : List UInt8),
      (∀ v, lineSize line v →
        chnkRun (ffhttpChunkinit c) (line ++ LF :: tail) = chnkRun ⟨v, .data, v == 0⟩ tail) ∧
      ((∀ v, ¬lineSize line v) → ∃ c' r rest,
        chnkRun (ffhttpChunkinit c) (line ++ LF :: tail) = (c', r, rest, []) ∧ r.IsErr)) :
    SizeLineExact line := by
  intro c frags tail n hfrags hn
  obtain ⟨hsize, hnone⟩ := h c tail
  rw [← hfrags] at hsize hnone
  constructor
  · intro v hv c' r rest out hrun
    exact chunkFeed_eq hn ((hsize v hv).trans hrun)
  · intro hno
    obtain ⟨c', r, rest, hrun, herr⟩ := hnone hno
    obtain ⟨rs, hfeed, -⟩ := chunkFeed_eq hn hrun
    exact ⟨r, rs, hfeed, herr⟩

/-- **Exactly when the size used is the number on the line**, for every line and every
fragmentation. -/
theorem ffhttpChunkparse_size_iff (line : List UInt8) (hlf : LF ∉ line) :
    SizeLineExact line ↔ SizeLineOk line := by
  constructor
  · intro hexact
    by_contra hbad
    obtain ⟨hval, hbad⟩ := not_or.mp hbad
    obtain ⟨hshort, htail⟩ := not_or.mp hbad
    have htail := not_not.mp htail
    have hne : lineTaken line ≠ [] := by
      intro hnil
      have hpre := lineDigits_starts line
      rw [hnil] at hpre
      have hdigits := prefix_nil.mp hpre
      refine hval ⟨by rw [hnil, hdigits], ?_⟩
      rw [hdigits]
      exact Nat.two_pow_pos 64
    have hno : ∀ v, ¬lineSize line v := by
      intro v hv
      by_cases heq : lineTaken line = lineDigits line
      · exact hval ⟨heq, hv.2.2.1 ▸ hv.2.2.2⟩
      · exact not_lineSize heq v hv
    -- nothing follows the line, so that the calls ask for more
    obtain ⟨c, hc⟩ : ∃ c : FfhttpChunked, c = ⟨0, .start, false⟩ := ⟨_, rfl⟩
    have hrun := (chnkRun_line hlf c []).1 ⟨hne, hshort, htail⟩
    rw [chnkRun] at hrun
    have hflat : [line ++ [LF]].flatten = line ++ [LF] := by simp
    obtain ⟨r, rs, hfeed, herr⟩ :=
      (hexact c [line ++ [LF]] [] _ hflat (Nat.lt_succ_self _)).2 hno
    rw [← hflat] at hrun
    obtain ⟨rs', hfeed', -⟩ := chunkFeed_eq (Nat.lt_succ_self _) hrun
    rw [hfeed'] at hfeed
    have hmore : FfhttpE.more = r := congrArg (fun r => r.2.1) (some.inj hfeed)
    exact herr.2.1 hmore.symm
  intro hok
  apply sizeLineExact_of_run
  intro c tail
  obtain ⟨hgood, herr⟩ := chnkRun_line hlf c tail
  by_cases heq : lineTaken line = lineDigits line
  · have hnum : numVal ffcharTohex 16 0 (lineTaken line) =
        numVal (digitOf 16) 16 0 (lineDigits line) := by
      rw [heq, numVal_lineDigits]
    constructor
    · rintro v ⟨hne, htail, hv, hlt⟩
      have hshort : ¬TooLong (lineTaken line) := by
        intro hlong
        have hle := hlong.le
        omega
      have hmod : numVal ffcharTohex 16 0 (lineTaken line) % 2 ^ 64 = v := by
        rw [hnum, ← hv, Nat.mod_eq_of_lt hlt]
      rw [hgood ⟨by rw [heq]; exact hne, hshort, by rw [heq]; exact htail⟩, hmod]
    intro hno
    apply herr
    by_contra hacc
    obtain ⟨hne, hacc⟩ := not_or.mp hacc
    obtain ⟨hshort, htail⟩ := not_or.mp hacc
    rcases hok with ⟨-, hlt⟩ | h | h
    · rw [heq] at hne htail
      exact hno _ ⟨hne, not_not.mp htail, rfl, hlt⟩
    · exact hshort h
    · exact htail h
  constructor
  · intro v hv
    exact absurd hv (not_lineSize heq v)
  · intro _
    apply herr
    rcases hok with ⟨h, -⟩ | h
    · exact absurd h heq
    · exact Or.inr h

/-- The line `1a` with an extension. -/
theorem ffhttpChunkparse_size_1a :
    LF ∉ [0x31, 0x61, 0x3b, 0x78, CR] ∧
      (SizeLineExact [0x31, 0x61, 0x3b, 0x78, CR] ↔ SizeLineOk [0x31, 0x61, 0x3b, 0x78, CR]) :=
  ⟨by decide, ffhttpChunkparse_size_iff _ (by decide)⟩

/-- **A size of 65 bits is used modulo `2 ^ 64`**: the line with `2 ^ 64 + 5` gives a chunk of five
bytes. -/
theorem ffhttpChunkparse_size_wraps : ¬∀ line, LF ∉ line → SizeLineExact line := by
  intro h
  have hno : ∀ v, ¬lineSize (ascii "10000000000000005") v := by
    rintro v ⟨-, -, hv, hlt⟩
    have hval : numVal (digitOf 16) 16 0 (lineDigits (ascii "10000000000000005")) = 2 ^ 64 + 5 := by
      decide
    omega
  obtain ⟨r, rs, hfeed, herr⟩ := (h (ascii "10000000000000005") (by decide)
    ⟨0, .start, false⟩ [ascii "10000000000000005" ++ [LF]] [] 100 (by decide)
    (by decide)).2 hno
  have hmore : chunkFeed 100 (ffhttpChunkinit ⟨0, .start, false⟩)
      [ascii "10000000000000005" ++ [LF]] = some ([], .more, []) := by decide
  rw [hmore] at hfeed
  have hr : FfhttpE.more = r := congrArg (fun r => r.2.1) (some.inj hfeed)
  exact herr.2.1 hr.symm

end Http

end FF
