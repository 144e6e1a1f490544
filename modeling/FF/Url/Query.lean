import FF.Json.Chunks
import Mathlib.Data.List.TakeWhile

/-!
# Query strings

`ffuri_escape` with the table for a segment of a query string, and `ffurlqs_parse`, which splits a
query string into keys and values and decodes them. The functions `val_store` and `val_add` are
those of the JSON parser. A `%` at the end of the data, whose digits would be read behind it, does
not occur in what is escaped; there they are read as 0.
-/

namespace FF

namespace Url

open List Option

/-! ### Escaping -/

/-- `uriesc_qsseg`: the characters that are not escaped. -/
def uriescQsseg : List UInt32 := [0, 0xffffff96, 0xffffffff, 0x7fffffff, 0, 0, 0, 0]

/-- `ffuri_escape` without a buffer: the number of bytes that are needed. -/
def ffuriEscapeLen (mask : List UInt32) (s : List UInt8) : ℕ :=
  s.length + 2 * s.countP fun c => !ffbitTestarr mask c.toNat

/-- The loop of `ffuri_escape`, from the index `i` on; `error i` where it returns `-i`. -/
@[grind =] def escapeLoop (mask : List UInt32) (cap : ℕ) :
    List UInt8 → ℕ → List UInt8 → Except ℕ (List UInt8)
  | dst, _, [] => .ok dst
  | dst, i, c :: s =>
    if ffbitTestarr mask c.toNat then
      if dst.length = cap then .error i else escapeLoop mask cap (dst ++ [c]) (i + 1) s
    else if dst.length + 3 > cap then .error i
    else escapeLoop mask cap (dst ++ 0x25 :: ffsHexbyte c ffHEX) (i + 1) s

/-- `ffuri_escape` -/
def ffuriEscape (mask : List UInt32) (cap : ℕ) (s : List UInt8) : Except ℕ (List UInt8) :=
  escapeLoop mask cap [] 0 s

/-! ### Parsing -/

/-- The states of `ffurlqs_parse`. -/
inductive QsSt
  | keyStart
  | key
  | valStart
  | val
  deriving DecidableEq, Repr

/-- `ffurlqs`; nothing reads `nextst` and the counter `ch`. -/
structure Ffurlqs where
  state : QsSt
  val : List UInt8
  buf : Ffarr
  deriving DecidableEq, Repr

/-- `ffurlqs_parseinit` -/
def ffurlqsParseinit : Ffurlqs := ⟨.keyStart, [], .null⟩

/-- The value of a hexadecimal digit as a byte, without a check. -/
@[grind =] def hexDigit (ch : UInt8) : UInt8 :=
  match ffcharTohex ch with
  | some n => UInt8.ofNat n
  | none => 0xff

/-- What a byte does: the next state and buffer, the code, and how many bytes behind it are used
up. -/
structure QsStep where
  st : QsSt
  buf : Ffarr
  r : FfparsE
  skip : ℕ
  deriving DecidableEq, Repr

/-- The result of `val_add` or `val_store` as that of a step. -/
@[grind =] def stored (st : QsSt) (buf : Ffarr) (skip : ℕ) : Option Ffarr → QsStep
  | some buf' => ⟨st, buf', .more, skip⟩
  | none => ⟨st, buf, .esys, skip⟩

section Parse

variable (alloc : ℕ → Bool)

/-- `_ffurlqs_process_str`, at the byte `ch` with `d` behind it. -/
def ffurlqsProcessStr (st : QsSt) (buf : Ffarr) (ch : UInt8) (d : List UInt8) : QsStep :=
  if ch = 0x2b then stored st buf 0 (valStore alloc buf [0x20])
  else if ch = 0x25 then
    let c := (hexDigit (d.getD 0 0) <<< 4) ||| hexDigit (d.getD 1 0)
    stored st buf 2 (valStore alloc buf [c])
  else stored st buf 0 (valAdd alloc buf (ch :: d))

/-- `case qs_key` -/
def caseQsKey (buf : Ffarr) (ch : UInt8) (d : List UInt8) : QsStep :=
  if ch = 0x3d then ⟨.valStart, buf, .key, 0⟩ else ffurlqsProcessStr alloc .key buf ch d

/-- `case qs_val` -/
def caseQsVal (buf : Ffarr) (ch : UInt8) (d : List UInt8) : QsStep :=
  if ch = 0x26 then ⟨.keyStart, buf, .val, 0⟩ else ffurlqsProcessStr alloc .val buf ch d

/-- The `switch` of `ffurlqs_parse`. -/
@[grind =] def qsSwitch (st : QsSt) (buf : Ffarr) (ch : UInt8) (d : List UInt8) : QsStep :=
  match st with
  | .keyStart =>
    if ch = 0x26 then ⟨.keyStart, buf, .more, 0⟩ else caseQsKey alloc .null ch d
  | .key => caseQsKey alloc buf ch d
  | .valStart => caseQsVal alloc .null ch d
  | .val => caseQsVal alloc buf ch d

/-- The loop of `ffurlqs_parse`, for at most `n` bytes: the state, the buffer, the code and the
rest of the data. -/
@[grind =] def qsLoop : ℕ → QsSt → Ffarr → List UInt8 → QsSt × Ffarr × FfparsE × List UInt8
  | _, st, buf, [] => (st, buf, .more, [])
  | 0, st, buf, d => (st, buf, .more, d)
  | n + 1, st, buf, ch :: d =>
    let s := qsSwitch alloc st buf ch d
    if s.r ≠ .more then (s.st, s.buf, s.r, d.drop s.skip)
    else qsLoop n s.st s.buf (d.drop s.skip)

/-- `ffurlqs_parse`: the parser, the code and the rest of the data. -/
def ffurlqsParse (p : Ffurlqs) (d : List UInt8) : Ffurlqs × FfparsE × List UInt8 :=
  let (st, buf, r, rest) := qsLoop alloc d.length p.state p.buf d
  let r := if r = .more ∧ st = .val then .val else r
  (⟨st, buf.bytes, buf⟩, r, rest)

/-- The caller: calls until the data is used up, at most `n` of them. The codes with the values. -/
def qsEvents (n : ℕ) (d : List UInt8) : Option (List (FfparsE × List UInt8)) :=
  (feedChunk (fun p d => some (ffurlqsParse alloc p d)) FfparsE.verdict (fun p er => (er, p.val)) n
    ffurlqsParseinit d).map fun r => r.2.1

end Parse

/-! ### Pairs -/

/-- A key or a value, escaped into a buffer that is large enough. -/
def qsEscape (s : List UInt8) : Except ℕ (List UInt8) :=
  ffuriEscape uriescQsseg (ffuriEscapeLen uriescQsseg s) s

/-- The text of a pair. -/
def qsPair (kv : List UInt8 × List UInt8) : Except ℕ (List UInt8) := do
  let k ← qsEscape kv.1
  let v ← qsEscape kv.2
  return k ++ 0x3d :: v

/-- The text of pairs, joined by `&`. -/
def qsText (pairs : List (List UInt8 × List UInt8)) : Except ℕ (List UInt8) := do
  let ps ← pairs.mapM qsPair
  return [0x26].intercalate ps

/-- What the parser is to give for a pair. -/
def pairEvents (kv : List UInt8 × List UInt8) : List (FfparsE × List UInt8) :=
  [(.key, kv.1), (.val, kv.2)]

/-- No character of a pair has a meaning in a query string that is not escaped. -/
def PairOk (kv : List UInt8 × List UInt8) : Prop :=
  0x3d ∉ kv.1 ∧ 0x2b ∉ kv.1 ∧ 0x2b ∉ kv.2

instance (kv : List UInt8 × List UInt8) : Decidable (PairOk kv) :=
  inferInstanceAs (Decidable (_ ∧ _ ∧ _))

/-! ### What is escaped -/

/-- A byte, escaped. -/
def escByte (mask : List UInt32) (b : UInt8) : List UInt8 :=
  if ffbitTestarr mask b.toNat then [b] else 0x25 :: ffsHexbyte b ffHEX

theorem length_escBytes (mask : List UInt32) (s : List UInt8) :
    (s.flatMap (escByte mask)).length = ffuriEscapeLen mask s := by
  induction s with
  | nil => rfl
  | cons b s ih =>
    rw [flatMap_cons, length_append, ih, ffuriEscapeLen, ffuriEscapeLen, escByte]
    cases hb : ffbitTestarr mask b.toNat with
    | true =>
      simp [hb]
      omega
    | false =>
      simp [hb, ffsHexbyte]
      omega

theorem escapeLoop_eq {mask : List UInt32} {cap : ℕ} {s dst : List UInt8} (i : ℕ)
    (h : dst.length + (s.flatMap (escByte mask)).length ≤ cap) :
    escapeLoop mask cap dst i s = .ok (dst ++ s.flatMap (escByte mask)) := by
  induction s generalizing dst i with
  | nil => simp [escapeLoop]
  | cons b s ih =>
    rw [flatMap_cons, length_append] at h
    cases hb : ffbitTestarr mask b.toNat with
    | true =>
      have hesc : escByte mask b = [b] := by rw [escByte, if_pos hb]
      rw [hesc, length_singleton] at h
      have hne : dst.length ≠ cap := by omega
      rw [escapeLoop, if_pos hb, if_neg hne, ih _ (by
        rw [length_append, length_singleton]
        omega), flatMap_cons, hesc, append_assoc]
    | false =>
      have hesc : escByte mask b = 0x25 :: ffsHexbyte b ffHEX := by
        rw [escByte, hb, if_neg Bool.false_ne_true]
      have hlen : (escByte mask b).length = 3 := by
        rw [hesc]
        rfl
      rw [hlen] at h
      have hroom : ¬dst.length + 3 > cap := by omega
      rw [escapeLoop, hb, if_neg Bool.false_ne_true, if_neg hroom, ← hesc, ih _ (by
        rw [length_append, hlen]
        omega), flatMap_cons, append_assoc]

/-- A key or a value, escaped. -/
def escaped (s : List UInt8) : List UInt8 := s.flatMap (escByte uriescQsseg)

theorem qsEscape_eq (s : List UInt8) : qsEscape s = .ok (escaped s) := by
  rw [qsEscape, ffuriEscape, escapeLoop_eq]
  · rfl
  · rw [length_escBytes]
    simp

@[simp] theorem escaped_append (s t : List UInt8) : escaped (s ++ t) = escaped s ++ escaped t := by
  simp [escaped]

theorem escaped_cons (b : UInt8) (s : List UInt8) :
    escaped (b :: s) = escByte uriescQsseg b ++ escaped s := by
  simp [escaped]

/-- The text of a pair. -/
def pairText (kv : List UInt8 × List UInt8) : List UInt8 := escaped kv.1 ++ 0x3d :: escaped kv.2

/-- The text of pairs. -/
@[grind =] def pairsText : List (List UInt8 × List UInt8) → List UInt8
  | [] => []
  | [kv] => pairText kv
  | kv :: kv' :: pairs => pairText kv ++ 0x26 :: pairsText (kv' :: pairs)

theorem qsText_eq (pairs : List (List UInt8 × List UInt8)) :
    qsText pairs = .ok (pairsText pairs) := by
  have hpair : ∀ kv, qsPair kv = .ok (pairText kv) := by
    intro kv
    simp [qsPair, qsEscape_eq, pairText, bind, Except.bind, pure, Except.pure]
  have hmap : pairs.mapM qsPair = .ok (pairs.map pairText) := by
    induction pairs with
    | nil => rfl
    | cons kv pairs ih =>
      rw [mapM_cons, hpair, ih]
      rfl
  have hjoin : ∀ l : List (List UInt8 × List UInt8),
      [0x26].intercalate (l.map pairText) = pairsText l := by
    intro l
    induction l with
    | nil => rfl
    | cons kv l ih =>
      cases l with
      | nil => simp [pairsText]
      | cons kv' l =>
        rw [pairsText, ← ih]
        simp [List.intercalate]
  rw [qsText, hmap, ← hjoin]
  rfl

/-! ### Reading what is escaped -/

section Reading

variable {alloc : ℕ → Bool}

/-- The loop with as many steps as there are bytes. -/
def qsRun (alloc : ℕ → Bool) (st : QsSt) (buf : Ffarr) (d : List UInt8) :
    QsSt × Ffarr × FfparsE × List UInt8 :=
  qsLoop alloc d.length st buf d

theorem qsLoop_fuel {n m : ℕ} {st : QsSt} {buf : Ffarr} {d : List UInt8} (hn : d.length ≤ n)
    (hm : d.length ≤ m) : qsLoop alloc n st buf d = qsLoop alloc m st buf d := by
  induction n generalizing m st buf d with
  | zero =>
    obtain rfl : d = [] := eq_nil_of_length_eq_zero (by omega)
    cases m <;> rfl
  | succ n ih =>
    cases d with
    | nil => cases m <;> rfl
    | cons ch d =>
      rw [length_cons] at hn hm
      obtain ⟨m, rfl⟩ : ∃ m', m = m' + 1 := ⟨m - 1, by omega⟩
      simp only [qsLoop]
      split
      · rfl
      · refine ih ?_ ?_ <;> rw [length_drop] <;> omega

theorem qsRun_cons (st : QsSt) (buf : Ffarr) (ch : UInt8) (d : List UInt8) :
    qsRun alloc st buf (ch :: d) =
      if (qsSwitch alloc st buf ch d).r ≠ .more then
        ((qsSwitch alloc st buf ch d).st, (qsSwitch alloc st buf ch d).buf,
          (qsSwitch alloc st buf ch d).r, d.drop (qsSwitch alloc st buf ch d).skip)
      else
        qsRun alloc (qsSwitch alloc st buf ch d).st (qsSwitch alloc st buf ch d).buf
          (d.drop (qsSwitch alloc st buf ch d).skip) := by
  simp only [qsRun, length_cons, qsLoop]
  split
  · rfl
  · exact qsLoop_fuel (by rw [length_drop]; omega) le_rfl

/-- What a byte is read as. -/
def plusToSpace (b : UInt8) : UInt8 := if b = 0x2b then 0x20 else b

theorem ne_of_testarr {b : UInt8} (h : ffbitTestarr uriescQsseg b.toNat = true) :
    b ≠ 0x25 ∧ b ≠ 0x26 := by
  constructor
  · rintro rfl
    exact absurd h (by decide)
  · rintro rfl
    exact absurd h (by decide)

theorem hexDigit_hexbyte (b : UInt8) :
    (hexDigit (ffHEX.getD (b >>> 4).toNat 0) <<< 4) |||
      hexDigit (ffHEX.getD (b &&& 0x0f).toNat 0) = b := by
  have h : ∀ i : Fin 256, (hexDigit (ffHEX.getD (UInt8.ofNat i.val >>> 4).toNat 0) <<< 4) |||
      hexDigit (ffHEX.getD (UInt8.ofNat i.val &&& 0x0f).toNat 0) = UInt8.ofNat i.val := by
    decide +kernel
  have hb := h ⟨b.toNat, b.toNat_lt⟩
  rwa [UInt8.ofNat_toNat] at hb

/-- **A byte that was escaped** is appended to the buffer. -/
theorem processStr_escByte (halloc : ∀ n, alloc n = true) (st : QsSt) {buf : Ffarr}
    {l rest : List UInt8} (b : UInt8) (hhas : buf.Has l)
    (hadj : buf.Adjacent (escByte uriescQsseg b ++ rest)) :
    ∃ ch t buf', escByte uriescQsseg b = ch :: t ∧ ch ≠ 0x26 ∧ (ch = 0x3d → b = 0x3d) ∧
      ffurlqsProcessStr alloc st buf ch (t ++ rest) = ⟨st, buf', .more, t.length⟩ ∧
      buf'.Has (l ++ [plusToSpace b]) ∧ buf'.Adjacent rest := by
  cases hb : ffbitTestarr uriescQsseg b.toNat with
  | true =>
    have hesc : escByte uriescQsseg b = [b] := by rw [escByte, if_pos hb]
    obtain ⟨h25, h26⟩ := ne_of_testarr hb
    by_cases hplus : b = 0x2b
    · obtain ⟨buf', hstore, hhas', hown⟩ := valStore_spec halloc hhas [0x20]
      refine ⟨b, [], buf', hesc, h26, fun h => h, ?_, ?_, hown.adjacent rest⟩
      · rw [ffurlqsProcessStr, if_pos hplus, hstore]
        rfl
      · rw [plusToSpace, if_pos hplus]
        exact hhas'
    rw [hesc, singleton_append] at hadj
    obtain ⟨buf', hadd, hhas', hadj'⟩ := valAdd_spec halloc hhas hadj
    refine ⟨b, [], buf', hesc, h26, fun h => h, ?_, ?_, hadj'⟩
    · rw [ffurlqsProcessStr, if_neg hplus, if_neg h25, nil_append, hadd]
      rfl
    · rw [plusToSpace, if_neg hplus]
      exact hhas'
  | false =>
    have hesc : escByte uriescQsseg b = 0x25 :: ffsHexbyte b ffHEX := by
      rw [escByte, hb, if_neg Bool.false_ne_true]
    obtain ⟨buf', hstore, hhas', hown⟩ := valStore_spec halloc hhas [b]
    have hplus : b ≠ 0x2b := by
      rintro rfl
      exact absurd hb (by decide)
    refine ⟨0x25, ffsHexbyte b ffHEX, buf', hesc, by decide, fun h => absurd h (by decide), ?_,
      ?_, hown.adjacent rest⟩
    · rw [ffurlqsProcessStr, if_neg (by decide), if_pos rfl]
      simp only [ffsHexbyte, cons_append, nil_append, getD_cons_zero,
        getD_cons_succ, hexDigit_hexbyte, hstore]
      rfl
    · rw [plusToSpace, if_neg hplus]
      exact hhas'

/-- Bytes that were escaped, without a literal `=`, inside of a key. -/
theorem qsRun_key (halloc : ∀ n, alloc n = true) {s l rest : List UInt8} {buf : Ffarr}
    (hs : 0x3d ∉ s) (hhas : buf.Has l) (hadj : buf.Adjacent (escaped s ++ rest)) :
    ∃ buf', qsRun alloc .key buf (escaped s ++ rest) = qsRun alloc .key buf' rest ∧
      buf'.Has (l ++ s.map plusToSpace) := by
  induction s generalizing l buf with
  | nil => exact ⟨buf, rfl, by simpa using hhas⟩
  | cons b s ih =>
    obtain ⟨hb, hs'⟩ := not_or.mp (mem_cons.not.mp hs)
    rw [escaped_cons, append_assoc] at hadj ⊢
    obtain ⟨ch, t, buf₁, hesc, -, heq, hstep, hhas₁, hadj₁⟩ :=
      processStr_escByte halloc .key b hhas hadj
    have hne : ch ≠ 0x3d := fun h => hb (heq h).symm
    have hswitch : qsSwitch alloc .key buf ch (t ++ (escaped s ++ rest)) =
        ⟨.key, buf₁, .more, t.length⟩ := by
      rw [qsSwitch, caseQsKey, if_neg hne, hstep]
    obtain ⟨buf', hrun, hhas'⟩ := ih hs' hhas₁ hadj₁
    refine ⟨buf', ?_, by simpa using hhas'⟩
    rw [hesc, cons_append, qsRun_cons, hswitch, if_neg (by simp), ← hrun, drop_left]

theorem qsRun_val (halloc : ∀ n, alloc n = true) {s l rest : List UInt8} {buf : Ffarr}
    (hhas : buf.Has l) (hadj : buf.Adjacent (escaped s ++ rest)) :
    ∃ buf', qsRun alloc .val buf (escaped s ++ rest) = qsRun alloc .val buf' rest ∧
      buf'.Has (l ++ s.map plusToSpace) := by
  induction s generalizing l buf with
  | nil => exact ⟨buf, rfl, by simpa using hhas⟩
  | cons b s ih =>
    rw [escaped_cons, append_assoc] at hadj ⊢
    obtain ⟨ch, t, buf₁, hesc, hamp, -, hstep, hhas₁, hadj₁⟩ :=
      processStr_escByte halloc .val b hhas hadj
    have hswitch : qsSwitch alloc .val buf ch (t ++ (escaped s ++ rest)) =
        ⟨.val, buf₁, .more, t.length⟩ := by
      rw [qsSwitch, caseQsVal, if_neg hamp, hstep]
    obtain ⟨buf', hrun, hhas'⟩ := ih hhas₁ hadj₁
    refine ⟨buf', ?_, by simpa using hhas'⟩
    rw [hesc, cons_append, qsRun_cons, hswitch, if_neg (by simp), ← hrun, drop_left]

/-- The first byte of a key that was escaped is no `&`. -/
theorem qsRun_keyStart {ch : UInt8} (hch : ch ≠ 0x26) (buf : Ffarr) (d : List UInt8) :
    qsRun alloc .keyStart buf (ch :: d) = qsRun alloc .key .null (ch :: d) := by
  have hswitch : qsSwitch alloc .keyStart buf ch d = qsSwitch alloc .key .null ch d := by
    rw [qsSwitch, if_neg hch, qsSwitch]
  rw [qsRun_cons, qsRun_cons, hswitch]

theorem qsRun_valStart (buf : Ffarr) (ch : UInt8) (d : List UInt8) :
    qsRun alloc .valStart buf (ch :: d) = qsRun alloc .val .null (ch :: d) := by
  have hswitch : qsSwitch alloc .valStart buf ch d = qsSwitch alloc .val .null ch d := rfl
  rw [qsRun_cons, qsRun_cons, hswitch]

theorem exists_escaped_cons (b : UInt8) (s : List UInt8) :
    ∃ ch t, escaped (b :: s) = ch :: t ∧ ch ≠ 0x26 := by
  rw [escaped_cons, escByte]
  split
  · rename_i h
    exact ⟨b, escaped s, rfl, (ne_of_testarr h).2⟩
  · exact ⟨0x25, _, rfl, by decide⟩

/-- **A call at the start of a pair** gives its key. -/
theorem ffurlqsParse_key (halloc : ∀ n, alloc n = true) {k rest : List UInt8} {p : Ffurlqs}
    (hp : p.state = .keyStart) (hk : 0x3d ∉ k) :
    ∃ buf, ffurlqsParse alloc p (escaped k ++ 0x3d :: rest) =
      (⟨.valStart, k.map plusToSpace, buf⟩, .key, rest) := by
  have hstart : qsRun alloc .keyStart p.buf (escaped k ++ 0x3d :: rest) =
      qsRun alloc .key .null (escaped k ++ 0x3d :: rest) := by
    cases k with
    | nil => exact qsRun_keyStart (by decide) p.buf rest
    | cons b k =>
      obtain ⟨ch, t, hesc, hch⟩ := exists_escaped_cons b k
      rw [hesc]
      exact qsRun_keyStart hch p.buf _
  obtain ⟨buf, hrun, hhas⟩ := qsRun_key halloc hk has_null (has_null.owned.adjacent _)
  have hend : qsRun alloc .key buf (0x3d :: rest) = (.valStart, buf, .key, rest) := by
    rw [qsRun_cons]
    rfl
  refine ⟨buf, ?_⟩
  rw [qsRun] at hstart
  rw [ffurlqsParse, hp, hstart, hrun, hend, ← nil_append (k.map plusToSpace), ← hhas.1]
  rfl

/-- **A call at the start of a value** gives it, at its `&`. -/
theorem ffurlqsParse_val (halloc : ∀ n, alloc n = true) {v rest : List UInt8} {p : Ffurlqs}
    (hp : p.state = .valStart) :
    ∃ buf, ffurlqsParse alloc p (escaped v ++ 0x26 :: rest) =
      (⟨.keyStart, v.map plusToSpace, buf⟩, .val, rest) := by
  have hstart : qsRun alloc .valStart p.buf (escaped v ++ 0x26 :: rest) =
      qsRun alloc .val .null (escaped v ++ 0x26 :: rest) := by
    cases v with
    | nil => exact qsRun_valStart p.buf 0x26 rest
    | cons b v =>
      obtain ⟨ch, t, hesc, -⟩ := exists_escaped_cons b v
      rw [hesc]
      exact qsRun_valStart p.buf ch _
  obtain ⟨buf, hrun, hhas⟩ := qsRun_val halloc has_null (has_null.owned.adjacent _)
  have hend : qsRun alloc .val buf (0x26 :: rest) = (.keyStart, buf, .val, rest) := by
    rw [qsRun_cons]
    rfl
  refine ⟨buf, ?_⟩
  rw [qsRun] at hstart
  rw [ffurlqsParse, hp, hstart, hrun, hend, ← nil_append (v.map plusToSpace), ← hhas.1]
  rfl

theorem ffurlqsParse_last (halloc : ∀ n, alloc n = true) {v : List UInt8} {p : Ffurlqs}
    (hp : p.state = .valStart) (hv : v ≠ []) :
    ∃ buf, ffurlqsParse alloc p (escaped v) = (⟨.val, v.map plusToSpace, buf⟩, .val, []) := by
  obtain ⟨b, v, rfl⟩ := exists_cons_of_ne_nil hv
  have hstart : qsRun alloc .valStart p.buf (escaped (b :: v)) =
      qsRun alloc .val .null (escaped (b :: v)) := by
    obtain ⟨ch, t, hesc, -⟩ := exists_escaped_cons b v
    rw [hesc]
    exact qsRun_valStart p.buf ch _
  obtain ⟨buf, hrun, hhas⟩ := @qsRun_val _ halloc _ _ [] _ has_null (has_null.owned.adjacent _)
  rw [append_nil] at hrun
  refine ⟨buf, ?_⟩
  rw [qsRun] at hstart
  rw [ffurlqsParse, hp, hstart, hrun, ← nil_append ((b :: v).map plusToSpace), ← hhas.1]
  rfl

/-- What is read of pairs whose keys have no literal `=`: an empty value at the end is not. -/
@[grind =] def readEvents : List (List UInt8 × List UInt8) → List (FfparsE × List UInt8)
  | [] => []
  | [kv] =>
    (.key, kv.1.map plusToSpace) ::
      if kv.2 = [] then [] else [(.val, kv.2.map plusToSpace)]
  | kv :: kv' :: pairs =>
    (.key, kv.1.map plusToSpace) :: (.val, kv.2.map plusToSpace) :: readEvents (kv' :: pairs)

theorem pairsText_ne_nil (kv : List UInt8 × List UInt8) (pairs : List (List UInt8 × List UInt8)) :
    pairsText (kv :: pairs) ≠ [] := by
  cases pairs <;> simp [pairsText, pairText]

/-- The events that the caller sees from a state on. -/
def eventsFrom (alloc : ℕ → Bool) (n : ℕ) (p : Ffurlqs) (d : List UInt8) :
    Option (List (FfparsE × List UInt8)) :=
  (feedChunk (fun p d => some (ffurlqsParse alloc p d)) FfparsE.verdict (fun p er => (er, p.val)) n
    p d).map fun r => r.2.1

theorem eventsFrom_event {n : ℕ} {p p' : Ffurlqs} {d rest : List UInt8} {er : FfparsE}
    (h : ffurlqsParse alloc p d = (p', er, rest)) (her : er.verdict = .event) :
    eventsFrom alloc (n + 1) p d =
      if rest = [] then some [(er, p'.val)]
      else (eventsFrom alloc n p' rest).map fun es => (er, p'.val) :: es := by
  simp only [eventsFrom, feedChunk, h, her, bind_eq_bind, bind_some]
  cases rest with
  | nil => simp
  | cons c rest =>
    cases feedChunk (fun p d => some (ffurlqsParse alloc p d)) FfparsE.verdict
      (fun p er => (er, p.val)) n p' (c :: rest) <;> rfl

theorem escaped_eq_nil {s : List UInt8} : escaped s = [] ↔ s = [] := by
  constructor
  · intro h
    cases s with
    | nil => rfl
    | cons b s =>
      obtain ⟨ch, t, hesc, -⟩ := exists_escaped_cons b s
      rw [hesc] at h
      cases h
  · rintro rfl
    rfl

/-- **The caller reads the pairs** one after another. -/
theorem eventsFrom_pairsText (halloc : ∀ n, alloc n = true)
    {pairs : List (List UInt8 × List UInt8)} (hkeys : ∀ kv ∈ pairs, 0x3d ∉ kv.1) {p : Ffurlqs}
    (hp : p.state = .keyStart) {n : ℕ} (hn : 2 * pairs.length < n) :
    eventsFrom alloc n p (pairsText pairs) = some (readEvents pairs) := by
  induction pairs generalizing n p with
  | nil =>
    obtain ⟨n, rfl⟩ : ∃ m, n = m + 1 := ⟨n - 1, by omega⟩
    simp [eventsFrom, feedChunk, pairsText, ffurlqsParse, qsLoop, hp, FfparsE.verdict, readEvents]
  | cons kv pairs ih =>
    rw [length_cons] at hn
    obtain ⟨n, rfl⟩ : ∃ m, n = m + 2 := ⟨n - 2, by omega⟩
    have hk := hkeys kv mem_cons_self
    cases pairs with
    | nil =>
      obtain ⟨buf, hkey⟩ := @ffurlqsParse_key _ halloc _ (escaped kv.2) _ hp hk
      rw [pairsText, pairText, eventsFrom_event hkey rfl, readEvents]
      by_cases hv : kv.2 = []
      · rw [if_pos (escaped_eq_nil.mpr hv), if_pos hv]
      · obtain ⟨buf', hval⟩ := ffurlqsParse_last halloc (p := ⟨.valStart, kv.1.map plusToSpace, buf⟩) rfl hv
        rw [if_neg (mt escaped_eq_nil.mp hv), if_neg hv, eventsFrom_event hval rfl, if_pos rfl]
        rfl
    | cons kv' pairs =>
      obtain ⟨buf, hkey⟩ := @ffurlqsParse_key _ halloc _
        (escaped kv.2 ++ 0x26 :: pairsText (kv' :: pairs)) _ hp hk
      obtain ⟨buf', hval⟩ := @ffurlqsParse_val _ halloc kv.2 (pairsText (kv' :: pairs))
        ⟨.valStart, kv.1.map plusToSpace, buf⟩ rfl
      have hrest := @ih (fun kv h => hkeys kv (mem_cons_of_mem _ h))
        ⟨.keyStart, kv.2.map plusToSpace, buf'⟩ rfl n (by omega)
      rw [pairsText, pairText, append_assoc, cons_append, eventsFrom_event hkey rfl,
        if_neg (by simp), eventsFrom_event hval rfl, if_neg (pairsText_ne_nil kv' pairs), hrest]
      rfl

end Reading

/-! ### When the pairs are read back -/

/-- A key ends at its first `=` for the parser; the rest belongs to the value. -/
@[grind =] def splitPair (kv : List UInt8 × List UInt8) : List UInt8 × List UInt8 :=
  (kv.1.takeWhile (· ≠ 0x3d),
    match kv.1.dropWhile (· ≠ 0x3d) with
    | [] => kv.2
    | _ :: k => k ++ 0x3d :: kv.2)

theorem notMem_splitPair (kv : List UInt8 × List UInt8) : 0x3d ∉ (splitPair kv).1 := by
  intro h
  have hne := mem_takeWhile_imp h
  simp at hne

theorem pairText_splitPair (kv : List UInt8 × List UInt8) :
    pairText (splitPair kv) = pairText kv := by
  have hk := takeWhile_append_dropWhile (p := (· ≠ 0x3d)) (l := kv.1)
  have hesc : escByte uriescQsseg 0x3d = [0x3d] := by decide
  cases hd : kv.1.dropWhile (· ≠ 0x3d) with
  | nil =>
    rw [hd, append_nil] at hk
    simp only [pairText, splitPair, hd, hk]
  | cons x k =>
    have hx : x = 0x3d := by
      have hhead := head?_dropWhile_not (· ≠ 0x3d) kv.1
      rw [hd] at hhead
      simpa using hhead
    subst hx
    rw [hd] at hk
    simp only [pairText, splitPair, hd]
    conv_rhs => rw [← hk]
    rw [escaped_append, escaped_append, escaped_cons, escaped_cons, hesc]
    simp

theorem pairsText_splitPair (pairs : List (List UInt8 × List UInt8)) :
    pairsText (pairs.map splitPair) = pairsText pairs := by
  induction pairs with
  | nil => rfl
  | cons kv pairs ih =>
    cases pairs with
    | nil => exact pairText_splitPair kv
    | cons kv' pairs =>
      rw [map_cons, map_cons, pairsText, ← map_cons, ih, pairsText, pairText_splitPair]

theorem map_plusToSpace_iff (s : List UInt8) : s.map plusToSpace = s ↔ 0x2b ∉ s := by
  induction s with
  | nil => simp
  | cons b s ih =>
    rw [map_cons, List.cons.injEq, ih, mem_cons, not_or, plusToSpace]
    refine and_congr_left' ?_
    split
    · rename_i hb
      simp [hb]
    · rename_i hb
      simp [Ne.symm hb]

theorem splitPair_of_notMem {kv : List UInt8 × List UInt8} (h : 0x3d ∉ kv.1) :
    splitPair kv = kv := by
  have hall : ∀ x ∈ kv.1, decide (x ≠ 0x3d) = true := by
    intro x hx
    rw [decide_eq_true_eq]
    rintro rfl
    exact h hx
  have htake : kv.1.takeWhile (· ≠ 0x3d) = kv.1 := takeWhile_eq_self_iff.mpr hall
  have hdrop : kv.1.dropWhile (· ≠ 0x3d) = [] := dropWhile_eq_nil_iff.mpr hall
  simp only [splitPair, htake, hdrop]

/-- **When one pair is read back** -/
theorem splitPair_iff (kv : List UInt8 × List UInt8) :
    ((splitPair kv).1.map plusToSpace = kv.1 ∧ (splitPair kv).2.map plusToSpace = kv.2) ↔
      PairOk kv := by
  constructor
  · rintro ⟨hk, hv⟩
    have hlen := congrArg List.length hk
    rw [length_map] at hlen
    have hstart : (splitPair kv).1 <+: kv.1 := takeWhile_prefix _
    have htake : (splitPair kv).1 = kv.1 := hstart.eq_of_length hlen
    have heq : 0x3d ∉ kv.1 := htake ▸ notMem_splitPair kv
    rw [splitPair_of_notMem heq] at hk hv
    exact ⟨heq, (map_plusToSpace_iff _).mp hk, (map_plusToSpace_iff _).mp hv⟩
  · rintro ⟨heq, hk, hv⟩
    rw [splitPair_of_notMem heq]
    exact ⟨(map_plusToSpace_iff _).mpr hk, (map_plusToSpace_iff _).mpr hv⟩

theorem readEvents_iff (pairs : List (List UInt8 × List UInt8)) :
    readEvents (pairs.map splitPair) = pairs.flatMap pairEvents ↔
      (∀ kv ∈ pairs, PairOk kv) ∧ ∀ kv, pairs.getLast? = some kv → kv.2 ≠ [] := by
  induction pairs with
  | nil => simp [readEvents]
  | cons kv pairs ih =>
    cases pairs with
    | nil =>
      have hok := splitPair_iff kv
      simp only [map_cons, map_nil, readEvents, flatMap_cons, flatMap_nil,
        pairEvents, append_nil, mem_singleton, forall_eq, getLast?_singleton,
        some.injEq, forall_eq', List.cons.injEq, Prod.mk.injEq, true_and]
      rw [← hok]
      by_cases h0 : (splitPair kv).2 = []
      · rw [if_pos h0, h0]
        constructor
        · rintro ⟨-, h⟩
          cases h
        · rintro ⟨⟨-, h⟩, hne⟩
          exact absurd h.symm hne
      rw [if_neg h0]
      constructor
      · rintro ⟨hk, hv⟩
        have hv' : (splitPair kv).2.map plusToSpace = kv.2 := by simpa using hv
        refine ⟨⟨hk, hv'⟩, fun hnil => h0 ?_⟩
        rw [hnil] at hv'
        simpa using hv'
      · rintro ⟨⟨hk, hv⟩, -⟩
        exact ⟨hk, by rw [hv]⟩
    | cons kv' pairs =>
      rw [map_cons, map_cons, readEvents, ← map_cons, flatMap_cons]
      simp only [pairEvents, cons_append, nil_append, List.cons.injEq, Prod.mk.injEq, true_and]
      rw [ih, forall_mem_cons (a := kv), ← splitPair_iff kv, getLast?_cons_cons]
      constructor
      · rintro ⟨hk, hv, hall, hlast⟩
        exact ⟨⟨⟨hk, hv⟩, hall⟩, hlast⟩
      · rintro ⟨⟨⟨hk, hv⟩, hall⟩, hlast⟩
        exact ⟨hk, hv, hall, hlast⟩

/-- **Pairs that are escaped, joined and parsed** are the same pairs if and only if no key has a
`=`, neither a key nor a value has a `+`, and the last value is not empty. -/
theorem ffurlqs_roundtrip_iff {alloc : ℕ → Bool} (halloc : ∀ n, alloc n = true)
    {pairs : List (List UInt8 × List UInt8)} {n : ℕ} (hn : 2 * pairs.length < n) :
    ∃ text, qsText pairs = .ok text ∧
      (qsEvents alloc n text = some (pairs.flatMap pairEvents) ↔
        (∀ kv ∈ pairs, PairOk kv) ∧ ∀ kv, pairs.getLast? = some kv → kv.2 ≠ []) := by
  refine ⟨pairsText pairs, qsText_eq pairs, ?_⟩
  have hkeys : ∀ kv ∈ pairs.map splitPair, 0x3d ∉ kv.1 := by
    intro kv hkv
    obtain ⟨kv', -, rfl⟩ := mem_map.mp hkv
    exact notMem_splitPair kv'
  have hread : qsEvents alloc n (pairsText pairs) = some (readEvents (pairs.map splitPair)) := by
    rw [← pairsText_splitPair]
    exact eventsFrom_pairsText halloc hkeys rfl (by rwa [length_map])
  rw [hread, some.injEq, readEvents_iff]

/-- A pair with characters that are escaped. -/
theorem ffurlqs_roundtrip_example :
    ∃ text, qsText [(ascii "a b", ascii "c&d%")] = .ok text ∧
      (qsEvents (fun _ => true) 3 text =
          some ([(ascii "a b", ascii "c&d%")].flatMap pairEvents) ↔
        (∀ kv ∈ [(ascii "a b", ascii "c&d%")], PairOk kv) ∧
          ∀ kv, [(ascii "a b", ascii "c&d%")].getLast? = some kv → kv.2 ≠ []) :=
  ffurlqs_roundtrip_iff (fun _ => rfl) (by decide)

/-- A `+` is not escaped and is read as a blank. -/
theorem ffurlqs_plus :
    ¬∀ (pairs : List (List UInt8 × List UInt8)) (text : List UInt8), (∀ kv ∈ pairs, kv.1 ≠ []) →
      qsText pairs = .ok text →
      qsEvents (fun _ => true) 3 text = some (pairs.flatMap pairEvents) := by
  intro h
  have heq := h [(ascii "k", ascii "1+1")] (ascii "k=1+1") (by decide) (by decide)
  exact absurd heq (by decide)

end Url

end FF
