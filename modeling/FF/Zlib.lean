import FF.Crc
import FF.Lib.Fields

/-!
# Compressed data

`z_inflate` and `crc32` are not part of the source; what readers of archives need of them is said
here. A decoder says what the bytes of compressed data mean, one after another, and `z_inflate`
follows it, with any input and any room for output.
-/

namespace FF

open List

/-- What `z_inflate` answers: `Z_DONE`, an error, or the output; and how much it takes. -/
inductive ZRes
  | done (rd : ℕ)
  | err
  | out (rd : ℕ) (bytes : List UInt8)
  deriving DecidableEq, Repr

/-- `z_inflate_init`, `z_inflate_reset` and `z_inflate`, with the room for output. -/
structure Zlib (Z : Type) where
  init : Option Z
  reset : Z → Z
  inflate : Z → List UInt8 → ℕ → ZRes × Z

/-- The format of the compressed data: what a byte gives, and the state behind it, `none` at the end
of the data; nothing where the data is broken. -/
structure Decoder (D : Type) where
  first : D
  step : D → UInt8 → Option (List UInt8 × Option D)

/-- The bytes `s` of compressed data give the bytes `es`. -/
inductive Decodes {D : Type} (dec : Decoder D) :
    Option D → List UInt8 → List UInt8 → Option D → Prop
  | nil {o : Option D} : Decodes dec o [] [] o
  | cons {x : D} {b : UInt8} {s out es : List UInt8} {o o' : Option D}
      (h : dec.step x b = some (out, o)) (hrest : Decodes dec o s es o') :
      Decodes dec (some x) (b :: s) (out ++ es) o'

/-- What an answer of `z_inflate` says, where the context `z` becomes `z'`: all that has been taken
was decoded, and is given or kept back. It gives nothing only where it needs more input, and it
says that it is done where all has been given. -/
def AnswerOk {Z D : Type} (dec : Decoder D) (pos : Z → Option D) (pending : Z → List UInt8) (z : Z)
    (d : List UInt8) (z' : Z) : ZRes → Prop
  | .done rd => rd ≤ d.length ∧ pending z = [] ∧ Decodes dec (pos z) (d.take rd) [] none
  | .err => ∃ s b t es x, d = s ++ b :: t ∧ Decodes dec (pos z) s es (some x) ∧
      dec.step x b = none
  | .out rd out => rd ≤ d.length ∧ ∃ es, Decodes dec (pos z) (d.take rd) es (pos z') ∧
      pending z ++ es = out ++ pending z' ∧
      (out = [] → rd = d.length ∧ pos z' ≠ none ∧ pending z' = [])

/-- **`z_inflate` decodes**: a context is at the place `pos` of the compressed data, and keeps back
the bytes `pending`. A byte of compressed data gives at most `width` bytes, and no more are kept
back. -/
structure InflateOk {Z D : Type} (zlib : Zlib Z) (dec : Decoder D) (pos : Z → Option D)
    (pending : Z → List UInt8) (width : ℕ) : Prop where
  init : ∃ z, zlib.init = some z ∧ pos z = some dec.first ∧ pending z = []
  reset : ∀ z, pos (zlib.reset z) = some dec.first ∧ pending (zlib.reset z) = []
  most : ∀ {x b out o}, dec.step x b = some (out, o) → out.length ≤ width
  room : ∀ z, (pending z).length ≤ width
  inflate : ∀ z d {cap}, 0 < cap →
    AnswerOk dec pos pending z d (zlib.inflate z d cap).2 (zlib.inflate z d cap).1

/-- `crc32` goes on where it has stopped. -/
structure CrcOk (crc32 : List UInt8 → UInt32 → UInt32) : Prop where
  nil : ∀ c, crc32 [] c = c
  append : ∀ a b c, crc32 (a ++ b) c = crc32 b (crc32 a c)

theorem Decodes.length_le {Z D : Type} {zlib : Zlib Z} {dec : Decoder D} {pos : Z → Option D}
    {pending : Z → List UInt8} {width : ℕ} (hz : InflateOk zlib dec pos pending width) {o o' : Option D}
    {s es : List UInt8} (h : Decodes dec o s es o') : es.length ≤ width * s.length := by
  induction h with
  | nil => exact Nat.zero_le _
  | cons hstep _ ih =>
    have hout := hz.most hstep
    rw [length_append, length_cons, Nat.mul_add, Nat.mul_one]
    omega

/-! ### Stored data -/

/-- Where the decoder is: in the header of a block, or in the bytes of a block, of which `n + 1`
are left. -/
inductive Stored
  | head (h : List UInt8)
  | body (final : Bool) (n : ℕ)
  deriving DecidableEq, Repr

/-- Behind a block -/
def Stored.behind (final : Bool) : Option Stored := if final then none else some (.head [])

/-- The decoder of blocks without compression. -/
def Stored.step : Stored → UInt8 → Option (List UInt8 × Option Stored)
  | .head h, b =>
    let h := h ++ [b]
    let final := h.getD 0 0 &&& 1 != 0
    if h.getD 0 0 >>> 1 &&& 3 ≠ 0 then none
    else if h.length < 5 then some ([], some (.head h))
    else if leNat (field h 1 2) + leNat (field h 3 2) ≠ 65535 then none
    else
      match leNat (field h 1 2) with
      | 0 => some ([], Stored.behind final)
      | n + 1 => some ([], some (.body final n))
  | .body final 0, b => some ([b], Stored.behind final)
  | .body final (n + 1), b => some ([b], some (.body final n))

def storedDecoder : Decoder Stored := ⟨.head [], Stored.step⟩

section Plain

variable {D : Type} (dec : Decoder D)

/-- Decode byte by byte while there is room: the number of bytes taken, the output, the place
behind it, and whether the data is broken. -/
def plainRun : Option D → List UInt8 → ℕ → ℕ × List UInt8 × Option D × Bool
  | none, _, _ => (0, [], none, false)
  | some x, [], _ => (0, [], some x, false)
  | some x, b :: d, cap =>
    match dec.step x b with
    | none => (0, [], some x, true)
    | some (out, o) =>
      if out.length ≤ cap then
        let (rd, es, o', bad) := plainRun o d (cap - out.length)
        (rd + 1, out ++ es, o', bad)
      else (0, [], some x, false)

/-- `z_inflate` for a decoder, without any output kept back. -/
def plainInflate (o : Option D) (d : List UInt8) (cap : ℕ) : ZRes × Option D :=
  match plainRun dec o d cap with
  | (rd, [], none, _) => (.done rd, none)
  | (_, [], some x, true) => (.err, some x)
  | (rd, out, o, _) => (.out rd out, o)

/-- `z_inflate` for a decoder -/
def plainZlib : Zlib (Option D) := ⟨some (some dec.first), fun _ => some dec.first, plainInflate dec⟩

variable {dec}

theorem plainRun_spec (hone : ∀ {x b out o}, dec.step x b = some (out, o) → out.length ≤ 1)
    {o : Option D} {d : List UInt8} {cap rd : ℕ} {out : List UInt8} {o' : Option D} {bad : Bool}
    (h : plainRun dec o d cap = (rd, out, o', bad)) :
    rd ≤ d.length ∧ Decodes dec o (d.take rd) out o' ∧
      (bad = true → ∃ x b u, o' = some x ∧ d.drop rd = b :: u ∧ dec.step x b = none) ∧
      (bad = false → 0 < cap → out = [] → o' ≠ none → rd = d.length) := by
  induction d generalizing o cap rd out o' bad with
  | nil =>
    cases o with
    | none | some x =>
      obtain ⟨rfl, rfl, rfl, rfl⟩ : 0 = rd ∧ [] = out ∧ _ = o' ∧ false = bad := by
        simpa [plainRun] using h
      exact ⟨le_rfl, .nil, fun hb => absurd hb (by decide), fun _ _ _ _ => rfl⟩
  | cons b d ih =>
    cases o with
    | none =>
      obtain ⟨rfl, rfl, rfl, rfl⟩ : 0 = rd ∧ [] = out ∧ none = o' ∧ false = bad := by
        simpa [plainRun] using h
      exact ⟨Nat.zero_le _, .nil, fun hb => absurd hb (by decide),
        fun _ _ _ hne => absurd rfl hne⟩
    | some x =>
      rw [plainRun] at h
      cases hstep : dec.step x b with
      | none =>
        simp only [hstep] at h
        obtain ⟨rfl, rfl, rfl, rfl⟩ : 0 = rd ∧ [] = out ∧ some x = o' ∧ true = bad := by
          simpa using h
        exact ⟨Nat.zero_le _, .nil, fun _ => ⟨x, b, d, rfl, rfl, hstep⟩,
          fun hb => absurd hb (by decide)⟩
      | some p =>
        obtain ⟨es, o₁⟩ := p
        have hes := hone hstep
        simp only [hstep] at h
        split at h
        · next hroom =>
            obtain ⟨rd', es', o'', bad', hrun⟩ : ∃ rd' es' o'' bad',
              plainRun dec o₁ d (cap - es.length) = (rd', es', o'', bad') :=
              ⟨_, _, _, _, rfl⟩
            rw [hrun] at h
            obtain ⟨rfl, rfl, rfl, rfl⟩ : rd' + 1 = rd ∧ es ++ es' = out ∧ o'' = o' ∧
              bad' = bad := by simpa using h
            obtain ⟨hrd, hdec, hbad, hall⟩ := ih hrun
            refine ⟨Nat.succ_le_succ hrd, .cons hstep hdec, hbad, fun hb hcap hnil hne => ?_⟩
            obtain ⟨rfl, rfl⟩ := append_eq_nil_iff.mp hnil
            rw [hall hb hcap rfl hne, length_cons]
        · next hroom =>
            obtain ⟨rfl, rfl, rfl, rfl⟩ : 0 = rd ∧ [] = out ∧ some x = o' ∧ false = bad := by
              simpa using h
            exact ⟨Nat.zero_le _, .nil, fun hb => absurd hb (by decide),
              fun _ hcap _ _ => absurd hes (by omega)⟩

/-- **`plainZlib` decodes.** -/
theorem plainZlib_ok (hone : ∀ {x b out o}, dec.step x b = some (out, o) → out.length ≤ 1) :
    InflateOk (plainZlib dec) dec id (fun _ => []) 1 := by
  refine ⟨⟨_, rfl, rfl, rfl⟩, fun _ => ⟨rfl, rfl⟩, hone, fun _ => Nat.zero_le _, fun o d cap hcap => ?_⟩
  obtain ⟨rd, out, o', bad, hrun⟩ : ∃ rd out o' bad, plainRun dec o d cap = (rd, out, o', bad) :=
    ⟨_, _, _, _, rfl⟩
  obtain ⟨hrd, hdec, hbad, hall⟩ := plainRun_spec hone hrun
  have hout : ∀ hmore : out = [] → rd = d.length ∧ o' ≠ none,
      AnswerOk dec id (fun _ => []) o d o' (.out rd out) := fun hmore =>
    ⟨hrd, out, hdec, (append_nil out).symm, fun hnil => ⟨(hmore hnil).1, (hmore hnil).2, rfl⟩⟩
  simp only [plainZlib, plainInflate, hrun]
  cases out with
  | cons b out => exact hout fun hno => by cases hno
  | nil =>
    cases o' with
    | none => exact ⟨hrd, rfl, hdec⟩
    | some x =>
      cases bad with
      | false => exact hout fun _ => ⟨hall rfl hcap rfl (by simp), by simp⟩
      | true =>
        obtain ⟨x', b, u, hx, hdrop, hstep⟩ := hbad rfl
        obtain rfl := Option.some.inj hx
        exact ⟨d.take rd, b, u, [], x, by rw [← hdrop, take_append_drop], hdec, hstep⟩

end Plain

theorem stored_one {x : Stored} {b : UInt8} {out : List UInt8} {o : Option Stored}
    (h : storedDecoder.step x b = some (out, o)) : out.length ≤ 1 := by
  have hlen : ∀ {l : List UInt8} {p : Option Stored}, some (l, p) = some (out, o) → l.length ≤ 1 →
      out.length ≤ 1 := by
    intro l p heq hl
    obtain ⟨rfl, -⟩ : l = out ∧ p = o := by simpa using heq
    exact hl
  cases x with
  | head hd =>
    simp only [storedDecoder, Stored.step] at h
    split at h
    · cases h
    split at h
    · exact hlen h (by simp)
    split at h
    · cases h
    split at h <;> exact hlen h (by simp)
  | body final n =>
    cases n <;> exact hlen h (by simp)

/-- `crc32` as zlib has it -/
def zlibCrc32 (l : List UInt8) (crc : UInt32) : UInt32 :=
  ffcrc32Finish (l.foldl ffcrc32Update (ffcrc32Finish crc))

theorem zlibCrc32_ok : CrcOk zlibCrc32 := by
  have htwice : ∀ c, ffcrc32Finish (ffcrc32Finish c) = c := fun c => by
    rw [ffcrc32Finish, ffcrc32Finish, UInt32.xor_assoc, UInt32.xor_self, UInt32.xor_zero]
  refine ⟨htwice, fun a b c => ?_⟩
  rw [zlibCrc32, zlibCrc32, zlibCrc32, htwice, foldl_append]

end FF
