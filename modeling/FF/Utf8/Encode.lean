import FF.Utf8.RoundTrip

/-!
# Text of other codings as UTF-8

`ffutf8_encode` and the functions for UTF-16. Without a destination they count the bytes, and the
counting is a path of its own. Each code unit is written as a character, also where two of them are
the surrogates of one character.
-/

namespace FF

open List

/-! ### The codings -/

/-- `enum FFU_CODING` -/
inductive FFU_CODING
  | utf8
  | utf16le
  | utf16be
  | win1251
  | win1252
  deriving DecidableEq, Repr

/-- The argument `flags`: the coding, and `FFU_FWHOLE`. -/
structure FfuFlags where
  coding : FFU_CODING
  whole : Bool
  deriving DecidableEq, Repr

/-- `U_REPL` -/
def U_REPL : UInt32 := 0xfffd

/-- A code unit in the order of a little-endian host, which the plain access reads, too. -/
def ffintLtoh16 (a b : UInt8) : UInt32 := a.toUInt32 ||| (b.toUInt32 <<< 8)

/-- `ffint_ntoh16` -/
def ffintNtoh16 (a b : UInt8) : UInt32 := (a.toUInt32 <<< 8) ||| b.toUInt32

/-- The code units of a text; a single byte at the end is none. -/
def utf16Units (unit : UInt8 → UInt8 → UInt32) : List UInt8 → List UInt32
  | a :: b :: src => unit a b :: utf16Units unit src
  | _ => []

/-- The loops with a destination: the number of characters, what is written, and whether there was
no room for a character. -/
def encodeLoop (cap : ℕ) : List UInt32 → ℕ → List UInt8 → ℕ × List UInt8 × Bool
  | [], i, dst => (i, dst, false)
  | c :: cs, i, dst =>
    if dst.length < cap then
      if ffutf8Encode1 (cap - dst.length) c = [] then (i, dst, true)
      else encodeLoop cap cs (i + 1) (dst ++ ffutf8Encode1 (cap - dst.length) c)
    else (i, dst, false)

/-- The functions for UTF-16 without a destination: the number of bytes, and `*plen`. -/
def fromUtf16Size (unit : UInt8 → UInt8 → UInt32) (src : List UInt8) (whole : Bool) : ℕ × ℕ :=
  let idst := ((utf16Units unit src).map ffutf8Size).sum
  if src.length % 2 ≠ 0 ∧ whole then (idst + 3, src.length)
  else (idst, src.length / 2 * 2)

/-- The functions for UTF-16: what is written, and `*plen`. -/
def fromUtf16 (unit : UInt8 → UInt8 → UInt32) (cap : ℕ) (src : List UInt8) (whole : Bool) :
    List UInt8 × ℕ :=
  match encodeLoop cap (utf16Units unit src) 0 [] with
  | (i, dst, true) => (dst, i * 2)
  | (i, dst, false) =>
    if src.length % 2 ≠ 0 ∧ whole ∧ ffutf8Encode1 (cap - dst.length) U_REPL ≠ [] then
      (dst ++ ffutf8Encode1 (cap - dst.length) U_REPL, src.length)
    else (dst, i * 2)

/-- `ffutf8_from_utf16le` -/
def ffutf8FromUtf16le (cap : ℕ) (src : List UInt8) (whole : Bool) : List UInt8 × ℕ :=
  fromUtf16 ffintLtoh16 cap src whole

/-- `ffutf8_from_utf16be` -/
def ffutf8FromUtf16be (cap : ℕ) (src : List UInt8) (whole : Bool) : List UInt8 × ℕ :=
  fromUtf16 ffintNtoh16 cap src whole

/-- `cods`: the code points of the bytes from 0x80 on. -/
def cods : FFU_CODING → List UInt32
  | .win1251 => [
    0x0402, 0x0403, 0x201a, 0x0453, 0x201e, 0x2026, 0x2020, 0x2021,
    0x20ac, 0x2030, 0x0409, 0x2039, 0x040a, 0x040c, 0x040b, 0x040f,
    0x0452, 0x2018, 0x2019, 0x201c, 0x201d, 0x2022, 0x2013, 0x2014,
    0xfffd, 0x2122, 0x0459, 0x203a, 0x045a, 0x045c, 0x045b, 0x045f,
    0x00a0, 0x040e, 0x045e, 0x0408, 0x00a4, 0x0490, 0x00a6, 0x00a7,
    0x0401, 0x00a9, 0x0404, 0x00ab, 0x00ac, 0x00ad, 0x00ae, 0x0407,
    0x00b0, 0x00b1, 0x0406, 0x0456, 0x0491, 0x00b5, 0x00b6, 0x00b7,
    0x0451, 0x2116, 0x0454, 0x00bb, 0x0458, 0x0405, 0x0455, 0x0457,
    0x0410, 0x0411, 0x0412, 0x0413, 0x0414, 0x0415, 0x0416, 0x0417,
    0x0418, 0x0419, 0x041a, 0x041b, 0x041c, 0x041d, 0x041e, 0x041f,
    0x0420, 0x0421, 0x0422, 0x0423, 0x0424, 0x0425, 0x0426, 0x0427,
    0x0428, 0x0429, 0x042a, 0x042b, 0x042c, 0x042d, 0x042e, 0x042f,
    0x0430, 0x0431, 0x0432, 0x0433, 0x0434, 0x0435, 0x0436, 0x0437,
    0x0438, 0x0439, 0x043a, 0x043b, 0x043c, 0x043d, 0x043e, 0x043f,
    0x0440, 0x0441, 0x0442, 0x0443, 0x0444, 0x0445, 0x0446, 0x0447,
    0x0448, 0x0449, 0x044a, 0x044b, 0x044c, 0x044d, 0x044e, 0x044f]
  | .win1252 => [
    0x20ac, 0xfffd, 0x201a, 0x0192, 0x201e, 0x2026, 0x2020, 0x2021,
    0x02c6, 0x2030, 0x0160, 0x2039, 0x0152, 0xfffd, 0x017d, 0xfffd,
    0xfffd, 0x2018, 0x2019, 0x201c, 0x201d, 0x2022, 0x2013, 0x2014,
    0x02dc, 0x2122, 0x0161, 0x203a, 0x0153, 0xfffd, 0x017e, 0x0178,
    0x00a0, 0x00a1, 0x00a2, 0x00a3, 0x00a4, 0x00a5, 0x00a6, 0x00a7,
    0x00a8, 0x00a9, 0x00aa, 0x00ab, 0x00ac, 0x00ad, 0x00ae, 0x00af,
    0x00b0, 0x00b1, 0x00b2, 0x00b3, 0x00b4, 0x00b5, 0x00b6, 0x00b7,
    0x00b8, 0x00b9, 0x00ba, 0x00bb, 0x00bc, 0x00bd, 0x00be, 0x00bf,
    0x00c0, 0x00c1, 0x00c2, 0x00c3, 0x00c4, 0x00c5, 0x00c6, 0x00c7,
    0x00c8, 0x00c9, 0x00ca, 0x00cb, 0x00cc, 0x00cd, 0x00ce, 0x00cf,
    0x00d0, 0x00d1, 0x00d2, 0x00d3, 0x00d4, 0x00d5, 0x00d6, 0x00d7,
    0x00d8, 0x00d9, 0x00da, 0x00db, 0x00dc, 0x00dd, 0x00de, 0x00df,
    0x00e0, 0x00e1, 0x00e2, 0x00e3, 0x00e4, 0x00e5, 0x00e6, 0x00e7,
    0x00e8, 0x00e9, 0x00ea, 0x00eb, 0x00ec, 0x00ed, 0x00ee, 0x00ef,
    0x00f0, 0x00f1, 0x00f2, 0x00f3, 0x00f4, 0x00f5, 0x00f6, 0x00f7,
    0x00f8, 0x00f9, 0x00fa, 0x00fb, 0x00fc, 0x00fd, 0x00fe, 0x00ff]
  | _ => []

/-- The character of a byte in `ffutf8_from_ascii`. -/
def asciiChar (coding : FFU_CODING) (c : UInt8) : UInt32 :=
  if c &&& 0x80 ≠ 0 then (cods coding).getD (c &&& 0x7f).toNat 0 else c.toUInt32

/-- `ffutf8_from_ascii` without a destination. -/
def ffutf8FromAsciiSize (coding : FFU_CODING) (src : List UInt8) : ℕ × ℕ :=
  ((src.map fun c => if c &&& 0x80 ≠ 0 then ffutf8Size (asciiChar coding c) else 1).sum, src.length)

/-- `ffutf8_from_ascii`: what is written, and `*plen`. -/
def ffutf8FromAscii (coding : FFU_CODING) (cap : ℕ) : List UInt8 → ℕ → List UInt8 → List UInt8 × ℕ
  | [], i, dst => (dst, i)
  | c :: src, i, dst =>
    if dst.length < cap then
      if c &&& 0x80 ≠ 0 then
        if ffutf8Encode1 (cap - dst.length) (asciiChar coding c) = [] then (dst, i)
        else ffutf8FromAscii coding cap src (i + 1)
          (dst ++ ffutf8Encode1 (cap - dst.length) (asciiChar coding c))
      else ffutf8FromAscii coding cap src (i + 1) (dst ++ [c])
    else (dst, i)

/-- `ffutf8_encode` without a destination. -/
def ffutf8EncodeSize (src : List UInt8) (flags : FfuFlags) : ℕ × ℕ :=
  match flags.coding with
  | .utf8 => (src.length, src.length)
  | .utf16le => fromUtf16Size ffintLtoh16 src flags.whole
  | .utf16be => fromUtf16Size ffintNtoh16 src flags.whole
  | .win1251 | .win1252 => ffutf8FromAsciiSize flags.coding src

/-- `ffutf8_encode`: what is written, and `*plen`. -/
def ffutf8Encode (cap : ℕ) (src : List UInt8) (flags : FfuFlags) : List UInt8 × ℕ :=
  match flags.coding with
  | .utf8 => (src.take (min cap src.length), min cap src.length)
  | .utf16le => ffutf8FromUtf16le cap src flags.whole
  | .utf16be => ffutf8FromUtf16be cap src flags.whole
  | .win1251 | .win1252 => ffutf8FromAscii flags.coding cap src 0 []

/-! ### UTF-16 -/

/-- **The code units of a character.** -/
def charUnits (c : Char) : List ℕ :=
  if c.toNat < 0x10000 then [c.toNat]
  else [0xd800 + (c.toNat - 0x10000) / 0x400, 0xdc00 + (c.toNat - 0x10000) % 0x400]

/-- The bytes of a code unit. -/
def unitBytes (be : Bool) (u : ℕ) : List UInt8 :=
  if be then [UInt8.ofNat (u / 256), UInt8.ofNat (u % 256)]
  else [UInt8.ofNat (u % 256), UInt8.ofNat (u / 256)]

/-- **Characters as UTF-16.** -/
def utf16Text (be : Bool) (cs : List Char) : List UInt8 :=
  (cs.flatMap charUnits).flatMap (unitBytes be)

/-- The function for the order of bytes. -/
def ffutf8FromUtf16 (be : Bool) : ℕ → List UInt8 → Bool → List UInt8 × ℕ :=
  if be then ffutf8FromUtf16be else ffutf8FromUtf16le

/-- The same without a destination. -/
def ffutf8FromUtf16Size (be : Bool) : List UInt8 → Bool → ℕ × ℕ :=
  fromUtf16Size (if be then ffintNtoh16 else ffintLtoh16)

/-! ### Room for the text -/

section Room

variable {cap : ℕ} {c : UInt32} {cs : List UInt32} {unit : UInt8 → UInt8 → UInt32}
  {src : List UInt8} {whole : Bool} {coding : FFU_CODING}

theorem ffutf8Encode1_fits (hc : c < 0x80000000) (hcap : ffutf8Size c ≤ cap) :
    ffutf8Encode1 cap c = ffutf8Encode1 FFUTF8_MAXCHARLEN c ∧
      (ffutf8Encode1 cap c).length = ffutf8Size c ∧ 1 ≤ ffutf8Size c := by
  obtain ⟨q, hbytes, hlen, -⟩ := ffutf8Encode1_bytes hc hcap
  refine ⟨?_, ?_, ?_⟩
  · rw [ffutf8Encode1, ffutf8Encode1, if_neg (Nat.not_lt.mpr hcap),
      if_neg (Nat.not_lt.mpr (ffutf8Size_le hc))]
  · rw [hbytes, Utf8Seq.length_bytes, hlen]
  · rw [← hlen]
    exact Nat.le_add_left 1 _

/-- **The loop writes all characters**, if there is room for them. -/
theorem encodeLoop_fits (hcs : ∀ c ∈ cs, c < 0x80000000) (i : ℕ) (dst : List UInt8)
    (hcap : dst.length + (cs.map ffutf8Size).sum ≤ cap) :
    encodeLoop cap cs i dst = (i + cs.length, dst ++ utf8Text cs, false) := by
  induction cs generalizing i dst with
  | nil => simp [encodeLoop, utf8Text]
  | cons c cs ih =>
    rw [forall_mem_cons] at hcs
    rw [map_cons, sum_cons] at hcap
    obtain ⟨heq, hlen, hpos⟩ := @ffutf8Encode1_fits (cap - dst.length) c hcs.1 (by omega)
    have hne : ffutf8Encode1 (cap - dst.length) c ≠ [] := by
      rw [← length_pos_iff, hlen]
      exact hpos
    have hdst : (dst ++ ffutf8Encode1 (cap - dst.length) c).length + (cs.map ffutf8Size).sum ≤
        cap := by
      rw [length_append, hlen]
      omega
    rw [encodeLoop, if_pos (by omega), if_neg hne, ih hcs.2 _ _ hdst, heq, utf8Text_cons,
      append_assoc, length_cons, Nat.add_right_comm, Nat.add_assoc]

theorem length_utf8Text (hcs : ∀ c ∈ cs, c < 0x80000000) :
    (utf8Text cs).length = (cs.map ffutf8Size).sum := by
  rw [utf8Text, length_flatMap]
  congr 1
  apply map_congr_left
  intro c hc
  exact (ffutf8Encode1_fits (hcs c hc) (ffutf8Size_le (hcs c hc))).2.1

theorem lt_of_toNat_lt {u : UInt32} (hu : u.toNat < 2 ^ 16) : u < 0x80000000 := by
  rw [UInt32.lt_iff_toNat_lt]
  exact lt_of_lt_of_le hu (by decide)

theorem ffintLtoh16_toNat (a b : UInt8) : (ffintLtoh16 a b).toNat = b.toNat * 256 + a.toNat := by
  have ha := a.toNat_lt
  have hb := b.toNat_lt
  have hshift : (b.toUInt32 <<< 8).toNat = b.toNat <<< 8 := by
    have height : (8 : UInt32).toNat % 32 = 8 := rfl
    rw [UInt32.toNat_shiftLeft, UInt8.toNat_toUInt32, height, Nat.shiftLeft_eq]
    exact Nat.mod_eq_of_lt (by omega)
  rw [ffintLtoh16, UInt32.toNat_or, hshift, UInt8.toNat_toUInt32, Nat.or_comm]
  exact shiftLeft_or b.toNat (k := 8) ha

theorem ffintNtoh16_eq (a b : UInt8) : ffintNtoh16 a b = ffintLtoh16 b a := by
  rw [ffintNtoh16, ffintLtoh16, UInt32.or_comm]

theorem utf16Units_lt (hunit : ∀ a b, (unit a b).toNat < 2 ^ 16) (src : List UInt8) :
    ∀ u ∈ utf16Units unit src, u.toNat < 2 ^ 16 := by
  induction src using utf16Units.induct with
  | case1 a b src ih =>
    rw [utf16Units, forall_mem_cons]
    exact ⟨hunit a b, ih⟩
  | case2 src hsrc =>
    rw [utf16Units]
    · simp
    · exact hsrc

/-- **What the functions for UTF-16 write**, with room for it. -/
theorem fromUtf16_fits (hunit : ∀ a b, (unit a b).toNat < 2 ^ 16)
    (hcap : (fromUtf16Size unit src whole).1 ≤ cap) :
    (fromUtf16 unit cap src whole).1 = utf8Text (utf16Units unit src) ++
      (if src.length % 2 ≠ 0 ∧ whole then ffutf8Encode1 FFUTF8_MAXCHARLEN U_REPL else []) := by
  have hsmall : ∀ u ∈ utf16Units unit src, u < 0x80000000 :=
    fun u hu => lt_of_toNat_lt (utf16Units_lt hunit src u hu)
  have hlen := length_utf8Text hsmall
  rw [fromUtf16Size] at hcap
  by_cases hodd : src.length % 2 ≠ 0 ∧ whole
  · rw [if_pos hodd] at hcap ⊢
    have hloop := @encodeLoop_fits cap _ hsmall 0 [] (by rw [length_nil]; omega)
    have hsize : ffutf8Size U_REPL = 3 := by decide
    obtain ⟨heq, hrepl, -⟩ := @ffutf8Encode1_fits (cap - (utf8Text (utf16Units unit src)).length)
      U_REPL (by decide) (by omega)
    have hne : ffutf8Encode1 (cap - (utf8Text (utf16Units unit src)).length) U_REPL ≠ [] := by
      rw [← length_pos_iff, hrepl, hsize]
      decide
    simp only [fromUtf16, hloop, nil_append]
    rw [if_pos ⟨hodd.1, hodd.2, hne⟩, heq]
  · rw [if_neg hodd] at hcap ⊢
    have hloop := @encodeLoop_fits cap _ hsmall 0 [] (by rw [length_nil]; omega)
    simp only [fromUtf16, hloop, nil_append, append_nil]
    rw [if_neg fun h => hodd ⟨h.1, h.2.1⟩]

theorem fromUtf16_size (hunit : ∀ a b, (unit a b).toNat < 2 ^ 16)
    (hcap : (fromUtf16Size unit src whole).1 ≤ cap) :
    (fromUtf16 unit cap src whole).1.length = (fromUtf16Size unit src whole).1 := by
  have hsmall : ∀ u ∈ utf16Units unit src, u < 0x80000000 :=
    fun u hu => lt_of_toNat_lt (utf16Units_lt hunit src u hu)
  rw [fromUtf16_fits hunit hcap, length_append, length_utf8Text hsmall, fromUtf16Size]
  by_cases hodd : src.length % 2 ≠ 0 ∧ whole
  · rw [if_pos hodd, if_pos hodd]
    rfl
  · rw [if_neg hodd, if_neg hodd]
    rfl

theorem asciiChar_lt (coding : FFU_CODING) (c : UInt8) : (asciiChar coding c).toNat < 2 ^ 16 := by
  have htable : (cods coding).all (fun u => u.toNat < 2 ^ 16) = true := by
    cases coding <;> rfl
  rw [asciiChar]
  split
  · rw [getD_eq_getElem?_getD]
    cases hget : (cods coding)[(c &&& 0x7f).toNat]? with
    | none => decide
    | some u => exact of_decide_eq_true (all_eq_true.mp htable u (mem_of_getElem? hget))
  · have hc := c.toNat_lt
    rw [UInt8.toNat_toUInt32]
    omega

/-- **The number of bytes for a coding of single bytes.** -/
theorem ffutf8FromAscii_size (coding : FFU_CODING) (src : List UInt8) (i : ℕ) (dst : List UInt8)
    (hcap : dst.length + (ffutf8FromAsciiSize coding src).1 ≤ cap) :
    (ffutf8FromAscii coding cap src i dst).1.length =
      dst.length + (ffutf8FromAsciiSize coding src).1 := by
  induction src generalizing i dst with
  | nil => rfl
  | cons c src ih =>
    have hsize : (ffutf8FromAsciiSize coding (c :: src)).1 =
        (if c &&& 0x80 ≠ 0 then ffutf8Size (asciiChar coding c) else 1) +
          (ffutf8FromAsciiSize coding src).1 := by
      rw [ffutf8FromAsciiSize, map_cons, sum_cons]
      rfl
    rw [hsize] at hcap ⊢
    rw [ffutf8FromAscii]
    by_cases hc : c &&& 0x80 ≠ 0
    · rw [if_pos hc] at hcap ⊢
      obtain ⟨-, hlen, hpos⟩ := @ffutf8Encode1_fits (cap - dst.length) (asciiChar coding c)
        (lt_of_toNat_lt (asciiChar_lt coding c)) (by omega)
      have hne : ffutf8Encode1 (cap - dst.length) (asciiChar coding c) ≠ [] := by
        rw [← length_pos_iff, hlen]
        exact hpos
      rw [if_pos (by omega), if_pos hc, if_neg hne, ih, length_append, hlen, Nat.add_assoc]
      rw [length_append, hlen]
      omega
    · rw [if_neg hc] at hcap ⊢
      rw [if_pos (by omega), if_neg hc, ih, length_append, length_singleton,
        Nat.add_assoc]
      rw [length_append, length_singleton]
      omega

theorem ffintLtoh16_lt (a b : UInt8) : (ffintLtoh16 a b).toNat < 2 ^ 16 := by
  have ha := a.toNat_lt
  have hb := b.toNat_lt
  rw [ffintLtoh16_toNat]
  omega

theorem ffintNtoh16_lt (a b : UInt8) : (ffintNtoh16 a b).toNat < 2 ^ 16 := by
  rw [ffintNtoh16_eq]
  exact ffintLtoh16_lt b a

/-- **The counting path** gives what is written with room for it, for each coding. -/
theorem ffutf8Encode_size {flags : FfuFlags} (hcap : (ffutf8EncodeSize src flags).1 ≤ cap) :
    (ffutf8Encode cap src flags).1.length = (ffutf8EncodeSize src flags).1 := by
  obtain ⟨coding, whole⟩ := flags
  cases coding with
  | utf8 =>
    have hall : src.length ≤ cap := hcap
    change (src.take (min cap src.length)).length = src.length
    rw [Nat.min_eq_right hall, take_length]
  | utf16le => exact fromUtf16_size ffintLtoh16_lt hcap
  | utf16be => exact fromUtf16_size ffintNtoh16_lt hcap
  | win1251 =>
    have hascii := @ffutf8FromAscii_size cap .win1251 src 0 []
    rw [length_nil, Nat.zero_add] at hascii
    exact hascii hcap
  | win1252 =>
    have hascii := @ffutf8FromAscii_size cap .win1252 src 0 []
    rw [length_nil, Nat.zero_add] at hascii
    exact hascii hcap

end Room

/-! ### Surrogates -/

section Utf16

variable {be : Bool} {cs : List Char}

theorem unitBytes_units (be : Bool) {u : ℕ} (hu : u < 2 ^ 16) (src : List UInt8) :
    utf16Units (if be then ffintNtoh16 else ffintLtoh16) (unitBytes be u ++ src) =
      UInt32.ofNat u :: utf16Units (if be then ffintNtoh16 else ffintLtoh16) src := by
  have hword : ffintLtoh16 (UInt8.ofNat (u % 256)) (UInt8.ofNat (u / 256)) = UInt32.ofNat u := by
    rw [← UInt32.toNat_inj, ffintLtoh16_toNat, UInt8.toNat_ofNat', UInt8.toNat_ofNat',
      UInt32.toNat_ofNat']
    omega
  cases be with
  | true =>
    change ffintNtoh16 (UInt8.ofNat (u / 256)) (UInt8.ofNat (u % 256)) :: _ = _
    rw [ffintNtoh16_eq, hword]
    rfl
  | false =>
    change ffintLtoh16 (UInt8.ofNat (u % 256)) (UInt8.ofNat (u / 256)) :: _ = _
    rw [hword]
    rfl

theorem char_lt (c : Char) : c.toNat < 0x110000 := by
  have := c.valid
  change c.val.toNat < 0x110000
  omega

theorem charUnits_lt (c : Char) : ∀ u ∈ charUnits c, u < 2 ^ 16 := by
  have hmax := char_lt c
  rw [charUnits]
  split
  · simp only [mem_singleton, forall_eq]
    omega
  · simp only [mem_cons, not_mem_nil, or_false, forall_eq_or_imp, forall_eq]
    omega

theorem utf16Text_units (be : Bool) (cs : List Char) :
    utf16Units (if be then ffintNtoh16 else ffintLtoh16) (utf16Text be cs) =
      (cs.flatMap charUnits).map UInt32.ofNat := by
  have hall : ∀ u ∈ cs.flatMap charUnits, u < 2 ^ 16 := by
    intro u hu
    obtain ⟨c, -, hc⟩ := mem_flatMap.mp hu
    exact charUnits_lt c u hc
  rw [utf16Text]
  revert hall
  induction cs.flatMap charUnits with
  | nil => exact fun _ => rfl
  | cons u us ih =>
    intro hall
    rw [forall_mem_cons] at hall
    rw [flatMap_cons, unitBytes_units be hall.1, ih hall.2, map_cons]

theorem utf16Text_even (be : Bool) (cs : List Char) : (utf16Text be cs).length % 2 = 0 := by
  rw [utf16Text]
  induction cs.flatMap charUnits with
  | nil => rfl
  | cons u us ih =>
    have htwo : (unitBytes be u).length = 2 := by cases be <;> rfl
    rw [flatMap_cons, length_append, htwo]
    omega

theorem utf8EncodeChar_text (cs : List Char) :
    cs.flatMap String.utf8EncodeChar = utf8Text (cs.map Char.val) := by
  rw [utf8Text, flatMap_map]
  congr 1
  funext c
  have hsmall : c.val < 0x80000000 := by
    have := char_lt c
    rw [UInt32.lt_iff_toNat_lt]
    exact lt_trans this (by decide)
  have hcap : ffutf8Size c.val ≤ 8 := le_trans (ffutf8Size_le hsmall) (by decide)
  rw [← ffutf8Encode1_char, (ffutf8Encode1_fits hsmall hcap).1]

theorem utf8Text_inj {us vs : List UInt32} (hus : ∀ u ∈ us, u < 0x80000000)
    (hvs : ∀ v ∈ vs, v < 0x80000000) (heq : utf8Text us = utf8Text vs) : us = vs := by
  have hsteps := (utf8_roundTrip us hus).1
  rw [heq, (utf8_roundTrip vs hvs).1, Option.some.injEq] at hsteps
  have hvals := congrArg (List.map Prod.snd) hsteps
  rw [map_map, map_map] at hvals
  have hid : ∀ l : List UInt32, l.map (Prod.snd ∘ fun c => (ffutf8Size c, c)) = l := by
    intro l
    exact map_id'' (fun _ => rfl) l
  rw [hid, hid] at hvals
  exact hvals.symm

theorem charUnits_iff (cs : List Char) :
    (cs.flatMap charUnits).map UInt32.ofNat = cs.map Char.val ↔ ∀ c ∈ cs, c.toNat < 0x10000 := by
  constructor
  · intro heq c hc
    have hmem : c.val ∈ (cs.flatMap charUnits).map UInt32.ofNat := heq ▸ mem_map_of_mem hc
    obtain ⟨u, hu, hval⟩ := mem_map.mp hmem
    obtain ⟨d, -, hd⟩ := mem_flatMap.mp hu
    have hlt := charUnits_lt d u hd
    change c.val.toNat < 0x10000
    rw [← hval, UInt32.toNat_ofNat']
    omega
  intro h
  induction cs with
  | nil => rfl
  | cons c cs ih =>
    rw [forall_mem_cons] at h
    have hone : charUnits c = [c.toNat] := if_pos h.1
    rw [flatMap_cons, map_append, ih h.2, hone, map_cons, map_cons]
    change [UInt32.ofNat c.val.toNat] ++ _ = _
    rw [UInt32.ofNat_toNat]
    rfl

/-- **When UTF-16 becomes the UTF-8 of the same characters**: exactly if none of them needs
surrogates. For each coding, the counting path gives the number of bytes that are written. -/
theorem ffutf8FromUtf16_iff (be whole : Bool) (cs : List Char) :
    ((∀ cap, (ffutf8FromUtf16Size be (utf16Text be cs) whole).1 ≤ cap →
        (ffutf8FromUtf16 be cap (utf16Text be cs) whole).1 = cs.flatMap String.utf8EncodeChar) ↔
      ∀ c ∈ cs, c.toNat < 0x10000) ∧
    ∀ (src : List UInt8) (flags : FfuFlags) (cap : ℕ), (ffutf8EncodeSize src flags).1 ≤ cap →
      (ffutf8Encode cap src flags).1.length = (ffutf8EncodeSize src flags).1 := by
  have hfun : ∀ cap, ffutf8FromUtf16 be cap =
      fromUtf16 (if be then ffintNtoh16 else ffintLtoh16) cap := by
    intro cap
    cases be <;> rfl
  have hunit : ∀ a b, ((if be then ffintNtoh16 else ffintLtoh16) a b).toNat < 2 ^ 16 := by
    cases be with
    | true => exact ffintNtoh16_lt
    | false => exact ffintLtoh16_lt
  have hwritten : ∀ cap, (ffutf8FromUtf16Size be (utf16Text be cs) whole).1 ≤ cap →
      (ffutf8FromUtf16 be cap (utf16Text be cs) whole).1 =
        utf8Text ((cs.flatMap charUnits).map UInt32.ofNat) := by
    intro cap hcap
    rw [hfun, fromUtf16_fits hunit hcap, utf16Text_units, if_neg, append_nil]
    exact fun h => h.1 (utf16Text_even be cs)
  have hunits : ∀ u ∈ (cs.flatMap charUnits).map UInt32.ofNat, u < 0x80000000 := by
    rw [← utf16Text_units be cs]
    exact fun u hu => lt_of_toNat_lt (utf16Units_lt hunit _ u hu)
  have hvals : ∀ u ∈ cs.map Char.val, u < 0x80000000 := by
    intro u hu
    obtain ⟨c, -, rfl⟩ := mem_map.mp hu
    rw [UInt32.lt_iff_toNat_lt]
    exact lt_trans (char_lt c) (by decide)
  refine ⟨?_, fun src flags cap hcap => ffutf8Encode_size hcap⟩
  rw [← charUnits_iff, utf8EncodeChar_text]
  constructor
  · intro h
    have hall := h _ (le_refl _)
    rw [hwritten _ (le_refl _)] at hall
    exact utf8Text_inj hunits hvals hall
  · intro h cap hcap
    rw [hwritten cap hcap, h]

/-- The two surrogates of U+10000 are written as two characters. -/
theorem ffutf8FromUtf16_surrogates :
    ¬∀ cs : List Char, ∀ cap, (ffutf8FromUtf16Size false (utf16Text false cs) false).1 ≤ cap →
      (ffutf8FromUtf16 false cap (utf16Text false cs) false).1 =
        cs.flatMap String.utf8EncodeChar := by
  intro h
  have hall := h [Char.ofNat 0x10000] 6 (by decide)
  revert hall
  decide

end Utf16

end FF
