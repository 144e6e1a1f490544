import FF.Lib.Bits
import FF.Toint

/-!
# Escaped bytes

`ffs_escape` replaces a backslash and the bytes that cannot be printed by `\xXX`. Where the buffer
is too small, what it returns is the number of bytes that it has taken, with a minus sign.
-/

namespace FF

open List Option

/-! ### The function -/

/-- `esc_nprint` -/
def escNprint : List UInt32 :=
  [0x00002600, 0xffffffff, 0xefffffff, 0x7fffffff, 0xffffffff, 0xffffffff, 0xffffffff, 0xffffffff]

/-- The local `nesc`. -/
def escLen : ℕ := 4

/-- `_ffs_escape` without a destination. -/
def ffsEscapeMaskSize (mask : List UInt32) (s : List UInt8) : ℕ :=
  s.length + (s.map fun c => if ffbitTestarr mask c.toNat then 0 else escLen - 1).sum

/-- The loop of `_ffs_escape`: what is returned, and the bytes in the buffer. -/
@[grind =] def ffsEscapeLoop (mask : List UInt32) (cap : ℕ) :
    List UInt8 → ℕ → List UInt8 → ℤ × List UInt8
  | [], _, dst => (dst.length, dst)
  | c :: s, i, dst =>
    if ffbitTestarr mask c.toNat then
      if dst.length = cap then (-i, dst) else ffsEscapeLoop mask cap s (i + 1) (dst ++ [c])
    else if cap - dst.length < escLen then
      (-i, dst ++ List.replicate (min escLen (cap - dst.length)) 0)
    else ffsEscapeLoop mask cap s (i + 1) (dst ++ ([0x5c, 0x78] ++ ffsHexbyte c ffHEX))

/-- `ffs_escape` without a destination; the type is not looked at. -/
def ffsEscapeSize (s : List UInt8) (_type : ℤ) : ℤ := ffsEscapeMaskSize escNprint s

/-- `ffs_escape`; the type is not looked at. -/
def ffsEscape (cap : ℕ) (s : List UInt8) (_type : ℤ) : ℤ × List UInt8 :=
  ffsEscapeLoop escNprint cap s 0 []

/-! ### What it is for -/

/-- What is written for a byte. -/
def escByte (c : UInt8) : List UInt8 :=
  if ffbitTestarr escNprint c.toNat then [c] else [0x5c, 0x78] ++ ffsHexbyte c ffHEX

/-- What is written for a string. -/
def escText (s : List UInt8) : List UInt8 := s.flatMap escByte

/-- **The escapes are undone.** -/
@[grind =] def ffsUnescape : List UInt8 → Option (List UInt8)
  | [] => some []
  | c :: s =>
    if c = 0x5c then
      match s with
      | x :: hi :: lo :: s =>
        if x = 0x78 then do
          let h ← digitOf 16 hi
          let l ← digitOf 16 lo
          let t ← ffsUnescape s
          some (UInt8.ofNat (h * 16 + l) :: t)
        else none
      | _ => none
    else (ffsUnescape s).map (c :: ·)

section Escape

variable {c : UInt8} {s dst : List UInt8} {cap : ℕ}

theorem escByte_cases (c : UInt8) :
    (ffbitTestarr escNprint c.toNat = true ∧ c ≠ 0x5c) ∨
      (ffbitTestarr escNprint c.toNat = false ∧ ∃ hi lo h l, ffsHexbyte c ffHEX = [hi, lo] ∧
        digitOf 16 hi = some h ∧ digitOf 16 lo = some l ∧ UInt8.ofNat (h * 16 + l) = c) := by
  have hmask : ∀ c : UInt8, ffbitTestarr escNprint c.toNat = true → c ≠ 0x5c :=
    forall_byte (by decide +kernel)
  have hhex : ∀ c : UInt8, digitOf 16 (ffHEX.getD (c >>> 4).toNat 0) = some (c >>> 4).toNat ∧
      digitOf 16 (ffHEX.getD (c &&& 0x0f).toNat 0) = some (c &&& 0x0f).toNat ∧
      UInt8.ofNat ((c >>> 4).toNat * 16 + (c &&& 0x0f).toNat) = c :=
    forall_byte (by decide +kernel)
  cases hc : ffbitTestarr escNprint c.toNat with
  | true => exact .inl ⟨rfl, hmask c hc⟩
  | false =>
    obtain ⟨hh, hl, hval⟩ := hhex c
    exact .inr ⟨rfl, _, _, _, _, rfl, hh, hl, hval⟩

theorem length_escByte (c : UInt8) :
    (escByte c).length = if ffbitTestarr escNprint c.toNat then 1 else escLen := by
  rw [escByte]
  split
  · rfl
  · rfl

/-- **What is written stands for the bytes.** -/
theorem ffsUnescape_esc (s : List UInt8) : ffsUnescape (escText s) = some s := by
  induction s with
  | nil => rfl
  | cons c s ih =>
    rw [escText, flatMap_cons, ← escText, escByte]
    rcases escByte_cases c with ⟨hc, hne⟩ | ⟨hc, hi, lo, h, l, hhex, hh, hl, hval⟩
    · rw [if_pos hc, singleton_append, ffsUnescape.eq_def]
      simp only [if_neg hne, ih, map_some]
    have hbytes : [0x5c, 0x78] ++ ffsHexbyte c ffHEX ++ escText s =
        0x5c :: 0x78 :: hi :: lo :: escText s := by
      rw [hhex]
      rfl
    rw [if_neg (by simp [hc]), hbytes, ffsUnescape.eq_def]
    simp only [if_true, hh, hl, ih, bind_eq_bind, bind_some, hval]

/-- **The number of bytes** without a destination. -/
theorem ffsEscapeMaskSize_eq (s : List UInt8) :
    ffsEscapeMaskSize escNprint s = (escText s).length := by
  induction s with
  | nil => rfl
  | cons c s ih =>
    rw [ffsEscapeMaskSize] at ih ⊢
    rw [escText, flatMap_cons, ← escText, length_append, length_escByte, ← ih,
      map_cons, sum_cons, length_cons]
    split
    · omega
    · rw [escLen]
      omega

theorem ffsEscapeLoop_cons (hcap : dst.length + (escByte c).length ≤ cap) (i : ℕ) :
    ffsEscapeLoop escNprint cap (c :: s) i dst =
      ffsEscapeLoop escNprint cap s (i + 1) (dst ++ escByte c) := by
  rw [length_escByte] at hcap
  rw [ffsEscapeLoop, escByte]
  by_cases hc : ffbitTestarr escNprint c.toNat = true
  · rw [if_pos hc] at hcap
    rw [if_pos hc, if_pos hc, if_neg (by omega)]
  · rw [if_neg hc] at hcap
    rw [if_neg hc, if_neg hc, if_neg (by omega)]

theorem ffsEscapeLoop_full (hdst : dst.length ≤ cap)
    (hcap : cap < dst.length + (escByte c).length) (i : ℕ) :
    ∃ fill, ffsEscapeLoop escNprint cap (c :: s) i dst = (-(i : ℤ), dst ++ fill) ∧
      (dst ++ fill).length ≤ cap := by
  rw [length_escByte] at hcap
  rw [ffsEscapeLoop]
  by_cases hc : ffbitTestarr escNprint c.toNat = true
  · rw [if_pos hc] at hcap
    refine ⟨[], ?_, by rwa [append_nil]⟩
    rw [if_pos hc, if_pos (by omega), append_nil]
  · rw [if_neg hc] at hcap
    refine ⟨List.replicate (min escLen (cap - dst.length)) 0, ?_, ?_⟩
    · rw [if_neg hc, if_pos (by omega)]
    · rw [length_append, length_replicate]
      omega

/-- **With room for all of it** -/
theorem ffsEscapeLoop_fits (i : ℕ) (hcap : dst.length + (escText s).length ≤ cap) :
    ffsEscapeLoop escNprint cap s i dst =
      (((dst ++ escText s).length : ℤ), dst ++ escText s) := by
  induction s generalizing dst i with
  | nil => rw [ffsEscapeLoop, escText, flatMap_nil, append_nil]
  | cons c s ih =>
    rw [escText, flatMap_cons, ← escText, length_append] at hcap
    have hnext : (dst ++ escByte c).length + (escText s).length ≤ cap := by
      rw [length_append]
      omega
    rw [ffsEscapeLoop_cons (by omega), ih _ hnext, append_assoc]
    rfl

/-- **Without room for all of it**: the bytes up to the first one that does not fit are taken. -/
theorem ffsEscapeLoop_short (i : ℕ) (hdst : dst.length ≤ cap)
    (hcap : cap < dst.length + (escText s).length) :
    ∃ k fill, k < s.length ∧
      ffsEscapeLoop escNprint cap s i dst =
        (-((i + k : ℕ) : ℤ), dst ++ escText (s.take k) ++ fill) ∧
      (dst ++ escText (s.take k) ++ fill).length ≤ cap ∧
      cap < dst.length + (escText (s.take (k + 1))).length := by
  induction s generalizing dst i with
  | nil =>
    rw [escText, flatMap_nil, length_nil] at hcap
    omega
  | cons c s ih =>
    by_cases hfit : dst.length + (escByte c).length ≤ cap
    · rw [escText, flatMap_cons, ← escText, length_append] at hcap
      obtain ⟨k, fill, hk, hloop, hlen, hmore⟩ := @ih (dst ++ escByte c) (i + 1)
        (by rwa [length_append]) (by rw [length_append]; omega)
      have htake : ∀ n, escText ((c :: s).take (n + 1)) = escByte c ++ escText (s.take n) := by
        intro n
        rw [take_succ_cons, escText, flatMap_cons, ← escText]
      refine ⟨k + 1, fill, Nat.succ_lt_succ hk, ?_, ?_, ?_⟩
      · rw [ffsEscapeLoop_cons hfit, hloop, htake, append_assoc dst, Nat.add_right_comm,
          Nat.add_assoc i]
      · rwa [htake, ← append_assoc dst]
      · rw [htake, length_append, ← Nat.add_assoc, ← length_append]
        exact hmore
    obtain ⟨fill, hloop, hlen⟩ := @ffsEscapeLoop_full c s dst cap hdst (by omega) i
    refine ⟨0, fill, Nat.succ_pos _, ?_, ?_, ?_⟩
    · rw [hloop, take_zero, escText, flatMap_nil, append_nil, Nat.add_zero]
    · rwa [take_zero, escText, flatMap_nil, append_nil]
    · rw [take_succ_cons, take_zero, escText, flatMap_cons, flatMap_nil, append_nil]
      omega

end Escape

/-! ### Results -/

/-- **What a caller relies on.** The number of bytes without a destination is the number that is
written where they fit, and they stand for `s`. Where they do not, the result is less than zero
and tells how many bytes have been taken, and what stands in the buffer for them gives them back. -/
structure EscapeOk (s : List UInt8) (type : ℤ) (cap : ℕ) : Prop where
  fits : ffsEscapeSize s type ≤ cap → ∃ text, ffsEscape cap s type = (text.length, text) ∧
    ffsEscapeSize s type = text.length ∧ ffsUnescape text = some s
  short : cap < ffsEscapeSize s type → (ffsEscape cap s type).1 < 0 ∧
    (ffsEscape cap s type).2.length ≤ cap ∧
    ∃ k < s.length, (ffsEscape cap s type).1 = -(k : ℤ) ∧
      ∃ text, text <+: (ffsEscape cap s type).2 ∧ ffsUnescape text = some (s.take k)

/-- **When `ffs_escape` does what a caller relies on**: there is room for all of it, or at least
for what is written for the first byte. -/
theorem ffsEscape_iff (s : List UInt8) (type : ℤ) (cap : ℕ) :
    EscapeOk s type cap ↔
      ffsEscapeSize s type ≤ cap ∨ (escText (s.take 1)).length ≤ cap := by
  have hsize : ffsEscapeSize s type = (escText s).length := by
    rw [ffsEscapeSize, ffsEscapeMaskSize_eq]
  by_cases hcap : ffsEscapeSize s type ≤ cap
  · refine iff_of_true ⟨fun _ => ?_, fun hshort => absurd hshort (not_lt.mpr hcap)⟩ (.inl hcap)
    rw [hsize] at hcap ⊢
    have hfits := @ffsEscapeLoop_fits s [] cap 0 (by rw [length_nil]; omega)
    exact ⟨escText s, hfits, rfl, ffsUnescape_esc s⟩
  have hshort : cap < ffsEscapeSize s type := not_le.mp hcap
  obtain ⟨k, fill, hk, hloop, hlen, hmore⟩ := @ffsEscapeLoop_short s [] cap 0 (Nat.zero_le _)
    (by rw [length_nil]; omega)
  rw [nil_append, Nat.zero_add] at hloop
  rw [nil_append] at hlen
  rw [length_nil, Nat.zero_add] at hmore
  have hret : (ffsEscape cap s type).1 = -(k : ℤ) := by rw [ffsEscape, hloop]
  have hdst : (ffsEscape cap s type).2 = escText (s.take k) ++ fill := by
    rw [ffsEscape, hloop]
  have hfirst : 0 < k ↔ (escText (s.take 1)).length ≤ cap := by
    cases k with
    | zero =>
      rw [Nat.zero_add] at hmore
      exact iff_of_false (lt_irrefl 0) (not_le.mpr hmore)
    | succ k =>
      refine iff_of_true (Nat.succ_pos k) ?_
      have htake : s.take 1 = (s.take (k + 1)).take 1 := by
        rw [take_take, Nat.min_eq_left (by omega)]
      obtain ⟨t, ht⟩ : s.take 1 <+: s.take (k + 1) := by
        rw [htake]
        exact take_prefix _ _
      rw [← ht, escText, flatMap_append, length_append, length_append, ← escText] at hlen
      omega
  constructor
  · intro hok
    have hneg := (hok.short hshort).1
    exact .inr (hfirst.mp (by omega))
  rintro (hfits | hroom)
  · exact absurd hfits hcap
  · refine ⟨fun hfits => absurd hfits hcap, fun _ => ⟨?_, ?_, k, hk, hret, ?_⟩⟩
    · have hpos := hfirst.mpr hroom
      omega
    · rwa [hdst]
    · exact ⟨_, hdst ▸ prefix_append _ _, ffsUnescape_esc _⟩

/-- Without room for the first byte, zero is returned. -/
theorem ffsEscape_zero :
    ¬∀ (s : List UInt8) (type : ℤ) (cap : ℕ), cap < ffsEscapeSize s type →
      (ffsEscape cap s type).1 < 0 := by
  intro h
  exact absurd (h (ascii "a") 0 0 (by decide)) (by decide)

end FF
