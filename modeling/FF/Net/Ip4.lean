import FF.Str.Fromint

/-!
# IPv4 addresses

`ffip4_parse` reads an address in dotted form, and `ffip4_tostr` writes one.
-/

namespace FF

namespace Net

open List Option

/-! ### The functions -/

/-- What `ffip4_parse_wildcard` returns, the bytes of the address that are written, and `subnet`. -/
structure Ip4Parsed where
  ret : ℤ
  a : List UInt8
  subnet : ℕ
  deriving DecidableEq, Repr

/-- The loop of `ffip4_parse_wildcard` from the byte `i` on: `a` are the bytes that have been
written, `b` is the number of `ndig` digits. -/
def ip4Loop : List UInt8 → ℕ → List UInt8 → ℕ → ℕ → Ip4Parsed
  | [], _, a, ndig, b =>
    if a.length = 3 ∧ ndig ≠ 0 then ⟨0, a ++ [UInt8.ofNat b], 32⟩ else ⟨-1, a, 32⟩
  | ch :: s, i, a, ndig, b =>
    if ffcharIsdigit ch ∧ ndig ≠ 3 then
      let b := b * 10 + (ch.toNat - 0x30)
      if b > 255 then ⟨-1, a, 32⟩ else ip4Loop s (i + 1) a (ndig + 1) b
    else if ndig = 0 then
      if ch = 0x2a then
        ⟨if s = [] then 0 else i + 1, a ++ List.replicate (4 - a.length) 0, a.length * 8⟩
      else ⟨-1, a, 32⟩
    else if a.length = 3 then ⟨i, a ++ [UInt8.ofNat b], 32⟩
    else if ch = 0x2e then ip4Loop s (i + 1) (a ++ [UInt8.ofNat b]) 0 0
    else ⟨-1, a, 32⟩

/-- `ffip4_parse_wildcard` -/
def ffip4ParseWildcard (s : List UInt8) : Ip4Parsed := ip4Loop s 0 [] 0 0

/-- `ffip4_parse`: what is returned, and the bytes of the address that are written. -/
def ffip4Parse (s : List UInt8) : ℤ × List UInt8 :=
  let r := ffip4ParseWildcard s
  if r.subnet ≠ 32 then (-1, r.a) else (r.ret, r.a)

/-- `FFIP4_STRLEN` -/
def FFIP4_STRLEN : ℕ := 15

/-- The loop of `ffip4_tostr`: the numbers with dots between them. -/
def ip4Bytes : List UInt8 → List UInt8
  | [] => []
  | [b] => ffsFromint b.toNat 64 false
  | b :: c :: a => ffsFromint b.toNat 64 false ++ 0x2e :: ip4Bytes (c :: a)

/-- `ffip4_tostr` of four bytes; nothing is written where the buffer might be too small. -/
def ffip4Tostr (cap : ℕ) (a : List UInt8) : List UInt8 :=
  if cap < FFIP4_STRLEN then [] else ip4Bytes a

/-! ### The text of a byte -/

theorem byteText_spec (b : UInt8) :
    ffsFromint b.toNat 64 false ≠ [] ∧ (ffsFromint b.toNat 64 false).length ≤ 3 ∧
      (∀ c ∈ ffsFromint b.toNat 64 false, (digitOf 10 c).isSome = true) ∧
      numVal (digitOf 10) 10 0 (ffsFromint b.toNat 64 false) = b.toNat := by
  have hb := b.toNat_lt
  have hdigit : ∀ d < 10, digitOf 10 (UInt8.ofNat (d + 0x30)) = some d := fun d hd => by
    rw [← ffcharTodec_eq]
    exact ffcharTodec_digit hd
  obtain ⟨ds, htext, hlen, hdig, hval⟩ := fromintDigits_spec (by decide) hdigit
    (by decide : 1 ≤ 3) (by decide : 3 ≤ 64) (by omega : b.toNat < 10 ^ 3)
  have hcount := digitCount_le (by decide : 1 < 10) (by decide : 1 ≤ 3) (by omega : b.toNat < 10 ^ 3)
  have heq : ffsFromint b.toNat 64 false = ds := by
    have hdec := htext []
    rw [append_nil, ← ffsFromintDec_eq] at hdec
    simp only [ffsFromint, Bool.false_and, Bool.false_eq_true, if_false, false_and,
      nil_append, hdec]
    exact take_of_length_le (by simp; omega)
  rw [heq]
  refine ⟨?_, by omega, hdig, hval⟩
  rintro rfl
  rw [length_nil, digitCount] at hlen
  omega

theorem digitOf_dec (c : UInt8) :
    digitOf 10 c = if ffcharIsdigit c then some (c.toNat - 0x30) else none := by
  have hisdigit : ffcharIsdigit c = true ↔ 0x30 ≤ c ∧ c ≤ 0x39 := by simp [ffcharIsdigit]
  rw [digitOf, if_congr hisdigit rfl rfl]
  by_cases hd : 0x30 ≤ c ∧ c ≤ 0x39
  · have hhigh : c.toNat ≤ 0x39 := hd.2
    rw [if_pos hd, if_pos hd, filter_some, if_pos (decide_eq_true (by omega))]
  rw [if_neg hd, if_neg hd]
  by_cases hup : 0x41 ≤ c ∧ c ≤ 0x46
  · rw [if_pos hup, filter_some, if_neg (by simp)]
  · rw [if_neg hup]
    by_cases hlow : 0x61 ≤ c ∧ c ≤ 0x66
    · rw [if_pos hlow, filter_some, if_neg (by simp)]
    · rw [if_neg hlow]
      rfl

theorem isdigit_iff (c : UInt8) : ffcharIsdigit c = true ↔ (digitOf 10 c).isSome = true := by
  rw [digitOf_dec]
  split <;> simp_all

theorem le_numVal (b : ℕ) (ds : List UInt8) : b ≤ numVal (digitOf 10) 10 b ds := by
  rw [numVal_eq]
  exact Nat.le_add_right_of_le (Nat.le_mul_of_pos_right b (Nat.pow_pos (by decide)))

theorem ip4Loop_digits {ds : List UInt8} (s : List UInt8) (i : ℕ) (a : List UInt8) (ndig b : ℕ)
    (hds : ∀ c ∈ ds, (digitOf 10 c).isSome = true) (hlen : ndig + ds.length ≤ 3)
    (hval : numVal (digitOf 10) 10 b ds ≤ 255) :
    ip4Loop (ds ++ s) i a ndig b =
      ip4Loop s (i + ds.length) a (ndig + ds.length) (numVal (digitOf 10) 10 b ds) := by
  induction ds generalizing i ndig b with
  | nil => rfl
  | cons c ds ih =>
    have hc := (isdigit_iff c).mpr (hds c mem_cons_self)
    have hdig : (digitOf 10 c).getD 0 = c.toNat - 0x30 := by
      rw [digitOf_dec, if_pos hc, getD_some]
    rw [length_cons] at hlen ⊢
    rw [numVal_cons, hdig] at hval ⊢
    have hbound := le_trans (le_numVal _ ds) hval
    rw [cons_append, ip4Loop, if_pos ⟨hc, by omega⟩]
    rw [if_neg (by omega), ih _ _ _ (fun k hk => hds k (mem_cons_of_mem c hk)) (by omega) hval]
    congr 1 <;> omega

theorem ip4Loop_byte (x : UInt8) (s : List UInt8) (i : ℕ) (a : List UInt8) :
    ∃ i' ndig, ndig ≠ 0 ∧
      ip4Loop (ffsFromint x.toNat 64 false ++ s) i a 0 0 = ip4Loop s i' a ndig x.toNat := by
  obtain ⟨hne, hlen, hdig, hval⟩ := byteText_spec x
  have hx := x.toNat_lt
  refine ⟨i + (ffsFromint x.toNat 64 false).length, 0 + (ffsFromint x.toNat 64 false).length, ?_, ?_⟩
  · have := length_pos_iff.mpr hne
    omega
  · rw [ip4Loop_digits s i a 0 0 hdig (by omega) (by omega), hval]

theorem ip4Loop_dot (s : List UInt8) (i : ℕ) {a : List UInt8} {ndig : ℕ} (x : UInt8)
    (hndig : ndig ≠ 0) (ha : a.length ≠ 3) :
    ip4Loop (0x2e :: s) i a ndig x.toNat = ip4Loop s (i + 1) (a ++ [x]) 0 0 := by
  have hdot : ¬(ffcharIsdigit 0x2e = true ∧ ndig ≠ 3) := fun h => Bool.false_ne_true h.1
  rw [ip4Loop, if_neg hdot, if_neg hndig, if_neg ha, if_pos rfl, UInt8.ofNat_toNat]

/-- **An address is read back from its text.** -/
theorem ffip4Parse_tostr {a : List UInt8} (ha : a.length = 4) {cap : ℕ} (hcap : FFIP4_STRLEN ≤ cap) :
    ffip4Parse (ffip4Tostr cap a) = (0, a) := by
  obtain ⟨w, x, y, z, rfl⟩ : ∃ w x y z, a = [w, x, y, z] := length_eq_four.mp ha
  have hparse : ffip4ParseWildcard (ip4Bytes [w, x, y, z]) = ⟨0, [w, x, y, z], 32⟩ := by
    obtain ⟨i, n, hn, hw⟩ := ip4Loop_byte w (0x2e :: ip4Bytes [x, y, z]) 0 []
    obtain ⟨j, m, hm, hx⟩ := ip4Loop_byte x (0x2e :: ip4Bytes [y, z]) (i + 1) [w]
    obtain ⟨k, l, hl, hy⟩ := ip4Loop_byte y (0x2e :: ip4Bytes [z]) (j + 1) [w, x]
    obtain ⟨e, r, hr, hz⟩ := ip4Loop_byte z [] (k + 1) [w, x, y]
    rw [ffip4ParseWildcard, ip4Bytes, hw, ip4Loop_dot _ _ w hn (by decide), nil_append, ip4Bytes,
      hx, ip4Loop_dot _ _ x hm (by simp), singleton_append, ip4Bytes, hy,
      ip4Loop_dot _ _ y hl (by simp), cons_append, singleton_append, ip4Bytes,
      ← append_nil (ffsFromint z.toNat 64 false), hz, ip4Loop, if_pos ⟨rfl, hr⟩,
      UInt8.ofNat_toNat]
    rfl
  rw [ffip4Tostr, if_neg (by omega), ffip4Parse, hparse]
  rfl

end Net

end FF
