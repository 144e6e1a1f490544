import FF.Number
import FF.Unicode
import Mathlib.Tactic.Ring

/-!
# Decoding UTF-8

`ffutf8_decode1`, `ffutf8_len` and `ffutf8_valid`, beside the sequences that the table of the header
describes: a first byte that tells the number of bytes, and six bits in each byte behind it. The
reader takes the numbers up to `2 ^ 31`, and surrogates, like the writer.
-/

namespace FF

open List Option

/-! ### The reader -/

/-- What `ffutf8_decode1` comes to: a character of `n` bytes, bytes that are not right, or a
sequence of `n` bytes that is cut. -/
inductive Utf8Res
  | char (n : ℕ) (val : UInt32)
  | invalid
  | more (n : ℕ)
  deriving DecidableEq, Repr

/-- What `ffutf8_decode1` returns. -/
@[grind =] def Utf8Res.ret : Utf8Res → ℤ
  | .char n _ => n
  | .invalid => 0
  | .more n => -n

/-- `utf8_b1masks` -/
def utf8B1masks : List UInt32 := [0x1f, 0x0f, 0x07, 0x03, 0x01, 0]

/-- The local `n` for the first byte: the position of its first zero bit. -/
def utf8First (d : UInt8) : ℕ := ffbitFind32 (~~~(d.toUInt32 <<< 24) &&& 0xfe000000)

/-- The loop of `ffutf8_decode1` over the bytes behind the first one; `k` of them are left. -/
@[grind =] def utf8Loop (n : ℕ) : ℕ → List UInt8 → UInt32 → Option Utf8Res
  | 0, _, r => some (.char n r)
  | _ + 1, [], _ => none
  | k + 1, d :: ds, r =>
    if d.toUInt32 &&& 0xc0 ≠ 0x80 then some .invalid
    else utf8Loop n k ds ((r <<< 6) ||| (d.toUInt32 &&& ~~~0xc0))

/-- `ffutf8_decode1` with the length `len`; `utf8` is what lies there in memory, and `none` stands
for a byte that is read behind it. -/
@[grind =] def ffutf8Decode1 (utf8 : List UInt8) (len : ℕ) : Option Utf8Res :=
  match utf8 with
  | [] => none
  | d :: ds =>
    if d &&& 0x80 = 0 then some (.char 1 d.toUInt32)
    else if utf8First d < 3 ∨ utf8First d = 8 then some .invalid
    else
      let n := utf8First d - 1
      if len < n then some (.more n)
      else utf8Loop n (n - 1) ds (d.toUInt32 &&& utf8B1masks.getD (n - 2) 0)

/-- How far `ffutf8_len` goes on behind the first byte of a character. -/
def utf8Skip (d : UInt8) : ℕ :=
  if d &&& 0x80 = 0 then 0
  else if utf8First d ≥ 3 ∧ utf8First d ≠ 8 then utf8First d - 2
  else 0

/-- `ffutf8_len` -/
@[grind =] def ffutf8Len : List UInt8 → ℕ
  | [] => 0
  | d :: ds => ffutf8Len (ds.drop (utf8Skip d)) + 1
  termination_by s => s.length
  decreasing_by
    simp only [length_drop, length_cons]
    omega

/-- Decoding step by step: the lengths and the values. -/
@[grind =] def utf8Steps : List UInt8 → Option (List (ℕ × UInt32))
  | [] => some []
  | d :: ds =>
    match ffutf8Decode1 (d :: ds) (ds.length + 1) with
    | some (.char n val) => (utf8Steps (ds.drop (n - 1))).map ((n, val) :: ·)
    | _ => none
  termination_by s => s.length
  decreasing_by
    simp only [length_drop, length_cons]
    omega

/-- `ffutf8_valid` -/
@[grind =] def ffutf8Valid : List UInt8 → Bool
  | [] => true
  | d :: ds =>
    match ffutf8Decode1 (d :: ds) (ds.length + 1) with
    | some (.char n _) => ffutf8Valid (ds.drop (n - 1))
    | _ => false
  termination_by s => s.length
  decreasing_by
    simp only [length_drop, length_cons]
    omega

/-! ### Sequences -/

/-- The bits that a first byte of a sequence of `n` bytes has above its bits of the number. -/
def utf8Mark (n : ℕ) : ℕ := if n = 1 then 0 else 256 - 2 ^ (8 - n)

/-- The number of bits in the first byte of a sequence of `n` bytes. -/
def utf8Bits (n : ℕ) : ℕ := if n = 1 then 7 else 7 - n

/-- **A sequence**: a first byte for the number of bytes, and the bytes behind it. -/
structure Utf8Seq where
  first : UInt8
  rest : List UInt8
  size : rest.length + 1 ≤ 6
  lead : utf8Mark (rest.length + 1) ≤ first.toNat ∧
    first.toNat < utf8Mark (rest.length + 1) + 2 ^ utf8Bits (rest.length + 1)
  tail : ∀ d ∈ rest, 0x80 ≤ d ∧ d < 0xc0

/-- The number that bytes behind the first one add to a number. -/
def tailVal (r : ℕ) (ds : List UInt8) : ℕ := ds.foldl (fun r d => r * 64 + d.toNat % 64) r

namespace Utf8Seq

/-- The bytes of a sequence. -/
def bytes (q : Utf8Seq) : List UInt8 := q.first :: q.rest

/-- The number of bytes. -/
def len (q : Utf8Seq) : ℕ := q.rest.length + 1

/-- The number that a sequence denotes. -/
def val (q : Utf8Seq) : ℕ := tailVal (q.first.toNat - utf8Mark q.len) q.rest

end Utf8Seq

/-! ### The first byte -/

/-- A byte that starts a sequence of `n` bytes. -/
def IsLead (n : ℕ) (d : UInt8) : Prop :=
  utf8Mark n ≤ d.toNat ∧ d.toNat < utf8Mark n + 2 ^ utf8Bits n

instance (n : ℕ) (d : UInt8) : Decidable (IsLead n d) := inferInstanceAs (Decidable (_ ∧ _))

section Lead

variable {n : ℕ} {d : UInt8}

theorem isLead_one : IsLead 1 d ↔ d &&& 0x80 = 0 := by
  have h : ∀ d, IsLead 1 d ↔ d &&& 0x80 = 0 := forall_byte (by decide +kernel)
  exact h d

/-- **What the reader makes of a first byte**: the number of bytes and the bits of the number. -/
theorem isLead_first (hlow : 2 ≤ n) (hhigh : n ≤ 6) (hd : IsLead n d) :
    d &&& 0x80 ≠ 0 ∧ utf8First d = n + 1 ∧
      (d.toUInt32 &&& utf8B1masks.getD (n - 2) 0).toNat = d.toNat - utf8Mark n := by
  have h : ∀ d, ∀ m : Fin 5, IsLead (m + 2) d → d &&& 0x80 ≠ 0 ∧ utf8First d = m + 2 + 1 ∧
      (d.toUInt32 &&& utf8B1masks.getD m 0).toNat = d.toNat - utf8Mark (m + 2) :=
    forall_byte (by decide +kernel)
  have hm := h d ⟨n - 2, by omega⟩
  simp only [show n - 2 + 2 = n by omega] at hm
  exact hm hd

theorem first_isLead (h1 : d &&& 0x80 ≠ 0) (hfirst : ¬(utf8First d < 3 ∨ utf8First d = 8)) :
    ∃ n, 2 ≤ n ∧ n ≤ 6 ∧ IsLead n d := by
  have h : ∀ d, d &&& 0x80 ≠ 0 → ¬(utf8First d < 3 ∨ utf8First d = 8) →
      ∃ m : Fin 5, IsLead (m + 2) d := forall_byte (by decide +kernel)
  obtain ⟨m, hm⟩ := h d h1 hfirst
  exact ⟨m + 2, Nat.le_add_left 2 m, by omega, hm⟩

theorem utf8Skip_lead (hhigh : n ≤ 6) (hpos : 1 ≤ n) (hd : IsLead n d) : utf8Skip d = n - 1 := by
  rw [utf8Skip]
  by_cases hone : n = 1
  · subst hone
    exact if_pos (isLead_one.mp hd)
  · obtain ⟨h1, hfirst, -⟩ := isLead_first (by omega) hhigh hd
    rw [if_neg h1, if_pos (by omega), hfirst]
    omega

end Lead

/-! ### The bytes behind it -/

section Tail

variable {r : ℕ} {d : UInt8} {ds : List UInt8}

theorem tailVal_cons (r : ℕ) (d : UInt8) (ds : List UInt8) :
    tailVal r (d :: ds) = tailVal (r * 64 + d.toNat % 64) ds := rfl

theorem tailVal_eq (r : ℕ) (ds : List UInt8) :
    tailVal r ds = r * 64 ^ ds.length + tailVal 0 ds := by
  induction ds generalizing r with
  | nil => simp [tailVal]
  | cons d ds ih =>
    rw [tailVal_cons, tailVal_cons, ih, ih (0 * 64 + _), length_cons, pow_succ']
    ring

theorem tailVal_lt (ds : List UInt8) : tailVal 0 ds < 64 ^ ds.length := by
  induction ds with
  | nil => simp [tailVal]
  | cons d ds ih =>
    have hmul : d.toNat % 64 * 64 ^ ds.length + 64 ^ ds.length ≤ 64 * 64 ^ ds.length := by
      rw [← Nat.succ_mul]
      exact Nat.mul_le_mul_right _ (Nat.mod_lt _ (by decide))
    rw [tailVal_cons, tailVal_eq, Nat.zero_mul, Nat.zero_add, length_cons, pow_succ']
    omega

/-- **The bytes are determined** by the number. -/
theorem tailVal_inj {r' : ℕ} {ds' : List UInt8} (hlen : ds.length = ds'.length)
    (h : ∀ d ∈ ds, (0x80 : UInt8) ≤ d ∧ d < 0xc0) (h' : ∀ d ∈ ds', (0x80 : UInt8) ≤ d ∧ d < 0xc0)
    (heq : tailVal r ds = tailVal r' ds') : r = r' ∧ ds = ds' := by
  induction ds generalizing r r' ds' with
  | nil =>
    obtain rfl := length_eq_zero_iff.mp hlen.symm
    exact ⟨heq, rfl⟩
  | cons d ds ih =>
    cases ds' with
    | nil => cases hlen
    | cons d' ds' =>
      rw [forall_mem_cons] at h h'
      obtain ⟨hr, hds⟩ := ih (Nat.succ.inj hlen) h.2 h'.2 heq
      dsimp only at hr
      have hd : d = d' := by
        rw [← UInt8.toNat_inj]
        simp only [UInt8.le_iff_toNat_le, UInt8.lt_iff_toNat_lt, UInt8.reduceToNat] at h h'
        omega
      exact ⟨by omega, by rw [hd, hds]⟩

theorem utf8_tailByte (d : UInt8) :
    (d.toUInt32 &&& 0xc0 ≠ 0x80 ↔ ¬(0x80 ≤ d ∧ d < 0xc0)) ∧
      (d.toUInt32 &&& ~~~0xc0).toNat = d.toNat % 64 := by
  have h : ∀ d : UInt8, (d.toUInt32 &&& 0xc0 ≠ 0x80 ↔ ¬(0x80 ≤ d ∧ d < 0xc0)) ∧
      (d.toUInt32 &&& ~~~0xc0).toNat = d.toNat % 64 := forall_byte (by decide +kernel)
  exact h d

theorem utf8_shift {r : UInt32} (hr : r.toNat * 64 + 63 < 2 ^ 32) (d : UInt8) :
    ((r <<< 6) ||| (d.toUInt32 &&& ~~~0xc0)).toNat = r.toNat * 64 + d.toNat % 64 := by
  have hlt : d.toNat % 64 < 2 ^ 6 := Nat.mod_lt _ (by decide)
  have hsix : (6 : UInt32).toNat % 32 = 6 := rfl
  rw [UInt32.toNat_or, UInt32.toNat_shiftLeft, (utf8_tailByte d).2, hsix, Nat.shiftLeft_eq,
    Nat.mod_eq_of_lt (by omega)]
  exact mul_or r.toNat hlt

/-- **The loop reads the bytes behind the first one.** -/
theorem utf8Loop_tail {n : ℕ} {u : UInt32} (h : ∀ d ∈ ds, (0x80 : UInt8) ≤ d ∧ d < 0xc0)
    (hval : tailVal u.toNat ds < 2 ^ 32) (more : List UInt8) :
    utf8Loop n ds.length (ds ++ more) u =
      some (.char n (UInt32.ofNat (tailVal u.toNat ds))) := by
  induction ds generalizing u with
  | nil =>
    rw [length_nil, utf8Loop, tailVal, foldl_nil, UInt32.ofNat_toNat]
  | cons d ds ih =>
    rw [forall_mem_cons] at h
    have hr : u.toNat * 64 + 63 < 2 ^ 32 := by
      rw [tailVal_cons, tailVal_eq] at hval
      have hone : 1 ≤ 64 ^ ds.length := Nat.one_le_pow _ _ (by decide)
      have hmul := Nat.mul_le_mul_left (u.toNat * 64 + d.toNat % 64) hone
      omega
    have hstep := utf8_shift hr d
    have hcont : ¬d.toUInt32 &&& 0xc0 ≠ 0x80 := by
      rw [(utf8_tailByte d).1]
      exact not_not.mpr h.1
    rw [length_cons, cons_append, utf8Loop, if_neg hcont, tailVal_cons, ← hstep]
    exact ih h.2 (by rwa [hstep])

theorem utf8Loop_char {n m k : ℕ} {u v : UInt32} (h : utf8Loop n k ds u = some (.char m v)) :
    m = n ∧ ∃ tail more, ds = tail ++ more ∧ tail.length = k ∧
      ∀ d ∈ tail, (0x80 : UInt8) ≤ d ∧ d < 0xc0 := by
  induction k generalizing ds u with
  | zero =>
    rw [utf8Loop] at h
    obtain ⟨rfl, -⟩ := Utf8Res.char.inj (some.inj h)
    exact ⟨rfl, [], ds, rfl, rfl, by simp⟩
  | succ k ih =>
    cases ds with
    | nil => cases h
    | cons d ds =>
      rw [utf8Loop] at h
      split at h
      · cases h
      · next hcont =>
          rw [(utf8_tailByte d).1, not_not] at hcont
          obtain ⟨hm, tail, more, rfl, hlen, htail⟩ := ih h
          refine ⟨hm, d :: tail, more, rfl, by rw [length_cons, hlen], ?_⟩
          exact forall_mem_cons.mpr ⟨hcont, htail⟩

end Tail

/-! ### Reading sequences -/

section Sequences

variable {q q' : Utf8Seq} {s more : List UInt8} {len n : ℕ} {val : UInt32}

namespace Utf8Seq

theorem length_bytes (q : Utf8Seq) : q.bytes.length = q.len := length_cons

theorem isLead (q : Utf8Seq) : IsLead q.len q.first := q.lead

theorem val_lt (q : Utf8Seq) : q.val < 2 ^ 31 := by
  have hlead := q.lead
  have hsize := q.size
  have hlt := tailVal_lt q.rest
  rw [val, tailVal_eq]
  obtain ⟨k, hk⟩ : ∃ k, k = q.rest.length := ⟨_, rfl⟩
  simp only [len, ← hk] at hlead hsize hlt ⊢
  have hcases : k = 0 ∨ k = 1 ∨ k = 2 ∨ k = 3 ∨ k = 4 ∨ k = 5 := by omega
  rcases hcases with rfl | rfl | rfl | rfl | rfl | rfl
  all_goals
    simp [utf8Mark, utf8Bits] at hlead hlt ⊢
    omega

theorem bytes_inj (hlen : q.len = q'.len) (hval : q.val = q'.val) : q.bytes = q'.bytes := by
  obtain ⟨hfirst, hrest⟩ := tailVal_inj (Nat.succ.inj hlen) q.tail q'.tail hval
  have hlow := q.lead.1
  have hlow' := q'.lead.1
  have heq : q.first = q'.first := by
    rw [← UInt8.toNat_inj]
    rw [len, len] at hlen
    rw [len, len, hlen] at hfirst
    rw [hlen] at hlow
    omega
  rw [bytes, bytes, heq, hrest]

end Utf8Seq

/-- **A sequence is read**, with anything behind it. -/
theorem ffutf8Decode1_seq (q : Utf8Seq) (more : List UInt8) (hlen : q.len ≤ len) :
    ffutf8Decode1 (q.bytes ++ more) len = some (.char q.len (UInt32.ofNat q.val)) := by
  have hsize : q.len ≤ 6 := q.size
  by_cases hone : q.len = 1
  · have hnil : q.rest = [] := length_eq_zero_iff.mp (Nat.succ.inj hone)
    have hlead := q.isLead
    rw [hone, isLead_one] at hlead
    have hval : UInt32.ofNat q.val = q.first.toUInt32 := by
      rw [Utf8Seq.val, hnil, hone, utf8Mark, if_pos rfl, Nat.sub_zero, tailVal, foldl_nil]
      simp
    rw [hone, hval]
    exact if_pos hlead
  have hpos : 1 ≤ q.len := Nat.le_add_left 1 _
  obtain ⟨h1, hfirst, hbits⟩ := isLead_first (by omega) hsize q.isLead
  have hbad : ¬(utf8First q.first < 3 ∨ utf8First q.first = 8) := by omega
  have hval := q.val_lt
  rw [Utf8Seq.bytes, cons_append, ffutf8Decode1, if_neg h1, if_neg hbad]
  simp only [hfirst, Nat.add_sub_cancel, if_neg (Nat.not_lt.mpr hlen)]
  rw [Utf8Seq.val, ← hbits] at hval ⊢
  exact utf8Loop_tail q.tail (by omega) more

/-- **A sequence that is cut**: the reader tells how many bytes it needs. -/
theorem ffutf8Decode1_cut (q : Utf8Seq) (hpos : 0 < len) (hlen : len < q.len)
    (hmem : s.take len = q.bytes.take len) : ffutf8Decode1 s len = some (.more q.len) := by
  obtain ⟨k, rfl⟩ : ∃ k, len = k + 1 := ⟨len - 1, by omega⟩
  have hsize : q.len ≤ 6 := q.size
  cases s with
  | nil => cases hmem
  | cons d ds =>
    rw [Utf8Seq.bytes, take_succ_cons, take_succ_cons] at hmem
    obtain ⟨rfl, -⟩ := List.cons.inj hmem
    obtain ⟨h1, hfirst, -⟩ := isLead_first (by omega) hsize q.isLead
    have hbad : ¬(utf8First q.first < 3 ∨ utf8First q.first = 8) := by omega
    rw [ffutf8Decode1, if_neg h1, if_neg hbad]
    simp only [hfirst, Nat.add_sub_cancel, if_pos hlen]

theorem ffutf8Decode1_bytes (hpos : 0 < len) (h : ffutf8Decode1 s len = some (.char n val)) :
    ∃ (q : Utf8Seq) (more : List UInt8), s = q.bytes ++ more ∧ q.len = n ∧ n ≤ len := by
  cases s with
  | nil => cases h
  | cons d ds =>
    rw [ffutf8Decode1] at h
    split at h
    · next h1 =>
        obtain ⟨rfl, -⟩ := Utf8Res.char.inj (some.inj h)
        exact ⟨⟨d, [], by decide, isLead_one.mpr h1, by simp⟩, ds, rfl, rfl, hpos⟩
    next h1 =>
      split at h
      · cases h
      next hbad =>
        obtain ⟨m, hlow, hhigh, hlead⟩ := first_isLead h1 hbad
        obtain ⟨-, hfirst, -⟩ := isLead_first hlow hhigh hlead
        simp only [hfirst, Nat.add_sub_cancel] at h
        split at h
        · cases h
        · obtain ⟨rfl, tail, more, rfl, hlen, htail⟩ := utf8Loop_char h
          have hm : tail.length + 1 = n := by omega
          exact ⟨⟨d, tail, by omega, by rw [hm]; exact hlead, htail⟩, more, rfl, hm, by omega⟩

/-- **What the reader takes is a sequence** and its number. -/
theorem ffutf8Decode1_char (hpos : 0 < len) (h : ffutf8Decode1 s len = some (.char n val)) :
    ∃ (q : Utf8Seq) (more : List UInt8), s = q.bytes ++ more ∧ q.len = n ∧
      val = UInt32.ofNat q.val := by
  obtain ⟨q, more, rfl, rfl, hlen⟩ := ffutf8Decode1_bytes hpos h
  have hread := ffutf8Decode1_seq q more hlen
  rw [h] at hread
  exact ⟨q, more, rfl, rfl, (Utf8Res.char.inj (some.inj hread)).2⟩

/-! ### Step by step -/

/-- The text of sequences. -/
def seqsText (qs : List Utf8Seq) : List UInt8 := qs.flatMap Utf8Seq.bytes

theorem seq_drop (q : Utf8Seq) (more : List UInt8) : (q.rest ++ more).drop (q.len - 1) = more := by
  rw [Utf8Seq.len, Nat.add_sub_cancel, drop_left]

theorem utf8Steps_cons (q : Utf8Seq) (more : List UInt8) :
    utf8Steps (q.bytes ++ more) =
      (utf8Steps more).map ((q.len, UInt32.ofNat q.val) :: ·) := by
  have hlen : q.len ≤ (q.rest ++ more).length + 1 := by
    rw [Utf8Seq.len, length_append]
    omega
  have hread := ffutf8Decode1_seq q more hlen
  rw [Utf8Seq.bytes, cons_append] at hread ⊢
  rw [utf8Steps]
  simp only [hread]
  rw [seq_drop]

/-- **Sequences are read step by step.** -/
theorem utf8Steps_seqs (qs : List Utf8Seq) :
    utf8Steps (seqsText qs) = some (qs.map fun q => (q.len, UInt32.ofNat q.val)) := by
  induction qs with
  | nil => exact utf8Steps.eq_1
  | cons q qs ih =>
    rw [seqsText, flatMap_cons, ← seqsText, utf8Steps_cons, ih, map_some, map_cons]

/-- **What is read step by step are sequences.** -/
theorem utf8Steps_some {steps : List (ℕ × UInt32)} (h : utf8Steps s = some steps) :
    ∃ qs, s = seqsText qs ∧ steps = qs.map fun q => (q.len, UInt32.ofNat q.val) := by
  induction s using utf8Steps.induct generalizing steps with
  | case1 =>
    rw [utf8Steps] at h
    exact ⟨[], rfl, (some.inj h).symm⟩
  | case2 d ds n val hread ih =>
    rw [utf8Steps, hread] at h
    obtain ⟨q, more, hs, rfl, rfl⟩ := ffutf8Decode1_char (Nat.succ_pos _) hread
    have htail : ds = q.rest ++ more := (List.cons.inj hs).2
    obtain ⟨steps', hsteps, rfl⟩ := map_eq_some_iff.mp h
    rw [htail, seq_drop] at hsteps ih
    obtain ⟨qs, rfl, rfl⟩ := ih hsteps
    exact ⟨q :: qs, hs, rfl⟩
  | case3 d ds hread =>
    rw [utf8Steps] at h
    split at h
    · next hchar => exact absurd hchar (hread _ _)
    · cases h

/-- **A text is valid** if it can be read step by step. -/
theorem ffutf8Valid_eq (s : List UInt8) : ffutf8Valid s = (utf8Steps s).isSome := by
  induction s using utf8Steps.induct with
  | case1 =>
    rw [utf8Steps, ffutf8Valid]
    rfl
  | case2 d ds n val hread ih =>
    rw [utf8Steps, ffutf8Valid]
    simp only [hread, ih, Option.isSome_map]
  | case3 d ds hread =>
    rw [utf8Steps, ffutf8Valid]
    split
    · next hchar => exact absurd hchar (hread _ _)
    · rfl

theorem ffutf8Len_seqs (qs : List Utf8Seq) : ffutf8Len (seqsText qs) = qs.length := by
  induction qs with
  | nil => exact ffutf8Len.eq_1
  | cons q qs ih =>
    have hskip : utf8Skip q.first = q.len - 1 :=
      utf8Skip_lead q.size (Nat.le_add_left 1 _) q.isLead
    rw [seqsText, flatMap_cons, ← seqsText, Utf8Seq.bytes, cons_append, ffutf8Len]
    rw [hskip, seq_drop, ih, length_cons]

end Sequences

/-! ### The writer -/

/-- The bytes behind the first one, for a number. -/
@[grind =] def utf8Rest (c : ℕ) : ℕ → List UInt8
  | 0 => []
  | k + 1 => UInt8.ofNat (c / 64 ^ k % 64 + 0x80) :: utf8Rest c k

section Write

variable {c : UInt32} {cap : ℕ}

theorem length_utf8Rest (c k : ℕ) : (utf8Rest c k).length = k := by
  induction k with
  | zero => rfl
  | succ k ih => rw [utf8Rest, length_cons, ih]

theorem utf8Rest_tail (c k : ℕ) : ∀ d ∈ utf8Rest c k, (0x80 : UInt8) ≤ d ∧ d < 0xc0 := by
  induction k with
  | zero => simp [utf8Rest]
  | succ k ih =>
    rw [utf8Rest, forall_mem_cons]
    refine ⟨?_, ih⟩
    simp only [UInt8.le_iff_toNat_le, UInt8.lt_iff_toNat_lt, UInt8.toNat_ofNat', UInt8.reduceToNat]
    omega

theorem tailVal_utf8Rest (c k : ℕ) : tailVal (c / 64 ^ k) (utf8Rest c k) = c := by
  induction k with
  | zero => exact Nat.div_one c
  | succ k ih =>
    have hbyte : (UInt8.ofNat (c / 64 ^ k % 64 + 0x80)).toNat % 64 = c / 64 ^ k % 64 := by
      rw [UInt8.toNat_ofNat']
      omega
    have hdiv : c / 64 ^ (k + 1) * 64 + c / 64 ^ k % 64 = c / 64 ^ k := by
      rw [pow_succ, ← Nat.div_div_eq_div_mul]
      omega
    rw [utf8Rest, tailVal_cons, hbyte, hdiv, ih]

theorem ffutf8Size_cases (hc : c < 0x80000000) :
    (ffutf8Size c = 1 ∧ c.toNat < 0x80) ∨
    (ffutf8Size c = 2 ∧ 0x80 ≤ c.toNat ∧ c.toNat < 0x800) ∨
    (ffutf8Size c = 3 ∧ 0x800 ≤ c.toNat ∧ c.toNat < 0x10000) ∨
    (ffutf8Size c = 4 ∧ 0x10000 ≤ c.toNat ∧ c.toNat < 0x200000) ∨
    (ffutf8Size c = 5 ∧ 0x200000 ≤ c.toNat ∧ c.toNat < 0x4000000) ∨
    (ffutf8Size c = 6 ∧ 0x4000000 ≤ c.toNat ∧ c.toNat < 0x80000000) := by
  simp only [ffutf8Size, UInt32.lt_iff_toNat_lt, UInt32.reduceToNat] at hc ⊢
  split
  · omega
  split
  · omega
  split
  · omega
  split
  · omega
  split
  · omega
  · omega

theorem ffutf8Encode1_form {k : ℕ} (hc : c < 0x80000000) (hk : ffutf8Size c = k + 1)
    (hcap : ffutf8Size c ≤ cap) : ffutf8Encode1 cap c =
      UInt8.ofNat (c.toNat / 64 ^ k + utf8Mark (k + 1)) :: utf8Rest c.toNat k := by
  have hfull : ¬cap < ffutf8Size c := Nat.not_lt.mpr hcap
  have htail : ∀ {n : UInt32} {j : ℕ}, n.toNat = 6 * j → 6 * j < 32 →
      utf8Tail c n = UInt8.ofNat (c.toNat / 64 ^ j % 64 + 0x80) := by
    intro n j hn hj
    have hpow : (64 : ℕ) ^ j = 2 ^ (6 * j) := (pow_mul 2 6 j).symm
    rw [hpow]
    exact utf8Tail_eq c hn hj
  have hhead : ∀ {b n : UInt32} {j m : ℕ}, n.toNat = 6 * k → b.toNat = 2 ^ j * m →
      c.toNat / 2 ^ (6 * k) < 2 ^ j → 6 * k < 32 → b.toNat = utf8Mark (k + 1) →
      utf8Head b c n = UInt8.ofNat (c.toNat / 64 ^ k + utf8Mark (k + 1)) := by
    intro b n j m hn hb hlt hk' hmark
    have hpow : (64 : ℕ) ^ k = 2 ^ (6 * k) := (pow_mul 2 6 k).symm
    rw [hpow, ← hmark]
    exact utf8Head_eq c hn hk' hb hlt
  rw [ffutf8Encode1, if_neg hfull]
  rcases ffutf8Size_cases hc with h | h | h | h | h | h
  · obtain rfl : k = 0 := Nat.succ.inj (hk.symm.trans h.1)
    rw [h.1, utf8Rest, pow_zero, Nat.div_one, utf8Mark, if_pos rfl, Nat.add_zero]
    rfl
  · obtain rfl : k = 1 := Nat.succ.inj (hk.symm.trans h.1)
    have h0 : utf8Head 0xc0 c 6 = _ := @hhead _ _ 5 6 rfl rfl (by omega) (by decide) rfl
    have h1 : utf8Tail c 0 = _ := @htail _ 0 rfl (by decide)
    rw [h.1]
    simp only [h0, h1, utf8Rest]
  · obtain rfl : k = 2 := Nat.succ.inj (hk.symm.trans h.1)
    have h0 : utf8Head 0xe0 c 12 = _ := @hhead _ _ 4 14 rfl rfl (by omega) (by decide) rfl
    have h1 : utf8Tail c 6 = _ := @htail _ 1 rfl (by decide)
    have h2 : utf8Tail c 0 = _ := @htail _ 0 rfl (by decide)
    rw [h.1]
    simp only [h0, h1, h2, utf8Rest]
  · obtain rfl : k = 3 := Nat.succ.inj (hk.symm.trans h.1)
    have h0 : utf8Head 0xf0 c 18 = _ := @hhead _ _ 3 30 rfl rfl (by omega) (by decide) rfl
    have h1 : utf8Tail c 12 = _ := @htail _ 2 rfl (by decide)
    have h2 : utf8Tail c 6 = _ := @htail _ 1 rfl (by decide)
    have h3 : utf8Tail c 0 = _ := @htail _ 0 rfl (by decide)
    rw [h.1]
    simp only [h0, h1, h2, h3, utf8Rest]
  · obtain rfl : k = 4 := Nat.succ.inj (hk.symm.trans h.1)
    have h0 : utf8Head 0xf8 c 24 = _ := @hhead _ _ 2 62 rfl rfl (by omega) (by decide) rfl
    have h1 : utf8Tail c 18 = _ := @htail _ 3 rfl (by decide)
    have h2 : utf8Tail c 12 = _ := @htail _ 2 rfl (by decide)
    have h3 : utf8Tail c 6 = _ := @htail _ 1 rfl (by decide)
    have h4 : utf8Tail c 0 = _ := @htail _ 0 rfl (by decide)
    rw [h.1]
    simp only [h0, h1, h2, h3, h4, utf8Rest]
  obtain rfl : k = 5 := Nat.succ.inj (hk.symm.trans h.1)
  have h0 : utf8Head 0xfc c 30 = _ := @hhead _ _ 1 126 rfl rfl (by omega) (by decide) rfl
  have h1 : utf8Tail c 24 = _ := @htail _ 4 rfl (by decide)
  have h2 : utf8Tail c 18 = _ := @htail _ 3 rfl (by decide)
  have h3 : utf8Tail c 12 = _ := @htail _ 2 rfl (by decide)
  have h4 : utf8Tail c 6 = _ := @htail _ 1 rfl (by decide)
  have h5 : utf8Tail c 0 = _ := @htail _ 0 rfl (by decide)
  rw [h.1]
  simp only [h0, h1, h2, h3, h4, h5, utf8Rest]

/-- **The sequence of a number**, in the shortest form. -/
theorem ffutf8Encode1_bytes (hc : c < 0x80000000) (hcap : ffutf8Size c ≤ cap) :
    ∃ q : Utf8Seq, ffutf8Encode1 cap c = q.bytes ∧ q.len = ffutf8Size c ∧ q.val = c.toNat := by
  obtain ⟨k, hk⟩ : ∃ k, ffutf8Size c = k + 1 := by
    rcases ffutf8Size_cases hc with h | h | h | h | h | h
    all_goals exact ⟨ffutf8Size c - 1, by omega⟩
  have hlen := length_utf8Rest c.toNat k
  have hform := ffutf8Encode1_form hc hk hcap
  have hlead : IsLead (k + 1) (UInt8.ofNat (c.toNat / 64 ^ k + utf8Mark (k + 1))) ∧
      (UInt8.ofNat (c.toNat / 64 ^ k + utf8Mark (k + 1))).toNat - utf8Mark (k + 1) =
        c.toNat / 64 ^ k ∧ k + 1 ≤ 6 := by
    rw [IsLead, UInt8.toNat_ofNat']
    rcases ffutf8Size_cases hc with h | h | h | h | h | h
    all_goals
      obtain rfl : k = _ := Nat.succ.inj (hk.symm.trans h.1)
      simp [utf8Mark, utf8Bits]
      omega
  obtain ⟨hfirst, hbits, hsize⟩ := hlead
  refine ⟨⟨_, utf8Rest c.toNat k, by rwa [hlen], by rw [hlen]; exact hfirst,
    utf8Rest_tail c.toNat k⟩, hform, ?_, ?_⟩
  · rw [Utf8Seq.len, hlen, hk]
  · change tailVal ((UInt8.ofNat _).toNat - utf8Mark ((utf8Rest c.toNat k).length + 1))
      (utf8Rest c.toNat k) = _
    rw [hlen, hbits, tailVal_utf8Rest]

end Write

end FF
