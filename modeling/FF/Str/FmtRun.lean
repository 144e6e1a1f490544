import FF.Str.Fmt

/-!
# The size of formatted text

What `ffs_fmtv2` writes and what it counts, and how this compares with the whole text.
-/

namespace FF

open List Option

/-! ### What it is for -/

/-- The text of a conversion. -/
def FmtBasic.text : FmtBasic → List UInt8
  | .copy bs => bs
  | .copyz bs => bs.takeWhile (· != 0)
  | .int num f => fromintText num.toNat f
  | .hex bs up => hexText bs up

/-- The text of what stands in the format. -/
def FmtItem.text (err : FErr) : FmtItem → List UInt8
  | .basic x => x.text
  | .err e => (errFmt e).flatMap FmtBasic.text ++ err.msg e
  | .bad => []

/-- **The whole text.** -/
def fmtText (err : FErr) (items : List FmtItem) : List UInt8 := items.flatMap (FmtItem.text err)

/-- **`ffs_fmtv2` returns `r`**, and the buffer `mem` holds `mem'` then. -/
def FfsFmtv2 (err : FErr) (fmt : List UInt8) (args : List FmtArg) (mem : List UInt8) (r : ℤ)
    (mem' : List UInt8) : Prop :=
  ∃ items, FmtReads err (fmt.takeWhile (· != 0)) args items ∧
    ffsFmtv2 err mem items = some (r, mem')

/-- **The text that a buffer without an end would receive.** -/
def FmtExpands (err : FErr) (fmt : List UInt8) (args : List FmtArg) (text : List UInt8) : Prop :=
  ∃ items, FmtReads err (fmt.takeWhile (· != 0)) args items ∧ .bad ∉ items ∧
    fmtText err items = text

/-- **What a caller relies on**: zero for a bad format; else the length of the whole text, which
has been written, or a size with which another call succeeds. -/
def FmtOk (err : FErr) (fmt : List UInt8) (args : List FmtArg) (cap : ℕ) : Prop :=
  ∀ mem : List UInt8, mem.length = cap → ∃ r mem', FfsFmtv2 err fmt args mem r mem' ∧
    ((∀ text, ¬FmtExpands err fmt args text) → r = 0) ∧
    ∀ text, FmtExpands err fmt args text →
      (0 ≤ r → r = text.length ∧ text.length ≤ cap ∧ mem'.take text.length = text) ∧
      (r < 0 → ∀ mem₂ : List UInt8, (mem₂.length : ℤ) = -r → ∃ mem₂',
        FfsFmtv2 err fmt args mem₂ text.length mem₂' ∧ mem₂'.take text.length = text)

/-! ### What is counted -/

/-- The number gets separators. -/
def intSeps (num : UInt64) (f : FromintFlags) : Prop :=
  f.sep1000 = true ∧ f.width = 0 ∧ 3 < digitCount f.base (fromintAbs num.toNat f)

instance (num : UInt64) (f : FromintFlags) : Decidable (intSeps num f) :=
  inferInstanceAs (Decidable (_ ∧ _ ∧ _))

/-- **The room that a conversion takes**, where `room` bytes are left. A number with separators
loses the byte of its sign; hexadecimal digits for which there is no room take none. -/
def FmtBasic.keep (room : ℕ) : FmtBasic → ℕ
  | .int num f =>
    let n := (fromintText num.toNat f).length
    if intSeps num f then
      if fromintMinus num.toNat f then
        if (room - 1) % 2 ^ 32 + 2 ≤ n then (room - 1) % 2 ^ 32 else n - 1
      else if room % 2 ^ 32 < n then room % 2 ^ 32 else n
    else min n room
  | .hex bs up => if (hexText bs up).length ≤ room then (hexText bs up).length else 0
  | x => min x.text.length room

/-- **The size that is counted**: for a number that comes to the end of the buffer, the larger one
of its width and the longest number without separators. -/
def FmtBasic.size (room : ℕ) : FmtBasic → ℕ
  | .int num f =>
    if FmtBasic.keep room (.int num f) ≠ room then FmtBasic.keep room (.int num f)
    else max f.width.toNat 20
  | x => x.text.length

/-- Zeros behind a sign fill up the room. -/
def FmtBasic.Over (room : ℕ) : FmtBasic → Prop
  | .int num f => FromintOver num.toNat room f
  | _ => False

/-- Where there is room, the number is written right. -/
def FmtBasic.Fits (room : ℕ) : FmtBasic → Prop
  | .int num f => intSeps num f → fromintMinus num.toNat f = false ∧
      (fromintText num.toNat f).length ≤ room % 2 ^ 32
  | _ => True

/-- The room and the size for the conversions of a format without `%E`. -/
def basicsSize : List FmtBasic → ℕ → ℕ
  | [], _ => 0
  | x :: xs, room => x.size room + basicsSize xs (room - x.keep room)

/-- The room that is taken. -/
def FmtItem.keep (err : FErr) (room : ℕ) : FmtItem → ℕ
  | .basic x => x.keep room
  | .err e => min (FmtItem.text err (.err e)).length room
  | .bad => 0

/-- The size that is counted: for `%E`, 255 if there is room for the number, but not for the
message. -/
def FmtItem.size (err : FErr) (room : ℕ) : FmtItem → ℕ
  | .basic x => x.size room
  | .err e =>
    let n := ((errFmt e).flatMap FmtBasic.text).length
    if n < room then
      if n + (err.msg e).length < room then n + (err.msg e).length else 255
    else basicsSize (errFmt e) room + 1 + (err.msg e).length
  | .bad => 0

/-- Zeros behind a sign fill up the room. -/
def FmtItem.Over (room : ℕ) : FmtItem → Prop
  | .basic x => x.Over room
  | _ => False

/-- Where there is room, the text is written right. -/
def FmtItem.Fits (room : ℕ) : FmtItem → Prop
  | .basic x => x.Fits room
  | _ => True

/-- The room that a format takes. -/
def fmtKeep (err : FErr) : List FmtItem → ℕ → ℕ
  | [], _ => 0
  | x :: items, room => x.keep err room + fmtKeep err items (room - x.keep err room)

/-- The size that is counted for a format. -/
def fmtSize (err : FErr) : List FmtItem → ℕ → ℕ
  | [], _ => 0
  | x :: items, room => x.size err room + fmtSize err items (room - x.keep err room)

/-- Zeros behind a sign fill up the room somewhere. -/
def FmtOver (err : FErr) : List FmtItem → ℕ → Prop
  | [], _ => False
  | .bad :: _, _ => False
  | x :: items, room => x.Over room ∨ FmtOver err items (room - x.keep err room)

/-- **No number with separators is negative**, nor in a room of `2 ^ 32` bytes or more that is too
small for it modulo `2 ^ 32`. -/
def FmtAllFit (err : FErr) : List FmtItem → ℕ → Prop
  | [], _ => True
  | x :: items, room => x.Fits room ∧ FmtAllFit err items (room - (x.text err).length)

/-- **The condition.** No zeros behind a sign fill up the room. The numbers with separators are
right where there is room for the whole text; where there is none, the buffer is filled up all the
same, and the size that is counted is enough for the text. -/
def FmtFits (err : FErr) (cap : ℕ) (items : List FmtItem) : Prop :=
  ¬FmtOver err items cap ∧ (.bad ∉ items →
    if (fmtText err items).length < cap then FmtAllFit err items cap
    else
      fmtKeep err items cap = cap ∧ fmtSize err items cap + 1 < 2 ^ 63 ∧
        (fmtText err items).length ≤ fmtSize err items cap ∧
        FmtAllFit err items (fmtSize err items cap + 1))

/-! ### The buffer -/

section Buffer

variable {mem bs : List UInt8} {pos : ℕ}

theorem length_fmtPut (h : pos + bs.length ≤ mem.length) :
    (fmtPut mem pos bs).length = mem.length := by
  rw [fmtPut, length_append, length_append, length_take, length_drop]
  omega

theorem take_fmtPut (h : pos ≤ mem.length) : (fmtPut mem pos bs).take pos = mem.take pos := by
  rw [fmtPut, append_assoc, take_append_of_le_length, take_take, Nat.min_self]
  rw [length_take]
  omega

/-- **What has been written.** -/
theorem take_fmtPut_add (h : pos ≤ mem.length) :
    (fmtPut mem pos bs).take (pos + bs.length) = mem.take pos ++ bs := by
  have hlen : (mem.take pos ++ bs).length = pos + bs.length := by
    rw [length_append, length_take]
    omega
  rw [fmtPut, ← hlen, take_left]

theorem drop_fmtPut (h : pos ≤ mem.length) :
    (fmtPut mem pos bs).drop pos = bs ++ mem.drop (pos + bs.length) := by
  rw [fmtPut, append_assoc]
  exact drop_left' (by rw [length_take]; omega)

end Buffer

/-! ### One conversion -/

section Basic

variable {x : FmtBasic} {room cap : ℕ} {b : FmtBuf} {num : UInt64} {f : FromintFlags}

theorem intSeps_iff : intSeps num f ↔
    f.sep1000 = true ∧ f.width = 0 ∧ 3 < (fromintPs num.toNat f).length := by
  rw [intSeps, (fromintPs_spec num.toNat_lt f).1]

theorem length_pos_fromintText (hseps : intSeps num f) :
    3 < (fromintText num.toNat f).length := by
  obtain ⟨hs, hw, hlong⟩ := intSeps_iff.mp hseps
  have hlen := length_fromintText num.toNat_lt f
  rw [fromintSize, if_pos (And.intro hs hw), ← (fromintPs_spec num.toNat_lt f).1] at hlen
  omega

/-- **What a number takes** -/
theorem keep_int (room : ℕ) (num : UInt64) (f : FromintFlags) :
    FmtBasic.keep room (.int num f) =
      if intSeps num f then
        if fromintMinus num.toNat f then
          if (room - 1) % 2 ^ 32 + 2 ≤ (fromintText num.toNat f).length then
            (room - 1) % 2 ^ 32
          else (fromintText num.toNat f).length - 1
        else if room % 2 ^ 32 < (fromintText num.toNat f).length then room % 2 ^ 32
        else (fromintText num.toNat f).length
      else min (fromintText num.toNat f).length room := rfl

theorem keep_le (x : FmtBasic) (room : ℕ) : x.keep room ≤ min x.text.length room := by
  cases x with
  | copy bs => exact le_rfl
  | copyz bs => exact le_rfl
  | int num f =>
    rw [keep_int, FmtBasic.text]
    split
    · split
      · split <;> omega
      · split <;> omega
    · exact le_rfl
  | hex bs up =>
    change (if (hexText bs up).length ≤ room then (hexText bs up).length else 0) ≤
      min (hexText bs up).length room
    split
    · omega
    · omega

/-- **Where a conversion fits**, it takes its text. -/
theorem keep_fits (hfits : x.Fits room) (hroom : x.text.length ≤ room) :
    x.keep room = x.text.length := by
  cases x with
  | copy bs => exact Nat.min_eq_left hroom
  | copyz bs => exact Nat.min_eq_left hroom
  | int num f =>
    rw [keep_int, FmtBasic.text]
    by_cases hseps : intSeps num f
    · obtain ⟨hm, hmod⟩ := hfits hseps
      rw [if_pos hseps, hm, if_neg Bool.false_ne_true, if_neg (not_lt.mpr hmod)]
    · rw [if_neg hseps]
      exact Nat.min_eq_left hroom
  | hex bs up => exact if_pos hroom

/-- **Where it does not fit**, it takes less. -/
theorem keep_lt (hfits : ¬x.Fits room) : x.keep room < x.text.length := by
  cases x with
  | copy bs => exact absurd trivial hfits
  | copyz bs => exact absurd trivial hfits
  | int num f =>
    have hfits' : ¬(intSeps num f → fromintMinus num.toNat f = false ∧
      (fromintText num.toNat f).length ≤ room % 2 ^ 32) := hfits
    obtain ⟨hseps, hbad⟩ := Classical.not_imp.mp hfits'
    have hlong := length_pos_fromintText hseps
    rw [keep_int, if_pos hseps, FmtBasic.text]
    cases hm : fromintMinus num.toNat f with
    | true =>
      rw [if_pos rfl]
      split <;> omega
    | false =>
      have hmod : room % 2 ^ 32 < (fromintText num.toNat f).length :=
        not_le.mp fun h => hbad ⟨hm, h⟩
      rwa [if_neg Bool.false_ne_true, if_pos hmod]
  | hex bs up => exact absurd trivial hfits

theorem length_hexText (bs : List UInt8) (up : Bool) : (hexText bs up).length = bs.length * 2 := by
  induction bs with
  | nil => rfl
  | cons b bs ih =>
    rw [hexText, flatMap_cons, ← hexText, length_append, ih, length_cons]
    change 2 + bs.length * 2 = (bs.length + 1) * 2
    omega

/-- **A number** in a buffer: what is returned and what is written. -/
theorem fromint_room (hover : ¬FromintOver num.toNat room f) :
    ∃ bs, ffsFromintFlags num.toNat room f = some (FmtBasic.keep room (.int num f), bs) ∧
      bs.length ≤ room ∧
      (FmtBasic.Fits room (.int num f) → (fromintText num.toNat f).length ≤ room →
        bs = fromintText num.toNat f) := by
  have hi := num.toNat_lt
  rw [keep_int]
  by_cases hseps : intSeps num f
  · have hlong := length_pos_fromintText hseps
    rw [if_pos hseps]
    cases hm : fromintMinus num.toNat f with
    | true =>
      have hcall := @ffsFromintFlags_negSeps _ room _ hi (intSeps_iff.mp hseps) hm
      have hnofit : ¬FmtBasic.Fits room (.int num f) := fun h =>
        absurd (hm.symm.trans (h hseps).1) (by decide)
      rw [if_pos rfl]
      by_cases hroom : (room - 1) % 2 ^ 32 + 2 ≤ (fromintText num.toNat f).length
      · rw [if_pos hroom] at hcall
        refine ⟨if room ≠ 0 then [0x2d] else [], ?_, ?_, fun h => absurd h hnofit⟩
        · rw [if_pos hroom]
          exact hcall
        · split
          · next h0 =>
            rw [length_singleton]
            omega
          · exact Nat.zero_le _
      · rw [if_neg hroom] at hcall
        refine ⟨fromintText num.toNat f, ?_, by omega, fun h => absurd h hnofit⟩
        rw [if_neg hroom]
        exact hcall
    | false =>
      have hcall := @ffsFromintFlags_seps _ room _ hi (intSeps_iff.mp hseps) hm
      rw [if_neg Bool.false_ne_true]
      by_cases hroom : room % 2 ^ 32 < (fromintText num.toNat f).length
      · rw [if_pos hroom] at hcall
        refine ⟨[], ?_, Nat.zero_le _, fun h => ?_⟩
        · rw [if_pos hroom]
          exact hcall
        · exact absurd (h hseps).2 (not_le.mpr hroom)
      · rw [if_neg hroom] at hcall
        refine ⟨_, ?_, by omega, fun _ _ => rfl⟩
        rw [if_neg hroom]
        exact hcall
  · have hcall := @ffsFromintFlags_fill _ room _ hi (mt intSeps_iff.mpr hseps) hover
    rw [length_take, Nat.min_comm] at hcall
    rw [if_neg hseps]
    refine ⟨_, hcall, ?_, fun _ hfit => take_of_length_le hfit⟩
    rw [length_take]
    exact Nat.min_le_left _ _

theorem fromint_over (hover : FromintOver num.toNat room f) :
    ffsFromintFlags num.toNat room f = none := by
  have hnosep : ¬(f.sep1000 = true ∧ f.width = 0 ∧ 3 < (fromintPs num.toNat f).length) := by
    rintro ⟨-, hw, -⟩
    obtain ⟨-, -, hwidth, -⟩ := hover
    rw [hw] at hwidth
    exact Nat.not_lt_zero _ hwidth
  rw [ffsFromintFlags_nosep hnosep, fromintFill_over hover]

theorem fmtBasic_over (hover : x.Over (cap - b.pos)) : fmtBasic cap b x = none := by
  cases x with
  | int num f =>
    rw [fmtBasic, fromint_over hover]
    rfl
  | copy bs => exact hover.elim
  | copyz bs => exact hover.elim
  | hex bs up => exact hover.elim

/-- **One conversion**: the room it takes, the size it counts, and its text where it fits. -/
theorem fmtBasic_spec (hover : ¬x.Over (cap - b.pos)) (hpos : b.pos ≤ cap)
    (hmem : b.mem.length = cap) :
    ∃ mem', fmtBasic cap b x = some ⟨mem', b.pos + x.keep (cap - b.pos),
        b.len + x.size (cap - b.pos)⟩ ∧
      mem'.length = cap ∧ mem'.take b.pos = b.mem.take b.pos ∧
      (x.Fits (cap - b.pos) → x.text.length ≤ cap - b.pos →
        mem'.take (b.pos + x.text.length) = b.mem.take b.pos ++ x.text) := by
  have hput : ∀ bs : List UInt8, bs.length ≤ cap - b.pos →
      (fmtPut b.mem b.pos bs).length = cap ∧
        (fmtPut b.mem b.pos bs).take b.pos = b.mem.take b.pos := fun bs hbs =>
    ⟨(length_fmtPut (by omega)).trans hmem, take_fmtPut (by omega)⟩
  cases x with
  | copy bs =>
    have hlen : (bs.take (min (cap - b.pos) bs.length)).length ≤ cap - b.pos := by
      rw [length_take]
      omega
    refine ⟨fmtPut b.mem b.pos (bs.take (min (cap - b.pos) bs.length)), ?_, (hput _ hlen).1,
      (hput _ hlen).2, fun _ hfit => ?_⟩
    · rw [fmtBasic, Nat.min_comm]
      rfl
    · have hfit' : bs.length ≤ cap - b.pos := hfit
      rw [Nat.min_eq_right hfit', take_length]
      exact take_fmtPut_add (by omega)
  | copyz bs =>
    obtain ⟨s, hs⟩ : ∃ s, s = bs.takeWhile (· != 0) := ⟨_, rfl⟩
    have hlen : (s.take (min (cap - b.pos) s.length)).length ≤ cap - b.pos := by
      rw [length_take]
      omega
    refine ⟨fmtPut b.mem b.pos (s.take (min (cap - b.pos) s.length)), ?_, (hput _ hlen).1,
      (hput _ hlen).2, fun _ hfit => ?_⟩
    · have hsize : (if b.pos + min (cap - b.pos) s.length ≠ cap then min (cap - b.pos) s.length
          else s.length) = s.length := by
        split
        · omega
        · rfl
      have hkeep : FmtBasic.keep (cap - b.pos) (.copyz bs) = min (cap - b.pos) s.length := by
        rw [hs, Nat.min_comm]
        rfl
      have hlen' : FmtBasic.size (cap - b.pos) (.copyz bs) = s.length := by
        rw [hs]
        rfl
      rw [fmtBasic, hkeep, hlen', ← hs, hsize]
    · rw [FmtBasic.text, ← hs] at hfit ⊢
      rw [Nat.min_eq_right hfit, take_length]
      exact take_fmtPut_add (by omega)
  | int num f =>
    obtain ⟨bs, hcall, hlen, htext⟩ := fromint_room hover
    refine ⟨fmtPut b.mem b.pos bs, ?_, (hput _ hlen).1, (hput _ hlen).2, fun hfits hfit => ?_⟩
    · have hend : b.pos + FmtBasic.keep (cap - b.pos) (.int num f) ≠ cap ↔
          FmtBasic.keep (cap - b.pos) (.int num f) ≠ cap - b.pos := by omega
      rw [fmtBasic, hcall, map_some]
      rw [if_congr hend rfl rfl]
      rfl
    · rw [htext hfits hfit]
      exact take_fmtPut_add (by omega)
  | hex bs up =>
    have hdigits := length_hexText bs up
    have hlen : (ffsHexstr (cap - b.pos) bs up).length ≤ cap - b.pos := by
      rw [ffsHexstr]
      split
      · exact Nat.zero_le _
      · omega
    refine ⟨fmtPut b.mem b.pos (ffsHexstr (cap - b.pos) bs up), ?_, (hput _ hlen).1,
      (hput _ hlen).2, fun _ hfit => ?_⟩
    · have hkeep : (if b.pos ≠ cap then b.pos + (ffsHexstr (cap - b.pos) bs up).length
          else b.pos) = b.pos + FmtBasic.keep (cap - b.pos) (.hex bs up) := by
        change _ = b.pos + if (hexText bs up).length ≤ cap - b.pos then _ else 0
        rw [ffsHexstr]
        by_cases hroom : cap - b.pos < bs.length * 2
        · have hno : ¬(hexText bs up).length ≤ cap - b.pos := by omega
          rw [if_pos hroom, if_neg hno]
          split <;> rfl
        · have hyes : (hexText bs up).length ≤ cap - b.pos := by omega
          rw [if_neg hroom, if_pos hyes]
          split <;> omega
      have hsize : bs.length * 2 = FmtBasic.size (cap - b.pos) (.hex bs up) := hdigits.symm
      rw [fmtBasic, ← hkeep, ← hsize]
    · have hroom : ¬cap - b.pos < bs.length * 2 := by
        rw [FmtBasic.text] at hfit
        omega
      rw [ffsHexstr, if_neg hroom]
      exact take_fmtPut_add (by omega)

/-- A conversion that always takes what there is room for. -/
def FmtBasic.Simple (x : FmtBasic) : Prop :=
  ∀ room, x.keep room = min x.text.length room ∧ ¬x.Over room ∧ x.Fits room

theorem errFmt_simple (e : UInt32) : ∀ x ∈ errFmt e, x.Simple := by
  have hcopy : ∀ bs, FmtBasic.Simple (.copy bs) := fun bs room => ⟨rfl, id, trivial⟩
  have hint : FmtBasic.Simple (.int e.toUInt64 {}) := by
    have hseps : ¬intSeps e.toUInt64 {} := fun h => Bool.false_ne_true h.1
    intro room
    refine ⟨?_, fun h => Bool.false_ne_true h.1, fun h => absurd h hseps⟩
    rw [keep_int, if_neg hseps]
    rfl
  intro x hx
  simp only [errFmt, mem_cons, not_mem_nil, or_false] at hx
  rcases hx with rfl | rfl | rfl | rfl
  · exact hcopy _
  · exact hint
  · exact hcopy _
  · exact hcopy _

/-- **The conversions of a format** without `%E`. -/
theorem fmtBasics_spec (xs : List FmtBasic) (hsimple : ∀ x ∈ xs, x.Simple) (hpos : b.pos ≤ cap)
    (hmem : b.mem.length = cap) :
    ∃ mem', fmtBasics cap b xs = some ⟨mem',
        b.pos + min (xs.flatMap FmtBasic.text).length (cap - b.pos),
        b.len + basicsSize xs (cap - b.pos)⟩ ∧
      mem'.length = cap ∧ mem'.take b.pos = b.mem.take b.pos ∧
      ((xs.flatMap FmtBasic.text).length ≤ cap - b.pos →
        mem'.take (b.pos + (xs.flatMap FmtBasic.text).length) =
          b.mem.take b.pos ++ xs.flatMap FmtBasic.text) := by
  induction xs generalizing b with
  | nil =>
    refine ⟨b.mem, ?_, hmem, rfl, fun _ => ?_⟩
    · rw [flatMap_nil, length_nil, Nat.zero_min]
      rfl
    · rw [flatMap_nil, length_nil, append_nil, Nat.add_zero]
  | cons x xs ih =>
    obtain ⟨hkeep, hover, hfits⟩ := hsimple x mem_cons_self (cap - b.pos)
    obtain ⟨mem₁, hstep, hlen₁, hfront₁, htext₁⟩ := fmtBasic_spec hover hpos hmem
    obtain ⟨mem₂, hrest, hlen₂, hfront₂, htext₂⟩ := @ih ⟨mem₁, b.pos + x.keep (cap - b.pos),
      b.len + x.size (cap - b.pos)⟩ (fun y hy => hsimple y (mem_cons_of_mem x hy))
      (by dsimp only; omega) hlen₁
    dsimp only at hrest hfront₂ htext₂
    refine ⟨mem₂, ?_, hlen₂, ?_, fun hfit => ?_⟩
    · rw [fmtBasics, hstep, bind_some, hrest, basicsSize, flatMap_cons, length_append]
      congr 2
      · omega
      · rw [Nat.add_assoc, Nat.sub_add_eq]
    · have hsub := congrArg (List.take b.pos) hfront₂
      rw [take_take, take_take, Nat.min_eq_left (Nat.le_add_right _ _)] at hsub
      rw [hsub, hfront₁]
    · rw [flatMap_cons, length_append] at hfit ⊢
      have hx : x.keep (cap - b.pos) = x.text.length := by omega
      rw [hx] at htext₂
      rw [← Nat.add_assoc, htext₂ (by omega), htext₁ hfits (by omega), append_assoc]

end Basic

/-! ### One item -/

section Item

variable {err : FErr} {cap : ℕ} {b : FmtBuf}

theorem takeWhile_msg (err : FErr) (e : UInt32) (bs : List UInt8) :
    (err.msg e ++ 0 :: bs).takeWhile (· != 0) = err.msg e := by
  have hall : ∀ c ∈ err.msg e, (c != 0) = true := by
    intro c hc
    refine bne_iff_ne.mpr fun h0 => err.msg_nonzero e ?_
    rwa [← h0]
  rw [takeWhile_append_of_pos hall]
  simp

/-- **`%E`**: the number and the message, or the place at the end of the buffer. -/
theorem fmtErr_spec (e : UInt32) (hpos : b.pos ≤ cap) (hmem : b.mem.length = cap) :
    ∃ mem', fmtErr err cap b e = some ⟨mem',
        b.pos + (FmtItem.err e).keep err (cap - b.pos),
        b.len + (FmtItem.err e).size err (cap - b.pos)⟩ ∧
      mem'.length = cap ∧ mem'.take b.pos = b.mem.take b.pos ∧
      (((FmtItem.err e).text err).length < cap - b.pos →
        mem'.take (b.pos + ((FmtItem.err e).text err).length) =
          b.mem.take b.pos ++ (FmtItem.err e).text err) := by
  obtain ⟨num, hnum⟩ : ∃ num, num = (errFmt e).flatMap FmtBasic.text := ⟨_, rfl⟩
  obtain ⟨mem₁, hbasics, hlen₁, hfront₁, htext₁⟩ := @fmtBasics_spec cap { b with len := 0 }
    (errFmt e) (errFmt_simple e) hpos hmem
  dsimp only at hbasics hfront₁ htext₁
  rw [← hnum] at hbasics htext₁
  have htext : (FmtItem.err e).text err = num ++ err.msg e := by rw [FmtItem.text, ← hnum]
  have hkeep : (FmtItem.err e).keep err (cap - b.pos) =
      min (num.length + (err.msg e).length) (cap - b.pos) := by
    rw [FmtItem.keep, htext, length_append]
  have hsize : (FmtItem.err e).size err (cap - b.pos) =
      if num.length < cap - b.pos then
        if num.length + (err.msg e).length < cap - b.pos then
          num.length + (err.msg e).length else 255
      else basicsSize (errFmt e) (cap - b.pos) + 1 + (err.msg e).length := by
    rw [FmtItem.size, ← hnum]
  rw [htext, hkeep, hsize, fmtErr, hbasics, map_some, length_append]
  by_cases hroom : num.length < cap - b.pos
  · have hmin : min num.length (cap - b.pos) = num.length := by omega
    have hend : ¬b.pos + num.length = cap := by omega
    simp only [hmin, if_neg hend, if_pos hroom]
    by_cases hmsg : num.length + (err.msg e).length < cap - b.pos
    · -- there is room for the message and its zero byte
      have hok := err.str_ok e (cap - (b.pos + num.length)) (by omega)
      obtain ⟨mem₂, hmem₂⟩ : ∃ mem₂, mem₂ = fmtPut mem₁ (b.pos + num.length) (err.msg e ++ [0]) :=
        ⟨_, rfl⟩
      have hput : b.pos + num.length + (err.msg e ++ [0]).length ≤ mem₁.length := by
        rw [length_append, length_singleton]
        omega
      have hlen₂ : mem₂.length = cap := by rw [hmem₂, length_fmtPut hput, hlen₁]
      have hfront₂ : mem₂.take (b.pos + num.length) = b.mem.take b.pos ++ num := by
        rw [hmem₂, take_fmtPut (by omega), htext₁ (by omega)]
      have hdrop : mem₂.drop (b.pos + num.length) =
          err.msg e ++ 0 :: mem₁.drop (b.pos + num.length + (err.msg e ++ [0]).length) := by
        rw [hmem₂, drop_fmtPut (by omega), append_assoc]
        rfl
      rw [hok]
      simp only [if_true, ← hmem₂]
      rw [hdrop, takeWhile_msg, if_pos hmsg]
      refine ⟨mem₂, ?_, hlen₂, ?_, fun _ => ?_⟩
      · congr 2
        · omega
        · omega
      · have hsub := congrArg (List.take b.pos) hfront₂
        rw [take_take, Nat.min_eq_left (Nat.le_add_right _ _), take_left'] at hsub
        · exact hsub
        · rw [length_take]
          omega
      have hall : (mem₂.take (b.pos + num.length) ++ mem₂.drop (b.pos + num.length)).take
          (b.pos + num.length + (err.msg e).length) = b.mem.take b.pos ++ num ++ err.msg e := by
        have hn : (b.mem.take b.pos ++ num ++ err.msg e).length =
            b.pos + num.length + (err.msg e).length := by
          rw [length_append, length_append, length_take]
          omega
        rw [hfront₂, hdrop, ← append_assoc, ← hn, take_left]
      rw [take_append_drop] at hall
      rw [← Nat.add_assoc, hall, append_assoc]
    · -- the message does not fit, and 255 bytes are counted for all of it
      obtain ⟨hfail, hshort⟩ := err.str_short e (cap - (b.pos + num.length)) (by omega)
      simp only [hfail, Bool.false_eq_true, if_false, if_neg hmsg]
      refine ⟨fmtPut mem₁ (b.pos + num.length) (err.str e (cap - (b.pos + num.length))).2, ?_,
        ?_, ?_, fun h => absurd h hmsg⟩
      · congr 2
        omega
      · rw [length_fmtPut (by omega), hlen₁]
      · have hplace : b.pos + num.length ≤ mem₁.length := by omega
        have hsub := @take_fmtPut mem₁ (err.str e (cap - (b.pos + num.length))).2 _ hplace
        have hsub' := congrArg (List.take b.pos) hsub
        rw [take_take, take_take, Nat.min_eq_left (Nat.le_add_right _ _)] at hsub'
        rw [hsub', hfront₁]
  · have hmin : min num.length (cap - b.pos) = cap - b.pos := by omega
    have hend : b.pos + (cap - b.pos) = cap := by omega
    have hmsg : ((err.str e 256).2.takeWhile (· != 0)).length = (err.msg e).length := by
      rw [err.str_ok e 256 (err.msg_small e)]
      exact congrArg List.length (takeWhile_msg err e [])
    simp only [hmin, if_pos hend, if_neg hroom, hmsg]
    refine ⟨mem₁, ?_, hlen₁, hfront₁, fun h => by omega⟩
    congr 2
    · omega
    · omega

/-- One item -/
def fmtStep (err : FErr) (cap : ℕ) (b : FmtBuf) : FmtItem → Option FmtBuf
  | .basic x => fmtBasic cap b x
  | .err e => fmtErr err cap b e
  | .bad => none

variable {x : FmtItem} {room : ℕ}

theorem fmtLoop_cons (hx : x ≠ .bad) (items : List FmtItem) :
    fmtLoop err cap b (x :: items) =
      (fmtStep err cap b x).bind fun b => fmtLoop err cap b items := by
  cases x with
  | basic x => rfl
  | err e => rfl
  | bad => exact absurd rfl hx

theorem fmtStep_over (hover : x.Over (cap - b.pos)) : fmtStep err cap b x = none := by
  cases x with
  | basic x => exact fmtBasic_over hover
  | err e => exact hover.elim
  | bad => rfl

/-- **One item**: the room it takes, the size it counts, and its text where it fits. -/
theorem fmtStep_spec (hx : x ≠ .bad) (hover : ¬x.Over (cap - b.pos)) (hpos : b.pos ≤ cap)
    (hmem : b.mem.length = cap) :
    ∃ mem', fmtStep err cap b x = some ⟨mem', b.pos + x.keep err (cap - b.pos),
        b.len + x.size err (cap - b.pos)⟩ ∧
      mem'.length = cap ∧ mem'.take b.pos = b.mem.take b.pos ∧
      (x.Fits (cap - b.pos) → (x.text err).length < cap - b.pos →
        mem'.take (b.pos + (x.text err).length) = b.mem.take b.pos ++ x.text err) := by
  cases x with
  | basic x =>
    obtain ⟨mem', hstep, hlen, hfront, htext⟩ := fmtBasic_spec hover hpos hmem
    exact ⟨mem', hstep, hlen, hfront, fun hfits hfit => htext hfits hfit.le⟩
  | err e =>
    obtain ⟨mem', hstep, hlen, hfront, htext⟩ := @fmtErr_spec err cap b e hpos hmem
    exact ⟨mem', hstep, hlen, hfront, fun _ hfit => htext hfit⟩
  | bad => exact absurd rfl hx

theorem item_keep_le (x : FmtItem) (room : ℕ) :
    x.keep err room ≤ min (x.text err).length room := by
  cases x with
  | basic x => exact keep_le x room
  | err e => exact le_rfl
  | bad => exact Nat.zero_le _

theorem item_keep_fits (hfits : x.Fits room) (hroom : (x.text err).length ≤ room) :
    x.keep err room = (x.text err).length := by
  cases x with
  | basic x => exact keep_fits hfits hroom
  | err e => exact Nat.min_eq_left hroom
  | bad => rfl

theorem item_keep_lt (hfits : ¬x.Fits room) : x.keep err room < (x.text err).length := by
  cases x with
  | basic x => exact keep_lt hfits
  | err e => exact absurd trivial hfits
  | bad => exact absurd trivial hfits

theorem not_over (hroom : (x.text err).length < room) : ¬x.Over room := by
  cases x with
  | basic x =>
    cases x with
    | int num f =>
      rintro ⟨hz, hm, hw, hpos, hle⟩
      have hlen := length_fromintText num.toNat_lt f
      have hnosep : ¬(f.sep1000 = true ∧ f.width = 0) := by
        rintro ⟨-, h0⟩
        rw [h0] at hw
        exact Nat.not_lt_zero _ hw
      rw [fromintSize, if_neg hnosep] at hlen
      have hroom' : (fromintText num.toNat f).length < room := hroom
      omega
    | copy bs => exact id
    | copyz bs => exact id
    | hex bs up => exact id
  | err e => exact id
  | bad => exact id

end Item

/-! ### The run -/

section Loop

variable {err : FErr} {cap : ℕ}

theorem fmtText_cons (err : FErr) (x : FmtItem) (items : List FmtItem) :
    fmtText err (x :: items) = x.text err ++ fmtText err items := flatMap_cons

theorem fmtKeep_le (items : List FmtItem) (room : ℕ) :
    fmtKeep err items room ≤ min (fmtText err items).length room := by
  induction items generalizing room with
  | nil => exact Nat.zero_le _
  | cons x items ih =>
    have hx := @item_keep_le err x room
    have hrest := ih (room - x.keep err room)
    rw [fmtKeep, fmtText_cons, length_append]
    omega

theorem not_fmtOver (items : List FmtItem) {room : ℕ}
    (hroom : (fmtText err items).length < room) : ¬FmtOver err items room := by
  induction items generalizing room with
  | nil => exact id
  | cons x items ih =>
    rw [fmtText_cons, length_append] at hroom
    have hx := @item_keep_le err x room
    have hrest := @ih (room - x.keep err room) (by omega)
    have hover : ¬x.Over room := @not_over err x room (by omega)
    cases x with
    | basic x => exact fun h => h.elim hover hrest
    | err e => exact fun h => h.elim hover hrest
    | bad => exact id

/-- **With room for the whole text**, it is taken if all numbers fit, and less if not. -/
theorem fmtKeep_iff (items : List FmtItem) {room : ℕ}
    (hroom : (fmtText err items).length < room) :
    fmtKeep err items room = (fmtText err items).length ↔ FmtAllFit err items room := by
  induction items generalizing room with
  | nil => exact iff_of_true rfl trivial
  | cons x items ih =>
    rw [fmtText_cons, length_append] at hroom ⊢
    rw [fmtKeep, FmtAllFit]
    by_cases hfits : x.Fits room
    · have hkeep := @item_keep_fits err x room hfits (by omega)
      rw [hkeep, ← ih (by omega), and_iff_right hfits]
      omega
    · have hkeep := @item_keep_lt err x room hfits
      have hrest := @fmtKeep_le err items (room - x.keep err room)
      refine iff_of_false ?_ fun h => hfits h.1
      omega

theorem fmtOver_cons {x : FmtItem} (hx : x ≠ .bad) (items : List FmtItem) (room : ℕ) :
    FmtOver err (x :: items) room ↔
      x.Over room ∨ FmtOver err items (room - x.keep err room) := by
  cases x with
  | basic x => exact Iff.rfl
  | err e => exact Iff.rfl
  | bad => exact absurd rfl hx

/-- **The run goes over the end of the buffer.** -/
theorem fmtLoop_over (items : List FmtItem) (b : FmtBuf) (hpos : b.pos ≤ cap)
    (hmem : b.mem.length = cap) (hover : FmtOver err items (cap - b.pos)) :
    fmtLoop err cap b items = none := by
  induction items generalizing b with
  | nil => exact hover.elim
  | cons x items ih =>
    by_cases hx : x = .bad
    · rw [hx] at hover
      exact hover.elim
    rw [fmtLoop_cons hx]
    by_cases hxover : x.Over (cap - b.pos)
    · rw [fmtStep_over hxover]
      rfl
    obtain ⟨mem', hstep, hlen, -, -⟩ := @fmtStep_spec err cap b x hx hxover hpos hmem
    have hrest := ((fmtOver_cons hx items _).mp hover).resolve_left hxover
    have hkeep := @item_keep_le err x (cap - b.pos)
    rw [hstep, bind_some]
    refine ih _ (by dsimp only; omega) hlen ?_
    rwa [Nat.sub_add_eq]

/-- **The run comes to its end**: the room it takes, the size it counts, and the text. -/
theorem fmtLoop_spec (items : List FmtItem) (b : FmtBuf) (hpos : b.pos ≤ cap)
    (hmem : b.mem.length = cap) (hbad : .bad ∉ items) (hover : ¬FmtOver err items (cap - b.pos)) :
    ∃ mem', fmtLoop err cap b items =
        some (if b.pos + fmtKeep err items (cap - b.pos) = cap then
            -int64 ((b.len + fmtSize err items (cap - b.pos) + 1) % 2 ^ 64)
          else b.pos + fmtKeep err items (cap - b.pos), mem') ∧
      mem'.length = cap ∧ mem'.take b.pos = b.mem.take b.pos ∧
      ((fmtText err items).length < cap - b.pos → FmtAllFit err items (cap - b.pos) →
        mem'.take (b.pos + (fmtText err items).length) =
          b.mem.take b.pos ++ fmtText err items) := by
  induction items generalizing b with
  | nil =>
    refine ⟨b.mem, ?_, hmem, rfl, fun _ _ => ?_⟩
    · rw [fmtLoop, fmtKeep, fmtSize, Nat.add_zero, Nat.add_zero]
      rfl
    · rw [fmtText, flatMap_nil, length_nil, append_nil, Nat.add_zero]
  | cons x items ih =>
    have hx : x ≠ .bad := fun h => hbad (h ▸ mem_cons_self)
    rw [fmtOver_cons hx] at hover
    obtain ⟨hxover, hrest⟩ := not_or.mp hover
    obtain ⟨mem₁, hstep, hlen₁, hfront₁, htext₁⟩ := @fmtStep_spec err cap b x hx hxover hpos hmem
    have hkeep := @item_keep_le err x (cap - b.pos)
    obtain ⟨mem₂, hloop, hlen₂, hfront₂, htext₂⟩ := ih ⟨mem₁, b.pos + x.keep err (cap - b.pos),
      b.len + x.size err (cap - b.pos)⟩ (by dsimp only; omega) hlen₁
      (fun h => hbad (mem_cons_of_mem x h)) (by dsimp only; rwa [Nat.sub_add_eq])
    dsimp only at hloop hfront₂ htext₂
    rw [Nat.sub_add_eq] at hloop htext₂
    refine ⟨mem₂, ?_, hlen₂, ?_, fun hfit hall => ?_⟩
    · rw [fmtLoop_cons hx, hstep, bind_some, hloop, fmtKeep, fmtSize]
      congr 2
      refine if_congr (by omega) (by rw [Nat.add_assoc b.len]) (by push_cast; omega)
    · have hsub := congrArg (List.take b.pos) hfront₂
      rw [take_take, take_take, Nat.min_eq_left (Nat.le_add_right _ _)] at hsub
      rw [hsub, hfront₁]
    · rw [fmtText_cons, length_append] at hfit ⊢
      have hxkeep := @item_keep_fits err x _ hall.1 (by omega)
      rw [hxkeep] at htext₂
      rw [← Nat.add_assoc, htext₂ (by omega) hall.2, htext₁ hall.1 (by omega), append_assoc]

theorem fmtLoop_bad (items : List FmtItem) (b : FmtBuf) (hpos : b.pos ≤ cap)
    (hmem : b.mem.length = cap) (hbad : .bad ∈ items) (hover : ¬FmtOver err items (cap - b.pos)) :
    ∃ mem', fmtLoop err cap b items = some (0, mem') := by
  induction items generalizing b with
  | nil => exact absurd hbad not_mem_nil
  | cons x items ih =>
    by_cases hx : x = .bad
    · rw [hx]
      exact ⟨b.mem, rfl⟩
    rw [fmtOver_cons hx] at hover
    obtain ⟨hxover, hrest⟩ := not_or.mp hover
    obtain ⟨mem₁, hstep, hlen₁, -, -⟩ := @fmtStep_spec err cap b x hx hxover hpos hmem
    have hkeep := @item_keep_le err x (cap - b.pos)
    have hmem' := (mem_cons.mp hbad).resolve_left fun h => hx h.symm
    rw [fmtLoop_cons hx, hstep, bind_some]
    refine ih _ (by dsimp only; omega) hlen₁ hmem' ?_
    rwa [Nat.sub_add_eq]

end Loop

/-! ### Results -/

section Results

variable {err : FErr} {fmt : List UInt8} {args : List FmtArg} {items : List FmtItem} {cap : ℕ}
  {mem : List UInt8}

theorem fmtv2_call (hbad : .bad ∉ items) (hover : ¬FmtOver err items mem.length) :
    ∃ mem', ffsFmtv2 err mem items =
        some (if fmtKeep err items mem.length = mem.length then
            -int64 ((fmtSize err items mem.length + 1) % 2 ^ 64)
          else fmtKeep err items mem.length, mem') ∧
      mem'.length = mem.length ∧ ((fmtText err items).length < mem.length → FmtAllFit err items mem.length →
        mem'.take (fmtText err items).length = fmtText err items) := by
  obtain ⟨mem', hloop, hlen, -, htext⟩ := fmtLoop_spec items ⟨mem, 0, 0⟩ (Nat.zero_le _) rfl hbad hover
  rw [Nat.sub_zero, Nat.zero_add, Nat.zero_add, Nat.cast_zero, zero_add] at hloop
  rw [Nat.sub_zero, Nat.zero_add, take_zero, nil_append] at htext
  exact ⟨mem', hloop, hlen, htext⟩

/-- **A call with room for the whole text.** -/
theorem fmtv2_fits (hbad : .bad ∉ items) (hroom : (fmtText err items).length < mem.length)
    (hall : FmtAllFit err items mem.length) :
    ∃ mem', ffsFmtv2 err mem items = some (((fmtText err items).length : ℤ), mem') ∧
      mem'.take (fmtText err items).length = fmtText err items := by
  obtain ⟨mem', hcall, -, htext⟩ := fmtv2_call hbad (not_fmtOver items hroom)
  rw [(fmtKeep_iff items hroom).mpr hall, if_neg (Nat.ne_of_lt hroom)] at hcall
  exact ⟨mem', hcall, htext hroom hall⟩

/-- **Enough for what a caller relies on.** -/
theorem fmtOk_of_fits (h : FmtReads err (fmt.takeWhile (· != 0)) args items)
    (hfits : FmtFits err cap items) : FmtOk err fmt args cap := by
  obtain ⟨hover, hcond⟩ := hfits
  intro mem hmem
  subst hmem
  by_cases hbad : .bad ∈ items
  · obtain ⟨mem', hloop⟩ := fmtLoop_bad items ⟨mem, 0, 0⟩ (Nat.zero_le _) rfl hbad hover
    refine ⟨0, mem', ⟨items, h, hloop⟩, fun _ => rfl, ?_⟩
    rintro text ⟨items', h', hbad', -⟩
    exact absurd (fmtReads_unique h' h ▸ hbad) hbad'
  have hexpands : FmtExpands err fmt args (fmtText err items) := ⟨items, h, hbad, rfl⟩
  have hunique : ∀ text, FmtExpands err fmt args text → text = fmtText err items := by
    rintro text ⟨items', h', -, rfl⟩
    rw [fmtReads_unique h' h]
  have hcond := hcond hbad
  by_cases hroom : (fmtText err items).length < mem.length
  · rw [if_pos hroom] at hcond
    obtain ⟨mem', hcall, htext⟩ := fmtv2_fits hbad hroom hcond
    refine ⟨_, mem', ⟨items, h, hcall⟩, fun hno => absurd hexpands (hno _), ?_⟩
    rintro text htext'
    rw [hunique text htext']
    exact ⟨fun _ => ⟨rfl, hroom.le, htext⟩, fun hneg => absurd hneg (by omega)⟩
  rw [if_neg hroom] at hcond
  obtain ⟨hkeep, hsize, hle, hall⟩ := hcond
  obtain ⟨mem', hcall, -⟩ := fmtv2_call hbad hover
  have hret : -int64 ((fmtSize err items mem.length + 1) % 2 ^ 64) =
      -((fmtSize err items mem.length + 1 : ℕ) : ℤ) := by
    rw [Nat.mod_eq_of_lt (by omega), int64, if_pos hsize]
  rw [if_pos hkeep, hret] at hcall
  refine ⟨_, mem', ⟨items, h, hcall⟩, fun hno => absurd hexpands (hno _), ?_⟩
  rintro text htext'
  rw [hunique text htext']
  refine ⟨fun hpos => absurd hpos (by omega), fun _ mem₂ hmem₂ => ?_⟩
  have hcap₂ : mem₂.length = fmtSize err items mem.length + 1 := by omega
  obtain ⟨mem₂', hcall₂, htext₂⟩ := @fmtv2_fits err items mem₂ hbad (by omega) (hcap₂ ▸ hall)
  exact ⟨mem₂', ⟨items, h, hcall₂⟩, htext₂⟩

/-- **Nothing less is enough**, unless a size is as large as `2 ^ 63`. -/
theorem fits_of_fmtOk (h : FmtReads err (fmt.takeWhile (· != 0)) args items)
    (hsize : ∀ room, fmtSize err items room + 1 < 2 ^ 63) (hok : FmtOk err fmt args cap) :
    FmtFits err cap items := by
  have hcalls : ∀ {mem r mem'}, FfsFmtv2 err fmt args mem r mem' →
      ffsFmtv2 err mem items = some (r, mem') := by
    rintro mem r mem' ⟨items', h', hcall⟩
    rwa [fmtReads_unique h' h] at hcall
  have hrets : ∀ room, -int64 ((fmtSize err items room + 1) % 2 ^ 64) =
      -((fmtSize err items room + 1 : ℕ) : ℤ) := by
    intro room
    have hlt := hsize room
    rw [Nat.mod_eq_of_lt (by omega), int64, if_pos hlt]
  have hnotover : ∀ {mem r mem'}, ffsFmtv2 err mem items = some (r, mem') →
      ¬FmtOver err items mem.length := by
    intro mem r mem' hcall hover
    have hnone := fmtLoop_over items ⟨mem, 0, 0⟩ (Nat.zero_le _) rfl hover
    exact absurd (hcall.symm.trans hnone) (by simp)
  obtain ⟨r, mem', hcall, -, hall⟩ := hok (List.replicate cap 0) length_replicate
  have hcall := hcalls hcall
  have hover := hnotover hcall
  rw [length_replicate] at hover
  refine ⟨hover, fun hbad => ?_⟩
  obtain ⟨hpos, hneg⟩ := hall _ ⟨items, h, hbad, rfl⟩
  obtain ⟨mem₁, hcall₁, -⟩ := @fmtv2_call err items (List.replicate cap 0) hbad
    (by rwa [length_replicate])
  rw [length_replicate, hrets] at hcall₁
  have hr : r = if fmtKeep err items cap = cap then
      -((fmtSize err items cap + 1 : ℕ) : ℤ) else (fmtKeep err items cap : ℤ) :=
    (Prod.mk.inj (some.inj (hcall.symm.trans hcall₁))).1
  have hkeep := @fmtKeep_le err items cap
  by_cases hroom : (fmtText err items).length < cap
  · rw [if_pos hroom]
    rw [if_neg (by omega)] at hr
    exact (fmtKeep_iff items hroom).mp (by omega)
  rw [if_neg hroom]
  by_cases hfull : fmtKeep err items cap = cap
  · rw [if_pos hfull] at hr
    refine ⟨hfull, hsize cap, ?_⟩
    -- the second call
    obtain ⟨mem₂', hcall₂, -⟩ := hneg (by omega)
      (List.replicate (fmtSize err items cap + 1) 0) (by rw [length_replicate]; omega)
    have hcall₂ := hcalls hcall₂
    have hover₂ := hnotover hcall₂
    obtain ⟨mem₃, hcall₃, -⟩ := @fmtv2_call err items _ hbad hover₂
    rw [length_replicate, hrets] at hcall₃
    have hr₂ : ((fmtText err items).length : ℤ) =
        if fmtKeep err items (fmtSize err items cap + 1) = fmtSize err items cap + 1 then
          -((fmtSize err items (fmtSize err items cap + 1) + 1 : ℕ) : ℤ)
        else (fmtKeep err items (fmtSize err items cap + 1) : ℤ) :=
      (Prod.mk.inj (some.inj (hcall₂.symm.trans hcall₃))).1
    have hkeep₂ := @fmtKeep_le err items (fmtSize err items cap + 1)
    by_cases hfull₂ : fmtKeep err items (fmtSize err items cap + 1) = fmtSize err items cap + 1
    · rw [if_pos hfull₂] at hr₂
      omega
    · rw [if_neg hfull₂] at hr₂
      have hlt : (fmtText err items).length < fmtSize err items cap + 1 := by omega
      exact ⟨by omega, (fmtKeep_iff items hlt).mp (by omega)⟩
  · rw [if_neg hfull] at hr
    omega

end Results

/-- **When the result of `ffs_fmtv2` can be relied on**, for sizes below `2 ^ 63`. -/
theorem ffsFmtv2_iff (err : FErr) (fmt : List UInt8) (args : List FmtArg) (items : List FmtItem)
    (cap : ℕ) (h : FmtReads err (fmt.takeWhile (· != 0)) args items) :
    (FmtFits err cap items → FmtOk err fmt args cap) ∧
      ((∀ room, fmtSize err items room + 1 < 2 ^ 63) →
        (FmtOk err fmt args cap ↔ FmtFits err cap items)) :=
  ⟨fmtOk_of_fits h, fun hsize => ⟨fits_of_fmtOk h hsize, fmtOk_of_fits h⟩⟩

/-- A system with one message. -/
instance : Inhabited FErr where
  default :=
    { opstr := fun _ => []
      msg := fun _ => ascii "Unknown error"
      str := fun _ cap => if 13 < cap then (true, ascii "Unknown error" ++ [0]) else (false, [])
      str_ok := fun _ _ h => if_pos h
      str_short := by
        intro e cap h
        have hno : ¬13 < cap := not_lt.mpr h
        rw [if_neg hno]
        exact ⟨rfl, Nat.zero_le _⟩
      msg_small := fun _ => by decide
      msg_nonzero := fun _ => by decide }

theorem ffsFmtv2_iff_seven : FmtOk default (ascii "%u") [.w32 7] 2 ∧
    (FmtOk default (ascii "%u") [.w32 7] 2 ↔ FmtFits default 2 [.basic (.int 7 {})]) := by
  have h : FmtReads default ((ascii "%u").takeWhile (· != 0)) [.w32 7]
      [.basic (.int 7 {})] := by
    have hconv : fmtDirective default (ascii "u") [.w32 7] =
      some (.basic (.int 7 {}), [], []) := by decide
    exact .conv hconv (by decide) .nil
  obtain ⟨henough, hiff⟩ := ffsFmtv2_iff default (ascii "%u") [.w32 7] [.basic (.int 7 {})] 2 h
  refine ⟨henough ⟨?_, fun _ => ?_⟩, hiff fun room => ?_⟩
  · exact fun hover => hover.elim (fun h => Bool.false_ne_true h.1) id
  · have hroom : (fmtText default [.basic (.int 7 {})]).length < 2 := by decide
    rw [if_pos hroom]
    exact ⟨fun h => absurd h.1 Bool.false_ne_true, trivial⟩
  have hkeep := keep_le (.int 7 {}) room
  have htext : (FmtBasic.text (.int 7 {})).length = 1 := by decide
  have hsize : FmtBasic.size room (.int 7 {}) ≤ 20 := by
    rw [FmtBasic.size]
    split
    · omega
    · decide
  change FmtBasic.size room (.int 7 {}) + 0 + 1 < 2 ^ 63
  omega

/-- **The sign of a number with separators is not counted**: `-1,000` becomes `-1,00`. -/
theorem ffsFmtv2_sign : ¬∀ err fmt args items cap,
    FmtReads err (fmt.takeWhile (· != 0)) args items → FmtOk err fmt args cap := by
  intro hall
  have h : FmtReads default ((ascii "%,D").takeWhile (· != 0)) [.w64 (-1000)]
      [.basic (.int (-1000) { signed := true, sep1000 := true })] := by
    have hconv : fmtDirective default (ascii ",D") [.w64 (-1000)] =
      some (.basic (.int (-1000) { signed := true, sep1000 := true }), [], []) := by
        decide
    exact .conv hconv (by decide) .nil
  obtain ⟨r, mem', ⟨items, h', hcall⟩, -, hok⟩ := hall default (ascii "%,D") [.w64 (-1000)] _ 20 h
    (List.replicate 20 0) length_replicate
  rw [fmtReads_unique h' h] at hcall
  have hrun : (ffsFmtv2 default (List.replicate 20 0)
      [.basic (.int (-1000) { signed := true, sep1000 := true })]).map Prod.fst = some 5 := by
    decide
  rw [hcall] at hrun
  have hr : r = 5 := some.inj hrun
  have htext : FmtExpands default (ascii "%,D") [.w64 (-1000)] (ascii "-1,000") :=
    ⟨_, h, by decide, by decide⟩
  have hlen := ((hok _ htext).1 (by omega)).1
  rw [hr] at hlen
  exact absurd hlen (by decide)

end FF
