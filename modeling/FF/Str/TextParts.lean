import FF.Str.FmtPlain

/-!
# Texts by parts

A text that is made of bytes, of decimal numbers and of names is written by `ffs_fmt`, and read by
`ffs_fmatch` with a format that has an item for each part, whatever stands behind it. The numbers
may be filled up with zeros.
-/

namespace FF

open List

/-- The items of a format, with a bound for their number. -/
def fmItems : ℕ → List UInt8 → List FmItem
  | 0, _ => []
  | _, [] => []
  | n + 1, c :: fmt => (fmItem (c :: fmt)).1 :: fmItems n (fmItem (c :: fmt)).2

/-- The number `n`, filled up with zeros to `w` digits. -/
def padText (w n : ℕ) : List UInt8 :=
  fromintText n { zerowidth := true, width := UInt8.ofNat w }

/-- A part of a text: a byte, a number of `w` digits, a number, or a name. -/
inductive TextPart
  | lit (c : UInt8)
  | pad (w n : ℕ)
  | dec (n : ℕ)
  | name (bs : List UInt8)

namespace TextPart

/-- The text of a part. -/
def text : TextPart → List UInt8
  | lit c => [c]
  | pad w n => padText w n
  | dec n => fromintText n {}
  | name bs => bs

/-- What `ffs_fmt` writes it with. -/
def fmtItem : TextPart → FmtItem
  | lit c => .basic (.copy [c])
  | pad w n =>
    .basic (.int (UInt32.ofNat n).toUInt64 { zerowidth := true, width := UInt8.ofNat (min w 255) })
  | dec n => .basic (.int (UInt32.ofNat n).toUInt64 {})
  | name bs => .basic (.copyz (bs ++ [0]))

/-- What `ffs_fmatch` reads it with. -/
def fmItem : TextPart → FmItem
  | lit c => .lit c
  | pad w _ => .num w false 4
  | dec _ => .num 0 false 4
  | name bs => .chars bs.length

/-- What is stored then. -/
def stored : TextPart → List FmEvent
  | lit _ => []
  | pad _ n => [.num 4 n]
  | dec n => [.num 4 n]
  | name bs => [.copy bs]

/-- A number has at most `w` digits, and no digit stands behind a number that is not filled up. A
name is short. -/
def Fits (rest : List UInt8) : TextPart → Prop
  | lit _ => True
  | pad w n => 1 ≤ w ∧ w ≤ 9 ∧ n < 10 ^ w
  | dec n => n < 2 ^ 32 ∧ ∀ c ∈ rest.head?, ffcharTodec c = none
  | name bs => bs ≠ [] ∧ 0 ∉ bs ∧ bs.length ≤ 255

end TextPart

/-- The text of parts. -/
def partsText (xs : List TextPart) : List UInt8 := xs.flatMap TextPart.text

/-- What is stored of parts. -/
def partsStored (xs : List TextPart) : List FmEvent := xs.flatMap TextPart.stored

/-- All parts fit, where `rest` stands behind the last one. -/
def PartsFit (rest : List UInt8) : List TextPart → Prop
  | [] => True
  | x :: xs => x.Fits (partsText xs ++ rest) ∧ PartsFit rest xs

/-! ### Numbers -/

section Numbers

variable {n w : ℕ} {ds rest : List UInt8}

/-- **Digits are read** up to the first other byte. -/
theorem toint_digits (hne : ds ≠ []) (hdig : ∀ c ∈ ds, (digitOf 10 c).isSome = true)
    (hlen : ds.length ≤ 20) (hval : numVal (digitOf 10) 10 0 ds < 2 ^ 32)
    (hrest : ∀ c ∈ rest.head?, ffcharTodec c = none) :
    ffsToint (ds ++ rest) ⟨4, false, false, false⟩ =
      some (ds.length, numVal (digitOf 10) 10 0 ds) :=
  ffsToint_dec (.inr (.inr (.inl rfl))) hne hdig hlen hval hrest

/-- **A number that is filled up** has `w` digits. -/
theorem padText_spec (hw : 1 ≤ w) (hw' : w ≤ 19) (hn : n < 10 ^ w) :
    (padText w n).length = w ∧ (∀ c ∈ padText w n, (digitOf 10 c).isSome = true) ∧
      numVal (digitOf 10) 10 0 (padText w n) = n := by
  have hpow : 10 ^ w ≤ 10 ^ 19 := Nat.pow_le_pow_right (by decide) hw'
  have hi : n < 2 ^ 64 := by omega
  obtain ⟨f, hf⟩ : ∃ f : FromintFlags, f = { zerowidth := true, width := UInt8.ofNat w } :=
    ⟨_, rfl⟩
  have hwidth : f.width.toNat = w := by
    rw [hf, UInt8.toNat_ofNat']
    omega
  have hminus : fromintMinus n f = false := by rw [hf]; rfl
  have habs : fromintAbs n f = n := by rw [hf]; rfl
  have hbase : f.base = 10 := by rw [hf]; rfl
  obtain ⟨hlen, hdig, hval, -⟩ := fromintPs_spec hi f
  rw [hbase, habs] at hlen hval
  rw [hbase] at hdig
  have hcount := digitCount_le (by decide : 1 < 10) hw hn
  have htext : padText w n =
      List.replicate (w - (fromintPs n f).length) 0x30 ++ fromintPs n f := by
    rw [padText, ← hf, fromintText, hminus, hwidth, hf]
    simp
  rw [htext]
  refine ⟨?_, fun c hc => ?_, ?_⟩
  · rw [length_append, length_replicate]
    omega
  · rcases mem_append.mp hc with hc | hc
    · rw [eq_of_mem_replicate hc]
      rfl
    · exact hdig c hc
  · rw [numVal_zeros, hval]

end Numbers

/-! ### Parts -/

section Parts

variable {n w : ℕ} {rest : List UInt8} {x : TextPart} {xs : List TextPart}

theorem partsText_cons (x : TextPart) (xs : List TextPart) :
    partsText (x :: xs) = x.text ++ partsText xs := flatMap_cons

theorem TextPart.plain (x : TextPart) : x.fmtItem.Plain := by
  cases x with
  | lit c => trivial
  | pad w n => exact ⟨rfl, rfl, rfl⟩
  | dec n => exact ⟨rfl, rfl, rfl⟩
  | name bs => trivial

theorem toNat_word (hn : n < 2 ^ 32) : (UInt32.ofNat n).toUInt64.toNat = n := by
  rw [UInt32.toNat_toUInt64, UInt32.toNat_ofNat']
  exact Nat.mod_eq_of_lt hn

theorem TextPart.text_fmtItem (hx : x.Fits rest) (err : FErr) : x.fmtItem.text err = x.text := by
  cases x with
  | lit c => rfl
  | pad w n =>
    obtain ⟨-, hw, hn⟩ := hx
    have hpow : 10 ^ w ≤ 10 ^ 9 := Nat.pow_le_pow_right (by decide) hw
    change fromintText (UInt32.ofNat n).toUInt64.toNat
      { zerowidth := true, width := UInt8.ofNat (min w 255) } = padText w n
    rw [toNat_word (by omega), Nat.min_eq_left (by omega), padText]
  | dec n =>
    change fromintText (UInt32.ofNat n).toUInt64.toNat {} = fromintText n {}
    rw [toNat_word hx.1]
  | name bs =>
    change (bs ++ [0]).takeWhile (· != 0) = bs
    have hbyte : ∀ c ∈ bs, (c != 0) = true := fun c hc => bne_iff_ne.mpr fun h => hx.2.1 (h ▸ hc)
    rw [takeWhile_append_of_pos hbyte]
    exact append_nil bs

/-- **The text that `ffs_fmt` writes** -/
theorem fmtText_parts (hfit : PartsFit rest xs) (err : FErr) :
    fmtText err (xs.map TextPart.fmtItem) = partsText xs := by
  induction xs with
  | nil => rfl
  | cons x xs ih => rw [map_cons, fmtText_cons, TextPart.text_fmtItem hfit.1, ih hfit.2, partsText_cons]

theorem TextPart.length_le (hx : x.Fits rest) : x.text.length ≤ 255 := by
  cases x with
  | lit c => exact Nat.le_of_ble_eq_true rfl
  | pad w n =>
    obtain ⟨hw, hw', hn⟩ := hx
    have hlen := (padText_spec hw (by omega) hn).1
    rw [text]
    omega
  | dec n =>
    have hi : n < 2 ^ 64 := by have := hx.1; omega
    have hmax := (fromintPs_spec hi {}).2.2.2
    rw [text, fromintText_plain ⟨rfl, rfl, rfl⟩]
    exact le_trans hmax (by decide)
  | name bs => exact hx.2.2

theorem length_partsText_le (hfit : PartsFit rest xs) :
    (partsText xs).length ≤ 255 * xs.length := by
  induction xs with
  | nil => exact Nat.zero_le _
  | cons x xs ih =>
    have hx := TextPart.length_le hfit.1
    have hrest := ih hfit.2
    rw [partsText_cons, length_append, length_cons]
    omega

/-- **A part is read** by its item. -/
theorem TextPart.step (hx : x.Fits rest) : x.text ≠ [] ∧ ∀ front : List UInt8,
    FF.fmStep (front ++ (x.text ++ rest)) front.length x.fmItem =
      (x.stored, some (front.length + x.text.length)) := by
  cases x with
  | lit c =>
    refine ⟨cons_ne_nil _ _, fun front => ?_⟩
    rw [fmItem, FF.fmStep, text, getElem?_append_right le_rfl, Nat.sub_self]
    exact if_pos rfl
  | pad w n =>
    obtain ⟨hw, hw', hn⟩ := hx
    obtain ⟨hlen, hdig, hval⟩ := padText_spec hw (by omega) hn
    have hpow : 10 ^ w ≤ 10 ^ 9 := Nat.pow_le_pow_right (by decide) hw'
    have hne : padText w n ≠ [] := ne_nil_of_length_pos (by omega)
    refine ⟨hne, fun front => ?_⟩
    have htake : (((front ++ (padText w n ++ rest)).drop front.length).take
        (min ((front ++ (padText w n ++ rest)).length - front.length) w)) =
        padText w n ++ [] := by
      rw [drop_left, length_append, length_append, Nat.add_sub_cancel_left,
        Nat.min_eq_right (by omega), append_nil]
      exact take_left' hlen
    rw [fmItem, FF.fmStep, text, if_neg (by simp), if_neg (by omega)]
    dsimp only
    rw [htake, toint_digits hne hdig (by omega) (by omega) (by simp), hval]
    rfl
  | dec n =>
    obtain ⟨hn, hrest⟩ := hx
    have hi : n < 2 ^ 64 := by omega
    obtain ⟨-, hdig, hval, hmax⟩ := fromintPs_spec hi {}
    have hne := fromintPs_ne_nil hi {}
    have htext : fromintText n {} = fromintPs n {} := fromintText_plain ⟨rfl, rfl, rfl⟩
    have hvaln : numVal (digitOf 10) 10 0 (fromintPs n {}) = n := hval
    refine ⟨?_, fun front => ?_⟩
    · rwa [text, htext]
    rw [fmItem, FF.fmStep, text, if_neg (by simp), if_pos rfl, htext]
    dsimp only
    rw [drop_left, take_of_length_le (by simp),
      toint_digits hne hdig hmax (by omega) hrest, hvaln]
    rfl
  | name bs =>
    refine ⟨hx.1, fun front => ?_⟩
    rw [fmItem, FF.fmStep, text, if_pos (by simp), drop_left, take_left]
    rfl

theorem length_partsText_pos (hfit : PartsFit rest xs) (hne : xs ≠ []) :
    1 ≤ (partsText xs).length := by
  cases xs with
  | nil => exact absurd rfl hne
  | cons x xs =>
    have hpos := length_pos_iff.mpr (TextPart.step hfit.1).1
    rw [partsText_cons, length_append]
    omega

/-- **The run over a text of parts**, with `rest` behind it. -/
theorem fmatch_parts (n : ℕ) {fmt : List UInt8} (hn : fmt.length ≤ n)
    (hfmt : fmItems n fmt = xs.map TextPart.fmItem) (hfit : PartsFit rest xs) (front : List UInt8) :
    RunEnds (fmatchMove (front ++ (partsText xs ++ rest))) (fmt, front.length)
      (partsStored xs ++ [.ret (front.length + (partsText xs).length : ℕ)]) := by
  induction n generalizing fmt xs front with
  | zero =>
    obtain rfl := length_eq_zero_iff.mp (Nat.le_zero.mp hn)
    obtain rfl := map_eq_nil_iff.mp hfmt.symm
    refine RunEnds.last ?_
    simp [fmatchMove, partsText, partsStored]
  | succ n ih =>
    cases fmt with
    | nil =>
      obtain rfl := map_eq_nil_iff.mp hfmt.symm
      refine RunEnds.last ?_
      simp [fmatchMove, partsText, partsStored]
    | cons c fmt =>
      cases xs with
      | nil => cases hfmt
      | cons x xs =>
        obtain ⟨hitem, hitems⟩ := List.cons.inj hfmt
        obtain ⟨hx, hrest⟩ := hfit
        obtain ⟨hne, hstep⟩ := TextPart.step hx
        have hlen := fmItem_length (cons_ne_nil c fmt)
        rw [length_cons] at hn hlen
        have hrun := ih (by omega) hitems hrest (front ++ x.text)
        have hmove := @fmatchMove_item (front ++ (x.text ++ (partsText xs ++ rest))) front.length
          (c :: fmt) (cons_ne_nil c fmt) (by simp [hne])
        rw [hitem, hstep front] at hmove
        rw [partsText_cons, partsStored, flatMap_cons, ← partsStored, append_assoc x.text,
          append_assoc x.stored]
        refine RunEnds.cons hmove ?_
        rw [append_assoc, length_append] at hrun
        rw [length_append, ← Nat.add_assoc]
        exact hrun

end Parts

end FF
