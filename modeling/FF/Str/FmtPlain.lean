import FF.Str.FmtRun

/-!
# Formats of plain numbers and strings

Where the numbers of a format have neither a sign nor separators, a call of `ffs_fmt` writes the
whole text if the buffer has room for it and for one byte more; if it has not, the buffer is filled,
and the result is zero.
-/

namespace FF

open List Option

/-- The conversions of a format with its arguments, computed with a bound for the steps. -/
def fmtRead (err : FErr) : ℕ → List UInt8 → List FmtArg → Option (List FmtItem)
  | _, [], _ => some []
  | 0, _ :: _, _ => none
  | n + 1, c :: fmt, args =>
    if c ≠ 0x25 then (fmtRead err n fmt args).map (.basic (.copy [c]) :: ·)
    else
      match fmtDirective err fmt args with
      | none => none
      | some (x, fmt, args) =>
        if x = .bad then some [.bad] else (fmtRead err n fmt args).map (x :: ·)

/-- `ffs_fmt` with the buffer from `pos` to its end: the place behind the text, and the buffer. -/
def FfsFmt (err : FErr) (fmt : List UInt8) (args : List FmtArg) (mem : List UInt8) (pos pos' : ℕ)
    (mem' : List UInt8) : Prop :=
  ∃ r m, FfsFmtv2 err fmt args (mem.drop pos) r m ∧ pos' = pos + r.toNat ∧ mem' = mem.take pos ++ m

/-- A number without a sign and without separators, or a string. -/
def FmtItem.Plain : FmtItem → Prop
  | .basic (.int _ f) => f.signed = false ∧ f.neg = false ∧ f.sep1000 = false
  | .basic (.copy _) => True
  | .basic (.copyz _) => True
  | _ => False

section Plain

variable {err : FErr} {fmt : List UInt8} {args : List FmtArg} {items : List FmtItem} {x : FmtItem}
  {room : ℕ} {mem : List UInt8}

theorem fmtReads_of_fmtRead (n : ℕ) (h : fmtRead err n fmt args = some items) :
    FmtReads err fmt args items := by
  induction n generalizing fmt args items with
  | zero =>
    cases fmt with
    | nil =>
      obtain rfl := some.inj h
      exact .nil
    | cons c fmt => cases h
  | succ n ih =>
    cases fmt with
    | nil =>
      obtain rfl := some.inj h
      exact .nil
    | cons c fmt =>
      rw [fmtRead] at h
      by_cases hc : c ≠ 0x25
      · rw [if_pos hc] at h
        obtain ⟨rest, hrest, rfl⟩ := map_eq_some_iff.mp h
        exact .char hc (ih hrest)
      rw [if_neg hc] at h
      obtain rfl := not_not.mp hc
      cases hx : fmtDirective err fmt args with
      | none =>
        rw [hx] at h
        cases h
      | some out =>
        rw [hx] at h
        dsimp only at h
        by_cases hbad : out.1 = .bad
        · rw [if_pos hbad] at h
          obtain rfl := some.inj h
          exact .bad (hx.trans (congrArg some (Prod.ext hbad rfl)))
        · rw [if_neg hbad] at h
          obtain ⟨rest, hrest, rfl⟩ := map_eq_some_iff.mp h
          exact .conv hx hbad (ih hrest)

theorem FmtItem.Plain.ne_bad (hx : x.Plain) : x ≠ .bad := by
  rintro rfl
  exact hx

theorem FmtItem.Plain.not_over (hx : x.Plain) : ¬x.Over room := by
  match x, hx with
  | .basic (.int num f), hx =>
    rintro ⟨-, hminus, -⟩
    rw [fromintMinus, hx.1, hx.2.1] at hminus
    cases hminus
  | .basic (.copy bs), _ => exact id
  | .basic (.copyz bs), _ => exact id

theorem FmtItem.Plain.not_seps {num : UInt64} {f : FromintFlags}
    (hx : (FmtItem.basic (.int num f)).Plain) : ¬intSeps num f := fun h =>
  Bool.false_ne_true (hx.2.2.symm.trans h.1)

theorem FmtItem.Plain.fits (hx : x.Plain) : x.Fits room := by
  match x, hx with
  | .basic (.int num f), hx => exact fun h => absurd h hx.not_seps
  | .basic (.copy bs), _ => trivial
  | .basic (.copyz bs), _ => trivial

theorem FmtItem.Plain.keep_eq (hx : x.Plain) : x.keep err room = min (x.text err).length room := by
  match x, hx with
  | .basic (.int num f), hx =>
    rw [FmtItem.keep, keep_int, if_neg hx.not_seps]
    rfl
  | .basic (.copy bs), _ => rfl
  | .basic (.copyz bs), _ => rfl

theorem FmtItem.Plain.size_le (hx : x.Plain) :
    x.size err room ≤ (x.text err).length + 255 := by
  match x, hx with
  | .basic (.int num f), hx =>
    have hwidth := f.width.toNat_lt
    have hkeep := keep_le (.int num f) room
    change (if FmtBasic.keep room (.int num f) ≠ room then FmtBasic.keep room (.int num f)
      else max f.width.toNat 20) ≤ (FmtBasic.text (.int num f)).length + 255
    split <;> omega
  | .basic (.copy bs), _ => exact Nat.le_add_right _ _
  | .basic (.copyz bs), _ => exact Nat.le_add_right _ _

theorem not_fmtOver_plain (hplain : ∀ x ∈ items, x.Plain) : ¬FmtOver err items room := by
  induction items generalizing room with
  | nil => exact id
  | cons x items ih =>
    obtain ⟨hx, hrest⟩ := forall_mem_cons.mp hplain
    rw [fmtOver_cons hx.ne_bad, not_or]
    exact ⟨hx.not_over, ih hrest⟩

theorem fmtAllFit_plain (hplain : ∀ x ∈ items, x.Plain) : FmtAllFit err items room := by
  induction items generalizing room with
  | nil => trivial
  | cons x items ih =>
    obtain ⟨hx, hrest⟩ := forall_mem_cons.mp hplain
    exact ⟨hx.fits, ih hrest⟩

theorem fmtKeep_plain (hplain : ∀ x ∈ items, x.Plain) :
    fmtKeep err items room = min (fmtText err items).length room := by
  induction items generalizing room with
  | nil => exact (Nat.zero_min room).symm
  | cons x items ih =>
    obtain ⟨hx, hrest⟩ := forall_mem_cons.mp hplain
    rw [fmtKeep, ih hrest, hx.keep_eq, fmtText_cons, length_append]
    omega

theorem fmtSize_plain (hplain : ∀ x ∈ items, x.Plain) :
    fmtSize err items room ≤ (fmtText err items).length + 255 * items.length := by
  induction items generalizing room with
  | nil => exact Nat.zero_le _
  | cons x items ih =>
    obtain ⟨hx, hrest⟩ := forall_mem_cons.mp hplain
    have hhead := @FmtItem.Plain.size_le err x room hx
    have htail := @ih (room - x.keep err room) hrest
    rw [fmtSize, fmtText_cons, length_append, length_cons]
    omega

/-- **A call of `ffs_fmtv2`** for plain conversions -/
theorem fmtv2_plain (hplain : ∀ x ∈ items, x.Plain)
    (hsmall : (fmtText err items).length + 255 * items.length + 1 < 2 ^ 63) :
    ∃ r mem', ffsFmtv2 err mem items = some (r, mem') ∧ mem'.length = mem.length ∧
      r.toNat = (if (fmtText err items).length < mem.length then (fmtText err items).length else 0) ∧
      ((fmtText err items).length < mem.length →
        mem'.take (fmtText err items).length = fmtText err items) := by
  have hbad : .bad ∉ items := fun h => (hplain _ h).ne_bad rfl
  have hsize := @fmtSize_plain err items mem.length hplain
  obtain ⟨mem', hcall, hlen, htext⟩ := @fmtv2_call err items mem hbad (not_fmtOver_plain hplain)
  refine ⟨_, mem', hcall, hlen, ?_, fun hroom => htext hroom (fmtAllFit_plain hplain)⟩
  rw [fmtKeep_plain hplain]
  by_cases hroom : (fmtText err items).length < mem.length
  · rw [if_neg (by omega), if_pos hroom, Nat.min_eq_left hroom.le, Int.toNat_natCast]
  · rw [if_pos (by omega), if_neg hroom, Nat.mod_eq_of_lt (by omega), int64, if_pos (by omega)]
    omega

/-- **A call of `ffs_fmt`** for plain conversions, where the buffer is used from `pos` on. -/
theorem ffsFmt_plain (hread : FmtReads err (fmt.takeWhile (· != 0)) args items)
    (hplain : ∀ x ∈ items, x.Plain)
    (hsmall : (fmtText err items).length + 255 * items.length + 1 < 2 ^ 63) {pos : ℕ}
    (hpos : pos ≤ mem.length) :
    ∃ mem', mem'.length = mem.length ∧ mem'.take pos = mem.take pos ∧
      (pos + (fmtText err items).length < mem.length →
        mem'.take (pos + (fmtText err items).length) = mem.take pos ++ fmtText err items) ∧
      ∀ pos₁ mem₁, FfsFmt err fmt args mem pos pos₁ mem₁ ↔
        pos₁ = (if pos + (fmtText err items).length < mem.length then
          pos + (fmtText err items).length else pos) ∧ mem₁ = mem' := by
  obtain ⟨r, m, hcall, hlen, hr, htext⟩ := @fmtv2_plain err items (mem.drop pos) hplain hsmall
  rw [length_drop] at hlen hr htext
  have htake : (mem.take pos).length = pos := length_take_of_le hpos
  have hret : pos + r.toNat = if pos + (fmtText err items).length < mem.length then
      pos + (fmtText err items).length else pos := by
    rw [hr]
    split <;> split <;> omega
  refine ⟨mem.take pos ++ m, ?_, ?_, fun hroom => ?_, fun pos₁ mem₁ => ⟨?_, ?_⟩⟩
  · rw [length_append, htake, hlen]
    omega
  · exact take_left' htake
  · rw [take_append, htake, Nat.add_sub_cancel_left, htext (by omega),
      take_of_length_le (by omega)]
  · rintro ⟨r', m', ⟨items', hread', hcall'⟩, rfl, rfl⟩
    rw [fmtReads_unique hread' hread, hcall] at hcall'
    obtain ⟨rfl, rfl⟩ := Prod.mk.inj (some.inj hcall')
    exact ⟨hret, rfl⟩
  · rintro ⟨rfl, rfl⟩
    exact ⟨r, m, ⟨items, hread, hcall⟩, hret.symm, rfl⟩

end Plain

end FF
