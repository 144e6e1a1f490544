import FF.Number
import Mathlib.Tactic.Ring

/-!
# Seeking by frames

`ffpcm_seek` of `FF/audio/ffpcm.c`. The caller keeps two boundary points, seeks to the offset that
was proposed last, and reports the frame that it finds there; the function narrows the bounds
(`seekBounds`) and proposes the next offset (`seekOff`), or it says that the frame holds the target.

A report is harmless (`FfpcmSeek.Fits`) unless it leaves no bytes between the boundary points: a
frame in front of the target that does not end before the upper one, or a frame behind the target
that begins at the lower one.
-/

namespace FF

open List Option

/-! ### Program -/

/-- `ffpcm_seekpt`. -/
structure FfpcmSeekpt where
  sample : ℕ
  off : ℕ
  deriving DecidableEq, Repr

/-- `struct ffpcm_seek`, with its flags `FFPCM_SEEK_BINSCH` and `FFPCM_SEEK_ALLOW_BINSCH`. -/
structure FfpcmSeek where
  target : ℕ
  pt0 : FfpcmSeekpt
  pt1 : FfpcmSeekpt
  off : ℕ
  lastoff : ℕ
  frIndex : ℕ
  frSamples : ℕ
  avgFrSamples : ℕ
  frSize : ℕ
  binsch : Bool
  allowBinsch : Bool
  deriving DecidableEq, Repr

/-- The frame begins between the boundary points. -/
def FfpcmSeek.InBounds (s : FfpcmSeek) : Prop :=
  (s.pt0.sample ≤ s.frIndex ∧ s.frIndex < s.pt1.sample) ∧ s.pt0.off ≤ s.off ∧ s.off < s.pt1.off

instance (s : FfpcmSeek) : Decidable s.InBounds := instDecidableAnd

/-- The first half of `ffpcm_seek`: new bounds, and whether binary search is wanted; `none` if the
frame holds the target. -/
def seekBounds (s : FfpcmSeek) : Option (FfpcmSeek × Bool) :=
  if s.frSamples = 0 then some (s, false)
  else if s.InBounds then
    if s.target < s.frIndex then some ({ s with pt1 := ⟨s.frIndex, s.off⟩ }, false)
    else if s.target < (s.frIndex + s.frSamples) % 2 ^ 64 then none
    else
      some ({ s with pt0 := ⟨(s.frIndex + s.frSamples) % 2 ^ 64, (s.off + s.frSize) % 2 ^ 64⟩ },
        false)
  else if s.pt0.off ≤ s.lastoff ∧ s.lastoff < s.pt1.off then
    -- no frame is found within range lastoff..pt[1].off
    some ({ s with pt1 := ⟨s.pt1.sample, s.lastoff⟩ }, true)
  else some (s, false)

/-- The flags ask for binary search. -/
def FfpcmSeek.Binary (s : FfpcmSeek) (force : Bool) : Prop := s.allowBinsch ∧ (s.binsch ∨ force)

instance (s : FfpcmSeek) (force : Bool) : Decidable (s.Binary force) := instDecidableAnd

/-- The estimate of the offset behind the lower boundary point, before it is moved back by a
frame. -/
def seekEstimate (s : FfpcmSeek) (force : Bool) : ℕ :=
  if s.Binary force then sizeSub s.pt1.off s.pt0.off / 2
  else sizeSub s.target s.pt0.sample * sizeSub s.pt1.off s.pt0.off % 2 ^ 64 /
    sizeSub s.pt1.sample s.pt0.sample

/-- The average size of a frame. -/
def seekFrsize (s : FfpcmSeek) : ℕ :=
  if s.avgFrSamples ≠ 0 then
    sizeSub s.pt1.off s.pt0.off / max (sizeSub s.pt1.sample s.pt0.sample / s.avgFrSamples) 1 % 2 ^ 32
  else s.frSize

/-- The next offset. -/
def seekNewoff (s : FfpcmSeek) (force : Bool) : ℕ :=
  ((if seekFrsize s < seekEstimate s force then seekEstimate s force - seekFrsize s else 0) +
    s.pt0.off) % 2 ^ 64

/-- The second half of `ffpcm_seek`: the next offset. It divides by zero if there are no samples
between the boundary points. -/
def seekOff (s : FfpcmSeek) (force : Bool) : Option (ℤ × FfpcmSeek) :=
  if ¬s.Binary force ∧ sizeSub s.pt1.sample s.pt0.sample = 0 then none
  else if seekNewoff s force = s.lastoff then some (-1, s)
  else some (1, { s with off := seekNewoff s force })

/-- `ffpcm_seek`: `none` if the assertion fails or a number is divided by zero. -/
def ffpcmSeek (s : FfpcmSeek) : Option (ℤ × FfpcmSeek) :=
  if s.pt0.sample ≤ s.target ∧ s.target < s.pt1.sample then
    match seekBounds s with
    | none => some (0, s)
    | some (s, force) => seekOff s force
  else none

/-! ### What a call promises -/

namespace FfpcmSeek

/-- The target lies between the boundary points. -/
structure Ok (s : FfpcmSeek) : Prop where
  lower : s.pt0.sample ≤ s.target
  upper : s.target < s.pt1.sample
  off : s.pt0.off < s.pt1.off
  sample64 : s.pt1.sample < 2 ^ 64
  off64 : s.pt1.off < 2 ^ 64

/-- The reported frame is inside a file, whose samples and bytes have numbers of 64 bits. -/
def InFile (s : FfpcmSeek) : Prop :=
  s.frSamples ≠ 0 → s.frIndex + s.frSamples < 2 ^ 64 ∧ s.off + s.frSize < 2 ^ 64

/-- The reported frame holds the target. -/
def Holds (s : FfpcmSeek) : Prop :=
  s.frSamples ≠ 0 ∧ s.frIndex ≤ s.target ∧ s.target < s.frIndex + s.frSamples

/-- **The promise.** The call returns; 0 only if the frame holds the target; else the target stays
between the boundary points, and a proposed offset is between them. -/
def Good (s : FfpcmSeek) : Prop :=
  ∃ r s', ffpcmSeek s = some (r, s') ∧ (r = 0 ∨ r = 1 ∨ r = -1) ∧
    (r = 0 → s.Holds) ∧
    (r ≠ 0 → (s'.pt0.sample ≤ s'.target ∧ s'.target < s'.pt1.sample) ∧ s'.target = s.target ∧
      s'.pt0.off ≤ s'.pt1.off) ∧
    (r = 1 → s'.pt0.off ≤ s'.off ∧ s'.off < s'.pt1.off)

/-- **The report is harmless.** A frame between the boundary points that is in front of the target
ends before the upper one, and a frame behind the target begins behind the lower one; if no byte is
left, then only where the caller has sought last. -/
def Fits (s : FfpcmSeek) : Prop :=
  s.frSamples ≠ 0 → s.InBounds →
    (s.frIndex + s.frSamples ≤ s.target →
      s.off + s.frSize < s.pt1.off ∨ (s.off + s.frSize = s.pt1.off ∧ s.lastoff = s.pt1.off)) ∧
    (s.target < s.frIndex → s.pt0.off < s.off ∨ s.lastoff = s.pt0.off)

/-- What is left between the boundary points. -/
def room (s : FfpcmSeek) : ℕ := (s.pt1.sample - s.pt0.sample) + (s.pt1.off - s.pt0.off)

end FfpcmSeek

section Call

variable {s s' : FfpcmSeek}

/-- **The interpolated offset** is between the boundary points, even if the product overflows. -/
theorem interpolate_lt {t size samples : ℕ} (ht : t < samples) (hs : 0 < size) :
    t * size % 2 ^ 64 / samples < size := by
  refine Nat.div_lt_of_lt_mul ?_
  calc t * size % 2 ^ 64 ≤ t * size := Nat.mod_le _ _
    _ < samples * size := Nat.mul_lt_mul_of_pos_right ht hs

/-- **The second half** proposes an offset between the boundary points if there is one; else it
proposes the lower one. -/
theorem seekOff_spec (hl : s.pt0.sample ≤ s.target) (hu : s.target < s.pt1.sample)
    (h64 : s.pt1.sample < 2 ^ 64) (ho : s.pt0.off ≤ s.pt1.off) (ho64 : s.pt1.off < 2 ^ 64)
    (force : Bool) :
    ∃ o, s.pt0.off ≤ o ∧ (o < s.pt1.off ∨ (s.pt0.off = s.pt1.off ∧ o = s.pt0.off)) ∧
      seekOff s force =
        if o = s.lastoff then some (-1, s) else some (1, { s with off := o }) := by
  have hsize : sizeSub s.pt1.off s.pt0.off = s.pt1.off - s.pt0.off := sizeSub_of_le ho ho64
  have hsamples : sizeSub s.pt1.sample s.pt0.sample = s.pt1.sample - s.pt0.sample :=
    sizeSub_of_le (by omega) h64
  have ht : sizeSub s.target s.pt0.sample = s.target - s.pt0.sample := sizeSub_of_le hl (Nat.lt_trans hu h64)
  have hguard : ¬(¬s.Binary force ∧ sizeSub s.pt1.sample s.pt0.sample = 0) := by
    rw [hsamples]
    omega
  have hest : seekEstimate s force < s.pt1.off - s.pt0.off ∨ seekEstimate s force = 0 := by
    rw [seekEstimate, hsize, hsamples, ht]
    split
    · omega
    · rcases Nat.eq_zero_or_pos (s.pt1.off - s.pt0.off) with h0 | hpos
      · rw [h0, Nat.mul_zero, Nat.zero_mod, Nat.zero_div]
        exact .inr rfl
      · exact .inl (interpolate_lt (by omega) hpos)
  refine ⟨seekNewoff s force, ?_, ?_, by rw [seekOff, if_neg hguard]⟩
  · rw [seekNewoff]
    split <;> omega
  · rw [seekNewoff]
    split <;> omega

/-- **The first half**: the frame holds the target, or the target stays between the samples of the
boundary points. -/
theorem seekBounds_spec (h : s.Ok) (hf : s.InFile) :
    (seekBounds s = none ∧ s.Holds) ∨
      ∃ s₁ force, seekBounds s = some (s₁, force) ∧ s₁.target = s.target ∧
        s₁.lastoff = s.lastoff ∧ s₁.pt0.sample ≤ s.target ∧ s.target < s₁.pt1.sample ∧
        s₁.pt1.sample ≤ s.pt1.sample ∧ s₁.pt1.off ≤ s.pt1.off ∧
        (s₁.pt1.off < s₁.pt0.off ∨ (s₁.pt0.off = s₁.pt1.off ∧ s₁.pt0.off ≠ s.lastoff) ↔ ¬s.Fits) ∧
        (s₁.pt0.off ≤ s₁.pt1.off → s₁.room ≤ s.room ∧ (s.frSamples ≠ 0 → s.pt0.off ≤ s.lastoff →
          s.lastoff < s.pt1.off → s₁.room < s.room)) := by
  obtain ⟨hl, hu, ho, h64, ho64⟩ := h
  rw [seekBounds, FfpcmSeek.Fits]
  by_cases h0 : s.frSamples = 0
  · refine .inr ⟨s, false, if_pos h0, rfl, rfl, hl, hu, Nat.le_refl _, Nat.le_refl _, ?_, ?_⟩
    · constructor
      · omega
      · intro hno
        exact absurd (fun hne => absurd h0 hne) hno
    · exact fun _ => ⟨Nat.le_refl _, fun hne => absurd h0 hne⟩
  obtain ⟨hi64, hs64⟩ := hf h0
  rw [if_neg h0]
  by_cases hb : s.InBounds
  · have hb' := hb
    obtain ⟨⟨hbl, hbu⟩, hbo, hbe⟩ := hb'
    rw [if_pos hb, Nat.mod_eq_of_lt hi64, Nat.mod_eq_of_lt hs64]
    by_cases hlt : s.target < s.frIndex
    · rw [if_pos hlt]
      refine .inr ⟨_, _, rfl, rfl, rfl, hl, hlt, Nat.le_of_lt hbu, Nat.le_of_lt hbe, ?_, ?_⟩
      · constructor
        · intro hbad hfit
          rcases (hfit h0 hb).2 hlt with hroom | hlast
          · dsimp only at hbad
            omega
          · dsimp only at hbad
            omega
        · intro hno
          dsimp only
          refine Classical.byContradiction fun hgood => hno fun _ _ => ⟨?_, ?_⟩
          · omega
          · omega
      · rw [FfpcmSeek.room, FfpcmSeek.room]
        dsimp only
        omega
    rw [if_neg hlt]
    by_cases hin : s.target < s.frIndex + s.frSamples
    · rw [if_pos hin]
      exact .inl ⟨rfl, h0, Nat.le_of_not_lt hlt, hin⟩
    rw [if_neg hin]
    refine .inr ⟨_, _, rfl, rfl, rfl, Nat.le_of_not_lt hin, hu, Nat.le_refl _,
      Nat.le_refl _, ?_, ?_⟩
    · constructor
      · intro hbad hfit
        have hroom := (hfit h0 hb).1 (Nat.le_of_not_lt hin)
        dsimp only at hbad
        omega
      · intro hno
        dsimp only
        refine Classical.byContradiction fun hgood => hno fun _ _ => ⟨?_, ?_⟩
        · omega
        · omega
    · rw [FfpcmSeek.room, FfpcmSeek.room]
      dsimp only
      omega
  · rw [if_neg hb]
    by_cases hlast : s.pt0.off ≤ s.lastoff ∧ s.lastoff < s.pt1.off
    · rw [if_pos hlast]
      refine .inr ⟨_, _, rfl, rfl, rfl, hl, hu, Nat.le_refl _, Nat.le_of_lt hlast.2, ?_, ?_⟩
      · constructor
        · dsimp only
          omega
        · intro hno
          exact absurd (fun _ hin => absurd hin hb) hno
      · rw [FfpcmSeek.room, FfpcmSeek.room]
        dsimp only
        omega
    rw [if_neg hlast]
    refine .inr ⟨_, _, rfl, rfl, rfl, hl, hu, Nat.le_refl _, Nat.le_refl _, ?_, ?_⟩
    · constructor
      · omega
      · intro hno
        exact absurd (fun _ hin => absurd hin hb) hno
    · intro _
      exact ⟨Nat.le_refl _, fun _ hle hlt => absurd ⟨hle, hlt⟩ hlast⟩

theorem seekOff_keeps {force : Bool} {r : ℤ} (h : seekOff s force = some (r, s')) :
    r ≠ 0 ∧ s'.pt0 = s.pt0 ∧ s'.pt1 = s.pt1 ∧ s'.target = s.target := by
  rw [seekOff] at h
  split at h
  · cases h
  · split at h
    · cases h
      exact ⟨by decide, rfl, rfl, rfl⟩
    · cases h
      exact ⟨by decide, rfl, rfl, rfl⟩

theorem ffpcmSeek_fits (h : s.Ok) (hf : s.InFile) (hfit : s.Fits) :
    (ffpcmSeek s = some (0, s) ∧ s.Holds) ∨
      ∃ s₁ o, s₁.target = s.target ∧ s₁.pt0.sample ≤ s.target ∧ s.target < s₁.pt1.sample ∧
        s₁.pt1.sample < 2 ^ 64 ∧ s₁.pt1.off < 2 ^ 64 ∧ s₁.pt0.off ≤ s₁.pt1.off ∧
        (ffpcmSeek s = some (-1, s₁) ∨
          (ffpcmSeek s = some (1, { s₁ with off := o }) ∧ s₁.pt0.off ≤ o ∧ o < s₁.pt1.off ∧
            s₁.room ≤ s.room ∧ (s.frSamples ≠ 0 → s.pt0.off ≤ s.lastoff →
              s.lastoff < s.pt1.off → s₁.room < s.room))) := by
  have hin : s.pt0.sample ≤ s.target ∧ s.target < s.pt1.sample := ⟨h.lower, h.upper⟩
  rw [ffpcmSeek, if_pos hin]
  rcases seekBounds_spec h hf with
    ⟨hb, hholds⟩ | ⟨s₁, force, hb, htarget, hlast, hl, hu, hs, ho, hiff, hroom⟩
  · rw [hb]
    exact .inl ⟨rfl, hholds⟩
  rw [hb]
  right
  have hgood : ¬(s₁.pt1.off < s₁.pt0.off ∨ (s₁.pt0.off = s₁.pt1.off ∧ s₁.pt0.off ≠ s.lastoff)) :=
    fun hbad => hiff.mp hbad hfit
  have hord : s₁.pt0.off ≤ s₁.pt1.off := Nat.le_of_not_lt fun hlt => hgood (.inl hlt)
  have h64 : s₁.pt1.sample < 2 ^ 64 := Nat.lt_of_le_of_lt hs h.sample64
  have ho64 : s₁.pt1.off < 2 ^ 64 := Nat.lt_of_le_of_lt ho h.off64
  obtain ⟨o, hlo, hup, he⟩ := seekOff_spec (htarget ▸ hl) (htarget ▸ hu) h64 hord ho64 force
  refine ⟨s₁, o, htarget, hl, hu, h64, ho64, hord, ?_⟩
  dsimp only
  rw [he]
  by_cases hsame : o = s₁.lastoff
  · rw [if_pos hsame]
    exact .inl rfl
  · rw [if_neg hsame]
    refine .inr ⟨rfl, hlo, ?_, hroom hord⟩
    rcases hup with hup | ⟨heq, heq'⟩
    · exact hup
    · exact absurd (.inr ⟨heq, fun hl => hsame (heq'.trans (hl.trans hlast.symm))⟩) hgood

/-- **A call keeps its promise** exactly if the report is harmless. -/
theorem FfpcmSeek.good_iff (h : s.Ok) (hf : s.InFile) : s.Good ↔ s.Fits := by
  have hin : s.pt0.sample ≤ s.target ∧ s.target < s.pt1.sample := ⟨h.lower, h.upper⟩
  constructor
  · rintro ⟨r, s', he, -, -, hkeep, hprop⟩
    rw [ffpcmSeek, if_pos hin] at he
    rcases seekBounds_spec h hf with
      ⟨hb, hholds⟩ | ⟨s₁, force, hb, htarget, hlast, hl, hu, hs, ho, hiff, -⟩
    · intro _ _
      obtain ⟨-, hle, hlt⟩ := hholds
      omega
    rw [hb] at he
    refine Classical.byContradiction fun hno => ?_
    obtain ⟨hr, hp0, hp1, -⟩ := seekOff_keeps he
    obtain ⟨-, -, hord⟩ := hkeep hr
    rw [hp0, hp1] at hord
    rcases hiff.mpr hno with hlt | ⟨heq, hne⟩
    · exact absurd hord (Nat.not_le_of_lt hlt)
    obtain ⟨o, hlo, hup, he'⟩ := seekOff_spec (htarget ▸ hl) (htarget ▸ hu)
      (Nat.lt_of_le_of_lt hs h.sample64) hord (Nat.lt_of_le_of_lt ho h.off64) force
    have heqo : o = s₁.pt0.off := by
      rcases hup with hup | ⟨-, heqo⟩
      · omega
      · exact heqo
    have hne' : o ≠ s₁.lastoff := by rw [heqo, hlast]; exact hne
    rw [if_neg hne'] at he'
    obtain ⟨rfl, rfl⟩ := Prod.mk.inj (some.inj (he.symm.trans he'))
    have hlt := (hprop rfl).2
    dsimp only at hlt
    omega
  intro hfit
  rcases ffpcmSeek_fits h hf hfit with
    ⟨he, hholds⟩ | ⟨s₁, o, htarget, hl, hu, -, -, hord, he | ⟨he, hlo, hup, -⟩⟩
  · exact ⟨0, s, he, .inl rfl, fun _ => hholds, fun hne => absurd rfl hne, nofun⟩
  · exact ⟨-1, s₁, he, .inr (.inr rfl), nofun,
      fun _ => ⟨⟨htarget ▸ hl, htarget ▸ hu⟩, htarget, hord⟩, nofun⟩
  · exact ⟨1, _, he, .inr (.inl rfl), nofun,
      fun _ => ⟨⟨htarget ▸ hl, htarget ▸ hu⟩, htarget, hord⟩, fun _ => ⟨hlo, hup⟩⟩

end Call

/-! ### Runs -/

/-- **The next call**: the caller has sought to the offset that was proposed, and reports a frame
of the file that it has found from there. -/
structure SeekNext (s s' : FfpcmSeek) : Prop where
  seek : ∃ s₁, ffpcmSeek s = some (1, s₁) ∧ s'.pt0 = s₁.pt0 ∧ s'.pt1 = s₁.pt1 ∧ s'.lastoff = s₁.off
  target : s'.target = s.target
  inFile : s'.InFile
  frame : s'.frSamples ≠ 0

/-- The offset that was sought last lies between the boundary points. -/
def FfpcmSeek.Sought (s : FfpcmSeek) : Prop :=
  s.frSamples ≠ 0 ∧ s.pt0.off ≤ s.lastoff ∧ s.lastoff < s.pt1.off

section Runs

variable {s s' : FfpcmSeek}

/-- **A step** keeps the target between the boundary points, and narrows them. -/
theorem SeekNext.step (h : SeekNext s s') (hok : s.Ok) (hf : s.InFile) (hfit : s.Fits) :
    s'.Ok ∧ s'.Sought ∧ s'.room ≤ s.room ∧ (s.Sought → s'.room < s.room) := by
  obtain ⟨⟨s₂, hseek, hp0, hp1, hlast⟩, htarget', -, hframe⟩ := h
  rcases ffpcmSeek_fits hok hf hfit with
    ⟨he, -⟩ | ⟨s₁, o, htarget, hl, hu, h64, ho64, -, he | ⟨he, hlo, hup, hle, hlt⟩⟩
  · cases hseek.symm.trans he
  · cases hseek.symm.trans he
  obtain rfl : s₂ = { s₁ with off := o } :=
    (Prod.mk.inj (some.inj (hseek.symm.trans he))).2
  dsimp only at hp0 hp1 hlast
  have hroom : s'.room = s₁.room := by rw [FfpcmSeek.room, hp0, hp1, FfpcmSeek.room]
  rw [← hlast, ← hp0] at hlo
  rw [← hlast, ← hp1] at hup
  refine ⟨⟨?_, ?_, Nat.lt_of_le_of_lt hlo hup, ?_, ?_⟩, ⟨hframe, hlo, hup⟩, hroom ▸ hle,
    fun hs => hroom ▸ hlt hs.1 hs.2.1 hs.2.2⟩
  · rw [hp0, htarget']
    exact hl
  · rw [hp1, htarget']
    exact hu
  · rw [hp1]
    exact h64
  · rw [hp1]
    exact ho64

/-- **Runs end.** A run in which all reports are harmless keeps the target between the boundary
points, and has no more calls than there is room, and one. -/
theorem seekRun_spec (run : ℕ → FfpcmSeek) (k : ℕ) (hok : (run 0).Ok) (hf : (run 0).InFile)
    (hstep : ∀ i < k, SeekNext (run i) (run (i + 1))) (hfit : ∀ i < k, (run i).Fits) :
    (∀ i ≤ k, (run i).Ok) ∧ k ≤ (run 0).room + 1 := by
  have key : ∀ i ≤ k, (run i).Ok ∧ (run i).InFile ∧ (0 < i → (run i).Sought) ∧
      (run i).room + i ≤ (run 0).room + 1 := by
    intro i hi
    induction i with
    | zero => exact ⟨hok, hf, nofun, Nat.le_succ _⟩
    | succ i ih =>
      obtain ⟨hoki, hfi, hsi, hroom⟩ := ih (Nat.le_of_succ_le hi)
      obtain ⟨hok', hs', hle, hlt⟩ := (hstep i hi).step hoki hfi (hfit i hi)
      refine ⟨hok', (hstep i hi).inFile, fun _ => hs', ?_⟩
      cases i with
      | zero => omega
      | succ i =>
        have hless := hlt (hsi (Nat.succ_pos i))
        omega
  refine ⟨fun i hi => (key i hi).1, ?_⟩
  have hk := (key k (Nat.le_refl k)).2.2.2
  omega

end Runs

/-! ### Files -/

/-- A frame of a file. -/
structure SeekFrame where
  index : ℕ
  samples : ℕ
  off : ℕ
  size : ℕ
  deriving DecidableEq, Repr

/-- One frame is in front of another. -/
def SeekFrame.Before (f g : SeekFrame) : Prop :=
  f.index + f.samples ≤ g.index ∧ f.off + f.size ≤ g.off

/-- **A file with frames in increasing order.** -/
structure SeekFile where
  frames : List SeekFrame
  inOrder : frames.Pairwise SeekFrame.Before
  samples_pos : ∀ f ∈ frames, 0 < f.samples
  size_pos : ∀ f ∈ frames, 0 < f.size
  index64 : ∀ f ∈ frames, f.index + f.samples < 2 ^ 64
  off64 : ∀ f ∈ frames, f.off + f.size < 2 ^ 64

/-- The frame that is found from an offset on. -/
def SeekFile.find (F : SeekFile) (o : ℕ) : Option SeekFrame := F.frames.find? fun f => o ≤ f.off

/-- The report, if there is one, is the frame that is found from the offset that was sought last. -/
def SeekFile.Reports (F : SeekFile) (s : FfpcmSeek) : Prop :=
  s.frSamples ≠ 0 → ∃ f, F.find s.lastoff = some f ∧ s.off = f.off ∧ s.frIndex = f.index ∧
    s.frSamples = f.samples ∧ s.frSize = f.size

/-- The boundary points are around the frame, and no frame behind the lower one has earlier
samples. -/
structure SeekFile.Around (F : SeekFile) (t : SeekFrame) (s : FfpcmSeek) : Prop where
  lower : s.pt0.off ≤ t.off
  upper : t.off < s.pt1.off
  index : ∀ f ∈ F.frames, s.pt0.off ≤ f.off → s.pt0.sample ≤ f.index

section Files

variable {F : SeekFile} {f g t : SeekFrame} {s s' : FfpcmSeek}

theorem pairwise_total {α : Type*} {R : α → α → Prop} {l : List α} (h : l.Pairwise R) {a b : α}
    (ha : a ∈ l) (hb : b ∈ l) : a = b ∨ R a b ∨ R b a := by
  induction l with
  | nil => cases ha
  | cons c l ih =>
    obtain ⟨hc, hl⟩ := pairwise_cons.mp h
    rcases mem_cons.mp ha with rfl | ha'
    · rcases mem_cons.mp hb with rfl | hb'
      · exact .inl rfl
      · exact .inr (.inl (hc b hb'))
    · rcases mem_cons.mp hb with rfl | hb'
      · exact .inr (.inr (hc a ha'))
      · exact ih hl ha' hb'

/-- The frame that is found is a frame of the file, and no frame from that offset on is in front
of it. -/
theorem SeekFile.find_spec {o : ℕ} (h : F.find o = some f) :
    f ∈ F.frames ∧ o ≤ f.off ∧ ∀ g ∈ F.frames, o ≤ g.off → g = f ∨ f.Before g := by
  have hord := F.inOrder
  obtain ⟨ho, as, bs, he, hnone⟩ := find?_eq_some_iff_append.mp h
  rw [he] at hord ⊢
  refine ⟨mem_append_right _ mem_cons_self, of_decide_eq_true ho, fun g hg hog => ?_⟩
  rcases mem_append.mp hg with hg | hg
  · exact absurd (decide_eq_true hog) (by simpa using hnone g hg)
  · rcases mem_cons.mp hg with rfl | hg
    · exact .inl rfl
    · exact .inr ((pairwise_cons.mp (pairwise_append.mp hord).2.1).1 g hg)

theorem SeekFile.before_of_index (hf : f ∈ F.frames) (hg : g ∈ F.frames)
    (h : f.index < g.index) : f.Before g := by
  rcases pairwise_total F.inOrder hf hg with rfl | hb | hb
  · exact absurd h (Nat.lt_irrefl _)
  · exact hb
  · have hidx := hb.1
    omega

theorem SeekFile.before_of_end (hf : f ∈ F.frames) (hg : g ∈ F.frames)
    (h : f.index + f.samples < g.index + g.samples) : f.Before g := by
  rcases pairwise_total F.inOrder hf hg with rfl | hb | hb
  · exact absurd h (Nat.lt_irrefl _)
  · exact hb
  · have hidx := hb.1
    omega

theorem SeekFile.before_of_off (hf : f ∈ F.frames) (hg : g ∈ F.frames) (h : f.off < g.off) :
    f.Before g := by
  rcases pairwise_total F.inOrder hf hg with rfl | hb | hb
  · exact absurd h (Nat.lt_irrefl _)
  · exact hb
  · have hoff := hb.2
    omega

theorem seekBounds_cases {s₁ : FfpcmSeek} {force : Bool} (hf : s.InFile)
    (h : seekBounds s = some (s₁, force)) :
    s₁ = s ∨ (s.frSamples ≠ 0 ∧
      ((s.InBounds ∧ s.target < s.frIndex ∧ s₁ = { s with pt1 := ⟨s.frIndex, s.off⟩ }) ∨
        (s.InBounds ∧ s.frIndex + s.frSamples ≤ s.target ∧
          s₁ = { s with pt0 := ⟨s.frIndex + s.frSamples, s.off + s.frSize⟩ }) ∨
        (¬s.InBounds ∧ s.pt0.off ≤ s.lastoff ∧
          s₁ = { s with pt1 := ⟨s.pt1.sample, s.lastoff⟩ }))) := by
  rw [seekBounds] at h
  by_cases h0 : s.frSamples = 0
  · rw [if_pos h0] at h
    cases h
    exact .inl rfl
  obtain ⟨hi64, hs64⟩ := hf h0
  rw [if_neg h0, Nat.mod_eq_of_lt hi64, Nat.mod_eq_of_lt hs64] at h
  by_cases hb : s.InBounds
  · rw [if_pos hb] at h
    by_cases hlt : s.target < s.frIndex
    · rw [if_pos hlt] at h
      cases h
      exact .inr ⟨h0, .inl ⟨hb, hlt, rfl⟩⟩
    rw [if_neg hlt] at h
    by_cases hin : s.target < s.frIndex + s.frSamples
    · rw [if_pos hin] at h
      cases h
    · rw [if_neg hin] at h
      cases h
      exact .inr ⟨h0, .inr (.inl ⟨hb, Nat.le_of_not_lt hin, rfl⟩)⟩
  rw [if_neg hb] at h
  by_cases hlast : s.pt0.off ≤ s.lastoff ∧ s.lastoff < s.pt1.off
  · rw [if_pos hlast] at h
    cases h
    exact .inr ⟨h0, .inr (.inr ⟨hb, hlast.1, rfl⟩)⟩
  · rw [if_neg hlast] at h
    cases h
    exact .inl rfl

/-- **Reports of such a file** are harmless. -/
theorem SeekFile.Around.fits (h : F.Around t s) (ht : t ∈ F.frames)
    (hin : t.index ≤ s.target ∧ s.target < t.index + t.samples) (hr : F.Reports s) : s.Fits := by
  intro h0 _
  obtain ⟨f, hfind, hoff, hidx, hsamp, hsize⟩ := hr h0
  obtain ⟨hf, -, -⟩ := SeekFile.find_spec hfind
  constructor
  · intro hle
    have hb : f.Before t := SeekFile.before_of_end hf ht (by omega)
    have hup := h.upper
    exact .inl (by rw [hoff, hsize]; exact Nat.lt_of_le_of_lt hb.2 hup)
  intro hlt
  have hb : t.Before f := SeekFile.before_of_index ht hf (by omega)
  have hlow := h.lower
  have hsz := F.size_pos t ht
  have hle := hb.2
  exact .inl (by omega)

/-- **The boundary points stay around the frame** that holds the target. -/
theorem SeekFile.Around.step (h : F.Around t s) (ht : t ∈ F.frames)
    (hin : t.index ≤ s.target ∧ s.target < t.index + t.samples) (hr : F.Reports s)
    (hup : s.target < s.pt1.sample) (hf : s.InFile) (hn : SeekNext s s') : F.Around t s' := by
  obtain ⟨⟨s₂, hseek, hp0, hp1, -⟩, -, -, -⟩ := hn
  have hchange : ∃ s₁ force, seekBounds s = some (s₁, force) ∧ s'.pt0 = s₁.pt0 ∧
      s'.pt1 = s₁.pt1 := by
    rw [ffpcmSeek] at hseek
    split at hseek
    · cases hb : seekBounds s with
      | none =>
        rw [hb] at hseek
        cases hseek
      | some p =>
        rw [hb] at hseek
        obtain ⟨-, hk0, hk1, -⟩ := seekOff_keeps hseek
        exact ⟨p.1, p.2, rfl, hp0.trans hk0, hp1.trans hk1⟩
    · cases hseek
  obtain ⟨s₁, force, hb, hp0, hp1⟩ := hchange
  obtain ⟨hlow, hupo, hindex⟩ := h
  rcases seekBounds_cases hf hb with
    rfl | ⟨h0, ⟨-, hlt, rfl⟩ | ⟨-, hle, rfl⟩ | ⟨hnot, hle, rfl⟩⟩
  · rw [← hp0] at hlow hindex
    rw [← hp1] at hupo
    exact ⟨hlow, hupo, hindex⟩
  · -- a frame behind the target
    obtain ⟨f, hfind, hoff, hidx, hsamp, hsize⟩ := hr h0
    obtain ⟨hfm, -, -⟩ := SeekFile.find_spec hfind
    have hbef : t.Before f := SeekFile.before_of_index ht hfm (by omega)
    have hsz := F.size_pos t ht
    have hto := hbef.2
    refine ⟨hp0 ▸ hlow, ?_, hp0 ▸ hindex⟩
    rw [hp1]
    dsimp only
    omega
  · -- a frame in front of it
    obtain ⟨f, hfind, hoff, hidx, hsamp, hsize⟩ := hr h0
    obtain ⟨hfm, -, -⟩ := SeekFile.find_spec hfind
    have hbef : f.Before t := SeekFile.before_of_end hfm ht (by omega)
    refine ⟨?_, hp1 ▸ hupo, ?_⟩
    · rw [hp0, hoff, hsize]
      exact hbef.2
    intro g hg hgo
    rw [hp0] at hgo ⊢
    dsimp only at hgo ⊢
    have hsz := F.size_pos f hfm
    have hfg : f.Before g := SeekFile.before_of_off hfm hg (by omega)
    have hfi := hfg.1
    omega
  -- no frame begins behind the offset that was sought last
  obtain ⟨f, hfind, hoff, hidx, hsamp, hsize⟩ := hr h0
  obtain ⟨hfm, hlast, hfirst⟩ := SeekFile.find_spec hfind
  refine ⟨hp0 ▸ hlow, ?_, hp0 ▸ hindex⟩
  rw [hp1]
  refine Nat.lt_of_not_le fun hlt => hnot ?_
  have hfi := hindex f hfm (Nat.le_trans hle hlast)
  rcases hfirst t ht hlt with rfl | hbef
  · exact ⟨⟨hidx ▸ hfi, by omega⟩, by omega, by omega⟩
  · have hpos := F.samples_pos f hfm
    have hbi := hbef.1
    have hbo := hbef.2
    exact ⟨⟨hidx ▸ hfi, by omega⟩, by omega, by omega⟩

/-- **In a file with frames in increasing order**, one of which holds the target, all reports are
harmless, so that the search ends. -/
theorem seekFile_spec (ht : t ∈ F.frames) (run : ℕ → FfpcmSeek) (k : ℕ) (hok : (run 0).Ok)
    (hin : t.index ≤ (run 0).target ∧ (run 0).target < t.index + t.samples)
    (hf : (run 0).InFile) (haround : F.Around t (run 0))
    (hstep : ∀ i < k, SeekNext (run i) (run (i + 1))) (hr : ∀ i ≤ k, F.Reports (run i)) :
    (∀ i ≤ k, (run i).Fits) ∧ k ≤ (run 0).room + 1 := by
  have key : ∀ i ≤ k, (run i).Ok ∧ (run i).InFile ∧ F.Around t (run i) ∧
      (run i).target = (run 0).target := by
    intro i hi
    induction i with
    | zero => exact ⟨hok, hf, haround, rfl⟩
    | succ i ih =>
      obtain ⟨hoki, hfi, hari, hti⟩ := ih (Nat.le_of_succ_le hi)
      have hri := hr i (Nat.le_of_succ_le hi)
      have hini : t.index ≤ (run i).target ∧ (run i).target < t.index + t.samples := by
        rw [hti]
        exact hin
      have hfit := hari.fits ht hini hri
      obtain ⟨hok', -⟩ := (hstep i hi).step hoki hfi hfit
      exact ⟨hok', (hstep i hi).inFile, hari.step ht hini hri hoki.upper hfi (hstep i hi),
        (hstep i hi).target.trans hti⟩
  have hfit : ∀ i ≤ k, (run i).Fits := by
    intro i hi
    obtain ⟨-, -, hari, hti⟩ := key i hi
    refine hari.fits ht ?_ (hr i hi)
    rw [hti]
    exact hin
  exact ⟨hfit, (seekRun_spec run k hok hf hstep fun i hi => hfit i (Nat.le_of_lt hi)).2⟩

end Files

/-! ### Results -/

/-- **`ffpcm_seek`.** A call keeps its promise exactly if the report is harmless; runs in which all
reports are harmless end; and in a file with frames in increasing order they are harmless. -/
theorem ffpcmSeek_iff {run : ℕ → FfpcmSeek} {k : ℕ} (hok : (run 0).Ok)
    (hf : (run 0).InFile) (hstep : ∀ i < k, SeekNext (run i) (run (i + 1))) :
    ((run 0).Good ↔ (run 0).Fits) ∧
      ((∀ i < k, (run i).Fits) → (∀ i ≤ k, (run i).Ok) ∧ k ≤ (run 0).room + 1) ∧
      ∀ (F : SeekFile) (t : SeekFrame), t ∈ F.frames →
        (t.index ≤ (run 0).target ∧ (run 0).target < t.index + t.samples) →
        F.Around t (run 0) → (∀ i ≤ k, F.Reports (run i)) →
        (∀ i ≤ k, (run i).Fits) ∧ k ≤ (run 0).room + 1 :=
  ⟨FfpcmSeek.good_iff hok hf, fun hfit => seekRun_spec run k hok hf hstep hfit,
    fun _ _ ht hin ha hr => seekFile_spec ht run k hok hin hf ha hstep hr⟩

/-- The frame of 30 bytes in front of the target leaves 70 bytes. -/
theorem ffpcmSeek_iff_example :
    (⟨5, ⟨0, 0⟩, ⟨10, 100⟩, 0, 0, 0, 3, 0, 30, false, false⟩ : FfpcmSeek).Good :=
  ((@ffpcmSeek_iff (fun _ => ⟨5, ⟨0, 0⟩, ⟨10, 100⟩, 0, 0, 0, 3, 0, 30, false, false⟩) 0
    ⟨by decide, by decide, by decide, by decide, by decide⟩ (fun _ => ⟨by decide, by decide⟩)
    nofun).1).mpr fun _ _ => ⟨fun _ => .inl (by decide), nofun⟩

/-- **A frame in front of the target that fills the file**: the offset behind the upper boundary
point is proposed. -/
theorem ffpcmSeek_beyond :
    (⟨5, ⟨0, 0⟩, ⟨10, 100⟩, 0, 0, 0, 3, 0, 100, false, false⟩ : FfpcmSeek).Ok ∧
      (⟨5, ⟨0, 0⟩, ⟨10, 100⟩, 0, 0, 0, 3, 0, 100, false, false⟩ : FfpcmSeek).InFile ∧
      ffpcmSeek ⟨5, ⟨0, 0⟩, ⟨10, 100⟩, 0, 0, 0, 3, 0, 100, false, false⟩ =
        some (1, ⟨5, ⟨3, 100⟩, ⟨10, 100⟩, 100, 0, 0, 3, 0, 100, false, false⟩) ∧
      ¬(⟨5, ⟨0, 0⟩, ⟨10, 100⟩, 0, 0, 0, 3, 0, 100, false, false⟩ : FfpcmSeek).Good := by
  have he : ffpcmSeek ⟨5, ⟨0, 0⟩, ⟨10, 100⟩, 0, 0, 0, 3, 0, 100, false, false⟩ =
      some (1, ⟨5, ⟨3, 100⟩, ⟨10, 100⟩, 100, 0, 0, 3, 0, 100, false, false⟩) := by
    decide
  refine ⟨⟨by decide, by decide, by decide, by decide, by decide⟩, fun _ => ⟨by decide, by decide⟩,
    he, ?_⟩
  rintro ⟨r, s', he', -, -, -, hprop⟩
  obtain ⟨rfl, rfl⟩ := Prod.mk.inj (some.inj (he.symm.trans he'))
  exact absurd (hprop rfl).2 (by decide)

end FF
