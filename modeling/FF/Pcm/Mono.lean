import FF.Pcm.Convert
import Mathlib.Algebra.BigOperators.Intervals

/-!
# The error of the mono mix

`_ffpcm_mono_mix` divides the sum of the samples of a frame by the number of channels. The remainder
of the division is added to the output, and its negation is carried into the next frame
(`mixCarry`).

`mix_step` is the error of a single frame. With two channels the errors of the frames cancel each
other but for the last carry; with more channels they add up.
-/

namespace FF

open List

/-! ### The loop -/

/-- The sum of the samples of a frame. -/
def frameSum (bits nch : ℕ) (blk : ℕ → ℕ → List UInt8) (i : ℕ) : ℤ :=
  ∑ c ∈ Finset.range nch, signed bits (leNat (blk c i))

/-- What the frames before frame `i` have left, for the sums `x`. -/
def mixCarry (nch : ℕ) (x : ℕ → ℤ) : ℕ → ℤ
  | 0 => 0
  | i + 1 => -(mixCarry nch x i + x i).tmod nch

/-- The output for frame `i` before it is clipped. -/
def mixOut (nch : ℕ) (x : ℕ → ℤ) (i : ℕ) : ℤ :=
  (mixCarry nch x i + x i).tdiv nch + (mixCarry nch x i + x i).tmod nch

/-- The frames, the memory for the output, and the layout. -/
structure MixArgs (m : Memory) (out : ℕ) (inpcm : Ffpcmex) (inp : Pcmdata) (n : ℕ)
    (blk : ℕ → ℕ → List UInt8) : Prop where
  format : inpcm.format ≠ .int24_4
  one_le : 1 ≤ inpcm.channels
  le_eight : inpcm.channels ≤ 8
  fits : inp.Fits inpcm.ileaved inpcm.channels
  holds : HoldsSamples m inp inpcm.format.size inpcm.channels n blk
  writable : (load m out (n * inpcm.format.size)).isSome
  disjoint : ∀ c < inpcm.channels, ∀ i < n, Apart (inp.place inpcm.format.size inpcm.channels c i)
    inpcm.format.size out (n * inpcm.format.size)

section Loop

variable {m m' : Memory} {out : ℕ} {inpcm : Ffpcmex} {inp : Pcmdata} {n : ℕ}
  {blk : ℕ → ℕ → List UInt8}

theorem mixSum_spec (f : PcmFmt) {d : Pcmdata} {il : Bool} {nch i : ℕ} (hf : d.Fits il nch)
    (hm : ∀ c < nch, load m (d.place f.size nch c i) f.size = some (blk c i)) (s : ℤ) :
    ∀ k ≤ nch, (List.range k).foldlM (fun sum ich => do
      let p ← (d.pointers f nch).1[ich]?
      let x ← load m (p + i * (d.pointers f nch).2 * (f.bits / 8)) (f.bits / 8)
      some (sum + signed f.bits (leNat x))) s =
        some (s + ∑ c ∈ Finset.range k, signed f.bits (leNat (blk c i))) := by
  intro k hk
  induction k with
  | zero => simp
  | succ k ih =>
    obtain ⟨p, hp, hplace⟩ := Pcmdata.pointers_at hf hk f
    have hsize : f.bits / 8 = f.size := rfl
    rw [range_succ, foldlM_append, ih (Nat.le_of_succ_le hk), Finset.sum_range_succ]
    simp only [Option.bind_eq_bind, Option.bind_some, foldlM_cons, foldlM_nil, hp,
      hsize, hplace, hm k hk, Option.pure_def, add_assoc]

/-- The memory behind `k` rounds. -/
structure MixAt (m : Memory) (out : ℕ) (inpcm : Ffpcmex) (n : ℕ) (x : ℕ → ℤ) (k : ℕ)
    (m' : Memory) : Prop where
  same : SameBut m m' out (n * inpcm.format.size)
  writable : (load m' out (n * inpcm.format.size)).isSome
  outs : ∀ i < k, load m' (out + i * inpcm.format.size) inpcm.format.size =
    some (leBytes inpcm.format.size (toWord inpcm.format.bits
      (ffintLim inpcm.format.bits (mixOut inpcm.channels x i))))

/-- **A round** writes the output of its frame and leaves the carry. -/
theorem monoMixSample_spec (h : MixArgs m out inpcm inp n blk) {k : ℕ} (hk : k < n)
    (hat : MixAt m out inpcm n (frameSum inpcm.format.bits inpcm.channels blk) k m') :
    ∃ m'', monoMixSample inpcm.format.bits out (inp.pointers inpcm.format inpcm.channels).1
        inpcm.channels (inp.pointers inpcm.format inpcm.channels).2
        (m', mixCarry inpcm.channels (frameSum inpcm.format.bits inpcm.channels blk) k) k =
      some (m'', mixCarry inpcm.channels (frameSum inpcm.format.bits inpcm.channels blk) (k + 1)) ∧
      MixAt m out inpcm n (frameSum inpcm.format.bits inpcm.channels blk) (k + 1) m'' := by
  obtain ⟨hsame, hwr, houts⟩ := hat
  have hread : ∀ c < inpcm.channels,
      load m' (inp.place inpcm.format.size inpcm.channels c k) inpcm.format.size =
        some (blk c k) := by
    intro c hc
    rw [hsame.load (h.disjoint c hc k hk)]
    exact h.holds c hc k hk
  have hne : inpcm.channels ≠ 0 := Nat.ne_of_gt h.one_le
  have hsize : inpcm.format.bits / 8 = inpcm.format.size := rfl
  have hin : k * inpcm.format.size + inpcm.format.size ≤ n * inpcm.format.size := by
    rw [← Nat.succ_mul]
    exact Nat.mul_le_mul_right _ hk
  have hroom : (load m' (out + k * inpcm.format.size) inpcm.format.size).isSome := by
    rw [load_isSome_iff] at hwr ⊢
    intro i hi
    rw [Nat.add_assoc]
    exact hwr _ (by omega)
  have hlen : ∀ v, (leBytes inpcm.format.size v).length = inpcm.format.size :=
    fun v => length_leBytes _ v
  obtain ⟨bytes, hbytes⟩ : ∃ bytes, bytes = leBytes inpcm.format.size
    (toWord inpcm.format.bits (ffintLim inpcm.format.bits
      (mixOut inpcm.channels (frameSum inpcm.format.bits inpcm.channels blk) k))) := ⟨_, rfl⟩
  have hroom' : (load m' (out + k * inpcm.format.size) bytes.length).isSome := by
    rw [hbytes, hlen]
    exact hroom
  obtain ⟨m'', hst, hld, hs'⟩ := store_spec hroom'
  rw [hbytes] at hst hld hs'
  rw [hlen] at hld hs'
  refine ⟨m'', ?_, hsame.trans (hs'.mono (Nat.le_add_right _ _) (by omega)), ?_, ?_⟩
  · rw [monoMixSample, mixSum_spec inpcm.format h.fits hread _ _ (Nat.le_refl _)]
    simp only [Option.bind_eq_bind, Option.bind_some, guard, hne, ne_eq, not_false_eq_true,
      if_true, hsize]
    change (store m' _ (leBytes _ (toWord _ (ffintLim _ (mixOut inpcm.channels
      (frameSum inpcm.format.bits inpcm.channels blk) k))))).bind _ = _
    rw [hst]
    rfl
  · have hk' := hs'.keeps (by rw [hld]; rfl)
    exact hk'.load hwr
  intro i hi
  rcases Nat.lt_succ_iff_lt_or_eq.mp hi with hlt | rfl
  · have hap : Apart (out + i * inpcm.format.size) inpcm.format.size
        (out + k * inpcm.format.size) inpcm.format.size := apart_of_ne (Nat.ne_of_lt hlt)
    rw [hs'.load hap]
    exact houts i hlt
  · exact hld

/-- **What `_ffpcm_mono_mix` writes.** -/
theorem ffpcmMonoMix_spec (h : MixArgs m out inpcm inp n blk) :
    ∃ m', ffpcmMonoMix m out inpcm inp n = some (some m') ∧
      MixAt m out inpcm n (frameSum inpcm.format.bits inpcm.channels blk) n m' := by
  have hstart : inp.start inpcm.ileaved inpcm.format inpcm.channels 1 =
      some (inp.pointers inpcm.format inpcm.channels) := by
    have hfits := h.fits
    cases inp with
    | b p =>
      have hil : inpcm.ileaved = true := hfits
      rw [Pcmdata.start, hil]
      rfl
    | pb ps =>
      have hil : inpcm.ileaved = false := hfits.1
      rw [Pcmdata.start, hil]
      rfl
  have hrun : ∀ k ≤ n, ∃ m', (List.range k).foldlM
      (monoMixSample inpcm.format.bits out (inp.pointers inpcm.format inpcm.channels).1
        inpcm.channels (inp.pointers inpcm.format inpcm.channels).2) (m, 0) =
      some (m', mixCarry inpcm.channels (frameSum inpcm.format.bits inpcm.channels blk) k) ∧
      MixAt m out inpcm n (frameSum inpcm.format.bits inpcm.channels blk) k m' := by
    intro k hk
    induction k with
    | zero => exact ⟨m, rfl, fun _ _ => rfl, h.writable, nofun⟩
    | succ k ih =>
      obtain ⟨m₁, he₁, hat₁⟩ := ih (Nat.le_of_succ_le hk)
      obtain ⟨m₂, he₂, hat₂⟩ := monoMixSample_spec h hk hat₁
      refine ⟨m₂, ?_, hat₂⟩
      rw [range_succ, foldlM_append, he₁]
      simp only [Option.bind_eq_bind, Option.bind_some, foldlM_cons, foldlM_nil, he₂]
      rfl
  obtain ⟨m', he, hat⟩ := hrun n (Nat.le_refl n)
  refine ⟨m', ?_, hat⟩
  rw [ffpcmMonoMix, hstart]
  simp only [Option.bind_eq_bind, Option.bind_some, if_neg h.format, he]

end Loop

/-! ### The error -/

/-- The output for frame `i`. -/
def outAt (m : Memory) (out : ℕ) (f : PcmFmt) (i : ℕ) : ℤ :=
  signed f.bits (leNat ((load m (out + i * f.size) f.size).getD []))

/-- The output for frame `i` is not clipped. -/
def Unclipped (inpcm : Ffpcmex) (blk : ℕ → ℕ → List UInt8) (i : ℕ) : Prop :=
  ffintLim inpcm.format.bits
      (mixOut inpcm.channels (frameSum inpcm.format.bits inpcm.channels blk) i) =
    mixOut inpcm.channels (frameSum inpcm.format.bits inpcm.channels blk) i

/-- The mix is written, and **its error is bounded**: as long as no output is clipped, the sum of
the outputs times the number of channels is less than that number away from the sum of the
inputs. -/
def MixBounded (m : Memory) (out : ℕ) (inpcm : Ffpcmex) (inp : Pcmdata) (n : ℕ)
    (blk : ℕ → ℕ → List UInt8) : Prop :=
  ∃ m', ffpcmMonoMix m out inpcm inp n = some (some m') ∧
    ∀ k ≤ n, (∀ i < k, Unclipped inpcm blk i) →
      |(inpcm.channels : ℤ) * ∑ i ∈ Finset.range k, outAt m' out inpcm.format i -
        ∑ i ∈ Finset.range k, frameSum inpcm.format.bits inpcm.channels blk i| < inpcm.channels

section Error

variable {nch : ℕ} {x : ℕ → ℤ} {n : ℕ}

/-- **The error of a frame**: what was carried in, less what is carried out for each channel but
one. -/
theorem mix_step (nch : ℕ) (x : ℕ → ℤ) (i : ℕ) :
    (nch : ℤ) * mixOut nch x i - x i =
      mixCarry nch x i - ((nch : ℤ) - 1) * mixCarry nch x (i + 1) := by
  have hdiv := Int.mul_tdiv_add_tmod (mixCarry nch x i + x i) nch
  have hout : (nch : ℤ) * mixOut nch x i =
      nch * (mixCarry nch x i + x i).tdiv nch + nch * (mixCarry nch x i + x i).tmod nch := by
    rw [mixOut, Int.mul_add]
  have hcarry : ((nch : ℤ) - 1) * mixCarry nch x (i + 1) =
      -(nch * (mixCarry nch x i + x i).tmod nch - (mixCarry nch x i + x i).tmod nch) := by
    rw [mixCarry, Int.mul_neg, Int.sub_mul, Int.one_mul]
  omega

theorem mixCarry_abs_lt (h : 1 ≤ nch) (x : ℕ → ℤ) (k : ℕ) : |mixCarry nch x k| < nch := by
  have hpos : (0 : ℤ) < nch := by exact_mod_cast h
  cases k with
  | zero =>
    rw [mixCarry, abs_zero]
    exact hpos
  | succ k =>
    rw [mixCarry, abs_neg, abs_lt]
    exact ⟨Int.lt_tmod_of_pos _ hpos, Int.tmod_lt_of_pos _ hpos⟩

theorem mixCarry_zero (h : ∀ i < n, (nch : ℤ) ∣ x i) : ∀ k ≤ n, mixCarry nch x k = 0 := by
  intro k hk
  induction k with
  | zero => rfl
  | succ k ih =>
    rw [mixCarry, ih (Nat.le_of_succ_le hk), zero_add, Int.tmod_eq_zero_of_dvd (h k hk), neg_zero]

/-- **The errors cancel** but for the last carry. -/
theorem mix_error (h : nch ≤ 2 ∨ ∀ i < n, (nch : ℤ) ∣ x i) (h1 : 1 ≤ nch) :
    ∀ k ≤ n, (nch : ℤ) * ∑ i ∈ Finset.range k, mixOut nch x i - ∑ i ∈ Finset.range k, x i =
      -mixCarry nch x k := by
  intro k hk
  induction k with
  | zero => simp [mixCarry]
  | succ k ih =>
    have hstep := mix_step nch x k
    rw [Finset.sum_range_succ, Finset.sum_range_succ, Int.mul_add]
    have hcancel : ((nch : ℤ) - 1) * mixCarry nch x (k + 1) = mixCarry nch x (k + 1) := by
      rcases h with h | h
      · obtain rfl | rfl : nch = 1 ∨ nch = 2 := by omega
        · have hzero : mixCarry 1 x (k + 1) = 0 :=
            mixCarry_zero (fun i _ => one_dvd (x i)) (k + 1) hk
          rw [hzero, Int.mul_zero]
        · exact Int.one_mul _
      · rw [mixCarry_zero h (k + 1) hk, Int.mul_zero]
    omega

theorem ffintLim_bounds (b : ℕ) (z : ℤ) : -2 ^ b ≤ ffintLim (b + 1) z ∧ ffintLim (b + 1) z < 2 ^ b := by
  have hpos : (0 : ℤ) < 2 ^ b := by positivity
  rw [ffintLim, Nat.add_sub_cancel]
  split
  · omega
  · split <;> omega

variable {m m' : Memory} {out : ℕ} {inpcm : Ffpcmex} {blk : ℕ → ℕ → List UInt8}

theorem MixAt.outAt_eq {i : ℕ}
    (h : MixAt m out inpcm n (frameSum inpcm.format.bits inpcm.channels blk) n m') (hi : i < n)
    (hu : Unclipped inpcm blk i) :
    outAt m' out inpcm.format i =
      mixOut inpcm.channels (frameSum inpcm.format.bits inpcm.channels blk) i := by
  obtain ⟨b, hb⟩ : ∃ b, inpcm.format.bits = b + 1 := by
    cases inpcm.format <;> exact ⟨_, rfl⟩
  have hpow : (256 : ℕ) ^ inpcm.format.size = 2 ^ inpcm.format.bits := by
    cases inpcm.format <;> rfl
  rw [Unclipped] at hu
  rw [outAt, h.outs i hi, Option.getD_some, leNat_leBytes (by rw [hpow]; exact toWord_lt _ _)]
  generalize mixOut inpcm.channels (frameSum inpcm.format.bits inpcm.channels blk) i = z at hu ⊢
  rw [hb] at hu ⊢
  obtain ⟨hl, hr⟩ := ffintLim_bounds b z
  rw [signed_toWord hl hr, hu]

/-- With at most two channels, and where no division has a remainder, the error is bounded. -/
theorem MixArgs.bounded {inp : Pcmdata} (h : MixArgs m out inpcm inp n blk)
    (hc : inpcm.channels ≤ 2 ∨
      ∀ i < n, (inpcm.channels : ℤ) ∣ frameSum inpcm.format.bits inpcm.channels blk i) :
    MixBounded m out inpcm inp n blk := by
  obtain ⟨m', he, hat⟩ := ffpcmMonoMix_spec h
  refine ⟨m', he, fun k hk hu => ?_⟩
  have houts : ∑ i ∈ Finset.range k, outAt m' out inpcm.format i =
      ∑ i ∈ Finset.range k,
        mixOut inpcm.channels (frameSum inpcm.format.bits inpcm.channels blk) i := by
    refine Finset.sum_congr rfl fun i hi => ?_
    have hik := Finset.mem_range.mp hi
    exact hat.outAt_eq (Nat.lt_of_lt_of_le hik hk) (hu i hik)
  rw [houts, mix_error hc h.one_le k hk, abs_neg]
  exact mixCarry_abs_lt h.one_le _ k

end Error

/-! ### More than two channels -/

/-- Memory with a sample of 2 at the address 0, and empty bytes behind it. -/
def mixMemory : Memory := fun a => if a < 64 then some (if a = 0 then 2 else 0) else none

/-- A frame with this sample in its first channel. -/
def mixFrame (f : PcmFmt) (c _i : ℕ) : List UInt8 := leBytes f.size (if c = 0 then 2 else 0)

theorem mixMemory_args {f : PcmFmt} (hf : f ≠ .int24_4) {nch : ℕ} (h1 : 1 ≤ nch) (h8 : nch ≤ 8) :
    MixArgs mixMemory 32 ⟨f, nch, 44100, true⟩ (.b 0) 1 (mixFrame f) := by
  have hsize : f.size ≤ 4 := by cases f <;> decide
  refine ⟨hf, h1, h8, rfl, ?_, ?_, ?_⟩
  · intro c hc i hi
    obtain rfl := Nat.lt_one_iff.mp hi
    have hc8 : c < 8 := Nat.lt_of_lt_of_le hc h8
    change load mixMemory (0 + (0 * nch + c) * f.size) f.size = some (mixFrame f c 0)
    rw [Nat.zero_mul, Nat.zero_add, Nat.zero_add]
    clear hc hi
    revert c
    cases f <;> decide
  · change (load mixMemory 32 (1 * f.size)).isSome
    cases f <;> decide
  intro c hc i hi
  obtain rfl := Nat.lt_one_iff.mp hi
  refine .inl ?_
  change 0 + (0 * nch + c) * f.size + f.size ≤ 32
  rw [Nat.zero_mul, Nat.zero_add, Nat.zero_add]
  have hle : (c + 1) * f.size ≤ 8 * 4 := Nat.mul_le_mul (Nat.le_trans hc h8) hsize
  rw [Nat.succ_mul] at hle
  omega

theorem frameSum_mixFrame {f : PcmFmt} {nch : ℕ} (h1 : 1 ≤ nch) (i : ℕ) :
    frameSum f.bits nch (mixFrame f) i = 2 := by
  have hone : ∀ c, signed f.bits (leNat (mixFrame f c i)) = if c = 0 then 2 else 0 := by
    intro c
    rw [mixFrame]
    by_cases hc : c = 0
    · rw [if_pos hc, if_pos hc]
      cases f <;> decide
    · rw [if_neg hc, if_neg hc]
      cases f <;> decide
  rw [frameSum, Finset.sum_congr rfl fun c _ => hone c, Finset.sum_ite_eq',
    if_pos (Finset.mem_range.mpr h1)]

theorem mixMemory_unbounded {f : PcmFmt} (hf : f ≠ .int24_4) {nch : ℕ} (h3 : 3 ≤ nch)
    (h8 : nch ≤ 8) : ¬MixBounded mixMemory 32 ⟨f, nch, 44100, true⟩ (.b 0) 1 (mixFrame f) := by
  rintro ⟨m', he, hbound⟩
  have h1 : 1 ≤ nch := by omega
  obtain ⟨m'', he', hat⟩ := ffpcmMonoMix_spec (mixMemory_args hf h1 h8)
  obtain rfl : m' = m'' := Option.some.inj (Option.some.inj (he.symm.trans he'))
  have hsum : ∀ i, frameSum f.bits nch (mixFrame f) i = 2 := frameSum_mixFrame h1
  have hout : mixOut nch (frameSum f.bits nch (mixFrame f)) 0 = 2 := by
    have hlt : (2 : ℤ) < nch := by exact_mod_cast h3
    rw [mixOut, mixCarry, hsum, zero_add, Int.tdiv_eq_zero_of_lt (by decide) hlt,
      Int.tmod_eq_of_lt (by decide) hlt, zero_add]
  have hu : Unclipped ⟨f, nch, 44100, true⟩ (mixFrame f) 0 := by
    change ffintLim f.bits (mixOut nch (frameSum f.bits nch (mixFrame f)) 0) =
      mixOut nch (frameSum f.bits nch (mixFrame f)) 0
    rw [hout]
    cases f <;> decide
  have hat0 : outAt m' 32 f 0 = 2 := (hat.outAt_eq Nat.zero_lt_one hu).trans hout
  have herr := hbound 1 (Nat.le_refl 1) fun i hi => Nat.lt_one_iff.mp hi ▸ hu
  rw [Finset.sum_range_one, Finset.sum_range_one] at herr
  have hle := (abs_lt.mp herr).2
  dsimp only at hle
  rw [hat0, hsum] at hle
  omega

/-! ### Results -/

/-- **The error of `_ffpcm_mono_mix`.** It is bounded in every run in which there are at most two
channels or no division has a remainder; that it is bounded in all runs for a number of channels
means that there are at most two. -/
theorem ffpcmMonoMix_error {f : PcmFmt} (hf : f ≠ .int24_4) {nch : ℕ} (h1 : 1 ≤ nch)
    (h8 : nch ≤ 8) :
    (∀ m out rate il inp n blk, MixArgs m out ⟨f, nch, rate, il⟩ inp n blk →
        (nch ≤ 2 ∨ ∀ i < n, (nch : ℤ) ∣ frameSum f.bits nch blk i) →
        MixBounded m out ⟨f, nch, rate, il⟩ inp n blk) ∧
      ((∀ m out rate il inp n blk, MixArgs m out ⟨f, nch, rate, il⟩ inp n blk →
        MixBounded m out ⟨f, nch, rate, il⟩ inp n blk) ↔ nch ≤ 2) := by
  refine ⟨fun m out rate il inp n blk h hc => h.bounded hc, fun hall => ?_, ?_⟩
  · refine Nat.le_of_not_lt fun h3 => mixMemory_unbounded hf h3 h8 ?_
    exact hall _ _ _ _ _ _ _ (mixMemory_args hf h1 h8)
  · intro h2 m out rate il inp n blk h
    exact h.bounded (.inl h2)

/-- Two channels of 16 bits. -/
theorem ffpcmMonoMix_error_example :
    MixBounded mixMemory 32 ⟨.int16, 2, 44100, true⟩ (.b 0) 1 (mixFrame .int16) :=
  (ffpcmMonoMix_error (by decide) (by decide) (by decide)).1 _ _ _ _ _ _ _
    (mixMemory_args (by decide) (by decide) (by decide)) (.inl (by decide))

/-- Three channels of 16 bits, and a frame with the samples 2, 0, 0: the output is 2. -/
theorem ffpcmMonoMix_drifts :
    MixArgs mixMemory 32 ⟨.int16, 3, 44100, true⟩ (.b 0) 1 (mixFrame .int16) ∧
      ¬MixBounded mixMemory 32 ⟨.int16, 3, 44100, true⟩ (.b 0) 1 (mixFrame .int16) :=
  ⟨mixMemory_args (by decide) (by decide) (by decide),
    mixMemory_unbounded (by decide) (by decide) (by decide)⟩

end FF
