import FF.Pcm.Basic
import Mathlib.Tactic.Positivity
import Mathlib.Tactic.Zify

/-!
# What a conversion does to the samples

A block of samples is stated apart from its layout: `HoldsSamples` says that sample `i` of channel
`c` is where the layout puts it. `ffpcm_convert` then takes a block in one layout to a block in
another, sample by sample.
-/

namespace FF

open List Option

/-! ### Layouts -/

namespace Pcmdata

/-- The address of sample `i` of channel `c`, where a sample has `w` bytes. -/
def place (d : Pcmdata) (w nch c i : ℕ) : ℕ :=
  match d with
  | .b p => p + (i * nch + c) * w
  | .pb ps => ps.getD c 0 + i * w

/-- The data are in the layout that the flag says. -/
def Fits (d : Pcmdata) (ileaved : Bool) (nch : ℕ) : Prop :=
  match d with
  | .b _ => ileaved = true
  | .pb ps => ileaved = false ∧ nch ≤ ps.length

/-- The buffers of the channels do not overlap. -/
def Separate (d : Pcmdata) (w nch n : ℕ) : Prop :=
  match d with
  | .b _ => True
  | .pb ps => ∀ c < nch, ∀ c' < nch, c ≠ c' →
      Apart (ps.getD c 0) (n * w) (ps.getD c' 0) (n * w)

/-- The data do not overlap. -/
def Disjoint (d : Pcmdata) (w : ℕ) (d' : Pcmdata) (w' nch n : ℕ) : Prop :=
  ∀ c < nch, ∀ i < n, ∀ c' < nch, ∀ i' < n, Apart (d.place w nch c i) w (d'.place w' nch c' i') w'

end Pcmdata

/-- Sample `i` of channel `c` is `blk c i`. -/
def HoldsSamples (m : Memory) (d : Pcmdata) (w nch n : ℕ) (blk : ℕ → ℕ → List UInt8) : Prop :=
  ∀ c < nch, ∀ i < n, load m (d.place w nch c i) w = some (blk c i)

/-- There is memory for the samples. -/
def Writable (m : Memory) (d : Pcmdata) (w nch n : ℕ) : Prop :=
  ∀ c < nch, ∀ i < n, (load m (d.place w nch c i) w).isSome

theorem apart_of_ne {p w j j' : ℕ} (h : j ≠ j') : Apart (p + j * w) w (p + j' * w) w := by
  rcases Nat.lt_or_gt_of_ne h with h | h
  · have hle : (j + 1) * w ≤ j' * w := Nat.mul_le_mul_right w h
    rw [Nat.succ_mul] at hle
    exact .inl (by omega)
  · have hle : (j' + 1) * w ≤ j * w := Nat.mul_le_mul_right w h
    rw [Nat.succ_mul] at hle
    exact .inr (by omega)

theorem mul_add_lt {i n w c : ℕ} (hi : i < n) (hc : c < w) : i * w + c < n * w := by
  have hle : (i + 1) * w ≤ n * w := Nat.mul_le_mul_right w hi
  rw [Nat.succ_mul] at hle
  omega

/-- **Different samples are at different places.** -/
theorem Pcmdata.Separate.apart {d : Pcmdata} {w nch n : ℕ} (h : d.Separate w nch n) {c i c' i' : ℕ}
    (hc : c < nch) (hi : i < n) (hc' : c' < nch) (hi' : i' < n) (hne : (c, i) ≠ (c', i')) :
    Apart (d.place w nch c i) w (d.place w nch c' i') w := by
  cases d with
  | b p =>
    refine apart_of_ne fun he => hne ?_
    have hdiv : ∀ {i c : ℕ}, c < nch → (i * nch + c) / nch = i := fun {i c} hc => by
      rw [Nat.mul_comm, Nat.mul_add_div (by omega), Nat.div_eq_of_lt hc, Nat.add_zero]
    have hi0 : i = i' := by rw [← hdiv (i := i) hc, he, hdiv hc']
    subst hi0
    rw [Nat.add_left_cancel he]
  | pb ps =>
    rw [Pcmdata.place, Pcmdata.place]
    by_cases hcc : c = c'
    · subst hcc
      exact apart_of_ne fun he => hne (by rw [he])
    have hi1 : i * w + w ≤ n * w := by
      rw [← Nat.succ_mul]
      exact Nat.mul_le_mul_right w hi
    have hi2 : i' * w + w ≤ n * w := by
      rw [← Nat.succ_mul]
      exact Nat.mul_le_mul_right w hi'
    rcases h c hc c' hc' hcc with ha | ha
    · exact .inl (by omega)
    · exact .inr (by omega)

/-- The pointers and the step that the loops take for a layout. -/
def Pcmdata.pointers (d : Pcmdata) (fmt : PcmFmt) (nch : ℕ) : List ℕ × ℕ :=
  match d with
  | .b p => (pcmSetni p fmt nch, nch)
  | .pb ps => (ps, 1)

theorem PcmFmt.bits_eq (f : PcmFmt) : f.bits = f.size * 8 := by cases f <;> rfl

/-- **The program finds the samples at their places.** -/
theorem Pcmdata.pointers_at {d : Pcmdata} {ileaved : Bool} {nch c : ℕ} (h : d.Fits ileaved nch)
    (hc : c < nch) (fmt : PcmFmt) :
    ∃ p, (d.pointers fmt nch).1[c]? = some p ∧
      ∀ i, p + i * (d.pointers fmt nch).2 * fmt.size = d.place fmt.size nch c i := by
  cases d with
  | b p =>
    refine ⟨p + c * fmt.bits / 8, ?_, fun i => ?_⟩
    · simp [Pcmdata.pointers, pcmSetni, hc]
    · rw [Pcmdata.pointers, Pcmdata.place, fmt.bits_eq, ← Nat.mul_assoc,
        Nat.mul_div_cancel _ (by decide), Nat.add_mul]
      dsimp only
      omega
  | pb ps =>
    have hlen : c < ps.length := Nat.lt_of_lt_of_le hc h.2
    refine ⟨ps[c], getElem?_eq_getElem hlen, fun i => ?_⟩
    rw [Pcmdata.pointers, Pcmdata.place, Nat.mul_one, getD_eq_getElem _ _ hlen]

/-! ### Cases of the switch -/

/-- A case fits its formats. -/
structure PcmCase.Ok (c : PcmCase) (f g : PcmFmt) : Prop where
  isize : c.isize = f.size
  osize : c.osize = g.size
  length : ∀ x : List UInt8, x.length = f.size → (c.pad ++ c.conv x).length = g.size

theorem pcmCase_ok {f g : PcmFmt} {c : PcmCase} (h : pcmCase f g = some c) : c.Ok f g := by
  cases f <;> cases g <;> cases h <;>
    exact ⟨rfl, rfl, fun x hx => by
      simp [ffintHtol24, length_leBytes, hx, PcmFmt.size, PcmFmt.bits]⟩

/-- **The loops of a case** convert every sample. -/
theorem PcmCase.loops_spec {c : PcmCase} {f g : PcmFmt} (hok : c.Ok f g) {m : Memory}
    {d₁ d₂ : Pcmdata} {il₁ il₂ : Bool} {nch n : ℕ} {blk : ℕ → ℕ → List UInt8}
    (hf₁ : d₁.Fits il₁ nch) (hf₂ : d₂.Fits il₂ nch) (hsrc : HoldsSamples m d₁ f.size nch n blk)
    (hdst : Writable m d₂ g.size nch n) (hsep : d₂.Separate g.size nch n)
    (hdis : d₁.Disjoint f.size d₂ g.size nch n) :
    ∃ m', c.loops (d₁.pointers f nch).1 (d₂.pointers g nch).1 nch n (d₁.pointers f nch).2
        (d₂.pointers g nch).2 m = some m' ∧ StaysAllocated m m' ∧
      HoldsSamples m' d₂ g.size nch n fun ch i => c.pad ++ c.conv (blk ch i) := by
  have hmem : ∀ j : ℕ × ℕ, j ∈ List.range nch ×ˢ List.range n ↔ j.1 < nch ∧ j.2 < n := by
    intro j
    rw [mem_product, mem_range, mem_range]
  rw [PcmCase.loops, foldlM_product]
  suffices h : ∃ m', (List.range nch ×ˢ List.range n).foldlM (c.sample (d₁.pointers f nch).1
      (d₂.pointers g nch).1 (d₁.pointers f nch).2 (d₂.pointers g nch).2) m = some m' ∧
      StaysAllocated m m' ∧ ∀ j ∈ List.range nch ×ˢ List.range n,
        load m' (d₂.place g.size nch j.1 j.2) g.size = some (c.pad ++ c.conv (blk j.1 j.2)) by
    obtain ⟨m', he, hk, hall⟩ := h
    exact ⟨m', he, hk, fun ch hch i hi => hall (ch, i) ((hmem _).mpr ⟨hch, hi⟩)⟩
  refine foldlM_writes _ (fun j : ℕ × ℕ => d₂.place g.size nch j.1 j.2) g.size _
    (fun m => HoldsSamples m d₁ f.size nch n blk) _ m ?_ ?_ ?_ hsrc ?_
  · -- one sample
    rintro ⟨ch, i⟩ hj m hm hread
    obtain ⟨hch, hi⟩ := (hmem _).mp hj
    obtain ⟨p, hp, hpat⟩ := Pcmdata.pointers_at hf₁ hch f
    obtain ⟨q, hq, hqat⟩ := Pcmdata.pointers_at hf₂ hch g
    have hx := hm ch hch i hi
    have hlen := hok.length _ (length_of_load hx)
    rw [length_append] at hlen
    rw [← hlen] at hread
    obtain ⟨m₁, m₂, he₁, hs₁, he₂, hl₂, hs₂⟩ := store_store_spec hread
    rw [hlen] at he₁ hs₁ he₂ hl₂ hs₂
    refine ⟨m₂, ?_, hl₂, hs₂⟩
    have hx₁ : load m₁ (d₁.place f.size nch ch i) f.size = some (blk ch i) := by
      rw [hs₁.load (hdis ch hch i hi ch hch i hi), hx]
    simp only [PcmCase.sample, hq, hp, hok.isize, hok.osize, hqat, hpat, he₁, hx₁, he₂,
      bind_eq_bind, bind_some]
  · -- the input is kept
    rintro ⟨ch, i⟩ hj m m' hm hsame ch' hch' i' hi'
    obtain ⟨hch, hi⟩ := (hmem _).mp hj
    rw [hsame.load (hdis ch' hch' i' hi' ch hch i hi)]
    exact hm ch' hch' i' hi'
  · refine List.Nodup.pairwise_of_forall_ne (nodup_range.product nodup_range) ?_
    rintro ⟨ch, i⟩ hj ⟨ch', i'⟩ hj' hne
    obtain ⟨hch, hi⟩ := (hmem _).mp hj
    obtain ⟨hch', hi'⟩ := (hmem _).mp hj'
    exact hsep.apart hch hi hch' hi' hne
  · rintro ⟨ch, i⟩ hj
    obtain ⟨hch, hi⟩ := (hmem _).mp hj
    exact hdst ch hch i hi

/-! ### Copies -/

theorem load_place {m m' : Memory} {p q w n i : ℕ} (h : ∀ k < n * w, m' (p + k) = m (q + k))
    (hi : i < n) : load m' (p + i * w) w = load m (q + i * w) w := by
  refine load_congr fun k hk => ?_
  rw [Nat.add_assoc, Nat.add_assoc]
  exact h _ (mul_add_lt hi hk)

theorem Pcmdata.Disjoint.out_of_channel {ps qs : List ℕ} {w nch n c c' k : ℕ}
    (h : (Pcmdata.pb ps).Disjoint w (.pb qs) w nch n) (hc : c < nch) (hk : k < n * w)
    (hc' : c' < nch) :
    ps.getD c 0 + k < qs.getD c' 0 ∨ qs.getD c' 0 + n * w ≤ ps.getD c 0 + k := by
  by_contra hin
  obtain ⟨t, ht, he⟩ : ∃ t < n * w, ps.getD c 0 + k = qs.getD c' 0 + t :=
    ⟨ps.getD c 0 + k - qs.getD c' 0, by omega, by omega⟩
  have hw : 0 < w := Nat.pos_of_ne_zero fun h0 => by simp [h0] at hk
  have hdiv : ∀ {x : ℕ}, x < n * w → x / w < n := fun {x} hx =>
    Nat.div_lt_of_lt_mul (by rwa [Nat.mul_comm])
  have hap := h c hc (k / w) (hdiv hk) c' hc' (t / w) (hdiv ht)
  have hk' := Nat.div_add_mod' k w
  have ht' := Nat.div_add_mod' t w
  have hkm := Nat.mod_lt k hw
  have htm := Nat.mod_lt t hw
  simp only [Pcmdata.place] at hap
  rcases hap with hap | hap <;> omega

/-- **`pcmCopy`** takes over every sample. -/
theorem pcmCopy_spec {f : PcmFmt} {m : Memory} {d₁ d₂ : Pcmdata} {il : Bool} {nch n : ℕ}
    {blk : ℕ → ℕ → List UInt8} (hf₁ : d₁.Fits il nch) (hf₂ : d₂.Fits il nch)
    (hsrc : HoldsSamples m d₁ f.size nch n blk) (hdst : Writable m d₂ f.size nch n)
    (hsep : d₂.Separate f.size nch n) (hdis : d₁.Disjoint f.size d₂ f.size nch n) :
    ∃ m', pcmCopy f d₁ d₂ nch n il m = some m' ∧ StaysAllocated m m' ∧
      HoldsSamples m' d₂ f.size nch n blk := by
  by_cases hn : n = 0
  · subst hn
    exact ⟨m, by rw [pcmCopy, if_pos rfl], fun _ ha => ha,
      fun _ _ i hi => absurd hi (Nat.not_lt_zero i)⟩
  rw [pcmCopy, if_neg hn]
  cases d₁ with
  | b p =>
    obtain rfl : il = true := hf₁
    cases d₂ with
    | pb qs => exact absurd hf₂.1 (by decide)
    | b q =>
      have hsize : n * (f.bits / 8 * nch) = n * nch * f.size := by
        rw [PcmFmt.size, Nat.mul_comm (f.bits / 8), ← Nat.mul_assoc]
      -- the place `j` of the table is sample `j / nch` of channel `j % nch`
      have hplace : ∀ j < n * nch, j % nch < nch ∧ j / nch < n ∧
          j = j / nch * nch + j % nch := by
        intro j hj
        have hpos : 0 < nch := Nat.pos_of_ne_zero fun h0 => by simp [h0] at hj
        exact ⟨Nat.mod_lt _ hpos, Nat.div_lt_of_lt_mul (by rwa [Nat.mul_comm]),
          (Nat.div_add_mod' j nch).symm⟩
      have hread : (load m p (n * nch * f.size)).isSome := by
        refine load_isSome_table fun j hj => ?_
        obtain ⟨hc, hi, hj⟩ := hplace j hj
        rw [hj]
        exact isSome_iff_exists.mpr ⟨_, hsrc _ hc _ hi⟩
      have hwrite : (load m q (n * nch * f.size)).isSome := by
        refine load_isSome_table fun j hj => ?_
        obtain ⟨hc, hi, hj⟩ := hplace j hj
        rw [hj]
        exact hdst _ hc _ hi
      obtain ⟨m', he, hbytes, hs⟩ := memcpy_spec hread hwrite
      refine ⟨m', ?_, hs.keeps ?_, fun c hc i hi => ?_⟩
      · simp only [if_true, Pcmdata.ptr, bind_eq_bind, bind_some, hsize]
        exact he
      · rw [load_congr hbytes]
        exact hread
      · rw [Pcmdata.place, load_place hbytes (mul_add_lt hi hc)]
        exact hsrc c hc i hi
  | pb ps =>
    obtain ⟨rfl, hps⟩ := hf₁
    cases d₂ with
    | b q => exact absurd (show false = true from hf₂) (by decide)
    | pb qs =>
      have hqs := hf₂.2
      have hsize : n * f.bits / 8 = n * f.size := by
        rw [f.bits_eq, ← Nat.mul_assoc, Nat.mul_div_cancel _ (by decide)]
      have hget : ∀ {xs : List ℕ} {c : ℕ}, nch ≤ xs.length → c < nch →
          xs[c]? = some (xs.getD c 0) := fun {xs c} hxs hc => by
        have hlen : c < xs.length := Nat.lt_of_lt_of_le hc hxs
        rw [getElem?_eq_getElem hlen, getD_eq_getElem _ _ hlen]
      have hread : ∀ c < nch, (load m (ps.getD c 0) (n * f.size)).isSome := fun c hc =>
        load_isSome_table fun i hi => isSome_iff_exists.mpr ⟨_, hsrc c hc i hi⟩
      obtain ⟨m', he, hk, hall⟩ := foldlM_writes
        (fun m ich => do
          let q ← (← (Pcmdata.pb qs).table)[ich]?
          let p ← (← (Pcmdata.pb ps).table)[ich]?
          memcpy m q p (n * f.bits / 8))
        (fun c => qs.getD c 0) (n * f.size)
        (fun c => (load m (ps.getD c 0) (n * f.size)).getD [])
        (fun m' => ∀ c < nch, ∀ k < n * f.size, m' (ps.getD c 0 + k) = m (ps.getD c 0 + k))
        (List.range nch) m
        (fun c hc m₁ hm₁ hw => by
          have hc := mem_range.mp hc
          have hsame := load_congr (hm₁ c hc)
          obtain ⟨m₂, he, hbytes, hs⟩ := memcpy_spec (hsame ▸ hread c hc) hw
          refine ⟨m₂, ?_, ?_, hs⟩
          · simp only [Pcmdata.table, bind_eq_bind, bind_some, hget hqs hc,
              hget hps hc, hsize, he]
          · rw [load_congr hbytes, hsame]
            obtain ⟨x, hx⟩ := isSome_iff_exists.mp (hread c hc)
            rw [hx, getD_some])
        (fun c hc m₁ m₂ hm₁ hs c' hc' k hk => by
          rw [hs _ (hdis.out_of_channel hc' hk (mem_range.mp hc)), hm₁ c' hc' k hk])
        (nodup_range.pairwise_of_forall_ne fun c hc c' hc' hne =>
          hsep c (mem_range.mp hc) c' (mem_range.mp hc') hne)
        (fun _ _ _ _ => rfl)
        (fun c hc => load_isSome_table fun i hi => hdst c (mem_range.mp hc) i hi)
      refine ⟨m', he, hk, fun c hc i hi => ?_⟩
      have hc' := hall c (mem_range.mpr hc)
      obtain ⟨x, hx⟩ := isSome_iff_exists.mp (hread c hc)
      rw [hx, getD_some] at hc'
      rw [Pcmdata.place, load_place (fun k hk => ?_) hi]
      · exact hsrc c hc i hi
      · rw [getElem?_of_load hc' hk, getElem?_of_load hx hk]

/-! ### `ffpcm_convert` -/

/-- What becomes of the bytes of a sample. -/
def pcmSample (f g : PcmFmt) : Option (List UInt8 → List UInt8) :=
  if f = g then some id else (pcmCase f g).map fun c x => c.pad ++ c.conv x

theorem pcmSample_of_case {f g : PcmFmt} {c : PcmCase} (h : pcmCase f g = some c) :
    pcmSample f g = some fun x => c.pad ++ c.conv x := by
  rw [pcmSample]
  by_cases hfg : f = g
  · subst hfg
    rw [if_pos rfl]
    cases f <;> cases h <;> rfl
  · rw [if_neg hfg, h]
    rfl

theorem pcmLoops_eq {outpcm inpcm : Ffpcmex} {d₁ d₂ : Pcmdata} {nch : ℕ}
    (hf₁ : d₁.Fits inpcm.ileaved nch) (hf₂ : d₂.Fits outpcm.ileaved nch) (n : ℕ) (m : Memory) :
    pcmLoops outpcm inpcm d₂ n ⟨m, d₁, nch, inpcm.ileaved, 1⟩ =
      (pcmCase inpcm.format outpcm.format).elim (some none) fun c =>
        (c.loops (d₁.pointers inpcm.format nch).1 (d₂.pointers outpcm.format nch).1 nch n
          (d₁.pointers inpcm.format nch).2 (d₂.pointers outpcm.format nch).2 m).map some := by
  have hstart : ∀ {d : Pcmdata} {il : Bool} (fmt : PcmFmt), d.Fits il nch →
      d.start il fmt nch 1 = some (d.pointers fmt nch) := by
    intro d il fmt hf
    cases d with
    | b p =>
      obtain rfl : il = true := hf
      rfl
    | pb ps =>
      obtain rfl : il = false := hf.1
      rfl
  rw [pcmLoops]
  simp only [hstart _ hf₁, hstart _ hf₂, bind_eq_bind, bind_some]
  cases pcmCase inpcm.format outpcm.format <;> rfl

theorem pcmRelayout_spec {d : Pcmdata} {il il' : Bool} {n : ℕ} (hf : d.Fits il 1) (hne : il ≠ il')
    (hn : n ≠ 0) (m : Memory) :
    ∃ d', pcmRelayout il' n ⟨m, d, 1, il, 1⟩ = some ⟨m, d', 1, il', 1⟩ ∧ d'.Fits il' 1 ∧
      ∀ w c i, c < 1 → d'.place w 1 c i = d.place w 1 c i := by
  have hc0 : ∀ {c : ℕ}, c < 1 → c = 0 := fun {c} hc => by omega
  cases d with
  | b p =>
    obtain rfl : il = true := hf
    obtain rfl : il' = false := by
      cases il'
      · rfl
      · exact absurd rfl hne
    refine ⟨.pb [p], ?_, ⟨rfl, Nat.le_refl _⟩, fun w c i hc => ?_⟩
    · simp [pcmRelayout, hn, Pcmdata.ptr]
    · simp [Pcmdata.place, hc0 hc]
  | pb ps =>
    obtain ⟨rfl, hlen⟩ := hf
    obtain rfl : il' = true := by
      cases il'
      · exact absurd rfl hne
      · rfl
    have hpos : 0 < ps.length := hlen
    refine ⟨.b ps[0], ?_, rfl, fun w c i hc => ?_⟩
    · simp [pcmRelayout, hn, Pcmdata.table, hpos]
    · simp [Pcmdata.place, hc0 hc, hpos]

/-- A block of samples, the memory for the result, and the layouts they are in. -/
structure PcmArgs (m : Memory) (outpcm : Ffpcmex) (out : Pcmdata) (inpcm : Ffpcmex) (inp : Pcmdata)
    (n : ℕ) (blk : ℕ → ℕ → List UInt8) : Prop where
  channels : outpcm.channels = inpcm.channels
  one_le : 1 ≤ inpcm.channels
  le_eight : inpcm.channels ≤ 8
  fits_in : inp.Fits inpcm.ileaved inpcm.channels
  fits_out : out.Fits outpcm.ileaved inpcm.channels
  holds : HoldsSamples m inp inpcm.format.size inpcm.channels n blk
  writable : Writable m out outpcm.format.size inpcm.channels n
  separate : out.Separate outpcm.format.size inpcm.channels n
  disjoint : inp.Disjoint inpcm.format.size out outpcm.format.size inpcm.channels n

section Args

variable {m : Memory} {outpcm inpcm : Ffpcmex} {out inp : Pcmdata} {n : ℕ}
  {blk : ℕ → ℕ → List UInt8}

theorem PcmArgs.loops (h : PcmArgs m outpcm out inpcm inp n blk) :
    (pcmLoops outpcm inpcm out n ⟨m, inp, inpcm.channels, inpcm.ileaved, 1⟩ = some none ∧
        pcmCase inpcm.format outpcm.format = none) ∨
      ∃ m' conv, pcmLoops outpcm inpcm out n ⟨m, inp, inpcm.channels, inpcm.ileaved, 1⟩ =
          some (some m') ∧ pcmSample inpcm.format outpcm.format = some conv ∧ StaysAllocated m m' ∧
        HoldsSamples m' out outpcm.format.size inpcm.channels n fun c i => conv (blk c i) := by
  rw [pcmLoops_eq h.fits_in h.fits_out]
  cases hcase : pcmCase inpcm.format outpcm.format with
  | none => exact .inl ⟨rfl, rfl⟩
  | some c =>
    obtain ⟨m', he, hk, hm'⟩ := PcmCase.loops_spec (pcmCase_ok hcase) h.fits_in h.fits_out h.holds
      h.writable h.separate h.disjoint
    refine .inr ⟨m', _, ?_, pcmSample_of_case hcase, hk, hm'⟩
    rw [Option.elim_some, he]
    rfl

theorem PcmArgs.samples (h : PcmArgs m outpcm out inpcm inp n blk) :
    (pcmSamples outpcm inpcm out n ⟨m, inp, inpcm.channels, inpcm.ileaved, 1⟩ = some none ∧
        pcmCase inpcm.format outpcm.format = none) ∨
      ∃ m' conv, pcmSamples outpcm inpcm out n ⟨m, inp, inpcm.channels, inpcm.ileaved, 1⟩ =
          some (some m') ∧ pcmSample inpcm.format outpcm.format = some conv ∧ StaysAllocated m m' ∧
        HoldsSamples m' out outpcm.format.size inpcm.channels n fun c i => conv (blk c i) := by
  obtain ⟨ofmt, och, orate, oil⟩ := outpcm
  obtain ⟨ifmt, nch, irate, iil⟩ := inpcm
  by_cases hfmt : ifmt = ofmt
  · subst hfmt
    have hid : pcmSample ifmt ifmt = some id := if_pos rfl
    rw [pcmSamples, if_pos ⟨rfl, rfl⟩]
    by_cases hil : iil = oil
    · -- the layout is the same
      subst hil
      obtain ⟨m', he, hk, hm'⟩ := pcmCopy_spec h.fits_in h.fits_out h.holds h.writable h.separate
        h.disjoint
      refine .inr ⟨m', id, ?_, hid, hk, hm'⟩
      have hre : pcmRelayout iil n ⟨m, inp, nch, iil, 1⟩ = some ⟨m, inp, nch, iil, 1⟩ :=
        if_neg fun hc => hc.1 rfl
      simp only [hre, bind_eq_bind, bind_some, if_true, he, map_some]
    by_cases hmono : nch = 1
    · -- one channel
      subst hmono
      by_cases hn : n = 0
      · subst hn
        refine .inr ⟨m, id, ?_, hid, fun _ ha => ha,
          fun _ _ i hi => absurd hi (Nat.not_lt_zero i)⟩
        have hre : pcmRelayout oil 0 ⟨m, inp, 1, iil, 1⟩ = some ⟨m, inp, 1, oil, 1⟩ := by
          rw [pcmRelayout, if_pos ⟨hil, rfl⟩, if_pos rfl]
        simp only [hre, bind_eq_bind, bind_some, if_true, pcmCopy, map_some]
      obtain ⟨d', hre, hf', hplace⟩ := pcmRelayout_spec h.fits_in hil hn m
      have hsrc : HoldsSamples m d' ifmt.size 1 n blk := by
        intro c hc i hi
        rw [hplace _ c i hc]
        exact h.holds c hc i hi
      obtain ⟨m', he, hk, hm'⟩ := pcmCopy_spec hf' h.fits_out hsrc h.writable h.separate
        (fun c hc i hi c' hc' i' hi' => by
          rw [hplace _ c i hc]
          exact h.disjoint c hc i hi c' hc' i' hi')
      refine .inr ⟨m', id, ?_, hid, hk, hm'⟩
      simp only [hre, bind_eq_bind, bind_some, if_true, he, map_some]
    · have hre : pcmRelayout oil n ⟨m, inp, nch, iil, 1⟩ = some ⟨m, inp, nch, iil, 1⟩ :=
        if_neg fun hc => hmono hc.2
      simp only [hre, bind_eq_bind, bind_some, hil, if_false]
      exact h.loops
  · rw [pcmSamples, if_neg fun hc => hfmt hc.1]
    exact h.loops

/-- **`ffpcm_convert`** on channels that match: every sample is converted and put into its place,
or the conversion is not supported and nothing is changed. -/
theorem ffpcmConvert_spec (h : PcmArgs m outpcm out inpcm inp n blk) (tmp : Option ℕ) :
    (ffpcmConvert tmp outpcm out inpcm inp n m = some (-1, m) ∧
        (inpcm.sampleRate ≠ outpcm.sampleRate ∨ pcmCase inpcm.format outpcm.format = none)) ∨
      ∃ m' conv, ffpcmConvert tmp outpcm out inpcm inp n m = some (0, m') ∧
        pcmSample inpcm.format outpcm.format = some conv ∧ StaysAllocated m m' ∧
        HoldsSamples m' out outpcm.format.size inpcm.channels n fun c i => conv (blk c i) := by
  have hle := h.le_eight
  have hmax : ¬(inpcm.channels > 8 ∨ outpcm.channels % 16 > 8) := by
    rw [h.channels]
    omega
  rw [ffpcmConvert, if_neg hmax]
  by_cases hrate : inpcm.sampleRate = outpcm.sampleRate
  · rw [if_neg (not_not.mpr hrate), if_neg (not_not.mpr h.channels.symm)]
    simp only [bind_eq_bind, bind_some]
    have hfree : ∀ m', pcmFree tmp outpcm inpcm n m' = m' := by
      intro m'
      cases tmp with
      | none => rfl
      | some t => exact if_neg fun hc => hc.1 h.channels.symm
    rcases h.samples with ⟨he, hnone⟩ | ⟨m', conv, he, hconv, hk, hm'⟩
    · rw [he]
      exact .inl ⟨rfl, .inr hnone⟩
    · rw [he]
      refine .inr ⟨m', conv, ?_, hconv, hk, hm'⟩
      rw [bind_some]
      dsimp only
      rw [hfree]
  · rw [if_pos hrate]
    exact .inl ⟨rfl, .inl hrate⟩

end Args

/-! ### A sample there and back -/

theorem toWord_lt (b : ℕ) (z : ℤ) : toWord b z < 2 ^ b := by
  have hpos : (0 : ℤ) < 2 ^ b := by positivity
  have hlt := Int.emod_lt_of_pos z hpos
  rw [toWord, Int.toNat_lt (Int.emod_nonneg _ hpos.ne')]
  exact_mod_cast hlt

theorem toWord_signed {b n : ℕ} (h : n < 2 ^ b) : toWord b (signed b n) = n := by
  have hcast : (n : ℤ) < 2 ^ b := by exact_mod_cast h
  have hmod : (n : ℤ) % 2 ^ b = n := Int.emod_eq_of_lt (Int.natCast_nonneg n) hcast
  rw [toWord, signed]
  split
  · rw [hmod, Int.toNat_natCast]
  · rw [Int.sub_emod_right, hmod, Int.toNat_natCast]

theorem signed_toWord {b : ℕ} {z : ℤ} (hl : -2 ^ b ≤ z) (hr : z < 2 ^ b) :
    signed (b + 1) (toWord (b + 1) z) = z := by
  have hword : (toWord (b + 1) z : ℤ) = z % 2 ^ (b + 1) := by
    rw [toWord, Int.toNat_of_nonneg (Int.emod_nonneg _ (by positivity))]
  rw [signed, Nat.add_sub_cancel, hword]
  rcases lt_or_ge z 0 with hneg | hnonneg
  · have hmod : z % 2 ^ (b + 1) = z + 2 ^ (b + 1) := by
      rw [← Int.add_emod_right, Int.emod_eq_of_lt (by omega) (by omega)]
    have hnot : ¬toWord (b + 1) z < 2 ^ b := by
      zify
      rw [hword, hmod]
      omega
    rw [if_neg hnot, hmod]
    omega
  have hmod : z % 2 ^ (b + 1) = z := Int.emod_eq_of_lt hnonneg (by omega)
  have hlt : toWord (b + 1) z < 2 ^ b := by
    zify
    rw [hword, hmod]
    exact hr
  rw [if_pos hlt, hmod]

theorem signed_bounds {b n : ℕ} (h : n < 2 ^ (b + 1)) :
    -2 ^ b ≤ signed (b + 1) n ∧ signed (b + 1) n < 2 ^ b := by
  zify at h
  rw [signed, Nat.add_sub_cancel]
  split
  · rename_i hlt
    zify at hlt
    omega
  · rename_i hge
    zify at hge
    omega

/-- `int8` to `int16` and back. -/
theorem sample_8_16_8 {x : List UInt8} (hx : x.length = 1) :
    leBytes 1 (toWord 8 ((signed 16 (leNat (leBytes 2
      (toWord 16 (signed 8 (leNat x) * 0x100))))).tdiv 0x100)) = x := by
  have hlt := leNat_lt x
  rw [hx] at hlt
  obtain ⟨hl, hr⟩ : -2 ^ 7 ≤ signed 8 (leNat x) ∧ signed 8 (leNat x) < 2 ^ 7 := signed_bounds hlt
  rw [leNat_leBytes (toWord_lt 16 _), signed_toWord (by omega) (by omega),
    Int.mul_tdiv_cancel _ (by decide), toWord_signed hlt, ← hx, leBytes_leNat]

/-- `int16` to `int24` and back. -/
theorem sample_16_24_16 {x : List UInt8} (hx : x.length = 2) :
    leBytes 2 (ffintLtoh24 (ffintHtol24 (toWord 32 (signed 16 (leNat x) * 0x100))) / 0x100) =
      x := by
  have hlt := leNat_lt x
  rw [hx] at hlt
  have hword : toWord 32 (signed 16 (leNat x) * 0x100) % 256 ^ 3 = leNat x * 0x100 := by
    rw [toWord, signed]
    split <;> omega
  rw [ffintLtoh24, ffintHtol24, leNat_leBytes_mod, hword, Nat.mul_div_cancel _ (by decide), ← hx,
    leBytes_leNat]

/-- `int24` to `int32` and back. -/
theorem sample_24_32_24 {x : List UInt8} (hx : x.length = 3) :
    ffintHtol24 (toWord 32 ((signed 32 (leNat (leBytes 4
      (ffintLtoh24 x * 0x100 % 2 ^ 32)))).tdiv 0x100)) = x := by
  have hlt := leNat_lt x
  rw [hx] at hlt
  have hsigned : signed 32 (leNat x * 0x100) = signed 24 (leNat x) * 0x100 := by
    rw [signed, signed]
    split <;> split <;> omega
  have hword : toWord 32 (signed 24 (leNat x)) % 256 ^ 3 = leNat x := by
    rw [toWord, signed]
    split <;> omega
  rw [ffintLtoh24, Nat.mod_eq_of_lt (by omega), leNat_leBytes (by omega), hsigned,
    Int.mul_tdiv_cancel _ (by decide), ffintHtol24, ← leBytes_mod, hword, ← hx, leBytes_leNat]

/-- `int16` to `int32` and back: only the low half of a number is kept, which is empty. -/
theorem sample_16_32_16 {x : List UInt8} (hx : x.length = 2) :
    leBytes 2 (toWord 16 (signed 32 (leNat (leBytes 4
      (toWord 32 (signed 16 (leNat x) * 0x10000)))))) = [0, 0] := by
  have hlt := leNat_lt x
  rw [hx] at hlt
  obtain ⟨hl, hr⟩ : -2 ^ 15 ≤ signed 16 (leNat x) ∧ signed 16 (leNat x) < 2 ^ 15 :=
    signed_bounds hlt
  have hword : toWord 16 (signed 16 (leNat x) * 0x10000) = 0 := by
    rw [toWord]
    omega
  rw [leNat_leBytes (toWord_lt 32 _), signed_toWord (by omega) (by omega), hword]
  rfl

/-- **A sample there and back**: all wider formats keep it, except `int32` for `int16`. -/
theorem pcmSample_back {f g : PcmFmt} {conv back : List UInt8 → List UInt8}
    (hfg : f.bits < g.bits) (hc : pcmSample f g = some conv) (hb : pcmSample g f = some back)
    {x : List UInt8} (hx : x.length = f.size) :
    back (conv x) = if f = .int16 ∧ g = .int32 then [0, 0] else x := by
  cases f <;> cases g <;> first | exact absurd hfg (by decide) | cases hb <;> cases hc
  · exact sample_8_16_8 hx
  · exact sample_16_24_16 hx
  · exact sample_16_32_16 hx
  · exact sample_24_32_24 hx

/-! ### There and back -/

/-- A block of samples, memory for it in a wider format, and memory to convert it back to. -/
structure PcmBack (m : Memory) (inpcm midpcm outpcm : Ffpcmex) (inp mid out : Pcmdata) (n : ℕ)
    (blk : ℕ → ℕ → List UInt8) : Prop where
  args : PcmArgs m midpcm mid inpcm inp n blk
  wider : inpcm.format.bits < midpcm.format.bits
  format : outpcm.format = inpcm.format
  channels : outpcm.channels = inpcm.channels
  sampleRate : outpcm.sampleRate = inpcm.sampleRate
  fits : out.Fits outpcm.ileaved inpcm.channels
  writable : Writable m out inpcm.format.size inpcm.channels n
  separate : out.Separate inpcm.format.size inpcm.channels n
  disjoint : mid.Disjoint midpcm.format.size out inpcm.format.size inpcm.channels n

/-- If both conversions are supported, they restore the samples. -/
def RoundTrips (m : Memory) (inpcm midpcm outpcm : Ffpcmex) (inp mid out : Pcmdata) (n : ℕ)
    (blk : ℕ → ℕ → List UInt8) : Prop :=
  ∀ tmp tmp' m₁ m₂, ffpcmConvert tmp midpcm mid inpcm inp n m = some (0, m₁) →
    ffpcmConvert tmp' outpcm out midpcm mid n m₁ = some (0, m₂) →
    HoldsSamples m₂ out inpcm.format.size inpcm.channels n blk

section Back

variable {m : Memory} {inpcm midpcm outpcm : Ffpcmex} {inp mid out : Pcmdata} {n : ℕ}
  {blk : ℕ → ℕ → List UInt8}

theorem PcmBack.second (h : PcmBack m inpcm midpcm outpcm inp mid out n blk) {m₁ : Memory}
    {conv : List UInt8 → List UInt8} (hk : StaysAllocated m m₁)
    (hm₁ : HoldsSamples m₁ mid midpcm.format.size inpcm.channels n fun c i => conv (blk c i)) :
    PcmArgs m₁ outpcm out midpcm mid n fun c i => conv (blk c i) := by
  obtain ⟨ofmt, och, orate, oil⟩ := outpcm
  obtain ⟨gfmt, gch, grate, gil⟩ := midpcm
  obtain rfl : ofmt = inpcm.format := h.format
  obtain rfl : gch = inpcm.channels := h.args.channels
  exact ⟨h.channels, h.args.one_le, h.args.le_eight, h.args.fits_out, h.fits, hm₁,
    fun c hc i hi => hk.load (h.writable c hc i hi), h.separate, h.disjoint⟩

/-- **Both conversions**, where both are supported. -/
theorem PcmBack.convert (h : PcmBack m inpcm midpcm outpcm inp mid out n blk) {tmp tmp' : Option ℕ}
    {m₁ m₂ : Memory} (h₁ : ffpcmConvert tmp midpcm mid inpcm inp n m = some (0, m₁))
    (h₂ : ffpcmConvert tmp' outpcm out midpcm mid n m₁ = some (0, m₂)) :
    ∀ c < inpcm.channels, ∀ i < n,
      load m₂ (out.place inpcm.format.size inpcm.channels c i) inpcm.format.size =
        some (if inpcm.format = .int16 ∧ midpcm.format = .int32 then [0, 0] else blk c i) := by
  rcases ffpcmConvert_spec h.args tmp with ⟨he, -⟩ | ⟨m₁', conv, he, hconv, hk, hm₁⟩
  · rw [he] at h₁
    simp at h₁
  obtain rfl : m₁' = m₁ := by
    rw [he] at h₁
    simpa using h₁
  have h' := h.second hk hm₁
  rcases ffpcmConvert_spec h' tmp' with ⟨he', -⟩ | ⟨m₂', back, he', hback, -, hm₂⟩
  · rw [he'] at h₂
    simp at h₂
  obtain rfl : m₂' = m₂ := by
    rw [he'] at h₂
    simpa using h₂
  rw [h.format] at hback hm₂
  rw [h.args.channels] at hm₂
  intro c hc i hi
  have hlen := length_of_load (h.args.holds c hc i hi)
  rw [hm₂ c hc i hi, ← pcmSample_back h.wider hconv hback hlen]

/-- **The conversions of the integer formats.** A conversion to a wider format and back restores
the samples, where both are supported, if and only if it is not from `int16` to `int32`, or the
samples are silent. A conversion between layouts only moves the samples. -/
theorem ffpcmConvert_roundTrip (h : PcmBack m inpcm midpcm outpcm inp mid out n blk)
    {m' : Memory} {opcm ipcm : Ffpcmex} {odata idata : Pcmdata} {n' : ℕ}
    {blk' : ℕ → ℕ → List UInt8} (h' : PcmArgs m' opcm odata ipcm idata n' blk')
    (hfmt : opcm.format = ipcm.format) :
    (RoundTrips m inpcm midpcm outpcm inp mid out n blk ↔
      (inpcm.sampleRate = midpcm.sampleRate → inpcm.format = .int16 → midpcm.format = .int32 →
        ∀ c < inpcm.channels, ∀ i < n, blk c i = [0, 0])) ∧
      ∀ tmp m'', ffpcmConvert tmp opcm odata ipcm idata n' m' = some (0, m'') →
        HoldsSamples m'' odata ipcm.format.size ipcm.channels n' blk' := by
  refine ⟨⟨fun hrt hrate hf hg c hc i hi => ?_, fun hsilent tmp tmp' m₁ m₂ h₁ h₂ => ?_⟩,
    fun tmp m'' he => ?_⟩
  · -- both conversions are supported, and the second one leaves silence
    rcases ffpcmConvert_spec h.args none with ⟨-, hno⟩ | ⟨m₁, conv, h₁, -, hk, hm₁⟩
    · rw [hf, hg] at hno
      rcases hno with hno | hno
      · exact absurd hrate hno
      · cases hno
    rcases ffpcmConvert_spec (h.second hk hm₁) none with ⟨-, hno⟩ | ⟨m₂, back, h₂, -, -, -⟩
    · rw [h.format, hf, hg] at hno
      rcases hno with hno | hno
      · exact absurd (hrate.symm.trans h.sampleRate.symm) hno
      · cases hno
    · have hblk := hrt none none m₁ m₂ h₁ h₂ c hc i hi
      have hzero := h.convert h₁ h₂ c hc i hi
      rw [hblk, if_pos ⟨hf, hg⟩] at hzero
      exact some.inj hzero
  · intro c hc i hi
    rw [h.convert h₁ h₂ c hc i hi]
    by_cases hfg : inpcm.format = .int16 ∧ midpcm.format = .int32
    · have hrate : inpcm.sampleRate = midpcm.sampleRate := by
        by_contra hne
        rcases ffpcmConvert_spec h.args tmp with ⟨he, -⟩ | ⟨m₁', conv, he, -⟩
        · rw [he] at h₁
          simp at h₁
        · rw [ffpcmConvert] at he
          simp [hne] at he
      rw [if_pos hfg, hsilent hrate hfg.1 hfg.2 c hc i hi]
    · rw [if_neg hfg]
  rcases ffpcmConvert_spec h' tmp with ⟨he', -⟩ | ⟨m₁, conv, he', hconv, -, hm₁⟩
  · rw [he'] at he
    simp at he
  obtain rfl : m₁ = m'' := by
    rw [he'] at he
    simpa using he
  obtain rfl : conv = id := by
    rw [hfmt, pcmSample, if_pos rfl] at hconv
    exact (some.inj hconv).symm
  rw [hfmt] at hm₁
  exact hm₁

end Back

/-- Memory with a sample of 1 at the address 0, and empty bytes behind it. -/
def oneSample : Memory := fun a => if a < 16 then some (if a = 0 then 1 else 0) else none

theorem oneSample_back (mid : PcmFmt) (hw : 16 < mid.bits) :
    PcmBack oneSample ⟨.int16, 1, 44100, true⟩ ⟨mid, 1, 44100, true⟩ ⟨.int16, 1, 44100, false⟩
      (.b 0) (.b 4) (.pb [8]) 1 fun _ _ => [1, 0] := by
  have hzero : ∀ {c i : ℕ}, c < 1 → i < 1 → c = 0 ∧ i = 0 := by omega
  refine ⟨⟨rfl, by decide, by decide, rfl, rfl, ?_, ?_, trivial, ?_⟩, hw, rfl, rfl, rfl,
    ⟨rfl, by decide⟩, ?_, ?_, ?_⟩
  · intro c hc i hi
    obtain ⟨rfl, rfl⟩ := hzero hc hi
    decide
  · intro c hc i hi
    obtain ⟨rfl, rfl⟩ := hzero hc hi
    cases mid <;> decide
  · intro c hc i hi c' hc' i' hi'
    obtain ⟨rfl, rfl⟩ := hzero hc hi
    obtain ⟨rfl, rfl⟩ := hzero hc' hi'
    cases mid <;> exact .inl (by decide)
  · intro c hc i hi
    obtain ⟨rfl, rfl⟩ := hzero hc hi
    decide
  · intro c hc c' hc' hne
    exact absurd ((Nat.lt_one_iff.mp hc).trans (Nat.lt_one_iff.mp hc').symm) hne
  · intro c hc i hi c' hc' i' hi'
    obtain ⟨rfl, rfl⟩ := hzero hc hi
    obtain ⟨rfl, rfl⟩ := hzero hc' hi'
    cases mid <;> exact .inl (by decide)

/-- A sample is restored behind `int24`, and moved from one layout to the other. -/
theorem ffpcmConvert_roundTrip_example :
    (RoundTrips oneSample ⟨.int16, 1, 44100, true⟩ ⟨.int24, 1, 44100, true⟩
        ⟨.int16, 1, 44100, false⟩ (.b 0) (.b 4) (.pb [8]) 1 (fun _ _ => [1, 0]) ↔
      (44100 = 44100 → PcmFmt.int16 = .int16 → PcmFmt.int24 = .int32 →
        ∀ c < 1, ∀ i < 1, (fun _ _ => [1, 0] : ℕ → ℕ → List UInt8) c i = [0, 0])) ∧
      ∀ tmp m'', ffpcmConvert tmp ⟨.int16, 1, 44100, false⟩ (.pb [8]) ⟨.int16, 1, 44100, true⟩
          (.b 0) 1 oneSample = some (0, m'') →
        HoldsSamples m'' (.pb [8]) 2 1 1 fun _ _ => [1, 0] := by
  have h := oneSample_back .int24 (by decide)
  have h' : PcmArgs oneSample ⟨.int16, 1, 44100, false⟩ (.pb [8]) ⟨.int16, 1, 44100, true⟩ (.b 0) 1
      fun _ _ => [1, 0] :=
    ⟨rfl, by decide, by decide, rfl, h.fits, h.args.holds, h.writable, h.separate, by
      intro c hc i hi c' hc' i' hi'
      obtain rfl := Nat.lt_one_iff.mp hc
      obtain rfl := Nat.lt_one_iff.mp hi
      obtain rfl := Nat.lt_one_iff.mp hc'
      obtain rfl := Nat.lt_one_iff.mp hi'
      exact .inl (by decide)⟩
  exact ffpcmConvert_roundTrip h h' rfl

/-- **From `int16` to `int32` and back** a sample is lost. -/
theorem ffpcmConvert_lost :
    ¬∀ (m : Memory) (inpcm midpcm outpcm : Ffpcmex) (inp mid out : Pcmdata) (n : ℕ)
      (blk : ℕ → ℕ → List UInt8), PcmBack m inpcm midpcm outpcm inp mid out n blk →
        RoundTrips m inpcm midpcm outpcm inp mid out n blk := by
  intro hall
  have h := oneSample_back .int32 (by decide)
  have hrt := hall _ _ _ _ _ _ _ _ _ h
  rcases ffpcmConvert_spec h.args none with ⟨-, hno⟩ | ⟨m₁, conv, h₁, -, hk, hm₁⟩
  · exact absurd hno (by decide)
  · rcases ffpcmConvert_spec (h.second hk hm₁) none with ⟨-, hno⟩ | ⟨m₂, back, h₂, -, -, -⟩
    · exact absurd hno (by decide)
    · have hone := hrt none none m₁ m₂ h₁ h₂ 0 (by decide) 0 (by decide)
      rw [h.convert h₁ h₂ 0 (by decide) 0 (by decide)] at hone
      exact absurd hone (by decide)

end FF
