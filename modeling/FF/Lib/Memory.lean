import FF.Lib.Heap
import Mathlib.Data.List.Nodup
import Mathlib.Data.List.ProdSigma

/-!
# Byte memory

Memory is a heap of bytes under numbers as addresses. `load` and `store` read and write some bytes
one behind the other; both fail outside the allocated memory.

What a loop of writes into regions that do not overlap leaves behind is said once, for any step:
`foldlM_writes`.

## Main results

* `store_spec`: what is stored can be read back, and all else is unchanged.
* `memcpy_spec`: the same for a copy.
* `foldlM_writes`: a loop writes each of its regions.
-/

namespace FF

open List Option

/-- A memory of bytes. -/
abbrev Memory := Heap ℕ UInt8

/-- The `n` bytes at `p`. -/
@[grind =] def load (m : Memory) : ℕ → ℕ → Option (List UInt8)
  | _, 0 => some []
  | p, n + 1 => do
      let b ← m p
      let bs ← load m (p + 1) n
      some (b :: bs)

/-- Write bytes at `p`. -/
@[grind =] def store (m : Memory) (p : ℕ) : List UInt8 → Option Memory
  | [] => some m
  | b :: bs => do
      let m ← m.modify p fun _ => b
      store m (p + 1) bs

/-- `memcpy`. -/
def memcpy (m : Memory) (dst src n : ℕ) : Option Memory := do
  let bs ← load m src n
  store m dst bs

/-- Memory from the allocator. -/
def allocate (m : Memory) (p n : ℕ) : Memory := fun a =>
  if p ≤ a ∧ a < p + n then some 0 else m a

/-- Memory is given back. -/
def release (m : Memory) (p n : ℕ) : Memory := fun a =>
  if p ≤ a ∧ a < p + n then none else m a

/-- Two regions do not overlap. -/
def Apart (p n q k : ℕ) : Prop := p + n ≤ q ∨ q + k ≤ p

/-- What is allocated stays so. -/
def StaysAllocated (m m' : Memory) : Prop := ∀ a, (m a).isSome → (m' a).isSome

/-- The memories agree outside a region. -/
def SameBut (m m' : Memory) (p n : ℕ) : Prop := ∀ a, a < p ∨ p + n ≤ a → m' a = m a

section Load

variable {m m' : Memory} {p q n k : ℕ} {bs : List UInt8}

theorem load_append (m : Memory) (p n k : ℕ) :
    load m p (n + k) = (load m p n).bind fun xs => (load m (p + n) k).map (xs ++ ·) := by
  induction n generalizing p with
  | zero =>
    rw [Nat.zero_add, load, bind_some, Nat.add_zero]
    cases load m p k <;> rfl
  | succ n ih =>
    rw [Nat.succ_add, load, load, ih]
    have hp : p + 1 + n = p + (n + 1) := by omega
    rw [hp]
    cases m p with
    | none => rfl
    | some b =>
      cases load m (p + 1) n with
      | none => rfl
      | some xs => cases load m (p + (n + 1)) k <;> rfl

theorem length_of_load (h : load m p n = some bs) : bs.length = n := by
  induction n generalizing p bs with
  | zero =>
    cases h
    rfl
  | succ n ih =>
    simp only [load, bind_eq_bind, bind_eq_some_iff, some.injEq] at h
    obtain ⟨b, -, xs, hxs, rfl⟩ := h
    rw [length_cons, ih hxs]

/-- Where the bytes are the same, the same is read. -/
theorem load_congr (h : ∀ i < n, m' (q + i) = m (p + i)) : load m' q n = load m p n := by
  induction n generalizing p q with
  | zero => rfl
  | succ n ih =>
    have h0 := h 0 (Nat.succ_pos n)
    rw [Nat.add_zero, Nat.add_zero] at h0
    rw [load, load, h0, ih]
    intro i hi
    have hstep := h (i + 1) (Nat.succ_lt_succ hi)
    have hq : q + 1 + i = q + (i + 1) := by omega
    have hp : p + 1 + i = p + (i + 1) := by omega
    rw [hq, hp, hstep]

theorem getElem?_of_load (h : load m p n = some bs) {i : ℕ} (hi : i < n) :
    m (p + i) = bs[i]? := by
  induction n generalizing p bs i with
  | zero => omega
  | succ n ih =>
    simp only [load, bind_eq_bind, bind_eq_some_iff, some.injEq] at h
    obtain ⟨b, hb, xs, hxs, rfl⟩ := h
    cases i with
    | zero => rw [Nat.add_zero, hb, getElem?_cons_zero]
    | succ i =>
      have hstep := ih hxs (Nat.lt_of_succ_lt_succ hi)
      rw [getElem?_cons_succ, ← hstep]
      congr 1
      omega

/-- A region can be read where each of its bytes can. -/
theorem load_isSome_iff : (load m p n).isSome ↔ ∀ i < n, (m (p + i)).isSome := by
  constructor
  · intro h i hi
    obtain ⟨bs, hbs⟩ := isSome_iff_exists.mp h
    have hlen := length_of_load hbs
    rw [getElem?_of_load hbs hi, getElem?_eq_getElem (by omega)]
    rfl
  intro h
  induction n generalizing p with
  | zero => rfl
  | succ n ih =>
    obtain ⟨b, hb⟩ := isSome_iff_exists.mp (h 0 (Nat.succ_pos n))
    obtain ⟨bs, hbs⟩ := isSome_iff_exists.mp (ih (p := p + 1) fun i hi => by
      have hp : p + 1 + i = p + (i + 1) := by omega
      rw [hp]
      exact h (i + 1) (Nat.succ_lt_succ hi))
    rw [Nat.add_zero] at hb
    rw [load, hb, bind_eq_bind, bind_some, hbs]
    rfl

/-- A table can be read where each of its entries can. -/
theorem load_isSome_table {w : ℕ} (h : ∀ j < n, (load m (p + j * w) w).isSome) :
    (load m p (n * w)).isSome := by
  rw [load_isSome_iff]
  intro i hi
  have hw : 0 < w := Nat.pos_of_ne_zero fun h0 => by simp [h0] at hi
  have hj : i / w < n := Nat.div_lt_of_lt_mul (by rwa [Nat.mul_comm])
  have hb := load_isSome_iff.mp (h _ hj) (i % w) (Nat.mod_lt _ hw)
  rwa [Nat.add_assoc, Nat.div_add_mod'] at hb

theorem SameBut.load (h : SameBut m m' p n) (ha : Apart q k p n) :
    load m' q k = FF.load m q k := by
  refine load_congr fun i hi => h _ ?_
  rcases ha with ha | ha
  · exact .inl (by omega)
  · exact .inr (by omega)

theorem SameBut.trans {m'' : Memory} (h : SameBut m m' p n) (h' : SameBut m' m'' p n) :
    SameBut m m'' p n := fun a ha => (h' a ha).trans (h a ha)

theorem SameBut.mono (h : SameBut m m' q k) (hl : p ≤ q) (hr : q + k ≤ p + n) :
    SameBut m m' p n := by
  intro a ha
  refine h a ?_
  rcases ha with ha | ha
  · exact .inl (by omega)
  · exact .inr (by omega)

/-- A region that can be read after it was written is as much memory as before. -/
theorem SameBut.keeps (h : SameBut m m' p n) (hr : (FF.load m' p n).isSome) :
    StaysAllocated m m' := by
  intro a ha
  by_cases hin : p ≤ a ∧ a < p + n
  · have hb := load_isSome_iff.mp hr (a - p) (by omega)
    rwa [Nat.add_sub_cancel' hin.1] at hb
  · rwa [h a (by omega)]

theorem StaysAllocated.load (h : StaysAllocated m m') (hr : (FF.load m p n).isSome) :
    (FF.load m' p n).isSome :=
  load_isSome_iff.mpr fun i hi => h _ (load_isSome_iff.mp hr i hi)

/-- **What is stored** can be read back, and all else is unchanged. -/
theorem store_spec (h : (load m p bs.length).isSome) :
    ∃ m', store m p bs = some m' ∧ load m' p bs.length = some bs ∧ SameBut m m' p bs.length := by
  induction bs generalizing m p with
  | nil => exact ⟨m, rfl, rfl, fun _ _ => rfl⟩
  | cons b bs ih =>
    rw [length_cons] at h ⊢
    have hbytes := load_isSome_iff.mp h
    obtain ⟨c, hc⟩ := isSome_iff_exists.mp (hbytes 0 (Nat.succ_pos _))
    rw [Nat.add_zero] at hc
    have hrest : (load (m.set p b) (p + 1) bs.length).isSome := by
      rw [load_isSome_iff]
      intro i hi
      rw [Heap.set_of_ne _ _ (by omega)]
      have hp : p + 1 + i = p + (i + 1) := by omega
      rw [hp]
      exact hbytes (i + 1) (by omega)
    obtain ⟨m', he, hl, hsame⟩ := ih hrest
    refine ⟨m', ?_, ?_, fun a ha => ?_⟩
    · rw [store, Heap.modify_of_some _ hc]
      exact he
    · rw [load, hsame p (.inl (by omega)), Heap.set_self, hl]
      rfl
    · rw [hsame a (by omega), Heap.set_of_ne _ _ (by omega)]

/-- Two parts are stored, one behind the other. -/
theorem store_store_spec {cs : List UInt8}
    (h : (load m p (bs.length + cs.length)).isSome) :
    ∃ m₁ m₂, store m p bs = some m₁ ∧ SameBut m m₁ p (bs.length + cs.length) ∧
      store m₁ (p + bs.length) cs = some m₂ ∧
      load m₂ p (bs.length + cs.length) = some (bs ++ cs) ∧
      SameBut m m₂ p (bs.length + cs.length) := by
  rw [load_append] at h
  obtain ⟨ys, hys⟩ := isSome_iff_exists.mp h
  obtain ⟨xs, hxs, hys⟩ := bind_eq_some_iff.mp hys
  obtain ⟨zs, hzs, -⟩ := map_eq_some_iff.mp hys
  obtain ⟨m₁, he₁, hl₁, hs₁⟩ := store_spec (m := m) (p := p) (by rw [hxs]; rfl)
  have hrest : (load m₁ (p + bs.length) cs.length).isSome := by
    rw [hs₁.load (.inr (Nat.le_refl _)), hzs]
    rfl
  obtain ⟨m₂, he₂, hl₂, hs₂⟩ := store_spec hrest
  have hs : SameBut m m₁ p (bs.length + cs.length) := hs₁.mono (Nat.le_refl _) (by omega)
  refine ⟨m₁, m₂, he₁, hs, he₂, ?_, hs.trans (hs₂.mono (by omega) (by omega))⟩
  rw [load_append, hs₂.load (.inl (Nat.le_refl _)), hl₁, bind_some, hl₂]
  rfl

/-- **What is copied.** -/
theorem memcpy_spec (hsrc : (load m q n).isSome) (hdst : (load m p n).isSome) :
    ∃ m', memcpy m p q n = some m' ∧ (∀ i < n, m' (p + i) = m (q + i)) ∧ SameBut m m' p n := by
  obtain ⟨bs, hbs⟩ := isSome_iff_exists.mp hsrc
  have hlen := length_of_load hbs
  rw [← hlen] at hdst
  obtain ⟨m', he, hl, hsame⟩ := store_spec hdst
  rw [hlen] at hl hsame
  refine ⟨m', by rw [memcpy, hbs]; exact he, fun i hi => ?_, hsame⟩
  rw [getElem?_of_load hl hi, getElem?_of_load hbs hi]

end Load

/-! ### Loops -/

section Loops

variable {ι κ σ : Type*}

/-- Two nested loops are a loop over the pairs. -/
theorem foldlM_product (f : σ → ι × κ → Option σ) (is : List ι) (ks : List κ) (s : σ) :
    is.foldlM (fun s i => ks.foldlM (fun s k => f s (i, k)) s) s = (is ×ˢ ks).foldlM f s := by
  induction is generalizing s with
  | nil => rfl
  | cons i is ih =>
    rw [foldlM_cons, product_cons, foldlM_append, foldlM_map]
    congr 1
    funext s'
    exact ih s'

variable (step : Memory → ι → Option Memory) (dst : ι → ℕ) (len : ℕ) (val : ι → List UInt8)
  (P : Memory → Prop)

/-- **A loop of writes.** Each round writes its own region, as long as `P` holds, which no write
breaks; in the end all of the regions are written. -/
theorem foldlM_writes (js : List ι) (m : Memory)
    (hstep : ∀ j ∈ js, ∀ m, P m → (load m (dst j) len).isSome → ∃ m', step m j = some m' ∧
      load m' (dst j) len = some (val j) ∧ SameBut m m' (dst j) len)
    (hP : ∀ j ∈ js, ∀ m m', P m → SameBut m m' (dst j) len → P m')
    (hsep : js.Pairwise fun i j => Apart (dst i) len (dst j) len) (hm : P m)
    (hmem : ∀ j ∈ js, (load m (dst j) len).isSome) :
    ∃ m', js.foldlM step m = some m' ∧ StaysAllocated m m' ∧
      ∀ j ∈ js, load m' (dst j) len = some (val j) := by
  suffices h : ∃ m', js.foldlM step m = some m' ∧ StaysAllocated m m' ∧
      (∀ j ∈ js, load m' (dst j) len = some (val j)) ∧
      ∀ p n, (∀ j ∈ js, Apart p n (dst j) len) → load m' p n = load m p n by
    obtain ⟨m', he, hk, hl, -⟩ := h
    exact ⟨m', he, hk, hl⟩
  induction js generalizing m with
  | nil => exact ⟨m, rfl, fun _ ha => ha, nofun, fun _ _ _ => rfl⟩
  | cons j js ih =>
    obtain ⟨hj, hsep⟩ := pairwise_cons.mp hsep
    obtain ⟨hmj, hmem⟩ := forall_mem_cons.mp hmem
    obtain ⟨m₁, he₁, hl₁, hsame₁⟩ := hstep j mem_cons_self m hm hmj
    have hmem₁ : ∀ i ∈ js, (load m₁ (dst i) len).isSome := by
      intro i hi
      rw [hsame₁.load (hj i hi).symm]
      exact hmem i hi
    obtain ⟨m₂, he₂, hk₂, hl₂, hrest⟩ := ih m₁ (fun i hi => hstep i (mem_cons_of_mem _ hi))
      (fun i hi => hP i (mem_cons_of_mem _ hi)) hsep
      (hP j mem_cons_self m m₁ hm hsame₁) hmem₁
    have hk₁ : StaysAllocated m m₁ := hsame₁.keeps (by rw [hl₁]; rfl)
    refine ⟨m₂, by rw [foldlM_cons, he₁]; exact he₂, fun a ha => hk₂ a (hk₁ a ha),
      fun i hi => ?_, fun p n hap => ?_⟩
    · rcases mem_cons.mp hi with rfl | hi
      · rw [hrest _ _ hj, hl₁]
      · exact hl₂ i hi
    · obtain ⟨hapj, hap⟩ := forall_mem_cons.mp hap
      rw [hrest _ _ hap, hsame₁.load hapj]

end Loops

end FF
