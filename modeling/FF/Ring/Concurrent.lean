import FF.Lib.Refine
import FF.Ring.Basic
import Mathlib.Data.List.Infix

/-!
# The pointer ring, several threads

Any number of writers and readers, one access to memory at a time in any order. The history
numbers the reservations; the reservation number `i` has the slot `i % cap`. It is not looked
at by the program.

An index that is compared and set is only known modulo `cap`. If it has gone all the way round
since the thread looked, the comparison succeeds all the same, and what the thread saw may not
hold any more: the ring may be full, or empty, or the copied element an old one. `CasFresh` says
that this has not happened.
-/

namespace FF

open List

/-! ### Threads and history -/

/-- What has happened on a ring. -/
structure RingHist (α : Type*) where
  /-- The elements in the order in which their slots were reserved. -/
  reserved : List α
  /-- The number of the last reservation of each thread. -/
  ticket : ℕ → ℕ
  /-- The reservations whose element was stored. -/
  stored : List ℕ
  /-- The number of elements that were made visible to readers. -/
  published : ℕ
  /-- The reservations whose write returned success. -/
  written : List ℕ
  /-- The elements in the order in which they were read. -/
  consumed : List α

/-- A ring and its threads. A thread that is not in a call has returned from one. -/
structure RingSys (α : Type*) where
  ring : Ffring α
  threads : ℕ → RingPc α
  hist : RingHist α

/-- A thread begins a call or makes a step. -/
inductive RingAct (α : Type*)
  | call (t : ℕ) (o : RingOp α)
  | step (t : ℕ)
  deriving DecidableEq, Repr

section Concurrent

variable {α : Type*}

/-- What a step of the thread `t` adds to the history. -/
def RingHist.record (h : RingHist α) (t : ℕ) (s : Ffring α) : RingPc α → RingHist α
  | .casHead p headOld =>
    if s.whead = headOld then
      { h with
        reserved := h.reserved ++ [p]
        ticket := Function.update h.ticket t h.reserved.length }
    else h
  | .store _ _ _ => { h with stored := h.ticket t :: h.stored }
  | .setTail _ =>
    { h with published := h.published + 1, written := h.ticket t :: h.written }
  | .casR rr rc => if s.r = rr then { h with consumed := h.consumed ++ [rc] } else h
  | _ => h

/-- One step of the threads. -/
def sysStep (s : RingSys α) : RingAct α → Option (RingSys α)
  | .call t o => some { s with threads := Function.update s.threads t o.start }
  | .step t => do
      let (ring, pc) ← ringStep s.ring (s.threads t)
      some ⟨ring, Function.update s.threads t pc, s.hist.record t s.ring (s.threads t)⟩

/-- A new ring and threads that are not in a call. -/
def sysInit (ring : Ffring α) : RingSys α :=
  ⟨ring, fun _ => .ret .empty, ⟨[], fun _ => 0, [], 0, [], []⟩⟩

/-- The thread is not in a call. -/
def RingPc.returned : RingPc α → Bool
  | .ret _ => true
  | _ => false

/-- The call may be made while others are under way. -/
def RingOp.shared : RingOp α → Bool
  | .writeExcl _ => false
  | _ => true

/-- A thread calls `ffring_write` or `ffring_read` when it is not in a call. -/
def sysLegal (s : RingSys α) : RingAct α → Prop
  | .call t o => (s.threads t).returned ∧ o.shared
  | .step _ => True

/-- A comparison that succeeds finds what the thread saw before: a writer that there is a free
slot, a reader that there is an element and that it is the copied one. -/
def CasFresh (s : Ffring α) : RingPc α → Prop
  | .casHead _ headOld => s.whead = headOld → ffintIncreset2 headOld s.cap ≠ s.r
  | .casR rr rc => s.r = rr → rr ≠ s.wtail ∧ s.d[rr]? = some rc
  | _ => True

/-- The steps of legal threads in which comparisons are fresh. -/
def sysGood (s : RingSys α) : RingAct α → Prop
  | .call t o => sysLegal s (.call t o)
  | .step t => CasFresh s.ring (s.threads t)

instance (s : RingSys α) (a : RingAct α) : Decidable (sysLegal s a) :=
  match a with
  | .call t o => inferInstanceAs (Decidable ((s.threads t).returned ∧ o.shared))
  | .step _ => isTrue trivial

instance [DecidableEq α] (s : Ffring α) (pc : RingPc α) : Decidable (CasFresh s pc) :=
  match pc with
  | .casHead _ headOld =>
    inferInstanceAs (Decidable (s.whead = headOld → ffintIncreset2 headOld s.cap ≠ s.r))
  | .casR rr rc => inferInstanceAs (Decidable (s.r = rr → rr ≠ s.wtail ∧ s.d[rr]? = some rc))
  | .getHead .. | .getR .. | .store .. | .waitTail _ | .setTail _ | .readR | .readTail _
  | .copy _ | .ret _ => isTrue trivial

instance [DecidableEq α] (s : RingSys α) (a : RingAct α) : Decidable (sysGood s a) :=
  match a with
  | .call t o => inferInstanceAs (Decidable (sysLegal s (.call t o)))
  | .step t => inferInstanceAs (Decidable (CasFresh s.ring (s.threads t)))

/-! ### Purpose -/

/-- Elements are read once, in the order of the reservations and after they were stored; the
ring holds at most `cap - 1` elements, and an empty ring means that every element whose write
returned was read. -/
structure RingFifo (s : RingSys α) : Prop where
  order : s.hist.consumed <+: s.hist.reserved
  stored : ∀ i, i < s.hist.consumed.length → i ∈ s.hist.stored
  bounded : s.hist.reserved.length ≤ s.hist.consumed.length + (s.ring.cap - 1)
  written : ∀ i ∈ s.hist.written, i < s.hist.published
  once : s.hist.written.Nodup
  published : s.hist.consumed.length ≤ s.hist.published ∧
    s.hist.published ≤ s.hist.reserved.length
  empty : s.ring.r = s.ring.wtail → s.hist.consumed.length = s.hist.published

/-! ### Invariant -/

/-- The thread has reserved a slot and not yet moved `wtail`. -/
def RingPc.Writing : RingPc α → Prop
  | .store .. | .waitTail _ | .setTail _ => True
  | _ => False

/-- What holds of a thread; `i` is its reservation. -/
def PcInv (cap : ℕ) (h : RingHist α) (i : ℕ) : RingPc α → Prop
  | .getHead _ single | .getR _ single _ => single = false
  | .store p single headOld =>
    single = false ∧ h.published ≤ i ∧ h.reserved[i]? = some p ∧ headOld = i % cap
  | .waitTail headOld => h.published ≤ i ∧ i ∈ h.stored ∧ headOld = i % cap
  | .setTail headOld => i = h.published ∧ i ∈ h.stored ∧ headOld = i % cap
  | .readTail rr | .copy rr => rr < cap
  | _ => True

/-- The ring in terms of its history. -/
structure RingInv (k : ℕ) (s : RingSys α) : Prop where
  cap : s.ring.cap = 2 ^ k
  size : s.ring.d.length = s.ring.cap
  r : s.ring.r = s.hist.consumed.length % s.ring.cap
  whead : s.ring.whead = s.hist.reserved.length % s.ring.cap
  wtail : s.ring.wtail = s.hist.published % s.ring.cap
  order : s.hist.consumed <+: s.hist.reserved
  consumed_le : s.hist.consumed.length ≤ s.hist.published
  published_le : s.hist.published ≤ s.hist.reserved.length
  bounded : s.hist.reserved.length ≤ s.hist.consumed.length + (s.ring.cap - 1)
  stored : ∀ i, i < s.hist.published → i ∈ s.hist.stored
  stored_lt : ∀ i ∈ s.hist.stored, i < s.hist.reserved.length
  slots : ∀ i ∈ s.hist.stored, s.hist.consumed.length ≤ i →
    s.ring.d[i % s.ring.cap]? = s.hist.reserved[i]?
  written : ∀ i ∈ s.hist.written, i < s.hist.published
  once : s.hist.written.Nodup
  threads : ∀ t, PcInv s.ring.cap s.hist (s.hist.ticket t) (s.threads t)
  tickets : ∀ t u, t ≠ u → (s.threads t).Writing → (s.threads u).Writing →
    s.hist.ticket t ≠ s.hist.ticket u

/-- Two numbers less than `cap` apart have different slots. -/
theorem eq_of_mod_eq {i j c : ℕ} (hij : i ≤ j) (hlt : j < i + c) (h : i % c = j % c) : i = j := by
  have hd : (j - i) % c = 0 := Nat.sub_mod_eq_zero_of_mod_eq h.symm
  rw [Nat.mod_eq_of_lt (by omega)] at hd
  omega

theorem PcInv.published_le {cap : ℕ} {h : RingHist α} {i : ℕ} {pc : RingPc α}
    (hp : PcInv cap h i pc) (hw : pc.Writing) : h.published ≤ i := by
  cases pc with
  | store p single headOld => exact hp.2.1
  | waitTail headOld => exact hp.1
  | setTail headOld => exact hp.1.ge
  | _ => exact hw.elim

theorem PcInv.lt_reserved {cap : ℕ} {s : RingSys α} {k i : ℕ} {pc : RingPc α}
    (hi : RingInv k s) (hp : PcInv cap s.hist i pc) (hw : pc.Writing) :
    i < s.hist.reserved.length := by
  cases pc with
  | store p single headOld => exact (List.getElem?_eq_some_iff.mp hp.2.2.1).1
  | waitTail headOld => exact hi.stored_lt i hp.2.1
  | setTail headOld => exact hi.stored_lt i hp.2.1
  | _ => exact hw.elim

theorem PcInv.mono {cap : ℕ} {h h' : RingHist α} {i : ℕ} {pc : RingPc α}
    (hp : PcInv cap h i pc) (hres : h.reserved <+: h'.reserved) (hst : h.stored ⊆ h'.stored)
    (hpub : h'.published = h.published ∨ (h.published < i ∧ h'.published = h.published + 1)) :
    PcInv cap h' i pc := by
  cases pc with
  | store p single headOld =>
    obtain ⟨h1, h2, h3, h4⟩ := hp
    refine ⟨h1, by omega, ?_, h4⟩
    obtain ⟨t, ht⟩ := hres
    rw [← ht, List.getElem?_append_left (List.getElem?_eq_some_iff.mp h3).1]
    exact h3
  | waitTail headOld => exact ⟨by have := hp.1; omega, hst hp.2.1, hp.2.2⟩
  | setTail headOld => exact ⟨by have := hp.1; omega, hst hp.2.1, hp.2.2⟩
  | _ => exact hp

section Steps

variable {k : ℕ} {s : RingSys α}

theorem RingInv.increset2 (hk : k < 64) (hi : RingInv k s) (n : ℕ) :
    ffintIncreset2 n s.ring.cap = (n + 1) % s.ring.cap := by
  rw [hi.cap]
  exact ffintIncreset2_eq hk n

theorem RingInv.cap_pos (hi : RingInv k s) : 0 < s.ring.cap := by
  rw [hi.cap]
  exact Nat.two_pow_pos k

theorem forall_update {P : ℕ → RingPc α → Prop} {threads : ℕ → RingPc α} {t : ℕ} {pc : RingPc α}
    (hp : P t pc) (hothers : ∀ u, u ≠ t → P u (threads u)) (u : ℕ) :
    P u (Function.update threads t pc u) := by
  by_cases hut : u = t
  · subst hut
    rwa [Function.update_self]
  · rw [Function.update_of_ne hut]
    exact hothers u hut

/-- Reservations stay different if that of the thread that made a step differs from the
others. -/
theorem tickets_update {s : RingSys α} {ticket : ℕ → ℕ} {t : ℕ} {pc : RingPc α}
    (hd : ∀ u v, u ≠ v → (s.threads u).Writing → (s.threads v).Writing →
      s.hist.ticket u ≠ s.hist.ticket v)
    (hothers : ∀ u, u ≠ t → ticket u = s.hist.ticket u)
    (hnew : pc.Writing → ∀ u, u ≠ t → (s.threads u).Writing → s.hist.ticket u ≠ ticket t)
    (u v : ℕ) (huv : u ≠ v) (hu : (Function.update s.threads t pc u).Writing)
    (hv : (Function.update s.threads t pc v).Writing) : ticket u ≠ ticket v := by
  by_cases hut : u = t
  · subst hut
    rw [Function.update_self] at hu
    rw [Function.update_of_ne huv.symm] at hv
    rw [hothers v huv.symm]
    exact (hnew hu v huv.symm hv).symm
  rw [Function.update_of_ne hut] at hu
  rw [hothers u hut]
  by_cases hvt : v = t
  · subst hvt
    rw [Function.update_self] at hv
    exact hnew hv u hut hu
  · rw [Function.update_of_ne hvt] at hv
    rw [hothers v hvt]
    exact hd u v huv hu hv

theorem RingInv.set_thread (hi : RingInv k s) {t : ℕ} {pc : RingPc α}
    (hp : PcInv s.ring.cap s.hist (s.hist.ticket t) pc)
    (hw : pc.Writing → (s.threads t).Writing) :
    RingInv k { s with threads := Function.update s.threads t pc } :=
  { hi with
    threads := forall_update (P := fun u => PcInv s.ring.cap s.hist (s.hist.ticket u)) hp
      fun u _ => hi.threads u
    tickets := tickets_update hi.tickets (fun _ _ => rfl)
      fun hpw u hut hu => hi.tickets u t hut hu (hw hpw) }

theorem RingInv.reserve (hk : k < 64) (hi : RingInv k s) {t : ℕ} {p : α} {headOld : ℕ}
    (hhead : s.ring.whead = headOld)
    (hfresh : ffintIncreset2 headOld s.ring.cap ≠ s.ring.r) :
    RingInv k ⟨{ s.ring with whead := ffintIncreset2 headOld s.ring.cap },
      Function.update s.threads t (.store p false headOld),
      { s.hist with
        reserved := s.hist.reserved ++ [p]
        ticket := Function.update s.hist.ticket t s.hist.reserved.length }⟩ := by
  have hpos := hi.cap_pos
  have hbounded := hi.bounded
  have hhead' : headOld = s.hist.reserved.length % s.ring.cap := hhead ▸ hi.whead
  have hnext : ffintIncreset2 headOld s.ring.cap =
      (s.hist.reserved.length + 1) % s.ring.cap := by
    rw [hi.increset2 hk, hhead', Nat.mod_add_mod]
  -- the slot behind would be that of the first element that is still held
  have hroom : s.hist.reserved.length + 1 ≤ s.hist.consumed.length + (s.ring.cap - 1) := by
    rcases Nat.lt_or_ge (s.hist.reserved.length) (s.hist.consumed.length + (s.ring.cap - 1))
      with h | h
    · exact h
    · refine absurd ?_ hfresh
      rw [hnext, hi.r, show s.hist.reserved.length + 1 = s.hist.consumed.length + s.ring.cap by
        omega, Nat.add_mod_right]
  have hother : ∀ u, u ≠ t → Function.update s.hist.ticket t s.hist.reserved.length u =
      s.hist.ticket u := fun u hut => Function.update_of_ne hut ..
  refine { hi with
    whead := ?_, order := hi.order.trans (prefix_append ..), published_le := ?_,
    bounded := ?_, stored_lt := fun i h => ?_, slots := fun i h hc => ?_, threads := ?_,
    tickets := tickets_update hi.tickets hother fun _ u hut hu => ?_ }
  · show ffintIncreset2 headOld s.ring.cap = (s.hist.reserved ++ [p]).length % s.ring.cap
    rw [hnext, length_append, length_singleton]
  · have := hi.published_le
    simp only [length_append, length_singleton]
    omega
  · simpa using hroom
  · have := hi.stored_lt i h
    simp only [length_append, length_singleton]
    omega
  · show s.ring.d[i % s.ring.cap]? = (s.hist.reserved ++ [p])[i]?
    rw [getElem?_append_left (hi.stored_lt i h)]
    exact hi.slots i h hc
  · refine forall_update (P := fun u => PcInv s.ring.cap _
      (Function.update s.hist.ticket t s.hist.reserved.length u)) ?_ fun u hut => ?_
    · rw [Function.update_self]
      exact ⟨rfl, hi.published_le, by simp, hhead'⟩
    · rw [hother u hut]
      exact (hi.threads u).mono (prefix_append ..) (fun _ h => h) (.inl rfl)
  · show s.hist.ticket u ≠ Function.update s.hist.ticket t s.hist.reserved.length t
    rw [Function.update_self]
    exact ((hi.threads u).lt_reserved hi hu).ne

theorem RingInv.store (hi : RingInv k s) {t : ℕ} {p : α} {headOld : ℕ}
    (hpc : s.threads t = .store p false headOld) :
    RingInv k ⟨{ s.ring with d := s.ring.d.set headOld p },
      Function.update s.threads t (.waitTail headOld),
      { s.hist with stored := s.hist.ticket t :: s.hist.stored }⟩ := by
  have ht := hi.threads t
  have hw : (s.threads t).Writing := by rw [hpc]; trivial
  have hlt := ht.lt_reserved hi hw
  rw [hpc] at ht
  obtain ⟨-, hle, hget, hslot⟩ := ht
  have hpos := hi.cap_pos
  have hbounded := hi.bounded
  have hcons := hi.consumed_le
  refine { hi with
    size := by simpa using hi.size, stored := fun i h => mem_cons_of_mem _ (hi.stored i h),
    stored_lt := fun i h => ?_, slots := fun i h hc => ?_, threads := ?_,
    tickets := tickets_update hi.tickets (fun _ _ => rfl) fun _ u hut hu =>
      hi.tickets u t hut hu hw }
  · rcases mem_cons.mp h with rfl | h
    · exact hlt
    · exact hi.stored_lt i h
  · show (s.ring.d.set headOld p)[i % s.ring.cap]? = s.hist.reserved[i]?
    have hslot' : headOld < s.ring.d.length := by
      rw [hi.size, hslot]
      exact Nat.mod_lt _ hpos
    by_cases hit : i = s.hist.ticket t
    · rw [hit, ← hslot, hget, getElem?_set_self hslot']
    have hst := (mem_cons.mp h).resolve_left hit
    have hlt' := hi.stored_lt i hst
    have hc' : s.hist.consumed.length ≤ i := hc
    -- both reservations are among the last `cap - 1`
    have hne : headOld ≠ i % s.ring.cap := by
      rw [hslot]
      intro he
      rcases Nat.le_total (s.hist.ticket t) i with h1 | h1
      · exact hit (eq_of_mod_eq h1 (by omega) he).symm
      · exact hit (eq_of_mod_eq h1 (by omega) he.symm)
    rw [getElem?_set_ne hne]
    exact hi.slots i hst hc
  · refine forall_update (P := fun u => PcInv s.ring.cap _ (s.hist.ticket u)) ?_ fun u _ => ?_
    · exact ⟨hle, mem_cons_self, hslot⟩
    · exact (hi.threads u).mono (prefix_refl _) (subset_cons_self ..) (.inl rfl)

theorem RingInv.publish (hk : k < 64) (hi : RingInv k s) {t headOld : ℕ}
    (hpc : s.threads t = .setTail headOld) :
    RingInv k ⟨{ s.ring with wtail := ffintIncreset2 headOld s.ring.cap },
      Function.update s.threads t (.ret .written),
      { s.hist with
        published := s.hist.published + 1, written := s.hist.ticket t :: s.hist.written }⟩ := by
  have ht := hi.threads t
  have hw : (s.threads t).Writing := by rw [hpc]; trivial
  have hlt := ht.lt_reserved hi hw
  rw [hpc] at ht
  obtain ⟨hpub, hst, hslot⟩ := ht
  have hcons := hi.consumed_le
  refine { hi with
    wtail := ?_, consumed_le := by simp only; omega, published_le := by simp only; omega,
    stored := fun i h => ?_, written := fun i h => ?_, once := ?_, threads := ?_,
    tickets := tickets_update hi.tickets (fun _ _ => rfl) fun h => h.elim }
  · show ffintIncreset2 headOld s.ring.cap = (s.hist.published + 1) % s.ring.cap
    rw [hi.increset2 hk, hslot, Nat.mod_add_mod, hpub]
  · rcases Nat.lt_or_ge i s.hist.published with h1 | h1
    · exact hi.stored i h1
    · obtain rfl : i = s.hist.ticket t := by simp only at h; omega
      exact hst
  · show i < s.hist.published + 1
    rcases mem_cons.mp h with rfl | h
    · omega
    · have := hi.written i h
      omega
  · refine nodup_cons.mpr ⟨fun h => ?_, hi.once⟩
    have := hi.written _ h
    omega
  refine forall_update (P := fun u => PcInv s.ring.cap _ (s.hist.ticket u)) trivial
    fun u hut => ?_
  by_cases hu : (s.threads u).Writing
  · have hle := (hi.threads u).published_le hu
    have hne := hi.tickets u t hut hu hw
    exact (hi.threads u).mono (prefix_refl _) (fun _ h => h) (.inr ⟨by omega, rfl⟩)
  · revert hu
    have hinv := hi.threads u
    cases hu : s.threads u <;> rw [hu] at hinv <;> intro h
    all_goals first | exact hinv | exact absurd trivial h

theorem RingInv.take (hk : k < 64) (hi : RingInv k s) {t rr : ℕ} {rc : α} (hr : s.ring.r = rr)
    (hsome : rr ≠ s.ring.wtail) (hrc : s.ring.d[rr]? = some rc) :
    RingInv k ⟨{ s.ring with r := ffintIncreset2 rr s.ring.cap },
      Function.update s.threads t (.ret (.value rc)),
      { s.hist with consumed := s.hist.consumed ++ [rc] }⟩ := by
  have hr' : rr = s.hist.consumed.length % s.ring.cap := hr ▸ hi.r
  have hlt : s.hist.consumed.length < s.hist.published := by
    rcases Nat.lt_or_ge s.hist.consumed.length s.hist.published with h | h
    · exact h
    · have he : s.hist.consumed.length = s.hist.published := le_antisymm hi.consumed_le h
      exact absurd (by rw [hr', he, hi.wtail]) hsome
  have hbounded := hi.bounded
  have hget : s.hist.reserved[s.hist.consumed.length]? = some rc := by
    rw [← hi.slots _ (hi.stored _ hlt) le_rfl, ← hr', hrc]
  refine { hi with
    r := ?_, order := ?_, consumed_le := ?_, bounded := ?_, slots := fun i h hc => ?_,
    threads := ?_, tickets := tickets_update hi.tickets (fun _ _ => rfl) fun h => h.elim }
  · show ffintIncreset2 rr s.ring.cap = (s.hist.consumed ++ [rc]).length % s.ring.cap
    rw [hi.increset2 hk, hr', Nat.mod_add_mod, length_append, length_singleton]
  · obtain ⟨rest, hrest⟩ := hi.order
    rw [← hrest, getElem?_append_right le_rfl, Nat.sub_self] at hget
    obtain ⟨rest', rfl⟩ := head?_eq_some_iff.mp (head?_eq_getElem? ▸ hget)
    exact ⟨rest', by rw [← hrest]; simp⟩
  · simp only [length_append, length_singleton]
    omega
  · simp only [length_append, length_singleton]
    omega
  · simp only [length_append] at hc
    exact hi.slots i h (by omega)
  · refine forall_update (P := fun u => PcInv s.ring.cap _ (s.hist.ticket u)) trivial
      fun u _ => ?_
    exact (hi.threads u).mono (prefix_refl _) (fun _ h => h) (.inl rfl)

theorem sysStep_eq {t : ℕ} {pc pc' : RingPc α} {ring : Ffring α} (hpc : s.threads t = pc)
    (he : ringStep s.ring pc = some (ring, pc')) :
    sysStep s (.step t) =
      some ⟨ring, Function.update s.threads t pc', s.hist.record t s.ring pc⟩ := by
  simp [sysStep, hpc, he]

theorem RingInv.quiet (hi : RingInv k s) {t : ℕ} {pc pc' : RingPc α} (hpc : s.threads t = pc)
    (he : ringStep s.ring pc = some (s.ring, pc')) (hrec : s.hist.record t s.ring pc = s.hist)
    (hp : PcInv s.ring.cap s.hist (s.hist.ticket t) pc') (hw : pc'.Writing → pc.Writing) :
    ∃ s', sysStep s (.step t) = some s' ∧ RingInv k s' :=
  ⟨_, by rw [sysStep_eq hpc he, hrec], hi.set_thread hp (hpc ▸ hw)⟩

/-- **A step keeps the invariant**, if its comparison is fresh. -/
theorem sysStep_preserves (hk : k < 64) :
    Preserves sysStep (sysGood (α := α)) (RingInv k) := by
  rintro s (⟨t, o⟩ | ⟨t⟩) hi hgood
  · obtain ⟨-, hshared⟩ := hgood
    refine ⟨_, rfl, hi.set_thread ?_ ?_⟩
    · cases o with
      | write p => rfl
      | writeExcl p => cases hshared
      | read => trivial
    · cases o <;> exact fun h => h.elim
  have ht := hi.threads t
  have hpos := hi.cap_pos
  simp only [sysGood] at hgood
  cases hpc : s.threads t with
  | getHead p single =>
    rw [hpc] at ht
    exact hi.quiet hpc rfl rfl ht id
  | getR p single headOld =>
    obtain rfl : single = false := by rwa [hpc] at ht
    by_cases hfull : ffintIncreset2 headOld s.ring.cap = s.ring.r
    · exact hi.quiet hpc (if_pos hfull) rfl trivial False.elim
    · exact hi.quiet hpc (if_neg hfull) rfl trivial False.elim
  | casHead p headOld =>
    rw [hpc] at hgood
    by_cases hhead : s.ring.whead = headOld
    · refine ⟨_, sysStep_eq hpc (if_pos hhead), ?_⟩
      rw [RingHist.record, if_pos hhead]
      exact hi.reserve hk hhead (hgood hhead)
    · exact hi.quiet hpc (if_neg hhead) (if_neg hhead) rfl False.elim
  | store p single headOld =>
    rw [hpc] at ht
    obtain ⟨rfl, -, -, hslot⟩ := ht
    have hlt : headOld < s.ring.d.length := by
      rw [hi.size, hslot]
      exact Nat.mod_lt _ hpos
    exact ⟨_, sysStep_eq hpc (if_pos hlt), hi.store hpc⟩
  | waitTail headOld =>
    rw [hpc] at ht
    by_cases hwait : s.ring.wtail ≠ headOld
    · exact hi.quiet hpc (if_pos hwait) rfl ht id
    obtain ⟨hle, hst, hslot⟩ := ht
    have hlt := hi.stored_lt _ hst
    have hbounded := hi.bounded
    have hcons := hi.consumed_le
    -- the reservation is the first that is not published
    have hfirst : s.hist.published = s.hist.ticket t :=
      eq_of_mod_eq (c := s.ring.cap) hle (by omega)
        (by rw [← hi.wtail, ← hslot, not_not.mp hwait])
    exact hi.quiet hpc (if_neg hwait) rfl ⟨hfirst.symm, hst, hslot⟩ id
  | setTail headOld =>
    exact ⟨_, sysStep_eq hpc rfl, hi.publish hk hpc⟩
  | readR =>
    have hlt : s.ring.r < s.ring.cap := by
      rw [hi.r]
      exact Nat.mod_lt _ hpos
    exact hi.quiet hpc rfl rfl hlt False.elim
  | readTail rr =>
    rw [hpc] at ht
    by_cases hempty : rr = s.ring.wtail
    · exact hi.quiet hpc (if_pos hempty) rfl trivial False.elim
    · exact hi.quiet hpc (if_neg hempty) rfl ht False.elim
  | copy rr =>
    rw [hpc] at ht
    have hlt : rr < s.ring.d.length := by
      rw [hi.size]
      exact ht
    have he : ringStep s.ring (.copy rr) = some (s.ring, .casR rr s.ring.d[rr]) := by
      simp [ringStep, getElem?_eq_getElem hlt]
    exact hi.quiet hpc he rfl trivial False.elim
  | casR rr rc =>
    rw [hpc] at hgood
    by_cases hr : s.ring.r = rr
    · obtain ⟨hsome, hrc⟩ := hgood hr
      refine ⟨_, sysStep_eq hpc (if_pos hr), ?_⟩
      rw [RingHist.record, if_pos hr]
      exact hi.take hk hr hsome hrc
    · exact hi.quiet hpc (if_neg hr) (if_neg hr) trivial False.elim
  | ret res => exact hi.quiet hpc rfl rfl trivial False.elim

theorem sysInit_inv {d : List α} (hd : d.length = 2 ^ k) :
    RingInv k (sysInit ⟨d, 2 ^ k, 0, 0, 0⟩) where
  cap := rfl
  size := hd
  r := (Nat.zero_mod _).symm
  whead := (Nat.zero_mod _).symm
  wtail := (Nat.zero_mod _).symm
  order := prefix_refl _
  consumed_le := le_rfl
  published_le := le_rfl
  bounded := Nat.zero_le _
  stored := fun _ h => absurd h (Nat.not_lt_zero _)
  stored_lt := fun _ h => absurd h not_mem_nil
  slots := fun _ h => absurd h not_mem_nil
  written := fun _ h => absurd h not_mem_nil
  once := nodup_nil
  threads := fun _ => trivial
  tickets := fun _ _ _ h => h.elim

theorem RingInv.fifo (hi : RingInv k s) : RingFifo s where
  order := hi.order
  stored := fun i h => hi.stored i (h.trans_le hi.consumed_le)
  bounded := hi.bounded
  written := hi.written
  once := hi.once
  published := ⟨hi.consumed_le, hi.published_le⟩
  empty := fun he => by
    have hcons := hi.consumed_le
    have hpub := hi.published_le
    have hbounded := hi.bounded
    have hpos := hi.cap_pos
    exact eq_of_mod_eq (c := s.ring.cap) hcons (by omega) (by rw [← hi.r, ← hi.wtail, he])

end Steps

end Concurrent

/-- **In every interleaving in which the comparisons that succeed are fresh**, elements are read
once, in the order of the reservations and after they were stored, and the ring holds at most
`cap - 1` elements. -/
theorem ffring_interleaving {α : Type*} {k : ℕ} (hk : k < 64) {d : List α}
    (hd : d.length = 2 ^ k) {s : Ffring α} (hs : ffringCreate d (2 ^ k) = some s)
    {a : List (RingAct α)} (hgood : GoodRun sysStep sysGood (sysInit s) a) :
    ∃ s', run sysStep (sysInit s) a = some s' ∧ RingFifo s' := by
  have hmask : 0 = 2 ^ k &&& (2 ^ k - 1) := by
    rw [Nat.and_two_pow_sub_one_eq_mod, Nat.mod_self]
  obtain rfl : (⟨d, 2 ^ k, 0, 0, 0⟩ : Ffring α) = s := by
    simpa [ffringCreate, ← hmask] using hs
  obtain ⟨s', he, hi⟩ := (sysStep_preserves hk).run (sysInit_inv hd) hgood
  exact ⟨s', he, hi.fifo⟩

/-- A thread calls and returns without being interrupted. -/
def calls {α : Type*} (t : ℕ) (o : RingOp α) (steps : ℕ) : List (RingAct α) :=
  .call t o :: List.replicate steps (.step t)

/-- Two writers and a reader take turns. -/
theorem ffring_interleaving_example :
    ∃ s', run sysStep (sysInit ⟨[0, 0], 2, 0, 0, 0⟩)
      ([.call 0 (.write 10), .call 1 (.write 20), .step 0, .step 1, .step 0, .step 1, .step 1,
        .step 0, .call 2 .read] ++ List.replicate 3 (.step 1) ++ List.replicate 4 (.step 2) ++
        List.replicate 2 (.step 0)) = some s' ∧ RingFifo s' :=
  ffring_interleaving (k := 1) (by decide) (d := [0, 0]) rfl rfl (by decide)

/-- **An element is read twice.** On a ring of two slots the thread 1 copies the first element
and is delayed; the thread 2 reads it and the one behind, so that `r` is again what it was. -/
theorem ffring_reads_twice :
    ¬ ∀ a : List (RingAct ℕ), GoodRun sysStep sysLegal (sysInit ⟨[0, 0], 2, 0, 0, 0⟩) a →
      ∃ s', run sysStep (sysInit ⟨[0, 0], 2, 0, 0, 0⟩) a = some s' ∧ RingFifo s' := by
  intro hall
  obtain ⟨s', he, hfifo⟩ := hall (calls 0 (.write 10) 6 ++ calls 1 .read 3 ++ calls 2 .read 4 ++
    calls 0 (.write 20) 6 ++ calls 2 .read 4 ++ [.step 1]) (by decide)
  have hhist : (run sysStep (sysInit ⟨[0, 0], 2, 0, 0, 0⟩)
      (calls 0 (.write 10) 6 ++ calls 1 .read 3 ++ calls 2 .read 4 ++
        calls 0 (.write 20) 6 ++ calls 2 .read 4 ++ [.step 1])).map
      (fun s => (s.hist.consumed, s.hist.reserved)) = some ([10, 20, 10], [10, 20]) := by
    decide
  rw [he] at hhist
  obtain ⟨hc, hr⟩ := Prod.mk.inj (Option.some.inj hhist)
  have horder := hfifo.order
  rw [hc, hr] at horder
  exact absurd horder (by decide)

end FF
