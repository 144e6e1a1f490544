import FF.Lib.Ring

/-!
# Chains

The functions of `FF/chain.h` on a heap of chain items, and their specifications on rings. A
link is `none` for `NULL`; following it fails the run.
-/

namespace FF

open List Option

/-- `ffchain_item`. -/
structure FfchainItem (A : Type*) where
  next : Option A
  prev : Option A
  deriving DecidableEq, Repr

/-- The memory that holds the items of chains. -/
abbrev Links (A : Type*) := Heap A (FfchainItem A)

namespace Links

variable {A : Type*}

/-- `a->next`; `none` stands for `NULL` and for an item that is not in memory. -/
def next (h : Links A) (a : A) : Option A := (h a).bind (·.next)

/-- `a->prev`. -/
def prev (h : Links A) (a : A) : Option A := (h a).bind (·.prev)

/-- The cells of `l` form a ring in memory. -/
def Ring (h : Links A) (l : List A) : Prop := FF.Ring h.next h.prev l

theorem Ring.isSome {h : Links A} {l : List A} (hr : h.Ring l) {a : A} (ha : a ∈ l) :
    (h a).isSome := by
  obtain ⟨⟨b, -, hb⟩, -⟩ := FF.Ring.links hr ha
  cases hh : h a with
  | none => simp [Links.next, hh] at hb
  | some x => rfl

theorem Ring.congr {h h' : Links A} {l : List A} (hr : h.Ring l)
    (hag : ∀ a ∈ l, h' a = h a) : h'.Ring l :=
  FF.Ring.congr hr (fun a ha => by rw [Links.next, hag a ha, Links.next])
    fun a ha => by rw [Links.prev, hag a ha, Links.prev]

end Links

/-- An item after `ffmem_calloc`, or unlinked. -/
def FfchainItem.zero {A : Type*} : FfchainItem A := ⟨none, none⟩

section Operations

variable {A : Type*} [DecidableEq A]

/-- `_ffchain_link2`: `L <-> R`. -/
def ffchainLink2 (h : Links A) (L R : Option A) : Option (Links A) := do
  let l ← L
  let h ← h.modify l fun x => { x with next := R }
  let r ← R
  h.modify r fun x => { x with prev := L }

/-- `ffchain_append`: `... <-> AFTER (<-> NEW <->) 1 <-> ...`. -/
def ffchainAppend (h : Links A) (item after : A) : Option (Links A) := do
  let h ← ffchainLink2 h (some item) (← h after).next
  ffchainLink2 h (some after) (some item)

/-- `ffchain_unlink`: `... <-> 1 [<-> DEL <->] 2 <-> ...`. -/
def ffchainUnlink (h : Links A) (item : A) : Option (Links A) := do
  let h ← ffchainLink2 h (← h item).prev (← h item).next
  h.modify item fun _ => .zero

/-! ### Links written -/

theorem ffchainLink2_spec {h : Links A} {l r : A} (hl : (h l).isSome) (hr : (h r).isSome) :
    ∃ h', ffchainLink2 h (some l) (some r) = some h' ∧
      h'.next = Function.update h.next l (some r) ∧
      h'.prev = Function.update h.prev r (some l) ∧
      (∀ a, (h' a).isSome = (h a).isSome) ∧ Heap.EqOff [l, r] h h' := by
  obtain ⟨x, hx⟩ := isSome_iff_exists.mp hl
  obtain ⟨h₁, hh₁⟩ : ∃ h₁, h₁ = h.set l { x with next := some r } := ⟨_, rfl⟩
  have hr₁ : (h₁ r).isSome := by
    by_cases hrl : r = l
    · simp [hh₁, hrl]
    · rwa [hh₁, Heap.set_of_ne _ _ hrl]
  obtain ⟨y, hy⟩ := isSome_iff_exists.mp hr₁
  refine ⟨h₁.set r { y with prev := some l }, ?_, ?_, ?_, ?_, ?_⟩
  · simp [ffchainLink2, Heap.modify_of_some _ hx, ← hh₁, Heap.modify_of_some _ hy]
  · funext a
    by_cases har : a = r
    · subst har
      by_cases hal : a = l
      · subst hal
        rw [hh₁, Heap.set_self] at hy
        obtain rfl := some.inj hy
        simp [Links.next]
      · rw [hh₁, Heap.set_of_ne _ _ hal] at hy
        simp [Links.next, hal, hy]
    · rw [Links.next, Heap.set_of_ne _ _ har, hh₁]
      by_cases hal : a = l
      · simp [hal]
      · simp [Heap.set_of_ne _ _ hal, hal, Links.next]
  · funext a
    by_cases har : a = r
    · simp [Links.prev, har]
    · rw [Links.prev, Heap.set_of_ne _ _ har, hh₁]
      by_cases hal : a = l
      · subst hal
        simp [har, Links.prev, hx]
      · simp [Heap.set_of_ne _ _ hal, har, Links.prev]
  · intro a
    by_cases har : a = r
    · subst har
      rw [Heap.set_self, isSome_some, hr]
    · rw [Heap.set_of_ne _ _ har, hh₁]
      by_cases hal : a = l
      · simp [hal, hx]
      · rw [Heap.set_of_ne _ _ hal]
  · intro a ha
    simp only [mem_cons, not_mem_nil, or_false, not_or] at ha
    rw [Heap.set_of_ne _ _ ha.2, hh₁, Heap.set_of_ne _ _ ha.1]

/-! ### Operations on rings -/

/-- **`ffchain_append`** puts the item after `a` in the ring of `a`. -/
theorem ffchainAppend_spec {h : Links A} {a x : A} {l : List A} (hr : h.Ring (a :: l))
    (hn : (a :: x :: l).Nodup) (hx : (h x).isSome) :
    ∃ h', ffchainAppend h x a = some h' ∧ h'.Ring (a :: x :: l) ∧
      (∀ b, (h' b).isSome = (h b).isSome) ∧ Heap.EqOff (a :: x :: l) h h' := by
  obtain ⟨b, hb, hmem⟩ : ∃ b, (l ++ [a]).head? = some b ∧ b ∈ a :: l := by
    cases l with
    | nil => exact ⟨a, rfl, mem_cons_self⟩
    | cons c l => exact ⟨c, rfl, by simp⟩
  have hnext : h.next a = some b := by
    cases l with
    | nil =>
      obtain rfl : a = b := by simpa using hb
      exact (ring_singleton.mp hr).1
    | cons c l =>
      obtain rfl : c = b := by simpa using hb
      exact (FF.Ring.next hr).1
  obtain ⟨ca, hca⟩ := isSome_iff_exists.mp (hr.isSome mem_cons_self)
  have hcan : ca.next = some b := by simpa [Links.next, hca] using hnext
  obtain ⟨h₁, he₁, hN₁, hP₁, hs₁, hoff₁⟩ := ffchainLink2_spec hx (hr.isSome hmem)
  have ha₁ : (h₁ a).isSome := by rw [hs₁, hca, isSome_some]
  obtain ⟨h₂, he₂, hN₂, hP₂, hs₂, hoff₂⟩ := ffchainLink2_spec ha₁ (by rw [hs₁]; exact hx)
  refine ⟨h₂, ?_, ?_, fun c => (hs₂ c).trans (hs₁ c), ?_⟩
  · simp [ffchainAppend, hca, hcan, he₁, he₂]
  · rw [Links.Ring, hN₂, hP₂, hN₁, hP₁]
    exact FF.Ring.insert hr hn hb
  refine (hoff₁.mono ?_).trans (hoff₂.mono ?_)
  · intro c hc
    simp only [mem_cons, not_mem_nil, or_false] at hc hmem ⊢
    rcases hc with rfl | rfl
    · exact .inr (.inl rfl)
    · exact hmem.imp_right .inr
  · intro c hc
    simp only [mem_cons, not_mem_nil, or_false] at hc ⊢
    tauto

/-- The neighbours of an item are linked to each other: the item has left its ring, and nothing
else than the ring was written to. -/
theorem ffchainLink2_neighbours {h : Links A} {a : A} {l : List A} (hr : h.Ring (a :: l))
    (hn : (a :: l).Nodup) (hl : l ≠ []) :
    ∃ x h', h a = some x ∧ x.next = l.head? ∧ ffchainLink2 h x.prev x.next = some h' ∧
      h'.Ring l ∧ (∀ b, (h' b).isSome = (h b).isSome) ∧ Heap.EqOff l h h' := by
  obtain ⟨b, hb⟩ : ∃ b, l.head? = some b := by
    cases l with
    | nil => exact absurd rfl hl
    | cons c l => exact ⟨c, rfl⟩
  obtain ⟨p, hp⟩ : ∃ p, l.getLast? = some p := ⟨_, getLast?_eq_some_getLast hl⟩
  have hbm : b ∈ l := mem_of_mem_head? hb
  have hpm : p ∈ l := mem_of_getLast? hp
  obtain ⟨x, hx⟩ := isSome_iff_exists.mp (hr.isSome mem_cons_self)
  have hnext : x.next = some b := by
    cases l with
    | nil => exact absurd rfl hl
    | cons c l =>
      obtain rfl : c = b := by simpa using hb
      simpa [Links.next, hx] using (FF.Ring.next hr).1
  have hprev : x.prev = some p := by
    obtain ⟨l', rfl⟩ := getLast?_eq_some_iff.mp hp
    simpa [Links.prev, hx] using (FF.Ring.prev (l := l') hr).2
  obtain ⟨h₁, he₁, hN₁, hP₁, hs₁, hoff₁⟩ := ffchainLink2_spec
    (hr.isSome (mem_cons_of_mem _ hpm)) (hr.isSome (mem_cons_of_mem _ hbm))
  refine ⟨x, h₁, hx, hnext.trans hb.symm, ?_, ?_, hs₁, hoff₁.mono ?_⟩
  · rw [hprev, hnext, he₁]
  · rw [Links.Ring, hN₁, hP₁]
    exact FF.Ring.remove hr hn hb hp
  · intro c hc
    simp only [mem_cons, not_mem_nil, or_false] at hc
    rcases hc with rfl | rfl
    · exact hpm
    · exact hbm

/-- **`ffchain_unlink`** takes the item out of a ring with more items, and clears its links. -/
theorem ffchainUnlink_spec {h : Links A} {a : A} {l : List A} (hr : h.Ring (a :: l))
    (hn : (a :: l).Nodup) (hl : l ≠ []) :
    ∃ h', ffchainUnlink h a = some h' ∧ h'.Ring l ∧ h' a = some .zero ∧
      (∀ b, (h' b).isSome = (h b).isSome) ∧ Heap.EqOff (a :: l) h h' := by
  obtain ⟨x, h₁, hx, -, he₁, hr₁, hs₁, hoff₁⟩ := ffchainLink2_neighbours hr hn hl
  have hal : a ∉ l := (nodup_cons.mp hn).1
  have hy : h₁ a = some x := (hoff₁ a hal).trans hx
  refine ⟨h₁.set a .zero, ?_, ?_, Heap.set_self .., fun c => ?_, fun c hc => ?_⟩
  · simp [ffchainUnlink, hx, he₁, Heap.modify_of_some _ hy]
  · exact hr₁.congr fun c hc => Heap.set_of_ne _ _ fun e => hal (e ▸ hc)
  · by_cases hca : c = a
    · simp [hca, hx]
    · rw [Heap.set_of_ne _ _ hca, hs₁]
  · rw [mem_cons, not_or] at hc
    rw [Heap.set_of_ne _ _ hc.1]
    exact hoff₁ c hc.2

end Operations

end FF
