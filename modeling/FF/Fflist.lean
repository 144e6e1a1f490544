import FF.Chain

/-!
# Lists

The list of `FF/list.h`: a ring of items with one item more, `fflist_sentl`, whose `next` and
`prev` are the fields `first` and `last` of the list.
-/

namespace FF

open List

/-- `fflist`; `first` and `last` are the links of the item `sentl`. -/
structure Fflist (A : Type*) where
  sentl : A
  len : ℕ
  deriving DecidableEq, Repr

section Operations

variable {A : Type*} [DecidableEq A]

/-- `fflist_init`. -/
def fflistInit (h : Links A) (sentl : A) : Option (Links A × Fflist A) := do
  let h ← h.modify sentl fun _ => ⟨some sentl, some sentl⟩
  some (h, ⟨sentl, 0⟩)

/-- `fflist_empty`. -/
def fflistEmpty (h : Links A) (lst : Fflist A) : Option Bool :=
  (h lst.sentl).map fun x => x.next = some lst.sentl

/-- `fflist_ins`: add the item to the end. -/
def fflistIns (h : Links A) (lst : Fflist A) (it : A) : Option (Links A × Fflist A) := do
  let h ← ffchainAppend h it (← (← h lst.sentl).prev)
  some (h, { lst with len := lst.len + 1 })

/-- `fflist_rm`; the length is asserted not to be zero. -/
def fflistRm (h : Links A) (lst : Fflist A) (it : A) : Option (Links A × Fflist A) := do
  if lst.len = 0 then none
  let h ← ffchainUnlink h it
  some (h, { lst with len := lst.len - 1 })

end Operations

section Specifications

variable {A : Type*}

/-- The list holds the items of `l`, in this order. -/
structure Fflist.Holds (lst : Fflist A) (h : Links A) (l : List A) : Prop where
  ring : h.Ring (lst.sentl :: l)
  nodup : (lst.sentl :: l).Nodup
  len : lst.len = l.length

namespace Fflist.Holds

variable {lst : Fflist A} {h : Links A} {l : List A}

/-- The item of the list itself, with `first` and `last`. -/
theorem sentl_eq (hl : lst.Holds h l) :
    ∃ x, h lst.sentl = some x ∧ x.next = some (l.head?.getD lst.sentl) ∧
      x.prev = some (l.getLast?.getD lst.sentl) := by
  obtain ⟨x, hx⟩ := Option.isSome_iff_exists.mp (hl.ring.isSome mem_cons_self)
  refine ⟨x, hx, ?_, ?_⟩
  · have hnext : h.next lst.sentl = some (l.head?.getD lst.sentl) := by
      cases l with
      | nil => exact (ring_singleton.mp hl.ring).1
      | cons a l => exact (FF.Ring.next hl.ring).1
    simpa [Links.next, hx] using hnext
  have hprev : h.prev lst.sentl = some (l.getLast?.getD lst.sentl) := by
    rcases eq_nil_or_concat l with rfl | ⟨l', a, rfl⟩
    · exact (ring_singleton.mp hl.ring).2
    · rw [concat_eq_append, getLast?_append, getLast?_singleton]
      have hr := hl.ring
      rw [concat_eq_append] at hr
      exact (FF.Ring.prev (l := l') hr).2
  simpa [Links.prev, hx] using hprev

theorem next_isSome (hl : lst.Holds h l) {a : A} (ha : a ∈ l) : (h.next a).isSome := by
  obtain ⟨⟨b, -, hb⟩, -⟩ := FF.Ring.links hl.ring (mem_cons_of_mem _ ha)
  rw [hb, Option.isSome_some]

theorem sentl_notMem (hl : lst.Holds h l) : lst.sentl ∉ l := (nodup_cons.mp hl.nodup).1

theorem congr (hl : lst.Holds h l) {h' : Links A} (hag : ∀ a ∈ lst.sentl :: l, h' a = h a) :
    lst.Holds h' l :=
  ⟨hl.ring.congr hag, hl.nodup, hl.len⟩

end Fflist.Holds

variable [DecidableEq A] {lst : Fflist A} {h : Links A} {l : List A}

/-- `fflist_empty` is true of a list without items only. -/
theorem fflistEmpty_spec (hl : lst.Holds h l) : fflistEmpty h lst = some l.isEmpty := by
  obtain ⟨x, hx, hnext, -⟩ := hl.sentl_eq
  cases l with
  | nil => simp_all [fflistEmpty]
  | cons a l =>
    have hne : a ≠ lst.sentl := fun he => hl.sentl_notMem (he ▸ mem_cons_self)
    simp_all [fflistEmpty]

/-- **`fflist_ins`** adds an item that the list does not hold to its end. -/
theorem fflistIns_spec (hl : lst.Holds h l) {it : A} (hit : (h it).isSome)
    (hnew : it ∉ lst.sentl :: l) :
    ∃ h' lst', fflistIns h lst it = some (h', lst') ∧ lst'.sentl = lst.sentl ∧
      lst'.Holds h' (l ++ [it]) ∧ (∀ b, (h' b).isSome = (h b).isSome) ∧
      Heap.EqOff (it :: lst.sentl :: l) h h' := by
  obtain ⟨x, hx, -, hprev⟩ := hl.sentl_eq
  have hnodup : (lst.sentl :: (l ++ [it])).Nodup := by
    rw [← cons_append]
    exact (nodup_append_comm.trans nodup_cons).mpr ⟨hnew, hl.nodup⟩
  rcases eq_nil_or_concat l with rfl | ⟨l', a, rfl⟩
  · obtain ⟨h', he, hr', hs', hoff⟩ := ffchainAppend_spec (x := it) hl.ring hnodup hit
    refine ⟨h', { lst with len := lst.len + 1 }, ?_, rfl, ⟨hr', hnodup, ?_⟩, hs', ?_⟩
    · have hlast : x.prev = some lst.sentl := hprev
      simp [fflistIns, hx, hlast, he]
    · simp [hl.len]
    · exact hoff.mono (by simp)
  simp only [concat_eq_append] at *
  have hlast : x.prev = some a := by simpa using hprev
  have hr : h.Ring (a :: lst.sentl :: l') :=
    @FF.Ring.rotate A h.next h.prev (lst.sentl :: l') [a] hl.ring
  have hn : (a :: it :: lst.sentl :: l').Nodup := by
    refine (List.Perm.nodup_iff ?_).mp hnodup
    have hperm : (lst.sentl :: l' ++ [a, it]).Perm ([a, it] ++ lst.sentl :: l') :=
      perm_append_comm
    simpa using hperm
  obtain ⟨h', he, hr', hs', hoff⟩ := ffchainAppend_spec hr hn hit
  refine ⟨h', { lst with len := lst.len + 1 }, ?_, rfl, ⟨?_, hnodup, ?_⟩, hs', ?_⟩
  · simp [fflistIns, hx, hlast, he]
  · have := @FF.Ring.rotate A h'.next h'.prev [a, it] (lst.sentl :: l') hr'
    rw [Links.Ring, append_assoc]
    exact this
  · simp [hl.len]
  · refine hoff.mono fun b hb => ?_
    simp only [mem_cons, mem_append, not_mem_nil, or_false] at hb ⊢
    tauto

theorem Fflist.Holds.focus (hl : lst.Holds h l) {it : A} (hit : it ∈ l) :
    ∃ l₁ l₂, l = l₁ ++ it :: l₂ ∧ l.erase it = l₁ ++ l₂ ∧ h.Ring (it :: (l₂ ++ lst.sentl :: l₁)) ∧
      (it :: (l₂ ++ lst.sentl :: l₁)).Nodup := by
  obtain ⟨l₁, l₂, rfl⟩ := append_of_mem hit
  have hnot : it ∉ l₁ := by
    have := nodup_middle.mp (nodup_cons.mp hl.nodup).2
    simp only [nodup_cons, mem_append, not_or] at this
    exact this.1.1
  have hperm : (lst.sentl :: l₁ ++ it :: l₂).Perm (it :: l₂ ++ lst.sentl :: l₁) :=
    perm_append_comm
  refine ⟨l₁, l₂, rfl, ?_, @FF.Ring.rotate A h.next h.prev (lst.sentl :: l₁) (it :: l₂) hl.ring,
    hperm.nodup_iff.mp hl.nodup⟩
  rw [erase_append_right _ hnot, erase_cons_head]

theorem Fflist.Holds.unlinked (hl : lst.Holds h l) {it : A} (hit : it ∈ l) {l₁ l₂ : List A}
    (herase : l.erase it = l₁ ++ l₂) {h' : Links A} (hr : h'.Ring (l₂ ++ lst.sentl :: l₁)) :
    ({ lst with len := lst.len - 1 } : Fflist A).Holds h' (l.erase it) where
  ring := by
    rw [herase]
    exact FF.Ring.rotate hr
  nodup := hl.nodup.sublist (erase_sublist.cons_cons _)
  len := by rw [length_erase_of_mem hit, hl.len]

/-- **`fflist_rm`** takes an item out of the list and clears its links. -/
theorem fflistRm_spec (hl : lst.Holds h l) {it : A} (hit : it ∈ l) :
    ∃ h' lst', fflistRm h lst it = some (h', lst') ∧ lst'.sentl = lst.sentl ∧
      lst'.Holds h' (l.erase it) ∧ h' it = some .zero ∧ (∀ b, (h' b).isSome = (h b).isSome) ∧
      Heap.EqOff (lst.sentl :: l) h h' := by
  obtain ⟨l₁, l₂, hsplit, herase, hr, hn⟩ := hl.focus hit
  obtain ⟨h', he, hr', hzero, hs', hoff⟩ := ffchainUnlink_spec hr hn (by simp)
  have hlen : lst.len ≠ 0 := by
    rw [hl.len]
    exact (length_pos_of_mem hit).ne'
  refine ⟨h', { lst with len := lst.len - 1 }, ?_, rfl, hl.unlinked hit herase hr', hzero, hs',
    hoff.mono fun b hb => ?_⟩
  · simp [fflistRm, hlen, he]
  · rw [hsplit]
    simp only [mem_cons, mem_append] at hb ⊢
    tauto

end Specifications

end FF
