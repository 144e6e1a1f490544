import FF.Lib.Probing
import FF.Lib.Refine
import FF.Number
import Mathlib.Data.List.TakeWhile

/-!
# The hash table

`ffhst` is an open addressing table with linear probing. The number of slots is a power of two,
entries are never removed, and a slot with `flags` 0 is free. `ffhst_ins` takes entries until
every slot is busy; a search that finds no entry ends only at a free slot.
-/

namespace FF

open List Option

/-! ### The program -/

/-- `struct ffhst_item`; `val` is a pointer, `none` is `NULL`. -/
structure FfhstItem (α : Type) where
  keyhash : UInt32
  flags : UInt32
  val : Option α
  deriving DecidableEq, Repr

/-- `struct ffhstab`, with the memory that `slots` points to. -/
structure Ffhstab (α κ π : Type) where
  len : ℕ
  nslots : ℕ
  slotMask : ℕ
  slots : List (FfhstItem α)
  /-- Compare key; returns 0 if equal. -/
  cmpkey : Option α → κ → π → ℤ

section Program

variable {α κ π : Type}

/-- `ffhst_init`: `none` where it returns -1. The power of two at or above a number and the
success of the allocation come from outside; the memory is zeroed. -/
def ffhstInit (alignPower2 : ℕ → ℕ) (calloc : ℕ → Bool) (cmpkey : Option α → κ → π → ℤ)
    (items : ℕ) : Option (Ffhstab α κ π) :=
  let n := (items / 1 + 1) % SIZE_BOUND
  let nslots := alignPower2 n
  let nslots := if nslots * 75 % SIZE_BOUND / 100 < n then alignPower2 (nslots + 1) else nslots
  if calloc nslots then some ⟨0, nslots, nslots - 1, List.replicate nslots ⟨0, 0, none⟩, cmpkey⟩
  else none

/-- `hst_slot` -/
def hstSlot (ht : Ffhstab α κ π) (hash : UInt32) : ℕ := hash.toNat &&& ht.slotMask

/-- `hst_slot_collnext` -/
def hstSlotCollnext (ht : Ffhstab α κ π) (slot : ℕ) : ℕ :=
  ((slot + 1) % SIZE_BOUND) &&& ht.slotMask

/-- `hst_slot_empty` -/
def hstSlotEmpty (ht : Ffhstab α κ π) (slot : ℕ) : Option Bool :=
  ht.slots[slot]?.map fun it => it.flags == 0

/-- The loop of `ffhst_ins`: go on to a free slot and count the slots. -/
def hstFreeSlot (ht : Ffhstab α κ π) : ℕ → ℕ → UInt32 → Option (ℕ × UInt32)
  | 0, _, _ => none
  | n + 1, slot, r => do
      if ← hstSlotEmpty ht slot then some (slot, r)
      else hstFreeSlot ht n (hstSlotCollnext ht slot) (r + 1)

/-- `ffhst_ins`: the return value and the table. The loop makes at most `n` steps. -/
def ffhstIns (n : ℕ) (ht : Ffhstab α κ π) (hash : UInt32) (val : Option α) :
    Option (Int32 × Ffhstab α κ π) := do
  let slot := hstSlot ht hash
  if (ht.len + 1) % SIZE_BOUND > ht.nslots then some (-1, ht)
  else
    let empty ← hstSlotEmpty ht slot
    let (slot, r) ← (if !empty then hstFreeSlot ht n slot 1 else some (slot, 1))
    some (r.toInt32,
      { ht with slots := ht.slots.set slot ⟨hash, 1, val⟩, len := (ht.len + 1) % SIZE_BOUND })

/-- The loop of `ffhst_find_el`. -/
def hstFindFrom (ht : Ffhstab α κ π) (hash : UInt32) (key : κ) (param : π) :
    ℕ → ℕ → Option (Option (FfhstItem α))
  | 0, _ => none
  | n + 1, slot => do
      let it ← ht.slots[slot]?
      if it.flags = 0 then some none
      else if it.keyhash = hash ∧ 0 = ht.cmpkey it.val key param then some (some it)
      else hstFindFrom ht hash key param n (hstSlotCollnext ht slot)

/-- `ffhst_find_el`: the item, or `NULL`. The loop makes at most `n` steps. -/
def ffhstFindEl (n : ℕ) (ht : Ffhstab α κ π) (hash : UInt32) (key : κ) (param : π) :
    Option (Option (FfhstItem α)) :=
  hstFindFrom ht hash key param n (hstSlot ht hash)

/-- `ffhst_find`: the value of the item, or `NULL`. -/
def ffhstFind (n : ℕ) (ht : Ffhstab α κ π) (hash : UInt32) (key : κ) (param : π) :
    Option (Option α) := do
  let it ← ffhstFindEl n ht hash key param
  match it with
  | none => some none
  | some it => some it.val

/-! ### Invariant -/

/-- The slot of an entry. -/
def hstItem (e : UInt32 × Option α) : FfhstItem α := ⟨e.1, 1, e.2⟩

/-- A slot that is not free. -/
def FfhstItem.busy (it : FfhstItem α) : Bool := it.flags != 0

/-- The table holds the entries `es`, the last one inserted last. -/
structure Ffhstab.Rep (ht : Ffhstab α κ π) (es : List (UInt32 × Option α)) : Prop where
  pow : ∃ k, k < 64 ∧ ht.nslots = 2 ^ k
  mask : ht.slotMask = ht.nslots - 1
  size : ht.slots.length = ht.nslots
  len : ht.len = es.length
  len_le : es.length ≤ ht.nslots
  probed : Probed FfhstItem.busy FfhstItem.keyhash (fun h => h.toNat % ht.nslots) ht.slots
    (es.map hstItem)

variable {ht : Ffhstab α κ π} {es : List (UInt32 × Option α)}

theorem Ffhstab.Rep.nslots_pos (h : ht.Rep es) : 0 < ht.nslots := by
  obtain ⟨k, -, hk⟩ := h.pow
  exact hk ▸ Nat.two_pow_pos k

theorem Ffhstab.Rep.slot_eq (h : ht.Rep es) (hash : UInt32) :
    hstSlot ht hash = hash.toNat % ht.nslots := by
  obtain ⟨k, hk, hn⟩ := h.pow
  rw [hstSlot, h.mask, hn, Nat.and_two_pow_sub_one_eq_mod]

theorem Ffhstab.Rep.slot_lt (h : ht.Rep es) (hash : UInt32) :
    hstSlot ht hash < ht.slots.length := by
  rw [h.slot_eq, h.size]
  exact Nat.mod_lt _ h.nslots_pos

theorem Ffhstab.Rep.collnext_eq (h : ht.Rep es) (slot : ℕ) :
    hstSlotCollnext ht slot = (slot + 1) % ht.slots.length := by
  obtain ⟨k, hk, hn⟩ := h.pow
  rw [hstSlotCollnext, h.mask, h.size, hn, and_mask hk]

theorem Ffhstab.Rep.len_mod (h : ht.Rep es) : (ht.len + 1) % SIZE_BOUND = es.length + 1 := by
  obtain ⟨k, hk, hn⟩ := h.pow
  have hle := h.len_le
  have hpow : 2 ^ k ≤ 2 ^ 63 := Nat.pow_le_pow_right (by decide) (by omega)
  rw [h.len, SIZE_BOUND, Nat.mod_eq_of_lt (by omega)]

/-! ### Insertion -/

theorem hstFreeSlot_spec (h : ht.Rep es) {A B : List (FfhstItem α)} {f : FfhstItem α}
    (hA : ∀ x ∈ A, x.busy) (hf : f.busy = false) {n : ℕ} (hn : A.length < n) {slot : ℕ}
    (hslot : slot < ht.slots.length) (hrot : ht.slots.rotate slot = A ++ f :: B) (r : UInt32) :
    ∃ r', hstFreeSlot ht n slot r = some ((slot + A.length) % ht.slots.length, r') ∧
      r'.toNat = (r.toNat + A.length) % 2 ^ 32 := by
  induction A generalizing slot r n B with
  | nil =>
    obtain ⟨m, rfl⟩ : ∃ m, n = m + 1 := ⟨n - 1, by simp at hn; omega⟩
    obtain ⟨hget, -⟩ := rotate_next hslot hrot
    have hflags : (f.flags == 0) = true := by simpa [FfhstItem.busy] using hf
    exact ⟨r, by simp [hstFreeSlot, hstSlotEmpty, hget, hflags, Nat.mod_eq_of_lt hslot],
      (Nat.mod_eq_of_lt r.toNat_lt).symm⟩
  | cons a A ih =>
    obtain ⟨m, rfl⟩ : ∃ m, n = m + 1 := ⟨n - 1, by simp at hn; omega⟩
    obtain ⟨hget, hnext⟩ := rotate_next hslot hrot
    have hflags : (a.flags == 0) = false := by simpa [FfhstItem.busy] using hA a (by simp)
    have hnext' : ht.slots.rotate ((slot + 1) % ht.slots.length) = A ++ f :: (B ++ [a]) := by
      simpa using hnext
    obtain ⟨r', hr', hnum⟩ := ih (fun x hx => hA x (by simp [hx])) (by simpa using hn)
      (Nat.mod_lt _ (Nat.zero_lt_of_lt hslot)) hnext' (r + 1)
    rw [Nat.mod_add_mod] at hr'
    refine ⟨r', ?_, ?_⟩
    · simp only [hstFreeSlot, hstSlotEmpty, hget, map_some, bind_eq_bind,
        bind_some, hflags, Bool.false_eq_true, if_false, h.collnext_eq, hr', length_cons]
      congr 3
      omega
    · have hone : (r + 1).toNat = (r.toNat + 1) % 2 ^ 32 := UInt32.toNat_add r 1
      rw [hnum, hone, length_cons]
      omega

/-- **An insertion** puts the entry behind the others, or the table is full. -/
theorem ffhstIns_spec (h : ht.Rep es) (e : UInt32 × Option α) {n : ℕ} (hn : ht.nslots ≤ n) :
    (es.length < ht.nslots ∧ ∃ r ht', ffhstIns n ht e.1 e.2 = some (r, ht') ∧
      ht'.Rep (es ++ [e]) ∧ ht'.nslots = ht.nslots ∧ ht'.cmpkey = ht.cmpkey ∧
      (es.length + 1 < 2 ^ 31 → 0 < r)) ∨
    (es.length = ht.nslots ∧ ffhstIns n ht e.1 e.2 = some (-1, ht)) := by
  have hle := h.len_le
  have hslot := h.slot_lt e.1
  rcases Nat.lt_or_ge es.length ht.nslots with hlt | hge
  · refine .inl ⟨hlt, ?_⟩
    -- the probe sequence up to the first free slot
    obtain ⟨x, hx, hfree⟩ := h.probed.exists_free (by rw [h.size]; simpa using hlt)
    obtain ⟨A, f, B, hrot, hA, hf⟩ :=
      exists_first_free ⟨x, mem_rotate (n := hstSlot ht e.1).mpr hx, hfree⟩
    have hAn : A.length < n := by
      have := congrArg List.length hrot
      have hs := h.size
      simp only [length_rotate, length_append, length_cons] at this
      omega
    obtain ⟨r, hr, hnum⟩ := hstFreeSlot_spec h hA hf hAn hslot hrot 1
    -- the slots in front of it are entries of the table
    have hAes : A.length ≤ es.length := by
      have hcount := ((rotate_perm ht.slots (hstSlot ht e.1)).filter FfhstItem.busy).length_eq
      rw [hrot, filter_append, filter_eq_self.mpr hA, h.probed.count,
        length_append, length_map] at hcount
      omega
    obtain ⟨b, hb⟩ : ∃ b, hstSlotEmpty ht (hstSlot ht e.1) = some b := by
      simp [hstSlotEmpty, getElem?_eq_getElem hslot]
    have hhome : e.1.toNat % ht.nslots = hstSlot ht e.1 := (h.slot_eq e.1).symm
    have hins := h.probed.insert (e := hstItem e) (f := f) (A := A) (B := B)
      (by rw [hstItem, hhome]; exact hslot) (by rw [hstItem, hhome]; exact hrot) hA hf rfl
    -- the home slot is free, or the loop goes on from it
    have hres : ∃ r, (if !b then hstFreeSlot ht n (hstSlot ht e.1) 1
        else some (hstSlot ht e.1, 1)) =
        some ((hstSlot ht e.1 + A.length) % ht.slots.length, r) ∧
        (es.length + 1 < 2 ^ 31 → 0 < r.toNat ∧ r.toNat < 2 ^ 31) := by
      cases b with
      | false =>
        refine ⟨r, hr, fun hlen => ?_⟩
        have hone : (1 : UInt32).toNat = 1 := rfl
        rw [hone] at hnum
        omega
      | true =>
        refine ⟨1, ?_, fun _ => ⟨by decide, by decide⟩⟩
        cases A with
        | nil => simp [Nat.mod_eq_of_lt hslot]
        | cons a A =>
          obtain ⟨hget, -⟩ := rotate_next hslot hrot
          have ha := hA a (by simp)
          simp [hstSlotEmpty, hget] at hb
          simp [FfhstItem.busy, hb] at ha
    obtain ⟨r, hr, hpos⟩ := hres
    have hfull : ¬ (ht.len + 1) % SIZE_BOUND > ht.nslots := by
      rw [h.len_mod]
      omega
    refine ⟨r.toInt32, { ht with
      slots := ht.slots.set ((hstSlot ht e.1 + A.length) % ht.slots.length) (hstItem e)
      len := es.length + 1 }, ?_, ⟨h.pow, h.mask, ?_, ?_, ?_, ?_⟩, rfl, rfl, ?_⟩
    · simp only [ffhstIns, hfull, if_false, hb, hr, bind_eq_bind, bind_some, hstItem]
      rw [h.len_mod]
    · simpa using h.size
    · simp
    · rw [length_append]
      exact hlt
    · rw [map_append]
      simp only [hstItem, hhome] at hins
      exact hins
    intro hlen
    obtain ⟨hpos, hlt⟩ := hpos hlen
    have hint : r.toInt32.toInt = r.toNat :=
      BitVec.toInt_eq_toNat_of_lt (show 2 * r.toNat < 2 ^ 32 by omega)
    rw [Int32.lt_iff_toInt_lt, hint]
    exact Int.natCast_pos.mpr hpos
  · refine .inr ⟨le_antisymm hle hge, ?_⟩
    have hfull : (ht.len + 1) % SIZE_BOUND > ht.nslots := by
      rw [h.len_mod]
      omega
    simp [ffhstIns, hfull]

/-! ### Search -/

/-- The key that is searched for. -/
def hstMatches (cmpkey : Option α → κ → π → ℤ) (hash : UInt32) (key : κ) (param : π)
    (e : UInt32 × Option α) : Bool :=
  e.1 == hash && decide (0 = cmpkey e.2 key param)

/-- A slot that a search stops at, with the entry. -/
def hstItemMatches (cmpkey : Option α → κ → π → ℤ) (hash : UInt32) (key : κ) (param : π)
    (it : FfhstItem α) : Bool :=
  hstMatches cmpkey hash key param (it.keyhash, it.val)

section Search

variable {hash : UInt32} {key : κ} {param : π}

/-- The loop of a search goes along the probe sequence to a free slot or to an entry that
matches. -/
theorem hstFindFrom_spec (h : ht.Rep es) {A B : List (FfhstItem α)} {x : FfhstItem α}
    (hA : ∀ y ∈ A, y.busy ∧ ¬ hstItemMatches ht.cmpkey hash key param y)
    (hx : x.busy = false ∨ hstItemMatches ht.cmpkey hash key param x) {n : ℕ} (hn : A.length < n)
    {slot : ℕ} (hslot : slot < ht.slots.length) (hrot : ht.slots.rotate slot = A ++ x :: B) :
    hstFindFrom ht hash key param n slot = some (if x.busy then some x else none) := by
  induction A generalizing slot n B with
  | nil =>
    obtain ⟨m, rfl⟩ : ∃ m, n = m + 1 := ⟨n - 1, by simp at hn; omega⟩
    obtain ⟨hget, -⟩ := rotate_next hslot hrot
    simp only [hstFindFrom, hget, bind_eq_bind, bind_some]
    by_cases hflags : x.flags = 0
    · simp [hflags, FfhstItem.busy]
    · have hbusy : x.busy = true := by simpa [FfhstItem.busy] using hflags
      have hmatch := hx.resolve_left (by simp [hbusy])
      simp only [hstItemMatches, hstMatches, Bool.and_eq_true, beq_iff_eq,
        decide_eq_true_eq] at hmatch
      rw [if_neg hflags, if_pos hmatch, if_pos hbusy]
  | cons a A ih =>
    obtain ⟨m, rfl⟩ : ∃ m, n = m + 1 := ⟨n - 1, by simp at hn; omega⟩
    obtain ⟨hget, hnext⟩ := rotate_next hslot hrot
    obtain ⟨hbusy, hno⟩ := hA a (by simp)
    have hflags : a.flags ≠ 0 := by simpa [FfhstItem.busy] using hbusy
    have hmatch : ¬(a.keyhash = hash ∧ 0 = ht.cmpkey a.val key param) := by
      simpa [hstItemMatches, hstMatches] using hno
    have hnext' : ht.slots.rotate ((slot + 1) % ht.slots.length) = A ++ x :: (B ++ [a]) := by
      simpa using hnext
    have hrest := ih (fun y hy => hA y (by simp [hy])) (by simpa using hn)
      (Nat.mod_lt _ (Nat.zero_lt_of_lt hslot)) hnext'
    simp only [hstFindFrom, hget, bind_eq_bind, bind_some, if_neg hflags,
      if_neg hmatch, h.collnext_eq, hrest]

theorem hstFindFrom_none (h : ht.Rep es)
    (hall : ∀ x ∈ ht.slots, x.busy ∧ ¬ hstItemMatches ht.cmpkey hash key param x) (n : ℕ) {slot : ℕ}
    (hslot : slot < ht.slots.length) : hstFindFrom ht hash key param n slot = none := by
  induction n generalizing slot with
  | zero => rfl
  | succ n ih =>
    obtain ⟨hbusy, hno⟩ := hall _ (getElem_mem hslot)
    have hflags : ht.slots[slot].flags ≠ 0 := by simpa [FfhstItem.busy] using hbusy
    have hmatch : ¬(ht.slots[slot].keyhash = hash ∧
        0 = ht.cmpkey ht.slots[slot].val key param) := by
      simpa [hstItemMatches, hstMatches] using hno
    have hrest := ih (Nat.mod_lt (slot + 1) (Nat.zero_lt_of_lt hslot))
    simp only [hstFindFrom, getElem?_eq_getElem hslot, bind_eq_bind,
      bind_some, if_neg hflags, if_neg hmatch, h.collnext_eq, hrest]

theorem hstItemMatches_item (cmpkey : Option α → κ → π → ℤ) :
    hstItemMatches cmpkey hash key param ∘ hstItem = hstMatches cmpkey hash key param := by
  funext e
  rfl

variable (hash key param) in
/-- What a search finds before the first free slot is the earliest entry that matches. -/
theorem Ffhstab.Rep.find_path (h : ht.Rep es) :
    ((ht.slots.rotate (hstSlot ht hash)).takeWhile FfhstItem.busy).find?
        (hstItemMatches ht.cmpkey hash key param) =
      (es.find? (hstMatches ht.cmpkey hash key param)).map hstItem := by
  have hpath := h.probed.find_path (k := hash) (m := hstItemMatches ht.cmpkey hash key param)
    fun x hx => by
      simp only [hstItemMatches, hstMatches, Bool.and_eq_true, beq_iff_eq] at hx
      exact hx.1
  rw [← h.slot_eq] at hpath
  rw [hpath, find?_map, hstItemMatches_item]

variable (hash key param) in
/-- **A search** gives the earliest entry that matches; without one it ends if a slot is
free. -/
theorem ffhstFindEl_spec (h : ht.Rep es) :
    (∃ e, es.find? (hstMatches ht.cmpkey hash key param) = some e ∧
      ∀ n, ht.nslots ≤ n → ffhstFindEl n ht hash key param = some (some (hstItem e))) ∨
    (es.find? (hstMatches ht.cmpkey hash key param) = none ∧
      if es.length < ht.nslots then
        ∀ n, ht.nslots ≤ n → ffhstFindEl n ht hash key param = some none
      else ∀ n, ffhstFindEl n ht hash key param = none) := by
  have hslot := h.slot_lt hash
  have hpath := h.find_path hash key param
  have hsize := h.size
  have hlen : ∀ {A B x}, ht.slots.rotate (hstSlot ht hash) = A ++ x :: B → A.length < ht.nslots := by
    intro A B x hrot
    have := congrArg List.length hrot
    simp only [length_rotate, length_append, length_cons] at this
    omega
  cases hfind : es.find? (hstMatches ht.cmpkey hash key param) with
  | some e =>
    refine .inl ⟨e, rfl, fun n hn => ?_⟩
    rw [hfind, map_some] at hpath
    obtain ⟨hmatch, A, B, hpre, hA⟩ := find?_eq_some_iff_append.mp hpath
    have hbusy : ∀ y ∈ A, y.busy := fun y hy =>
      all_eq_true.mp all_takeWhile y (by rw [hpre]; simp [hy])
    obtain ⟨rest, hrest⟩ : ∃ rest, ht.slots.rotate (hstSlot ht hash) = A ++ hstItem e :: rest := by
      refine ⟨B ++ (ht.slots.rotate (hstSlot ht hash)).dropWhile FfhstItem.busy, ?_⟩
      conv_lhs => rw [← takeWhile_append_dropWhile (p := FfhstItem.busy)
        (l := ht.slots.rotate (hstSlot ht hash)), hpre]
      simp
    exact hstFindFrom_spec h (fun y hy => ⟨hbusy y hy, by simpa using hA y hy⟩) (.inr hmatch)
      ((hlen hrest).trans_le hn) hslot hrest
  | none =>
    refine .inr ⟨rfl, ?_⟩
    rw [hfind, map_none, find?_eq_none] at hpath
    split
    · next hlt =>
        intro n hn
        obtain ⟨x, hx, hfree⟩ := h.probed.exists_free (by rw [hsize]; simpa using hlt)
        obtain ⟨A, f, B, hrot, hA, hf⟩ :=
          exists_first_free ⟨x, mem_rotate (n := hstSlot ht hash).mpr hx, hfree⟩
        have htake : (ht.slots.rotate (hstSlot ht hash)).takeWhile FfhstItem.busy = A := by
          rw [hrot, takeWhile_append_of_pos hA, takeWhile_cons_of_neg (by simp [hf]),
            append_nil]
        rw [htake] at hpath
        have he := hstFindFrom_spec h (fun y hy => ⟨hA y hy, hpath y hy⟩) (.inl hf)
          ((hlen hrot).trans_le hn) hslot hrot
        rw [ffhstFindEl, he, hf]
        rfl
    next hge =>
      intro n
      have hall := h.probed.all_busy (by rw [hsize]; simpa using hge)
      have htake : (ht.slots.rotate (hstSlot ht hash)).takeWhile FfhstItem.busy =
          ht.slots.rotate (hstSlot ht hash) :=
        takeWhile_eq_self_iff.mpr fun x hx => hall x (mem_rotate.mp hx)
      rw [htake] at hpath
      exact hstFindFrom_none h
        (fun x hx => ⟨hall x hx, hpath x (mem_rotate.mpr hx)⟩) n hslot

end Search

/-! ### Runs -/

/-- An insertion, and the entries that the table has taken so far: the number of items grows
when it takes the entry. -/
def hstStep (n : ℕ) (s : Ffhstab α κ π × List (UInt32 × Option α)) (e : UInt32 × Option α) :
    Option (Ffhstab α κ π × List (UInt32 × Option α)) := do
  let (_, ht) ← ffhstIns n s.1 e.1 e.2
  some (ht, if ht.len = s.1.len then s.2 else s.2 ++ [e])

/-- A search ends with the value of the earliest entry that matches, and with `NULL` just when
there is none. -/
def FindsEarliest (ht : Ffhstab α κ π) (es : List (UInt32 × Option α)) (hash : UInt32) (key : κ)
    (param : π) : Prop :=
  ∃ m v, (∀ n, m ≤ n → ffhstFind n ht hash key param = some v) ∧
    v = (es.find? (hstMatches ht.cmpkey hash key param)).bind Prod.snd ∧
    (v = none ↔ ∀ e ∈ es, ¬ hstMatches ht.cmpkey hash key param e)

theorem hstStep_preserves (nslots n : ℕ) (hn : nslots ≤ n) :
    Preserves (hstStep (α := α) (κ := κ) (π := π) n) (fun _ _ => True)
      (fun s => s.1.Rep s.2 ∧ s.1.nslots = nslots) := by
  rintro ⟨ht, es⟩ e ⟨h, rfl⟩ -
  rcases ffhstIns_spec h e hn with ⟨-, r, ht', he, h', hns, -⟩ | ⟨-, he⟩
  · have hlen : ht'.len ≠ ht.len := by
      rw [h'.len, h.len]
      simp
    exact ⟨(ht', es ++ [e]), by simp [hstStep, he, hlen], h', hns⟩
  · exact ⟨(ht, es), by simp [hstStep, he], h, rfl⟩

theorem run_hstStep_room {n : ℕ} {es ins : List (UInt32 × Option α)} {ht : Ffhstab α κ π}
    (hn : ht.nslots ≤ n) (h : ht.Rep es) (hroom : es.length + ins.length ≤ ht.nslots) :
    ∃ ht', run (hstStep n) (ht, es) ins = some (ht', es ++ ins) ∧ ht'.Rep (es ++ ins) ∧
      ht'.nslots = ht.nslots ∧ ht'.cmpkey = ht.cmpkey := by
  induction ins generalizing ht es with
  | nil => exact ⟨ht, by simp [run], by simpa using h, rfl, rfl⟩
  | cons e ins ih =>
    rw [length_cons] at hroom
    rcases ffhstIns_spec h e hn with ⟨-, r, ht', he, h', hns, hcmp, -⟩ | ⟨hfull, -⟩
    · have hlen : ht'.len ≠ ht.len := by
        rw [h'.len, h.len]
        simp
      have hroom' : (es ++ [e]).length + ins.length ≤ ht'.nslots := by
        rw [length_append, length_singleton, hns]
        omega
      obtain ⟨ht'', hrun, h'', hns', hcmp'⟩ := ih (hns ▸ hn) h' hroom'
      rw [append_assoc, singleton_append] at hrun h''
      refine ⟨ht'', ?_, h'', hns'.trans hns, hcmp'.trans hcmp⟩
      simp [run, hstStep, he, hlen, hrun]
    · omega

theorem ffhstInit_rep {alignPower2 : ℕ → ℕ} (halign : ∀ n, ∃ k, k < 64 ∧ alignPower2 n = 2 ^ k)
    {calloc : ℕ → Bool} {cmpkey : Option α → κ → π → ℤ} {items : ℕ} {ht : Ffhstab α κ π}
    (hinit : ffhstInit alignPower2 calloc cmpkey items = some ht) : ht.Rep [] := by
  obtain ⟨m, hm⟩ : ∃ m, ht = ⟨0, alignPower2 m, alignPower2 m - 1,
      List.replicate (alignPower2 m) ⟨0, 0, none⟩, cmpkey⟩ := by
    obtain ⟨m, hm⟩ : ∃ m, (if alignPower2 ((items / 1 + 1) % SIZE_BOUND) * 75 % SIZE_BOUND / 100 <
        (items / 1 + 1) % SIZE_BOUND then
          alignPower2 (alignPower2 ((items / 1 + 1) % SIZE_BOUND) + 1)
        else alignPower2 ((items / 1 + 1) % SIZE_BOUND)) = alignPower2 m := by
      split <;> exact ⟨_, rfl⟩
    simp only [ffhstInit, hm, Option.ite_none_right_eq_some, some.injEq] at hinit
    exact ⟨m, hinit.2.symm⟩
  subst hm
  refine ⟨halign m, rfl, by simp, rfl, Nat.zero_le _, ⟨fun h => ?_, fun h x hx hb => ?_, ?_, ?_⟩⟩
  · rw [rotate_replicate]
    simp [FfhstItem.busy]
  · rw [rotate_replicate] at hx
    have := eq_of_mem_replicate ((dropWhile_sublist _).subset hx)
    rw [this] at hb
    cases hb
  · simp
  · simp [FfhstItem.busy]

/-- When a search is right, in a table that holds `es`. -/
theorem Ffhstab.Rep.findsEarliest_iff (h : ht.Rep es) {hash : UInt32} {key : κ} {param : π} :
    FindsEarliest ht es hash key param ↔
      (es.length < ht.nslots ∨ ∃ e ∈ es, hstMatches ht.cmpkey hash key param e) ∧
        ∀ e, es.find? (hstMatches ht.cmpkey hash key param) = some e → e.2 ≠ none := by
  rcases ffhstFindEl_spec hash key param h with
    ⟨e, hfind, hel⟩ | ⟨hfind, hel⟩
  · have hmem := mem_of_find?_eq_some hfind
    have hmatch := find?_some hfind
    simp only [FindsEarliest, hfind, bind_some, some.injEq]
    constructor
    · rintro ⟨m, v, -, rfl, hnull⟩
      refine ⟨.inr ⟨e, hmem, hmatch⟩, ?_⟩
      rintro _ rfl hn
      exact hnull.mp hn e hmem hmatch
    · rintro ⟨-, hval⟩
      refine ⟨ht.nslots, e.2, fun n hn => by simp [ffhstFind, hel n hn, hstItem], rfl, ?_⟩
      exact ⟨fun hn => absurd hn (hval e rfl), fun hno => absurd hmatch (hno e hmem)⟩
  have hno : ∀ e ∈ es, ¬ hstMatches ht.cmpkey hash key param e := find?_eq_none.mp hfind
  simp only [FindsEarliest, hfind, Option.bind_none, reduceCtorEq, false_imp_iff, implies_true,
    and_true]
  split at hel
  · next hlt =>
      refine ⟨fun _ => .inl hlt, fun _ => ⟨ht.nslots, none, fun n hn => ?_, rfl, ?_⟩⟩
      · simp [ffhstFind, hel n hn]
      · exact ⟨fun _ => hno, fun _ => rfl⟩
  next hge =>
    constructor
    · rintro ⟨m, v, hall, -⟩
      have := hall m le_rfl
      simp [ffhstFind, hel m] at this
    · rintro (hlt | ⟨e, he, hmatch⟩)
      · exact absurd hlt hge
      · exact absurd hmatch (hno e he)

end Program

/-- **A search is right** just when a slot is free or an entry matches, and the earliest entry
that matches has a value that is not `NULL`. -/
theorem ffhst_find_iff {α κ π : Type} {alignPower2 : ℕ → ℕ}
    (halign : ∀ n, ∃ k, k < 64 ∧ alignPower2 n = 2 ^ k) {calloc : ℕ → Bool}
    {cmpkey : Option α → κ → π → ℤ} {items : ℕ} {ht₀ : Ffhstab α κ π}
    (hinit : ffhstInit alignPower2 calloc cmpkey items = some ht₀) {n : ℕ} (hn : ht₀.nslots ≤ n)
    (ins : List (UInt32 × Option α)) :
    ∃ ht es, run (hstStep n) (ht₀, []) ins = some (ht, es) ∧ ht.nslots = ht₀.nslots ∧
      ∀ hash key param, FindsEarliest ht es hash key param ↔
        (es.length < ht.nslots ∨ ∃ e ∈ es, hstMatches ht.cmpkey hash key param e) ∧
          ∀ e, es.find? (hstMatches ht.cmpkey hash key param) = some e → e.2 ≠ none := by
  obtain ⟨⟨ht, es⟩, he, h, hns⟩ := (hstStep_preserves ht₀.nslots n hn).run
    (s := (ht₀, [])) ⟨ffhstInit_rep halign hinit, rfl⟩ (.of_forall (fun _ _ => trivial) _ ins)
  exact ⟨ht, es, he, hns, fun hash key param => h.findsEarliest_iff⟩

/-- The least power of two at or above a number up to `2 ^ 63`. -/
def alignPower2 (n : ℕ) : ℕ := 2 ^ (List.range 63).findIdx fun k => n ≤ 2 ^ k

theorem alignPower2_pow (n : ℕ) : ∃ k, k < 64 ∧ alignPower2 n = 2 ^ k :=
  ⟨_, Nat.lt_succ_of_le (by simpa using @findIdx_le_length _ _ (List.range 63)), rfl⟩

/-- Keys are equal when the values are. -/
def cmpValue (val : Option ℕ) (key : ℕ) (_ : Unit) : ℤ := if val = some key then 0 else 1

/-- A table for one item that has taken two with the same hash value. -/
theorem ffhst_find_iff_example :
    ∃ ht₀ ht es, ffhstInit alignPower2 (fun _ => true) cmpValue 1 = some ht₀ ∧
      run (hstStep 4) (ht₀, []) [(7, some 1), (7, some 2)] = some (ht, es) ∧
      ∀ hash key param, FindsEarliest ht es hash key param ↔
        (es.length < ht.nslots ∨ ∃ e ∈ es, hstMatches ht.cmpkey hash key param e) ∧
          ∀ e, es.find? (hstMatches ht.cmpkey hash key param) = some e → e.2 ≠ none := by
  obtain ⟨ht, es, he, -, hfind⟩ := @ffhst_find_iff ℕ ℕ Unit alignPower2 alignPower2_pow
    (fun _ => true) cmpValue 1 _ rfl 4 le_rfl [(7, some 1), (7, some 2)]
  exact ⟨_, ht, es, rfl, he, hfind⟩

/-- **A search in a full table does not end.** A table for one item has four slots and takes four
items; the search for a fifth goes round for ever. -/
theorem ffhst_find_full_hangs :
    ∃ ht₀ ht, ffhstInit alignPower2 (fun _ => true) cmpValue 1 = some ht₀ ∧
      run (hstStep 4) (ht₀, []) [(0, some 1), (1, some 2), (2, some 3), (3, some 4)] =
        some (ht, [(0, some 1), (1, some 2), (2, some 3), (3, some 4)]) ∧
      ¬ FindsEarliest ht [(0, some 1), (1, some 2), (2, some 3), (3, some 4)] 0 5 () := by
  obtain ⟨ht₀, hinit⟩ : ∃ ht₀, ffhstInit alignPower2 (fun _ => true) cmpValue 1 = some ht₀ :=
    ⟨_, rfl⟩
  obtain ⟨ht, hrun, hns, hcmp⟩ : ∃ ht, run (hstStep 4) (ht₀, [])
      [(0, some 1), (1, some 2), (2, some 3), (3, some 4)] =
        some (ht, [(0, some 1), (1, some 2), (2, some 3), (3, some 4)]) ∧
      ht.nslots = 4 ∧ ht.cmpkey = cmpValue := by
    obtain rfl := some.inj hinit
    exact ⟨_, rfl, rfl, rfl⟩
  refine ⟨ht₀, ht, hinit, hrun, ?_⟩
  have hn : ht₀.nslots = 4 := by
    obtain rfl := some.inj hinit
    rfl
  obtain ⟨s, he, h, -⟩ := (hstStep_preserves 4 4 le_rfl).run (s := (ht₀, []))
    ⟨ffhstInit_rep alignPower2_pow hinit, hn⟩ (.of_forall (fun _ _ => trivial) _ _)
  obtain rfl := some.inj (he.symm.trans hrun)
  rw [h.findsEarliest_iff, hns, hcmp]
  rintro ⟨hend, -⟩
  revert hend
  show ¬ (4 < 4 ∨ ∃ e ∈ [(0, some 1), (1, some 2), (2, some 3), (3, some 4)],
    hstMatches cmpValue 0 5 () e)
  decide

end FF
