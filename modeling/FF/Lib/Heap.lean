import Mathlib.Data.List.Basic

/-!
# Partial heaps

A heap is a partial map from addresses to cells: `none` is memory that is not (or no
longer) allocated. Programs over a heap run in `Option`, so that an access outside the
allocated memory is a failed run and a theorem `f h = some h'` says, among the rest, that
`f` touches allocated memory only.

Every write is a `modify` of one cell. What a sequence of writes leaves alone is stated
with `EqOff`: two heaps that agree outside a list of addresses.
-/

namespace FF

/-- A partial map from addresses to cells. -/
abbrev Heap (A V : Type*) := A → Option V

namespace Heap

section Agreement

variable {A V : Type*}

/-- The heaps agree outside the addresses of `S`. -/
def EqOff (S : List A) (h h' : Heap A V) : Prop := ∀ a, a ∉ S → h' a = h a

theorem EqOff.refl (S : List A) (h : Heap A V) : EqOff S h h := fun _ _ => rfl

theorem EqOff.mono {S T : List A} {h h' : Heap A V} (hh : EqOff S h h') (hST : S ⊆ T) :
    EqOff T h h' := fun a ha => hh a fun hm => ha (hST hm)

theorem EqOff.trans {S : List A} {h₁ h₂ h₃ : Heap A V} (h12 : EqOff S h₁ h₂)
    (h23 : EqOff S h₂ h₃) : EqOff S h₁ h₃ := fun a ha => (h23 a ha).trans (h12 a ha)

end Agreement

variable {A V : Type*} [DecidableEq A]

/-- Store a cell, whether or not the address was allocated. -/
def set (h : Heap A V) (a : A) (v : V) : Heap A V := fun b => if b = a then some v else h b

/-- Give the cell back to the allocator. -/
def erase (h : Heap A V) (a : A) : Heap A V := fun b => if b = a then none else h b

/-- Change an allocated cell; an access to unallocated memory fails. -/
def modify (h : Heap A V) (a : A) (f : V → V) : Option (Heap A V) :=
  (h a).map fun v => h.set a (f v)

@[simp] theorem set_self (h : Heap A V) (a : A) (v : V) : h.set a v a = some v := by
  simp [set]

/-- Storing what is there already changes nothing. -/
theorem set_eq_self {h : Heap A V} {a : A} {v : V} (ha : h a = some v) : h.set a v = h := by
  funext b
  by_cases hb : b = a
  · simp [hb, ha]
  · simp [set, hb]

theorem set_of_ne (h : Heap A V) {a b : A} (v : V) (hab : b ≠ a) : h.set a v b = h b := by
  simp [set, hab]

/-- A write to an allocated cell succeeds. -/
theorem modify_of_some {h : Heap A V} {a : A} {v : V} (f : V → V) (ha : h a = some v) :
    h.modify a f = some (h.set a (f v)) := by
  simp [modify, ha]

theorem eqOff_set (h : Heap A V) (a : A) (v : V) : EqOff [a] h (h.set a v) := fun b hb =>
  set_of_ne h v (by simpa using hb)

end Heap

end FF
