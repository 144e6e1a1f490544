import Mathlib.Data.List.Basic

/-!
# The windows of a stream

A stream is read in blocks, and something is looked for that takes `c` places. It is seen if a block
has all of it. A block says where in the stream it begins.

## Main results

* `piece_piece`, `piece_add`: pieces of pieces, and pieces behind one another.
* `findWindow_some`, `findWindow_none`: the first window that is looked for in a block.
* `findWindow_eq_iff`: looking for more finds the same.
-/

namespace FF

open List

section Pieces

variable {α : Type*}

/-- The `n` places of `s` from `i` on. -/
def piece (s : List α) (i n : ℕ) : List α := (s.drop i).take n

variable {s bs : List α} {p : List α → Bool} {a c i k m n : ℕ}

theorem length_piece (h : i + n ≤ s.length) : (piece s i n).length = n := by
  rw [piece, length_take, length_drop]
  omega

theorem piece_zero (s : List α) (i : ℕ) : piece s i 0 = [] := take_zero

/-- Pieces behind one another. -/
theorem piece_add (s : List α) (a m n : ℕ) :
    piece s a (m + n) = piece s a m ++ piece s (a + m) n := by
  rw [piece, take_add, drop_drop]
  rfl

/-- A piece of a piece. -/
theorem piece_piece (h : k + c ≤ m) : piece (piece s a m) k c = piece s (a + k) c := by
  rw [piece, piece, drop_take, take_take, drop_drop, Nat.min_eq_left (by omega)]
  rfl

theorem piece_take (h : k ≤ m) : (piece s a m).take k = piece s a k := by
  rw [piece, take_take, Nat.min_eq_left h]
  rfl

theorem piece_drop (s : List α) (a k m : ℕ) : (piece s a m).drop k = piece s (a + k) (m - k) := by
  rw [piece, drop_take, drop_drop]
  rfl

/-- The first window that is looked for. -/
def findWindow (p : List α → Bool) (c : ℕ) (bs : List α) : Option ℕ :=
  (List.range (bs.length + 1 - c)).find? fun k => p (piece bs k c)

theorem findWindow_some (h : findWindow p c bs = some k) :
    k + c ≤ bs.length ∧ p (piece bs k c) = true ∧ ∀ j < k, p (piece bs j c) = false := by
  obtain ⟨hp, hlt, hfirst⟩ := find?_range_eq_some.mp h
  refine ⟨?_, hp, fun j hj => ?_⟩
  · have := mem_range.mp hlt
    omega
  · simpa using hfirst j hj

theorem findWindow_none (h : findWindow p c bs = none) (hk : k + c ≤ bs.length) :
    p (piece bs k c) = false := by
  have hno := find?_range_eq_none.mp h k (by omega)
  simpa using hno

theorem findWindow_of_first (hk : k + c ≤ bs.length) (hp : p (piece bs k c) = true)
    (hno : ∀ j < k, p (piece bs j c) = false) : findWindow p c bs = some k := by
  refine find?_range_eq_some.mpr ⟨hp, mem_range.mpr (by omega), fun j hj => ?_⟩
  simp [hno j hj]

theorem findWindow_eq_none (h : ∀ k, k + c ≤ bs.length → p (piece bs k c) = false) :
    findWindow p c bs = none := by
  refine find?_range_eq_none.mpr fun k hk => ?_
  simp [h k (by omega)]

/-- The first window, from the front. -/
theorem findWindow_cons (p : List α → Bool) (a : α) (h : c ≤ bs.length + 1) :
    findWindow p c (a :: bs) =
      if p ((a :: bs).take c) then some 0 else (findWindow p c bs).map (· + 1) := by
  rw [findWindow, length_cons, show bs.length + 1 + 1 - c = (bs.length + 1 - c) + 1 by omega,
    range_succ_eq_map, find?_cons]
  cases hp : p ((a :: bs).take c) with
  | true => simp [piece, hp]
  | false =>
    simp only [piece, drop_zero, hp, find?_map]
    rfl

/-- **What more is accepted**: nothing changes if it all stands behind a window that is looked
for. -/
theorem findWindow_eq_iff {q : List α → Bool} (hpq : ∀ w, p w = true → q w = true) :
    findWindow q c bs = findWindow p c bs ↔
      ∀ k, k + c ≤ bs.length → q (piece bs k c) = true → ∃ j ≤ k, p (piece bs j c) = true := by
  constructor
  · intro heq k hk hq
    cases hf : findWindow q c bs with
    | none => simp [findWindow_none hf hk] at hq
    | some i =>
      obtain ⟨-, -, hfirst⟩ := findWindow_some hf
      have hik : i ≤ k := by
        by_contra hlt
        simp [hfirst k (by omega)] at hq
      exact ⟨i, hik, (findWindow_some (heq ▸ hf)).2.1⟩
  intro h
  cases hf : findWindow p c bs with
  | none =>
    refine findWindow_eq_none fun k hk => ?_
    by_contra hq
    obtain ⟨j, hj, hp⟩ := h k hk (by simpa using hq)
    simp [findWindow_none hf (show j + c ≤ bs.length by omega)] at hp
  | some i =>
    obtain ⟨hi, hp, hfirst⟩ := findWindow_some hf
    refine findWindow_of_first hi (hpq _ hp) fun k hk => ?_
    by_contra hq
    obtain ⟨j, hj, hpj⟩ := h k (by omega) (by simpa using hq)
    simp [hfirst j (by omega)] at hpj

end Pieces

/-- A block of a stream. -/
structure StreamBlock (α : Type*) where
  start : ℕ
  bytes : List α
  deriving DecidableEq, Repr

section Blocks

variable {α : Type*}

/-- The block is what the stream has at its place. -/
def StreamBlock.Of (b : StreamBlock α) (s : List α) : Prop :=
  b.start + b.bytes.length ≤ s.length ∧ b.bytes = piece s b.start b.bytes.length

/-- A block has all of the window at `i`. -/
def Presented (bs : List (StreamBlock α)) (c i : ℕ) : Prop :=
  ∃ b ∈ bs, b.start ≤ i ∧ i + c ≤ b.start + b.bytes.length

variable {bs bs' : List (StreamBlock α)} {c i : ℕ}

theorem Presented.left (h : Presented bs c i) : Presented (bs ++ bs') c i := by
  obtain ⟨b, hb, hin⟩ := h
  exact ⟨b, mem_append_left bs' hb, hin⟩

theorem Presented.right (h : Presented bs' c i) : Presented (bs ++ bs') c i := by
  obtain ⟨b, hb, hin⟩ := h
  exact ⟨b, mem_append_right bs hb, hin⟩

end Blocks

end FF
