import Mathlib.Data.List.GetD
import Mathlib.Order.MinMax

/-!
# The first difference

Sequences that go on with one value behind their end are compared at the first place at which they
differ.
-/

namespace FF

open List

theorem getD_head {α : Type*} {z : α} (l : List α) : l.getD 0 z = l.headD z := by
  cases l <;> rfl

theorem getD_tail {α : Type*} {z : α} (l : List α) (i : ℕ) :
    l.getD (i + 1) z = l.tail.getD i z := by
  cases l <;> rfl

variable {α : Type*} [LinearOrder α] {z : α} {s d e : List α}

/-- The first place at which `s` and `d` differ. -/
def firstDiff (z : α) (s d : List α) : Option ℕ :=
  (List.range (max s.length d.length)).find? fun i => decide (s.getD i z ≠ d.getD i z)

/-- The order of the values there. -/
def padCompare (z : α) (s d : List α) : Ordering :=
  match firstDiff z s d with
  | none => .eq
  | some i => cmp (s.getD i z) (d.getD i z)

theorem firstDiff_some {i : ℕ} :
    firstDiff z s d = some i ↔
      s.getD i z ≠ d.getD i z ∧ ∀ j < i, s.getD j z = d.getD j z := by
  rw [firstDiff, find?_range_eq_some]
  constructor
  · rintro ⟨hi, -, hbefore⟩
    exact ⟨of_decide_eq_true hi, fun j hj => by simpa using hbefore j hj⟩
  · rintro ⟨hi, hbefore⟩
    refine ⟨decide_eq_true hi, mem_range.mpr ?_, fun j hj => by simpa using hbefore j hj⟩
    by_contra hlen
    rw [Nat.not_lt, max_le_iff] at hlen
    exact hi (by rw [getD_eq_default _ _ hlen.1, getD_eq_default _ _ hlen.2])

theorem firstDiff_none : firstDiff z s d = none ↔ ∀ i, s.getD i z = d.getD i z := by
  rw [firstDiff, find?_range_eq_none]
  constructor
  · intro h i
    by_cases hi : i < max s.length d.length
    · simpa using h i hi
    · rw [Nat.not_lt, max_le_iff] at hi
      rw [getD_eq_default _ _ hi.1, getD_eq_default _ _ hi.2]
  · intro h i _
    simpa using h i

theorem firstDiff_comm : firstDiff z d s = firstDiff z s d := by
  simp only [firstDiff, max_comm d.length, ne_comm (a := d.getD _ z)]

/-- The first place, from the front. -/
theorem firstDiff_head (z : α) (s d : List α) :
    firstDiff z s d =
      if s.headD z = d.headD z then (firstDiff z s.tail d.tail).map (· + 1) else some 0 := by
  split
  · next heq =>
      cases hf : firstDiff z s.tail d.tail with
      | none =>
        refine firstDiff_none.mpr fun i => ?_
        cases i with
        | zero => rw [getD_head, getD_head, heq]
        | succ i => rw [getD_tail, getD_tail, firstDiff_none.mp hf i]
      | some k =>
        obtain ⟨hk, hbefore⟩ := firstDiff_some.mp hf
        refine firstDiff_some.mpr ⟨by rwa [getD_tail, getD_tail], fun j hj => ?_⟩
        cases j with
        | zero => rw [getD_head, getD_head, heq]
        | succ j => rw [getD_tail, getD_tail, hbefore j (Nat.lt_of_succ_lt_succ hj)]
  · next hne =>
      refine firstDiff_some.mpr ⟨by rwa [getD_head, getD_head], fun j hj => ?_⟩
      exact absurd hj (Nat.not_lt_zero j)

/-- The first place decides, or the places behind it. -/
theorem padCompare_head (z : α) (s d : List α) :
    padCompare z s d = (cmp (s.headD z) (d.headD z)).then (padCompare z s.tail d.tail) := by
  rw [padCompare, padCompare, firstDiff_head]
  by_cases heq : s.headD z = d.headD z
  · rw [if_pos heq, (cmp_eq_eq_iff _ _).mpr heq, Ordering.then]
    cases firstDiff z s.tail d.tail with
    | none => rfl
    | some k =>
      change cmp (s.getD (k + 1) z) (d.getD (k + 1) z) = _
      rw [getD_tail, getD_tail]
  have hcmp : cmp (s.headD z) (d.headD z) ≠ .eq := fun h => heq ((cmp_eq_eq_iff _ _).mp h)
  rw [if_neg heq]
  change cmp (s.getD 0 z) (d.getD 0 z) = _
  rw [getD_head, getD_head]
  cases hc : cmp (s.headD z) (d.headD z) with
  | eq => exact absurd hc hcmp
  | lt => rfl
  | gt => rfl

theorem padCompare_eq_eq : padCompare z s d = .eq ↔ firstDiff z s d = none := by
  rw [padCompare]
  cases hf : firstDiff z s d with
  | none => simp
  | some i =>
    exact ⟨fun h => absurd ((cmp_eq_eq_iff _ _).mp h) (firstDiff_some.mp hf).1, fun h => by cases h⟩

theorem padCompare_eq_lt :
    padCompare z s d = .lt ↔
      ∃ i, s.getD i z < d.getD i z ∧ ∀ j < i, s.getD j z = d.getD j z := by
  rw [padCompare]
  constructor
  · intro h
    cases hf : firstDiff z s d with
    | none =>
      rw [hf] at h
      cases h
    | some i =>
      rw [hf] at h
      exact ⟨i, (cmp_eq_lt_iff _ _).mp h, (firstDiff_some.mp hf).2⟩
  · rintro ⟨i, hlt, hbefore⟩
    rw [firstDiff_some.mpr ⟨hlt.ne, hbefore⟩]
    exact (cmp_eq_lt_iff _ _).mpr hlt

/-- **The order is antisymmetric.** -/
theorem padCompare_swap (z : α) (s d : List α) : padCompare z d s = (padCompare z s d).swap := by
  rw [padCompare, padCompare, firstDiff_comm]
  cases firstDiff z s d with
  | none => rfl
  | some i => exact (cmp_swap _ _).symm

/-- **The order is transitive.** -/
theorem padCompare_trans (h : padCompare z s d = .lt) (h' : padCompare z d e = .lt) :
    padCompare z s e = .lt := by
  obtain ⟨i, hi, hbefore⟩ := padCompare_eq_lt.mp h
  obtain ⟨k, hk, hbefore'⟩ := padCompare_eq_lt.mp h'
  rcases lt_trichotomy i k with hlt | rfl | hgt
  · exact padCompare_eq_lt.mpr ⟨i, hbefore' i hlt ▸ hi, fun j hj =>
      (hbefore j hj).trans (hbefore' j (hj.trans hlt))⟩
  · exact padCompare_eq_lt.mpr ⟨i, hi.trans hk, fun j hj =>
      (hbefore j hj).trans (hbefore' j hj)⟩
  · exact padCompare_eq_lt.mpr ⟨k, hbefore k hgt ▸ hk, fun j hj =>
      (hbefore j (hj.trans hgt)).trans (hbefore' j hj)⟩

end FF
