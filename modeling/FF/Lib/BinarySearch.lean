import Mathlib.Data.Int.Notation
import Mathlib.Data.Nat.Notation
import Mathlib.Order.Lattice

/-!
# Binary search

A part of a sequence is bisected by the sign of a comparison. The comparison is with the key of a
place; the keys are in order.
-/

namespace FF

/-- The search between `start` and `fin`. -/
def bisect (cmp : ℕ → ℤ) : ℕ → ℕ → ℕ → Option ℕ
  | 0, _, _ => none
  | fuel + 1, start, fin =>
    if start = fin then none
    else
      let i := start + (fin - start) / 2
      let r := cmp i
      if r = 0 then some i
      else if r < 0 then bisect cmp fuel start i
      else bisect cmp fuel (i + 1) fin

variable {cmp : ℕ → ℤ} {fuel start fin i : ℕ}

/-- **What is found** is within the part, and equal. -/
theorem bisect_some (hle : start ≤ fin) (h : bisect cmp fuel start fin = some i) :
    start ≤ i ∧ i < fin ∧ cmp i = 0 := by
  induction fuel generalizing start fin with
  | zero => cases h
  | succ fuel ih =>
    rw [bisect] at h
    split at h
    · cases h
    dsimp only at h
    split at h
    · next hr =>
        obtain rfl := Option.some.inj h
        exact ⟨by omega, by omega, hr⟩
    · split at h
      · obtain ⟨hlow, hhigh, hr⟩ := ih (by omega) h
        exact ⟨hlow, by omega, hr⟩
      · obtain ⟨hlow, hhigh, hr⟩ := ih (by omega) h
        exact ⟨by omega, hhigh, hr⟩

/-- **Nothing is found** where no key is equal: the half that is left out has greater keys only, or
lesser ones only. -/
theorem bisect_none {κ : Type*} [LinearOrder κ] {key : ℕ → κ} {x : κ} (hle : start ≤ fin)
    (hfuel : fin - start < fuel)
    (hsorted : ∀ i j, start ≤ i → i ≤ j → j < fin → key i ≤ key j)
    (hneg : ∀ i, start ≤ i → i < fin → cmp i < 0 → x < key i)
    (hpos : ∀ i, start ≤ i → i < fin → 0 < cmp i → key i < x)
    (h : bisect cmp fuel start fin = none) (hlow : start ≤ i) (hhigh : i < fin) : key i ≠ x := by
  induction fuel generalizing start fin with
  | zero => exact absurd hfuel (Nat.not_lt_zero _)
  | succ fuel ih =>
    rw [bisect, if_neg (by omega)] at h
    obtain ⟨m, hm⟩ : ∃ m, m = start + (fin - start) / 2 := ⟨_, rfl⟩
    rw [← hm] at h
    by_cases hr : cmp m = 0
    · rw [if_pos hr] at h
      cases h
    rw [if_neg hr] at h
    by_cases hlt : cmp m < 0
    · rw [if_pos hlt] at h
      have hxm := hneg m (by omega) (by omega) hlt
      by_cases him : m ≤ i
      · exact ne_of_gt (lt_of_lt_of_le hxm (hsorted m i (by omega) him hhigh))
      · refine ih (by omega) (by omega) (fun a b ha hab hb => hsorted a b ha hab (by omega))
          (fun a ha hb => hneg a ha (by omega)) (fun a ha hb => hpos a ha (by omega)) h hlow
          (by omega)
    rw [if_neg hlt] at h
    have hmx := hpos m (by omega) (by omega) (by omega)
    by_cases him : i ≤ m
    · exact ne_of_lt (lt_of_le_of_lt (hsorted i m hlow him (by omega)) hmx)
    · refine ih (by omega) (by omega) (fun a b ha hab hb => hsorted a b (by omega) hab hb)
        (fun a ha hb => hneg a (by omega) hb) (fun a ha hb => hpos a (by omega) hb) h (by omega)
        hhigh

end FF
