import FF.Ffstring

/-!
# Tags and their names

The tags of all formats are those of `FF/mtags/mmtag.h`. A format has a sorted table of names, which
is searched without regard to case (`ffszarr_ifindsorted` of `FF/ffstring.c`).
-/

namespace FF

open List

/-- `enum FFMMTAG`. -/
inductive Ffmmtag
  | ukn
  | album
  | albumartist
  | artist
  | comment
  | composer
  | copyright
  | date
  | discnumber
  | genre
  | lyrics
  | picture
  | publisher
  | title
  | trackno
  | tracktotal
  | vendor
  deriving DecidableEq, Repr

/-- The sign of `ffs_icmpz`; the second string ends with a zero, which is not part of the list. -/
def ffsIcmpz : List UInt8 → List UInt8 → Ordering
  | [], [] => .eq
  | [], _ :: _ => .lt
  | _ :: _, [] => .gt
  | a :: s, b :: z =>
    if a = b then ffsIcmpz s z
    else if lowerUp a = lowerUp b then ffsIcmpz s z
    else if lowerUp a < lowerUp b then .lt
    else .gt

/-- The loop of `ffszarr_ifindsorted`. -/
def ifindsortedLoop (ar : List (List UInt8)) (search : List UInt8) : ℕ → ℕ → ℕ → Option ℕ
  | 0, _, _ => none
  | fuel + 1, start, fin =>
    if start = fin then none
    else
      let i := start + (fin - start) / 2
      match ffsIcmpz search (ar.getD i []) with
      | .eq => some i
      | .lt => ifindsortedLoop ar search fuel start i
      | .gt => ifindsortedLoop ar search fuel (i + 1) fin

/-- `ffszarr_ifindsorted`: `none` for -1. -/
def ffszarrIfindsorted (ar : List (List UInt8)) (n : ℕ) (search : List UInt8) : Option ℕ :=
  ifindsortedLoop ar search (n + 1) 0 n

theorem ffsIcmpz_eq {s z : List UInt8} (h : ffsIcmpz s z = .eq) : ffstrIeq s z = true := by
  induction s generalizing z with
  | nil =>
    cases z with
    | nil => rfl
    | cons b z => cases h
  | cons a s ih =>
    cases z with
    | nil => cases h
    | cons b z =>
      rw [ffsIcmpz] at h
      have hcons : lowerUp a = lowerUp b → ffsIcmpz s z = .eq →
          ffstrIeq (a :: s) (b :: z) = true := by
        intro hab hs
        have htail : s.map lowerUp = z.map lowerUp := eq_of_beq (ih hs)
        rw [ffstrIeq, map_cons, map_cons, hab, htail, beq_self_eq_true]
      split at h
      · next hab => exact hcons (congrArg lowerUp hab) h
      · split at h
        · next hab => exact hcons hab h
        · split at h <;> cases h

/-- **What is found** is the name but for case. -/
theorem ffszarrIfindsorted_eq {ar : List (List UInt8)} {n i : ℕ} {search : List UInt8}
    (h : ffszarrIfindsorted ar n search = some i) :
    i < n ∧ ffstrIeq search (ar.getD i []) = true := by
  have key : ∀ fuel start fin, start ≤ fin → ifindsortedLoop ar search fuel start fin = some i →
      i < fin ∧ ffstrIeq search (ar.getD i []) = true := by
    intro fuel
    induction fuel with
    | zero =>
      intro start fin _ h
      cases h
    | succ fuel ih =>
      intro start fin hle h
      rw [ifindsortedLoop] at h
      split at h
      · cases h
      dsimp only at h
      split at h
      · next he =>
          obtain rfl := Option.some.inj h
          exact ⟨by omega, ffsIcmpz_eq he⟩
      · obtain ⟨hi, heq⟩ := ih start _ (by omega) h
        exact ⟨by omega, heq⟩
      · exact ih _ fin (by omega) h
  exact key _ 0 n (Nat.zero_le n) h

theorem ffsIcmpz_cons (a b : UInt8) (s z : List UInt8) :
    ffsIcmpz (a :: s) (b :: z) =
      if lowerUp a = lowerUp b then ffsIcmpz s z
      else if lowerUp a < lowerUp b then .lt
      else .gt := by
  rw [ffsIcmpz]
  by_cases hab : a = b
  · rw [if_pos hab, if_pos (congrArg lowerUp hab)]
  · rw [if_neg hab]

theorem ffsIcmpz_congr {s s' : List UInt8} (h : s.map lowerUp = s'.map lowerUp) (z : List UInt8) :
    ffsIcmpz s z = ffsIcmpz s' z := by
  induction s generalizing s' z with
  | nil =>
    rw [map_nil] at h
    rw [map_eq_nil_iff.mp h.symm]
  | cons a s ih =>
    cases s' with
    | nil => cases h
    | cons a' s' =>
      rw [map_cons, map_cons, List.cons.injEq] at h
      cases z with
      | nil => rfl
      | cons b z => rw [ffsIcmpz_cons, ffsIcmpz_cons, h.1, ih h.2]

/-- **The search does not depend on the case** of the name. -/
theorem ffszarrIfindsorted_congr {s s' : List UInt8} (h : s.map lowerUp = s'.map lowerUp)
    (ar : List (List UInt8)) (n : ℕ) :
    ffszarrIfindsorted ar n s = ffszarrIfindsorted ar n s' := by
  have key : ∀ fuel start fin,
      ifindsortedLoop ar s fuel start fin = ifindsortedLoop ar s' fuel start fin := by
    intro fuel
    induction fuel with
    | zero =>
      intro start fin
      rfl
    | succ fuel ih =>
      intro start fin
      rw [ifindsortedLoop, ifindsortedLoop]
      simp only [ih, ffsIcmpz_congr h]
  exact key _ _ _

end FF
