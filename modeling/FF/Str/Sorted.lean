import FF.Lib.BinarySearch
import FF.Mtags.Tags
import Mathlib.Data.List.Lex

/-!
# Strings in sorted arrays

`ffszarr_findsorted` and `ffszarr_ifindsorted` search an array of zero-terminated strings, and
`ffcharr_findsorted` one of cells of `m` bytes, in which a string has zeros behind it.

## Conventions

* A zero-terminated string is the list of the bytes in front of the zero.
* A comparison gives the place of the difference, which is stored in an `int`.
* The order of strings is the lexicographic one of `key`.
-/

namespace FF

namespace Sorted

open List

/-! ### The functions -/

/-- `ffs_cmpz` (with `id`) and `ffs_icmpz` (with `lowerUp`) from the byte `i` on. -/
@[grind =] def cmpzAt (fold : UInt8 → UInt8) (i : ℕ) : List UInt8 → List UInt8 → ℤ
  | [], [] => 0
  | [], _ :: _ => -(i : ℤ) - 1
  | _ :: _, [] => i + 1
  | ch1 :: s1, ch2 :: sz2 =>
    if ch1 = ch2 then cmpzAt fold (i + 1) s1 sz2
    else if fold ch1 = fold ch2 then cmpzAt fold (i + 1) s1 sz2
    else if fold ch1 < fold ch2 then -(i : ℤ) - 1
    else i + 1

/-- `ffs_cmpz` -/
def ffsCmpz (s1 sz2 : List UInt8) : ℤ := cmpzAt id 0 s1 sz2

/-- `ffs_icmpz` -/
def ffsIcmpz (s1 sz2 : List UInt8) : ℤ := cmpzAt lowerUp 0 s1 sz2

/-- The loop of the searches in an array of strings; `none` for -1. -/
def zarrFindsorted (cmpz : List UInt8 → List UInt8 → ℤ) (ar : List (List UInt8))
    (search : List UInt8) : Option ℕ :=
  bisect (fun i => int32 (uint (cmpz search (ar.getD i [])))) (ar.length + 1) 0 ar.length

/-- `ffszarr_findsorted` -/
def ffszarrFindsorted (ar : List (List UInt8)) (search : List UInt8) : Option ℕ :=
  zarrFindsorted ffsCmpz ar search

/-- `ffszarr_ifindsorted` -/
def ffszarrIfindsorted (ar : List (List UInt8)) (search : List UInt8) : Option ℕ :=
  zarrFindsorted ffsIcmpz ar search

/-- `memcmp` of as many bytes as the first string has. -/
@[grind =] def ffsCmp : List UInt8 → List UInt8 → ℤ
  | a :: s, b :: z => if a = b then ffsCmp s z else if a < b then -1 else 1
  | _, _ => 0

/-- The comparison in `ffcharr_findsorted`. -/
def charrCmp (m : ℕ) (search cell : List UInt8) : ℤ :=
  let r := ffsCmp search cell
  if r = 0 ∧ search.length ≠ m ∧ cell.getD search.length 0 ≠ 0 then -1 else r

/-- `ffcharr_findsorted` -/
def ffcharrFindsorted (ar : List (List UInt8)) (m : ℕ) (search : List UInt8) : Option ℕ :=
  if search.length > m then none
  else bisect (fun i => charrCmp m search (ar.getD i [])) (ar.length + 1) 0 ar.length

/-- `codestr` -/
def codestr : List (List UInt8) :=
  [ascii "utf8", ascii "utf16le", ascii "utf16be", ascii "win1251", ascii "win1252"]

/-- `ffu_coding` -/
def ffuCoding (data : List UInt8) : Option ℕ := ffszarrIfindsorted codestr data

/-! ### The order of strings -/

/-- The bytes without regard to what `fold` takes as equal. -/
def key (fold : UInt8 → UInt8) (s : List UInt8) : List ℕ := s.map fun c => (fold c).toNat

theorem key_eq_iff {fold : UInt8 → UInt8} {s z : List UInt8} :
    key fold s = key fold z ↔ s.map fold = z.map fold := by
  have hkey : ∀ s : List UInt8, key fold s = (s.map fold).map UInt8.toNat := fun s => by
    rw [map_map]
    rfl
  rw [hkey, hkey]
  exact (map_injective_iff.mpr fun _ _ => UInt8.toNat_inj.mp).eq_iff

theorem cmpzAt_cons (fold : UInt8 → UInt8) (i : ℕ) (a b : UInt8) (s z : List UInt8) :
    cmpzAt fold i (a :: s) (b :: z) =
      if fold a = fold b then cmpzAt fold (i + 1) s z
      else if fold a < fold b then -(i : ℤ) - 1
      else i + 1 := by
  rw [cmpzAt]
  by_cases hab : a = b
  · rw [if_pos hab, if_pos (congrArg fold hab)]
  · rw [if_neg hab]

/-- **The comparison is the order of the keys.** -/
theorem cmpzAt_sign (fold : UInt8 → UInt8) (i : ℕ) (s z : List UInt8) :
    (cmpzAt fold i s z = 0 ↔ key fold s = key fold z) ∧
    (cmpzAt fold i s z < 0 ↔ key fold s < key fold z) := by
  induction s generalizing i z with
  | nil =>
    cases z with
    | nil => simp [cmpzAt, key]
    | cons b z =>
      simp only [cmpzAt, key, map_nil, map_cons]
      exact ⟨iff_of_false (by omega) (by simp), iff_of_true (by omega) (nil_lt_cons _ _)⟩
  | cons a s ih =>
    cases z with
    | nil =>
      simp only [cmpzAt, key, map_nil, map_cons]
      exact ⟨iff_of_false (by omega) (by simp), iff_of_false (by omega) (not_lt_nil _)⟩
    | cons b z =>
      obtain ⟨heq, hlt⟩ := ih (i + 1) z
      have hkey : ∀ (c : UInt8) s, key fold (c :: s) = (fold c).toNat :: key fold s :=
        fun _ _ => rfl
      rw [cmpzAt_cons, hkey, hkey, List.cons.injEq, cons_lt_cons_iff, UInt8.toNat_inj]
      by_cases hab : fold a = fold b
      · rw [if_pos hab, heq, hlt, hab]
        simp
      rw [if_neg hab]
      by_cases hless : fold a < fold b
      · rw [if_pos hless]
        exact ⟨iff_of_false (by omega) fun h => hab h.1, iff_of_true (by omega) (.inl hless)⟩
      · rw [if_neg hless]
        refine ⟨iff_of_false (by omega) fun h => hab h.1, iff_of_false (by omega) ?_⟩
        rintro (h | h)
        · exact hless h
        · exact hab h.1

/-- Only what `fold` leaves of the string counts. -/
theorem cmpzAt_congr {fold : UInt8 → UInt8} {s s' : List UInt8} (h : s.map fold = s'.map fold)
    (i : ℕ) (z : List UInt8) : cmpzAt fold i s z = cmpzAt fold i s' z := by
  induction s generalizing s' i z with
  | nil =>
    rw [map_nil] at h
    rw [map_eq_nil_iff.mp h.symm]
  | cons a s ih =>
    cases s' with
    | nil => cases h
    | cons a' s' =>
      rw [map_cons, map_cons, List.cons.injEq] at h
      cases z with
      | nil => rfl
      | cons b z => rw [cmpzAt_cons, cmpzAt_cons, h.1, ih h.2]

theorem cmpzAt_le (fold : UInt8 → UInt8) (i : ℕ) (s z : List UInt8) :
    (cmpzAt fold i s z).natAbs ≤ i + z.length + 1 := by
  induction s generalizing i z with
  | nil =>
    cases z with
    | nil => simp [cmpzAt]
    | cons b z =>
      rw [cmpzAt]
      omega
  | cons a s ih =>
    cases z with
    | nil =>
      rw [cmpzAt]
      omega
    | cons b z =>
      have hrest := ih (i + 1) z
      rw [cmpzAt_cons, length_cons]
      split
      · omega
      · split <;> omega

/-! ### The searches -/

/-- A search is right: what is found is the same, and nothing is found only if nothing is. -/
def FindsIn (res : Option ℕ) (ar : List (List UInt8)) (same : List UInt8 → Prop) : Prop :=
  (∀ i, res = some i → ∃ z, ar[i]? = some z ∧ same z) ∧ (res = none → ∀ z ∈ ar, ¬same z)

/-- An array of strings in order. -/
structure SortedStrings (fold : UInt8 → UInt8) where
  strs : List (List UInt8)
  sorted : strs.Pairwise fun s z => key fold s ≤ key fold z

/-- The part that the searches have in common: the comparison is with the keys `k` of the array. -/
theorem findsIn_bisect {ar : List (List UInt8)} {cmp : ℕ → ℤ} {k : List UInt8 → List ℕ}
    {same : List UInt8 → Prop} (x : List ℕ) (hsorted : ar.Pairwise fun s z => k s ≤ k z)
    (hsame : ∀ z ∈ ar, same z ↔ k z = x)
    (hzero : ∀ i (hi : i < ar.length), cmp i = 0 ↔ x = k ar[i])
    (hneg : ∀ i (hi : i < ar.length), cmp i < 0 ↔ x < k ar[i]) :
    FindsIn (bisect cmp (ar.length + 1) 0 ar.length) ar same := by
  have hget : ∀ i (hi : i < ar.length), ar.getD i [] = ar[i] := fun i hi => by
    rw [getD_eq_getElem?_getD, getElem?_eq_getElem hi, Option.getD_some]
  constructor
  · intro i hi
    obtain ⟨-, hlt, hcmp⟩ := bisect_some (Nat.zero_le _) hi
    exact ⟨ar[i], getElem?_eq_getElem hlt,
      (hsame _ (getElem_mem hlt)).mpr ((hzero i hlt).mp hcmp).symm⟩
  intro hnone z hz hzsame
  obtain ⟨i, hi, rfl⟩ := getElem_of_mem hz
  have hne := @bisect_none cmp (ar.length + 1) 0 ar.length i (List ℕ) _
    (fun i => k (ar.getD i [])) x (Nat.zero_le _) (by omega) ?_ ?_ ?_ hnone (Nat.zero_le _) hi
  · exact hne (by rw [hget i hi]; exact (hsame _ hz).mp hzsame)
  · intro a b _ hab hb
    rw [hget a (by omega), hget b hb]
    rcases Nat.lt_or_eq_of_le hab with hlt | rfl
    · exact pairwise_iff_getElem.mp hsorted a b _ hb hlt
    · exact le_refl _
  · intro a _ ha hr
    rw [hget a ha]
    exact (hneg a ha).mp hr
  intro a _ ha hr
  rw [hget a ha]
  rcases lt_trichotomy x (k ar[a]) with hlt | heq | hgt
  · exact absurd ((hneg a ha).mpr hlt) (by omega)
  · exact absurd ((hzero a ha).mpr heq) (by omega)
  · exact hgt

/-- **A string is found exactly if it is there**, where the places of the differences are ones of
an `int`. -/
theorem findsorted_iff {fold : UInt8 → UInt8} (ar : SortedStrings fold) {search : List UInt8}
    (hint : ∀ z ∈ ar.strs, (cmpzAt fold 0 search z).natAbs < 2 ^ 31) :
    FindsIn (zarrFindsorted (cmpzAt fold 0) ar.strs search) ar.strs
      fun z => search.map fold = z.map fold := by
  have hcmp : ∀ i (hi : i < ar.strs.length), int32 (uint (cmpzAt fold 0 search (ar.strs.getD i []))) =
      cmpzAt fold 0 search ar.strs[i] := fun i hi => by
    have hsmall := hint _ (getElem_mem hi)
    rw [getD_eq_getElem?_getD, getElem?_eq_getElem hi, Option.getD_some]
    exact int32_uint (by omega) (by omega)
  refine findsIn_bisect (key fold search) ar.sorted (fun z _ => ?_) (fun i hi => ?_)
    (fun i hi => ?_)
  · rw [← key_eq_iff, eq_comm]
  · rw [hcmp i hi]
    exact (cmpzAt_sign fold 0 search ar.strs[i]).1
  · rw [hcmp i hi]
    exact (cmpzAt_sign fold 0 search ar.strs[i]).2

theorem ffsIcmpz_tags (i : ℕ) (s z : List UInt8) :
    FF.ffsIcmpz s z =
      if cmpzAt lowerUp i s z = 0 then .eq else if cmpzAt lowerUp i s z < 0 then .lt else .gt := by
  induction s generalizing i z with
  | nil =>
    cases z with
    | nil => rfl
    | cons b z =>
      rw [cmpzAt, if_neg (by omega), if_pos (by omega)]
      rfl
  | cons a s ih =>
    cases z with
    | nil =>
      rw [cmpzAt, if_neg (by omega), if_neg (by omega)]
      rfl
    | cons b z =>
      rw [ffsIcmpz_cons, cmpzAt_cons]
      by_cases hab : lowerUp a = lowerUp b
      · rw [if_pos hab, if_pos hab]
        exact ih (i + 1) z
      · rw [if_neg hab, if_neg hab]
        by_cases hlt : lowerUp a < lowerUp b
        · rw [if_pos hlt, if_pos hlt, if_neg (by omega), if_pos (by omega)]
        · rw [if_neg hlt, if_neg hlt, if_neg (by omega), if_neg (by omega)]

/-- **The search in the tables of tags** is this one: their names are short. -/
theorem ffszarrIfindsorted_tags {ar : List (List UInt8)} (hshort : ∀ z ∈ ar, z.length < 2 ^ 31 - 1)
    (search : List UInt8) :
    FF.ffszarrIfindsorted ar ar.length search = ffszarrIfindsorted ar search := by
  have key : ∀ fuel start fin, ifindsortedLoop ar search fuel start fin =
      bisect (fun i => int32 (uint (ffsIcmpz search (ar.getD i [])))) fuel start fin := by
    intro fuel
    induction fuel with
    | zero =>
      intro start fin
      rfl
    | succ fuel ih =>
      intro start fin
      have hget : ar.getD (start + (fin - start) / 2) [] = [] ∨
          ar.getD (start + (fin - start) / 2) [] ∈ ar := by
        rw [getD_eq_getElem?_getD]
        cases hz : ar[start + (fin - start) / 2]? with
        | none => exact .inl rfl
        | some z => exact .inr (mem_of_getElem? hz)
      have hlen : (ar.getD (start + (fin - start) / 2) []).length < 2 ^ 31 - 1 := by
        rcases hget with h | h
        · rw [h]
          decide
        · exact hshort _ h
      have hbound := cmpzAt_le lowerUp 0 search (ar.getD (start + (fin - start) / 2) [])
      rw [ifindsortedLoop, bisect]
      dsimp only
      rw [ffsIcmpz_tags 0, ffsIcmpz, int32_uint (by omega) (by omega)]
      by_cases hend : start = fin
      · rw [if_pos hend, if_pos hend]
      rw [if_neg hend, if_neg hend]
      by_cases h0 : cmpzAt lowerUp 0 search (ar.getD (start + (fin - start) / 2) []) = 0
      · rw [if_pos h0, if_pos h0]
      rw [if_neg h0, if_neg h0]
      by_cases hlt : cmpzAt lowerUp 0 search (ar.getD (start + (fin - start) / 2) []) < 0
      · rw [if_pos hlt, if_pos hlt]
        exact ih _ _
      · rw [if_neg hlt, if_neg hlt]
        exact ih _ _
  exact key _ _ _

/-! ### Cells -/

/-- Zeros stand only behind a string. -/
def ZeroPadded (c : List UInt8) : Prop := ∃ t k, 0 ∉ t ∧ c = t ++ List.replicate k 0

/-- An array of cells of `m` bytes in order. -/
structure SortedCells (m : ℕ) where
  cells : List (List UInt8)
  length_eq : ∀ c ∈ cells, c.length = m
  padded : ∀ c ∈ cells, ZeroPadded c
  sorted : cells.Pairwise fun s z => key id s ≤ key id z

/-- A string in a cell of `m` bytes. -/
def cellOf (m : ℕ) (s : List UInt8) : List UInt8 := s ++ List.replicate (m - s.length) 0

theorem ZeroPadded.tail {b : UInt8} {c : List UInt8} (h : ZeroPadded (b :: c)) : ZeroPadded c := by
  obtain ⟨t, k, ht, hc⟩ := h
  cases t with
  | nil =>
    cases k with
    | zero => cases hc
    | succ k =>
      rw [nil_append, replicate_succ, List.cons.injEq] at hc
      exact ⟨[], k, not_mem_nil, hc.2⟩
  | cons a t =>
    rw [cons_append, List.cons.injEq] at hc
    exact ⟨t, k, fun h0 => ht (mem_cons_of_mem a h0), hc.2⟩

theorem ZeroPadded.zeros {c : List UInt8} (h : ZeroPadded (0 :: c)) :
    c = List.replicate c.length 0 := by
  obtain ⟨t, k, ht, hc⟩ := h
  cases t with
  | nil =>
    rw [nil_append] at hc
    refine eq_replicate_of_mem fun b hb => ?_
    exact eq_of_mem_replicate (hc ▸ mem_cons_of_mem 0 hb)
  | cons a t =>
    rw [cons_append, List.cons.injEq] at hc
    exact absurd (hc.1 ▸ mem_cons_self) ht

/-- **The comparison with a cell** is the order of the cells. -/
theorem charrCmp_sign {search c : List UInt8} (hc : ZeroPadded c) (hlen : search.length ≤ c.length) :
    (charrCmp c.length search c = 0 ↔ key id (cellOf c.length search) = key id c) ∧
    (charrCmp c.length search c < 0 ↔ key id (cellOf c.length search) < key id c) := by
  have hkey : ∀ (b : UInt8) s, key id (b :: s) = b.toNat :: key id s := fun _ _ => rfl
  induction search generalizing c with
  | nil =>
    cases c with
    | nil => exact ⟨by decide, by decide⟩
    | cons b c =>
      have hcell : cellOf (b :: c).length [] = 0 :: List.replicate c.length 0 := rfl
      rw [hcell, hkey, hkey]
      by_cases hb : b = 0
      · subst hb
        have h0 : charrCmp (0 :: c).length [] (0 :: c) = 0 := by simp [charrCmp, ffsCmp]
        rw [h0, ← hc.zeros]
        simp
      · have h1 : charrCmp (b :: c).length [] (b :: c) = -1 := by simp [charrCmp, ffsCmp, hb]
        have hpos : (0 : UInt8).toNat < b.toNat := UInt8.pos_iff_ne_zero.mpr hb
        rw [h1]
        exact ⟨iff_of_false (by omega) fun h => hpos.ne (List.cons.inj h).1,
          iff_of_true (by omega) (cons_lt_cons_iff.mpr (.inl hpos))⟩
  | cons a s ih =>
    cases c with
    | nil => exact absurd hlen (Nat.not_succ_le_zero _)
    | cons b c =>
      have hcell : cellOf (b :: c).length (a :: s) = a :: cellOf c.length s := by
        rw [cellOf, length_cons, length_cons, Nat.add_sub_add_right]
        rfl
      obtain ⟨heq, hlt⟩ := ih hc.tail (Nat.le_of_succ_le_succ hlen)
      rw [hcell, hkey, hkey, List.cons.injEq, cons_lt_cons_iff, UInt8.toNat_inj]
      by_cases hab : a = b
      · have hrec : charrCmp (b :: c).length (a :: s) (b :: c) = charrCmp c.length s c := by
          rw [charrCmp, charrCmp, ffsCmp, if_pos hab]
          simp
        rw [hrec, heq, hlt, hab]
        simp
      by_cases hless : a < b
      · have hr : charrCmp (b :: c).length (a :: s) (b :: c) = -1 := by
          rw [charrCmp, ffsCmp, if_neg hab, if_pos hless]
          rfl
        rw [hr]
        exact ⟨iff_of_false (by omega) fun h => hab h.1, iff_of_true (by omega) (.inl hless)⟩
      have hr : charrCmp (b :: c).length (a :: s) (b :: c) = 1 := by
        rw [charrCmp, ffsCmp, if_neg hab, if_neg hless]
        rfl
      rw [hr]
      refine ⟨iff_of_false (by omega) fun h => hab h.1, iff_of_false (by omega) ?_⟩
      rintro (h | h)
      · exact hless h
      · exact hab h.1

/-- **A string is found in the cells exactly if it is there.** -/
theorem ffcharrFindsorted_iff {m : ℕ} (ar : SortedCells m) (search : List UInt8) :
    FindsIn (ffcharrFindsorted ar.cells m search) ar.cells
      fun c => search.length ≤ m ∧ c = cellOf m search := by
  rw [ffcharrFindsorted]
  split
  · next hlong => exact ⟨fun i hi => (by cases hi), fun _ c _ h => absurd h.1 (by omega)⟩
  next hshort =>
    have hcmp : ∀ i (hi : i < ar.cells.length), charrCmp m search (ar.cells.getD i []) =
        charrCmp ar.cells[i].length search ar.cells[i] := fun i hi => by
      rw [getD_eq_getElem?_getD, getElem?_eq_getElem hi, Option.getD_some,
        ar.length_eq _ (getElem_mem hi)]
    have hsign := fun i (hi : i < ar.cells.length) =>
      @charrCmp_sign search ar.cells[i] (ar.padded _ (getElem_mem hi))
        (by rw [ar.length_eq _ (getElem_mem hi)]; omega)
    refine findsIn_bisect (key id (cellOf m search)) ar.sorted (fun c _ => ?_) (fun i hi => ?_)
      (fun i hi => ?_)
    · rw [key_eq_iff, map_id, map_id]
      exact and_iff_right (by omega)
    · rw [hcmp i hi, (hsign i hi).1, ar.length_eq _ (getElem_mem hi)]
    · rw [hcmp i hi, (hsign i hi).2, ar.length_eq _ (getElem_mem hi)]

/-! ### The names of codings -/

/-- The index of a coding is returned exactly for its name. -/
def CodingRight (name : List UInt8) : Prop :=
  ∀ i, ffuCoding name = some i ↔ ∃ z, codestr[i]? = some z ∧ ffstrIeq name z = true

theorem ffuCoding_congr {s s' : List UInt8} (h : s.map lowerUp = s'.map lowerUp) :
    ffuCoding s = ffuCoding s' := by
  have hcmp : ffsIcmpz s = ffsIcmpz s' := funext fun z => cmpzAt_congr h 0 z
  rw [ffuCoding, ffuCoding, ffszarrIfindsorted, ffszarrIfindsorted, zarrFindsorted, zarrFindsorted,
    hcmp]

/-- **The names of codings**: the array has `utf8` and `utf16le` in front of `utf16be`, and these
two are not found. Every string is found in an array in order, where the comparison is an `int`, and
every string in cells in order. -/
theorem ffuCoding_iff (name search : List UInt8) (ar : SortedStrings lowerUp) {m : ℕ}
    (cells : SortedCells m) :
    (CodingRight name ↔
      ¬(ffstrIeq name (ascii "utf8") = true ∨ ffstrIeq name (ascii "utf16le") = true)) ∧
    ((∀ z ∈ ar.strs, (ffsIcmpz search z).natAbs < 2 ^ 31) →
      FindsIn (ffszarrIfindsorted ar.strs search) ar.strs fun z => ffstrIeq search z = true) ∧
    FindsIn (ffcharrFindsorted cells.cells m search) cells.cells
      fun c => search.length ≤ m ∧ c = cellOf m search := by
  refine ⟨⟨fun h => ?_, fun h i => ?_⟩, fun hint => ?_, ffcharrFindsorted_iff cells search⟩
  · rintro (h8 | h16)
    · have hnone := (h 0).mpr ⟨_, rfl, h8⟩
      rw [ffuCoding_congr (eq_of_beq h8)] at hnone
      cases hnone
    · have hnone := (h 1).mpr ⟨_, rfl, h16⟩
      rw [ffuCoding_congr (eq_of_beq h16)] at hnone
      cases hnone
  · constructor
    · intro hi
      obtain ⟨-, hlt, hcmp⟩ := bisect_some (Nat.zero_le _) hi
      have hget : codestr.getD i [] = codestr[i] := by
        rw [getD_eq_getElem?_getD, getElem?_eq_getElem hlt, Option.getD_some]
      have hshort : codestr[i].length ≤ 7 :=
        of_decide_eq_true ((all_eq_true (p := fun z => decide (z.length ≤ 7))).mp rfl _
          (getElem_mem hlt))
      have hbound := cmpzAt_le lowerUp 0 name codestr[i]
      rw [hget, ffsIcmpz, int32_uint (by omega) (by omega), (cmpzAt_sign _ _ _ _).1, key_eq_iff]
        at hcmp
      exact ⟨_, getElem?_eq_getElem hlt, beq_iff_eq.mpr hcmp⟩
    rintro ⟨z, hz, heq⟩
    rw [ffuCoding_congr (eq_of_beq heq)]
    match i, hz with
    | 0, hz => exact absurd (.inl (Option.some.inj hz ▸ heq)) h
    | 1, hz => exact absurd (.inr (Option.some.inj hz ▸ heq)) h
    | 2, hz => obtain rfl := Option.some.inj hz; rfl
    | 3, hz => obtain rfl := Option.some.inj hz; rfl
    | 4, hz => obtain rfl := Option.some.inj hz; rfl
    | _ + 5, hz => cases hz
  · have hsame : ∀ z : List UInt8, ffstrIeq search z = true ↔ search.map lowerUp = z.map lowerUp :=
      fun z => beq_iff_eq
    simp only [hsame]
    exact findsorted_iff ar hint

/-- The names `utf8` and `utf16le` are not found. -/
theorem ffuCoding_utf8 :
    ffuCoding (ascii "utf8") = none ∧ ffuCoding (ascii "utf16le") = none ∧
      ¬∀ name, CodingRight name := by
  refine ⟨rfl, rfl, fun h => ?_⟩
  have hfound : ffuCoding (ascii "utf8") = some 0 := (h (ascii "utf8") 0).mpr ⟨_, rfl, rfl⟩
  cases hfound

end Sorted

end FF
