import FF.Number
import FF.Sort

/-!
# Sorted arrays of integers

`ffint_sort` sorts words of 32 bits, and `ffint_binfind4` searches in a sorted array of them. The
search takes the words for unsigned numbers, and the sort takes them for `int`.
-/

namespace FF

/-- `ffint_cmp` -/
def ffintCmp (a b : ℤ) : ℤ := if a = b then 0 else if a < b then -1 else 1

/-- `_ffint_sortfunc` -/
def ffintSortfunc (a b : UInt32) : ℤ := ffintCmp (int32 a.toNat) (int32 b.toNat)

/-- `ffint_sort` -/
def ffintSort (alloc : ℕ → Bool) (cacheline : ℕ) (tmp arr : ℕ → UInt32) (n : ℕ) : ℕ → UInt32 :=
  ffsort ⟨4, ffintSortfunc⟩ alloc cacheline tmp arr n

/-- The loop of `ffint_binfind4` from `start` to `n`; `none` is -1. There, `start` is never behind
`n`. -/
def ffintBinfind4 (arr : ℕ → UInt32) (search : UInt32) (start n : ℕ) : Option ℕ :=
  if _h : n ≤ start then none
  else
    let i := start + (n - start) / 2
    if search = arr i then some i
    else if search < arr i then ffintBinfind4 arr search start i
    else ffintBinfind4 arr search (i + 1) n
  termination_by n - start

/-- The bisection of the elements from `start` to `n` leads to `i`: on the way, each middle element is
less than the one at `i` when it is in front of it, and greater when it is behind. -/
inductive Bisects (arr : ℕ → UInt32) : ℕ → ℕ → ℕ → Prop
  | mid {start n : ℕ} (h : start < n) : Bisects arr start n (start + (n - start) / 2)
  | left {start n i : ℕ} (h : Bisects arr start (start + (n - start) / 2) i)
      (hlt : arr i < arr (start + (n - start) / 2)) : Bisects arr start n i
  | right {start n i : ℕ} (h : Bisects arr (start + (n - start) / 2 + 1) n i)
      (hlt : arr (start + (n - start) / 2) < arr i) : Bisects arr start n i

/-! ### The search -/

section Search

variable {arr : ℕ → UInt32} {search : UInt32} {start n i : ℕ}

/-- **What is found** is in the range, and is the word. -/
theorem ffintBinfind4_mem (h : ffintBinfind4 arr search start n = some i) :
    start ≤ i ∧ i < n ∧ arr i = search := by
  induction hs : n - start using Nat.strong_induction_on generalizing start n with
  | _ s ih =>
    rw [ffintBinfind4] at h
    by_cases hend : n ≤ start
    · rw [dif_pos hend] at h
      cases h
    rw [dif_neg hend] at h
    dsimp only at h
    split at h
    next heq =>
      obtain rfl := Option.some.inj h
      exact ⟨by omega, by omega, heq.symm⟩
    next =>
      split at h
      · obtain ⟨hlow, hhigh, heq⟩ := ih _ (by omega) h rfl
        exact ⟨hlow, by omega, heq⟩
      · obtain ⟨hlow, hhigh, heq⟩ := ih _ (by omega) h rfl
        exact ⟨by omega, hhigh, heq⟩

/-- **In a range that is sorted**, a word that occurs is found. -/
theorem ffintBinfind4_sorted (hsorted : ∀ i j, start ≤ i → i < j → j < n → arr i ≤ arr j)
    (hlow : start ≤ i) (hhigh : i < n) : ∃ k, ffintBinfind4 arr (arr i) start n = some k := by
  induction hs : n - start using Nat.strong_induction_on generalizing start n with
  | _ s ih =>
    rw [ffintBinfind4, dif_neg (by omega)]
    obtain ⟨m, hm⟩ : ∃ m, m = start + (n - start) / 2 := ⟨_, rfl⟩
    rw [← hm]
    by_cases heq : arr i = arr m
    · exact ⟨m, if_pos heq⟩
    rw [if_neg heq]
    by_cases hlt : arr i < arr m
    · have him : i < m := by
        rcases Nat.lt_trichotomy i m with him | rfl | him
        · exact him
        · exact absurd rfl heq
        · exact absurd (hsorted m i (by omega) him hhigh) (UInt32.not_le.mpr hlt)
      rw [if_pos hlt]
      exact ih _ (by omega) (fun i j hi hij hj => hsorted i j hi hij (by omega)) hlow him rfl
    have hmi : m < i := by
      rcases Nat.lt_trichotomy i m with him | rfl | him
      · exact absurd (UInt32.lt_of_le_of_ne (hsorted i m hlow him (by omega)) heq) hlt
      · exact absurd rfl heq
      · exact him
    rw [if_neg hlt]
    exact ih _ (by omega) (fun i j hi hij hj => hsorted i j (by omega) hij hj) hmi hhigh rfl

theorem Bisects.lt (h : Bisects arr start n i) : start ≤ i ∧ i < n := by
  induction h with
  | mid h => omega
  | left _ _ ih => omega
  | right _ _ ih => omega

/-- **In any range**, a word is found when it is at a place that the bisection leads to. -/
theorem ffintBinfind4_bisects (h : Bisects arr start n i) :
    ffintBinfind4 arr (arr i) start n = some i := by
  induction h with
  | mid h => rw [ffintBinfind4, dif_neg (by omega), if_pos rfl]
  | left h hlt ih =>
    have := h.lt
    rw [ffintBinfind4, dif_neg (by omega)]
    rw [if_neg (fun h => UInt32.lt_irrefl _ (h ▸ hlt)), if_pos hlt, ih]
  | right h hlt ih =>
    have := h.lt
    rw [ffintBinfind4, dif_neg (by omega)]
    rw [if_neg (fun h => UInt32.lt_irrefl _ (h ▸ hlt)), if_neg (UInt32.lt_asymm hlt), ih]

theorem bisects_of_ffintBinfind4 (h : ffintBinfind4 arr search start n = some i) :
    Bisects arr start n i := by
  induction hs : n - start using Nat.strong_induction_on generalizing start n with
  | _ s ih =>
    have hfound := (ffintBinfind4_mem h).2.2
    rw [ffintBinfind4] at h
    by_cases hend : n ≤ start
    · rw [dif_pos hend] at h
      cases h
    rw [dif_neg hend] at h
    dsimp only at h
    split at h
    next =>
      obtain rfl := Option.some.inj h
      exact .mid (by omega)
    next hne =>
      split at h
      next hlt => exact .left (ih _ (by omega) h rfl) (hfound ▸ hlt)
      next hlt =>
        refine .right (ih _ (by omega) h rfl) (hfound ▸ ?_)
        exact UInt32.lt_of_le_of_ne (UInt32.not_lt.mp hlt) (Ne.symm hne)

end Search

/-! ### The sort -/

section Words

variable {s : ℕ → UInt32} {n : ℕ}

theorem ffintSortfunc_le (a b : UInt32) :
    (⟨4, ffintSortfunc⟩ : Sortdata UInt32).le a b = true ↔ int32 a.toNat ≤ int32 b.toNat := by
  rw [Sortdata.le, decide_eq_true_iff]
  simp only [ffintSortfunc, ffintCmp]
  split
  · omega
  · split <;> omega

theorem mem_slice {v : UInt32} : v ∈ slice s 0 n ↔ ∃ i, i < n ∧ s i = v := by
  simp [slice]

/-- **The words from 2^31 on come first**, for they are below 0 as `int`. -/
theorem ffintSort_spec {alloc : ℕ → Bool} (cacheline : ℕ) (tmp arr : ℕ → UInt32)
    (halloc : n * 4 ≤ MAXSTACKTMP ∨ alloc (n * 4) = true)
    (hs : s = ffintSort alloc cacheline tmp arr n) :
    (slice s 0 n).Perm (slice arr 0 n) ∧
      ∀ i j, i < j → j < n → int32 (s i).toNat ≤ int32 (s j).toNat := by
  have hle : TotalPreorder (⟨4, ffintSortfunc⟩ : Sortdata UInt32).le :=
    .of_key (fun a => int32 a.toNat) ffintSortfunc_le
  have hsorted := ffsort_wide hle (.inl rfl) cacheline tmp arr n halloc
  rw [← ffintSort, ← hs] at hsorted
  refine ⟨hsorted.perm hle, fun i j hij hj => ?_⟩
  have hlt := List.pairwise_iff_getElem.mp hsorted.sorted i j (by simp; omega) (by simpa) hij
  rw [ffintSortfunc_le] at hlt
  simpa [slice] using hlt

theorem ffintSort_found {alloc : ℕ → Bool} (cacheline : ℕ) (tmp arr : ℕ → UInt32)
    (halloc : n * 4 ≤ MAXSTACKTMP ∨ alloc (n * 4) = true)
    (hs : s = ffintSort alloc cacheline tmp arr n) :
    (∀ v ∈ slice s 0 n, ∃ i, ffintBinfind4 s v 0 n = some i) ↔
      (∀ v ∈ slice arr 0 n, v.toNat < 2 ^ 31) ∨ (∀ v ∈ slice arr 0 n, 2 ^ 31 ≤ v.toNat) := by
  obtain ⟨hperm, hsorted⟩ := ffintSort_spec cacheline tmp arr halloc hs
  simp only [← hperm.mem_iff, mem_slice]
  constructor
  · intro hfind
    by_contra hmixed
    rw [not_or] at hmixed
    push Not at hmixed
    obtain ⟨⟨_, ⟨j, hj, rfl⟩, hhigh⟩, ⟨_, ⟨i, hi, rfl⟩, hlow⟩⟩ := hmixed
    have hfirst : ∀ i j, i ≤ j → j < n → 2 ^ 31 ≤ (s j).toNat → 2 ^ 31 ≤ (s i).toNat := by
      intro i j hij hj hhigh
      rcases Nat.eq_or_lt_of_le hij with rfl | hij
      · exact hhigh
      · have hle := hsorted i j hij hj
        have hbound := (s j).toNat_lt
        rw [int32, int32, if_neg (by omega : ¬(s j).toNat < 2 ^ 31)] at hle
        split at hle <;> omega
    have hfound : ∀ i, i < n → ∃ k, ffintBinfind4 s (s i) 0 n = some k := fun i hi =>
      hfind (s i) ⟨i, hi, rfl⟩
    simp only [ffintBinfind4.eq_1 s _ 0 n] at hfound
    obtain ⟨m, hm⟩ : ∃ m, m = 0 + (n - 0) / 2 := ⟨_, rfl⟩
    simp only [dif_neg (by omega : ¬n ≤ 0), ← hm] at hfound
    by_cases hmid : 2 ^ 31 ≤ (s m).toNat
    · -- the last word is a low one, and is searched for on the left, where all are high
      have hlast : (s (n - 1)).toNat < 2 ^ 31 :=
        Nat.lt_of_not_le fun h => by have := hfirst i (n - 1) (by omega) (by omega) h; omega
      obtain ⟨k, hk⟩ := hfound (n - 1) (by omega)
      rw [if_neg (fun h => by rw [h] at hlast; omega),
        if_pos (by rw [UInt32.lt_iff_toNat_lt]; omega)] at hk
      obtain ⟨-, hkm, heq⟩ := ffintBinfind4_mem hk
      have := hfirst k m (by omega) (by omega) hmid
      rw [heq] at this
      omega
    -- the first word is a high one, and is searched for on the right, where all are low
    have hzero := hfirst 0 j (Nat.zero_le j) hj hhigh
    obtain ⟨k, hk⟩ := hfound 0 (by omega)
    rw [if_neg (fun h => by rw [h] at hzero; omega),
      if_neg (by rw [UInt32.lt_iff_toNat_lt]; omega)] at hk
    obtain ⟨hkm, hkn, heq⟩ := ffintBinfind4_mem hk
    rw [← heq] at hzero
    exact hmid (hfirst m k (by omega) hkn hzero)
  · rintro hone v ⟨i, hi, rfl⟩
    have hord : ∀ i j, 0 ≤ i → i < j → j < n → s i ≤ s j := by
      intro i j _ hij hj
      have hlt := hsorted i j hij hj
      rw [UInt32.le_iff_toNat_le]
      rcases hone with hone | hone
      · have := hone _ ⟨i, by omega, rfl⟩
        have := hone _ ⟨j, hj, rfl⟩
        rw [int32, int32, if_pos (by assumption), if_pos (by assumption)] at hlt
        omega
      · have := hone _ ⟨i, by omega, rfl⟩
        have := hone _ ⟨j, hj, rfl⟩
        rw [int32, int32, if_neg (by omega), if_neg (by omega)] at hlt
        omega
    exact ffintBinfind4_sorted hord (Nat.zero_le i) hi

/-- **When every word is found after the sort**: when the words are below 2^31, or none of them is;
without the memory for the sort, when the bisection of the array leads to each of its words. -/
theorem ffintSort_iff (alloc : ℕ → Bool) (cacheline : ℕ) (tmp arr : ℕ → UInt32) (n : ℕ) :
    (∀ v, (∃ i, ffintBinfind4 (ffintSort alloc cacheline tmp arr n) v 0 n = some i ∧ i < n ∧
        ffintSort alloc cacheline tmp arr n i = v) ↔ v ∈ slice arr 0 n) ↔
      if n * 4 ≤ MAXSTACKTMP ∨ alloc (n * 4) = true then
        (∀ v ∈ slice arr 0 n, v.toNat < 2 ^ 31) ∨ (∀ v ∈ slice arr 0 n, 2 ^ 31 ≤ v.toNat)
      else ∀ v ∈ slice arr 0 n, ∃ i, Bisects arr 0 n i ∧ arr i = v := by
  obtain ⟨s, hs⟩ : ∃ s, s = ffintSort alloc cacheline tmp arr n := ⟨_, rfl⟩
  -- what is found is in the array, with and without the sort
  have hfind : (slice s 0 n).Perm (slice arr 0 n) →
      ((∀ v, (∃ i, ffintBinfind4 s v 0 n = some i ∧ i < n ∧ s i = v) ↔ v ∈ slice arr 0 n) ↔
        ∀ v ∈ slice s 0 n, ∃ i, ffintBinfind4 s v 0 n = some i) := by
    intro hperm
    simp only [← hperm.mem_iff]
    refine forall_congr' fun v => ⟨fun h hv => (h.mpr hv).imp fun _ hi => hi.1, fun h => ⟨?_, ?_⟩⟩
    · rintro ⟨i, -, hi⟩
      exact mem_slice.mpr ⟨i, hi⟩
    · intro hv
      obtain ⟨i, hi⟩ := h hv
      exact ⟨i, hi, (ffintBinfind4_mem hi).2⟩
  rw [← hs]
  split
  next halloc =>
    rw [hfind (ffintSort_spec cacheline tmp arr halloc hs).1,
      ffintSort_found cacheline tmp arr halloc hs]
  next halloc =>
    obtain rfl : s = arr := by rw [hs, ffintSort, ffsort, if_neg halloc]
    rw [hfind (List.Perm.refl _)]
    refine forall₂_congr fun v _ => exists_congr fun i => ⟨fun h => ?_, ?_⟩
    · exact ⟨bisects_of_ffintBinfind4 h, (ffintBinfind4_mem h).2.2⟩
    · rintro ⟨h, rfl⟩
      exact ffintBinfind4_bisects h

/-- Of the words 1 and 2^31, the second one is put in front, and the search does not find it. -/
theorem ffintSort_misses :
    ¬∀ (alloc : ℕ → Bool) (tmp arr : ℕ → UInt32) (n : ℕ),
      (n * 4 ≤ MAXSTACKTMP ∨ alloc (n * 4) = true) →
        ∀ v ∈ slice arr 0 n, ∃ i, ffintBinfind4 (ffintSort alloc 64 tmp arr n) v 0 n = some i := by
  intro h
  obtain ⟨i, hi⟩ := h (fun _ => false) (fun _ => 0) (fun i => if i = 0 then 1 else 2 ^ 31) 2
    (.inl (by decide)) (2 ^ 31) (by decide)
  rw [ffintSort, ffsort, if_pos (.inl (by decide)), mergeSort, dif_neg (by decide),
    if_pos (by decide)] at hi
  rw [ffintBinfind4, dif_neg (by decide)] at hi
  rw [if_neg (by decide), if_neg (by decide), ffintBinfind4, dif_pos (by decide)] at hi
  cases hi

end Words

end FF
