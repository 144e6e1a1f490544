import FF.Lib.StableSort
import Mathlib.Algebra.Order.Group.Nat
import Mathlib.Data.Fin.VecNotation

/-!
# Sorting

`ffsort` is a merge sort with an insertion sort for the short parts. All of the parts use one
buffer: the insertion sort keeps one element there, and the merge puts the elements there that it
takes, and copies them back; what is left of the right half is in its place already.

## Conventions

* The memory is read by indices of elements. The elements of the array are there, so a product of a
  number of elements and their size is the size of some memory.
* The size of a cache line is a parameter.
-/

namespace FF

open List

/-- The array, and the buffer `tmp`. -/
structure SortMem (α : Type*) where
  data : ℕ → α
  tmp : ℕ → α

/-- The memory with another element at `i`. -/
def memSet {α : Type*} (d : ℕ → α) (i : ℕ) (x : α) : ℕ → α := fun k => if k = i then x else d k

/-- `ffmemcpy`: `cnt` elements of `src` from `pos` are copied to `dst`. -/
def memCopy {α : Type*} (d : ℕ → α) (dst : ℕ) (src : ℕ → α) (pos cnt : ℕ) : ℕ → α :=
  fun k => if dst ≤ k ∧ k < dst + cnt then src (pos + (k - dst)) else d k

/-- `struct sortdata` without the buffer. -/
structure Sortdata (α : Type*) where
  sz : ℕ
  cmp : α → α → ℤ

/-- The order that is looked at: `cmp(a, b) <= 0`. -/
def Sortdata.le {α : Type*} (sd : Sortdata α) (a b : α) : Bool := sd.cmp a b ≤ 0

section Code

variable {α : Type*} (sd : Sortdata α)

/-- The loop over `j`: the elements in front of `j` that are greater than `t` are moved. -/
def insertShift (b : ℕ) (t : α) (d : ℕ → α) : ℕ → (ℕ → α) × ℕ
  | 0 => (d, 0)
  | j + 1 =>
    if sd.cmp (d (b + j)) t ≤ 0 then (d, j + 1)
    else insertShift b t (memSet d (b + (j + 1)) (d (b + j))) j

/-- One round of the loop over `i`. Elements of 4 and of 8 bytes are taken from their places; of
other elements, the first one of the array is taken. -/
def insertOne (b : ℕ) (m : SortMem α) (i : ℕ) : SortMem α :=
  let t := if sd.sz = 4 ∨ sd.sz = 8 then m.data (b + i) else m.data b
  let (d, j) := insertShift sd b t m.data i
  ⟨memSet d (b + j) t, memSet m.tmp 0 t⟩

/-- `insertion_sort` of the `n` elements from `b` -/
def insertionSort (m : SortMem α) (b n : ℕ) : SortMem α :=
  (List.range n).foldl (insertOne sd b) m

/-- The loop of `merge_sort`: the buffer, the left half with its length, the length of the right
half, and the end of what is in the buffer. -/
def mergeLoop (d t : ℕ → α) (l nL r nR k : ℕ) : (ℕ → α) × ℕ × ℕ × ℕ × ℕ :=
  match nL, nR with
  | 0, nR => (t, l, 0, nR, k)
  | nL + 1, 0 => (t, l, nL + 1, 0, k)
  | nL + 1, nR + 1 =>
    if sd.cmp (d l) (d r) ≤ 0 then mergeLoop d (memSet t k (d l)) (l + 1) nL r (nR + 1) (k + 1)
    else mergeLoop d (memSet t k (d r)) l (nL + 1) (r + 1) nR (k + 1)
  termination_by nL + nR

/-- `merge_sort` of the `n` elements from `b` -/
def mergeSort (cacheline : ℕ) (m : SortMem α) (b n : ℕ) : SortMem α :=
  if _h : n ≤ 1 then m
  else if n * sd.sz ≤ cacheline then insertionSort sd m b n
  else
    let m := mergeSort cacheline m b (n / 2)
    let m := mergeSort cacheline m (b + n / 2) (n - n / 2)
    let (t, l, nL, nR, k) := mergeLoop sd m.data m.tmp b (n / 2) (b + n / 2) (n - n / 2) 0
    let t := if nL ≠ 0 then memCopy t k m.data l nL else t
    ⟨memCopy m.data b t 0 (n - nR), t⟩
  termination_by n

/-- `MAXSTACKTMP` -/
def MAXSTACKTMP : ℕ := 4096

/-- `ffsort`: the array is left as it is when there is no memory. What is in the buffer is not
known. -/
def ffsort (alloc : ℕ → Bool) (cacheline : ℕ) (tmp : ℕ → α) (data : ℕ → α) (n : ℕ) : ℕ → α :=
  if n * sd.sz ≤ MAXSTACKTMP ∨ alloc (n * sd.sz) then
    (mergeSort sd cacheline ⟨data, tmp⟩ 0 n).data
  else data

end Code

/-- The elements of the array from `b`. -/
def slice {α : Type*} (d : ℕ → α) (b n : ℕ) : List α := (List.range' b n).map d

/-- What the merge sort sorts: where the size of the elements is not 4 or 8, each part that is given
to the insertion sort is taken for copies of its first element. -/
def sortParts {α : Type*} (sz cacheline : ℕ) (xs : List α) : List α :=
  if _h : xs.length ≤ 1 then xs
  else if xs.length * sz ≤ cacheline then
    if sz = 4 ∨ sz = 8 then xs else (xs.take 1).flatMap (List.replicate xs.length)
  else
    sortParts sz cacheline (xs.take (xs.length / 2)) ++
      sortParts sz cacheline (xs.drop (xs.length / 2))
  termination_by xs.length

/-! ### Parts of the memory -/

section Slice

variable {α : Type*} {d d' : ℕ → α} {b n : ℕ}

@[simp] theorem length_slice (d : ℕ → α) (b n : ℕ) : (slice d b n).length = n := by
  rw [slice, length_map, length_range']

theorem slice_zero (d : ℕ → α) (b : ℕ) : slice d b 0 = [] := rfl

theorem slice_cons (d : ℕ → α) (b n : ℕ) : slice d b (n + 1) = d b :: slice d (b + 1) n := by
  rw [slice, range'_succ, map_cons]
  rfl

theorem slice_append (d : ℕ → α) (b m n : ℕ) :
    slice d b (m + n) = slice d b m ++ slice d (b + m) n := by
  rw [slice, slice, slice, ← map_append, range'_append_1]

theorem slice_succ (d : ℕ → α) (b n : ℕ) : slice d b (n + 1) = slice d b n ++ [d (b + n)] :=
  slice_append d b n 1

theorem slice_congr (h : ∀ k, b ≤ k → k < b + n → d k = d' k) : slice d b n = slice d' b n := by
  refine map_congr_left fun k hk => ?_
  rw [mem_range'_1] at hk
  exact h k hk.1 hk.2

theorem memSet_same (d : ℕ → α) (i : ℕ) (x : α) : memSet d i x i = x := if_pos rfl

theorem memSet_other {i k : ℕ} (h : k ≠ i) (d : ℕ → α) (x : α) : memSet d i x k = d k := if_neg h

theorem slice_memCopy (d : ℕ → α) (dst : ℕ) (src : ℕ → α) (pos cnt : ℕ) :
    slice (memCopy d dst src pos cnt) dst cnt = slice src pos cnt := by
  refine ext_getElem (by simp) fun i hi _ => ?_
  rw [length_slice] at hi
  simp only [slice, getElem_map, getElem_range', memCopy, Nat.one_mul]
  rw [if_pos (by omega), Nat.add_sub_cancel_left]

theorem memCopy_other {d : ℕ → α} {dst : ℕ} {src : ℕ → α} {pos cnt k : ℕ}
    (h : k < dst ∨ dst + cnt ≤ k) : memCopy d dst src pos cnt k = d k := if_neg (by omega)

end Slice

/-! ### The insertion sort -/

section Insertion

variable {α : Type*} {sd : Sortdata α} {t : α} {d d' : ℕ → α} {b i j j' n : ℕ}

/-- **The loop over `j`** finds the place for `t`, behind the last element that is not greater, and
moves what follows. -/
theorem insertShift_spec (h : insertShift sd b t d j = (d', j')) :
    j' ≤ j ∧ slice (memSet d' (b + j') t) b (j + 1) =
        slice d b j' ++ t :: slice d (b + j') (j - j') ∧
      (∀ c ∈ slice d (b + j') (j - j'), ¬sd.le c t = true) ∧
      (∀ a ∈ (slice d b j').getLast?, sd.le a t = true) ∧
      ∀ k, k < b ∨ b + j < k → d' k = d k := by
  induction j generalizing d with
  | zero =>
    obtain ⟨rfl, rfl⟩ := Prod.mk.inj h
    refine ⟨le_refl _, ?_, fun c hc => ?_, fun a ha => ?_, fun _ _ => rfl⟩
    · rw [slice_succ, slice_zero, Nat.add_zero, memSet_same]
      rfl
    · simp [slice] at hc
    · simp [slice] at ha
  | succ j ih =>
    rw [insertShift] at h
    by_cases hle : sd.cmp (d (b + j)) t ≤ 0
    · rw [if_pos hle] at h
      obtain ⟨rfl, rfl⟩ := Prod.mk.inj h
      refine ⟨le_refl _, ?_, fun c hc => ?_, fun a ha => ?_, fun _ _ => rfl⟩
      · rw [slice_succ, memSet_same, Nat.sub_self, slice_zero]
        congr 1
        exact slice_congr fun k _ hk => memSet_other (by omega) _ _
      · rw [Nat.sub_self] at hc
        cases hc
      · rw [slice_succ, getLast?_append, getLast?_singleton, Option.some_or,
          Option.mem_some_iff] at ha
        rw [← ha]
        exact decide_eq_true hle
    -- the element at `j` goes one place up
    rw [if_neg hle] at h
    obtain ⟨hj, hslice, habove, hlast, hframe⟩ := ih h
    have hd : ∀ k, k < b + (j + 1) → memSet d (b + (j + 1)) (d (b + j)) k = d k :=
      fun k hk => memSet_other (by omega) _ _
    have hlow : slice (memSet d (b + (j + 1)) (d (b + j))) b j' = slice d b j' :=
      slice_congr fun k _ hk => hd k (by omega)
    have hhigh : slice (memSet d (b + (j + 1)) (d (b + j))) (b + j') (j - j') =
        slice d (b + j') (j - j') :=
      slice_congr fun k _ hk => hd k (by omega)
    rw [hlow, hhigh] at hslice
    rw [hhigh] at habove
    rw [hlow] at hlast
    have htail : slice d (b + j') (j + 1 - j') = slice d (b + j') (j - j') ++ [d (b + j)] := by
      rw [show j + 1 - j' = j - j' + 1 by omega, slice_succ,
        show b + j' + (j - j') = b + j by omega]
    refine ⟨by omega, ?_, fun c hc => ?_, hlast, fun k hk => ?_⟩
    · rw [slice_succ, hslice, htail, memSet_other (by omega), hframe _ (.inr (by omega)),
        memSet_same, append_assoc, cons_append]
    · rw [htail, mem_append, mem_singleton] at hc
      rcases hc with hc | rfl
      · exact habove c hc
      · exact fun hc => hle (of_decide_eq_true hc)
    · rw [hframe k (by omega)]
      exact memSet_other (by omega) _ _

theorem insertionSort_succ (m : SortMem α) (b n : ℕ) :
    insertionSort sd m b (n + 1) = insertOne sd b (insertionSort sd m b n) n := by
  rw [insertionSort, range_succ, foldl_append]
  rfl

/-- **Elements of 4 or 8 bytes are sorted.** -/
theorem insertionSort_wide (hle : TotalPreorder sd.le) (hsz : sd.sz = 4 ∨ sd.sz = 8)
    (m : SortMem α) (b n : ℕ) :
    StableSorted sd.le (slice m.data b n) (slice (insertionSort sd m b n).data b n) ∧
      ∀ k, k < b ∨ b + n ≤ k → (insertionSort sd m b n).data k = m.data k := by
  induction n with
  | zero => exact ⟨.of_length_le_one (by simp), fun _ _ => rfl⟩
  | succ n ih =>
    obtain ⟨hsorted, hframe⟩ := ih
    obtain ⟨m', hm'⟩ : ∃ m', m' = insertionSort sd m b n := ⟨_, rfl⟩
    rw [← hm'] at hsorted hframe
    rw [insertionSort_succ, ← hm', insertOne, if_pos hsz, hframe _ (.inr (le_refl _))]
    obtain ⟨⟨d', j'⟩, hshift⟩ : ∃ r, r = insertShift sd b (m.data (b + n)) m'.data n := ⟨_, rfl⟩
    obtain ⟨hj, hslice, habove, hlast, hother⟩ := insertShift_spec hshift.symm
    rw [← hshift]
    dsimp only
    refine ⟨?_, fun k hk => ?_⟩
    · rw [slice_succ m.data, hslice]
      refine StableSorted.insert hle ?_ hlast habove
      rwa [← slice_append, Nat.add_sub_cancel' hj]
    · rw [memSet_other (by omega), hother k (by omega), hframe k (by omega)]

/-- **Of other elements, the first one is copied to all places.** -/
theorem insertionSort_other (hle : TotalPreorder sd.le) (hsz : ¬(sd.sz = 4 ∨ sd.sz = 8))
    (m : SortMem α) (b n : ℕ) :
    slice (insertionSort sd m b n).data b n = List.replicate n (m.data b) ∧
      ∀ k, k < b ∨ b + n ≤ k → (insertionSort sd m b n).data k = m.data k := by
  induction n with
  | zero => exact ⟨rfl, fun _ _ => rfl⟩
  | succ n ih =>
    obtain ⟨hcopies, hframe⟩ := ih
    obtain ⟨m', hm'⟩ : ∃ m', m' = insertionSort sd m b n := ⟨_, rfl⟩
    rw [← hm'] at hcopies hframe
    have hfirst : m'.data b = m.data b := by
      cases n with
      | zero => exact hframe b (.inr (le_refl _))
      | succ n =>
        rw [slice_cons, replicate_succ] at hcopies
        exact (List.cons.inj hcopies).1
    -- nothing is greater than the copy
    have hshift : insertShift sd b (m.data b) m'.data n = (m'.data, n) := by
      cases n with
      | zero => rfl
      | succ n =>
        rw [slice_succ, replicate_succ'] at hcopies
        have hlast := (append_inj' hcopies rfl).2
        rw [insertShift, singleton_inj.mp hlast]
        exact if_pos (of_decide_eq_true (hle.refl _))
    rw [insertionSort_succ, ← hm', insertOne, if_neg hsz, hfirst, hshift]
    dsimp only
    refine ⟨?_, fun k hk => ?_⟩
    · rw [slice_succ, memSet_same, replicate_succ', ← hcopies]
      congr 1
      exact slice_congr fun k _ hk => memSet_other (by omega) _ _
    · rw [memSet_other (by omega), hframe k (by omega)]

end Insertion

/-! ### The merge -/

section Merge

variable {α : Type*} {sd : Sortdata α} {d t t' : ℕ → α} {l l' nL nL' r nR nR' k k' b n : ℕ}

/-- **The loop of `merge_sort`**: what is in the buffer, the rest of the left half and the rest of
the right half are the merge of the two halves. -/
theorem mergeLoop_spec (h : mergeLoop sd d t l nL r nR k = (t', l', nL', nR', k')) :
    slice t' k (k' - k) ++ slice d l' nL' ++ slice d (r + (nR - nR')) nR' =
        (slice d l nL).merge (slice d r nR) sd.le ∧
      (nL' = 0 ∨ nR' = 0) ∧ k' + nL' + nR' = k + nL + nR ∧ l' + nL' = l + nL ∧ nR' ≤ nR ∧
      k ≤ k' ∧ ∀ i, i < k → t' i = t i := by
  induction hm : nL + nR generalizing t l nL r nR k with
  | zero =>
    obtain ⟨rfl, rfl⟩ : nL = 0 ∧ nR = 0 := by omega
    rw [mergeLoop] at h
    obtain ⟨rfl, rfl, rfl, rfl, rfl⟩ : t = t' ∧ l = l' ∧ 0 = nL' ∧ 0 = nR' ∧ k = k' := by
      simpa using h
    exact ⟨by simp [slice], .inl rfl, rfl, rfl, le_refl _, le_refl _, fun _ _ => rfl⟩
  | succ s ih =>
    match nL, nR with
    | 0, nR =>
      rw [mergeLoop] at h
      obtain ⟨rfl, rfl, rfl, rfl, rfl⟩ : t = t' ∧ l = l' ∧ 0 = nL' ∧ nR = nR' ∧ k = k' := by
        simpa using h
      refine ⟨?_, .inl rfl, rfl, rfl, le_refl _, le_refl _, fun _ _ => rfl⟩
      rw [Nat.sub_self, Nat.sub_self, slice_zero, slice_zero, nil_merge]
      rfl
    | nL + 1, 0 =>
      rw [mergeLoop] at h
      obtain ⟨rfl, rfl, rfl, rfl, rfl⟩ :
          t = t' ∧ l = l' ∧ nL + 1 = nL' ∧ 0 = nR' ∧ k = k' := by
        simpa using h
      refine ⟨?_, .inr rfl, rfl, rfl, le_refl _, le_refl _, fun _ _ => rfl⟩
      rw [Nat.sub_self, slice_zero, slice_zero, slice_zero, merge_right, nil_append, append_nil]
    | nL + 1, nR + 1 =>
      rw [mergeLoop] at h
      -- the element that is taken is in the buffer, and stays there
      have hkept : ∀ {x : α}, (∀ i, i < k + 1 → t' i = memSet t k x i) → k + 1 ≤ k' →
          slice t' k (k' - k) = x :: slice t' (k + 1) (k' - (k + 1)) := by
        intro x hx hk
        rw [show k' - k = k' - (k + 1) + 1 by omega, slice_cons, hx k (Nat.lt_succ_self k),
          memSet_same]
      by_cases hle : sd.cmp (d l) (d r) ≤ 0
      · rw [if_pos hle] at h
        obtain ⟨hmerge, hone, hsum, hleft, hright, hk, ht⟩ := ih h (by omega)
        refine ⟨?_, hone, by omega, by omega, hright, by omega, fun i hi => ?_⟩
        · rw [hkept ht hk, slice_cons d l, slice_cons d r,
            cons_merge_cons_pos _ _ _ (decide_eq_true hle), ← slice_cons, ← hmerge]
          rfl
        · rw [ht i (by omega)]
          exact memSet_other (by omega) _ _
      rw [if_neg hle] at h
      obtain ⟨hmerge, hone, hsum, hleft, hright, hk, ht⟩ := ih h (by omega)
      refine ⟨?_, hone, by omega, by omega, by omega, by omega, fun i hi => ?_⟩
      · rw [hkept ht hk, slice_cons d l, slice_cons d r,
          cons_merge_cons_neg _ _ _ (fun hc => hle (of_decide_eq_true hc)),
          ← slice_cons, ← hmerge, show r + (nR + 1 - nR') = r + 1 + (nR - nR') by omega]
        rfl
      · rw [ht i (by omega)]
        exact memSet_other (by omega) _ _

theorem take_slice (d : ℕ → α) (b : ℕ) {m n : ℕ} (h : m ≤ n) :
    (slice d b n).take m = slice d b m := by
  rw [← Nat.add_sub_cancel' h, slice_append, take_left' (length_slice d b m)]

theorem drop_slice (d : ℕ → α) (b : ℕ) {m n : ℕ} (h : m ≤ n) :
    (slice d b n).drop m = slice d (b + m) (n - m) := by
  conv_lhs => rw [← Nat.add_sub_cancel' h, slice_append]
  rw [drop_left' (length_slice d b m)]

/-- **What the merge sort leaves** is a stable sort of `sortParts`, and the memory outside is as it
was. -/
theorem mergeSort_spec (hle : TotalPreorder sd.le) (cacheline : ℕ) (m : SortMem α) (b n : ℕ) :
    StableSorted sd.le (sortParts sd.sz cacheline (slice m.data b n))
        (slice (mergeSort sd cacheline m b n).data b n) ∧
      ∀ k, k < b ∨ b + n ≤ k → (mergeSort sd cacheline m b n).data k = m.data k := by
  induction n using Nat.strong_induction_on generalizing m b with
  | _ n ih =>
    rw [mergeSort, sortParts, length_slice]
    by_cases hone : n ≤ 1
    · rw [dif_pos hone, dif_pos hone]
      exact ⟨.of_length_le_one (by simpa using hone), fun _ _ => rfl⟩
    rw [dif_neg hone, dif_neg hone]
    by_cases hsmall : n * sd.sz ≤ cacheline
    · rw [if_pos hsmall, if_pos hsmall]
      by_cases hsz : sd.sz = 4 ∨ sd.sz = 8
      · rw [if_pos hsz]
        exact insertionSort_wide hle hsz m b n
      · obtain ⟨hcopies, hframe⟩ := insertionSort_other hle hsz m b n
        refine ⟨?_, hframe⟩
        rw [if_neg hsz, take_slice _ _ (by omega : 1 ≤ n), hcopies]
        simp only [slice_succ, slice_zero, nil_append, flatMap_singleton, Nat.add_zero]
        exact .replicate hle n _
    rw [if_neg hsmall, if_neg hsmall]
    have hhalf : n / 2 ≤ n := Nat.div_le_self n 2
    obtain ⟨m₁, hm₁⟩ : ∃ m₁, m₁ = mergeSort sd cacheline m b (n / 2) := ⟨_, rfl⟩
    obtain ⟨m₂, hm₂⟩ : ∃ m₂, m₂ = mergeSort sd cacheline m₁ (b + n / 2) (n - n / 2) := ⟨_, rfl⟩
    obtain ⟨hsort₁, hframe₁⟩ := ih (n / 2) (by omega) m b
    obtain ⟨hsort₂, hframe₂⟩ := ih (n - n / 2) (by omega) m₁ (b + n / 2)
    rw [← hm₁] at hsort₁ hframe₁
    rw [← hm₂] at hsort₂ hframe₂
    have hleft : slice m₂.data b (n / 2) = slice m₁.data b (n / 2) :=
      slice_congr fun k _ hk => hframe₂ k (by omega)
    have hright : slice m₁.data (b + n / 2) (n - n / 2) =
        slice m.data (b + n / 2) (n - n / 2) :=
      slice_congr fun k hk _ => hframe₁ k (by omega)
    rw [← hleft] at hsort₁
    rw [hright] at hsort₂
    obtain ⟨⟨t, l, nL, nR, k⟩, hloop⟩ : ∃ r, r = mergeLoop sd m₂.data m₂.tmp b (n / 2)
        (b + n / 2) (n - n / 2) 0 := ⟨_, rfl⟩
    obtain ⟨hmerge, hempty, hsum, hl, hnR, -, -⟩ := mergeLoop_spec hloop.symm
    simp only [← hm₁, ← hm₂, ← hloop]
    obtain ⟨t₂, ht₂⟩ : ∃ t₂, t₂ = if nL ≠ 0 then memCopy t k m₂.data l nL else t := ⟨_, rfl⟩
    -- with the left tail, the buffer has all but the right tail
    have htmp : slice t₂ 0 (n - nR) = slice t 0 k ++ slice m₂.data l nL := by
      rw [show n - nR = k + nL by omega, slice_append, Nat.zero_add, ht₂]
      by_cases hnL : nL ≠ 0
      · rw [if_pos hnL, slice_memCopy]
        congr 1
        exact slice_congr fun i _ hi => memCopy_other (.inl (by omega))
      · rw [if_neg hnL, not_not.mp hnL, slice_zero, slice_zero]
    rw [← ht₂]
    refine ⟨?_, fun i hi => ?_⟩
    · have hall : slice (memCopy m₂.data b t₂ 0 (n - nR)) b n =
          slice t 0 k ++ slice m₂.data l nL ++
            slice m₂.data (b + n / 2 + (n - n / 2 - nR)) nR := by
        have hsplit : ∀ d : ℕ → α,
            slice d b n = slice d b (n - nR) ++ slice d (b + (n - nR)) nR := by
          intro d
          rw [← slice_append, Nat.sub_add_cancel (by omega)]
        rw [hsplit, slice_memCopy, htmp, show b + n / 2 + (n - n / 2 - nR) = b + (n - nR) by omega]
        congr 1
        exact slice_congr fun i hi _ => memCopy_other (.inr (by omega))
      rw [hall, take_slice _ _ hhalf, drop_slice _ _ hhalf]
      rw [Nat.sub_zero] at hmerge
      rw [hmerge]
      exact hsort₁.merge hle hsort₂
    · rw [memCopy_other (by omega), hframe₂ i (by omega), hframe₁ i (by omega)]

end Merge

/-! ### The result -/

section Result

variable {α : Type*} {sd : Sortdata α}

theorem sortParts_wide (hsz : sd.sz = 4 ∨ sd.sz = 8) (cacheline : ℕ) (xs : List α) :
    sortParts sd.sz cacheline xs = xs := by
  induction hn : xs.length using Nat.strong_induction_on generalizing xs with
  | _ n ih =>
    rw [sortParts]
    by_cases hone : xs.length ≤ 1
    · rw [dif_pos hone]
    · rw [dif_neg hone, if_pos hsz]
      split
      · rfl
      · rw [ih _ (by rw [length_take]; omega) _ rfl,
          ih _ (by rw [length_drop]; omega) _ rfl, take_append_drop]

/-- **Elements of 4 or of 8 bytes are sorted.** -/
theorem ffsort_wide (hle : TotalPreorder sd.le) (hsz : sd.sz = 4 ∨ sd.sz = 8) {alloc : ℕ → Bool}
    (cacheline : ℕ) (tmp data : ℕ → α) (n : ℕ)
    (halloc : n * sd.sz ≤ MAXSTACKTMP ∨ alloc (n * sd.sz) = true) :
    StableSorted sd.le (slice data 0 n) (slice (ffsort sd alloc cacheline tmp data n) 0 n) := by
  have hsort := (mergeSort_spec hle cacheline ⟨data, tmp⟩ 0 n).1
  rw [sortParts_wide hsz] at hsort
  rwa [ffsort, if_pos halloc]

/-- **When `ffsort` sorts**: for elements of 4 or of 8 bytes; otherwise, when the array and the
array whose short parts are copies of their first elements have the same elements of each class in
the same order. -/
theorem ffsort_iff (hle : TotalPreorder sd.le) {alloc : ℕ → Bool} (cacheline : ℕ)
    (tmp data : ℕ → α) (n : ℕ) (halloc : n * sd.sz ≤ MAXSTACKTMP ∨ alloc (n * sd.sz) = true) :
    ((slice (ffsort sd alloc cacheline tmp data n) 0 n).Perm (slice data 0 n) ∧
      StableSorted sd.le (slice data 0 n) (slice (ffsort sd alloc cacheline tmp data n) 0 n)) ↔
    (sd.sz = 4 ∨ sd.sz = 8 ∨ ∀ x,
      (sortParts sd.sz cacheline (slice data 0 n)).filter (ordEq sd.le x) =
        (slice data 0 n).filter (ordEq sd.le x)) := by
  obtain ⟨hsort, -⟩ := mergeSort_spec hle cacheline ⟨data, tmp⟩ 0 n
  rw [ffsort, if_pos halloc, and_iff_right_of_imp (fun h => h.perm hle), stableSorted_congr hsort]
  refine ⟨fun h => .inr (.inr h), fun h => ?_⟩
  rcases or_assoc.mpr h with hsz | h
  · exact fun x => by rw [sortParts_wide hsz]
  · exact h

/-- Elements of `sz` bytes in the order of a key -/
def keyOrder (sz : ℕ) (key : α → ℕ) : Sortdata α := ⟨sz, fun a b => (key a : ℤ) - key b⟩

theorem keyOrder_total (sz : ℕ) (key : α → ℕ) : TotalPreorder (keyOrder sz key).le :=
  .of_key (fun a => (key a : ℤ)) fun a b => by
    rw [Sortdata.le, decide_eq_true_iff]
    change (key a : ℤ) - key b ≤ 0 ↔ _
    omega

theorem ffsort_iff_words :
    StableSorted (keyOrder 4 UInt32.toNat).le [2, 1] (slice (ffsort (keyOrder 4 UInt32.toNat)
      (fun _ => false) 64 (fun _ => 0) (![2, 1] ∘ Fin.ofNat 2) 2) 0 2) :=
  ((ffsort_iff (keyOrder_total 4 UInt32.toNat) 64 (fun _ => 0) (![2, 1] ∘ Fin.ofNat 2) 2
    (.inl (by decide))).mpr (.inl rfl)).2

/-- An array of two elements of one byte is left with the first one twice. -/
theorem ffsort_copies :
    ¬∀ (sd : Sortdata UInt8) (alloc : ℕ → Bool) (tmp data : ℕ → UInt8) (n : ℕ),
      TotalPreorder sd.le → (n * sd.sz ≤ MAXSTACKTMP ∨ alloc (n * sd.sz) = true) →
        (slice (ffsort sd alloc 64 tmp data n) 0 n).Perm (slice data 0 n) := by
  intro h
  have hperm := h (keyOrder 1 UInt8.toNat) (fun _ => false) (fun _ => 0) (![2, 1] ∘ Fin.ofNat 2) 2
    (keyOrder_total 1 UInt8.toNat) (.inl (by decide))
  have hmem : (1 : UInt8) ∈ slice (![2, 1] ∘ Fin.ofNat 2) 0 2 := by decide
  rw [ffsort, if_pos (.inl (by decide)), mergeSort, dif_neg (by decide), if_pos (by decide)] at hperm
  exact absurd (hperm.mem_iff.mpr hmem) (by decide)

end Result

end FF
