import Mathlib.Data.List.Rotate

/-!
# Circular arrays

A region of an array that begins at an index and wraps around its end: `window d r n` is the
`n` elements of `d` from the index `r` on. Reads and writes go to contiguous ranges, so an
operation on a region that wraps takes two of them.

## Main results

* `window_add`: a region splits anywhere.
* `window_eq_drop`: a region that does not reach the end is a contiguous range.
* `window_splice`: writing a range behind a region appends it to the region.
* `Holds`: the elements between a read and a write position; one place stays free, so that
  equal positions mean that there are none.
* `Holds.append`, `Holds.consume`: what moving a position does to them.
-/

namespace FF

open List

/-- An index that runs past the end at most once. -/
theorem add_mod_of_lt {r i c : ℕ} (hr : r < c) (hi : i ≤ c) :
    (r + i) % c = if r + i < c then r + i else r + i - c := by
  split
  · next h => exact Nat.mod_eq_of_lt h
  · next h =>
      rw [Nat.mod_eq_sub_mod (by omega)]
      exact Nat.mod_eq_of_lt (by omega)

section Window

variable {α : Type*}

/-- The `n` elements of the circular array `d` from the index `r` on. -/
def window (d : List α) (r n : ℕ) : List α := (d.rotate r).take n

/-- Write the list `b` into the array from the index `i` on. -/
def splice (d : List α) (i : ℕ) (b : List α) : List α := d.take i ++ b ++ d.drop (i + b.length)

@[simp] theorem length_window (d : List α) (r n : ℕ) :
    (window d r n).length = min n d.length := by
  simp [window]

theorem length_splice {d b : List α} {i : ℕ} (h : i + b.length ≤ d.length) :
    (splice d i b).length = d.length := by
  simp only [splice, length_append, length_take, length_drop]
  omega

theorem getElem_window (d : List α) (r n i : ℕ) (hi : i < (window d r n).length) :
    (window d r n)[i] = getElem d ((r + i) % d.length) (Nat.mod_lt _ (by
      rw [length_window] at hi
      omega)) := by
  simp only [window, getElem_take, getElem_rotate, Nat.add_comm i r]

/-- A region splits anywhere. -/
theorem window_add {d : List α} {r n m : ℕ} (hnm : n + m ≤ d.length) :
    window d r (n + m) = window d r n ++ window d ((r + n) % d.length) m := by
  refine ext_getElem ?_ fun i h1 h2 => ?_
  · simp only [length_window, length_append]
    omega
  rw [getElem_window, getElem_append]
  split
  · rw [getElem_window]
  next hlt =>
    rw [length_window] at hlt
    rw [getElem_window]
    congr 1
    simp only [length_window]
    rw [Nat.mod_add_mod]
    congr 1
    omega

/-- A region that does not wrap is a contiguous range. -/
theorem window_eq_drop {d : List α} {r n : ℕ} (h : r + n ≤ d.length) :
    window d r n = (d.drop r).take n := by
  refine ext_getElem ?_ fun i h1 h2 => ?_
  · simp only [length_window, length_take, length_drop]
    omega
  · rw [length_window] at h1
    rw [getElem_window]
    simp only [getElem_take, getElem_drop]
    congr 1
    exact Nat.mod_eq_of_lt (by omega)

theorem getElem_splice {d b : List α} {i j : ℕ} (h : i + b.length ≤ d.length)
    (hj : j < (splice d i b).length) :
    (splice d i b)[j] = if h' : i ≤ j ∧ j < i + b.length then b[j - i]
      else getElem d j (by rwa [length_splice h] at hj) := by
  simp only [splice]
  by_cases h1 : j < i
  · rw [getElem_append_left (by simp; omega), getElem_append_left (by simp; omega),
      dif_neg (by omega), getElem_take]
  by_cases h2 : j < i + b.length
  · rw [getElem_append_left (by simp; omega), getElem_append_right (by simp; omega),
      dif_pos ⟨by omega, h2⟩]
    congr 1
    simp only [length_take]
    omega
  · rw [getElem_append_right (by simp; omega), dif_neg (by omega), getElem_drop]
    congr 1
    simp only [length_append, length_take]
    omega

theorem splice_singleton {d : List α} {i : ℕ} (h : i < d.length) (x : α) :
    splice d i [x] = d.set i x := by
  rw [set_eq_take_append_cons_drop, if_pos h, splice, length_singleton, append_assoc]
  rfl

/-- Where the indices of a region and of the range behind it lie. -/
theorem window_index {r n m i c : ℕ} (hr : r < c) (hnm : n + m ≤ c)
    (hseq : (r + n) % c + m ≤ c) (hi : i < n + m) :
    if i < n then ¬((r + n) % c ≤ (r + i) % c ∧ (r + i) % c < (r + n) % c + m)
    else (r + n) % c ≤ (r + i) % c ∧ (r + i) % c < (r + n) % c + m ∧
      (r + i) % c - (r + n) % c = i - n := by
  rw [add_mod_of_lt hr (show n ≤ c by omega)] at hseq ⊢
  rw [add_mod_of_lt hr (show i ≤ c by omega)]
  by_cases h1 : r + n < c
  · rw [if_pos h1] at hseq ⊢
    split <;> split <;> omega
  · rw [if_neg h1] at hseq ⊢
    split <;> split <;> omega

/-- **A range written behind a region** is appended to the region. -/
theorem window_splice {d b : List α} {r n : ℕ} (hr : r < d.length)
    (hfit : n + b.length ≤ d.length) (hseq : (r + n) % d.length + b.length ≤ d.length) :
    window (splice d ((r + n) % d.length) b) r (n + b.length) = window d r n ++ b := by
  have hlen := length_splice hseq
  refine ext_getElem ?_ fun i h1 h2 => ?_
  · simp only [length_window, length_append, hlen]
    omega
  rw [length_window, hlen] at h1
  have hidx := window_index hr hfit hseq (show i < n + b.length by omega)
  rw [getElem_window, getElem_splice hseq]
  simp only [hlen]
  rw [getElem_append]
  simp only [length_window, Nat.min_eq_left (show n ≤ d.length by omega)]
  by_cases hin : i < n
  · rw [if_pos hin] at hidx
    rw [dif_pos hin, dif_neg hidx, getElem_window]
  · rw [if_neg hin] at hidx
    rw [dif_neg hin, dif_pos ⟨hidx.1, hidx.2.1⟩]
    congr 1
    exact hidx.2.2

/-! ### Positions -/

/-- The elements `q` begin at the position `r` of the array `d` and end before the position
`w`. They do not fill the array. -/
structure Holds (d : List α) (r w : ℕ) (q : List α) : Prop where
  r_lt : r < d.length
  w_eq : w = (r + q.length) % d.length
  len_lt : q.length < d.length
  elems : window d r q.length = q

variable {d q : List α} {r w : ℕ}

/-- The write position is ahead of the read position, or has wrapped around. -/
theorem Holds.w_cases (h : Holds d r w q) :
    (r + q.length < d.length ∧ w = r + q.length) ∨
      (d.length ≤ r + q.length ∧ w + d.length = r + q.length) := by
  have hlen := h.len_lt
  have hw := h.w_eq
  rw [add_mod_of_lt h.r_lt hlen.le] at hw
  split at hw <;> omega

theorem Holds.w_lt (h : Holds d r w q) : w < d.length := by
  rw [h.w_eq]
  exact Nat.mod_lt _ (Nat.zero_lt_of_lt h.r_lt)

/-- Equal positions mean that there are no elements. -/
theorem Holds.eq_nil_iff (h : Holds d r w q) : r = w ↔ q = [] := by
  have hw := h.w_cases
  have hr := h.r_lt
  have hlen := h.len_lt
  rw [← length_eq_zero_iff]
  constructor <;> intro he <;> omega

/-- **Elements written behind the others** are appended. -/
theorem Holds.append (h : Holds d r w q) {x : List α} (hfit : q.length + x.length < d.length)
    (hseq : w + x.length ≤ d.length) :
    Holds (splice d w x) r ((w + x.length) % d.length) (q ++ x) := by
  have hlen : (splice d w x).length = d.length := length_splice hseq
  refine ⟨by rw [hlen]; exact h.r_lt, ?_, ?_, ?_⟩
  · rw [hlen, h.w_eq, Nat.mod_add_mod, length_append, Nat.add_assoc]
  · rw [hlen, length_append]
    exact hfit
  · rw [h.w_eq] at hseq ⊢
    rw [length_append, window_splice h.r_lt hfit.le hseq, h.elems]

/-- The elements in two pieces. -/
theorem Holds.split (h : Holds d r w q) {n : ℕ} (hn : n ≤ q.length) :
    window d r n = q.take n ∧ window d ((r + n) % d.length) (q.length - n) = q.drop n := by
  have hlen := h.len_lt
  have hsplit : window d r (n + (q.length - n)) = window d r n ++
      window d ((r + n) % d.length) (q.length - n) := window_add (by omega)
  rw [Nat.add_sub_cancel' hn, h.elems] at hsplit
  have hw : (window d r n).length = n := by
    rw [length_window]
    omega
  refine ⟨?_, ?_⟩
  · conv_rhs => rw [hsplit]
    rw [take_left' hw]
  · conv_rhs => rw [hsplit]
    rw [drop_left' hw]

/-- **Elements before the read position** are gone. -/
theorem Holds.consume (h : Holds d r w q) {n : ℕ} (hn : n ≤ q.length) :
    Holds d ((r + n) % d.length) w (q.drop n) := by
  have hlen := h.len_lt
  refine ⟨Nat.mod_lt _ (by omega), ?_, ?_, ?_⟩
  · rw [h.w_eq, Nat.mod_add_mod, length_drop]
    congr 1
    omega
  · rw [length_drop]
    omega
  · rw [length_drop]
    exact (h.split hn).2

/-- The range at the read position, up to the end of the array, has the first elements. -/
theorem Holds.take_elems (h : Holds d r w q) {n : ℕ} (hn : n ≤ q.length)
    (hseq : r + n ≤ d.length) : (d.drop r).take n = q.take n := by
  rw [← window_eq_drop hseq]
  exact (h.split hn).1

/-- At the read position is the first element. -/
theorem Holds.head (h : Holds d r w q) {x : α} (hx : q.head? = some x) : d[r]? = some x := by
  obtain ⟨t, rfl⟩ := head?_eq_some_iff.mp hx
  have h1 := h.take_elems (n := 1) (by simp) h.r_lt
  rw [take_one, head?_drop] at h1
  cases hd : d[r]? with
  | none => simp [hd] at h1
  | some y => simpa [hd] using h1

end Window

end FF
