import FF.Lib.Circular

/-!
# Memory of slots

A list of bytes, or of anything, read as slots of one width. What is copied to the begin of a slot
shows in the slots from there on.
-/

namespace FF

open List

section Slots

variable {α : Type*}

/-- The first `n` slots of the width `w`. -/
def slots (w : ℕ) : ℕ → List α → List (List α)
  | 0, _ => []
  | n + 1, bs => bs.take w :: slots w n (bs.drop w)

variable {w m n i : ℕ} {bs bs' d b : List α}

@[simp] theorem length_slots (w n : ℕ) (bs : List α) : (slots w n bs).length = n := by
  induction n generalizing bs with
  | zero => rfl
  | succ n ih => rw [slots, length_cons, ih]

/-- The slots in front, and those behind them. -/
theorem slots_add (w m n : ℕ) (bs : List α) :
    slots w (m + n) bs = slots w m bs ++ slots w n (bs.drop (m * w)) := by
  induction m generalizing bs with
  | zero => rw [Nat.zero_add, Nat.zero_mul, drop_zero, slots, nil_append]
  | succ m ih =>
    rw [Nat.succ_add, slots, slots, ih, drop_drop, cons_append, Nat.succ_mul, Nat.add_comm w]

/-- Slots need their bytes only. -/
theorem slots_take (w n : ℕ) (bs : List α) : slots w n (bs.take (n * w)) = slots w n bs := by
  induction n generalizing bs with
  | zero => rfl
  | succ n ih =>
    have hle : w ≤ (n + 1) * w := Nat.le_mul_of_pos_left w (Nat.succ_pos n)
    have hsub : (n + 1) * w - w = n * w := by rw [Nat.succ_mul, Nat.add_sub_cancel]
    rw [slots, slots, take_take, Nat.min_eq_left hle, drop_take, hsub, ih]

theorem slots_congr (h : bs.take (n * w) = bs'.take (n * w)) : slots w n bs = slots w n bs' := by
  rw [← slots_take w n bs, h, slots_take]

theorem take_slots (h : m ≤ n) : (slots w n bs).take m = slots w m bs := by
  obtain ⟨k, rfl⟩ := Nat.exists_eq_add_of_le h
  rw [slots_add, take_left' (length_slots w m bs)]

theorem drop_slots (h : m ≤ n) :
    (slots w n bs).drop m = slots w (n - m) (bs.drop (m * w)) := by
  obtain ⟨k, rfl⟩ := Nat.exists_eq_add_of_le h
  rw [slots_add, drop_left' (length_slots w m bs), Nat.add_sub_cancel_left]

/-- What is in front of the bytes that are written. -/
theorem take_splice (h : i ≤ d.length) : (splice d i b).take i = d.take i := by
  rw [splice, append_assoc, take_left' (length_take_of_le h)]

/-- The bytes that are written, and what is behind them. -/
theorem drop_splice (h : i ≤ d.length) :
    (splice d i b).drop i = b ++ d.drop (i + b.length) := by
  rw [splice, append_assoc, drop_left' (length_take_of_le h)]

/-- **Slots that are written** come behind those in front of them. -/
theorem slots_splice (hroom : m * w ≤ d.length) (hb : b.length = n * w) :
    slots w (m + n) (splice d (m * w) b) = slots w m d ++ slots w n b := by
  have hfront : slots w m (splice d (m * w) b) = slots w m d := slots_congr (take_splice hroom)
  have hback : slots w n (b ++ d.drop (m * w + b.length)) = slots w n b := by
    refine slots_congr ?_
    rw [← hb, take_left' rfl, take_length]
  rw [slots_add, hfront, drop_splice hroom, hback]

end Slots

end FF
