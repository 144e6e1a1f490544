import FF.Lib.Circular
import FF.Lib.Refine
import FF.Number

/-!
# The byte ring

`ffringbuf` is a byte queue in a circular array whose capacity is a power of two. One byte
stays free: the queue is empty when the two positions are equal. The positions are `size_t`
values; their differences wrap around and are then masked.
-/

namespace FF

open List Option

/-! ### The program -/

/-- Write bytes to memory; outside of the array this is a fault. -/
def memcpyTo (d : List UInt8) (i : ℕ) (b : List UInt8) : Option (List UInt8) :=
  if i + b.length ≤ d.length then some (splice d i b) else none

/-- Read bytes from memory; outside of the array this is a fault. -/
def memcpyFrom (d : List UInt8) (i n : ℕ) : Option (List UInt8) :=
  if i + n ≤ d.length then some ((d.drop i).take n) else none

/-- `struct ffringbuf`, with the memory that `data` points to. The lock is left out. -/
structure Ffringbuf where
  data : List UInt8
  cap : ℕ
  r : ℕ
  w : ℕ
  deriving DecidableEq, Repr

/-- `ffringbuf_init`: `none` where the assertion fails. -/
def ffringbufInit (p : List UInt8) (cap : ℕ) : Option Ffringbuf :=
  if 0 = cap &&& (cap - 1) then some ⟨p, cap, 0, 0⟩ else none

/-- `ffringbuf_canread`: the number of bytes available to read. -/
def ffringbufCanread (r : Ffringbuf) : ℕ := sizeSub r.w r.r &&& (r.cap - 1)

/-- `ffringbuf_canread_seq`: the number of sequential bytes available to read. -/
def ffringbufCanreadSeq (r : Ffringbuf) : ℕ := if r.w ≥ r.r then r.w - r.r else r.cap - r.r

/-- `ffringbuf_canwrite`: the number of bytes available to write. -/
def ffringbufCanwrite (r : Ffringbuf) : ℕ := sizeSub (sizeSub r.r r.w) 1 &&& (r.cap - 1)

/-- `ffringbuf_canwrite_seq`: the number of sequential bytes available to write. -/
def ffringbufCanwriteSeq (r : Ffringbuf) : ℕ :=
  if r.r > r.w then r.r - r.w - 1
  else if r.r = 0 then r.cap - r.w - 1 else r.cap - r.w

/-- `ffringbuf_write_seq`: append data until out of available sequential space; returns the
number of bytes written. -/
def ffringbufWriteSeq (r : Ffringbuf) (data : List UInt8) : Option (ℕ × Ffringbuf) := do
  let n := min (ffringbufCanwriteSeq r) data.length
  let d ← memcpyTo r.data r.w (data.take n)
  some (n, { r with data := d, w := ffintAddReset2 r.w n r.cap })

/-- `ffringbuf_write`: append data until the buffer is full. -/
def ffringbufWrite (r : Ffringbuf) (data : List UInt8) : Option (ℕ × Ffringbuf) := do
  let (n, r) ← ffringbufWriteSeq r data
  if n ≠ data.length then
    let (m, r) ← ffringbufWriteSeq r (data.drop n)
    some (n + m, r)
  else
    some (n, r)

/-- `ffringbuf_overwrite`: append data, over the oldest bytes where there is no room. -/
def ffringbufOverwrite (r : Ffringbuf) (data : List UInt8) : Option Ffringbuf := do
  let data := if data.length ≥ r.cap then data.drop (data.length - (r.cap - 1)) else data
  let n := min (r.cap - r.w) data.length
  let d ← memcpyTo r.data r.w (data.take n)
  let d ← (if data.length ≠ n then memcpyTo d 0 (data.drop n) else some d)
  let ow := (max (ssize (sizeSub data.length (ffringbufCanwrite r))) 0).toNat
  some { r with
    data := d
    w := ffintAddReset2 r.w data.length r.cap
    r := ffintAddReset2 r.r ow r.cap }

/-- `ffringbuf_readptr`: get a chunk of sequential data. -/
def ffringbufReadptr (r : Ffringbuf) (len : ℕ) : Option (List UInt8 × Ffringbuf) := do
  let n := min len (ffringbufCanreadSeq r)
  let dst ← memcpyFrom r.data r.r n
  some (dst, { r with r := ffintAddReset2 r.r n r.cap })

/-- `ffringbuf_read_seq`: the bytes copied to the destination, whose number is returned. -/
def ffringbufReadSeq (r : Ffringbuf) (len : ℕ) : Option (List UInt8 × Ffringbuf) :=
  ffringbufReadptr r len

/-- `ffringbuf_read`: the bytes copied to the destination, whose number is returned. -/
def ffringbufRead (r : Ffringbuf) (len : ℕ) : Option (List UInt8 × Ffringbuf) := do
  let (dst, r) ← ffringbufReadSeq r len
  if dst.length ≠ len then
    let (rest, r) ← ffringbufReadSeq r (len - dst.length)
    some (dst ++ rest, r)
  else
    some (dst, r)

/-! ### Representation -/

/-- The buffer `b` holds the bytes `q`. -/
structure Ffringbuf.Rep (b : Ffringbuf) (q : List UInt8) : Prop where
  pow : ∃ k, k < 64 ∧ b.cap = 2 ^ k
  size : b.data.length = b.cap
  holds : Holds b.data b.r b.w q

section Rep

variable {b : Ffringbuf} {q : List UInt8}

theorem Ffringbuf.Rep.r_lt (h : b.Rep q) : b.r < b.cap := h.size ▸ h.holds.r_lt

theorem Ffringbuf.Rep.w_lt (h : b.Rep q) : b.w < b.cap := h.size ▸ h.holds.w_lt

theorem Ffringbuf.Rep.len_lt (h : b.Rep q) : q.length < b.cap := h.size ▸ h.holds.len_lt

theorem Ffringbuf.Rep.w_cases (h : b.Rep q) :
    (b.r + q.length < b.cap ∧ b.w = b.r + q.length) ∨
      (b.cap ≤ b.r + q.length ∧ b.w + b.cap = b.r + q.length) :=
  h.size ▸ h.holds.w_cases

theorem Ffringbuf.Rep.cap_le (h : b.Rep q) : b.cap ≤ 2 ^ 63 := by
  obtain ⟨k, hk, hcap⟩ := h.pow
  rw [hcap]
  exact Nat.pow_le_pow_right (by decide) (by omega)

theorem Ffringbuf.Rep.addReset2 (h : b.Rep q) (i n : ℕ) :
    ffintAddReset2 i n b.cap = (i + n) % b.cap := by
  obtain ⟨k, hk, hcap⟩ := h.pow
  rw [hcap]
  exact ffintAddReset2_eq hk ..

theorem Ffringbuf.Rep.mask_sizeSub (h : b.Rep q) {i j n : ℕ} (hj : j ≤ b.cap)
    (hn : n < b.cap) (hd : i = j + n ∨ i + b.cap = j + n) :
    sizeSub i j &&& (b.cap - 1) = n := by
  obtain ⟨k, hk, hcap⟩ := h.pow
  rw [hcap] at hj hn hd ⊢
  exact FF.mask_sizeSub hk hj hn hd

/-- `ffringbuf_canread` is the exact count. -/
theorem ffringbufCanread_eq (h : b.Rep q) : ffringbufCanread b = q.length := by
  have hw := h.w_cases
  have hr := h.r_lt
  exact h.mask_sizeSub hr.le h.len_lt (by omega)

/-- `ffringbuf_canwrite` is the exact count. -/
theorem ffringbufCanwrite_eq (h : b.Rep q) : ffringbufCanwrite b = b.cap - 1 - q.length := by
  have hw := h.w_cases
  have hr := h.r_lt
  have hlen := h.len_lt
  have hcap := h.cap_le
  have h2 : sizeSub (sizeSub b.r b.w) 1 = sizeSub b.r (b.w + 1) := by
    simp only [sizeSub]
    rw [Nat.mod_add_mod]
    have hbig : (2 : ℕ) ^ 63 < SIZE_BOUND := by decide
    rw [show b.r + (SIZE_BOUND - b.w) + (SIZE_BOUND - 1) =
      b.r + (SIZE_BOUND - (b.w + 1)) + SIZE_BOUND by omega, Nat.add_mod_right]
  rw [ffringbufCanwrite, h2]
  exact h.mask_sizeSub (by omega) (by omega) (by omega)

theorem ffringbufCanreadSeq_eq (h : b.Rep q) :
    ffringbufCanreadSeq b = min q.length (b.cap - b.r) := by
  have hw := h.w_cases
  have hlen := h.len_lt
  rw [ffringbufCanreadSeq]
  split <;> omega

theorem ffringbufCanwriteSeq_eq (h : b.Rep q) :
    ffringbufCanwriteSeq b = min (b.cap - 1 - q.length) (b.cap - b.w) := by
  have hw := h.w_cases
  have hr := h.r_lt
  have hlen := h.len_lt
  rw [ffringbufCanwriteSeq]
  split
  · omega
  · split <;> omega

/-! ### Moving a position -/

/-- **Bytes written behind the contents** are appended. -/
theorem Ffringbuf.Rep.append (h : b.Rep q) {x : List UInt8} (hfit : q.length + x.length < b.cap)
    (hseq : b.w + x.length ≤ b.cap) :
    Rep { b with data := splice b.data b.w x, w := (b.w + x.length) % b.cap } (q ++ x) := by
  rw [← h.size] at hfit hseq
  refine ⟨h.pow, (length_splice hseq).trans h.size, ?_⟩
  have happ := h.holds.append hfit hseq
  rwa [h.size] at happ

/-- **Bytes before the read position** are gone. -/
theorem Ffringbuf.Rep.consume (h : b.Rep q) {n : ℕ} (hn : n ≤ q.length) :
    Rep { b with r := (b.r + n) % b.cap } (q.drop n) := by
  refine ⟨h.pow, h.size, ?_⟩
  have hcons := h.holds.consume hn
  rwa [h.size] at hcons

end Rep

/-! ### Operations -/

section Operations

variable {b : Ffringbuf} {q : List UInt8}

theorem ffringbufWriteSeq_spec (h : b.Rep q) (data : List UInt8) :
    ∃ b', ffringbufWriteSeq b data = some (min (ffringbufCanwriteSeq b) data.length, b') ∧
      b'.Rep (q ++ data.take (min (ffringbufCanwriteSeq b) data.length)) ∧ b'.cap = b.cap ∧
      b'.w = (b.w + min (ffringbufCanwriteSeq b) data.length) % b.cap := by
  obtain ⟨n, hn⟩ : ∃ n, n = min (ffringbufCanwriteSeq b) data.length := ⟨_, rfl⟩
  have hw := h.w_lt
  have hseq := ffringbufCanwriteSeq_eq h
  have hlen : (data.take n).length = n := by
    rw [length_take]
    omega
  have hfit : b.w + (data.take n).length ≤ b.data.length := by
    rw [hlen, h.size]
    omega
  rw [ffringbufWriteSeq, ← hn, memcpyTo, if_pos hfit]
  have happ := h.append (x := data.take n) (by have := h.len_lt; omega) (by omega)
  rw [hlen] at happ
  exact ⟨_, rfl, by rw [h.addReset2]; exact happ, rfl, h.addReset2 ..⟩

/-- `ffringbuf_write` appends the longest prefix that fits. -/
theorem ffringbufWrite_spec (h : b.Rep q) (data : List UInt8) :
    ∃ n b', ffringbufWrite b data = some (n, b') ∧
      n = min data.length (b.cap - 1 - q.length) ∧ b'.Rep (q ++ data.take n) ∧
      b'.cap = b.cap := by
  have hw := h.w_lt
  obtain ⟨b₁, he₁, h₁, hc₁, hw₁⟩ := ffringbufWriteSeq_spec h data
  obtain ⟨n, hn⟩ : ∃ n, n = min (ffringbufCanwriteSeq b) data.length := ⟨_, rfl⟩
  rw [← hn] at he₁ h₁ hw₁
  by_cases hall : n = data.length
  · have hfits : data.length ≤ b.cap - 1 - q.length := by
      have hle : data.length ≤ ffringbufCanwriteSeq b := by omega
      rw [ffringbufCanwriteSeq_eq h] at hle
      exact hle.trans (Nat.min_le_left _ _)
    refine ⟨n, b₁, by simp [ffringbufWrite, he₁, hall], ?_, h₁, hc₁⟩
    rw [hall, Nat.min_eq_left hfits]
  obtain ⟨b₂, he₂, h₂, hc₂, -⟩ := ffringbufWriteSeq_spec h₁ (data.drop n)
  have hfull : n = ffringbufCanwriteSeq b := by omega
  have hmore : n < data.length := by omega
  have hseq₁ := ffringbufCanwriteSeq_eq h₁
  have hdrop : (data.drop n).length = data.length - n := length_drop ..
  have hq : (q ++ data.take n).length = q.length + n := by
    rw [length_append, length_take, Nat.min_eq_left hmore.le]
  rw [hq, hc₁] at hseq₁
  rw [hdrop] at he₂ h₂
  rw [ffringbufCanwriteSeq_eq h] at hfull
  -- either there is no more room, or the second write begins at the start of the array
  have hcan : ffringbufCanwriteSeq b₁ = b.cap - 1 - (q.length + n) := by
    rw [hseq₁]
    rcases Nat.le_total (b.cap - 1 - q.length) (b.cap - b.w) with hroom | hroom
    · rw [Nat.min_eq_left hroom] at hfull
      have hnone : b.cap - 1 - (q.length + n) = 0 := by omega
      rw [hnone, Nat.zero_min]
    · rw [Nat.min_eq_right hroom] at hfull
      have hend : b.w + n = b.cap := by omega
      rw [hend, Nat.mod_self] at hw₁
      rw [hw₁]
      exact Nat.min_eq_left (by omega)
  rw [hcan] at he₂ h₂
  obtain ⟨m, hm⟩ : ∃ m, m = min (b.cap - 1 - (q.length + n)) (data.length - n) := ⟨_, rfl⟩
  rw [← hm] at he₂ h₂
  have hsum : n + m = min data.length (b.cap - 1 - q.length) := by
    omega
  refine ⟨n + m, b₂, by simp [ffringbufWrite, he₁, he₂, hall], hsum, ?_, hc₂.trans hc₁⟩
  rwa [append_assoc, ← take_add] at h₂

/-- `ffringbuf_readptr` removes and returns the bytes up to the end of the array. -/
theorem ffringbufReadptr_spec (h : b.Rep q) (len : ℕ) :
    ∃ n b', ffringbufReadptr b len = some (q.take n, b') ∧
      n = min len (min q.length (b.cap - b.r)) ∧ b'.Rep (q.drop n) ∧ b'.cap = b.cap ∧
      b'.r = (b.r + n) % b.cap := by
  have hseq := ffringbufCanreadSeq_eq h
  have hr := h.r_lt
  obtain ⟨n, hn⟩ : ∃ n, n = min len (ffringbufCanreadSeq b) := ⟨_, rfl⟩
  have hfit : b.r + n ≤ b.data.length := by
    rw [h.size]
    omega
  refine ⟨n, { b with r := (b.r + n) % b.cap }, ?_, by omega, h.consume (by omega), rfl, rfl⟩
  rw [ffringbufReadptr, ← hn, memcpyFrom, if_pos hfit, h.holds.take_elems (by omega) hfit, h.addReset2]
  rfl

/-- `ffringbuf_read` removes and returns the oldest bytes. -/
theorem ffringbufRead_spec (h : b.Rep q) (len : ℕ) :
    ∃ b', ffringbufRead b len = some (q.take len, b') ∧ b'.Rep (q.drop len) ∧
      b'.cap = b.cap := by
  obtain ⟨n, b₁, he₁, hn, h₁, hc₁, hr₁⟩ := ffringbufReadptr_spec h len
  have hlen := h.len_lt
  have hr := h.r_lt
  have htake : (q.take n).length = n := by
    rw [length_take]
    omega
  by_cases hall : n = len
  · rw [hall] at he₁ h₁ htake
    exact ⟨b₁, by simp [ffringbufRead, ffringbufReadSeq, he₁, htake], h₁, hc₁⟩
  obtain ⟨m, b₂, he₂, hm, h₂, hc₂, -⟩ := ffringbufReadptr_spec h₁ (len - n)
  rw [length_drop, hc₁] at hm
  have hsum : q.take n ++ (q.drop n).take m = q.take len ∧ (q.drop n).drop m = q.drop len := by
    rw [← take_add, drop_drop]
    -- the second read begins at the start of the array, or nothing is left for it
    have hcase : n = q.length ∨ b.r + n = b.cap := by omega
    have hle : n + m = len ∨ (q.length ≤ n + m ∧ q.length ≤ len) := by
      rcases hcase with hcase | hcase
      · omega
      · rw [hcase, Nat.mod_self] at hr₁
        omega
    rcases hle with hle | ⟨h1, h2⟩
    · rw [hle]
      exact ⟨rfl, rfl⟩
    · rw [take_of_length_le h1, take_of_length_le h2, drop_of_length_le h1, drop_of_length_le h2]
      exact ⟨rfl, rfl⟩
  rw [← hsum.1, ← hsum.2]
  refine ⟨b₂, ?_, h₂, hc₂.trans hc₁⟩
  simp only [ffringbufRead, ffringbufReadSeq, he₁, bind_eq_bind, bind_some,
    htake, ne_eq, hall, not_false_eq_true, if_true, he₂]

/-- The bytes that `ffringbuf_overwrite` drops when the input is not longer than the
queue can be. -/
theorem overwrite_drop {len c n : ℕ} (hlen : len ≤ c - 1) (hn : n < c) (hc : c ≤ 2 ^ 63) :
    (max (ssize (sizeSub len (c - 1 - n))) 0).toNat = n + len - (c - 1) := by
  have hb : SIZE_BOUND = 2 ^ 64 := rfl
  rcases Nat.lt_or_ge len (c - 1 - n) with h | h
  · have hs : sizeSub len (c - 1 - n) = SIZE_BOUND - (c - 1 - n - len) := by
      rw [sizeSub, Nat.mod_eq_of_lt (by omega)]
      omega
    rw [hs, ssize, if_neg (by omega), hb]
    omega
  · have hs : sizeSub len (c - 1 - n) = len - (c - 1 - n) := by
      rw [sizeSub, show len + (SIZE_BOUND - (c - 1 - n)) = len - (c - 1 - n) + SIZE_BOUND by
        omega, Nat.add_mod_right, Nat.mod_eq_of_lt (by omega)]
    rw [hs, ssize, if_pos (by omega)]
    omega

/-- `ffringbuf_overwrite` for an input that is not longer than the queue can be. -/
theorem ffringbufOverwrite_short (h : b.Rep q) {data : List UInt8}
    (hdata : data.length ≤ b.cap - 1) :
    ∃ b', ffringbufOverwrite b data = some b' ∧
      b'.Rep ((q ++ data).drop ((q ++ data).length - (b.cap - 1))) ∧ b'.cap = b.cap := by
  have hlen := h.len_lt
  have hw := h.w_lt
  obtain ⟨ow, how⟩ : ∃ n, n = q.length + data.length - (b.cap - 1) := ⟨_, rfl⟩
  obtain ⟨n, hn⟩ : ∃ n, n = min (b.cap - b.w) data.length := ⟨_, rfl⟩
  have htake : (data.take n).length = n := by
    rw [length_take]
    omega
  have hdrop : (data.drop n).length = data.length - n := length_drop ..
  -- drop the oldest bytes, then write up to the end of the array and from its start
  have h₀ := h.consume (n := ow) (by omega)
  have hq₀ : (q.drop ow).length = q.length - ow := length_drop ..
  have h₁ := h₀.append (x := data.take n) (by simp only [htake, hq₀]; omega)
    (by simp only [htake]; omega)
  have hd₁ : memcpyTo b.data b.w (data.take n) = some (splice b.data b.w (data.take n)) :=
    if_pos (by rw [htake, h.size]; omega)
  have hresult : (q ++ data).drop ow = q.drop ow ++ data := by
    rw [drop_append_of_le_length (by omega)]
  simp only [htake] at h₁
  rw [ffringbufOverwrite]
  simp only [show ¬ data.length ≥ b.cap by omega, if_false, ← hn, hd₁, bind_eq_bind,
    bind_some, ffringbufCanwrite_eq h, overwrite_drop hdata hlen h.cap_le, ← how,
    h.addReset2, length_append]
  rw [hresult]
  by_cases hall : data.length = n
  · have hfull : data.take n = data := take_of_length_le hall.le
    rw [hfull] at h₁
    rw [hfull, if_neg (by simpa using hall), hall, bind_some]
    exact ⟨_, rfl, h₁, rfl⟩
  have hwrap : b.w + n = b.cap := by omega
  have hfit : 0 + (data.drop n).length ≤ (splice b.data b.w (data.take n)).length := by
    rw [length_splice (by rw [htake, h.size]; omega), h.size]
    omega
  have h₂ := h₁.append (x := data.drop n)
    (by simp only [length_append, hq₀, htake, hdrop]; omega)
    (by simp only [hwrap, Nat.mod_self]; omega)
  simp only [hwrap, Nat.mod_self, hdrop, append_assoc, take_append_drop] at h₂
  have hpos : (b.w + data.length) % b.cap = (0 + (data.length - n)) % b.cap := by
    rw [show b.w + data.length = 0 + (data.length - n) + b.cap by omega, Nat.add_mod_right]
  rw [if_pos (by simpa using hall), memcpyTo, if_pos hfit, hpos, bind_some]
  exact ⟨_, rfl, h₂, rfl⟩

/-- `ffringbuf_overwrite` leaves the last bytes of the contents and the input. -/
theorem ffringbufOverwrite_spec (h : b.Rep q) (data : List UInt8) :
    ∃ b', ffringbufOverwrite b data = some b' ∧
      b'.Rep ((q ++ data).drop ((q ++ data).length - (b.cap - 1))) ∧ b'.cap = b.cap := by
  rcases Nat.lt_or_ge data.length b.cap with hdata | hdata
  · exact ffringbufOverwrite_short h (by omega)
  have hcap := h.r_lt
  obtain ⟨last, hlast⟩ : ∃ l, l = data.drop (data.length - (b.cap - 1)) := ⟨_, rfl⟩
  have hlen : last.length = b.cap - 1 := by
    rw [hlast, length_drop]
    omega
  obtain ⟨b', he, h', hc⟩ := ffringbufOverwrite_short h hlen.le
  refine ⟨b', ?_, ?_, hc⟩
  · rw [← he, ffringbufOverwrite, ffringbufOverwrite]
    simp only [hdata, if_true, ← hlast, show ¬ last.length ≥ b.cap by omega, if_false]
  have hq : (q ++ last).drop ((q ++ last).length - (b.cap - 1)) = last := by
    rw [length_append, hlen, Nat.add_sub_cancel]
    exact drop_left
  have hq' : (q ++ data).drop ((q ++ data).length - (b.cap - 1)) = last := by
    rw [length_append, show q.length + data.length - (b.cap - 1) =
      q.length + (data.length - (b.cap - 1)) by omega, drop_append, hlast]
    simp
  rwa [hq', ← hq]

end Operations

/-! ### Runs -/

/-- The operations of a user. -/
inductive RingbufOp
  | write (data : List UInt8)
  | overwrite (data : List UInt8)
  | read (len : ℕ)
  | readptr (len : ℕ)
  | canread
  | canwrite
  deriving DecidableEq, Repr

/-- What an operation returns. -/
inductive RingbufResult
  | done
  | count (n : ℕ)
  | bytes (s : List UInt8)
  deriving DecidableEq, Repr

/-- One operation. -/
def ringbufStep (b : Ffringbuf) : RingbufOp → Option (Ffringbuf × RingbufResult)
  | .write data => do
      let (n, b) ← ffringbufWrite b data
      some (b, .count n)
  | .overwrite data => do
      let b ← ffringbufOverwrite b data
      some (b, .done)
  | .read len => do
      let (dst, b) ← ffringbufRead b len
      some (b, .bytes dst)
  | .readptr len => do
      let (dst, b) ← ffringbufReadptr b len
      some (b, .bytes dst)
  | .canread => some (b, .count (ffringbufCanread b))
  | .canwrite => some (b, .count (ffringbufCanwrite b))

/-- A byte queue of at most `cap - 1` bytes. A chunk that is read by reference may be shorter
than what is there, but it is not empty without reason. -/
def QueueStep (cap : ℕ) (q : List UInt8) : RingbufOp → RingbufResult → List UInt8 → Prop
  | .write data, .count n, q' =>
    n = min data.length (cap - 1 - q.length) ∧ q' = q ++ data.take n
  | .overwrite data, .done, q' => q' = (q ++ data).drop ((q ++ data).length - (cap - 1))
  | .read len, .bytes s, q' => s = q.take len ∧ q' = q.drop len
  | .readptr len, .bytes s, q' =>
    s ++ q' = q ∧ s.length ≤ len ∧ (s = [] → len = 0 ∨ q = [])
  | .canread, .count n, q' => n = q.length ∧ q' = q
  | .canwrite, .count n, q' => n = cap - 1 - q.length ∧ q' = q
  | _, _, _ => False

/-- **Each operation is one of a byte queue.** -/
theorem ringbufStep_refines (cap : ℕ) :
    Refines (QueueStep cap) ringbufStep (fun q b => b.Rep q ∧ b.cap = cap) := by
  rintro q b op ⟨h, rfl⟩
  cases op with
  | write data =>
    obtain ⟨n, b', he, hn, h', hc⟩ := ffringbufWrite_spec h data
    exact ⟨b', .count n, _, by simp [ringbufStep, he], ⟨hn, rfl⟩, h', hc⟩
  | overwrite data =>
    obtain ⟨b', he, h', hc⟩ := ffringbufOverwrite_spec h data
    exact ⟨b', .done, _, by simp [ringbufStep, he], rfl, h', hc⟩
  | read len =>
    obtain ⟨b', he, h', hc⟩ := ffringbufRead_spec h len
    exact ⟨b', .bytes _, _, by simp [ringbufStep, he], ⟨rfl, rfl⟩, h', hc⟩
  | readptr len =>
    obtain ⟨n, b', he, hn, h', hc, -⟩ := ffringbufReadptr_spec h len
    refine ⟨b', .bytes (q.take n), _, by simp [ringbufStep, he], ?_, h', hc⟩
    refine ⟨take_append_drop n q, ?_, fun hnil => ?_⟩
    · rw [length_take]
      omega
    have hr := h.r_lt
    rcases take_eq_nil_iff.mp hnil with h0 | h0
    · rcases Nat.eq_zero_or_pos len with hl | hl
      · exact .inl hl
      · exact .inr (length_eq_zero_iff.mp (by omega))
    · exact .inr h0
  | canread =>
    exact ⟨b, .count _, q, rfl, ⟨ffringbufCanread_eq h, rfl⟩, h, rfl⟩
  | canwrite =>
    exact ⟨b, .count _, q, rfl, ⟨ffringbufCanwrite_eq h, rfl⟩, h, rfl⟩

/-- The buffer is empty after `ffringbuf_init`. -/
theorem ffringbufInit_rep {k : ℕ} (hk : k < 64) {p : List UInt8} (hp : p.length = 2 ^ k) :
    ∃ b, ffringbufInit p (2 ^ k) = some b ∧ b.Rep [] ∧ b.cap = 2 ^ k := by
  have hpos : 0 < 2 ^ k := Nat.two_pow_pos k
  have hmask : 0 = 2 ^ k &&& (2 ^ k - 1) := by
    rw [Nat.and_two_pow_sub_one_eq_mod, Nat.mod_self]
  have hpos' : 0 < p.length := hp ▸ hpos
  exact ⟨_, if_pos hmask, ⟨⟨k, hk, rfl⟩, hp, ⟨hpos', (Nat.zero_mod _).symm, hpos', rfl⟩⟩, rfl⟩

/-- **Every sequence of operations on a buffer behaves as on a byte queue** of at most
`cap - 1` bytes. -/
theorem ffringbuf_runs {k : ℕ} (hk : k < 64) {p : List UInt8} (hp : p.length = 2 ^ k)
    (o : List RingbufOp) :
    ∃ b₀ b rs q, ffringbufInit p (2 ^ k) = some b₀ ∧ runs ringbufStep b₀ o = some (b, rs) ∧
      SpecRun (QueueStep (2 ^ k)) [] o rs q ∧ q.length ≤ 2 ^ k - 1 ∧
      ffringbufCanread b = q.length ∧ ffringbufCanwrite b = 2 ^ k - 1 - q.length := by
  obtain ⟨b₀, hinit, h₀, hc₀⟩ := ffringbufInit_rep hk hp
  obtain ⟨b, rs, q, hrun, hspec, h, hc⟩ := (ringbufStep_refines (2 ^ k)).runs o ⟨h₀, hc₀⟩
  have hlen := h.len_lt
  refine ⟨b₀, b, rs, q, hinit, hrun, hspec, by omega, ffringbufCanread_eq h, ?_⟩
  rw [ffringbufCanwrite_eq h, hc]

/-- A write that is cut off, an overwrite that wraps around, and two reads. -/
theorem ffringbuf_runs_example :
    ∃ b₀ b rs q, ffringbufInit (List.replicate (2 ^ 2) 0) (2 ^ 2) = some b₀ ∧
      runs ringbufStep b₀ [.write [1, 2], .overwrite [3, 4], .read 2, .write [5, 6, 7]] =
        some (b, rs) ∧
      SpecRun (QueueStep (2 ^ 2)) []
        [.write [1, 2], .overwrite [3, 4], .read 2, .write [5, 6, 7]] rs q ∧
      q.length ≤ 2 ^ 2 - 1 ∧ ffringbufCanread b = q.length ∧
      ffringbufCanwrite b = 2 ^ 2 - 1 - q.length :=
  ffringbuf_runs (by decide) (by simp) _

/-- The same run, evaluated. -/
example : (ffringbufInit (List.replicate 4 0) 4).bind (fun b => (runs ringbufStep b
    [.write [1, 2], .overwrite [3, 4], .read 2, .write [5, 6, 7]]).map Prod.snd) =
    some [.count 2, .done, .bytes [2, 3], .count 2] := by decide

end FF
