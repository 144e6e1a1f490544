import FF.Lib.Circular
import FF.Lib.Refine
import FF.Ring.Basic
import Mathlib.Tactic.IntervalCases

/-!
# The pointer ring, one call at a time

Without other threads, calls of `ffring_write` and `ffring_read` are those of a queue of at most
`cap - 1` elements. `ffring_write_excl` moves `wtail` but leaves `whead` behind, and a write that
finds the two apart either waits for ever or puts its element over the last one.
-/

namespace FF

section Sequential

variable {α : Type*}

/-- The rest of a call without other threads, in at most so many steps. -/
@[grind =] def ringRun : ℕ → Ffring α → RingPc α → Option (Ffring α × RingRes α)
  | _, s, .ret res => some (s, res)
  | 0, _, _ => none
  | n + 1, s, pc => do
      let (s, pc) ← ringStep s pc
      ringRun n s pc

/-- One call. -/
def ringCall (n : ℕ) (s : Ffring α) (o : RingOp α) : Option (Ffring α × RingRes α) :=
  ringRun n s o.start

/-- A queue of at most `cap - 1` elements. -/
def queueNext (cap : ℕ) (q : List α) : RingOp α → List α × RingRes α
  | .write p | .writeExcl p =>
    if q.length < cap - 1 then (q ++ [p], .written) else (q, .full)
  | .read =>
    match q with
    | [] => ([], .empty)
    | x :: q => (q, .value x)

/-- A write is made while no reserved slot is left behind. -/
def ringLegal (_ : List α) (s : Ffring α) : RingOp α → Prop
  | .write _ | .writeExcl _ => s.whead = s.wtail
  | .read => True

/-! ### One call -/

/-- The ring holds the elements `q`. -/
structure Ffring.Rep (s : Ffring α) (q : List α) : Prop where
  pow : ∃ k, k < 64 ∧ s.cap = 2 ^ k
  size : s.d.length = s.cap
  holds : Holds s.d s.r s.wtail q

variable {s : Ffring α} {q : List α}

theorem Ffring.Rep.increset2 (h : s.Rep q) (n : ℕ) : ffintIncreset2 n s.cap = (n + 1) % s.cap := by
  obtain ⟨k, hk, hcap⟩ := h.pow
  rw [hcap]
  exact ffintIncreset2_eq hk n

/-- The position behind the write position is the read position when the queue is full. -/
theorem Ffring.Rep.full_iff (h : s.Rep q) :
    ffintIncreset2 s.wtail s.cap = s.r ↔ ¬ q.length < s.cap - 1 := by
  have hw := h.holds.w_cases
  have hlt := h.holds.w_lt
  have hr := h.holds.r_lt
  have hlen := h.holds.len_lt
  rw [h.size] at hw hlt hr hlen
  rw [h.increset2, add_mod_of_lt hlt (by omega)]
  split <;> constructor <;> intro he <;> omega

theorem Ffring.Rep.write (h : s.Rep q) (p : α) (hroom : q.length < s.cap - 1) (head : ℕ) :
    Rep { s with d := s.d.set s.wtail p, whead := head, wtail := ffintIncreset2 s.wtail s.cap }
      (q ++ [p]) := by
  have hlt := h.holds.w_lt
  refine ⟨h.pow, by simpa using h.size, ?_⟩
  have happ := h.holds.append (x := [p]) (by rw [h.size, List.length_singleton]; omega) hlt
  rwa [splice_singleton hlt, List.length_singleton, h.size, ← h.increset2] at happ

theorem ringRun_full (h : s.Rep q) (hhead : s.whead = s.wtail) (p : α) (single : Bool)
    (hfull : ¬ q.length < s.cap - 1) {n : ℕ} (hn : 2 ≤ n) :
    ringRun n s (.getHead p single) = some (s, .full) := by
  obtain ⟨m, rfl⟩ : ∃ m, n = m + 2 := ⟨n - 2, by omega⟩
  simp [ringRun, ringStep, hhead, h.full_iff.mpr hfull]

/-- `ffring_write` where no reserved slot is left behind. -/
theorem ringCall_write (h : s.Rep q) (hhead : s.whead = s.wtail) (p : α) {n : ℕ} (hn : 6 ≤ n) :
    ∃ s', ringCall n s (.write p) = some (s', (queueNext s.cap q (.write p)).2) ∧
      s'.Rep (queueNext s.cap q (.write p)).1 ∧ s'.cap = s.cap := by
  by_cases hroom : q.length < s.cap - 1
  · have hfree : ¬ ffintIncreset2 s.wtail s.cap = s.r := fun hf => h.full_iff.mp hf hroom
    have hlt := h.holds.w_lt
    simp only [queueNext, if_pos hroom]
    refine ⟨_, ?_, h.write p hroom (ffintIncreset2 s.wtail s.cap), rfl⟩
    obtain ⟨m, rfl⟩ : ∃ m, n = m + 6 := ⟨n - 6, by omega⟩
    simp [ringCall, RingOp.start, ringRun, ringStep, hhead, hfree, hlt]
  · simp only [queueNext, if_neg hroom]
    exact ⟨s, ringRun_full h hhead p false hroom (by omega), h, rfl⟩

/-- `ffring_write_excl` where no reserved slot is left behind. -/
theorem ringCall_writeExcl (h : s.Rep q) (hhead : s.whead = s.wtail) (p : α) {n : ℕ}
    (hn : 6 ≤ n) :
    ∃ s', ringCall n s (.writeExcl p) = some (s', (queueNext s.cap q (.writeExcl p)).2) ∧
      s'.Rep (queueNext s.cap q (.writeExcl p)).1 ∧ s'.cap = s.cap := by
  by_cases hroom : q.length < s.cap - 1
  · have hfree : ¬ ffintIncreset2 s.wtail s.cap = s.r := fun hf => h.full_iff.mp hf hroom
    have hlt := h.holds.w_lt
    simp only [queueNext, if_pos hroom]
    refine ⟨_, ?_, h.write p hroom s.whead, rfl⟩
    obtain ⟨m, rfl⟩ : ∃ m, n = m + 6 := ⟨n - 6, by omega⟩
    simp [ringCall, RingOp.start, ringRun, ringStep, hhead, hfree, hlt]
  · simp only [queueNext, if_neg hroom]
    exact ⟨s, ringRun_full h hhead p true hroom (by omega), h, rfl⟩

/-- `ffring_read`. -/
theorem ringCall_read (h : s.Rep q) {n : ℕ} (hn : 6 ≤ n) :
    ∃ s', ringCall n s .read = some (s', (queueNext s.cap q .read).2) ∧
      s'.Rep (queueNext s.cap q .read).1 ∧ s'.cap = s.cap := by
  obtain ⟨m, rfl⟩ : ∃ m, n = m + 6 := ⟨n - 6, by omega⟩
  cases q with
  | nil =>
    have hempty : s.r = s.wtail := h.holds.eq_nil_iff.mpr rfl
    refine ⟨s, ?_, h, rfl⟩
    simp [ringCall, RingOp.start, ringRun, ringStep, hempty, queueNext]
  | cons x q =>
    have hsome : ¬ s.r = s.wtail := fun he => by simpa using h.holds.eq_nil_iff.mp he
    have hx := h.holds.head (x := x) rfl
    refine ⟨{ s with r := ffintIncreset2 s.r s.cap }, ?_, ⟨h.pow, h.size, ?_⟩, rfl⟩
    · simp [ringCall, RingOp.start, ringRun, ringStep, hsome, hx, queueNext]
    · have hcons := h.holds.consume (n := 1) (by simp)
      rwa [h.size, ← h.increset2] at hcons

/-! ### Sequences of calls -/

/-- **A call is one of the queue.** -/
theorem ringCall_simulates (cap : ℕ) {n : ℕ} (hn : 6 ≤ n) :
    Simulates (queueNext (α := α) cap) (ringCall n) ringLegal (fun q s => s.Rep q ∧ s.cap = cap) := by
  rintro q s op ⟨h, rfl⟩ hlegal
  cases op with
  | write p =>
    obtain ⟨s', he, h', hc⟩ := ringCall_write h hlegal p hn
    exact ⟨s', he, h', hc⟩
  | writeExcl p =>
    obtain ⟨s', he, h', hc⟩ := ringCall_writeExcl h hlegal p hn
    exact ⟨s', he, h', hc⟩
  | read =>
    obtain ⟨s', he, h', hc⟩ := ringCall_read h hn
    exact ⟨s', he, h', hc⟩

theorem ffringCreate_rep {k : ℕ} (hk : k < 64) {d : List α} (hd : d.length = 2 ^ k) :
    ∃ s, ffringCreate d (2 ^ k) = some s ∧ s.Rep [] ∧ s.cap = 2 ^ k := by
  have hmask : 0 = 2 ^ k &&& (2 ^ k - 1) := by
    rw [Nat.and_two_pow_sub_one_eq_mod, Nat.mod_self]
  have hpos : 0 < d.length := hd ▸ Nat.two_pow_pos k
  exact ⟨_, if_pos hmask, ⟨⟨k, hk, rfl⟩, hd, ⟨hpos, (Nat.zero_mod _).symm, hpos, rfl⟩⟩, rfl⟩

end Sequential

/-- **Every sequence of calls behaves as on a queue** of at most `cap - 1` elements, and every
call ends, where a write is made only while `whead` is equal to `wtail`. -/
theorem ffring_sequential {α : Type*} {k n : ℕ} (hk : k < 64) (hn : 6 ≤ n) {d : List α}
    (hd : d.length = 2 ^ k) {s : Ffring α} (hs : ffringCreate d (2 ^ k) = some s)
    {o : List (RingOp α)}
    (hlegal : LegalRun (queueNext (2 ^ k)) (ringCall n) ringLegal [] s o) :
    ∃ s', runs (ringCall n) s o = some (s', (specRuns (queueNext (2 ^ k)) [] o).2) := by
  obtain ⟨s₀, hs₀, h₀⟩ := ffringCreate_rep hk hd
  obtain rfl := Option.some.inj (hs₀.symm.trans hs)
  obtain ⟨s', he, -⟩ := (ringCall_simulates (2 ^ k) hn).runs h₀ hlegal
  exact ⟨s', he⟩

/-- Writes until the ring is full, with an exclusive write as the last one, and reads. -/
theorem ffring_sequential_example :
    ∃ s', runs (ringCall 6) ⟨[0, 0, 0, 0], 4, 0, 0, 0⟩
      [.write 1, .write 2, .read, .write 3, .writeExcl 4, .read, .read, .read, .read] =
      some (s', [.written, .written, .value 1, .written, .written, .value 2, .value 3,
        .value 4, .empty]) := by
  have h := ffring_sequential (k := 2) (n := 6) (by decide) (by decide) (d := [0, 0, 0, 0]) rfl rfl
    (o := [.write 1, .write 2, .read, .write 3, .writeExcl 4, .read, .read, .read, .read])
    (by simp [LegalRun, ringLegal, ringCall, RingOp.start, ringRun, ringStep, ffintIncreset2,
      SIZE_BOUND])
  exact h

theorem ringRun_waitTail {α : Type*} {s : Ffring α} {headOld : ℕ} (h : s.wtail ≠ headOld)
    (n : ℕ) : ringRun n s (.waitTail headOld) = none := by
  induction n with
  | zero => rfl
  | succ n ih => simp [ringRun, ringStep, h, ih]

/-- **A write after an exclusive write does not end**, where the queue has room. -/
theorem ringRun_after_excl (n : ℕ) :
    runs (ringCall n) ⟨[0, 0, 0, 0], 4, 0, 0, 0⟩ [.writeExcl 1, .write 2] = none := by
  rcases Nat.lt_or_ge n 4 with hn | hn
  · interval_cases n <;> rfl
  obtain ⟨m, rfl⟩ : ∃ m, n = m + 4 := ⟨n - 4, by omega⟩
  have hexcl : ringCall (m + 4) ⟨[0, 0, 0, 0], 4, 0, 0, 0⟩ (.writeExcl 1) =
      some (⟨[1, 0, 0, 0], 4, 0, 1, 0⟩, .written) := by
    simp [ringCall, RingOp.start, ringRun, ringStep, ffintIncreset2, SIZE_BOUND]
  have hwrite : ringCall (m + 4) ⟨[1, 0, 0, 0], 4, 0, 1, 0⟩ (.write 2) =
      ringRun m ⟨[2, 0, 0, 0], 4, 1, 1, 0⟩ (.waitTail 0) := by
    simp [ringCall, RingOp.start, ringRun, ringStep, ffintIncreset2, SIZE_BOUND]
  simp [runs, hexcl, hwrite, ringRun_waitTail]

/-- On an empty ring of four slots, a queue takes both elements. -/
theorem ffring_excl_hangs :
    ¬ ∀ o : List (RingOp ℕ), ∃ n s', runs (ringCall n) ⟨[0, 0, 0, 0], 4, 0, 0, 0⟩ o =
      some (s', (specRuns (queueNext 4) [] o).2) := by
  intro hall
  obtain ⟨n, s', he⟩ := hall [.writeExcl 1, .write 2]
  rw [ringRun_after_excl] at he
  cases he

end FF
