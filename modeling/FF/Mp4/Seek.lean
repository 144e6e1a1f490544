import FF.Mp4.Tables
import Mathlib.Tactic.Linarith

/-!
# Runs of samples and chunks

The tables of an MP4 file are runs: so many samples with the same duration, so many chunks with the
same number of samples. What they say of a sample is a sum (`posOf`) or the chunk of a run
(`chunkOf`). The program expands the runs with 32-bit counters.
-/

namespace FF

open List Option

/-! ### Runs of writes -/

section FillRun

variable {α : Type*} {f : ℕ → α → α} {sk : List α} {isk n : ℕ}

end FillRun

/-- The value of an attribute in a table. -/
def attr {α β : Type*} (g : α → β) (sk : List α) (j : ℕ) : Option β := sk[j]?.map g

/-- The comparison of a counter of 32 bits with `n` rejects what is above `n`. -/
def Cmp32 (n m : ℕ) : Prop := n < m → n < m % 2 ^ 32

/-- The position of a sample: the sum of the durations of those in front of it. -/
def posOf (ents : List (ℕ × ℕ)) (j : ℕ) : ℕ :=
  ((ents.flatMap fun p => List.replicate p.1 p.2).take j).sum

section Stts

variable {n isk pos : ℕ} {sk : List Seekpt} {nsamps delt : ℕ} {ents : List (ℕ × ℕ)}

end Stts

/-! ### Chunks -/

/-- The chunk of a sample, from 0 on: each run has its chunks up to the first one of the next, and
the last run goes on. -/
def chunkOf : List (ℕ × ℕ) → ℕ → ℕ
  | [], _ => 0
  | [(first, nsamps)], j => first - 1 + j / nsamps
  | (first, nsamps) :: (next, m) :: ents, j =>
    if j < (next - first) * nsamps then first - 1 + j / nsamps
    else chunkOf ((next, m) :: ents) (j - (next - first) * nsamps)

/-- In the last loop no comparison wraps around, and it ends. -/
def LastOk (n nsamps isk : ℕ) : Prop :=
  (nsamps = 0 → isk = n) ∧
    ∀ t, isk + t * nsamps ≤ n → (t ≠ 0 → isk + t * nsamps ≠ n) →
      Cmp32 n (isk + (t + 1) * nsamps)

section Stsc

variable {n nsamps ich isk : ℕ} {sk sk' : List Seekpt}

/-- The table gets no other positions and sizes. -/
def SameSamples (sk sk' : List Seekpt) : Prop :=
  ∀ j, attr Seekpt.audioPos sk' j = attr Seekpt.audioPos sk j ∧
    attr Seekpt.size sk' j = attr Seekpt.size sk j

theorem SameSamples.trans {sk₁ sk₂ : List Seekpt} (h : SameSamples sk sk₁)
    (h' : SameSamples sk₁ sk₂) : SameSamples sk sk₂ :=
  fun j => ⟨(h' j).1.trans (h j).1, (h' j).2.trans (h j).2⟩

/-- What `LastOk` says behind a round. -/
theorem LastOk.next (hpos : 0 < nsamps) (hlt : isk + nsamps < n) :
    LastOk n nsamps isk ↔ LastOk n nsamps (isk + nsamps) := by
  have hidx : ∀ t, isk + (t + 1) * nsamps = isk + nsamps + t * nsamps := by
    intro t
    rw [Nat.succ_mul]
    omega
  constructor
  · rintro ⟨-, h⟩
    refine ⟨fun h0 => absurd h0 (Nat.ne_of_gt hpos), fun t hle hne => ?_⟩
    rw [← hidx (t + 1)]
    refine h (t + 1) (by rwa [hidx]) fun _ => ?_
    rw [hidx]
    by_cases ht : t = 0
    · subst ht
      omega
    · exact hne ht
  rintro ⟨-, h⟩
  refine ⟨fun h0 => absurd h0 (Nat.ne_of_gt hpos), fun t hle hne => ?_⟩
  cases t with
  | zero => exact fun hlt' => absurd hlt' (by omega)
  | succ t =>
    rw [hidx (t + 1)]
    exact h t (by rwa [← hidx]) fun _ => by
      rw [← hidx]
      exact hne (Nat.succ_ne_zero t)

section Loop

variable {first : ℕ} {ents : List (ℕ × ℕ)}

end Loop

end Stsc

/-! ### `mp4_data` -/

/-- The bytes of the samples in front of a sample, in its chunk. -/
def precBytes (ch size : ℕ → ℕ) (c i : ℕ) : ℕ :=
  ((List.range i).map fun k => if ch k = c then size k else 0).sum

end FF
