import FF.Lib.Refine
import Mathlib.Data.List.Basic

/-!
# Readers that take many bytes at once

What an input means is given by a machine that sees one byte at a time (`serial`). A reader takes
as many bytes of its chunk as it likes in a call, and is called again until the chunk is used up
(`feed`). `Reads` says that a call does what the machine does with the bytes that it took.
-/

namespace FF

open List Option

section Definitions

variable {S P β E R : Type}

/-- The machine on an input: the last state, and the events. -/
def serial (step : S → β → S × List E) : S → List β → S × List E
  | s, [] => (s, [])
  | s, c :: cs => ((serial step (step s c).1 cs).1, (step s c).2 ++ (serial step (step s c).1 cs).2)

/-- The calls with a chunk, until it is used up: the results. -/
def feed (call : P → List β → Option (P × R × List β)) : ℕ → P → List β → Option (P × List R)
  | _, p, [] => some (p, [])
  | 0, _, _ :: _ => none
  | n + 1, p, c :: cs => do
      let (p, r, rest) ← call p (c :: cs)
      let (p, rs) ← feed call n p rest
      some (p, r :: rs)

/-- The calls with chunks one after another. -/
def feeds (call : P → List β → Option (P × R × List β)) : P → List (List β) → Option (P × List R)
  | p, [] => some (p, [])
  | p, d :: ds => do
      let (p, rs) ← feed call d.length p d
      let (p, rs') ← feeds call p ds
      some (p, rs ++ rs')

/-- **A call does what the machine does with the bytes that it takes**, and takes some. -/
def Reads (step : S → β → S × List E) (call : P → List β → Option (P × R × List β))
    (ev : R → List E) (rel : P → S → Prop) : Prop :=
  ∀ p s d, rel p s → d ≠ [] → ∃ p' r taken rest, call p d = some (p', r, rest) ∧
    d = taken ++ rest ∧ taken ≠ [] ∧ rel p' (serial step s taken).1 ∧
    ev r = (serial step s taken).2

end Definitions

section Serial

variable {S P β E R : Type} {step : S → β → S × List E}

theorem serial_append (s : S) (l m : List β) :
    serial step s (l ++ m) = ((serial step (serial step s l).1 m).1,
      (serial step s l).2 ++ (serial step (serial step s l).1 m).2) := by
  induction l generalizing s with
  | nil => rfl
  | cons c l ih => simp only [cons_append, serial, ih, append_assoc]

variable {call : P → List β → Option (P × R × List β)} {ev : R → List E} {rel : P → S → Prop}

/-- The calls with a chunk. -/
theorem Reads.feed_eq (h : Reads step call ev rel) {n : ℕ} {p : P} {s : S} {d : List β}
    (hrel : rel p s) (hn : d.length ≤ n) :
    ∃ p' rs, feed call n p d = some (p', rs) ∧ rel p' (serial step s d).1 ∧
      rs.flatMap ev = (serial step s d).2 := by
  induction n generalizing p s d with
  | zero =>
    obtain rfl : d = [] := length_eq_zero_iff.mp (by omega)
    exact ⟨p, [], rfl, hrel, rfl⟩
  | succ n ih =>
    cases d with
    | nil => exact ⟨p, [], rfl, hrel, rfl⟩
    | cons c cs =>
      obtain ⟨p', r, taken, rest, hcall, hd, hne, hrel', hev⟩ := h p s (c :: cs) hrel (by simp)
      have hlen : (c :: cs).length = taken.length + rest.length := by
        rw [hd, length_append]
      have hpos := length_pos_iff.mpr hne
      obtain ⟨p'', rs, hfeed, hrel'', hevs⟩ := ih hrel' (d := rest) (by omega)
      refine ⟨p'', r :: rs, ?_, ?_, ?_⟩
      · simp only [feed, hcall, bind_eq_bind, bind_some, hfeed]
      · rw [hd, serial_append]
        exact hrel''
      · rw [hd, serial_append, flatMap_cons, hev, hevs]

/-- **A reader gives the events of the machine**, however the input was divided. -/
theorem Reads.feeds_eq (h : Reads step call ev rel) {p : P} {s : S} (ds : List (List β))
    (hrel : rel p s) :
    ∃ p' rs, feeds call p ds = some (p', rs) ∧ rel p' (serial step s ds.flatten).1 ∧
      rs.flatMap ev = (serial step s ds.flatten).2 := by
  induction ds generalizing p s with
  | nil => exact ⟨p, [], rfl, hrel, rfl⟩
  | cons d ds ih =>
    obtain ⟨p', rs, hfeed, hrel', hev⟩ := h.feed_eq hrel (Nat.le_refl d.length)
    obtain ⟨p'', rs', hfeeds, hrel'', hev'⟩ := ih hrel'
    refine ⟨p'', rs ++ rs', ?_, ?_, ?_⟩
    · simp only [feeds, hfeed, bind_eq_bind, bind_some, hfeeds]
    · rw [flatten_cons, serial_append]
      exact hrel''
    · rw [flatten_cons, serial_append, flatMap_append, hev, hev']

end Serial

end FF
