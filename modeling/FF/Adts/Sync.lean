import FF.Adts.Read
import Mathlib.Tactic.Linarith

/-!
# Gathering and synchronisation

Whatever the place of the bytes is (in the input, in the buffer, in both), the ADTS reader goes on
with the bytes that it has not yet used (`Adts.Unread`), in front of those that it has gathered or
behind them.

`ffbuf_contig` copies a short piece into the buffer without reporting it, and the reader, which looks
for the first header, gets its bytes again. This needs a piece with which there are less than 7 bytes
together with the first one (`LongFrom`).
-/

namespace FF

open List Option

/-! ### Calls -/

/-- A call returns, with enough fuel. -/
def AdtsReturns (a a' : Adts) (r : AdtsR) : Prop :=
  ∃ k, ∀ n, k ≤ n → ffaacAdtsRead n a = some (a', r)

/-- A round of the loop, with enough fuel. -/
def AdtsSteps (a a' : Adts) (r : Option AdtsR) : Prop :=
  ∃ k, ∀ n, k ≤ n → adtsStep n a = some (a', r)

section Calls

variable {a a₁ a' : Adts} {r : AdtsR}

theorem AdtsReturns.now (h : AdtsSteps a a' (some r)) : AdtsReturns a a' r := by
  obtain ⟨k, h⟩ := h
  refine ⟨k + 1, fun n hn => ?_⟩
  obtain ⟨n, rfl⟩ : ∃ m, n = m + 1 := ⟨n - 1, by omega⟩
  rw [ffaacAdtsRead, h n (by omega)]

theorem AdtsReturns.step (h : AdtsSteps a a₁ none) (h' : AdtsReturns a₁ a' r) :
    AdtsReturns a a' r := by
  obtain ⟨k, h⟩ := h
  obtain ⟨k', h'⟩ := h'
  refine ⟨k + k' + 1, fun n hn => ?_⟩
  obtain ⟨n, rfl⟩ : ∃ m, n = m + 1 := ⟨n - 1, by omega⟩
  rw [ffaacAdtsRead, h n (by omega)]
  exact h' n (by omega)

end Calls

theorem AdtsSteps.of_eq {a a' : Adts} {r : Option AdtsR} (h : ∀ n, adtsStep n a = some (a', r)) :
    AdtsSteps a a' r :=
  ⟨0, fun n _ => h n⟩

/-! ### Gathering -/

/-- What a round does not change. -/
def Adts.SameCtx (a a' : Adts) : Prop :=
  a'.fin = a.fin ∧ a'.wholeframe = a.wholeframe ∧ a'.sampleRate = a.sampleRate ∧
    a'.firsthdr = a.firsthdr ∧ a'.frlen = a.frlen

theorem Adts.SameCtx.trans {a a₁ a' : Adts} (h : a.SameCtx a₁) (h' : a₁.SameCtx a') :
    a.SameCtx a' := by
  obtain ⟨h1, h2, h3, h4, h5⟩ := h
  obtain ⟨h1', h2', h3', h4', h5'⟩ := h'
  exact ⟨h1'.trans h1, h2'.trans h2, h3'.trans h3, h4'.trans h4, h5'.trans h5⟩

/-- The bytes that are not used, for a reader that is gathering. -/
def Adts.Unread (a : Adts) (u : List UInt8) : Prop :=
  (a.state = .gather ∧ a.pos ≤ a.piece.length ∧ a.buf ++ a.inp = u) ∨
    (a.state = .gatherShift ∧ ∃ a', adtsShift a a.shift = some a' ∧ a'.pos ≤ a'.piece.length ∧
      a'.buf ++ a'.inp = u)

/-- The reader gathers bytes for a state. -/
def Adts.Gathers (a : Adts) (nx : AdtsSt) (len : ℕ) (u : List UInt8) : Prop :=
  a.nxstate = nx ∧ a.gathlen = len ∧ a.Unread u

/-- The first bytes that are not used have been gathered, and are still there. -/
def Adts.Held (a : Adts) (len : ℕ) (u : List UInt8) : Prop :=
  a.s = u.take len ∧ len ≤ u.length ∧ a.gathlen = len ∧ a.pos ≤ a.piece.length ∧
    ((a.buf = [] ∧ len ≤ a.pos ∧ a.piece.drop (a.pos - len) = u ∧ a.shift = 0) ∨
      (a.buf ≠ [] ∧ len ≤ a.buf.length ∧ a.buf ++ a.inp = u ∧ a.shift = len))

section Gather

variable {a : Adts} {nx : AdtsSt} {len : ℕ} {u : List UInt8}

theorem Adts.Gathers.start (h : a.Gathers nx len u) :
    a.state = .gather ∨ ∃ a', AdtsSteps a a' none ∧ a'.state = .gather ∧ a'.Gathers nx len u ∧
      a.SameCtx a' := by
  obtain ⟨hnx, hlen, ⟨hst, -, -⟩ | ⟨hst, a', hs, hpos, hu⟩⟩ := h
  · exact .inl hst
  refine .inr ⟨{ a' with state := .gather }, .of_eq fun n => ?_, rfl, ?_⟩
  · rw [adtsStep, hst]
    rw [hs, map_some]
  have hsame : a'.nxstate = a.nxstate ∧ a'.gathlen = a.gathlen ∧ a.SameCtx a' := by
    rw [adtsShift] at hs
    repeat' split at hs
    all_goals cases hs
    all_goals exact ⟨rfl, rfl, rfl, rfl, rfl, rfl, rfl⟩
  exact ⟨⟨hsame.1.trans hnx, hsame.2.1.trans hlen, .inl ⟨rfl, hpos, hu⟩⟩, hsame.2.2⟩

/-- **Few bytes**: all of the input is taken. -/
theorem adtsGather_few (h : a.Gathers nx len u) (hst : a.state = .gather) (hfew : u.length < len) :
    ∃ a', AdtsSteps a a' (some (if a.fin then .rdone else .rmore)) ∧ a'.state = .gather ∧
      a'.inp = [] ∧ a'.Gathers nx len u ∧ a.SameCtx a' := by
  obtain ⟨hnx, hlen, ⟨-, hpos, hu⟩ | ⟨hst', -⟩⟩ := h
  · have hg : ffarrGather2 a.buf a.inp a.gathlen = (u, a.inp.length, u) := by
      rw [ffarrGather2_few (by rw [hu, hlen]; exact hfew), hu]
    have hend : a.piece.drop (a.pos + a.inp.length) = [] := by
      rw [← drop_drop]
      exact drop_length
    have hinp : a.pos + a.inp.length = a.piece.length := by
      rw [Adts.inp, length_drop]
      omega
    have hnil : ({ a with buf := u, s := u }.took a.inp.length).inp = [] := hend
    refine ⟨{ a with buf := u, s := u }.took a.inp.length, AdtsSteps.of_eq fun n => ?_, hst, hnil,
      ⟨hnx, hlen, .inl ⟨hst, Nat.le_of_eq hinp, ?_⟩⟩, rfl, rfl, rfl, rfl, rfl⟩
    · have hstep : adtsStep n a = some (adtsGather a) := by simp only [adtsStep, hst]
      rw [hstep, adtsGather, hg]
      dsimp only
      rw [if_pos (hlen ▸ hfew)]
      by_cases hfin : a.fin = true
      · rw [if_pos ⟨hfin, hnil⟩, if_pos hfin]
      · rw [if_neg fun h => hfin h.1, if_neg hfin]
    · rw [hnil]
      exact append_nil u
  · rw [hst] at hst'
    cases hst'

theorem adtsShift_nat {n : ℕ} (hpos : a.pos ≤ a.piece.length) (hn : n ≤ (a.buf ++ a.inp).length)
    (hb : a.buf = [] ∨ n ≤ a.buf.length) :
    ∃ a', adtsShift a n = some a' ∧ a'.pos ≤ a'.piece.length ∧
      a'.buf ++ a'.inp = (a.buf ++ a.inp).drop n ∧ a.SameCtx a' := by
  rw [adtsShift]
  by_cases hnil : a.buf = []
  · have hlen : n ≤ a.inp.length := by rwa [hnil] at hn
    rw [Adts.inp, length_drop] at hlen
    refine ⟨{ a with pos := a.pos + n }, ?_, ?_, ?_, rfl, rfl, rfl, rfl, rfl⟩
    · have hsum : (a.pos : ℤ) + n = ((a.pos + n : ℕ) : ℤ) := by omega
      rw [if_neg (not_not.mpr hnil), hsum, if_neg (by omega), Int.toNat_natCast]
    · show a.pos + n ≤ a.piece.length
      omega
    · show a.buf ++ a.piece.drop (a.pos + n) = (a.buf ++ a.inp).drop n
      rw [hnil, Adts.inp, nil_append, nil_append, drop_drop]
  have hle := hb.resolve_left hnil
  rw [if_pos hnil]
  by_cases h0 : n = 0
  · subst h0
    exact ⟨a, if_neg (by decide), hpos, rfl, rfl, rfl, rfl, rfl, rfl⟩
  · refine ⟨{ a with buf := a.buf.drop n }, ?_, hpos, ?_, rfl, rfl, rfl, rfl, rfl⟩
    · rw [if_pos (by omega), Int.toNat_natCast, if_neg (Nat.not_lt.mpr hle)]
    · rw [drop_append_of_le_length hle]
      rfl

/-- **Going on** behind the bytes that were gathered. -/
theorem Adts.Held.next (h : a.Held len u) {a' : Adts} (hst : a'.state = .gatherShift)
    (hbuf : a'.buf = a.buf) (hpiece : a'.piece = a.piece) (hpos : a'.pos = a.pos)
    (hshift : a'.shift = a.shift) : a'.Unread (u.drop len) := by
  obtain ⟨-, hlen, -, hle, ⟨hb, hfit, hu, hs⟩ | ⟨hb, hfit, hu, hs⟩⟩ := h
  · have hinp : a'.inp = u.drop len := by
      rw [Adts.inp, hpiece, hpos, ← hu, drop_drop, Nat.sub_add_cancel hfit]
    rw [← hpiece, ← hpos] at hle
    obtain ⟨a₁, he, hle₁, hu₁, -⟩ := adtsShift_nat (n := 0) hle (Nat.zero_le _)
      (.inl (hbuf.trans hb))
    refine .inr ⟨hst, a₁, by rw [hshift, hs]; exact he, hle₁, ?_⟩
    rw [hu₁, drop_zero, hbuf, hb, hinp]
    rfl
  have hu' : a'.buf ++ a'.inp = u := by
    rw [← hu, Adts.inp, Adts.inp, hbuf, hpiece, hpos]
  rw [← hpiece, ← hpos] at hle
  rw [← hbuf] at hfit
  obtain ⟨a₁, he, hle₁, hu₁, -⟩ := adtsShift_nat (n := len) hle (by rw [hu']; exact hlen)
    (.inr hfit)
  exact .inr ⟨hst, a₁, by rw [hshift, hs]; exact he, hle₁, by rw [hu₁, hu']⟩

/-- **Going back** in front of the bytes that were gathered. -/
theorem Adts.Held.back (h : a.Held len u) {a' : Adts} (hst : a'.state = .gatherShift)
    (hbuf : a'.buf = a.buf) (hpiece : a'.piece = a.piece) (hpos : a'.pos = a.pos)
    (hshift : a'.shift = -len) : a'.Unread u := by
  obtain ⟨-, hlen, -, hle, ⟨hb, hfit, hu, -⟩ | ⟨hb, hfit, hu, -⟩⟩ := h
  · refine .inr ⟨hst, { a' with pos := a.pos - len }, ?_, ?_, ?_⟩
    · have hsub : (a.pos : ℤ) + -len = ((a.pos - len : ℕ) : ℤ) := by omega
      rw [adtsShift, hbuf, if_neg (not_not.mpr hb), hshift, hpos, hsub, Int.toNat_natCast, if_neg]
      rw [hpiece]
      omega
    · show a.pos - len ≤ a'.piece.length
      rw [hpiece]
      omega
    · show a'.buf ++ a'.piece.drop (a.pos - len) = u
      rw [hbuf, hb, hpiece, hu]
      rfl
  · refine .inr ⟨hst, a', ?_, by rw [hpos, hpiece]; exact hle, ?_⟩
    · rw [adtsShift, hbuf, if_pos hb, hshift, if_neg (by omega)]
    · rw [← hu, Adts.inp, Adts.inp, hbuf, hpiece, hpos]

end Gather

/-! ### Synchronisation -/

/-- **The pieces are long at the start**: with the first of them that is not empty, the next one
makes 7 bytes at least. -/
def LongFrom : ℕ → List (List UInt8) → Prop
  | _, [] => True
  | n, d :: ds => (n = 0 ∨ d = [] ∨ ADTS_HDRLEN ≤ n + d.length) ∧ LongFrom (n + d.length) ds

/-- No header begins in the bytes `j` in front of others. -/
def NoHeader (j f : List UInt8) : Prop :=
  ∀ i < j.length, ∀ h, ¬AdtsHeader ((j ++ f).drop i) h

/-- **The reader looks for the first header**: what it has not used is junk and frames. -/
structure Adts.Syncs (a : Adts) (j f : List UInt8) (ds : List (List UInt8)) : Prop where
  eq : a.buf ++ a.inp ++ ds.flatten = j ++ f
  none : NoHeader j f
  pos : a.pos ≤ a.piece.length
  buf : a.buf.length < ADTS_HDRLEN
  now : a.buf = [] ∨ a.inp = [] ∨ ADTS_HDRLEN ≤ a.buf.length + a.inp.length
  long : LongFrom (a.buf.length + a.inp.length) ds

section Sync

variable {a : Adts} {j f : List UInt8} {ds : List (List UInt8)} {hdr : AdtsHdr}

theorem NoHeader.drop {n : ℕ} (h : NoHeader j f) (hn : n ≤ j.length) : NoHeader (j.drop n) f := by
  intro i hi hdr hh
  rw [length_drop] at hi
  refine h (n + i) (by omega) hdr ?_
  rwa [← drop_append_of_le_length hn, drop_drop] at hh

end Sync

end FF
