import FF.Adts.Sync

/-!
# A stream of ADTS frames

Junk without a header, and then frames (`AdtsStream`), in pieces of any size that are long at the
start (`LongFrom`). `AdtsPhase` is where the reader is in the stream, and what it has still to
return; each call returns the first of it, or uses up its input (`AdtsServes`).
-/

namespace FF

open List Option

/-! ### Frames -/

/-- A frame: its header says how long it is. -/
structure AdtsFrame where
  bytes : List UInt8
  hdr : AdtsHdr
  header : AdtsHeader bytes hdr
  length : bytes.length = hdr.frlen

/-- The bytes of frames. -/
def framesBytes (fs : List AdtsFrame) : List UInt8 := fs.flatMap AdtsFrame.bytes

/-- **A stream**: junk in which no header begins, and two or more frames with the same constant
fields. -/
structure AdtsStream where
  junk : List UInt8
  first : AdtsFrame
  rest : List AdtsFrame
  more : rest ≠ []
  same : ∀ f ∈ rest, adtsHdrCmp first.bytes f.bytes = false
  noHeader : NoHeader junk (framesBytes (first :: rest))

/-- The frames of a stream. -/
def AdtsStream.frames (st : AdtsStream) : List AdtsFrame := st.first :: st.rest

/-- The bytes of a stream. -/
def AdtsStream.bytes (st : AdtsStream) : List UInt8 := st.junk ++ framesBytes st.frames

/-- What is to be returned for a frame: all of it, or what follows its header. -/
def frameOut (wholeframe : Bool) (f : AdtsFrame) : AdtsR × List UInt8 :=
  if wholeframe then (.rframe, f.bytes) else (.rdata, f.bytes.drop (if f.hdr.haveCrc then 9 else 7))

/-- What is to be returned for a stream: the header information, and the frames. -/
def streamOut (st : AdtsStream) (wholeframe : Bool) : List (AdtsR × List UInt8) :=
  (.rhdr, adtsMkMp4asc st.first.hdr) :: st.frames.map (frameOut wholeframe)

/-- **The reader in a stream**, with the pieces of input that follow, and what is still to be
returned. -/
inductive AdtsPhase (st : AdtsStream) (a : Adts) (ds : List (List UInt8)) :
    List (AdtsR × List UInt8) → Prop
  | sync (j : List UInt8) (hst : a.state = .init ∨ a.state = .hdrSync)
      (h : a.Syncs j (framesBytes st.frames) ds) (hrate : a.sampleRate = 0)
      (hfirst : a.firsthdr.take 4 = [0, 0, 0, 0]) :
      AdtsPhase st a ds (streamOut st a.wholeframe)
  | sync2 (u : List UInt8) (h : a.Gathers .hdrSync2 (st.first.hdr.frlen + ADTS_HDRLEN) u)
      (heq : u ++ ds.flatten = framesBytes st.frames) (hrate : a.sampleRate = 0)
      (hfrlen : a.frlen = st.first.hdr.frlen) : AdtsPhase st a ds (streamOut st a.wholeframe)
  | first (u : List UInt8) (h : a.Gathers .hdr ADTS_HDRLEN u)
      (heq : u ++ ds.flatten = framesBytes st.frames) (hrate : a.sampleRate = 0) :
      AdtsPhase st a ds (streamOut st a.wholeframe)
  | hdr (u : List UInt8) (fs : List AdtsFrame) (h : a.Gathers .hdr ADTS_HDRLEN u)
      (heq : u ++ ds.flatten = framesBytes fs)
      (hsame : ∀ f ∈ fs, adtsHdrCmp st.first.bytes f.bytes = false) (hrate : a.sampleRate ≠ 0)
      (hfirst : a.firsthdr = st.first.bytes.take ADTS_HDRLEN) :
      AdtsPhase st a ds (fs.map (frameOut a.wholeframe))
  | body (u : List UInt8) (f : AdtsFrame) (fs : List AdtsFrame) (hwhole : a.wholeframe = false)
      (h : a.Gathers (if f.hdr.haveCrc then .crc else .data) (f.hdr.frlen - ADTS_HDRLEN) u)
      (heq : u ++ ds.flatten = f.bytes.drop ADTS_HDRLEN ++ framesBytes fs)
      (hsame : ∀ f ∈ fs, adtsHdrCmp st.first.bytes f.bytes = false) (hrate : a.sampleRate ≠ 0)
      (hfirst : a.firsthdr = st.first.bytes.take ADTS_HDRLEN) :
      AdtsPhase st a ds (frameOut a.wholeframe f :: fs.map (frameOut a.wholeframe))
  | whole (u : List UInt8) (f : AdtsFrame) (fs : List AdtsFrame) (hwhole : a.wholeframe = true)
      (h : a.Gathers .fr f.hdr.frlen u) (heq : u ++ ds.flatten = f.bytes ++ framesBytes fs)
      (hsame : ∀ f ∈ fs, adtsHdrCmp st.first.bytes f.bytes = false) (hrate : a.sampleRate ≠ 0)
      (hfirst : a.firsthdr = st.first.bytes.take ADTS_HDRLEN) :
      AdtsPhase st a ds (frameOut a.wholeframe f :: fs.map (frameOut a.wholeframe))

/-- **A call returns what is next**, or needs more input, all of which is used up. -/
def AdtsServes (st : AdtsStream) (a : Adts) (ds : List (List UInt8))
    (exp : List (AdtsR × List UInt8)) : Prop :=
  ∃ a' r, AdtsReturns a a' r ∧ a'.fin = false ∧
    ((r = .rmore ∧ a'.inp = [] ∧ (a'.state = .hdrSync ∨ a'.state = .gather) ∧
        AdtsPhase st a' ds exp ∧ (ds.flatten = [] → exp = [])) ∨
      (r ≠ .rmore ∧ r ≠ .rdone ∧ ∃ exp', exp = (r, a'.out) :: exp' ∧ AdtsPhase st a' ds exp'))

section Serve

variable {st : AdtsStream} {a a₁ : Adts} {ds : List (List UInt8)} {nx : AdtsSt} {len : ℕ}
  {u : List UInt8} {exp : List (AdtsR × List UInt8)} {f : AdtsFrame} {fs : List AdtsFrame}

theorem AdtsServes.step (h : AdtsSteps a a₁ none) (h' : AdtsServes st a₁ ds exp) :
    AdtsServes st a ds exp := by
  obtain ⟨a', r, hret, hrest⟩ := h'
  exact ⟨a', r, hret.step h, hrest⟩

end Serve

/-! ### The whole stream -/

/-- The reader waits for input. -/
structure AdtsWaits (st : AdtsStream) (a : Adts) (ds : List (List UInt8))
    (exp : List (AdtsR × List UInt8)) : Prop where
  fin : a.fin = false
  inp : a.inp = []
  state : a.state = .init ∨ a.state = .hdrSync ∨ a.state = .gather
  phase : AdtsPhase st a ds exp
  done : ds.flatten = [] → exp = []

section Run

variable {st : AdtsStream} {a : Adts} {ds : List (List UInt8)}
  {exp : List (AdtsR × List UInt8)}

theorem AdtsWaits.piece {d : List UInt8} (h : AdtsWaits st a (d :: ds) exp) :
    AdtsPhase st { a with piece := d, pos := 0 } ds exp := by
  obtain ⟨-, hinp, hst, hphase, -⟩ := h
  have hgath : ∀ nx len u, a.Gathers nx len u →
      ({ a with piece := d, pos := 0 } : Adts).Gathers nx len (u ++ d) := by
    rintro nx len u ⟨hnx, hlen, ⟨hst', -, hu⟩ | ⟨hst', -⟩⟩
    · refine ⟨hnx, hlen, .inl ⟨hst', Nat.zero_le _, ?_⟩⟩
      rw [hinp, append_nil] at hu
      rw [← hu]
      rfl
    · rw [hst'] at hst
      rcases hst with h | h | h <;> cases h
  have heq : ∀ u v : List UInt8, u ++ (d :: ds).flatten = v → u ++ d ++ ds.flatten = v := by
    intro u v h
    rwa [append_assoc]
  cases hphase with
  | sync j hst h hrate hfirst =>
    refine AdtsPhase.sync (a := { a with piece := d, pos := 0 }) j hst ?_ hrate hfirst
    obtain ⟨heq', hnone, -, hbuf, -, hnext, hlong⟩ := h
    rw [hinp, length_nil, Nat.add_zero] at hnext hlong
    rw [hinp, append_nil] at heq'
    refine ⟨heq _ _ heq', hnone, Nat.zero_le _, hbuf, ?_, hlong⟩
    rcases hnext with h0 | h0 | h0
    · exact .inl (length_eq_zero_iff.mp h0)
    · exact .inr (.inl h0)
    · exact .inr (.inr h0)
  | sync2 u h he hrate hfrlen =>
    exact AdtsPhase.sync2 (a := { a with piece := d, pos := 0 }) _ (hgath _ _ _ h) (heq _ _ he)
      hrate hfrlen
  | first u h he hrate =>
    exact AdtsPhase.first (a := { a with piece := d, pos := 0 }) _ (hgath _ _ _ h) (heq _ _ he)
      hrate
  | hdr u fs h he hsame hrate hfirst =>
    exact AdtsPhase.hdr (a := { a with piece := d, pos := 0 }) _ fs (hgath _ _ _ h) (heq _ _ he)
      hsame hrate hfirst
  | body u f fs hwhole h he hsame hrate hfirst =>
    exact AdtsPhase.body (a := { a with piece := d, pos := 0 }) _ f fs hwhole (hgath _ _ _ h)
      (heq _ _ he) hsame hrate hfirst
  | whole u f fs hwhole h he hsame hrate hfirst =>
    exact AdtsPhase.whole (a := { a with piece := d, pos := 0 }) _ f fs hwhole (hgath _ _ _ h)
      (heq _ _ he) hsame hrate hfirst

/-- **The end of the input.** -/
theorem AdtsWaits.last (h : AdtsWaits st a [] exp) :
    exp = [] ∧ ∃ k, ∀ fuel, k ≤ fuel →
      (adtsCalls fuel fuel { a with piece := [], pos := 0, fin := true }).map Prod.snd =
        some [(.rdone, [])] := by
  obtain ⟨-, hinp, hst, hphase, hdone⟩ := h
  obtain rfl := hdone rfl
  refine ⟨rfl, ?_⟩
  have hgath : a.Gathers .hdr ADTS_HDRLEN [] := by
    generalize hexp : ([] : List (AdtsR × List UInt8)) = exp at hphase
    cases hphase with
    | hdr u fs h heq =>
      obtain rfl := map_eq_nil_iff.mp hexp.symm
      obtain rfl : u = [] := (append_eq_nil_iff.mp heq).1
      exact h
    | sync => cases hexp
    | sync2 => cases hexp
    | first => cases hexp
    | body => cases hexp
    | whole => cases hexp
  obtain ⟨hnx, hlen, ⟨hst', -, hu⟩ | ⟨hst', -⟩⟩ := hgath
  · obtain ⟨hbuf, -⟩ := append_eq_nil_iff.mp hu
    have hlast : ({ a with piece := [], pos := 0, fin := true } : Adts).Gathers .hdr ADTS_HDRLEN [] :=
      ⟨hnx, hlen, .inl ⟨hst', Nat.le_refl _, congrArg (· ++ []) hbuf⟩⟩
    obtain ⟨a', hsteps, -⟩ := adtsGather_few hlast hst' (by decide)
    obtain ⟨k, hk⟩ := AdtsReturns.now hsteps
    refine ⟨k + 1, fun fuel hf => ?_⟩
    obtain ⟨n, rfl⟩ : ∃ m, fuel = m + 1 := ⟨fuel - 1, by omega⟩
    rw [adtsCalls, hk (n + 1) (by omega)]
    rfl
  · rw [hst'] at hst
    rcases hst with h | h | h <;> cases h

end Run

end FF
