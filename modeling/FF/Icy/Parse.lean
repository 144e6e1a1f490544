import FF.Lib.Serial
import Mathlib.Algebra.Order.Group.Nat

/-!
# ICY streams

`fficy_parse` of `FF/audio/fficy.c`: audio data with a block of metadata after every
`meta_interval` bytes. A block begins with a byte that gives its length in units of 16; a zero
says that there is no block.
-/

namespace FF

open List

/-! ### Program -/

/-- `FFICY_MAXMETA`. -/
def ffICY_MAXMETA : ℕ := 1 + 0xff * 16

/-- `FFICY_NOMETA`: the stream has no metadata. -/
def ffICY_NOMETA : ℕ := 2 ^ 32 - 1

/-- `enum FFICY_R`. -/
inductive FficyR
  | rmetachunk
  | rmeta
  | rdata
  deriving DecidableEq, Repr

/-- `fficy`; `meta` is the valid part of the gathered block, `meta_len` its length. -/
structure Fficy where
  metaInterval : ℕ
  datasize : ℕ
  metasize : ℕ
  gathered : List UInt8
  deriving DecidableEq, Repr

/-- What a call returns: the code, `dst` and the input that was not processed. -/
abbrev FficyReturn := Option (Fficy × (FficyR × List UInt8) × List UInt8)

/-- `fficy_parseinit`. -/
def fficyParseinit (metaInterval : ℕ) : Fficy := ⟨metaInterval, metaInterval, 0, []⟩

/-- `fficy_metasize`. -/
def fficyMetasize (nmeta : UInt8) : ℕ := nmeta.toNat * 16

/-- `fficy_parse`: a piece of audio data. -/
def fficyData (ic : Fficy) (d : List UInt8) : FficyReturn :=
  let dst := d.take ic.datasize
  let ic :=
    if ic.metaInterval ≠ ffICY_NOMETA then { ic with datasize := ic.datasize - dst.length } else ic
  some (ic, (.rdata, dst), d.drop dst.length)

/-- `fficy_parse`: behind the byte that gives the length of a block. -/
def fficyMeta (ic : Fficy) (d : List UInt8) : FficyReturn :=
  if ic.metasize = 0 then fficyData { ic with datasize := ic.metaInterval } d
  else
    let dst := d.take ic.metasize
    let rest := d.drop dst.length
    let ic := { ic with metasize := ic.metasize - dst.length }
    if ic.metasize ≠ 0 ∨ ic.gathered ≠ [] then
      if ic.gathered.length + dst.length > ffICY_MAXMETA then none
      else
        let ic := { ic with gathered := ic.gathered ++ dst }
        if ic.metasize = 0 then
          some ({ ic with datasize := ic.metaInterval }, (.rmeta, ic.gathered), rest)
        else some (ic, (.rmetachunk, dst), rest)
    else some ({ ic with datasize := ic.metaInterval }, (.rmeta, dst), rest)

/-- `fficy_parse`. -/
def fficyParse (ic : Fficy) (d : List UInt8) : FficyReturn :=
  if ic.datasize = 0 then
    if ic.metasize = 0 then
      match d with
      | [] => some (ic, (.rmetachunk, []), [])
      | c :: d => fficyMeta { ic with metasize := fficyMetasize c, gathered := [] } d
    else fficyMeta ic d
  else fficyData ic d

/-! ### Purpose -/

/-- What a stream carries. -/
inductive IcyEvent
  | audio (b : UInt8)
  | block (m : List UInt8)
  deriving DecidableEq, Repr

/-- The place in a stream. -/
inductive IcyState
  /-- Audio bytes are left before the next block. -/
  | audio (n : ℕ)
  /-- In front of the length of a block. -/
  | size
  /-- In a block: the bytes that are missing and those that were read. -/
  | block (n : ℕ) (m : List UInt8)
  deriving DecidableEq, Repr

/-- The stream, byte by byte. -/
def icyByte (metaInterval : ℕ) : IcyState → UInt8 → IcyState × List IcyEvent
  | .audio n, b =>
    if metaInterval = ffICY_NOMETA then (.audio n, [.audio b])
    else if n = 1 then (.size, [.audio b])
    else (.audio (n - 1), [.audio b])
  | .size, b => if b = 0 then (.audio metaInterval, []) else (.block (b.toNat * 16) [], [])
  | .block n m, b =>
    if n = 1 then (.audio metaInterval, [.block (m ++ [b])]) else (.block (n - 1) (m ++ [b]), [])

/-- What the results of a call mean. -/
def icyEvents : FficyR × List UInt8 → List IcyEvent
  | (.rdata, dst) => dst.map .audio
  | (.rmeta, dst) => [.block dst]
  | (.rmetachunk, _) => []

/-- The reader is at a place of the stream. -/
def IcyRel (metaInterval : ℕ) (ic : Fficy) (s : IcyState) : Prop :=
  ic.metaInterval = metaInterval ∧
    match s with
    | .audio n => ic.datasize = n ∧ ic.metasize = 0 ∧ 0 < n
    | .size => ic.datasize = 0 ∧ ic.metasize = 0
    | .block n m => ic.datasize = 0 ∧ ic.metasize = n ∧ ic.gathered = m ∧ 0 < n ∧
        m.length + n ≤ 0xff * 16

section Pieces

variable {M : ℕ}

theorem serial_audio (hM : M ≠ ffICY_NOMETA) {n : ℕ} {l : List UInt8} (hl : l.length ≤ n) (hn : 0 < n) :
    serial (icyByte M) (.audio n) l =
      (if l.length = n then .size else .audio (n - l.length), l.map .audio) := by
  induction l generalizing n with
  | nil => simp [serial, hn.ne]
  | cons c l ih =>
    rw [length_cons] at hl
    by_cases h1 : n = 1
    · obtain rfl : l = [] := length_eq_zero_iff.mp (by omega)
      simp [serial, icyByte, hM, h1]
    · have hih := @ih (n - 1) (by omega) (by omega)
      have hiff : l.length = n - 1 ↔ l.length + 1 = n := by omega
      simp only [serial, icyByte, if_neg hM, if_neg h1, hih, length_cons, hiff,
        map_cons, singleton_append]
      rw [show n - 1 - l.length = n - (l.length + 1) by omega]

theorem serial_nometa {n : ℕ} (l : List UInt8) :
    serial (icyByte ffICY_NOMETA) (.audio n) l = (.audio n, l.map .audio) := by
  induction l with
  | nil => rfl
  | cons c l ih => simp [serial, icyByte, ih]

theorem serial_block {n : ℕ} {m l : List UInt8} (hl : l.length ≤ n) (hn : 0 < n) :
    serial (icyByte M) (.block n m) l =
      if l.length = n then (.audio M, [.block (m ++ l)])
      else (.block (n - l.length) (m ++ l), []) := by
  induction l generalizing n m with
  | nil => simp [serial, hn.ne]
  | cons c l ih =>
    rw [length_cons] at hl
    by_cases h1 : n = 1
    · obtain rfl : l = [] := length_eq_zero_iff.mp (by omega)
      simp [serial, icyByte, h1]
    · have hih := @ih (n - 1) (m ++ [c]) (by omega) (by omega)
      have hiff : l.length = n - 1 ↔ l.length + 1 = n := by omega
      simp only [serial, icyByte, if_neg h1, hih, length_cons, hiff, nil_append,
        append_assoc, singleton_append, Prod.mk.eta]
      rw [show n - 1 - l.length = n - (l.length + 1) by omega]

end Pieces

section Reads

variable {M : ℕ} {ic : Fficy}

theorem take_piece {n : ℕ} (hn : 0 < n) (d : List UInt8) :
    (d.take n).length ≤ n ∧ d.drop (d.take n).length = d.drop n ∧ (d ≠ [] → d.take n ≠ []) := by
  refine ⟨length_take_le .., ?_, fun hd he => ?_⟩
  · rcases Nat.le_total n d.length with h | h
    · rw [length_take_of_le h]
    · rw [take_of_length_le h, drop_length, drop_of_length_le h]
  · rcases take_eq_nil_iff.mp he with h | h
    · omega
    · exact hd h

/-- What a step gives at a place of the stream: the bytes that it took were read. -/
def IcyStep (M : ℕ) (s : IcyState) (d : List UInt8) (res : FficyReturn) : Prop :=
  ∃ ic' r taken rest, res = some (ic', r, rest) ∧ d = taken ++ rest ∧ (d ≠ [] → taken ≠ []) ∧
    IcyRel M ic' (serial (icyByte M) s taken).1 ∧ icyEvents r = (serial (icyByte M) s taken).2

theorem fficyData_step {n : ℕ} (h : IcyRel M ic (.audio n)) (d : List UInt8) :
    IcyStep M (.audio n) d (fficyData ic d) := by
  obtain ⟨hM, hdata, hmeta, hn⟩ := h
  obtain ⟨hlen, hdrop, hne⟩ := take_piece hn d
  by_cases hno : M = ffICY_NOMETA
  · subst hno
    refine ⟨ic, (.rdata, d.take n), d.take n, d.drop n, ?_, (take_append_drop ..).symm, hne, ?_, ?_⟩
    · simp [fficyData, hM, hdata]
    · rw [serial_nometa]
      exact ⟨hM, hdata, hmeta, hn⟩
    · rw [serial_nometa, icyEvents]
  refine ⟨{ ic with datasize := n - (d.take n).length }, (.rdata, d.take n), d.take n, d.drop n, ?_,
    (take_append_drop ..).symm, hne, ?_, ?_⟩
  · simp only [fficyData, hM, hdata, hdrop, if_pos hno]
  · rw [serial_audio hno hlen hn]
    split
    · exact ⟨hM, by dsimp only; omega, hmeta⟩
    · exact ⟨hM, rfl, hmeta, by omega⟩
  · rw [serial_audio hno hlen hn, icyEvents]

theorem fficyMeta_step (hM0 : 0 < M) {n : ℕ} {m : List UInt8} (h : IcyRel M ic (.block n m))
    (d : List UInt8) : IcyStep M (.block n m) d (fficyMeta ic d) := by
  obtain ⟨hM, hdata, hmeta, hm, hn, hmax⟩ := h
  obtain ⟨hlen, hdrop, hne⟩ := take_piece hn d
  have hroom : ¬ m.length + (d.take n).length > ffICY_MAXMETA := by
    rw [ffICY_MAXMETA]
    omega
  have hsplit := (take_append_drop n d).symm
  have hserial := @serial_block M n m (d.take n) hlen hn
  rw [fficyMeta]
  simp only [hmeta, hm, hdrop, hM, if_neg hn.ne', if_neg hroom]
  by_cases hfull : (d.take n).length = n
  · have hleft : n - (d.take n).length = 0 := by omega
    rw [if_pos hfull] at hserial
    simp only [hleft, ne_eq, not_true_eq_false, false_or, if_true]
    by_cases hm0 : m = []
    · subst hm0
      refine ⟨{ ic with datasize := M, metasize := 0 }, (.rmeta, d.take n), d.take n, d.drop n, ?_,
        hsplit, hne, ?_, ?_⟩
      · simp [hM, hm]
      · rw [hserial]
        exact ⟨hM, rfl, rfl, hM0⟩
      · rw [hserial, icyEvents, nil_append]
    refine ⟨{ ic with datasize := M, metasize := 0, gathered := m ++ d.take n },
      (.rmeta, m ++ d.take n), d.take n, d.drop n, ?_, hsplit, hne, ?_, ?_⟩
    · simp [hM, hm0]
    · rw [hserial]
      exact ⟨hM, rfl, rfl, hM0⟩
    · rw [hserial, icyEvents]
  have hleft : n - (d.take n).length ≠ 0 := by omega
  rw [if_neg hfull] at hserial
  simp only [if_pos (Or.inl hleft), if_neg hleft]
  refine ⟨_, (.rmetachunk, d.take n), d.take n, d.drop n, rfl, hsplit, hne, ?_, ?_⟩
  · rw [hserial]
    refine ⟨rfl, hdata, rfl, rfl, by omega, ?_⟩
    rw [length_append]
    omega
  · rw [hserial, icyEvents]

/-- **A call reads the bytes that it takes**, at any place of a stream. -/
theorem fficyParse_reads (hM0 : 0 < M) :
    Reads (icyByte M) fficyParse icyEvents (IcyRel M) := by
  intro ic s d h hd
  suffices hstep : IcyStep M s d (fficyParse ic d) by
    obtain ⟨ic', r, taken, rest, he, hsplit, hne, hrel, hev⟩ := hstep
    exact ⟨ic', r, taken, rest, he, hsplit, hne hd, hrel, hev⟩
  rw [fficyParse.eq_def]
  cases s with
  | audio n =>
    have hn : ic.datasize ≠ 0 := by
      obtain ⟨-, hdata, -, hn⟩ := h
      omega
    rw [if_neg hn]
    exact fficyData_step h d
  | block n m =>
    have hdata : ic.datasize = 0 := h.2.1
    have hmeta : ic.metasize ≠ 0 := by
      obtain ⟨-, -, hmeta, -, hn, -⟩ := h
      omega
    rw [if_pos hdata, if_neg hmeta]
    exact fficyMeta_step hM0 h d
  | size =>
    obtain ⟨hM, hdata, hmeta⟩ := h
    rw [if_pos hdata, if_pos hmeta]
    cases d with
    | nil => exact absurd rfl hd
    | cons c d =>
      have hc : c.toNat < 256 := c.toNat_lt
      -- the byte of the length, and then what the rest of the call takes
      suffices hrest : IcyStep M (icyByte M .size c).1 d
          (fficyMeta { ic with metasize := fficyMetasize c, gathered := [] } d) by
        obtain ⟨ic', r, taken, rest, he, hsplit, -, hrel, hev⟩ := hrest
        refine ⟨ic', r, c :: taken, rest, he, by rw [hsplit, cons_append], by simp, hrel, ?_⟩
        rw [serial, hev]
        by_cases hc0 : c = 0 <;> simp [icyByte, hc0]
      by_cases hc0 : c = 0
      · subst hc0
        have hsize : fficyMetasize 0 = 0 := rfl
        have hrel : IcyRel M ⟨ic.metaInterval, ic.metaInterval, 0, []⟩ (.audio M) :=
          ⟨hM, hM, rfl, hM0⟩
        simpa only [icyByte, if_true, fficyMeta, hsize] using fficyData_step hrel d
      have hpos : 0 < c.toNat := by
        rcases Nat.eq_zero_or_pos c.toNat with h0 | h0
        · exact absurd (UInt8.toNat_inj.mp h0) hc0
        · exact h0
      have hmax : ([] : List UInt8).length + c.toNat * 16 ≤ 0xff * 16 := by
        rw [length_nil]
        omega
      have hrel : IcyRel M ⟨ic.metaInterval, ic.datasize, fficyMetasize c, []⟩
          (.block (c.toNat * 16) []) := ⟨hM, hdata, rfl, rfl, by omega, hmax⟩
      simpa only [icyByte, if_neg hc0] using fficyMeta_step hM0 hrel d

end Reads

/-! ### Streams -/

/-- The end of a stream, where it was cut. -/
inductive IcyTail
  /-- In audio data. -/
  | audio (a : List UInt8)
  /-- In the block behind the audio data, of `16 * n` bytes. -/
  | block (a : List UInt8) (n : UInt8) (m : List UInt8)

/-- Audio data and blocks in turn: a block has `meta_interval` audio bytes in front of it, and its
length fits the byte for it. -/
structure IcyStream (M : ℕ) where
  blocks : List (List UInt8 × List UInt8)
  tail : IcyTail
  audio_length : ∀ b ∈ blocks, M ≠ ffICY_NOMETA ∧ b.1.length = M
  block_length : ∀ b ∈ blocks, ∃ n : UInt8, b.2.length = fficyMetasize n
  tail_length : match tail with
    | .audio a => M = ffICY_NOMETA ∨ a.length ≤ M
    | .block a n m => M ≠ ffICY_NOMETA ∧ a.length = M ∧ m.length < fficyMetasize n

namespace IcyStream

variable {M : ℕ}

/-- A block with the byte of its length. -/
def blockBytes (m : List UInt8) : List UInt8 := UInt8.ofNat (m.length / 16) :: m

/-- The bytes of the end. -/
def tailBytes : IcyTail → List UInt8
  | .audio a => a
  | .block a n m => a ++ n :: m

/-- The audio data of the end. -/
def tailAudio : IcyTail → List UInt8
  | .audio a => a
  | .block a _ _ => a

/-- **The bytes of a stream** -/
def bytes (s : IcyStream M) : List UInt8 :=
  s.blocks.flatMap (fun b => b.1 ++ blockBytes b.2) ++ tailBytes s.tail

/-- The audio data. -/
def audio (s : IcyStream M) : List UInt8 := s.blocks.flatMap Prod.fst ++ tailAudio s.tail

/-- The blocks; a block of no bytes is none. -/
def metadata (s : IcyStream M) : List (List UInt8) :=
  (s.blocks.map Prod.snd).filter fun m => m ≠ []

end IcyStream

/-- The bytes of the pieces of audio data. -/
def IcyEvent.audio? : IcyEvent → Option UInt8
  | .audio b => some b
  | .block _ => none

/-- The blocks. -/
def IcyEvent.block? : IcyEvent → Option (List UInt8)
  | .audio _ => none
  | .block m => some m

/-- The pieces of audio data that were returned, one after another. -/
def icyAudio (rs : List (FficyR × List UInt8)) : List UInt8 :=
  rs.flatMap fun r => if r.1 = .rdata then r.2 else []

/-- The blocks that were returned. -/
def icyBlocks (rs : List (FficyR × List UInt8)) : List (List UInt8) :=
  rs.filterMap fun r => if r.1 = .rmeta then some r.2 else none

section Streams

variable {M : ℕ}

theorem icyEvents_filterMap (rs : List (FficyR × List UInt8)) :
    (rs.flatMap icyEvents).filterMap IcyEvent.audio? = icyAudio rs ∧
      (rs.flatMap icyEvents).filterMap IcyEvent.block? = icyBlocks rs := by
  induction rs with
  | nil => exact ⟨rfl, rfl⟩
  | cons r rs ih =>
    obtain ⟨iha, ihb⟩ := ih
    obtain ⟨code, dst⟩ := r
    rw [icyAudio] at iha
    rw [icyBlocks] at ihb
    simp only [icyAudio, icyBlocks, flatMap_cons, filterMap_append, iha, ihb, filterMap_cons]
    cases code <;> simp [icyEvents, IcyEvent.audio?, IcyEvent.block?, filterMap_map,
      Function.comp_def]

theorem serial_interval (hM0 : 0 < M) (hM : M ≠ ffICY_NOMETA) {a : List UInt8} (ha : a.length = M)
    (l : List UInt8) :
    serial (icyByte M) (.audio M) (a ++ l) = ((serial (icyByte M) .size l).1,
      a.map .audio ++ (serial (icyByte M) .size l).2) := by
  rw [serial_append, serial_audio hM ha.le hM0, if_pos ha]

theorem serial_blockBytes {m : List UInt8} {n : UInt8} (hm : m.length = fficyMetasize n) :
    serial (icyByte M) .size (IcyStream.blockBytes m) =
      (.audio M, if m = [] then [] else [.block m]) := by
  have hn : UInt8.ofNat (m.length / 16) = n := by
    rw [hm, fficyMetasize, Nat.mul_div_cancel _ (by decide), UInt8.ofNat_toNat]
  rw [IcyStream.blockBytes, hn, serial]
  by_cases hn0 : n = 0
  · subst hn0
    obtain rfl : m = [] := length_eq_zero_iff.mp hm
    rfl
  have hpos : 0 < m.length := by
    have : n.toNat ≠ 0 := fun h => hn0 (UInt8.toNat_inj.mp h)
    rw [hm, fficyMetasize]
    omega
  have hserial := @serial_block M _ [] m hm.le (hm ▸ hpos)
  rw [fficyMetasize] at hm hserial
  simp only [icyByte, if_neg hn0, hserial, if_pos hm, nil_append, if_neg (length_pos_iff.mp hpos)]

theorem serial_stream (hM0 : 0 < M) (s : IcyStream M) :
    ((serial (icyByte M) (.audio M) s.bytes).2.filterMap IcyEvent.audio? = s.audio) ∧
      (serial (icyByte M) (.audio M) s.bytes).2.filterMap IcyEvent.block? = s.metadata := by
  have haudio : ∀ a : List UInt8, (a.map IcyEvent.audio).filterMap IcyEvent.audio? = a ∧
      (a.map IcyEvent.audio).filterMap IcyEvent.block? = [] := by
    intro a
    simp [filterMap_map, Function.comp_def, IcyEvent.audio?, IcyEvent.block?]
  obtain ⟨blocks, tail, haud, hblk, htail⟩ := s
  simp only [IcyStream.bytes, IcyStream.audio, IcyStream.metadata]
  induction blocks with
  | nil =>
    cases tail with
    | audio a =>
      have hserial : (serial (icyByte M) (.audio M) a).2 = a.map .audio := by
        rcases eq_or_ne M ffICY_NOMETA with h | h
        · rw [h, serial_nometa]
        · rw [serial_audio h (htail.resolve_left h) hM0]
      simpa [IcyStream.tailBytes, IcyStream.tailAudio, hserial] using haudio a
    | block a n m =>
      obtain ⟨hM, ha, hm⟩ := htail
      have hn0 : n ≠ 0 := by
        rintro rfl
        exact absurd hm (Nat.not_lt_zero _)
      rw [fficyMetasize] at hm
      have hpart := @serial_block M (n.toNat * 16) [] m hm.le (by omega)
      rw [if_neg hm.ne] at hpart
      have hserial : (serial (icyByte M) (.audio M) (a ++ n :: m)).2 = a.map .audio := by
        rw [serial_interval hM0 hM ha, serial]
        simp [icyByte, hn0, hpart]
      simpa [IcyStream.tailBytes, IcyStream.tailAudio, hserial] using haudio a
  | cons b blocks ih =>
    obtain ⟨hM, ha⟩ := haud b mem_cons_self
    obtain ⟨n, hn⟩ := hblk b mem_cons_self
    obtain ⟨iha, ihb⟩ := ih (fun c hc => haud c (mem_cons_of_mem _ hc))
      fun c hc => hblk c (mem_cons_of_mem _ hc)
    simp only [flatMap_cons, append_assoc, serial_interval hM0 hM ha]
    rw [serial_append _ (IcyStream.blockBytes b.2), serial_blockBytes hn]
    simp only [filterMap_append, iha, ihb, haudio, map_cons, filter_cons, nil_append]
    by_cases hm : b.2 = [] <;> simp [hm, IcyEvent.audio?, IcyEvent.block?]

/-- **The pieces of a stream are its audio data, and each block is returned once and whole**,
however the stream was divided. -/
theorem fficyParse_stream (hM0 : 0 < M) (s : IcyStream M) {ds : List (List UInt8)}
    (hds : ds.flatten = s.bytes) :
    ∃ ic rs, feeds fficyParse (fficyParseinit M) ds = some (ic, rs) ∧
      icyAudio rs = s.audio ∧ icyBlocks rs = s.metadata := by
  have hinit : IcyRel M (fficyParseinit M) (.audio M) := ⟨rfl, rfl, rfl, hM0⟩
  obtain ⟨ic, rs, he, -, hev⟩ := (fficyParse_reads hM0).feeds_eq ds hinit
  rw [hds] at hev
  obtain ⟨haudio, hblocks⟩ := icyEvents_filterMap rs
  obtain ⟨hsa, hsm⟩ := serial_stream hM0 s
  exact ⟨ic, rs, he, by rw [← haudio, hev, hsa], by rw [← hblocks, hev, hsm]⟩

end Streams

end FF
