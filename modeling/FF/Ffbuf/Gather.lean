import FF.Ffbuf
import FF.Lib.Runs
import FF.Lib.Windows
import FF.Number

/-!
# Something contiguous in a stream

`ffbuf_gather`, and `ffbuf_contig` with `ffbuf_contig_store`: a caller looks for something of
`ctglen` bytes in a stream that comes in chunks, and is given blocks to look at.

## Conventions

* The caller is the loop around the function, for all chunks of the stream one after another. A
  block is told together with its place in the stream.
* Memory is always available.
-/

namespace FF

open List Option

/-! ### `ffbuf_gather` -/

/-- The states of `ffbuf_gather`. -/
inductive GatherState
  | input
  | inputData
  | chk
  | chkCopied
  deriving DecidableEq, Repr

/-- `struct ffbuf_gather` -/
structure FfbufGather where
  state : GatherState
  buflen : ℕ
  data : List UInt8
  ctglen : ℕ
  off : ℕ
  deriving DecidableEq, Repr

/-- `enum FFBUF_R`, without errors. -/
inductive FfbufR
  | more
  | ready
  | done
  deriving DecidableEq, Repr

/-- `I_INPUTDATA`: the input is the block. -/
def gatherInputData (d : FfbufGather) : List UInt8 × FfbufGather × FfbufR :=
  if d.data = [] then ([], d, .more) else (d.data, { d with state := .chk }, .ready)

/-- `ffbuf_gather` -/
def ffbufGather (buf : List UInt8) (d : FfbufGather) : List UInt8 × FfbufGather × FfbufR :=
  match d.state with
  | .input =>
    if buf ≠ [] then
      (buf ++ d.data.take (min d.data.length (d.ctglen - 1)),
        { d with buflen := buf.length % 2 ^ 32, state := .chkCopied }, .ready)
    else gatherInputData d
  | .inputData => gatherInputData d
  | .chk =>
    if d.off = 0 then
      let n := min d.data.length (d.ctglen - 1) % 2 ^ 32
      (d.data.drop (d.data.length - n), d, .more)
    else
      (piece buf (d.off - 1) d.ctglen,
        { d with off := d.off - 1, data := d.data.drop (d.off - 1 + d.ctglen) }, .done)
  | .chkCopied =>
    if d.off = 0 then
      if sizeSub d.ctglen d.buflen < d.data.length then
        gatherInputData { d with state := .inputData }
      else (buf, d, .more)
    else
      (piece buf (d.off - 1) d.ctglen,
        { d with
          off := d.off - 1
          data := d.data.drop (sizeSub (d.off - 1 + d.ctglen) d.buflen) }, .done)

/-- The caller: the buffer, what it gives to the next call, the chunks that come later, and the
place of the chunk in the stream. -/
structure GatherRun where
  buf : List UInt8
  d : FfbufGather
  chunks : List (List UInt8)
  pos : ℕ
  deriving DecidableEq, Repr

/-- What the caller sees: a block, or what it has looked for, and the input behind it. -/
inductive GatherEvent
  | block (b : StreamBlock UInt8)
  | found (window rest : List UInt8)
  deriving DecidableEq, Repr

/-- What a call gets for a new chunk. -/
def FfbufGather.fresh (c : ℕ) (chunk : List UInt8) : FfbufGather := ⟨.input, 0, chunk, c, 0⟩

/-- The place in the block, plus 1; 0 where nothing has been found. -/
def gatherOff (p : List UInt8 → Bool) (c : ℕ) (block : List UInt8) : ℕ :=
  match findWindow p c block with
  | none => 0
  | some k => (k + 1) % 2 ^ 32

/-- A call, and what the caller does then. It looks for something of `c` bytes with `p`. -/
def gatherMove (p : List UInt8 → Bool) (c : ℕ) (st : GatherRun) :
    List GatherEvent × Option GatherRun :=
  match ffbufGather st.buf st.d with
  | (buf, d, .more) =>
    match st.chunks with
    | [] => ([], none)
    | chunk :: chunks =>
      ([], some ⟨buf, .fresh c chunk, chunks, st.pos + d.data.length⟩)
  | (buf, d, .ready) =>
    let start := if st.d.state = .input then st.pos - st.buf.length else st.pos
    ([.block ⟨start, buf⟩], some ⟨buf, { d with off := gatherOff p c buf }, st.chunks, st.pos⟩)
  | (buf, d, .done) => ([.found buf (d.data ++ st.chunks.flatten)], none)

/-- The beginning: no bytes are in the buffer, and the first chunk is there. -/
def GatherRun.init (c : ℕ) (chunk : List UInt8) (chunks : List (List UInt8)) : GatherRun :=
  ⟨[], .fresh c chunk, chunks, 0⟩

/-- **The chunks that fit.** With bytes in the buffer, a chunk has no more than are missing for one
window, or as many as are kept of it. The numbers that are stored in a `uint` are below `2 ^ 32`. -/
def GatherFits (p : List UInt8 → Bool) (c : ℕ) (st : GatherRun) : Prop :=
  st.d.state = .input →
    (st.buf = [] ∨ st.buf.length + st.d.data.length ≤ c ∨ c - 1 ≤ st.d.data.length) ∧
      st.buf.length < 2 ^ 32 ∧ min st.d.data.length (c - 1) < 2 ^ 32 ∧
      ∀ k, findWindow p c st.d.data = some k → k + 1 < 2 ^ 32

/-- All states that the run comes to fit. -/
def GatherGood (p : List UInt8 → Bool) (c : ℕ) (st : GatherRun) : Prop :=
  ∀ st', Relation.ReflTransGen (fun a b => (gatherMove p c a).2 = some b) st st' →
    GatherFits p c st'

/-- **What is expected of a run** from the place `pos` of the stream `s` on: the blocks `bs` are
pieces of the stream, and up to the first window that is looked for, all windows are within a block;
then the caller has this window and what is behind it. -/
structure GatherOk (p : List UInt8 → Bool) (c : ℕ) (s : List UInt8) (pos : ℕ)
    (bs : List (StreamBlock UInt8)) (last : List GatherEvent) : Prop where
  pieces : ∀ b ∈ bs, b.Of s
  windows :
    (last = [] ∧ (∀ j, j + c ≤ s.length → p (piece s j c) = false) ∧
      ∀ j, pos < j + c → j + c ≤ s.length → Presented bs c j) ∨
    ∃ i, last = [.found (piece s i c) (s.drop (i + c))] ∧ i + c ≤ s.length ∧
      p (piece s i c) = true ∧ (∀ j < i, p (piece s j c) = false) ∧
      ∀ j ≤ i, pos < j + c → Presented bs c j

section Gather

variable {p : List UInt8 → Bool} {c pos : ℕ} {s buf chunk : List UInt8}
  {chunks : List (List UInt8)} {st st' : GatherRun}

theorem GatherGood.next (h : GatherGood p c st) {es : List GatherEvent}
    (hmove : gatherMove p c st = (es, some st')) : GatherGood p c st' := by
  intro st'' hreach
  refine h st'' (.head ?_ hreach)
  rw [hmove]

theorem GatherGood.fits (h : GatherGood p c st) : GatherFits p c st := h st .refl

/-- What is known at the beginning of a chunk: the buffer has the end of the stream so far, all of it
that may begin a window, and nothing has been found. -/
structure Gathering (p : List UInt8 → Bool) (c : ℕ) (s : List UInt8) (pos : ℕ) (buf : List UInt8)
    (rest : List UInt8) : Prop where
  rest_eq : rest = s.drop pos
  pos_le : pos ≤ s.length
  buf_le : buf.length ≤ pos
  buf_eq : buf = piece s (pos - buf.length) buf.length
  short : buf.length ≤ c
  enough : min (c - 1) pos ≤ buf.length
  unseen : ∀ j, j + c ≤ pos → p (piece s j c) = false

theorem gatherMove_more {buf' : List UInt8} {d : FfbufGather}
    (h : ffbufGather st.buf st.d = (buf', d, .more)) :
    gatherMove p c st =
      match st.chunks with
      | [] => ([], none)
      | chunk :: chunks => ([], some ⟨buf', .fresh c chunk, chunks, st.pos + d.data.length⟩) := by
  rw [gatherMove, h]

/-- **The first window in a block** at the place `a`, if there is none in front of it, is the first
one in the stream. -/
theorem findWindow_stream {a n k : ℕ} (hfind : findWindow p c (piece s a n) = some k)
    (ha : a + n ≤ s.length) (hfront : ∀ j < a, p (piece s j c) = false) :
    k + c ≤ n ∧ p (piece s (a + k) c) = true ∧ ∀ j < a + k, p (piece s j c) = false := by
  obtain ⟨hle, hp, hfirst⟩ := findWindow_some hfind
  rw [length_piece ha] at hle
  rw [piece_piece hle] at hp
  refine ⟨hle, hp, fun j hj => ?_⟩
  by_cases hja : j < a
  · exact hfront j hja
  · have hno := hfirst (j - a) (by omega)
    rwa [piece_piece (by omega), Nat.add_sub_cancel' (Nat.le_of_not_lt hja)] at hno

theorem findWindow_no {a n j : ℕ} (hfind : findWindow p c (piece s a n) = none)
    (ha : a + n ≤ s.length) (hj : a ≤ j) (hjn : j + c ≤ a + n) : p (piece s j c) = false := by
  have hin : j - a + c ≤ n := by omega
  have hno := findWindow_none hfind (k := j - a) (by rw [length_piece ha]; exact hin)
  rwa [piece_piece hin, Nat.add_sub_cancel' hj] at hno

theorem GatherOk.extend {bs bs' : List (StreamBlock UInt8)} {last : List GatherEvent} {n : ℕ}
    (h : GatherOk p c s (pos + n) bs' last) (hof : ∀ b ∈ bs, b.Of s)
    (hwin : ∀ j, pos < j + c → j + c ≤ pos + n → Presented bs c j) :
    GatherOk p c s pos (bs ++ bs') last where
  pieces := by
    intro b hb
    rcases mem_append.mp hb with hb | hb
    · exact hof b hb
    · exact h.pieces b hb
  windows := by
    have hall : ∀ j, pos < j + c → (pos + n < j + c → Presented bs' c j) →
        Presented (bs ++ bs') c j := by
      intro j hj hlater
      by_cases hjn : j + c ≤ pos + n
      · exact (hwin j hj hjn).left
      · exact (hlater (Nat.lt_of_not_le hjn)).right
    rcases h.windows with ⟨hlast, hno, hcover⟩ | ⟨i, hlast, hle, hp, hno, hcover⟩
    · exact .inl ⟨hlast, hno, fun j hj hjs => hall j hj fun hlt => hcover j hlt hjs⟩
    · exact .inr ⟨i, hlast, hle, hp, hno, fun j hji hj => hall j hj fun hlt => hcover j hji hlt⟩

theorem Gathering.chunk_eq {rest : List UInt8} (h : Gathering p c s pos buf (chunk ++ rest)) :
    pos + chunk.length ≤ s.length ∧ chunk = piece s pos chunk.length ∧
      rest = s.drop (pos + chunk.length) := by
  have heq := h.rest_eq
  have hlen := congrArg List.length heq
  rw [length_append, length_drop] at hlen
  have hpos := h.pos_le
  refine ⟨by omega, ?_, ?_⟩
  · rw [piece, ← heq, take_left' rfl]
  · rw [← drop_drop, ← heq, drop_left' rfl]

/-- What a state within a chunk comes to: the end of the chunk, and then the rest of the run, or the
first window that is looked for. -/
def GatherRest (p : List UInt8 → Bool) (c : ℕ) (s : List UInt8) (next : ℕ) (st : GatherRun) : Prop :=
  (∃ bs last, RunEnds (gatherMove p c) st (bs.map .block ++ last) ∧
    GatherOk p c s next bs last) ∨
  ∃ i, i + c ≤ next ∧ next ≤ s.length ∧ p (piece s i c) = true ∧
    (∀ j < i, p (piece s j c) = false) ∧
    RunEnds (gatherMove p c) st [.found (piece s i c) (s.drop (i + c))]

/-- The run from the next chunk on, for every buffer that is right there. -/
def GatherLater (p : List UInt8 → Bool) (c : ℕ) (s : List UInt8) (next : ℕ)
    (chunks : List (List UInt8)) : Prop :=
  ∀ buf chunk chunks', chunks = chunk :: chunks' → Gathering p c s next buf chunks.flatten →
    GatherGood p c ⟨buf, .fresh c chunk, chunks', next⟩ →
    ∃ bs last, RunEnds (gatherMove p c) ⟨buf, .fresh c chunk, chunks', next⟩
        (bs.map .block ++ last) ∧ GatherOk p c s next bs last

/-- **A call that asks for more** at the end of a chunk. -/
theorem gatherRest_more {next : ℕ} {buf' : List UInt8} {d : FfbufGather}
    (hcall : ffbufGather st.buf st.d = (buf', d, .more)) (hnext : next = st.pos + d.data.length)
    (hgood : GatherGood p c st) (hlater : GatherLater p c s next st.chunks)
    (h : Gathering p c s next buf' st.chunks.flatten) : GatherRest p c s next st := by
  have hmove := gatherMove_more (p := p) (c := c) hcall
  cases hchunks : st.chunks with
  | nil =>
    rw [hchunks] at hmove h
    have hend : next = s.length := by
      have hlen := congrArg List.length h.rest_eq
      rw [flatten_nil, length_nil, length_drop] at hlen
      have hle := h.pos_le
      omega
    refine .inl ⟨[], [], RunEnds.last hmove, ⟨fun b hb => absurd hb not_mem_nil, ?_⟩⟩
    refine .inl ⟨rfl, fun j hj => h.unseen j (hend ▸ hj), fun j hj hjs => ?_⟩
    omega
  | cons chunk chunks =>
    rw [hchunks] at hmove
    rw [← hnext] at hmove
    obtain ⟨bs, last, hrun, hok⟩ :=
      hlater buf' chunk chunks hchunks h (hgood.next hmove)
    exact .inl ⟨bs, last, RunEnds.silent hmove hrun, hok⟩

/-- **The chunk is looked at**: something is found, or the end of the chunk is kept. -/
theorem gatherRest_chk {buflen : ℕ} (h : Gathering p c s pos buf (chunk ++ chunks.flatten))
    (hgood : GatherGood p c ⟨chunk, ⟨.chk, buflen, chunk, c, gatherOff p c chunk⟩, chunks, pos⟩)
    (hlater : GatherLater p c s (pos + chunk.length) chunks)
    (hoff : ∀ k, findWindow p c chunk = some k → k + 1 < 2 ^ 32)
    (hmin : min chunk.length (c - 1) < 2 ^ 32)
    (hkept : min (c - 1) (pos + chunk.length) ≤ min chunk.length (c - 1))
    (hfront : ∀ j < pos, j + c ≤ pos + min chunk.length (c - 1) → p (piece s j c) = false) :
    GatherRest p c s (pos + chunk.length)
      ⟨chunk, ⟨.chk, buflen, chunk, c, gatherOff p c chunk⟩, chunks, pos⟩ := by
  obtain ⟨hend, hchunk, hrest⟩ := h.chunk_eq
  cases hfind : findWindow p c chunk with
  | some k =>
    have hfind' := hfind
    rw [hchunk] at hfind'
    have hall : ∀ j < pos, p (piece s j c) = false := by
      intro j hj
      exact hfront j hj (by omega)
    obtain ⟨hle, hp, hfirst⟩ := findWindow_stream hfind' hend hall
    have hoffk : gatherOff p c chunk = k + 1 := by
      rw [gatherOff, hfind]
      exact Nat.mod_eq_of_lt (hoff k hfind)
    have hwindow : piece chunk k c = piece s (pos + k) c := by
      rw [hchunk, piece_piece hle]
    have hbehind : chunk.drop (k + c) ++ chunks.flatten = s.drop (pos + k + c) := by
      rw [← drop_append_of_le_length hle, h.rest_eq, drop_drop, Nat.add_assoc]
    refine .inr ⟨pos + k, by omega, hend, hp, hfirst, RunEnds.last ?_⟩
    rw [gatherMove, hoffk, ffbufGather]
    rw [if_neg (Nat.succ_ne_zero k)]
    dsimp only
    rw [Nat.add_sub_cancel, hwindow, hbehind]
  | none =>
    have hoff0 : gatherOff p c chunk = 0 := by rw [gatherOff, hfind]
    have hlen : (chunk.drop (chunk.length - min chunk.length (c - 1))).length =
        min chunk.length (c - 1) := by
      rw [length_drop]
      omega
    have hcall : ffbufGather chunk ⟨.chk, buflen, chunk, c, 0⟩ =
        (chunk.drop (chunk.length - min chunk.length (c - 1)), ⟨.chk, buflen, chunk, c, 0⟩,
          .more) := by
      rw [ffbufGather]
      rw [if_pos rfl, Nat.mod_eq_of_lt hmin]
    have hnone := hfind
    rw [hchunk] at hnone
    rw [hoff0] at hgood ⊢
    refine gatherRest_more hcall rfl hgood hlater
      ⟨hrest, hend, by omega, ?_, by omega, by omega, fun j hj => ?_⟩
    · rw [hlen]
      conv_lhs => rw [hchunk, length_piece hend]
      rw [piece_drop]
      congr 1 <;> omega
    · by_cases hjpos : j < pos
      · exact hfront j hjpos (by omega)
      · exact findWindow_no hnone hend (Nat.le_of_not_lt hjpos) hj

theorem gather_ends {bs : List (StreamBlock UInt8)} {n : ℕ}
    (hsteps : RunsTo (gatherMove p c) st (bs.map .block) st') (hof : ∀ b ∈ bs, b.Of s)
    (hwin : ∀ j, pos < j + c → j + c ≤ pos + n → Presented bs c j)
    (hrest : GatherRest p c s (pos + n) st') :
    ∃ bs last, RunEnds (gatherMove p c) st (bs.map .block ++ last) ∧ GatherOk p c s pos bs last := by
  rcases hrest with ⟨bs', last, hrun, hok⟩ | ⟨i, hle, hend, hp, hno, hrun⟩
  · refine ⟨bs ++ bs', last, ?_, hok.extend hof hwin⟩
    rw [map_append, append_assoc]
    exact hsteps _ hrun
  · refine ⟨bs, _, hsteps _ hrun, hof, .inr ⟨i, rfl, by omega, hp, hno, fun j hji hj => ?_⟩⟩
    exact hwin j hj (by omega)

/-- **A chunk**, where the buffer is empty. -/
theorem gather_empty (h : Gathering p c s pos [] (chunk ++ chunks.flatten)) (hc : 1 ≤ c)
    (hgood : GatherGood p c ⟨[], .fresh c chunk, chunks, pos⟩)
    (hlater : GatherLater p c s (pos + chunk.length) chunks) :
    ∃ bs last, RunEnds (gatherMove p c) ⟨[], .fresh c chunk, chunks, pos⟩
      (bs.map .block ++ last) ∧ GatherOk p c s pos bs last := by
  obtain ⟨hend, hchunk, hrest⟩ := h.chunk_eq
  obtain ⟨-, -, hmin, hoff⟩ := hgood.fits rfl
  have henough : min (c - 1) pos = 0 := Nat.eq_zero_of_le_zero h.enough
  by_cases hnil : chunk = []
  · subst hnil
    have hcall : ffbufGather [] (.fresh c []) = ([], .fresh c [], .more) := rfl
    refine gather_ends (n := 0) (fun es hes => hes) (fun b hb => absurd hb not_mem_nil)
      (fun j hj hjn => by omega) (gatherRest_more hcall rfl hgood hlater ?_)
    exact ⟨hrest, hend, h.buf_le, h.buf_eq, h.short, h.enough, h.unseen⟩
  have hmove : gatherMove p c ⟨[], .fresh c chunk, chunks, pos⟩ =
      ([.block ⟨pos, chunk⟩],
        some ⟨chunk, ⟨.chk, 0, chunk, c, gatherOff p c chunk⟩, chunks, pos⟩) := by
    rw [gatherMove, ffbufGather, FfbufGather.fresh]
    rw [if_neg (not_not.mpr rfl), gatherInputData, if_neg hnil]
    rfl
  have hfront : ∀ j < pos, j + c ≤ pos + min chunk.length (c - 1) → p (piece s j c) = false :=
    fun j hj hjc => h.unseen j (by omega)
  have hone : RunsTo (gatherMove p c) ⟨[], .fresh c chunk, chunks, pos⟩
      ([⟨pos, chunk⟩].map .block) _ := RunsTo.one hmove
  refine gather_ends hone ?_ ?_
    (gatherRest_chk h (hgood.next hmove) hlater hoff hmin (by omega) hfront)
  · intro b hb
    obtain rfl := mem_singleton.mp hb
    exact ⟨hend, hchunk⟩
  · intro j hj hjn
    exact ⟨_, mem_singleton.mpr rfl, by dsimp only; omega, hjn⟩

theorem sizeSub_of_sub_lt {a b : ℕ} (hle : b ≤ a) (hb : b < 2 ^ 32) (h : a - b < SIZE_BOUND) :
    sizeSub a b = a - b := by
  have hsum : a + (SIZE_BOUND - b) = a - b + SIZE_BOUND := by
    rw [SIZE_BOUND]
    omega
  rw [sizeSub, hsum, Nat.add_mod_right, Nat.mod_eq_of_lt h]

/-- **A chunk**, where there are bytes in the buffer. -/
theorem gather_copied (h : Gathering p c s pos buf (chunk ++ chunks.flatten)) (hc : 1 ≤ c)
    (hword : c < SIZE_BOUND) (hbuf : buf ≠ []) (hgood : GatherGood p c ⟨buf, .fresh c chunk, chunks, pos⟩)
    (hlater : GatherLater p c s (pos + chunk.length) chunks) :
    ∃ bs last, RunEnds (gatherMove p c) ⟨buf, .fresh c chunk, chunks, pos⟩
      (bs.map .block ++ last) ∧ GatherOk p c s pos bs last := by
  obtain ⟨hend, hchunk, hrest⟩ := h.chunk_eq
  obtain ⟨hfits, hbuflen', hmin', hoff⟩ := hgood.fits rfl
  have hbuflen : buf.length < 2 ^ 32 := hbuflen'
  have hmin : min chunk.length (c - 1) < 2 ^ 32 := hmin'
  have hfits' : buf.length + chunk.length ≤ c ∨ c - 1 ≤ chunk.length := hfits.resolve_left hbuf
  have hle := h.buf_le
  have hshort := h.short
  have henough := h.enough
  have hpos := length_pos_iff.mpr hbuf
  obtain ⟨m, hm⟩ : ∃ m, m = min chunk.length (c - 1) := ⟨_, rfl⟩
  have hmn : m ≤ chunk.length := by omega
  -- The block is the buffer with the begin of the chunk.
  obtain ⟨block, hblock⟩ : ∃ block, block = buf ++ chunk.take m := ⟨_, rfl⟩
  have hpiece : block = piece s (pos - buf.length) (buf.length + m) := by
    rw [hblock, piece_add, ← h.buf_eq, Nat.sub_add_cancel hle, ← piece_take hmn, ← hchunk]
  have hblockend : pos - buf.length + (buf.length + m) ≤ s.length := by omega
  have hblocklen : block.length = buf.length + m := by rw [hpiece, length_piece hblockend]
  have hmove : gatherMove p c ⟨buf, .fresh c chunk, chunks, pos⟩ =
      ([.block ⟨pos - buf.length, block⟩],
        some ⟨block, ⟨.chkCopied, buf.length, chunk, c, gatherOff p c block⟩, chunks, pos⟩) := by
    rw [gatherMove, ffbufGather, FfbufGather.fresh]
    rw [if_pos hbuf, ← hm, ← hblock, Nat.mod_eq_of_lt hbuflen]
    rfl
  have hgood' := hgood.next hmove
  have hof : ∀ b ∈ [(⟨pos - buf.length, block⟩ : StreamBlock UInt8)], b.Of s := by
    intro b hb
    obtain rfl := mem_singleton.mp hb
    refine ⟨?_, ?_⟩
    · rw [hblocklen]
      exact hblockend
    · rw [hblocklen]
      exact hpiece
  have hin : ∀ j, pos < j + c → j + c ≤ pos + m →
      Presented [(⟨pos - buf.length, block⟩ : StreamBlock UInt8)] c j := by
    intro j hj hjm
    refine ⟨_, mem_singleton.mpr rfl, ?_, ?_⟩
    · dsimp only
      omega
    · dsimp only
      rw [hblocklen]
      omega
  cases hfind : findWindow p c block with
  | some k =>
    have hfind' := hfind
    rw [hpiece] at hfind'
    have hall : ∀ j < pos - buf.length, p (piece s j c) = false :=
      fun j hj => h.unseen j (by omega)
    obtain ⟨hkc, hp, hfirst⟩ := findWindow_stream hfind' hblockend hall
    have hoffk : gatherOff p c block = k + 1 := by
      rw [gatherOff, hfind]
      exact Nat.mod_eq_of_lt (by omega)
    have hwindow : piece block k c = piece s (pos - buf.length + k) c := by
      rw [hpiece, piece_piece hkc]
    have hshift : k + c - buf.length ≤ chunk.length := by omega
    have hbehind : chunk.drop (k + c - buf.length) ++ chunks.flatten =
        s.drop (pos - buf.length + k + c) := by
      rw [← drop_append_of_le_length hshift, h.rest_eq, drop_drop]
      congr 1
      omega
    rw [hoffk] at hmove
    have hdone : gatherMove p c
        ⟨block, ⟨.chkCopied, buf.length, chunk, c, k + 1⟩, chunks, pos⟩ =
        ([.found (piece s (pos - buf.length + k) c) (s.drop (pos - buf.length + k + c))],
          none) := by
      have hsub : sizeSub (k + c) buf.length = k + c - buf.length :=
        sizeSub_of_sub_lt (by omega) hbuflen (by omega)
      rw [gatherMove, ffbufGather]
      dsimp only
      rw [if_neg (Nat.succ_ne_zero k)]
      dsimp only
      rw [Nat.add_sub_cancel, hsub, hwindow, hbehind]
    refine ⟨[⟨pos - buf.length, block⟩], _, RunEnds.cons hmove (RunEnds.last hdone), hof,
      .inr ⟨pos - buf.length + k, rfl, by omega, hp, hfirst, fun j hji hj => ?_⟩⟩
    exact hin j hj (by omega)
  | none =>
    have hoff0 : gatherOff p c block = 0 := by rw [gatherOff, hfind]
    have hnone := hfind
    rw [hpiece] at hnone
    have hnoin : ∀ j, pos - buf.length ≤ j → j + c ≤ pos + m → p (piece s j c) = false :=
      fun j hj hjm => findWindow_no hnone hblockend hj (by omega)
    rw [hoff0] at hmove hgood'
    have hone : RunsTo (gatherMove p c) ⟨buf, .fresh c chunk, chunks, pos⟩
        ([⟨pos - buf.length, block⟩].map .block) _ := RunsTo.one hmove
    have hsub : sizeSub c buf.length = c - buf.length := sizeSub_of_le hshort hword
    by_cases hfew : buf.length + chunk.length ≤ c
    · -- The chunk is in the buffer as a whole.
      have hmall : m = chunk.length := by omega
      have hcall : ffbufGather block ⟨.chkCopied, buf.length, chunk, c, 0⟩ =
          (block, ⟨.chkCopied, buf.length, chunk, c, 0⟩, .more) := by
        rw [ffbufGather]
        dsimp only
        rw [if_pos rfl, hsub, if_neg (by omega)]
      have hstart : pos + chunk.length - (buf.length + m) = pos - buf.length := by omega
      refine gather_ends (n := chunk.length) hone hof
        (fun j hj hjn => hin j hj (hmall ▸ hjn)) (gatherRest_more hcall rfl hgood' hlater ?_)
      refine ⟨hrest, hend, ?_, ?_, ?_, ?_, fun j hj => ?_⟩
      · rw [hblocklen]
        omega
      · rw [hblocklen]
        rw [hstart]
        exact hpiece
      · rw [hblocklen]
        omega
      · rw [hblocklen]
        omega
      · by_cases hjpos : j + c ≤ pos
        · exact h.unseen j hjpos
        · exact hnoin j (by omega) (hmall ▸ hj)
    -- The chunk is looked at again, by itself.
    have hne : chunk ≠ [] := by
      intro hnil
      rw [hnil, length_nil] at hfew
      omega
    have hagain : gatherMove p c
        ⟨block, ⟨.chkCopied, buf.length, chunk, c, 0⟩, chunks, pos⟩ =
        ([.block ⟨pos, chunk⟩],
          some ⟨chunk, ⟨.chk, buf.length, chunk, c, gatherOff p c chunk⟩, chunks, pos⟩) := by
      rw [gatherMove, ffbufGather]
      dsimp only
      rw [if_pos rfl, hsub, if_pos (by omega), gatherInputData, if_neg hne]
      rfl
    have htwo : RunsTo (gatherMove p c) ⟨buf, .fresh c chunk, chunks, pos⟩
        ([⟨pos - buf.length, block⟩, ⟨pos, chunk⟩].map .block) _ :=
      hone.trans (RunsTo.one hagain)
    refine gather_ends htwo ?_ ?_ (gatherRest_chk h (hgood'.next hagain) hlater hoff hmin
      (by omega) ?_)
    · intro b hb
      rcases mem_cons.mp hb with rfl | hb
      · exact hof _ (mem_singleton.mpr rfl)
      · obtain rfl := mem_singleton.mp hb
        exact ⟨hend, hchunk⟩
    · intro j hj hjn
      by_cases hjpos : j < pos
      · exact (hin j hj (by omega)).left
      · refine ⟨⟨pos, chunk⟩, mem_cons_of_mem _ (mem_singleton.mpr rfl), ?_, hjn⟩
        exact Nat.le_of_not_lt hjpos
    · intro j hj hjc
      by_cases hjpos : j + c ≤ pos
      · exact h.unseen j hjpos
      · exact hnoin j (by omega) (by omega)

/-- **From a chunk on**: by induction on the chunks. -/
theorem gather_from (hc : 1 ≤ c) (hword : c < SIZE_BOUND) (chunks : List (List UInt8)) :
    ∀ (chunk buf : List UInt8) (pos : ℕ), Gathering p c s pos buf (chunk ++ chunks.flatten) →
      GatherGood p c ⟨buf, .fresh c chunk, chunks, pos⟩ →
      ∃ bs last, RunEnds (gatherMove p c) ⟨buf, .fresh c chunk, chunks, pos⟩
        (bs.map .block ++ last) ∧ GatherOk p c s pos bs last := by
  induction chunks with
  | nil =>
    intro chunk buf pos h hgood
    have hlater : GatherLater p c s (pos + chunk.length) [] := by
      intro buf' chunk' chunks' hnil
      exact absurd hnil (cons_ne_nil _ _).symm
    by_cases hbuf : buf = []
    · subst hbuf
      exact gather_empty h hc hgood hlater
    · exact gather_copied h hc hword hbuf hgood hlater
  | cons next chunks ih =>
    intro chunk buf pos h hgood
    have hlater : GatherLater p c s (pos + chunk.length) (next :: chunks) := by
      intro buf' chunk' chunks' hcons h' hgood'
      obtain ⟨rfl, rfl⟩ := List.cons.inj hcons
      exact ih next buf' (pos + chunk.length) h' hgood'
    by_cases hbuf : buf = []
    · subst hbuf
      exact gather_empty h hc hgood hlater
    · exact gather_copied h hc hword hbuf hgood hlater

/-- **A run of `ffbuf_gather`** whose chunks fit. -/
theorem gather_run (p : List UInt8 → Bool) (hc : 1 ≤ c) (hword : c < SIZE_BOUND)
    (chunk : List UInt8) (chunks : List (List UInt8))
    (hgood : GatherGood p c (.init c chunk chunks)) :
    ∃ bs last, RunEnds (gatherMove p c) (.init c chunk chunks) (bs.map .block ++ last) ∧
      GatherOk p c (chunk ++ chunks.flatten) 0 bs last := by
  refine gather_from hc hword chunks chunk [] 0 ⟨rfl, Nat.zero_le _, Nat.le_refl _, rfl,
    Nat.zero_le _, ?_, fun j hj => ?_⟩ hgood
  · exact Nat.min_le_right _ _
  · omega

end Gather

/-! ### `ffbuf_contig` and `ffbuf_contig_store` -/

/-- The caller: the buffer, the input, the chunks that come later, and the place of the input in the
stream. -/
structure ContigRun where
  buf : List UInt8
  inp : List UInt8
  chunks : List (List UInt8)
  pos : ℕ
  deriving DecidableEq, Repr

/-- Both calls, where nothing is found in the block. What they return is taken off the input; when
there is no more of it, the next chunk comes. -/
def contigMove (c : ℕ) (st : ContigRun) : List (StreamBlock UInt8) × Option ContigRun :=
  let (buf, block, r) := ffbufContig st.buf st.inp c
  let (buf', r') := ffbufContigStore buf (st.inp.drop r) c
  let inp := (st.inp.drop r).drop r'
  let start := if st.buf = [] then st.pos else st.pos + r - block.length
  (if c ≤ block.length then [⟨start, block⟩] else [],
    if inp = [] then
      match st.chunks with
      | [] => none
      | chunk :: chunks => some ⟨buf', chunk, chunks, st.pos + r + r'⟩
    else some ⟨buf', inp, st.chunks, st.pos + r + r'⟩)

/-- **The input that fits.** With bytes in the buffer, there is none, or there is enough for a
window; the end that is stored is not what the rest of the input begins with. What is returned is an
`int`. -/
def ContigFits (c : ℕ) (st : ContigRun) : Prop :=
  st.inp.length < 2 ^ 31 ∧
    (st.buf = [] ∨ st.inp = [] ∨
      (c ≤ st.buf.length + st.inp.length ∧
        ¬((st.buf ++ st.inp.take (min (c - 1) st.inp.length)).drop
            (st.buf.length + min (c - 1) st.inp.length - (c - 1)) <+:
          st.inp.drop (min (c - 1) st.inp.length))))

/-- All states that the run comes to fit. -/
def ContigGood (c : ℕ) (st : ContigRun) : Prop :=
  ∀ st', Relation.ReflTransGen (fun a b => (contigMove c a).2 = some b) st st' → ContigFits c st'

/-- **What is expected of a run** from the place `pos` on: the blocks are pieces of the stream, and
every window is within one. -/
structure ContigOk (c : ℕ) (s : List UInt8) (pos : ℕ) (bs : List (StreamBlock UInt8)) : Prop where
  pieces : ∀ b ∈ bs, b.Of s
  windows : ∀ j, pos < j + c → j + c ≤ s.length → Presented bs c j

section Contig

variable {c pos : ℕ} {s buf inp : List UInt8} {chunks : List (List UInt8)} {st st' : ContigRun}

theorem ContigGood.next (h : ContigGood c st) {bs : List (StreamBlock UInt8)}
    (hmove : contigMove c st = (bs, some st')) : ContigGood c st' := by
  intro st'' hreach
  refine h st'' (.head ?_ hreach)
  rw [hmove]

/-- What is known in front of the calls: the buffer has as much of the end of the stream so far as
may begin a window. -/
structure Contig (c : ℕ) (s : List UInt8) (pos : ℕ) (buf rest : List UInt8) : Prop where
  rest_eq : rest = s.drop pos
  pos_le : pos ≤ s.length
  buf_len : buf.length = min (c - 1) pos
  buf_eq : buf = piece s (pos - buf.length) buf.length

/-- What both calls do: a part of the input is taken. -/
structure ContigStep (c : ℕ) (s : List UInt8) (pos : ℕ) (inp : List UInt8) (rest : List UInt8)
    (bs : List (StreamBlock UInt8)) (buf' inp' : List UInt8) (pos' : ℕ) : Prop where
  inv : Contig c s pos' buf' (inp' ++ rest)
  shrinks : inp' = [] ∨ inp'.length < inp.length
  pieces : ∀ b ∈ bs, b.Of s
  windows : ∀ j, pos < j + c → j + c ≤ pos' → Presented bs c j

theorem Contig.inp_eq {rest : List UInt8} (h : Contig c s pos buf (inp ++ rest)) :
    pos + inp.length ≤ s.length ∧ inp = piece s pos inp.length ∧
      ∀ n ≤ inp.length, inp.drop n ++ rest = s.drop (pos + n) := by
  have heq := h.rest_eq
  have hlen := congrArg List.length heq
  rw [length_append, length_drop] at hlen
  have hpos := h.pos_le
  refine ⟨by omega, ?_, fun n hn => ?_⟩
  · rw [piece, ← heq, take_left' rfl]
  · rw [← drop_drop, ← heq, drop_append_of_le_length hn]

/-- **Nothing to look at**, and one of buffer and input is empty. -/
theorem contigMove_few {rest : List UInt8} (h : Contig c s pos buf (inp ++ rest)) (hc : 1 ≤ c)
    (hone : buf = [] ∨ inp = []) (hfew : buf.length + inp.length < c) :
    ∃ buf' r, ffbufContig buf inp c = (buf, [], 0) ∧ ffbufContigStore buf inp c = (buf', r) ∧
      ContigStep c s pos inp rest [] buf' (inp.drop r) (pos + r) := by
  obtain ⟨hend, hinp, hdrop⟩ := h.inp_eq
  have hlen := h.buf_len
  obtain ⟨hcontig, r, hstore, hle, hnil⟩ :=
    ffbufContig_few hone (by rw [length_append]; exact hfew)
  have hr : r = inp.length := by
    have := drop_eq_nil_iff.mp hnil
    omega
  subst hr
  have hboth : buf ++ inp = piece s (pos - buf.length) (buf.length + inp.length) := by
    rw [piece_add, ← h.buf_eq, Nat.sub_add_cancel (by omega), ← hinp]
  refine ⟨_, _, hcontig, hstore, ⟨hdrop _ (Nat.le_refl _), hend, ?_, ?_⟩, .inl hnil,
    fun b hb => absurd hb not_mem_nil, fun j hj hje => ?_⟩
  · rw [length_append]
    rcases hone with rfl | rfl
    · rw [length_nil] at hlen hfew ⊢
      omega
    · rw [length_nil]
      omega
  · have hstart : pos + inp.length - (buf.length + inp.length) = pos - buf.length := by omega
    rw [length_append, hstart]
    exact hboth
  · rcases hone with rfl | rfl
    · rw [length_nil] at hlen
      omega
    · rw [length_nil] at hje
      omega

/-- **The input is looked at.** -/
theorem contigMove_inp {rest : List UInt8} (h : Contig c s pos [] (inp ++ rest))
    (hmany : c ≤ inp.length) (hc : 1 ≤ c) :
    ffbufContig [] inp c = ([], inp, 0) ∧
      ffbufContigStore [] inp c = (inp.drop (inp.length - (c - 1)), inp.length) ∧
      ContigStep c s pos inp rest [⟨pos, inp⟩] (inp.drop (inp.length - (c - 1))) []
        (pos + inp.length) := by
  obtain ⟨hend, hinp, hdrop⟩ := h.inp_eq
  have hlen := h.buf_len
  rw [length_nil] at hlen
  have hkept : (inp.drop (inp.length - (c - 1))).length = c - 1 := by
    rw [length_drop]
    omega
  refine ⟨?_, ffbufContigStore_inp (by omega), ⟨?_, hend, ?_, ?_⟩, .inl rfl, ?_, ?_⟩
  · rw [ffbufContig, if_neg (not_not.mpr rfl), if_neg (Nat.not_lt.mpr hmany)]
  · have hall := hdrop inp.length (Nat.le_refl _)
    rwa [drop_length] at hall
  · rw [hkept]
    omega
  · rw [hkept]
    conv_lhs => rw [hinp, length_piece hend]
    rw [piece_drop]
    congr 1 <;> omega
  · intro b hb
    obtain rfl := mem_singleton.mp hb
    exact ⟨hend, hinp⟩
  · intro j hj hje
    exact ⟨_, mem_singleton.mpr rfl, by dsimp only; omega, hje⟩

/-- **The buffer is looked at**, with the begin of the input behind it. -/
theorem contigMove_buf {rest : List UInt8} (h : Contig c s pos buf (inp ++ rest)) (hbuf : buf ≠ [])
    (hinp : inp ≠ []) (hfits : c ≤ buf.length + inp.length ∧
      ¬((buf ++ inp.take (min (c - 1) inp.length)).drop
          (buf.length + min (c - 1) inp.length - (c - 1)) <+:
        inp.drop (min (c - 1) inp.length))) :
    ∃ block buf' r, ffbufContig buf inp c = (block, block, r) ∧ c ≤ block.length ∧
      pos + r - block.length = pos - buf.length ∧
      ffbufContigStore block (inp.drop r) c = (buf', 0) ∧
      ContigStep c s pos inp rest [⟨pos - buf.length, block⟩] buf' (inp.drop r) (pos + r) := by
  obtain ⟨hend, hinpeq, hdrop⟩ := h.inp_eq
  obtain ⟨hmany, hother⟩ := hfits
  have hlen := h.buf_len
  have hposb := length_pos_iff.mpr hbuf
  obtain ⟨n, hn⟩ : ∃ n, n = min (c - 1) inp.length := ⟨_, rfl⟩
  rw [← hn] at hother
  have hnle : n ≤ inp.length := by omega
  obtain ⟨block, hblock⟩ : ∃ block, block = buf ++ inp.take n := ⟨_, rfl⟩
  have hpiece : block = piece s (pos - buf.length) (buf.length + n) := by
    rw [hblock, piece_add, ← h.buf_eq, Nat.sub_add_cancel (by omega), ← piece_take hnle, ← hinpeq]
  have hblockend : pos - buf.length + (buf.length + n) ≤ s.length := by omega
  have hblocklen : block.length = buf.length + n := by rw [hpiece, length_piece hblockend]
  have hcontig : ffbufContig buf inp c = (block, block, n) := by
    rw [ffbufContig, if_pos hbuf, if_neg (by omega), ← hn]
    dsimp only
    rw [← hblock, hblocklen, if_neg (by omega)]
  have hne : block ≠ [] := by
    intro hnil
    rw [hnil, length_nil] at hblocklen
    omega
  have hkept : (block.drop (block.length - (c - 1))).length = c - 1 := by
    rw [length_drop]
    omega
  rw [← hblock, ← hblocklen] at hother
  have hstore : ffbufContigStore block (inp.drop n) c = (block.drop (block.length - (c - 1)), 0) := by
    rw [ffbufContigStore_buf hne (by omega), if_neg hother]
  refine ⟨block, _, n, hcontig, by omega, by omega, hstore,
    ⟨hdrop n hnle, by omega, by omega, ?_⟩, .inr ?_, ?_, ?_⟩
  · rw [hkept]
    conv_lhs => rw [hblocklen, hpiece, piece_drop]
    congr 1 <;> omega
  · rw [length_drop]
    omega
  · intro b hb
    obtain rfl := mem_singleton.mp hb
    exact ⟨hblocklen ▸ hblockend, by rw [hblocklen]; exact hpiece⟩
  intro j hj hje
  refine ⟨_, mem_singleton.mpr rfl, ?_, ?_⟩
  · dsimp only
    omega
  · dsimp only
    omega

theorem contigMove_eq {buf₁ block buf' : List UInt8} {r r' : ℕ}
    (hcontig : ffbufContig buf inp c = (buf₁, block, r))
    (hstore : ffbufContigStore buf₁ (inp.drop r) c = (buf', r')) :
    contigMove c ⟨buf, inp, chunks, pos⟩ =
      (if c ≤ block.length then [⟨if buf = [] then pos else pos + r - block.length, block⟩] else [],
        if (inp.drop r).drop r' = [] then
          match chunks with
          | [] => none
          | chunk :: chunks => some ⟨buf', chunk, chunks, pos + r + r'⟩
        else some ⟨buf', (inp.drop r).drop r', chunks, pos + r + r'⟩) := by
  rw [contigMove]
  dsimp only
  rw [hcontig]
  rw [hstore]

/-- **A round** takes a part of the input, if it fits. -/
theorem contig_step (h : Contig c s pos buf (inp ++ chunks.flatten)) (hc : 1 ≤ c)
    (hfits : ContigFits c ⟨buf, inp, chunks, pos⟩) :
    ∃ bs buf' inp' pos', contigMove c ⟨buf, inp, chunks, pos⟩ =
        (bs, if inp' = [] then
          match chunks with
          | [] => none
          | chunk :: chunks => some ⟨buf', chunk, chunks, pos'⟩
        else some ⟨buf', inp', chunks, pos'⟩) ∧
      ContigStep c s pos inp chunks.flatten bs buf' inp' pos' := by
  have hlen := h.buf_len
  by_cases hfew : (buf = [] ∨ inp = []) ∧ buf.length + inp.length < c
  · obtain ⟨buf', r, hcontig, hstore, hstep⟩ := contigMove_few h hc hfew.1 hfew.2
    have hmove := @contigMove_eq c pos _ _ chunks _ _ _ _ _ hcontig hstore
    refine ⟨[], buf', inp.drop r, pos + r, ?_, hstep⟩
    rw [length_nil, if_neg (by omega)] at hmove
    exact hmove
  by_cases hbuf : buf = []
  · subst hbuf
    have hmany : c ≤ inp.length := by
      by_contra hlt
      exact hfew ⟨.inl rfl, by rw [length_nil]; omega⟩
    obtain ⟨hcontig, hstore, hstep⟩ := contigMove_inp h hmany hc
    have hmove := @contigMove_eq c pos _ _ chunks _ _ _ _ _ hcontig hstore
    refine ⟨_, _, [], _, ?_, hstep⟩
    rw [if_pos hmany, if_pos rfl, drop_zero, drop_length, Nat.add_zero] at hmove
    exact hmove
  have hinp : inp ≠ [] := by
    intro hnil
    refine hfew ⟨.inr hnil, ?_⟩
    rw [hnil, length_nil]
    omega
  obtain ⟨block, buf', r, hcontig, hle, hstart, hstore, hstep⟩ := contigMove_buf h hbuf hinp
    ((hfits.2.resolve_left hbuf).resolve_left hinp)
  have hmove := @contigMove_eq c pos _ _ chunks _ _ _ _ _ hcontig hstore
  refine ⟨_, buf', inp.drop r, pos + r, ?_, hstep⟩
  rw [if_pos hle, if_neg hbuf, hstart] at hmove
  exact hmove

theorem ContigOk.extend {bs bs' : List (StreamBlock UInt8)} {pos' : ℕ} (h : ContigOk c s pos' bs')
    (hof : ∀ b ∈ bs, b.Of s) (hwin : ∀ j, pos < j + c → j + c ≤ pos' → Presented bs c j) :
    ContigOk c s pos (bs ++ bs') where
  pieces := by
    intro b hb
    rcases mem_append.mp hb with hb | hb
    · exact hof b hb
    · exact h.pieces b hb
  windows := by
    intro j hj hjs
    by_cases hjp : j + c ≤ pos'
    · exact (hwin j hj hjp).left
    · exact (h.windows j (Nat.lt_of_not_le hjp) hjs).right

/-- The run from the next chunk on. -/
def ContigLater (c : ℕ) (s : List UInt8) (chunks : List (List UInt8)) : Prop :=
  ∀ buf chunk chunks' pos, chunks = chunk :: chunks' → Contig c s pos buf chunks.flatten →
    ContigGood c ⟨buf, chunk, chunks', pos⟩ →
    ∃ bs, RunEnds (contigMove c) ⟨buf, chunk, chunks', pos⟩ bs ∧ ContigOk c s pos bs

theorem contig_last {bs : List (StreamBlock UInt8)} {buf' inp' : List UInt8} {pos' : ℕ}
    (hlater : ContigLater c s chunks)
    (hmove : contigMove c ⟨buf, inp, chunks, pos⟩ =
      (bs, if inp' = [] then
        match chunks with
        | [] => none
        | chunk :: chunks => some ⟨buf', chunk, chunks, pos'⟩
      else some ⟨buf', inp', chunks, pos'⟩))
    (hstep : ContigStep c s pos inp chunks.flatten bs buf' inp' pos') (hinp' : inp' = [])
    (hgood : ContigGood c ⟨buf, inp, chunks, pos⟩) :
    ∃ bs, RunEnds (contigMove c) ⟨buf, inp, chunks, pos⟩ bs ∧ ContigOk c s pos bs := by
  have hinv := hstep.inv
  rw [if_pos hinp'] at hmove
  rw [hinp', nil_append] at hinv
  cases chunks with
  | nil =>
    have hend := congrArg List.length hinv.rest_eq
    rw [flatten_nil, length_nil, length_drop] at hend
    exact ⟨bs, RunEnds.last hmove, hstep.pieces, fun j hj hjs => hstep.windows j hj (by omega)⟩
  | cons chunk chunks =>
    obtain ⟨bs', hrun, hok⟩ := hlater buf' chunk chunks pos' rfl hinv (hgood.next hmove)
    exact ⟨_, RunEnds.cons hmove hrun, hok.extend hstep.pieces hstep.windows⟩

/-- **The rounds for a chunk**: each one takes a part of the input. -/
theorem contig_chunk (hc : 1 ≤ c) (hlater : ContigLater c s chunks) (n : ℕ) :
    ∀ (inp buf : List UInt8) (pos : ℕ), inp.length ≤ n →
      Contig c s pos buf (inp ++ chunks.flatten) → ContigGood c ⟨buf, inp, chunks, pos⟩ →
      ∃ bs, RunEnds (contigMove c) ⟨buf, inp, chunks, pos⟩ bs ∧ ContigOk c s pos bs := by
  induction n with
  | zero =>
    intro inp buf pos hn h hgood
    obtain ⟨bs, buf', inp', pos', hmove, hstep⟩ := contig_step h hc (hgood _ .refl)
    have hinp' : inp' = [] := hstep.shrinks.resolve_right (by omega)
    exact contig_last hlater hmove hstep hinp' hgood
  | succ n ih =>
    intro inp buf pos hn h hgood
    obtain ⟨bs, buf', inp', pos', hmove, hstep⟩ := contig_step h hc (hgood _ .refl)
    by_cases hinp' : inp' = []
    · exact contig_last hlater hmove hstep hinp' hgood
    · have hless := hstep.shrinks.resolve_left hinp'
      rw [if_neg hinp'] at hmove
      obtain ⟨bs', hrun, hok⟩ := ih inp' buf' pos' (by omega) hstep.inv (hgood.next hmove)
      exact ⟨_, RunEnds.cons hmove hrun, hok.extend hstep.pieces hstep.windows⟩

/-- **A run of `ffbuf_contig` and `ffbuf_contig_store`** whose input fits. -/
theorem contig_run (hc : 1 ≤ c) (chunk : List UInt8) (chunks : List (List UInt8))
    (hgood : ContigGood c ⟨[], chunk, chunks, 0⟩) :
    ∃ bs, RunEnds (contigMove c) ⟨[], chunk, chunks, 0⟩ bs ∧
      ContigOk c (chunk ++ chunks.flatten) 0 bs := by
  have hlater : ∀ chunks' : List (List UInt8), ContigLater c (chunk ++ chunks.flatten) chunks' := by
    intro chunks'
    induction chunks' with
    | nil =>
      intro buf chunk' chunks'' pos hnil
      exact absurd hnil (cons_ne_nil _ _).symm
    | cons next chunks' ih =>
      intro buf chunk' chunks'' pos hcons h hgood'
      obtain ⟨rfl, rfl⟩ := List.cons.inj hcons
      exact contig_chunk hc ih _ next buf pos (Nat.le_refl _) h hgood'
  refine contig_chunk hc (hlater chunks) _ chunk [] 0 (Nat.le_refl _) ⟨rfl, Nat.zero_le _, ?_, rfl⟩
    hgood
  exact (Nat.min_zero _).symm

end Contig

/-! ### Both -/

/-- **Windows are presented** by `ffbuf_gather`, and by `ffbuf_contig` with `ffbuf_contig_store`, in
every run in which the states that it comes to fit. -/
theorem ffbufGather_contig (p : List UInt8 → Bool) {c : ℕ} (hc : 1 ≤ c) (hword : c < SIZE_BOUND)
    (chunk : List UInt8) (chunks : List (List UInt8)) :
    (GatherGood p c (.init c chunk chunks) →
      ∃ bs last, RunEnds (gatherMove p c) (.init c chunk chunks) (bs.map .block ++ last) ∧
        GatherOk p c (chunk ++ chunks.flatten) 0 bs last) ∧
    (ContigGood c ⟨[], chunk, chunks, 0⟩ →
      ∃ bs, RunEnds (contigMove c) ⟨[], chunk, chunks, 0⟩ bs ∧
        ContigOk c (chunk ++ chunks.flatten) 0 bs) :=
  ⟨gather_run p hc hword chunk chunks, contig_run hc chunk chunks⟩

theorem GatherGood.of_next {p : List UInt8 → Bool} {c : ℕ} {st : GatherRun}
    (hfits : GatherFits p c st)
    (hnext : ∀ st', (gatherMove p c st).2 = some st' → GatherGood p c st') :
    GatherGood p c st := by
  intro st' hreach
  rcases hreach.cases_head with rfl | ⟨st₁, hmove, hreach'⟩
  · exact hfits
  · exact hnext st₁ hmove st' hreach'

theorem ContigGood.of_next {c : ℕ} {st : ContigRun} (hfits : ContigFits c st)
    (hnext : ∀ st', (contigMove c st).2 = some st' → ContigGood c st') : ContigGood c st := by
  intro st' hreach
  rcases hreach.cases_head with rfl | ⟨st₁, hmove, hreach'⟩
  · exact hfits
  · exact hnext st₁ hmove st' hreach'

/-- Two bytes, in two chunks. -/
theorem ffbufGather_contig_two :
    (∃ bs last, RunEnds (gatherMove (· == [1, 2]) 2) (.init 2 [1] [[2]])
        (bs.map .block ++ last) ∧ GatherOk (· == [1, 2]) 2 [1, 2] 0 bs last) ∧
      ∃ bs, RunEnds (contigMove 2) ⟨[], [1], [[2]], 0⟩ bs ∧ ContigOk 2 [1, 2] 0 bs := by
  have hboth := ffbufGather_contig (· == [1, 2]) (c := 2) (by decide) (by decide) [1] [[2]]
  refine ⟨hboth.1 ?_, hboth.2 ?_⟩
  · refine .of_next (fun _ => ⟨.inl rfl, by decide, by decide, fun k hk => ?_⟩) fun st₁ h₁ => ?_
    · cases hk
    obtain rfl := some.inj h₁
    refine .of_next (fun h => nomatch h) fun st₂ h₂ => ?_
    obtain rfl := some.inj h₂
    refine .of_next (fun _ => ⟨.inr (.inl (by decide)), by decide, by decide, fun k hk => ?_⟩)
      fun st₃ h₃ => ?_
    · cases hk
    obtain rfl := some.inj h₃
    exact .of_next (fun h => nomatch h) fun st₄ h₄ => nomatch h₄
  · refine .of_next ⟨by decide, .inl rfl⟩ fun st₁ h₁ => ?_
    obtain rfl := some.inj h₁
    exact .of_next ⟨by decide, .inr (.inr ⟨by decide, by decide⟩)⟩ fun st₂ h₂ => nomatch h₂

/-- **What is lost.** The end of the first chunk is given up when the second one is looked at by
itself, and the third one is too late; input of one byte after the other is copied again and
again. -/
theorem ffbufGather_lost :
    (¬∃ bs last, RunEnds (gatherMove (· == [3, 4, 5, 6]) 4) (.init 4 [1, 2, 3] [[4, 5], [6]])
        (bs.map .block ++ last) ∧
        GatherOk (· == [3, 4, 5, 6]) 4 [1, 2, 3, 4, 5, 6] 0 bs last) ∧
      ¬∃ bs, RunEnds (contigMove 4) ⟨[], [1], [[2], [3], [4]], 0⟩ bs ∧
        ContigOk 4 [1, 2, 3, 4] 0 bs := by
  constructor
  · rintro ⟨bs, last, hrun, hok⟩
    have hblocks : RunEnds (gatherMove (· == [3, 4, 5, 6]) 4) (.init 4 [1, 2, 3] [[4, 5], [6]])
        [.block ⟨0, [1, 2, 3]⟩, .block ⟨0, [1, 2, 3, 4, 5]⟩, .block ⟨3, [4, 5]⟩,
          .block ⟨3, [4, 5, 6]⟩] := RunEnds.of_runFor (n := 10) rfl
    have hevents := hrun.unique hblocks
    rcases hok.windows with ⟨-, hno, -⟩ | ⟨i, rfl, -⟩
    · exact absurd (hno 2 (by decide)) (by decide)
    · have hlast := congrArg List.getLast? hevents
      rw [getLast?_concat] at hlast
      cases hlast
  · rintro ⟨bs, hrun, hok⟩
    have hblocks : RunEnds (contigMove 4) ⟨[], [1], [[2], [3], [4]], 0⟩
        [⟨0, [1, 2, 2, 2]⟩, ⟨0, [2, 2, 2, 3]⟩, ⟨0, [2, 2, 3, 4]⟩] := RunEnds.of_runFor (n := 20) rfl
    obtain rfl := hrun.unique hblocks
    exact absurd (hok.pieces ⟨0, [1, 2, 2, 2]⟩ mem_cons_self).2 (by decide)

end FF
