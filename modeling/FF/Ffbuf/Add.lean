import FF.Lib.Slots

/-!
# Blocks from pieces of data

`ffbuf_add` gathers data in a buffer and gives blocks of the buffer's size. When the buffer is empty
and there is more data than it holds, the whole blocks are given where they are.

## Conventions

* What a block points to is the list of its bytes at the end of the call.
* Data that has been written behind the bytes in the buffer already, within its capacity, is not
  copied.
-/

namespace FF

open List Option

/-- The buffer: its memory, of which the first `len` bytes are used. -/
structure AddBuf where
  mem : List UInt8
  len : ℕ
  deriving DecidableEq, Repr

/-- The bytes in the buffer. -/
def AddBuf.bytes (b : AddBuf) : List UInt8 := b.mem.take b.len

/-- What is added: bytes somewhere else, or `n` bytes behind those in the buffer. -/
inductive AddSrc
  | away (bs : List UInt8)
  | here (n : ℕ)
  deriving DecidableEq, Repr

/-- The bytes that `src` points to. -/
def AddSrc.bytes (b : AddBuf) : AddSrc → List UInt8
  | away bs => bs
  | here n => (b.mem.drop b.len).take n

/-- `ffbuf_add`: the buffer, the block, if there is one, and the number of bytes that are taken. -/
def ffbufAdd (b : AddBuf) (src : AddSrc) : AddBuf × Option (List UInt8) × ℕ :=
  let len := (src.bytes b).length
  let cap := b.mem.length
  if b.len = 0 ∧ cap < len then
    let sz := len - len % cap
    (b, some ((src.bytes b).take sz), sz)
  else
    let sz := min len (cap - b.len)
    let mem :=
      match src with
      | .away bs => splice b.mem b.len (bs.take sz)
      | .here _ => b.mem
    if cap ≠ b.len + sz then (⟨mem, b.len + sz⟩, none, sz)
    else (⟨mem, 0⟩, some (mem.take (b.len + sz)), sz)

/-- The calls with pieces of data one after another: the buffer, the blocks, and the bytes that have
been taken. -/
def ffbufAdds (b : AddBuf) : List AddSrc → AddBuf × List (List UInt8) × List UInt8
  | [] => (b, [], [])
  | src :: srcs =>
    let out := ffbufAdd b src
    let rest := ffbufAdds out.1 srcs
    (rest.1, out.2.1.toList ++ rest.2.1, (src.bytes b).take out.2.2 ++ rest.2.2)

section Add

variable {b b' : AddBuf} {src : AddSrc} {block : Option (List UInt8)} {sz : ℕ}

theorem take_copied (hlen : b.len ≤ b.mem.length) {n : ℕ} (hn : n ≤ (src.bytes b).length) :
    (match src with
      | .away bs => splice b.mem b.len (bs.take n)
      | .here _ => b.mem).take (b.len + n) = b.bytes ++ (src.bytes b).take n := by
  cases src with
  | away bs =>
    have htake : (bs.take n).length = n := length_take_of_le hn
    rw [take_add, take_splice hlen, drop_splice hlen, take_left' htake]
    rfl
  | here k =>
    rw [AddSrc.bytes, length_take, length_drop] at hn
    rw [AddSrc.bytes, take_take, Nat.min_eq_left (by omega), take_add, AddBuf.bytes]

theorem length_copied {n : ℕ} (hn : n ≤ (src.bytes b).length) (hroom : b.len + n ≤ b.mem.length) :
    (match src with
      | .away bs => splice b.mem b.len (bs.take n)
      | .here _ => b.mem).length = b.mem.length := by
  cases src with
  | away bs =>
    have htake : (bs.take n).length = n := length_take_of_le hn
    exact length_splice (htake.symm ▸ hroom)
  | here k => rfl

/-- **A call** moves the bytes that are taken to the end of the block and of the buffer. -/
theorem ffbufAdd_spec (hlen : b.len < b.mem.length) (h : ffbufAdd b src = (b', block, sz)) :
    block.getD [] ++ b'.bytes = b.bytes ++ (src.bytes b).take sz ∧
      (∀ bs ∈ block, bs ≠ [] ∧ b.mem.length ∣ bs.length) ∧
      b'.mem.length = b.mem.length ∧ b'.len < b'.mem.length := by
  rw [ffbufAdd] at h
  by_cases hwhole : b.len = 0 ∧ b.mem.length < (src.bytes b).length
  · -- The buffer is empty, and the input is larger than the buffer.
    obtain ⟨hzero, hmore⟩ := hwhole
    rw [if_pos ⟨hzero, hmore⟩] at h
    obtain ⟨rfl, rfl, rfl⟩ := h
    have hmod := Nat.mod_lt (src.bytes b).length (Nat.zero_lt_of_lt hlen)
    have htake : ((src.bytes b).take ((src.bytes b).length -
        (src.bytes b).length % b.mem.length)).length =
          (src.bytes b).length - (src.bytes b).length % b.mem.length :=
      length_take_of_le (Nat.sub_le _ _)
    refine ⟨?_, fun bs hbs => ?_, rfl, hlen⟩
    · rw [AddBuf.bytes, hzero, take_zero, append_nil, nil_append, getD_some]
    obtain rfl := Option.mem_some.mp hbs
    refine ⟨fun hnil => ?_, ?_⟩
    · rw [hnil, length_nil] at htake
      omega
    · rw [htake]
      exact Nat.dvd_sub_mod _
  rw [if_neg hwhole] at h
  have hn : min (src.bytes b).length (b.mem.length - b.len) ≤ (src.bytes b).length :=
    Nat.min_le_left _ _
  have hroom : b.len + min (src.bytes b).length (b.mem.length - b.len) ≤ b.mem.length := by omega
  have hput := take_copied (Nat.le_of_lt hlen) hn
  have hmem := length_copied hn hroom
  by_cases hfull : b.mem.length ≠
      b.len + min (src.bytes b).length (b.mem.length - b.len)
  · rw [if_pos hfull] at h
    obtain ⟨rfl, rfl, rfl⟩ := h
    refine ⟨?_, fun bs hbs => (nomatch hbs), hmem, ?_⟩
    · rw [getD_none, nil_append]
      exact hput
    · dsimp only
      omega
  -- The buffer is full.
  rw [if_neg hfull] at h
  obtain ⟨rfl, rfl, rfl⟩ := h
  have hlast := not_not.mp hfull
  refine ⟨?_, fun bs hbs => ?_, hmem, ?_⟩
  · rw [AddBuf.bytes, take_zero, append_nil, getD_some]
    exact hput
  · obtain rfl := Option.mem_some.mp hbs
    rw [← hlast, take_of_length_le (Nat.le_of_eq hmem)]
    refine ⟨fun hnil => ?_, 1, ?_⟩
    · rw [hnil, length_nil] at hmem
      omega
    · rw [Nat.mul_one, hmem]
  · dsimp only
    omega

/-- **A run**: the blocks and then the buffer hold what was in the buffer and what has been taken. -/
theorem ffbufAdds_spec (b : AddBuf) (srcs : List AddSrc) (hlen : b.len < b.mem.length) :
    (ffbufAdds b srcs).2.1.flatten ++ (ffbufAdds b srcs).1.bytes =
        b.bytes ++ (ffbufAdds b srcs).2.2 ∧
      (∀ bs ∈ (ffbufAdds b srcs).2.1, bs ≠ [] ∧ b.mem.length ∣ bs.length) ∧
      (ffbufAdds b srcs).1.mem.length = b.mem.length ∧
      (ffbufAdds b srcs).1.len < b.mem.length := by
  induction srcs generalizing b with
  | nil =>
    refine ⟨?_, fun bs hbs => (nomatch hbs), rfl, hlen⟩
    rw [ffbufAdds, flatten_nil, nil_append, append_nil]
  | cons src srcs ih =>
    have hcall : ffbufAdd b src =
        ((ffbufAdd b src).1, (ffbufAdd b src).2.1, (ffbufAdd b src).2.2) := rfl
    obtain ⟨hbytes, hblock, hmem, hlt⟩ := ffbufAdd_spec hlen hcall
    obtain ⟨ihbytes, ihblocks, ihmem, ihlt⟩ := ih _ hlt
    rw [hmem] at ihblocks ihmem ihlt
    rw [ffbufAdds]
    refine ⟨?_, fun bs hbs => ?_, ihmem, ihlt⟩
    · dsimp only
      have htoList : (ffbufAdd b src).2.1.toList.flatten = (ffbufAdd b src).2.1.getD [] := by
        cases (ffbufAdd b src).2.1 with
        | none => rfl
        | some bs => exact append_nil bs
      rw [flatten_append, append_assoc, ihbytes, htoList, ← append_assoc, hbytes, append_assoc]
    · rcases mem_append.mp hbs with hbs | hbs
      · exact hblock bs (Option.mem_toList.mp hbs)
      · exact ihblocks bs hbs

/-- A buffer of four bytes with two in it, and three pieces: the second is larger than the buffer. -/
theorem ffbufAdds_spec_four :
    (ffbufAdds ⟨[1, 2, 0, 0], 2⟩ [.away [3, 4, 5], .away [5, 6, 7, 8, 9, 10], .away [9, 10]]).2 =
        ([[1, 2, 3, 4], [5, 6, 7, 8]], [3, 4, 5, 6, 7, 8, 9, 10]) ∧
      (ffbufAdds ⟨[1, 2, 0, 0], 2⟩
        [.away [3, 4, 5], .away [5, 6, 7, 8, 9, 10], .away [9, 10]]).1.len < 4 :=
  ⟨by decide, (ffbufAdds_spec ⟨[1, 2, 0, 0], 2⟩
    [.away [3, 4, 5], .away [5, 6, 7, 8, 9, 10], .away [9, 10]] (by decide)).2.2.2⟩

end Add

end FF
