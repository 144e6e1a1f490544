import FF.Fileread.Basic
import Mathlib.Data.List.Basic

/-!
# What the file reader returns

The buffers hold blocks of the file (`FrBuf.Filled`), whatever the order of requests and
completions is. The answers are right as long as a read-ahead is not made into the buffer that the
request returns: the program looks for the next buffer to fill (`wbuf`) before it locks the one that
was found in the cache.
-/

namespace FF

open List Option

/-! ### Blocks -/

/-- A buffer holds a part of the file. -/
structure FrBuf.Filled (conf : FrConf) (file : FrFile) (b : FrBuf) : Prop where
  offset_lt : b.offset < 2 ^ 64
  mem : b.mem.length = conf.bufsize
  len : b.len ≤ conf.bufsize
  inside : b.len ≠ 0 → b.offset + b.len ≤ file.data.length
  bytes : b.mem.take b.len = (file.data.drop b.offset).take b.len

section Blocks

variable {conf : FrConf} {file : FrFile} {b : FrBuf} {bufs : List FrBuf} {off : ℕ}

theorem overlay_length (mem bytes : List UInt8) : (overlay mem bytes).length = mem.length := by
  rw [overlay, length_append, length_take, length_drop]
  omega

theorem overlay_take {mem bytes : List UInt8} (h : bytes.length ≤ mem.length) :
    (overlay mem bytes).take bytes.length = bytes := by
  rw [overlay, take_of_length_le h, take_left]

theorem FrFile.block_length (file : FrFile) (off bufsize : ℕ) :
    (file.block off bufsize).length = min bufsize (file.data.length - off) := by
  rw [FrFile.block, length_take, length_drop]

theorem FrBuf.Filled.empty {mem : List UInt8} (hoff : off < 2 ^ 64)
    (hmem : mem.length = conf.bufsize) :
    FrBuf.Filled conf file { len := 0, offset := off, mem := mem } :=
  ⟨hoff, hmem, Nat.zero_le _, fun h => absurd rfl h, rfl⟩

theorem FrBuf.Filled.block {mem : List UInt8} (hoff : off < 2 ^ 64)
    (hmem : mem.length = conf.bufsize) :
    FrBuf.Filled conf file
      { len := (file.block off conf.bufsize).length, offset := off
        mem := overlay mem (file.block off conf.bufsize) } := by
  have hlen := file.block_length off conf.bufsize
  have hle : (file.block off conf.bufsize).length ≤ conf.bufsize := by
    rw [hlen]
    exact Nat.min_le_left _ _
  refine ⟨hoff, (overlay_length _ _).trans hmem, hle, fun h => ?_, ?_⟩
  · dsimp only at h ⊢
    rw [hlen] at h ⊢
    omega
  · dsimp only
    rw [overlay_take (hmem ▸ hle), FrFile.block, length_take, ← take_eq_take_min]

/-- What `bufs_find` looks for is data of the file. -/
theorem FrBuf.Filled.within_iff (h : b.Filled conf file) :
    b.within off ↔ b.offset ≤ off ∧ off < b.offset + b.len := by
  have hsize := file.hsize
  have hoff := h.offset_lt
  rw [FrBuf.within]
  by_cases h0 : b.len = 0
  · rw [h0, Nat.add_zero, Nat.mod_eq_of_lt hoff]
  · have hin := h.inside h0
    rw [Nat.mod_eq_of_lt (by omega)]

theorem bufsFind_some {i : ℕ} (h : bufsFind bufs off = some i) :
    ∃ b, bufs[i]? = some b ∧ b.within off := by
  obtain ⟨hi, hw, -⟩ := findIdx?_eq_some_iff_getElem.mp h
  exact ⟨bufs[i], getElem?_eq_getElem hi, of_decide_eq_true hw⟩

theorem bufsFind_none (h : bufsFind bufs off = none) : ∀ b ∈ bufs, ¬b.within off := by
  intro b hb
  have hw := findIdx?_eq_none_iff.mp h b hb
  exact of_decide_eq_false hw

end Blocks

/-! ### The invariant -/

/-- The buffers are those of the settings, each holds a part of the file, a scheduled read has an
empty buffer, and `eof` is not in front of the end. -/
structure FrInv (conf : FrConf) (file : FrFile) (f : Fileread) : Prop where
  length : f.bufs.length = conf.nbufs
  wbuf : f.wbuf < conf.nbufs
  filled : ∀ (i : ℕ) (b : FrBuf), f.bufs[i]? = some b → b.Filled conf file
  async : f.state = .async → ∀ b, f.bufs[f.wbuf]? = some b → b.len = 0
  eof : f.state = .eof → file.data.length ≤ f.eof

/-- What a read leaves: the buffer `wbuf` has the block. -/
structure FrReads (conf : FrConf) (file : FrFile) (f : Fileread) (off : ℕ) (f' : Fileread)
    (r : FrR) : Prop where
  inv : FrInv conf file f'
  other : ∀ i, i ≠ f.wbuf → f'.bufs[i]? = f.bufs[i]?
  own : ∃ b, f'.bufs[f.wbuf]? = some b ∧ b.offset = off ∧ (r = .data → b.len = conf.bufsize) ∧
    (r = .done → file.data.length ≤ off + b.len)
  next : r = .data ∨ r = .done → f'.wbuf = (f.wbuf + 1) % conf.nbufs

section Reads

variable {conf : FrConf} {file : FrFile} {f : Fileread} {b : FrBuf} {off : ℕ}

theorem FrInv.own (h : FrInv conf file f) : ∃ b, f.bufs[f.wbuf]? = some b :=
  ⟨_, getElem?_eq_getElem (h.length ▸ h.wbuf)⟩

/-- A write to the buffer `wbuf` keeps the others. -/
theorem FrInv.set (h : FrInv conf file f) (hb : b.Filled conf file) :
    (f.bufs.set f.wbuf b).length = conf.nbufs ∧
      (∀ (i : ℕ) (c : FrBuf), (f.bufs.set f.wbuf b)[i]? = some c → c.Filled conf file) ∧
      (f.bufs.set f.wbuf b)[f.wbuf]? = some b ∧
      ∀ i, i ≠ f.wbuf → (f.bufs.set f.wbuf b)[i]? = f.bufs[i]? := by
  have hown : (f.bufs.set f.wbuf b)[f.wbuf]? = some b :=
    getElem?_set_self (h.length ▸ h.wbuf)
  have hother : ∀ i, i ≠ f.wbuf → (f.bufs.set f.wbuf b)[i]? = f.bufs[i]? :=
    fun i hi => getElem?_set_ne (Ne.symm hi)
  refine ⟨(length_set ..).trans h.length, fun i c hc => ?_, hown, hother⟩
  by_cases hi : i = f.wbuf
  · subst hi
    rw [hown] at hc
    obtain rfl := some.inj hc
    exact hb
  · rw [hother i hi] at hc
    exact h.filled i c hc

/-- **`fr_read`** into an empty buffer. -/
theorem frRead_spec (h : FrInv conf file f) (hst : f.state ≠ .async)
    (hb : f.bufs[f.wbuf]? = some b) (hlen : b.len = 0) (res : AioRes) :
    ∃ f' r, frRead conf file f res = some (f', r) ∧ f'.locked = f.locked ∧
      FrReads conf file f b.offset f' r := by
  have hfill := h.filled _ _ hb
  have hempty : ∀ junk : List UInt8, FrBuf.Filled conf file { b with mem := overlay b.mem junk } := by
    intro junk
    rw [hlen]
    exact .empty hfill.offset_lt ((overlay_length _ _).trans hfill.mem)
  have hwrap : (f.wbuf + 1) % conf.nbufs < conf.nbufs :=
    Nat.mod_lt _ (Nat.pos_of_ne_zero conf.hnbufs)
  rw [frRead, hb]
  dsimp only [bind_eq_bind, bind_some]
  cases res with
  | again =>
    refine ⟨_, _, rfl, rfl, ⟨h.length, h.wbuf, h.filled, fun _ c hc => ?_, nofun⟩, fun _ _ => rfl,
      ⟨b, hb, rfl, nofun, nofun⟩, nofun⟩
    obtain rfl := some.inj (hb.symm.trans hc)
    exact hlen
  | fail junk =>
    obtain ⟨hl, hf, ho, hn⟩ := h.set (hempty junk)
    exact ⟨_, _, rfl, rfl, ⟨hl, h.wbuf, hf, nofun, nofun⟩, hn, ⟨_, ho, rfl, nofun, nofun⟩, nofun⟩
  | done eagain =>
    obtain ⟨hl, hf, ho, hn⟩ := h.set (hempty (file.block b.offset conf.bufsize))
    have hblock := file.block_length b.offset conf.bufsize
    dsimp only
    by_cases hint : 2 ^ 31 ≤ (file.block b.offset conf.bufsize).length
    · rw [if_pos hint]
      by_cases he : eagain = true
      · rw [if_pos he]
        refine ⟨_, _, rfl, rfl, ⟨hl, h.wbuf, hf, fun _ c hc => ?_, nofun⟩, hn,
          ⟨_, ho, rfl, nofun, nofun⟩, nofun⟩
        obtain rfl := some.inj (ho.symm.trans hc)
        exact hlen
      · rw [if_neg he]
        exact ⟨_, _, rfl, rfl, ⟨hl, h.wbuf, hf, nofun, nofun⟩, hn, ⟨_, ho, rfl, nofun, nofun⟩,
          nofun⟩
    rw [if_neg hint, set_set]
    have hblock := @FrBuf.Filled.block conf file b.offset b.mem hfill.offset_lt hfill.mem
    obtain ⟨hl, hf, ho, hn⟩ := h.set hblock
    by_cases hshort : (file.block b.offset conf.bufsize).length ≠ conf.bufsize
    · rw [if_pos hshort]
      have hend : file.data.length ≤ b.offset + (file.block b.offset conf.bufsize).length := by
        omega
      have heof : file.data.length ≤
          (b.offset + (file.block b.offset conf.bufsize).length) % 2 ^ 64 := by
        have hoff := hfill.offset_lt
        have hsize := file.hsize
        rw [Nat.mod_eq_of_lt (by omega)]
        exact hend
      exact ⟨_, _, rfl, rfl, ⟨hl, hwrap, hf, nofun, fun _ => heof⟩, hn,
        ⟨_, ho, rfl, nofun, fun _ => hend⟩, fun _ => rfl⟩
    · rw [if_neg hshort]
      exact ⟨_, _, rfl, rfl, ⟨hl, hwrap, hf, fun hs => absurd hs hst, h.eof⟩, hn,
        ⟨_, ho, rfl, fun _ => not_not.mp hshort, nofun⟩, fun _ => rfl⟩

/-- **`fr_read_off`** reads a block into the buffer `wbuf`. -/
theorem frReadOff_spec (h : FrInv conf file f) (hst : f.state ≠ .async)
    (hlock : f.locked = frNone32) (hoff : off < 2 ^ 64) (res : AioRes) :
    ∃ f' r, frReadOff conf file f off res = some (f', r) ∧ f'.locked = f.locked ∧
      FrReads conf file f off f' r := by
  obtain ⟨b, hb⟩ := h.own
  have hne : f.wbuf ≠ f.locked := by
    have hw := h.wbuf
    have hword := conf.hword.2
    rw [hlock, frNone32]
    omega
  obtain ⟨hl, hf, ho, hn⟩ := h.set (FrBuf.Filled.empty hoff (h.filled _ _ hb).mem)
  rw [frReadOff, hb]
  dsimp only [bind_eq_bind, bind_some]
  rw [if_neg hne]
  obtain ⟨f', r, he, hlocked, hreads⟩ := frRead_spec
    (f := { f with bufs := f.bufs.set f.wbuf { b with len := 0, offset := off } })
    ⟨hl, h.wbuf, hf, fun hs => absurd hs hst, h.eof⟩ hst ho rfl res
  exact ⟨f', r, he, hlocked, hreads.inv, fun i hi => (hreads.other i hi).trans (hn i hi),
    hreads.own, hreads.next⟩

end Reads

/-! ### Answers -/

/-- What a request was answered: data is in a buffer, or the offset is not in front of the end. -/
def FrAnswers (file : FrFile) (f : Fileread) (off : ℕ) : FrReply → Prop
  | .read ibuf shift len =>
    0 < len ∧ ∃ b, f.bufs[ibuf]? = some b ∧ off = b.offset + shift ∧ b.len = shift + len
  | .eof => file.data.length ≤ off
  | _ => True

/-- **The last answer is right**: at least one byte, which is in the buffer and is the file's, or
the end of the file. -/
def FrCorrect (file : FrFile) (s : FrSys) : Prop :=
  match s.last with
  | some (off, .read ibuf shift len) =>
    0 < len ∧ off + len ≤ file.data.length ∧ ∃ b, s.f.bufs[ibuf]? = some b ∧
      shift + len ≤ b.mem.length ∧
      (b.mem.drop shift).take len = (file.data.drop off).take len
  | some (off, .eof) => file.data.length ≤ off
  | _ => True

/-- The invariant of the reader and of what its user has. -/
def FrSysInv (conf : FrConf) (file : FrFile) (s : FrSys) : Prop :=
  FrInv conf file s.f ∧ ∀ off r, s.last = some (off, r) → FrAnswers file s.f off r

/-- **A step is safe**: a request does not read ahead into the buffer in which it finds its data. -/
def FrSafe (conf : FrConf) (s : FrSys) : FrEv → Prop
  | .getdata off flags _ _ =>
    bufsFind s.f.bufs off.toNat = some s.f.wbuf →
      ∀ b, s.f.bufs[s.f.wbuf]? = some b → ¬ReadsAhead conf s.f b flags
  | _ => True

section Answers

variable {conf : FrConf} {file : FrFile} {f : Fileread} {b : FrBuf} {off ibuf : ℕ} {s : FrSys}

theorem FrSysInv.correct (h : FrSysInv conf file s) : FrCorrect file s := by
  obtain ⟨hinv, hans⟩ := h
  rw [FrCorrect]
  cases hl : s.last with
  | none => exact trivial
  | some p =>
    obtain ⟨off, r⟩ := p
    have ha := hans off r hl
    cases r with
    | read ibuf shift len =>
      obtain ⟨hpos, b, hb, rfl, hlen⟩ := ha
      have hfill := hinv.filled _ _ hb
      have hin := hfill.inside (by omega)
      have hle := hfill.len
      refine ⟨hpos, by omega, b, hb, by rw [hfill.mem]; omega, ?_⟩
      have hbytes := congrArg (List.drop shift) hfill.bytes
      rw [drop_take, drop_take, hlen, Nat.add_sub_cancel_left, drop_drop]
        at hbytes
      exact hbytes
    | eof => exact ha
    | err => exact trivial
    | async => exact trivial

theorem FrInv.congr {f' : Fileread} (h : FrInv conf file f) (hbufs : f'.bufs = f.bufs)
    (hwbuf : f'.wbuf = f.wbuf) (hstate : f'.state = f.state) (heof : f'.eof = f.eof) :
    FrInv conf file f' := by
  obtain ⟨hl, hw, hf, ha, he⟩ := h
  rw [← hbufs] at hl hf ha
  rw [← hwbuf] at hw ha
  rw [← hstate] at ha he
  rw [← heof] at he
  exact ⟨hl, hw, hf, ha, he⟩

theorem aheadOff_lt (conf : FrConf) (b : FrBuf) (flags : FrFlags) :
    aheadOff conf b flags < 2 ^ 64 := by
  rw [aheadOff]
  split
  · exact Nat.mod_lt _ (by decide)
  · exact Nat.mod_lt _ (by decide)

/-- **The end of a request**: the buffer is returned, if nothing is read ahead into it. -/
theorem frDone_spec (h : FrInv conf file f) (hlock : f.locked = frNone32)
    (hb : f.bufs[ibuf]? = some b) (hin : b.within off) (flags : FrFlags)
    (hsafe : ReadsAhead conf f b flags → ibuf ≠ f.wbuf) (res : AioRes) :
    ∃ f' r, frDone conf file f ibuf off flags res = some (f', r) ∧ FrInv conf file f' ∧
      FrAnswers file f' off r := by
  have hahead : ∃ f', frAhead conf file f b flags res = some f' ∧ FrInv conf file f' ∧
      f'.bufs[ibuf]? = some b := by
    rw [frAhead]
    by_cases hra : ReadsAhead conf f b flags
    · obtain ⟨f', r, he, -, hreads⟩ :=
        frReadOff_spec h hra.2.2.2.2.2 hlock (aheadOff_lt conf b flags) res
      refine ⟨f', by rw [if_pos hra, he, map_some], hreads.inv, ?_⟩
      rw [hreads.other _ (hsafe hra), hb]
    · exact ⟨f, if_neg hra, h, hb⟩
  obtain ⟨f', he, hinv, hb'⟩ := hahead
  have hfill := h.filled _ _ hb
  obtain ⟨hlow, hhigh⟩ := hfill.within_iff.mp hin
  have hlen := hfill.inside (by omega)
  have hsize := file.hsize
  have hshift : (off + (2 ^ 64 - b.offset)) % 2 ^ 64 = off - b.offset := by omega
  have hrest : (b.len + (2 ^ 64 - (off - b.offset))) % 2 ^ 64 = b.len - (off - b.offset) := by
    omega
  refine ⟨{ f' with locked := ibuf }, .read ibuf (off - b.offset) (b.len - (off - b.offset)), ?_,
    hinv.congr rfl rfl rfl rfl, by omega, b, hb', by omega, by omega⟩
  rw [frDone, hb]
  dsimp only [bind_eq_bind, bind_some]
  rw [he, bind_some, hb', bind_some, hshift, hrest]

/-- **A read-ahead into the buffer that is returned** makes the answer wrong. -/
theorem frDone_clobbers (h : FrInv conf file f) (hlock : f.locked = frNone32)
    (hb : f.bufs[f.wbuf]? = some b) (hin : b.within off) (hoff : off < 2 ^ 64) {flags : FrFlags}
    (hra : ReadsAhead conf f b flags) (res : AioRes) :
    ∃ f' r, frDone conf file f f.wbuf off flags res = some (f', r) ∧
      ¬FrCorrect file { f := f', last := some (off, r) } := by
  obtain ⟨f', r, he, -, hreads⟩ :=
    frReadOff_spec h hra.2.2.2.2.2 hlock (aheadOff_lt conf b flags) res
  obtain ⟨b', hb', hoff', -, -⟩ := hreads.own
  refine ⟨_, _, by
    rw [frDone, hb]
    dsimp only [bind_eq_bind, bind_some]
    rw [frAhead, if_pos hra, he, map_some, bind_some, hb', bind_some], ?_⟩
  rintro ⟨hpos, -, c, hc, hroom, -⟩
  obtain rfl := some.inj (hb'.symm.trans hc)
  have hfill := h.filled _ _ hb
  obtain ⟨hlow, hhigh⟩ := hfill.within_iff.mp hin
  have hlen := hfill.inside (by omega)
  have hsize := file.hsize
  have hfill' := hreads.inv.filled _ _ hb'
  have hword := conf.hword.1
  rw [hfill'.mem] at hroom
  rw [hoff', aheadOff] at hpos hroom
  by_cases hback : flags.backward = true
  · rw [if_pos hback] at hpos hroom
    -- the block in front: the data would start behind its end
    have hshift : (off + (2 ^ 64 - (b.offset + (2 ^ 64 - conf.bufsize)) % 2 ^ 64)) % 2 ^ 64 =
        off - b.offset + conf.bufsize := by
      omega
    rw [hshift] at hpos hroom
    omega
  rw [if_neg hback] at hpos hroom
  -- the block behind: the data would start in front of the buffer
  have hshift : (off + (2 ^ 64 - (b.offset + b.len) % 2 ^ 64)) % 2 ^ 64 =
      2 ^ 64 - (b.offset + b.len - off) := by
    omega
  rw [hshift] at hpos hroom
  omega

/-- **A request whose data is not in the cache.** -/
theorem frMiss_spec (h : FrInv conf file f) (hst : f.state ≠ .async)
    (hlock : f.locked = frNone32) (hmiss : bufsFind f.bufs off = none) (hoff : off < 2 ^ 64)
    (flags : FrFlags) (res res' : AioRes) :
    ∃ f' r, frMiss conf file f off flags res res' = some (f', r) ∧ FrInv conf file f' ∧
      FrAnswers file f' off r := by
  have halign : off / conf.bufalign * conf.bufalign ≤ off := Nat.div_mul_le_self _ _
  obtain ⟨f₁, r₁, he, hlock₁, hreads⟩ :=
    frReadOff_spec h hst hlock (Nat.lt_of_le_of_lt halign hoff) res
  obtain ⟨b, hb, hboff, hfull, hend⟩ := hreads.own
  have hfill := hreads.inv.filled _ _ hb
  rw [frMiss, he]
  dsimp only [bind_eq_bind, bind_some]
  -- what a request finds behind a read is the new block
  have hfind : ∀ r, r₁ = r → r = .data ∨ r = .done →
      (∃ i, bufsFind f₁.bufs off = some i ∧ ∃ f' r', frDone conf file f₁ i off flags res' =
        some (f', r') ∧ FrInv conf file f' ∧ FrAnswers file f' off r') ∨
      (bufsFind f₁.bufs off = none ∧ ¬b.within off) := by
    rintro r rfl hr
    cases hf : bufsFind f₁.bufs off with
    | none => exact .inr ⟨rfl, bufsFind_none hf b (mem_of_getElem? hb)⟩
    | some i =>
      refine .inl ⟨i, rfl, ?_⟩
      obtain ⟨c, hc, hin⟩ := bufsFind_some hf
      have hown : i = f.wbuf := by
        refine Classical.not_not.mp fun hne => ?_
        rw [hreads.other i hne] at hc
        exact bufsFind_none hmiss c (mem_of_getElem? hc) hin
      refine frDone_spec hreads.inv (hlock₁.trans hlock) hc hin flags (fun hra => ?_) res'
      have hw := h.wbuf
      have hn := hra.2.2.2.1
      rw [hown, hreads.next hr]
      by_cases hlast : f.wbuf + 1 = conf.nbufs
      · rw [hlast, Nat.mod_self]
        omega
      · rw [Nat.mod_eq_of_lt (by omega)]
        omega
  cases r₁ with
  | async => exact ⟨_, _, rfl, hreads.inv.congr rfl rfl rfl rfl, trivial⟩
  | err => exact ⟨_, _, rfl, hreads.inv, trivial⟩
  | data =>
    rcases hfind _ rfl (.inl rfl) with ⟨i, hf, f', r', hd, hinv, hans⟩ | ⟨-, hout⟩
    · exact ⟨f', r', by simp only [hf, hd], hinv, hans⟩
    refine absurd (hfill.within_iff.mpr ?_) hout
    have hlen := hfull rfl
    have hmod := Nat.mod_lt off (Nat.pos_of_ne_zero fun h0 : conf.bufalign = 0 => by
      obtain ⟨k, hk⟩ := conf.hpower
      exact absurd (hk.symm.trans h0) (Nat.ne_of_gt (Nat.two_pow_pos k)))
    have hdiv := Nat.div_add_mod' off conf.bufalign
    have hle := Nat.le_of_dvd (Nat.pos_of_ne_zero conf.hbufsize) conf.halign
    omega
  | done =>
    rcases hfind _ rfl (.inr rfl) with ⟨i, hf, f', r', hd, hinv, hans⟩ | ⟨hf, hout⟩
    · exact ⟨f', r', by simp only [hf, hd], hinv, hans⟩
    refine ⟨f₁, .eof, by simp only [hf, if_true], hreads.inv, ?_⟩
    have hend := hend rfl
    rw [hfill.within_iff] at hout
    by_cases h0 : b.len = 0
    · exact Nat.le_trans (by omega) halign
    · have hin := hfill.inside h0
      refine Nat.le_of_not_lt fun hlt => hout ⟨by omega, by omega⟩

/-- **A request of a safe step** is answered with bytes of the file. -/
theorem fffilereadGetdata_spec (h : FrInv conf file f) (hoff : off < 2 ^ 64) (flags : FrFlags)
    (hsafe : bufsFind f.bufs off = some f.wbuf →
      ∀ b, f.bufs[f.wbuf]? = some b → ¬ReadsAhead conf f b flags) (res res' : AioRes) :
    ∃ f' r, fffilereadGetdata conf file f off flags res res' = some (f', r) ∧
      FrInv conf file f' ∧ FrAnswers file f' off r := by
  rw [fffilereadGetdata]
  cases hf : bufsFind f.bufs off with
  | some i =>
    obtain ⟨b, hb, hin⟩ := bufsFind_some hf
    have hset : FrInv conf file (frHit { f with locked := frNone32 } off) :=
      h.congr rfl rfl rfl rfl
    refine frDone_spec hset rfl hb hin flags ?_ res'
    rintro hra rfl
    exact hsafe hf b hb hra
  | none =>
    have hok : FrInv conf file { f with locked := frNone32, state := .ok } :=
      ⟨h.length, h.wbuf, h.filled, nofun, nofun⟩
    have herr : FrInv conf file { f with locked := frNone32, state := .err } :=
      ⟨h.length, h.wbuf, h.filled, nofun, nofun⟩
    have hne : FiSt.ok ≠ FiSt.async := nofun
    have hne' : FiSt.err ≠ FiSt.async := nofun
    cases hst : f.state with
    | ok => exact frMiss_spec hok hne rfl hf hoff flags res res'
    | err => exact frMiss_spec herr hne' rfl hf hoff flags res res'
    | async => exact ⟨_, _, rfl, h.congr rfl rfl hst.symm rfl, trivial⟩
    | eof =>
      have hend := h.eof hst
      by_cases hlt : f.eof < off
      · exact ⟨_, _, if_pos hlt, h.congr rfl rfl hst.symm rfl, trivial⟩
      · rw [if_neg hlt]
        by_cases heq : off = f.eof
        · exact ⟨_, _, if_pos heq, h.congr rfl rfl hst.symm rfl, heq ▸ hend⟩
        · rw [if_neg heq]
          exact frMiss_spec hok hne rfl hf hoff flags res res'

theorem frReadA_spec (h : FrInv conf file f) (hst : f.state = .async) (res : AioRes) :
    ∃ f', frReadA conf file f res = some f' ∧ FrInv conf file f' ∧
      ∀ i, i ≠ f.wbuf → f'.bufs[i]? = f.bufs[i]? := by
  obtain ⟨b, hb⟩ := h.own
  have hok : FrInv conf file { f with state := .ok } :=
    ⟨h.length, h.wbuf, h.filled, nofun, nofun⟩
  obtain ⟨f', r, he, -, hreads⟩ := frRead_spec hok nofun hb (h.async hst b hb) res
  refine ⟨f', ?_, hreads.inv, hreads.other⟩
  rw [frReadA, if_neg (not_not.mpr hst), he, map_some]

theorem FrAnswers.keep {f' : Fileread} {r : FrReply} (h : FrInv conf file f)
    (hst : f.state = .async) (hans : FrAnswers file f off r)
    (hother : ∀ i, i ≠ f.wbuf → f'.bufs[i]? = f.bufs[i]?) : FrAnswers file f' off r := by
  cases r with
  | read ibuf shift len =>
    obtain ⟨hpos, b, hb, hoff, hlen⟩ := hans
    refine ⟨hpos, b, ?_, hoff, hlen⟩
    rw [hother, hb]
    rintro rfl
    have h0 := h.async hst b hb
    omega
  | eof => exact hans
  | err => exact trivial
  | async => exact trivial

/-- **A safe step** keeps the invariant. -/
theorem frStep_preserves (conf : FrConf) (file : FrFile) :
    Preserves (frStep conf file) (FrSafe conf) (FrSysInv conf file) := by
  rintro s ev ⟨hinv, hans⟩ hsafe
  cases ev with
  | getdata off flags res res' =>
    obtain ⟨f', r, he, hinv', hans'⟩ :=
      fffilereadGetdata_spec hinv off.toNat_lt flags hsafe res res'
    refine ⟨_, by rw [frStep, he]; rfl, hinv', ?_⟩
    rintro off' r' hl
    cases hl
    exact hans'
  | dma bytes =>
    rw [frStep]
    by_cases hst : s.f.state = .async
    · obtain ⟨b, hb⟩ := hinv.own
      have h0 := hinv.async hst b hb
      have hfill := hinv.filled _ _ hb
      obtain ⟨hl, hf, ho, hn⟩ := hinv.set (b := { b with mem := overlay b.mem bytes }) (by
        rw [h0]
        exact .empty hfill.offset_lt ((overlay_length _ _).trans hfill.mem))
      refine ⟨{ s with f.bufs := s.f.bufs.set s.f.wbuf { b with mem := overlay b.mem bytes } },
        by rw [if_pos hst, hb]; rfl, ⟨hl, hinv.wbuf, hf, fun _ c hc => ?_, hinv.eof⟩,
        fun off r hr => (hans off r hr).keep hinv hst hn⟩
      obtain rfl := some.inj (ho.symm.trans hc)
      exact h0
    · exact ⟨s, if_neg hst, hinv, hans⟩
  | complete res =>
    rw [frStep]
    by_cases hst : s.f.state = .async
    · obtain ⟨f', he, hinv', hother⟩ := frReadA_spec hinv hst res
      exact ⟨{ s with f := f' }, by rw [if_pos hst, he]; rfl, hinv',
        fun off r hr => (hans off r hr).keep hinv hst hother⟩
    · exact ⟨s, if_neg hst, hinv, hans⟩

/-- **A step that is not safe** gives a wrong answer. -/
theorem frStep_clobbers (h : FrSysInv conf file s) {ev : FrEv} (hno : ¬FrSafe conf s ev)
    {s' : FrSys} (hs : frStep conf file s ev = some s') : ¬FrCorrect file s' := by
  cases ev with
  | getdata off flags res res' =>
    have hex : ∃ b, bufsFind s.f.bufs off.toNat = some s.f.wbuf ∧
        s.f.bufs[s.f.wbuf]? = some b ∧ ReadsAhead conf s.f b flags := by
      refine Classical.not_not.mp fun hex => hno fun hf b hb hra => hex ⟨b, hf, hb, hra⟩
    obtain ⟨b, hf, hb, hra⟩ := hex
    obtain ⟨c, hc, hin⟩ := bufsFind_some hf
    obtain rfl := some.inj (hb.symm.trans hc)
    have hset : FrInv conf file (frHit { s.f with locked := frNone32 } off.toNat) :=
      h.1.congr rfl rfl rfl rfl
    obtain ⟨f', r, he, hbad⟩ := frDone_clobbers hset rfl hb hin off.toNat_lt hra res'
    have hget : fffilereadGetdata conf file s.f off.toNat flags res res' = some (f', r) := by
      rw [fffilereadGetdata]
      simp only [hf]
      exact he
    rw [frStep, hget] at hs
    obtain rfl := some.inj hs
    exact hbad
  | dma bytes => exact absurd trivial hno
  | complete res => exact absurd trivial hno

end Answers

/-! ### Runs -/

theorem frStart_inv (conf : FrConf) (file : FrFile) (fresh : ℕ → ℕ → UInt8) :
    FrSysInv conf file (frStart conf fresh) := by
  refine ⟨⟨?_, Nat.pos_of_ne_zero conf.hnbufs, fun i b hb => ?_, nofun, nofun⟩, nofun⟩
  · rw [frStart, fffilereadCreate, length_map, length_range]
  · obtain ⟨j, -, rfl⟩ := mem_map.mp (mem_of_getElem? hb)
    exact .empty (by decide) (by rw [length_map, length_range])

/-- **The file reader**: a run has a right answer in each of its states if and only if all of its
steps are safe. -/
theorem fffileread_runs (conf : FrConf) (file : FrFile) (fresh : ℕ → ℕ → UInt8)
    (evs : List FrEv) :
    GoodRun (frStep conf file) (FrSafe conf) (frStart conf fresh) evs ↔
      ∀ evs', evs' <+: evs →
        ∃ s, run (frStep conf file) (frStart conf fresh) evs' = some s ∧ FrCorrect file s :=
  (frStep_preserves conf file).goodRun_iff (fun _ h => h.correct)
    (fun _ _ h hno _ hs => frStep_clobbers h hno hs) (frStart_inv conf file fresh)

/-- Two buffers of one byte, and a file of three bytes. -/
def twoBufs : FrConf where
  bufsize := 1
  nbufs := 2
  bufalign := 1
  directio := true
  hword := by decide
  hnbufs := by decide
  hbufsize := by decide
  hpower := ⟨0, rfl⟩
  halign := ⟨1, rfl⟩

def threeBytes : FrFile := ⟨[10, 11, 12], by decide⟩

/-- The bytes 0 and 2, and then the byte 0 again with the next one. -/
def clobberRun : List FrEv :=
  [.getdata 0 ⟨false, false⟩ (.done false) .again, .getdata 2 ⟨false, false⟩ (.done false) .again,
    .getdata 0 ⟨true, false⟩ .again (.done false)]

/-- **The reader returns the wrong byte** at the end of `clobberRun`. -/
theorem fffileread_clobbered : ¬∀ (conf : FrConf) (file : FrFile) (fresh : ℕ → ℕ → UInt8)
    (evs : List FrEv), ∃ s, run (frStep conf file) (frStart conf fresh) evs = some s ∧
      FrCorrect file s := by
  intro h
  obtain ⟨s, hs, hc⟩ := h twoBufs threeBytes (fun _ _ => 0) clobberRun
  have hrun : run (frStep twoBufs threeBytes) (frStart twoBufs fun _ _ => 0) clobberRun =
      some { f := ⟨[⟨1, 1, [11]⟩, ⟨1, 2, [12]⟩], 1, 0, .ok, 0, frNone64, ⟨3, 0, 1⟩⟩
             last := some (0, .read 0 (2 ^ 64 - 1) 2) } := by
    rfl
  obtain rfl := some.inj (hrun.symm.trans hs)
  obtain ⟨-, -, b, hb, hroom, -⟩ := hc
  obtain rfl := some.inj hb
  exact absurd hroom (by decide)

end FF
