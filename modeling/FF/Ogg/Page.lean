import FF.Lib.Fields

/-!
# OGG pages

A page is a header, a table of at most 255 segments, and the body. A packet takes segments of 255
bytes and then a shorter one; on the page where it ends, the shorter one says so.

The table `ogg_crc_table` is a parameter: a file that is not part of the source defines it.
-/

namespace FF

namespace Ogg

open List

/-- `OGG_STR` -/
def OGG_STR : List UInt8 := [0x4f, 0x67, 0x67, 0x53]

/-- `OGG_FCONTINUED` -/
def OGG_FCONTINUED : ℕ := 1

/-- `OGG_FFIRST` -/
def OGG_FFIRST : ℕ := 2

/-- `OGG_FLAST` -/
def OGG_FLAST : ℕ := 4

/-- `OGG_MAXHDR` -/
def OGG_MAXHDR : ℕ := 27 + 255

/-- `OGG_MAXPAGE` -/
def OGG_MAXPAGE : ℕ := OGG_MAXHDR + 255 * 255

/-- `OGG_GPOS_UNDEF` -/
def OGG_GPOS_UNDEF : ℕ := 2 ^ 64 - 1

/-! ### Reading a page -/

/-- The fields of a page -/
def pageFlags (b : List UInt8) : ℕ := (b.getD 5 0).toNat

def pageGranulepos (b : List UInt8) : ℕ := leNat (field b 6 8)

def pageSerial (b : List UInt8) : ℕ := leNat (field b 14 4)

def pageNumber (b : List UInt8) : ℕ := leNat (field b 18 4)

def pageCrc (b : List UInt8) : ℕ := leNat (field b 22 4)

def pageNsegments (b : List UInt8) : ℕ := (b.getD 26 0).toNat

def pageSegments (b : List UInt8) : List UInt8 := field b 27 (pageNsegments b)

def pageBody (b : List UInt8) : List UInt8 := b.drop (27 + pageNsegments b)

/-- A step of `ogg_checksum` -/
def crcStep (table : ℕ → UInt32) (crc : UInt32) (b : UInt8) : UInt32 :=
  (crc <<< 8) ^^^ table (((crc >>> 24) &&& 0xff) ^^^ b.toUInt32).toNat

/-- `ogg_checksum`: the bytes of the checksum itself count as 0. -/
def oggChecksum (table : ℕ → UInt32) (d : List UInt8) : UInt32 :=
  (d.take 22 ++ List.replicate 4 0 ++ d.drop 26).foldl (crcStep table) 0

/-- The loop of `ogg_pkt_next`: the number of segments, the length, and the last segment. -/
@[grind =] def segRun : List UInt8 → ℕ × ℕ × UInt8
  | [] => (0, 0, 0)
  | s :: segs =>
    if s = 255 ∧ segs ≠ [] then
      let r := segRun segs
      (r.1 + 1, r.2.1 + s.toNat, r.2.2)
    else (1, s.toNat, s)

/-- The result of `ogg_pkt_next`: -1, -2 or the length of the packet. -/
inductive PktNext
  | none
  | rest (pkt : List UInt8) (segoff bodyoff : ℕ)
  | whole (pkt : List UInt8) (segoff bodyoff : ℕ)
  deriving DecidableEq, Repr

/-- `ogg_pkt_next` -/
def oggPktNext (b : List UInt8) (segoff bodyoff : ℕ) : PktNext :=
  if segoff = pageNsegments b then .none
  else
    let (n, pktlen, seglen) := segRun ((pageSegments b).drop segoff)
    let pkt := field (pageBody b) bodyoff pktlen
    if seglen = 255 then .rest pkt (segoff + n) (bodyoff + pktlen)
    else .whole pkt (segoff + n) (bodyoff + pktlen)

/-! ### Writing a page -/

/-- `ffogg_page`, with the body that is in the buffer. -/
structure OggPage where
  segs : List UInt8
  body : List UInt8
  serial : ℕ
  number : ℕ
  deriving DecidableEq, Repr

/-- The number of segments that a packet takes on a page, and whether it is complete there. The
number for all of it is a `uint`. -/
def pktSegs (p : OggPage) (len : ℕ) : ℕ × Bool :=
  let pktsegsAll := (len / 255 + 1) % 2 ^ 32
  let pktsegs := min pktsegsAll (255 - p.segs.length)
  (pktsegs, pktsegs == pktsegsAll)

/-- The number of bytes that `ogg_pkt_write` writes. -/
def pktLen (p : OggPage) (len : ℕ) : ℕ :=
  if (pktSegs p len).2 then len else (pktSegs p len).1 * 255

/-- `ogg_pkt_write` without a buffer -/
def oggPktLen (p : OggPage) (len : ℕ) : ℕ := pktLen p len % 2 ^ 32

/-- `ogg_pkt_write`: the page, and the number of bytes written. `none` where the assertion fails,
or where memory outside of the page is written. -/
def oggPktWrite (p : OggPage) (pkt : List UInt8) : Option (OggPage × ℕ) :=
  let (pktsegs, complete) := pktSegs p pkt.length
  let len := pktLen p pkt.length
  if pkt.length = 0 ∨ 255 ≤ len ∧ pktsegs < complete.toNat ∨
      p.body.length + OGG_MAXHDR + len > OGG_MAXPAGE then none
  else
    some ({ p with
      segs := p.segs ++ List.replicate (pktsegs - complete.toNat) 255 ++
        (if complete then [UInt8.ofNat (len % 255)] else [])
      body := p.body ++ pkt.take len }, len)

/-- The header in front of the checksum, and the bytes behind it. -/
def pageFront (p : OggPage) (granulepos flags : ℕ) : List UInt8 :=
  OGG_STR ++ [0] ++ [UInt8.ofNat flags] ++ leBytes 8 granulepos ++ leBytes 4 p.serial ++
    leBytes 4 p.number

def pageBack (p : OggPage) : List UInt8 := UInt8.ofNat p.segs.length :: p.segs ++ p.body

/-- `ogg_page_write`: the bytes of the page, and the next page. -/
def oggPageWrite (table : ℕ → UInt32) (p : OggPage) (granulepos flags : ℕ) :
    List UInt8 × OggPage :=
  let page := pageFront p granulepos flags ++ List.replicate 4 0 ++ pageBack p
  let crc := (oggChecksum table page).toNat
  (pageFront p granulepos flags ++ leBytes 4 crc ++ pageBack p,
    { p with segs := [], body := [], number := (p.number + 1) % 2 ^ 32 })

/-! ### The fields of a page that has been written -/

section Written

variable {table : ℕ → UInt32} {p : OggPage} {granulepos flags : ℕ}

theorem page_block : ∃ crc, Block [4, 1, 1, 8, 4, 4, 4, 1, p.segs.length, p.body.length]
    (oggPageWrite table p granulepos flags).1
    [OGG_STR, [0], [UInt8.ofNat flags], leBytes 8 granulepos, leBytes 4 p.serial,
      leBytes 4 p.number, crc, [UInt8.ofNat p.segs.length], p.segs, p.body] := by
  refine ⟨leBytes 4 (oggChecksum table (pageFront p granulepos flags ++ List.replicate 4 0 ++
    pageBack p)).toNat, ?_, ?_⟩
  · simp [oggPageWrite, pageFront, pageBack]
  · simp [length_leBytes, OGG_STR]

theorem page_flags (h : flags < 256) :
    pageFlags (oggPageWrite table p granulepos flags).1 = flags := by
  obtain ⟨crc, hb⟩ := @page_block table p granulepos flags
  have hget : (oggPageWrite table p granulepos flags).1.getD 5 0 = UInt8.ofNat flags :=
    hb.getD 2 (by simp) rfl (by simp)
  rw [pageFlags, hget, UInt8.toNat_ofNat', Nat.mod_eq_of_lt h]

theorem page_granulepos (h : granulepos < 2 ^ 64) :
    pageGranulepos (oggPageWrite table p granulepos flags).1 = granulepos := by
  obtain ⟨crc, hb⟩ := @page_block table p granulepos flags
  have hfield : field (oggPageWrite table p granulepos flags).1 6 8 = leBytes 8 granulepos :=
    hb.field 3 (by simp) rfl rfl
  rw [pageGranulepos, hfield, leNat_leBytes (by simpa using h)]

theorem page_serial (h : p.serial < 2 ^ 32) :
    pageSerial (oggPageWrite table p granulepos flags).1 = p.serial := by
  obtain ⟨crc, hb⟩ := @page_block table p granulepos flags
  have hfield : field (oggPageWrite table p granulepos flags).1 14 4 = leBytes 4 p.serial :=
    hb.field 4 (by simp) rfl rfl
  rw [pageSerial, hfield, leNat_leBytes (by simpa using h)]

theorem page_number (h : p.number < 2 ^ 32) :
    pageNumber (oggPageWrite table p granulepos flags).1 = p.number := by
  obtain ⟨crc, hb⟩ := @page_block table p granulepos flags
  have hfield : field (oggPageWrite table p granulepos flags).1 18 4 = leBytes 4 p.number :=
    hb.field 5 (by simp) rfl rfl
  rw [pageNumber, hfield, leNat_leBytes (by simpa using h)]

theorem page_nsegments (h : p.segs.length ≤ 255) :
    pageNsegments (oggPageWrite table p granulepos flags).1 = p.segs.length := by
  obtain ⟨crc, hb⟩ := @page_block table p granulepos flags
  have hget : (oggPageWrite table p granulepos flags).1.getD 26 0 = UInt8.ofNat p.segs.length :=
    hb.getD 7 (by simp) rfl (by simp)
  rw [pageNsegments, hget, UInt8.toNat_ofNat', Nat.mod_eq_of_lt (by omega)]

theorem page_segments (h : p.segs.length ≤ 255) :
    pageSegments (oggPageWrite table p granulepos flags).1 = p.segs := by
  obtain ⟨crc, hb⟩ := @page_block table p granulepos flags
  rw [pageSegments, page_nsegments h]
  exact hb.field 8 (by simp) rfl rfl

theorem page_body (h : p.segs.length ≤ 255) :
    pageBody (oggPageWrite table p granulepos flags).1 = p.body := by
  obtain ⟨crc, hb⟩ := @page_block table p granulepos flags
  have hoff : 27 + p.segs.length =
      (([4, 1, 1, 8, 4, 4, 4, 1, p.segs.length, p.body.length] : List ℕ).take 9).sum := by
    simp only [take_succ_cons, take_zero, sum_cons, sum_nil]
    omega
  rw [pageBody, page_nsegments h, hb.drop 9 (by simp) hoff]
  exact append_nil _

/-- **The checksum of a page is the one in its header.** -/
theorem checksum_page : (oggChecksum table (oggPageWrite table p granulepos flags).1).toNat =
    pageCrc (oggPageWrite table p granulepos flags).1 := by
  have hfront : (pageFront p granulepos flags).length = 22 := by
    simp [pageFront, length_leBytes, OGG_STR]
  have hsum : ∀ {c : List UInt8}, c.length = 4 →
      oggChecksum table (pageFront p granulepos flags ++ c ++ pageBack p) =
        (pageFront p granulepos flags ++ List.replicate 4 0 ++ pageBack p).foldl
          (crcStep table) 0 := by
    intro c hc
    have htake : (pageFront p granulepos flags ++ c ++ pageBack p).take 22 =
        pageFront p granulepos flags := by
      rw [append_assoc, take_left' hfront]
    have hdrop : (pageFront p granulepos flags ++ c ++ pageBack p).drop 26 = pageBack p :=
      drop_left' (by rw [length_append, hfront, hc])
    rw [oggChecksum, htake, hdrop]
  obtain ⟨crc, hcrc⟩ : ∃ crc, crc =
      oggChecksum table (pageFront p granulepos flags ++ List.replicate 4 0 ++ pageBack p) := ⟨_, rfl⟩
  have hpage : (oggPageWrite table p granulepos flags).1 =
      pageFront p granulepos flags ++ leBytes 4 crc.toNat ++ pageBack p := by rw [hcrc]; rfl
  have hfield : field (pageFront p granulepos flags ++ leBytes 4 crc.toNat ++ pageBack p) 22 4 =
      leBytes 4 crc.toNat := by
    rw [field, append_assoc, drop_left' hfront, take_left' (length_leBytes 4 _)]
  have hlt : crc.toNat < 256 ^ 4 := crc.toNat_lt
  rw [hpage, pageCrc, hfield, leNat_leBytes hlt, hsum (length_leBytes 4 _), hcrc,
    hsum length_replicate]

end Written

/-! ### Segments of packets -/

/-- The segments of a packet: segments of 255 bytes, and a shorter one. -/
def lace (n : ℕ) : List UInt8 := List.replicate (n / 255) 255 ++ [UInt8.ofNat (n % 255)]

theorem length_lace (n : ℕ) : (lace n).length = n / 255 + 1 := by
  rw [lace, length_append, length_replicate, length_singleton]

theorem segRun_lace (n : ℕ) (l : List UInt8) :
    segRun (lace n ++ l) = (n / 255 + 1, n, UInt8.ofNat (n % 255)) ∧ UInt8.ofNat (n % 255) ≠ 255 := by
  have hlast : (UInt8.ofNat (n % 255)).toNat = n % 255 := by
    rw [UInt8.toNat_ofNat', Nat.mod_eq_of_lt (by omega)]
  have hne : UInt8.ofNat (n % 255) ≠ 255 := by
    intro h
    rw [h] at hlast
    have : (255 : UInt8).toNat = 255 := rfl
    omega
  have hrun : ∀ k, segRun (List.replicate k 255 ++ (UInt8.ofNat (n % 255) :: l)) =
      (k + 1, k * 255 + n % 255, UInt8.ofNat (n % 255)) := by
    intro k
    induction k with
    | zero =>
      rw [replicate_zero, nil_append, segRun, if_neg fun h => hne h.1, hlast]
      simp only [Nat.zero_mul, Nat.zero_add]
    | succ k ih =>
      rw [replicate_succ, cons_append, segRun, if_pos ⟨rfl, by simp⟩, ih]
      have : (255 : UInt8).toNat = 255 := rfl
      simp only [this, Prod.mk.injEq, and_true, true_and]
      omega
  refine ⟨?_, hne⟩
  rw [lace, append_assoc, singleton_append, hrun (n / 255)]
  simp only [Prod.mk.injEq, and_true, true_and]
  omega

theorem segRun_replicate (k : ℕ) :
    segRun (List.replicate (k + 1) 255) = (k + 1, (k + 1) * 255, 255) := by
  have h255 : (255 : UInt8).toNat = 255 := rfl
  induction k with
  | zero => rfl
  | succ k ih =>
    rw [replicate_succ, segRun, if_pos ⟨rfl, by simp⟩, ih]
    simp only [h255, Prod.mk.injEq, and_true, true_and]
    omega

section Next

variable {b pkt segs body : List UInt8} {segoff bodyoff : ℕ}

/-- **The next packet of a page**, where it ends on the page. -/
theorem oggPktNext_whole (hoff : segoff ≠ pageNsegments b)
    (hsegs : (pageSegments b).drop segoff = lace pkt.length ++ segs)
    (hbody : (pageBody b).drop bodyoff = pkt ++ body) :
    oggPktNext b segoff bodyoff =
      .whole pkt (segoff + (lace pkt.length).length) (bodyoff + pkt.length) := by
  obtain ⟨hrun, hne⟩ := segRun_lace pkt.length segs
  rw [oggPktNext, if_neg hoff, hsegs, hrun]
  simp only [if_neg hne, field, hbody, take_left' rfl, length_lace]

/-- **A packet that goes on on the next page.** -/
theorem oggPktNext_rest {k : ℕ} (hoff : segoff ≠ pageNsegments b)
    (hsegs : (pageSegments b).drop segoff = List.replicate (k + 1) 255)
    (hbody : (pageBody b).drop bodyoff = pkt) (hpkt : pkt.length = (k + 1) * 255) :
    oggPktNext b segoff bodyoff = .rest pkt (segoff + (k + 1)) (bodyoff + pkt.length) := by
  rw [oggPktNext, if_neg hoff, hsegs, segRun_replicate]
  simp only [if_true, field, hbody, ← hpkt, take_length]

end Next

end Ogg

end FF
