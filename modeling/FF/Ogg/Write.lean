import FF.Number
import FF.Ogg.Page

/-!
# Writing and reading OGG streams

`ffogg_write` adds packets to a page, and gives the page when it is full or when the caller wants
it. `ffogg_read` takes the packets out of page after page, and puts those together that go on on
the next page.

The reader here gets whole pages of a stream that is read from its start on; it does not seek.
-/

namespace FF

namespace Ogg

variable (table : ℕ → UInt32)

/-! ### The writer -/

/-- `ffogg_cook`, without the statistics. -/
structure OggCook where
  page : OggPage
  maxPagedelta : ℕ
  pageStartpos : ℕ
  pageEndpos : ℕ
  pktEndpos : ℕ
  pkt : List UInt8
  allowPartial : Bool
  continued : Bool
  flush : Bool
  fin : Bool
  deriving DecidableEq, Repr

/-- A zeroed `ffogg_cook` behind `ffogg_create` -/
def ffoggCreate (serialno : ℕ) : OggCook :=
  ⟨⟨[], [], serialno, 0⟩, 2 ^ 32 - 1, 0, OGG_GPOS_UNDEF, 0, [], false, false, false, false⟩

/-- The codes of `ffogg_write`, with the page in `out`. -/
inductive OggW
  | more
  | data (page : List UInt8)
  | done (page : List UInt8)
  deriving DecidableEq, Repr

/-- `flush:` -/
def flushPage (o : OggCook) (f : ℕ) (part : Bool) : OggW × OggCook :=
  let flags := f ||| (if o.page.number = 0 then OGG_FFIRST else 0) |||
    (if o.continued then OGG_FCONTINUED else 0)
  let (out, page) := oggPageWrite table o.page o.pageEndpos flags
  let o := { o with
    continued := part
    page := page
    pageStartpos := o.pageEndpos
    pageEndpos := OGG_GPOS_UNDEF }
  (if flags &&& OGG_FLAST ≠ 0 then .done out else .data out, o)

/-- The page is given before the packet is added: it has no room for the packet, or for all of it,
or it would become too long. -/
def flushFirst (o : OggCook) : Bool :=
  let r := oggPktLen o.page o.pkt.length
  o.page.segs != [] && (r == 0 || (r != o.pkt.length && !o.allowPartial) ||
    (o.maxPagedelta != 2 ^ 32 - 1 && sizeSub o.pktEndpos o.pageStartpos > o.maxPagedelta))

/-- **`ffogg_write`** -/
@[grind =] def ffoggWrite (o : OggCook) : Option (OggW × OggCook) :=
  if o.pkt.length = 0 then
    if o.fin then some (flushPage table o OGG_FLAST false) else some (.more, o)
  else if flushFirst o then some (flushPage table o 0 false)
  else
    match oggPktWrite o.page o.pkt with
    | none => none
    | some (page, r) =>
      let o := { o with page := page, pkt := o.pkt.drop r }
      if o.pkt.length ≠ 0 then some (flushPage table o 0 true)
      else
        let o := { o with pageEndpos := o.pktEndpos }
        if o.fin then some (flushPage table o OGG_FLAST false)
        else if o.flush then some (flushPage table { o with flush := false } 0 false)
        else some (.more, o)

/-! ### The caller of the writer -/

/-- A packet, and the position at which it ends. -/
structure Packet where
  bytes : List UInt8
  endpos : ℕ
  deriving DecidableEq, Repr

/-- What the caller sets for a packet. -/
structure Req where
  packet : Packet
  flush : Bool
  allowPartial : Bool
  deriving DecidableEq, Repr

/-- Set a packet. -/
def OggCook.load (o : OggCook) (q : Req) (fin : Bool) : OggCook :=
  { o with
    pkt := q.packet.bytes
    pktEndpos := q.packet.endpos
    flush := q.flush
    allowPartial := q.allowPartial
    fin := fin }

/-- The number of calls for a packet is below this. -/
def feedFuel (o : OggCook) : ℕ := 2 * o.pkt.length + 2

/-- Take the pages up to the code `FFOGG_RMORE` or `FFOGG_RDONE`; `true` for the latter. -/
@[grind =] def feed : ℕ → OggCook → Option (List (List UInt8) × Bool × OggCook)
  | 0, _ => none
  | n + 1, o =>
    match ffoggWrite table o with
    | none => none
    | some (.more, o) => some ([], false, o)
    | some (.done page, o) => some ([page], true, o)
    | some (.data page, o) => (feed n o).map fun r => (page :: r.1, r.2)

/-- **The pages for packets.** With the last one, the caller says that it is the last; then it may
also set no packet. -/
@[grind =] def writeStream : OggCook → List Req → Req → Option (List (List UInt8))
  | o, [], last =>
    match feed table (feedFuel (o.load last true)) (o.load last true) with
    | some (pages, true, _) => some pages
    | _ => none
  | o, q :: qs, last =>
    match feed table (feedFuel (o.load q false)) (o.load q false) with
    | some (pages, false, o) => (writeStream o qs last).map fun rest => pages ++ rest
    | _ => none

/-! ### The reader -/

/-- `enum OGG_E` -/
inductive OggE
  | version
  | serial
  | pagenum
  | crc
  | contpkt
  deriving DecidableEq, Repr

/-- The codes of `ffogg_read`, with the packet in `out`. -/
inductive OggR
  | warn (e : OggE)
  | err (e : OggE)
  | hdr (pkt : List UInt8)
  | data (pkt : List UInt8)
  | hdrfin
  | done
  deriving DecidableEq, Repr

/-- `ffogg`: what the reader keeps from page to page. -/
structure Ffogg where
  initDone : Bool
  pgno : ℕ
  serial : ℕ
  pageNum : ℕ
  pageContinued : Bool
  pageLast : Bool
  continued : Bool
  pktdata : List UInt8
  deriving DecidableEq, Repr

/-- `ffogg_init` -/
def Ffogg.init : Ffogg := ⟨false, 0, 0, 0, false, false, false, []⟩

/-- `case I_HDR`: a page that does not go on with the packet that the reader waits for, and the
first page behind the header pages. -/
def caseHdr (o : Ffogg) (b : List UInt8) : List OggR × Ffogg :=
  let more := pageFlags b &&& OGG_FCONTINUED ≠ 0
  let (rs, o) : List OggR × Ffogg :=
    if o.continued ∧ ¬more then ([.warn .contpkt], { o with continued := false, pktdata := [] })
    else ([], o)
  if !o.initDone ∧ ¬more then
    if o.pgno + 1 = 3 then (rs ++ [.hdrfin], { o with pgno := o.pgno + 1, initDone := true })
    else (rs, { o with pgno := o.pgno + 1 })
  else (rs, o)

/-- `_ffogg_getbody`: an error, or the reader and whether the number of the page is wrong. -/
def getbody (o : Ffogg) (b : List UInt8) : Except OggE (Bool × Ffogg) :=
  if (oggChecksum table b).toNat ≠ pageCrc b then .error .crc
  else if b.getD 4 0 ≠ 0 then .error .version
  else if o.initDone ∧ pageSerial b ≠ o.serial then .error .serial
  else
    .ok (o.pageNum ≠ 0 ∧ pageNumber b ≠ (o.pageNum + 1) % 2 ^ 32,
      { o with
        serial := if o.initDone then o.serial else pageSerial b
        pageContinued := pageFlags b &&& OGG_FCONTINUED ≠ 0
        pageLast := pageFlags b &&& OGG_FLAST ≠ 0
        pageNum := pageNumber b })

/-- The code for a packet. -/
def Ffogg.give (o : Ffogg) (pkt : List UInt8) : OggR := if o.initDone then .data pkt else .hdr pkt

/-- `case I_PKT`, again and again. -/
@[grind =] def readPkts (b : List UInt8) : ℕ → Ffogg → ℕ → ℕ → Option (List OggR × Ffogg)
  | 0, _, _, _ => none
  | n + 1, o, segoff, bodyoff =>
    let next := oggPktNext b segoff bodyoff
    let skip := o.pageContinued && !o.continued
    let o := { o with pageContinued := false }
    match next with
    | .none => if skip then readPkts b n o segoff bodyoff else some ([], o)
    | .rest pkt segoff bodyoff =>
      if skip then readPkts b n o segoff bodyoff
      else some ([], { o with continued := true, pktdata := o.pktdata ++ pkt })
    | .whole pkt segoff bodyoff =>
      if skip then readPkts b n o segoff bodyoff
      else if o.continued then
        (readPkts b n { o with continued := false, pktdata := [] } segoff bodyoff).map
          fun r => (o.give (o.pktdata ++ pkt) :: r.1, r.2)
      else (readPkts b n o segoff bodyoff).map fun r => (o.give pkt :: r.1, r.2)

/-- **A page of `ffogg_read`**: the codes, up to the next page. -/
@[grind =] def readPage (o : Ffogg) (b : List UInt8) : Option (List OggR × Ffogg) :=
  let (rs, o) := caseHdr o b
  match getbody table o b with
  | .error e => some (rs ++ [if o.initDone then .warn e else .err e], o)
  | .ok (wrong, o) =>
    (readPkts b (pageNsegments b + 2) o 0 0).map fun r =>
      (rs ++ (if wrong then [.warn .pagenum] else []) ++ r.1 ++
        (if r.2.pageLast then [.done] else []), r.2)

/-- The reader stops. -/
@[grind =] def OggR.isStop : OggR → Bool
  | .err _ | .done => true
  | _ => false

/-- The pages of a stream, up to the one where the reader stops. -/
@[grind =] def readPages : Ffogg → List (List UInt8) → Option (List OggR × Ffogg)
  | o, [] => some ([], o)
  | o, b :: bs =>
    match readPage table o b with
    | none => none
    | some (rs, o) =>
      if rs.any OggR.isStop then some (rs, o)
      else (readPages o bs).map fun r => (rs ++ r.1, r.2)

/-- The packets among the codes. -/
@[grind =] def OggR.packet : OggR → List (List UInt8)
  | .hdr pkt | .data pkt => [pkt]
  | _ => []

/-- A code that is no warning and no error. -/
@[grind =] def OggR.good : OggR → Bool
  | .warn _ | .err _ => false
  | _ => true

end Ogg

end FF
