import FF.Ogg.Write

/-!
# The packets of an OGG stream are read back

What is on a page are pieces: packets that end there, the first of which may have begun on an
earlier page, and the beginning of a packet that goes on. `joinPieces` puts packets together again.
-/

namespace FF

namespace Ogg

open List

variable {table : ℕ → UInt32}

/-! ### The pieces of a page -/

/-- Put the pieces of a page together with the beginning of a packet: the packets that end, and the
beginning of the one that goes on. -/
def joinPieces : Option (List UInt8) → List (List UInt8) → List UInt8 →
    List (List UInt8) × Option (List UInt8)
  | none, whole, rest => (whole, if rest = [] then none else some rest)
  | some d, [], rest => ([], some (d ++ rest))
  | some d, p :: ps, rest => ((d ++ p) :: ps, if rest = [] then none else some rest)

/-- The page has the pieces `whole` and `rest`. -/
structure Pieces (segs body : List UInt8) (whole : List (List UInt8)) (rest : List UInt8) :
    Prop where
  segs : segs = (whole.flatMap fun p => lace p.length) ++ List.replicate (rest.length / 255) 255
  body : body = whole.flatten ++ rest
  rest : 255 ∣ rest.length

/-- The packet that the reader waits for. -/
def Ffogg.waits (o : Ffogg) : Option (List UInt8) := if o.continued then some o.pktdata else none

/-- The reader waits for a packet. -/
def Ffogg.setWaits (o : Ffogg) (d : Option (List UInt8)) : Ffogg :=
  { o with pageContinued := false, continued := d.isSome, pktdata := d.getD [] }

/-- **The packets of a page**, from the piece at `segoff` on. -/
theorem readPkts_eq {b : List UInt8} {whole : List (List UInt8)} {rest : List UInt8} {n : ℕ}
    {o : Ffogg} {segoff bodyoff : ℕ} (hlen : (pageSegments b).length = pageNsegments b)
    (hp : Pieces ((pageSegments b).drop segoff) ((pageBody b).drop bodyoff) whole rest)
    (hoff : segoff ≤ pageNsegments b) (hcont : o.pageContinued = true → o.continued = true)
    (hdata : o.continued = false → o.pktdata = []) (hn : whole.length + 1 < n) :
    readPkts b n o segoff bodyoff =
      some ((joinPieces o.waits whole rest).1.map o.give,
        o.setWaits (joinPieces o.waits whole rest).2) := by
  obtain ⟨k, hk⟩ := hp.rest
  have hskip : (o.pageContinued && !o.continued) = false := by
    cases hc : o.continued with
    | true => simp
    | false =>
      cases hpc : o.pageContinued with
      | true => exact absurd (hcont hpc) (by simp [hc])
      | false => rfl
  have hremain : ((pageSegments b).drop segoff).length = pageNsegments b - segoff := by
    rw [length_drop, hlen]
  induction whole generalizing o segoff bodyoff n with
  | nil =>
    obtain ⟨n, rfl⟩ : ∃ m, n = m + 1 := ⟨n - 1, by omega⟩
    have hsegs := hp.segs
    have hbody := hp.body
    rw [flatMap_nil, nil_append, hk, Nat.mul_div_cancel_left k (by decide)] at hsegs
    rw [flatten_nil, nil_append] at hbody
    cases k with
    | zero =>
      obtain rfl : rest = [] := length_eq_zero_iff.mp (by omega)
      have hend : segoff = pageNsegments b := by
        rw [hsegs, length_replicate] at hremain
        omega
      have hnext : oggPktNext b segoff bodyoff = .none := by rw [oggPktNext, if_pos hend]
      simp only [readPkts, hnext, hskip]
      cases hc : o.continued with
      | true => simp [joinPieces, Ffogg.waits, Ffogg.setWaits, hc]
      | false => simp [joinPieces, Ffogg.waits, Ffogg.setWaits, hc, hdata hc]
    | succ k =>
      have hne : segoff ≠ pageNsegments b := by
        rw [hsegs, length_replicate] at hremain
        omega
      have hnext := @oggPktNext_rest b rest segoff bodyoff k hne hsegs hbody (by omega)
      have hrest : rest ≠ [] := by
        rintro rfl
        simp at hk
      simp only [readPkts, hnext, hskip]
      cases hc : o.continued with
      | true => simp [joinPieces, Ffogg.waits, Ffogg.setWaits, hc]
      | false => simp [joinPieces, Ffogg.waits, Ffogg.setWaits, hc, hdata hc, hrest]
  | cons p ps ih =>
    obtain ⟨n, rfl⟩ : ∃ m, n = m + 1 := ⟨n - 1, by omega⟩
    have hsegs := hp.segs
    have hbody := hp.body
    rw [flatMap_cons, append_assoc] at hsegs
    rw [flatten_cons, append_assoc] at hbody
    have hpos : 0 < (lace p.length).length := by
      rw [length_lace]
      omega
    have hfits : (lace p.length).length ≤ pageNsegments b - segoff := by
      rw [← hremain, hsegs, length_append]
      omega
    have hne : segoff ≠ pageNsegments b := by omega
    have hnext := oggPktNext_whole hne hsegs hbody
    have hp' : Pieces ((pageSegments b).drop (segoff + (lace p.length).length))
        ((pageBody b).drop (bodyoff + p.length)) ps rest := by
      refine ⟨?_, ?_, hp.rest⟩
      · rw [← drop_drop, hsegs, drop_left' rfl]
      · rw [← drop_drop, hbody, drop_left' rfl]
    have hgo : ∀ {o : Ffogg}, o.pageContinued = false → o.continued = false → o.pktdata = [] →
        readPkts b n o (segoff + (lace p.length).length) (bodyoff + p.length) =
          some ((joinPieces o.waits ps rest).1.map o.give,
            o.setWaits (joinPieces o.waits ps rest).2) := by
      intro o hpc hc hd
      exact ih hp' (by omega) (fun h => absurd h (by simp [hpc])) (fun _ => hd)
        (by rw [length_cons] at hn; omega) (by simp [hpc])
        (by rw [length_drop, hlen])
    simp only [readPkts, hnext, hskip]
    cases hc : o.continued with
    | true =>
      have hrest := @hgo { o with pageContinued := false, continued := false, pktdata := [] }
        rfl rfl rfl
      simp [hrest, joinPieces, Ffogg.waits, Ffogg.setWaits, hc, Ffogg.give]
    | false =>
      have hrest := @hgo { o with pageContinued := false, continued := false } rfl rfl (hdata hc)
      simp [hrest, joinPieces, Ffogg.waits, Ffogg.setWaits, hc, Ffogg.give]

/-- The reader is ready for the page. -/
structure Sync (o : Ffogg) (p : OggPage) : Prop where
  serial : o.initDone = true ∨ o.pgno ≠ 0 → o.serial = p.serial
  number : o.pageNum = 0 ∨ p.number = (o.pageNum + 1) % 2 ^ 32
  clean : o.continued = false → o.pktdata = []
  serialLt : p.serial < 2 ^ 32
  numberLt : p.number < 2 ^ 32

theorem caseHdr_eq {o : Ffogg} {b : List UInt8}
    (h : (pageFlags b &&& OGG_FCONTINUED ≠ 0) ↔ o.continued = true) :
    ∃ rs o', caseHdr o b = (rs, o') ∧ rs.flatMap OggR.packet = [] ∧ (∀ r ∈ rs, r = .hdrfin) ∧
      o'.continued = o.continued ∧ o'.pktdata = o.pktdata ∧ o'.serial = o.serial ∧
      o'.pageNum = o.pageNum ∧ (o'.initDone = true → o.initDone = true ∨ o.pgno ≠ 0) := by
  have hwarn : ¬(o.continued = true ∧ ¬pageFlags b &&& OGG_FCONTINUED ≠ 0) := fun hno =>
    hno.2 (h.mpr hno.1)
  unfold caseHdr
  simp only [if_neg hwarn]
  split
  · split
    · next h3 =>
        exact ⟨[.hdrfin], _, rfl, rfl, fun r hr => mem_singleton.mp hr, rfl, rfl, rfl, rfl,
          fun _ => .inr (by omega)⟩
    · exact ⟨[], _, rfl, rfl, fun r hr => (not_mem_nil hr).elim, rfl, rfl, rfl, rfl, .inl⟩
  · exact ⟨[], _, rfl, rfl, fun r hr => (not_mem_nil hr).elim, rfl, rfl, rfl, rfl, .inl⟩

/-- **The reader puts the pieces of a page together**, without a warning. -/
theorem readPage_eq {o : Ffogg} {p : OggPage} {granulepos flags : ℕ} {whole : List (List UInt8)}
    {rest : List UInt8} (hsync : Sync o p) (hp : Pieces p.segs p.body whole rest)
    (hlen : p.segs.length ≤ 255) (hflags : flags < 256)
    (hcont : flags &&& OGG_FCONTINUED ≠ 0 ↔ o.continued = true) :
    ∃ rs o', readPage table o (oggPageWrite table p granulepos flags).1 = some (rs, o') ∧
      rs.flatMap OggR.packet = (joinPieces o.waits whole rest).1 ∧ (∀ r ∈ rs, r.good = true) ∧
      rs.any OggR.isStop = decide (flags &&& OGG_FLAST ≠ 0) ∧
      (rs.any OggR.isStop = true → rs.getLast? = some .done) ∧
      o'.waits = (joinPieces o.waits whole rest).2 ∧
      Sync o' (oggPageWrite table p granulepos flags).2 := by
  obtain ⟨b, hb⟩ : ∃ b, b = (oggPageWrite table p granulepos flags).1 := ⟨_, rfl⟩
  have hbflags : pageFlags b = flags := hb ▸ page_flags hflags
  have hbserial : pageSerial b = p.serial := hb ▸ page_serial hsync.serialLt
  have hbnumber : pageNumber b = p.number := hb ▸ page_number hsync.numberLt
  have hbsegs : pageSegments b = p.segs := hb ▸ page_segments hlen
  have hbn : pageNsegments b = p.segs.length := hb ▸ page_nsegments hlen
  have hbbody : pageBody b = p.body := hb ▸ page_body hlen
  have hbcrc : (oggChecksum table b).toNat = pageCrc b := hb ▸ checksum_page
  have hbver : b.getD 4 0 = 0 := by
    rw [hb]
    obtain ⟨crc, hblock⟩ := @page_block table p granulepos flags
    exact hblock.getD 1 (by simp) rfl (by simp)
  rw [← hb]
  obtain ⟨rs, o₁, hhdr, hpkts, hrs, hc₁, hd₁, hs₁, hn₁, hi₁⟩ := caseHdr_eq (hbflags ▸ hcont)
  have hserial : ¬(o₁.initDone = true ∧ p.serial ≠ o₁.serial) := by
    rintro ⟨hinit, hne⟩
    exact hne (hs₁ ▸ hsync.serial (hi₁ hinit)).symm
  have hwrong : ¬(o₁.pageNum ≠ 0 ∧ p.number ≠ (o₁.pageNum + 1) % 2 ^ 32) := by
    rintro ⟨hne, hnum⟩
    rw [hn₁] at hne hnum
    exact hnum (hsync.number.resolve_left hne)
  obtain ⟨o₂, ho₂⟩ : ∃ o₂ : Ffogg, o₂ = { o₁ with
    serial := if o₁.initDone then o₁.serial else p.serial
    pageContinued := flags &&& OGG_FCONTINUED ≠ 0
    pageLast := flags &&& OGG_FLAST ≠ 0
    pageNum := p.number } := ⟨_, rfl⟩
  have hbody : getbody table o₁ b = .ok (false, o₂) := by
    rw [getbody, if_neg (not_not.mpr hbcrc), hbver, if_neg (by simp), hbserial, if_neg hserial,
      hbnumber, hbflags, ho₂, decide_eq_false hwrong]
  have hpkt := @readPkts_eq b whole rest (pageNsegments b + 2) o₂ 0 0 (by rw [hbsegs, hbn])
    (by rwa [drop_zero, drop_zero, hbsegs, hbbody]) (Nat.zero_le _)
    (fun h => by
      rw [ho₂] at h ⊢
      exact hc₁ ▸ hcont.mp (of_decide_eq_true h))
    (fun h => by
      rw [ho₂] at h ⊢
      exact hd₁ ▸ hsync.clean (hc₁ ▸ h))
    (by
      have hle : ∀ l : List (List UInt8), l.length ≤ (l.flatMap fun p => lace p.length).length := by
        intro l
        induction l with
        | nil => exact le_rfl
        | cons x l ih =>
          rw [flatMap_cons, length_append, length_lace, length_cons]
          omega
      have hwhole := hle whole
      rw [hbn, hp.segs, length_append]
      omega)
  have hwaits : o₂.waits = o.waits := by rw [Ffogg.waits, Ffogg.waits, ho₂, hc₁, hd₁]
  rw [hwaits] at hpkt
  obtain ⟨d, hd⟩ : ∃ d, d = (joinPieces o.waits whole rest).2 := ⟨_, rfl⟩
  obtain ⟨ps, hps⟩ : ∃ ps, ps = (joinPieces o.waits whole rest).1 := ⟨_, rfl⟩
  rw [← hd, ← hps] at hpkt ⊢
  have hlast : (o₂.setWaits d).pageLast = decide (flags &&& OGG_FLAST ≠ 0) := by
    rw [Ffogg.setWaits, ho₂]
  have hgive : ∀ x, (o₂.give x).packet = [x] ∧ (o₂.give x).good = true ∧
      (o₂.give x).isStop = false := by
    intro x
    unfold Ffogg.give
    split <;> exact ⟨rfl, rfl, rfl⟩
  have hread : readPage table o b = some (rs ++ ps.map o₂.give ++
      (if flags &&& OGG_FLAST ≠ 0 then [.done] else []), o₂.setWaits d) := by
    rw [readPage, hhdr]
    simp only [hbody, hpkt, Option.map_some, hlast, decide_eq_true_eq, Bool.false_eq_true, if_false,
      append_nil]
  have hpackets : ps.flatMap (fun x => (o₂.give x).packet) = ps := by
    simp only [hgive]
    exact flatMap_singleton' ps
  have hno : (rs ++ ps.map o₂.give).any OggR.isStop = false := by
    rw [any_eq_false]
    intro r hr
    rcases mem_append.mp hr with hr | hr
    · rw [hrs r hr]
      decide
    · obtain ⟨x, -, rfl⟩ := mem_map.mp hr
      rw [(hgive x).2.2]
      decide
  refine ⟨_, _, hread, ?_, ?_, ?_, ?_, ?_, ?_⟩
  · rw [flatMap_append, flatMap_append, hpkts, nil_append, flatMap_map, hpackets]
    split <;> simp [OggR.packet]
  · intro r hr
    rw [mem_append, mem_append, mem_map] at hr
    obtain (hr | ⟨x, -, rfl⟩) | hr := hr
    · rw [hrs r hr]
      rfl
    · exact (hgive x).2.1
    · split at hr
      · rw [mem_singleton.mp hr]
        rfl
      · cases hr
  · rw [any_append, hno, Bool.false_or]
    split
    · next h => simp [OggR.isStop, h]
    · next h => simp [h]
  · intro hstop
    rw [any_append, hno, Bool.false_or] at hstop
    split
    · exact getLast?_concat
    · next h =>
        rw [if_neg h] at hstop
        cases hstop
  · rw [Ffogg.waits, Ffogg.setWaits]
    cases d <;> rfl
  refine ⟨?_, .inr ?_, ?_, hsync.serialLt, Nat.mod_lt _ (by decide)⟩
  · intro _
    rw [ho₂]
    split
    · next hi => exact hs₁ ▸ hsync.serial (hi₁ hi)
    · rfl
  · show (p.number + 1) % 2 ^ 32 = (o₂.pageNum + 1) % 2 ^ 32
    rw [ho₂]
  · intro h
    rw [Ffogg.setWaits] at h ⊢
    cases d with
    | none => rfl
    | some d => cases h

/-! ### Where packets end -/

/-- The number of bytes of packets. -/
def size (ps : List Packet) : ℕ := (ps.map fun x => x.bytes.length).sum

theorem size_append (ps qs : List Packet) : size (ps ++ qs) = size ps + size qs := by
  rw [size, map_append, sum_append]
  rfl

theorem size_cons (x : Packet) (ps : List Packet) : size (x :: ps) = x.bytes.length + size ps := rfl

theorem size_eq (ps : List Packet) : (ps.map Packet.bytes).flatten.length = size ps := by
  rw [length_flatten, map_map]
  rfl

/-- Of the packets `gone`, `here` and `more`, those of `here` end on a page that has the bytes of
the stream from `pos` up to `stop`. -/
structure Ends (gone here more : List Packet) (pos stop : ℕ) : Prop where
  before : size gone ≤ pos
  first : ∀ x, here.head? = some x → pos < size gone + x.bytes.length
  last : size (gone ++ here) ≤ stop
  behind : ∀ x, more.head? = some x → stop < size (gone ++ here) + x.bytes.length

/-- **What a page says** is true: it has the flag `OGG_FCONTINUED` where its first packet began on
an earlier page, and the granule position is that of the last packet that ends on it. -/
def PageOk (all : List Packet) (pos : ℕ) (b : List UInt8) : Prop :=
  ∃ gone here more, all = gone ++ here ++ more ∧
    Ends gone here more pos (pos + (pageBody b).length) ∧
    (pageFlags b &&& OGG_FCONTINUED ≠ 0 ↔ size gone < pos) ∧
    pageGranulepos b = (here.getLast?.map Packet.endpos).getD OGG_GPOS_UNDEF

/-- What all pages say, from the byte `pos` of the stream on. -/
@[grind =] def PagesOk (all : List Packet) : ℕ → List (List UInt8) → Prop
  | _, [] => True
  | pos, b :: bs => PageOk all pos b ∧ PagesOk all (pos + (pageBody b).length) bs

/-- The pieces `whole` are those of the packets `here`, behind the beginning that waits. -/
inductive Matches : Option (List UInt8) → List (List UInt8) → List Packet → Prop
  | fresh {here : List Packet} : Matches none (here.map Packet.bytes) here
  | wait {d : List UInt8} (hd : d ≠ []) : Matches (some d) [] []
  | joined {d p : List UInt8} {x : Packet} {xs : List Packet} (hd : d ≠ []) (hp : p ≠ [])
      (hx : x.bytes = d ++ p) : Matches (some d) (p :: xs.map Packet.bytes) (x :: xs)

/-- The bytes of the packet that is not finished, behind a page. -/
def tailOf (w : Option (List UInt8)) (here : List Packet) (rest : List UInt8) : List UInt8 :=
  (if here = [] then w.getD [] else []) ++ rest

theorem tailOf_nil {w : Option (List UInt8)} {here : List Packet} (hw : here = [] → w = none) :
    tailOf w here [] = [] := by
  rw [tailOf, append_nil]
  split
  · next hh =>
      rw [hw hh]
      rfl
  · rfl

theorem Matches.join {w : Option (List UInt8)} {whole : List (List UInt8)} {here : List Packet}
    (h : Matches w whole here) (rest : List UInt8) (hw : here = [] → rest = [] → w = none) :
    joinPieces w whole rest =
      (here.map Packet.bytes, if rest = [] then none else some (tailOf w here rest)) := by
  cases h with
  | fresh =>
    have htail : ∀ here : List Packet, tailOf none here rest = rest := by
      intro here
      rw [tailOf]
      split <;> rfl
    rw [joinPieces, htail]
  | wait hd =>
    have hrest : rest ≠ [] := fun h => by cases hw rfl h
    rw [joinPieces, if_neg hrest]
    rfl
  | joined hd hp hx =>
    rw [joinPieces, map_cons, hx]
    rfl

theorem Matches.length {w : Option (List UInt8)} {whole : List (List UInt8)} {here : List Packet}
    (h : Matches w whole here) (rest : List UInt8) :
    (w.getD []).length + (whole.flatten ++ rest).length =
      size here + (tailOf w here rest).length := by
  have hsize := fun ps : List Packet => size_eq ps
  cases h with
  | fresh =>
    rw [tailOf, length_append, length_append, hsize]
    split <;> simp
  | wait hd => simp [tailOf, size]
  | joined hd hp hx =>
    rename_i d p x xs
    rw [tailOf, if_neg (cons_ne_nil _ _), flatten_cons, length_append, length_append, hsize,
      nil_append, size_cons, hx, length_append, Option.getD_some]
    omega

theorem Matches.eq_nil {w : Option (List UInt8)} {whole : List (List UInt8)}
    (h : Matches w whole []) : whole = [] := by
  cases h <;> rfl

theorem Matches.first {w : Option (List UInt8)} {whole : List (List UInt8)} {here : List Packet}
    (h : Matches w whole here) (hne : ∀ x ∈ here, x.bytes ≠ []) {x : Packet}
    (hx : here.head? = some x) : (w.getD []).length < x.bytes.length := by
  cases h with
  | fresh => exact length_pos_of_ne_nil (hne x (mem_of_head? hx))
  | wait hd => cases hx
  | joined hd hp hxb =>
    obtain rfl := Option.some.inj hx
    rw [hxb, length_append, Option.getD_some]
    have := length_pos_of_ne_nil hp
    omega

theorem Matches.waits {w : Option (List UInt8)} {whole : List (List UInt8)} {here : List Packet}
    (h : Matches w whole here) : w.isSome = true ↔ 0 < (w.getD []).length := by
  cases h with
  | fresh => simp
  | wait hd => simpa using length_pos_of_ne_nil hd
  | joined hd _ _ => simpa using length_pos_of_ne_nil hd

/-- The writer and a reader of its pages: the packets `gone` have ended on earlier pages, and those
of `here` on the page that is not written yet, where `rest` begins another one. -/
structure Cut (o : OggCook) (r : Ffogg) (gone here : List Packet) (rest : List UInt8) : Prop where
  sync : Sync r o.page
  cont : r.continued = o.continued
  pieces : ∃ whole, Pieces o.page.segs o.page.body whole rest ∧ Matches r.waits whole here
  len : o.page.segs.length ≤ 255
  endpos : o.pageEndpos = (here.getLast?.map Packet.endpos).getD OGG_GPOS_UNDEF
  packets : ∀ x ∈ here, x.bytes ≠ [] ∧ x.endpos < 2 ^ 64

/-- The byte of the stream at which the page begins. -/
def posOf (r : Ffogg) (gone : List Packet) : ℕ := size gone + (r.waits.getD []).length

theorem flags_eq {f : ℕ} (hf : f = 0 ∨ f = OGG_FLAST) (first cont : Bool) :
    let flags := f ||| (if first then OGG_FFIRST else 0) ||| (if cont then OGG_FCONTINUED else 0)
    flags < 256 ∧ (flags &&& OGG_FCONTINUED ≠ 0 ↔ cont = true) ∧
      (flags &&& OGG_FLAST ≠ 0 ↔ f = OGG_FLAST) := by
  obtain rfl | rfl := hf <;> cases first <;> cases cont <;> decide

/-- **A page is written and read.** -/
theorem Cut.flush {o : OggCook} {r : Ffogg} {gone here more : List Packet} {rest : List UInt8}
    {f : ℕ} (h : Cut o r gone here rest) (hf : f = 0 ∨ f = OGG_FLAST)
    (hw : here = [] → rest = [] → r.waits = none)
    (hmore : ∀ x, more.head? = some x → (tailOf r.waits here rest).length < x.bytes.length) :
    ∃ b rs r' o', flushPage table o f (decide (rest ≠ [])) =
        (if f = OGG_FLAST then .done b else .data b, o') ∧
      readPage table r b = some (rs, r') ∧ rs.flatMap OggR.packet = here.map Packet.bytes ∧
      (∀ x ∈ rs, x.good = true) ∧ rs.any OggR.isStop = decide (f = OGG_FLAST) ∧
      (rs.any OggR.isStop = true → rs.getLast? = some .done) ∧
      PageOk (gone ++ here ++ more) (posOf r gone) b ∧
      posOf r' (gone ++ here) = posOf r gone + (pageBody b).length ∧
      Cut o' r' (gone ++ here) [] [] ∧ o'.page.segs = [] ∧
      r'.waits = (if rest = [] then none else some (tailOf r.waits here rest)) ∧
      o' = { o with
        continued := decide (rest ≠ [])
        page := o'.page
        pageStartpos := o.pageEndpos
        pageEndpos := OGG_GPOS_UNDEF } := by
  obtain ⟨whole, hp, hm⟩ := h.pieces
  obtain ⟨flags, hflags⟩ : ∃ flags, flags = f ||| (if o.page.number = 0 then OGG_FFIRST else 0) |||
      (if o.continued then OGG_FCONTINUED else 0) := ⟨_, rfl⟩
  obtain ⟨hlt, hcont, hlast⟩ := flags_eq hf (decide (o.page.number = 0)) o.continued
  simp only [decide_eq_true_eq, ← hflags] at hlt hcont hlast
  obtain ⟨b, hb⟩ : ∃ b, b = (oggPageWrite table o.page o.pageEndpos flags).1 := ⟨_, rfl⟩
  obtain ⟨rs, r', hread, hpackets, hgood, hstop, hend, hwaits, hsync⟩ :=
    @readPage_eq table r o.page o.pageEndpos flags whole rest h.sync hp h.len hlt
      (by rw [hcont, h.cont])
  rw [← hb] at hread
  rw [hm.join rest hw] at hpackets hwaits
  have htail : rest ≠ [] → tailOf r.waits here rest ≠ [] := fun hr =>
    append_ne_nil_of_right_ne_nil _ hr
  have hbody : (pageBody b).length = (whole.flatten ++ rest).length := by
    rw [hb, page_body h.len, hp.body]
  have hpos : posOf r' (gone ++ here) = posOf r gone + (pageBody b).length := by
    have hlen := hm.length rest
    rw [posOf, posOf, hwaits, hbody, size_append]
    by_cases hr : rest = []
    · rw [if_pos hr, Option.getD_none, length_nil]
      have hzero : (tailOf r.waits here rest).length = 0 := by
        rw [tailOf, hr, append_nil]
        split
        · next hh => rw [hw hh hr]; rfl
        · rfl
      omega
    · rw [if_neg hr, Option.getD_some]
      omega
  have hgpos : o.pageEndpos < 2 ^ 64 := by
    rw [h.endpos]
    cases hl : here.getLast? with
    | none => exact (by decide : OGG_GPOS_UNDEF < 2 ^ 64)
    | some x => exact (h.packets x (mem_of_getLast? hl)).2
  refine ⟨b, rs, r', { o with
    continued := decide (rest ≠ [])
    page := (oggPageWrite table o.page o.pageEndpos flags).2
    pageStartpos := o.pageEndpos
    pageEndpos := OGG_GPOS_UNDEF }, ?_, hread, hpackets, hgood, ?_, hend, ?_, hpos, ?_, ?_, hwaits, rfl⟩
  · simp only [flushPage, ← hflags, hb]
    by_cases hfl : f = OGG_FLAST
    · rw [if_pos hfl, if_pos (hlast.mpr hfl)]
    · rw [if_neg hfl, if_neg (fun hno => hfl (hlast.mp hno))]
  · rw [hstop]
    exact decide_eq_decide.mpr hlast
  · refine ⟨gone, here, more, rfl, ⟨?_, ?_, ?_, ?_⟩, ?_, ?_⟩
    · exact Nat.le_add_right _ _
    · intro x hx
      have := hm.first (fun x hx => (h.packets x hx).1) hx
      rw [posOf]
      omega
    · rw [← hpos]
      exact Nat.le_add_right _ _
    · intro x hx
      have hx := hmore x hx
      rw [← hpos, posOf, hwaits]
      split
      · rw [Option.getD_none, length_nil]
        omega
      · rw [Option.getD_some]
        omega
    · rw [hb, page_flags hlt, hcont, ← h.cont, posOf]
      have hiff := hm.waits
      rw [Ffogg.waits] at hiff ⊢
      cases hc : r.continued with
      | true =>
        rw [hc, if_pos rfl] at hiff
        rw [if_pos rfl]
        have := hiff.mp rfl
        constructor <;> intro _ <;> first | rfl | omega
      | false => simp
    · rw [hb, page_granulepos hgpos, h.endpos]
  · refine ⟨hsync, ?_, ⟨[], ⟨rfl, rfl, by simp⟩, ?_⟩, Nat.zero_le _, rfl, fun x hx => by cases hx⟩
    · show r'.continued = decide (rest ≠ [])
      have hsome : r'.waits.isSome = r'.continued := by
        rw [Ffogg.waits]
        cases r'.continued <;> rfl
      rw [← hsome, hwaits]
      by_cases hr : rest = []
      · simp [hr]
      · simp [hr]
    · rw [hwaits]
      split
      · exact @Matches.fresh []
      · next hr => exact .wait (htail hr)
  · rfl

/-! ### Packets are added -/

/-- **The packet ends where the writer says so**, in a call that adds it: it does not fill the table
of segments to the last byte, and the number of its segments is a `uint`. -/
def Fits (o : OggCook) : Prop :=
  let free := 255 - o.page.segs.length
  let len := o.pkt.length
  flushFirst o = false →
    ¬(255 ∣ len ∧ len / 255 = free) ∧ ¬(2 ^ 32 ≤ len / 255 + 1 ∧ (len / 255 + 1) % 2 ^ 32 ≤ free)

instance (o : OggCook) : Decidable (Fits o) := by
  unfold Fits
  infer_instance

theorem Pieces.body_le {segs body rest : List UInt8} {whole : List (List UInt8)}
    (h : Pieces segs body whole rest) : body.length ≤ 255 * segs.length := by
  have hwhole : whole.flatten.length ≤ 255 * (whole.flatMap fun p => lace p.length).length := by
    clear h
    induction whole with
    | nil => exact Nat.zero_le _
    | cons p ps ih =>
      rw [flatten_cons, flatMap_cons, length_append, length_append, length_lace]
      omega
  obtain ⟨k, hk⟩ := h.rest
  rw [h.segs, h.body, length_append, length_append, length_replicate]
  omega

theorem pktLen_of_write {p p' : OggPage} {pkt : List UInt8} {r : ℕ}
    (h : oggPktWrite p pkt = some (p', r)) : pktLen p pkt.length = r := by
  unfold oggPktWrite at h
  dsimp only at h
  split at h
  · cases h
  · exact (Prod.mk.inj (Option.some.inj h)).2

/-- **A packet is added**, all of it or as much as there is room for. -/
theorem oggPktWrite_eq {p : OggPage} {pkt : List UInt8} (hlen : p.segs.length ≤ 255)
    (hbody : p.body.length ≤ 255 * p.segs.length) (hpkt : pkt.length ≠ 0)
    (hfit : ¬(255 ∣ pkt.length ∧ pkt.length / 255 = 255 - p.segs.length))
    (huint : ¬(2 ^ 32 ≤ pkt.length / 255 + 1 ∧
      (pkt.length / 255 + 1) % 2 ^ 32 ≤ 255 - p.segs.length)) :
    (pkt.length / 255 + 1 ≤ 255 - p.segs.length ∧ oggPktWrite p pkt =
      some ({ p with segs := p.segs ++ lace pkt.length, body := p.body ++ pkt }, pkt.length)) ∨
    ((255 - p.segs.length) * 255 < pkt.length ∧ oggPktWrite p pkt =
      some ({ p with
        segs := p.segs ++ List.replicate (255 - p.segs.length) 255
        body := p.body ++ pkt.take ((255 - p.segs.length) * 255) }, (255 - p.segs.length) * 255)) := by
  have hmax : OGG_MAXPAGE = OGG_MAXHDR + 65025 := rfl
  obtain ⟨free, hfree⟩ : ∃ free, free = 255 - p.segs.length := ⟨_, rfl⟩
  rw [← hfree] at hfit huint ⊢
  by_cases hall : (pkt.length / 255 + 1) % 2 ^ 32 ≤ free
  · have hsmall : pkt.length / 255 + 1 < 2 ^ 32 := Nat.lt_of_not_le fun hno => huint ⟨hno, hall⟩
    have hmod : (pkt.length / 255 + 1) % 2 ^ 32 = pkt.length / 255 + 1 := Nat.mod_eq_of_lt hsmall
    rw [hmod] at hall
    have hsegs : pktSegs p pkt.length = (pkt.length / 255 + 1, true) := by
      rw [pktSegs, hmod, ← hfree, Nat.min_eq_left hall, beq_self_eq_true]
    have hpl : pktLen p pkt.length = pkt.length := by rw [pktLen, hsegs, if_pos rfl]
    refine .inl ⟨hall, ?_⟩
    rw [oggPktWrite, hsegs]
    simp only [hpl, Bool.toNat_true, if_true, take_length, Nat.add_sub_cancel]
    rw [if_neg]
    · rw [lace, append_assoc]
    · rintro (h | h | h)
      · exact hpkt h
      · omega
      · omega
  have hsegs : pktSegs p pkt.length = (free, false) := by
    have hne : (free == (pkt.length / 255 + 1) % 2 ^ 32) = false := by
      rw [beq_eq_false_iff_ne]
      omega
    rw [pktSegs, ← hfree, Nat.min_eq_right (by omega)]
    simp only [hne]
  have hpl : pktLen p pkt.length = free * 255 := by
    rw [pktLen, hsegs]
    rfl
  have hlt : free * 255 < pkt.length := by
    rcases Nat.lt_or_ge (free * 255) pkt.length with h | h
    · exact h
    · exact absurd ⟨⟨free, by omega⟩, by omega⟩ hfit
  refine .inr ⟨hlt, ?_⟩
  rw [oggPktWrite, hsegs]
  simp only [hpl, Bool.toNat_false, Nat.sub_zero, Bool.false_eq_true, if_false, append_nil]
  rw [if_neg]
  rintro (h | h | h)
  · exact hpkt h
  · omega
  · omega

/-- The packet that is to be added, or none: `w` is the beginning of one that waits. -/
def Pending (o : OggCook) (w : Option (List UInt8)) (here todo : List Packet) : Prop :=
  (todo = [] ∧ o.pkt = [] ∧ (here = [] → w = none)) ∨
  ∃ x, todo = [x] ∧ o.pkt ≠ [] ∧ x.bytes = tailOf w here o.pkt ∧ x.endpos = o.pktEndpos ∧
    x.endpos < 2 ^ 64

theorem Matches.concat {w : Option (List UInt8)} {whole : List (List UInt8)} {here : List Packet}
    (h : Matches w whole here) {x : Packet} {pkt : List UInt8} (hpkt : pkt ≠ [])
    (hx : x.bytes = tailOf w here pkt) : Matches w (whole ++ [pkt]) (here ++ [x]) := by
  cases h with
  | fresh =>
    have hxb : x.bytes = pkt := by
      rw [hx, tailOf]
      split <;> rfl
    have hmap : here.map Packet.bytes ++ [pkt] = (here ++ [x]).map Packet.bytes := by
      rw [map_append, map_singleton, hxb]
    rw [hmap]
    exact .fresh
  | wait hd => exact @Matches.joined _ pkt x [] hd hpkt hx
  | joined hd hp hy =>
    rename_i d p y ys
    have hmap : ys.map Packet.bytes ++ [pkt] = (ys ++ [x]).map Packet.bytes := by
      rw [map_append, map_singleton, hx]
      rfl
    rw [cons_append, hmap]
    exact .joined hd hp hy

/-- **All of a packet is added.** -/
theorem Cut.add {o : OggCook} {r : Ffogg} {gone here : List Packet} {x : Packet}
    (h : Cut o r gone here []) (hpkt : o.pkt ≠ []) (hx : x.bytes = tailOf r.waits here o.pkt)
    (hpos : x.endpos = o.pktEndpos) (hlt : x.endpos < 2 ^ 64)
    (hroom : o.pkt.length / 255 + 1 ≤ 255 - o.page.segs.length) :
    Cut { o with
      page := { o.page with
        segs := o.page.segs ++ lace o.pkt.length
        body := o.page.body ++ o.pkt }
      pkt := []
      pageEndpos := o.pktEndpos } r gone (here ++ [x]) [] := by
  obtain ⟨whole, hp, hm⟩ := h.pieces
  refine ⟨⟨h.sync.serial, h.sync.number, h.sync.clean, h.sync.serialLt, h.sync.numberLt⟩, h.cont,
    ⟨whole ++ [o.pkt], ⟨?_, ?_, by simp⟩, hm.concat hpkt hx⟩, ?_, ?_, ?_⟩
  · show o.page.segs ++ lace o.pkt.length = _
    rw [hp.segs]
    simp
  · show o.page.body ++ o.pkt = _
    rw [hp.body]
    simp
  · show (o.page.segs ++ lace o.pkt.length).length ≤ 255
    rw [length_append, length_lace]
    omega
  · show o.pktEndpos = _
    rw [getLast?_concat, ← hpos]
    rfl
  intro y hy
  rcases mem_append.mp hy with hy | hy
  · exact h.packets y hy
  · rw [mem_singleton.mp hy]
    refine ⟨?_, hlt⟩
    rw [hx]
    exact append_ne_nil_of_right_ne_nil _ hpkt

theorem Cut.setFlush {o : OggCook} {r : Ffogg} {gone here : List Packet} {rest : List UInt8}
    {flush : Bool} (h : Cut o r gone here rest) : Cut { o with flush := flush } r gone here rest :=
  ⟨h.sync, h.cont, h.pieces, h.len, h.endpos, h.packets⟩

/-- **A part of a packet is added**: it fills the page. -/
theorem Cut.addPart {o : OggCook} {r : Ffogg} {gone here : List Packet} {free : ℕ}
    (h : Cut o r gone here []) (hfree : free = 255 - o.page.segs.length)
    (hlen : free * 255 < o.pkt.length) :
    Cut { o with
      page := { o.page with
        segs := o.page.segs ++ List.replicate free 255
        body := o.page.body ++ o.pkt.take (free * 255) }
      pkt := o.pkt.drop (free * 255) } r gone here (o.pkt.take (free * 255)) := by
  obtain ⟨whole, hp, hm⟩ := h.pieces
  have htake : (o.pkt.take (free * 255)).length = 255 * free := by
    rw [length_take]
    omega
  refine ⟨⟨h.sync.serial, h.sync.number, h.sync.clean, h.sync.serialLt, h.sync.numberLt⟩, h.cont,
    ⟨whole, ⟨?_, ?_, ⟨free, htake⟩⟩, hm⟩, ?_, h.endpos, h.packets⟩
  · show o.page.segs ++ List.replicate free 255 = _
    rw [hp.segs, htake, Nat.mul_div_cancel_left free (by decide)]
    simp
  · show o.page.body ++ o.pkt.take (free * 255) = _
    rw [hp.body, append_nil]
  · show (o.page.segs ++ List.replicate free 255).length ≤ 255
    have := h.len
    rw [length_append, length_replicate]
    omega

/-- Pages are read: the packets `new` end on them, behind the packets `gone`. -/
structure Fed (table : ℕ → UInt32) (all : List Packet) (r : Ffogg) (gone : List Packet)
    (pages : List (List UInt8)) (rs : List OggR) (r' : Ffogg) (new : List Packet) : Prop where
  read : readPages table r pages = some (rs, r')
  packets : rs.flatMap OggR.packet = new.map Packet.bytes
  good : ∀ x ∈ rs, x.good = true
  ok : PagesOk all (posOf r gone) pages
  pos : posOf r' (gone ++ new) = posOf r gone + (pages.map fun b => (pageBody b).length).sum

theorem readPages_append {r r' : Ffogg} {ps qs : List (List UInt8)} {rs : List OggR}
    (h : readPages table r ps = some (rs, r')) (hstop : rs.any OggR.isStop = false) :
    readPages table r (ps ++ qs) = (readPages table r' qs).map fun t => (rs ++ t.1, t.2) := by
  induction ps generalizing r rs with
  | nil =>
    obtain ⟨rfl, rfl⟩ : [] = rs ∧ r = r' := by simpa [readPages] using h
    cases hq : readPages table r qs <;> simp [hq]
  | cons b ps ih =>
    rw [readPages] at h
    rw [cons_append, readPages]
    cases hb : readPage table r b with
    | none =>
      rw [hb] at h
      cases h
    | some t =>
      obtain ⟨rs₁, r₁⟩ := t
      rw [hb] at h
      simp only at h ⊢
      by_cases h₁ : rs₁.any OggR.isStop = true
      · rw [if_pos h₁] at h
        obtain ⟨rfl, rfl⟩ : rs₁ = rs ∧ r₁ = r' := by simpa using h
        rw [h₁] at hstop
        cases hstop
      rw [if_neg h₁] at h ⊢
      obtain ⟨⟨rs₂, r₂⟩, h₂, heq⟩ := Option.map_eq_some_iff.mp h
      obtain ⟨rfl, rfl⟩ : rs₁ ++ rs₂ = rs ∧ r₂ = r' := by simpa using heq
      rw [any_append, Bool.or_eq_false_iff] at hstop
      rw [ih h₂ hstop.2]
      cases readPages table r₂ qs <;> simp

theorem pagesOk_append {all : List Packet} {ps qs : List (List UInt8)} {pos : ℕ}
    (h : PagesOk all pos ps)
    (h' : PagesOk all (pos + (ps.map fun b => (pageBody b).length).sum) qs) :
    PagesOk all pos (ps ++ qs) := by
  induction ps generalizing pos with
  | nil => exact h'
  | cons b ps ih =>
    rw [map_cons, sum_cons, ← Nat.add_assoc] at h'
    exact ⟨h.1, ih h.2 h'⟩

theorem Fed.nil {all : List Packet} {r : Ffogg} {gone : List Packet} :
    Fed table all r gone [] [] r [] :=
  ⟨rfl, rfl, fun x hx => (not_mem_nil hx).elim, trivial, by rw [append_nil]; rfl⟩

/-- **Pages, and then other pages.** -/
theorem Fed.append {all gone new new' : List Packet} {r r₁ r₂ : Ffogg} {ps qs : List (List UInt8)}
    {rs rs' : List OggR} (h : Fed table all r gone ps rs r₁ new)
    (hstop : rs.any OggR.isStop = false) (h' : Fed table all r₁ (gone ++ new) qs rs' r₂ new') :
    Fed table all r gone (ps ++ qs) (rs ++ rs') r₂ (new ++ new') where
  read := by rw [readPages_append h.read hstop, h'.read, Option.map_some]
  packets := by rw [flatMap_append, h.packets, h'.packets, map_append]
  good x hx := (mem_append.mp hx).elim (h.good x) (h'.good x)
  ok := pagesOk_append h.ok (h.pos ▸ h'.ok)
  pos := by
    rw [← append_assoc, h'.pos, h.pos, map_append, sum_append, Nat.add_assoc]

/-- **A page is written and read**, with what is on it. -/
theorem Cut.flushFed {o : OggCook} {r : Ffogg} {gone here more all : List Packet}
    {rest : List UInt8} {f : ℕ} (h : Cut o r gone here rest) (hf : f = 0 ∨ f = OGG_FLAST)
    (hw : here = [] → rest = [] → r.waits = none)
    (hmore : ∀ x, more.head? = some x → (tailOf r.waits here rest).length < x.bytes.length)
    (hall : all = gone ++ here ++ more) :
    ∃ b rs r' page, flushPage table o f (decide (rest ≠ [])) =
        (if f = OGG_FLAST then .done b else .data b, { o with
          continued := decide (rest ≠ [])
          page := page
          pageStartpos := o.pageEndpos
          pageEndpos := OGG_GPOS_UNDEF }) ∧
      Fed table all r gone [b] rs r' here ∧ rs.any OggR.isStop = decide (f = OGG_FLAST) ∧
      (rs.any OggR.isStop = true → rs.getLast? = some .done) ∧
      Cut { o with
        continued := decide (rest ≠ [])
        page := page
        pageStartpos := o.pageEndpos
        pageEndpos := OGG_GPOS_UNDEF } r' (gone ++ here) [] [] ∧ page.segs = [] ∧
      r'.waits = if rest = [] then none else some (tailOf r.waits here rest) := by
  obtain ⟨b, rs, r', o', hflush, hread, hpackets, hgood, hstop, hend, hok, hpos, hcut, hsegs, hwaits,
    ho'⟩ := h.flush hf hw hmore
  refine ⟨b, rs, r', o'.page, ?_, ⟨?_, hpackets, hgood, ⟨hall ▸ hok, trivial⟩, ?_⟩, hstop, hend, ?_,
    hsegs, hwaits⟩
  · rw [hflush, ← ho']
  · rw [readPages, hread]
    simp [readPages]
  · rw [hpos]
    rfl
  · rw [← ho']
    exact hcut

theorem Cut.flushLast {o : OggCook} {r : Ffogg} {gone here later all : List Packet}
    (h : Cut o r gone here []) (hw : here = [] → r.waits = none)
    (hlater : ∀ x ∈ later, x.bytes ≠ []) (hall : all = gone ++ here ++ later) :
    ∃ b rs r' o', flushPage table o OGG_FLAST false = (.done b, o') ∧
      Fed table all r gone [b] rs r' here ∧ rs.getLast? = some .done := by
  obtain ⟨b, rs, r', page, hflush, hfed, hstop, hend, -⟩ :=
    @Cut.flushFed table o r gone here later all [] OGG_FLAST h (.inr rfl) (fun hh _ => hw hh)
      (fun x hx => by
        rw [tailOf_nil hw]
        exact length_pos_of_ne_nil (hlater x (mem_of_head? hx))) hall
  exact ⟨b, rs, r', _, hflush, hfed, hend (by rw [hstop]; rfl)⟩

theorem Cut.flushData {o : OggCook} {r : Ffogg} {gone here more all : List Packet}
    {rest : List UInt8} (h : Cut o r gone here rest) (hw : here = [] → rest = [] → r.waits = none)
    (hmore : ∀ x, more.head? = some x → (tailOf r.waits here rest).length < x.bytes.length)
    (hall : all = gone ++ here ++ more) :
    ∃ b rs r' o', flushPage table o 0 (decide (rest ≠ [])) = (.data b, o') ∧
      Fed table all r gone [b] rs r' here ∧ rs.any OggR.isStop = false ∧
      Cut o' r' (gone ++ here) [] [] ∧ o'.page.segs = [] ∧
      r'.waits = (if rest = [] then none else some (tailOf r.waits here rest)) ∧
      o'.pkt = o.pkt ∧ o'.pktEndpos = o.pktEndpos ∧ o'.fin = o.fin := by
  obtain ⟨b, rs, r', page, hflush, hfed, hstop, -, hcut, hsegs, hwaits⟩ :=
    @Cut.flushFed table o r gone here more all rest 0 h (.inl rfl) hw hmore hall
  exact ⟨b, rs, r', _, hflush, hfed, hstop, hcut, hsegs, hwaits, rfl, rfl, rfl⟩

/-- The number of calls that are left. -/
def callsLeft (o : OggCook) : ℕ := 2 * o.pkt.length + if o.page.segs = [] then 0 else 1

/-- What a call of the writer does: it wants more, or it gives a page, the last one or another. -/
inductive Step (table : ℕ → UInt32) (all : List Packet) (o : OggCook) (r : Ffogg)
    (gone here todo : List Packet) : Prop
  | more {o' : OggCook} (h : ffoggWrite table o = some (.more, o')) (hfin : o.fin = false)
      (hcut : Cut o' r gone (here ++ todo) []) (hw : here ++ todo = [] → r.waits = none)
  | data {o' : OggCook} {b : List UInt8} {rs : List OggR} {r' : Ffogg} {new todo' : List Packet}
      (h : ffoggWrite table o = some (.data b, o')) (hfed : Fed table all r gone [b] rs r' new)
      (hstop : rs.any OggR.isStop = false) (hcut : Cut o' r' (gone ++ new) [] [])
      (hpend : Pending o' r'.waits [] todo') (hall : new ++ todo' = here ++ todo)
      (hless : callsLeft o' < callsLeft o) (hfin : o'.fin = o.fin)
  | done {o' : OggCook} {b : List UInt8} {rs : List OggR} {r' : Ffogg}
      (h : ffoggWrite table o = some (.done b, o')) (hfin : o.fin = true)
      (hfed : Fed table all r gone [b] rs r' (here ++ todo)) (hend : rs.getLast? = some .done)

theorem ffoggWrite_whole {o : OggCook} {page : OggPage} {r : ℕ} (hzero : o.pkt.length ≠ 0)
    (hfirst : flushFirst o = false) (hwrite : oggPktWrite o.page o.pkt = some (page, r))
    (hnil : o.pkt.drop r = []) :
    ffoggWrite table o =
      if o.fin then
        some (flushPage table { o with page := page, pkt := [], pageEndpos := o.pktEndpos }
          OGG_FLAST false)
      else if o.flush then
        some (flushPage table
          { o with page := page, pkt := [], pageEndpos := o.pktEndpos, flush := false } 0 false)
      else some (.more, { o with page := page, pkt := [], pageEndpos := o.pktEndpos }) := by
  rw [ffoggWrite, if_neg hzero, hfirst, if_neg Bool.false_ne_true, hwrite]
  simp only [hnil, length_nil, ne_eq, not_true_eq_false, if_false]

theorem ffoggWrite_part {o : OggCook} {page : OggPage} {r : ℕ} (hzero : o.pkt.length ≠ 0)
    (hfirst : flushFirst o = false) (hwrite : oggPktWrite o.page o.pkt = some (page, r))
    (hnil : (o.pkt.drop r).length ≠ 0) :
    ffoggWrite table o =
      some (flushPage table { o with page := page, pkt := o.pkt.drop r } 0 true) := by
  rw [ffoggWrite, if_neg hzero, hfirst, if_neg Bool.false_ne_true, hwrite]
  simp only [ne_eq, hnil, not_false_eq_true, if_true]

/-- **A call of the writer** -/
theorem ffoggWrite_step {o : OggCook} {r : Ffogg} {gone here todo later all : List Packet}
    (h : Cut o r gone here []) (hpend : Pending o r.waits here todo) (hfits : Fits o)
    (hlater : ∀ x ∈ later, x.bytes ≠ []) (hall : all = gone ++ here ++ todo ++ later) :
    Step table all o r gone here todo := by
  obtain ⟨rfl, hpkt, hw⟩ | ⟨x, rfl, hpkt, hx, hxpos, hxlt⟩ := hpend
  · have hzero : o.pkt.length = 0 := length_eq_zero_iff.mpr hpkt
    rw [append_nil] at hall
    cases hfin : o.fin with
    | false =>
      refine @Step.more _ _ _ _ _ _ _ o ?_ hfin (by rwa [append_nil]) (by rwa [append_nil])
      rw [ffoggWrite, if_pos hzero, hfin]
      rfl
    | true =>
      obtain ⟨b, rs, r', o', hflush, hfed, hend⟩ := h.flushLast hw hlater hall
      refine @Step.done _ _ _ _ _ _ _ o' b rs r' ?_ hfin (by rwa [append_nil]) hend
      rw [ffoggWrite, if_pos hzero, hfin, if_pos rfl, hflush]
  have hzero : o.pkt.length ≠ 0 := fun hno => hpkt (length_eq_zero_iff.mp hno)
  have hxne : x.bytes ≠ [] := by
    rw [hx]
    exact append_ne_nil_of_right_ne_nil _ hpkt
  have hmore : all = gone ++ here ++ (x :: later) := by rw [hall, append_assoc _ [x]]; rfl
  cases hfirst : flushFirst o with
  | true =>
    have hsegs : o.page.segs ≠ [] := by
      rw [flushFirst, Bool.and_eq_true] at hfirst
      simpa using hfirst.1
    have hhere : here ≠ [] := by
      rintro rfl
      obtain ⟨whole, hp, hm⟩ := h.pieces
      exact hsegs (by rw [hp.segs, hm.eq_nil]; rfl)
    obtain ⟨b, rs, r', o', hflush, hfed, hstop, hcut, hempty, hwaits, hpkt', hend', hfin'⟩ :=
      @Cut.flushData table o r gone here (x :: later) all [] h (fun hh _ => absurd hh hhere)
        (fun y hy => by
          obtain rfl := Option.some.inj hy
          rw [tailOf_nil fun hh => absurd hh hhere]
          exact length_pos_of_ne_nil hxne) hmore
    refine @Step.data _ _ _ _ _ _ _ o' b rs r' here [x] ?_ hfed hstop hcut ?_ rfl ?_ hfin'
    · rw [ffoggWrite, if_neg hzero, hfirst, if_pos rfl]
      exact congrArg some hflush
    · refine .inr ⟨x, rfl, by rwa [hpkt'], ?_, by rw [hend', hxpos], hxlt⟩
      rw [hwaits, if_pos rfl, hpkt', hx, tailOf, tailOf, if_neg hhere]
      rfl
    · rw [callsLeft, callsLeft, hempty, hpkt', if_pos rfl, if_neg hsegs]
      omega
  | false =>
    obtain ⟨whole, hp, -⟩ := h.pieces
    obtain ⟨hfit, huint⟩ := hfits hfirst
    obtain ⟨hroom, hwrite⟩ | ⟨hlong, hwrite⟩ :=
      oggPktWrite_eq h.len hp.body_le hzero hfit huint
    · have hcut := h.add hpkt hx hxpos hxlt hroom
      have hnil : o.pkt.drop o.pkt.length = [] := drop_length
      have hne : here ++ [x] ≠ [] := append_ne_nil_of_right_ne_nil _ (cons_ne_nil x [])
      rw [append_assoc gone here [x]] at hall
      cases hfin : o.fin with
      | true =>
        obtain ⟨b, rs, r', o', hflush, hfed, hend⟩ :=
          hcut.flushLast (fun hh => absurd hh hne) hlater hall
        refine @Step.done _ _ _ _ _ _ _ o' b rs r' ?_ hfin hfed hend
        rw [ffoggWrite_whole hzero hfirst hwrite hnil, if_pos hfin]
        exact congrArg some hflush
      | false =>
        cases hfl : o.flush with
        | true =>
          obtain ⟨b, rs, r', o', hflush, hfed, hstop, hcut', hempty, hwaits, hpkt', hend',
            hfin'⟩ := @Cut.flushData table _ r gone (here ++ [x]) later all []
              (@Cut.setFlush _ _ _ _ _ false hcut) (fun hh _ => absurd hh hne)
              (fun y hy => by
                rw [tailOf_nil fun hh => absurd hh hne]
                exact length_pos_of_ne_nil (hlater y (mem_of_head? hy))) hall
          refine @Step.data _ _ _ _ _ _ _ o' b rs r' (here ++ [x]) [] ?_ hfed hstop hcut' ?_
            (append_nil _) ?_ hfin'
          · rw [ffoggWrite_whole hzero hfirst hwrite hnil, if_neg (by simp [hfin]), if_pos hfl]
            exact congrArg some hflush
          · exact .inl ⟨rfl, hpkt', fun _ => by rw [hwaits, if_pos rfl]⟩
          · have hlen' : o'.pkt.length = 0 := by rw [hpkt']; rfl
            rw [callsLeft, callsLeft, hempty, if_pos rfl, hlen']
            omega
        | false =>
          refine .more ?_ hfin hcut (fun hh => absurd hh hne)
          rw [ffoggWrite_whole hzero hfirst hwrite hnil, if_neg (by simp [hfin]),
            if_neg (by simp [hfl])]
    · obtain ⟨free, hfree⟩ : ∃ free, free = 255 - o.page.segs.length := ⟨_, rfl⟩
      rw [← hfree] at hlong hwrite
      have hpos : 0 < free := by
        refine Nat.pos_of_ne_zero fun hfull => ?_
        have hsegs : o.page.segs ≠ [] := by
          intro hnil
          rw [hnil, length_nil] at hfree
          omega
        rw [flushFirst, oggPktLen, pktLen_of_write hwrite, hfull] at hfirst
        simp [hsegs] at hfirst
      have hcut := h.addPart hfree hlong
      have htake : o.pkt.take (free * 255) ≠ [] := by
        rw [ne_eq, take_eq_nil_iff]
        rintro (hno | hno)
        · omega
        · exact hpkt hno
      have hdrop : (o.pkt.drop (free * 255)).length ≠ 0 := by
        rw [length_drop]
        omega
      have hjoin : x.bytes = tailOf r.waits here (o.pkt.take (free * 255)) ++
          o.pkt.drop (free * 255) := by
        rw [hx, tailOf, tailOf, append_assoc, take_append_drop]
      obtain ⟨b, rs, r', o', hflush, hfed, hstop, hcut', hempty, hwaits, hpkt', hend', hfin'⟩ :=
        @Cut.flushData table _ r gone here (x :: later) all _ hcut
          (fun _ hr => absurd hr htake)
          (fun y hy => by
            obtain rfl := Option.some.inj hy
            rw [hjoin, length_append]
            omega) hmore
      have hpkt' : o'.pkt = o.pkt.drop (free * 255) := hpkt'
      rw [decide_eq_true htake] at hflush
      rw [if_neg htake] at hwaits
      refine @Step.data _ _ _ _ _ _ _ o' b rs r' here [x] ?_ hfed hstop hcut' ?_ rfl ?_ hfin'
      · rw [ffoggWrite_part hzero hfirst hwrite hdrop]
        exact congrArg some hflush
      · refine .inr ⟨x, rfl, ?_, ?_, by rw [hend', hxpos], hxlt⟩
        · rw [hpkt']
          exact fun hno => hdrop (by rw [hno]; rfl)
        · rw [hwaits, hpkt', hjoin]
          rfl
      · have hlen' : o'.pkt.length = o.pkt.length - free * 255 := by rw [hpkt', length_drop]
        rw [callsLeft, callsLeft, hempty, if_pos rfl, hlen']
        omega

/-! ### Whole streams -/

/-- All calls for a packet add it where it fits. -/
@[grind =] def FeedFits (table : ℕ → UInt32) : ℕ → OggCook → Prop
  | 0, _ => True
  | n + 1, o =>
    Fits o ∧
      match ffoggWrite table o with
      | some (.data _, o) => FeedFits table n o
      | _ => True

/-- **All calls of the writer add packets where they fit.** -/
@[grind =] def StreamFits (table : ℕ → UInt32) : OggCook → List Req → Req → Prop
  | o, [], last => FeedFits table (feedFuel (o.load last true)) (o.load last true)
  | o, q :: qs, last =>
    FeedFits table (feedFuel (o.load q false)) (o.load q false) ∧
      match feed table (feedFuel (o.load q false)) (o.load q false) with
      | some (_, _, o) => StreamFits table o qs last
      | none => True

instance FeedFits.decide : (n : ℕ) → (o : OggCook) → Decidable (FeedFits table n o)
  | 0, _ => .isTrue trivial
  | n + 1, o =>
    letI : Decidable (match ffoggWrite table o with
        | some (.data _, o) => FeedFits table n o
        | _ => True) :=
      match ffoggWrite table o with
      | some (.data _, o) => FeedFits.decide n o
      | some (.more, _) | some (.done _, _) | none => .isTrue trivial
    inferInstanceAs (Decidable (Fits o ∧ _))

instance StreamFits.decide : (o : OggCook) → (reqs : List Req) → (last : Req) →
    Decidable (StreamFits table o reqs last)
  | o, [], last => FeedFits.decide (feedFuel (o.load last true)) (o.load last true)
  | o, q :: qs, last =>
    letI : Decidable (match feed table (feedFuel (o.load q false)) (o.load q false) with
        | some (_, _, o) => StreamFits table o qs last
        | none => True) :=
      match feed table (feedFuel (o.load q false)) (o.load q false) with
      | some (_, _, o) => StreamFits.decide o qs last
      | none => .isTrue trivial
    inferInstanceAs (Decidable (FeedFits table _ _ ∧ _))

/-- The packets of a stream -/
def packetsOf (reqs : List Req) (last : Req) : List Packet :=
  reqs.map Req.packet ++ if last.packet.bytes = [] then [] else [last.packet]

/-- **The pages for a packet** -/
theorem feed_eq {n : ℕ} {o : OggCook} {r : Ffogg} {gone here todo later all : List Packet}
    (h : Cut o r gone here []) (hpend : Pending o r.waits here todo) (hfits : FeedFits table n o)
    (hlater : ∀ x ∈ later, x.bytes ≠ []) (hall : all = gone ++ here ++ todo ++ later)
    (hn : callsLeft o < n) :
    ∃ pages o' rs r' new here', feed table n o = some (pages, o.fin, o') ∧
      Fed table all r gone pages rs r' new ∧ new ++ here' = here ++ todo ∧
      (o.fin = false → rs.any OggR.isStop = false ∧ Cut o' r' (gone ++ new) here' [] ∧
        (here' = [] → r'.waits = none)) ∧
      (o.fin = true → here' = [] ∧ rs.getLast? = some .done) := by
  induction n generalizing o r gone here todo with
  | zero => omega
  | succ n ih =>
    obtain ⟨hfit, hrest⟩ := hfits
    cases @ffoggWrite_step table _ _ gone here todo later all h hpend hfit hlater hall with
    | @more o₁ hw hfin hcut hwaits =>
      refine ⟨[], o₁, [], r, [], here ++ todo, ?_, .nil, rfl, fun _ => ⟨rfl, ?_, hwaits⟩,
        fun hno => ?_⟩
      · rw [feed, hw, hfin]
      · rwa [append_nil]
      · rw [hfin] at hno
        cases hno
    | @data o₁ b rs r₁ new todo' hw hfed hstop hcut hpend' hnew hless hfin =>
      rw [hw] at hrest
      obtain ⟨pages, o', rs', r', new', here', hfeed, hfed', hnew', hgo, hend⟩ :=
        ih hcut hpend' hrest (by
          rw [hall, append_assoc gone, ← hnew]
          simp only [append_assoc, nil_append]) (by omega)
      refine ⟨b :: pages, o', rs ++ rs', r', new ++ new', here', ?_, hfed.append hstop hfed', ?_,
        ?_, ?_⟩
      · rw [feed, hw]
        simp only [hfeed, Option.map_some, hfin]
      · rw [append_assoc, hnew', nil_append, hnew]
      · intro hf
        obtain ⟨hs, hc, hwt⟩ := hgo (hfin.trans hf)
        rw [← append_assoc]
        exact ⟨by rw [any_append, hstop, hs, Bool.or_self], hc, hwt⟩
      · intro hf
        obtain ⟨hh, hl⟩ := hend (hfin.trans hf)
        exact ⟨hh, by rw [getLast?_append, hl]; rfl⟩
    | @done o₁ b rs r₁ hw hfin hfed hend =>
      refine ⟨[b], o₁, rs, r₁, here ++ todo, [], ?_, hfed, append_nil _, fun hno => ?_,
        fun _ => ⟨rfl, hend⟩⟩
      · rw [feed, hw, hfin]
      · rw [hfin] at hno
        cases hno

theorem Cut.load {o : OggCook} {r : Ffogg} {gone here : List Packet} (h : Cut o r gone here [])
    (q : Req) (fin : Bool) : Cut (o.load q fin) r gone here [] :=
  ⟨h.sync, h.cont, h.pieces, h.len, h.endpos, h.packets⟩

theorem pending_load {o : OggCook} {w : Option (List UInt8)} {here : List Packet}
    (hw : here = [] → w = none) (q : Req) (fin : Bool) (hpos : q.packet.endpos < 2 ^ 64) :
    Pending (o.load q fin) w here (if q.packet.bytes = [] then [] else [q.packet]) := by
  split
  · next hnil => exact .inl ⟨rfl, hnil, hw⟩
  next hne =>
    refine .inr ⟨q.packet, rfl, hne, ?_, rfl, hpos⟩
    rw [tailOf]
    split
    · next hh =>
        rw [hw hh]
        rfl
    · rfl

theorem callsLeft_lt (o : OggCook) : callsLeft o < feedFuel o := by
  rw [callsLeft, feedFuel]
  split <;> omega

/-- **The pages for the packets of a stream** -/
theorem writeStream_eq {reqs : List Req} {last : Req} {o : OggCook} {r : Ffogg}
    {gone here all : List Packet} (h : Cut o r gone here []) (hw : here = [] → r.waits = none)
    (hreqs : ∀ q ∈ reqs, q.packet.bytes ≠ [] ∧ q.packet.endpos < 2 ^ 64)
    (hlast : last.packet.endpos < 2 ^ 64) (hfits : StreamFits table o reqs last)
    (hall : all = gone ++ here ++ packetsOf reqs last) :
    ∃ pages rs r', writeStream table o reqs last = some pages ∧
      Fed table all r gone pages rs r' (here ++ packetsOf reqs last) ∧
      rs.getLast? = some .done := by
  induction reqs generalizing o r gone here with
  | nil =>
    obtain ⟨pages, o', rs, r', new, here', hfeed, hfed, hnew, -, hend⟩ :=
      @feed_eq table _ _ r gone here _ [] all (h.load last true)
        (pending_load hw last true hlast) hfits (fun x hx => by cases hx)
        (by rw [hall, append_nil]; rfl) (callsLeft_lt _)
    obtain ⟨rfl, hl⟩ := hend rfl
    rw [append_nil] at hnew
    refine ⟨pages, rs, r', ?_, hnew ▸ hfed, hl⟩
    rw [writeStream, hfeed]
    rfl
  | cons q qs ih =>
    obtain ⟨⟨hne, hpos⟩, hqs⟩ := forall_mem_cons.mp hreqs
    obtain ⟨hfit, hrest⟩ := hfits
    have hpend := pending_load (o := o) hw q false hpos
    rw [if_neg hne] at hpend
    have hcons : packetsOf (q :: qs) last = [q.packet] ++ packetsOf qs last := rfl
    have hlater : ∀ x ∈ packetsOf qs last, x.bytes ≠ [] := by
      intro x hx
      rcases mem_append.mp hx with hx | hx
      · obtain ⟨q', hq', rfl⟩ := mem_map.mp hx
        exact (hqs q' hq').1
      · split at hx
        · cases hx
        · next hl =>
            rw [mem_singleton.mp hx]
            exact hl
    obtain ⟨pages, o', rs, r', new, here', hfeed, hfed, hnew, hgo, -⟩ :=
      @feed_eq table _ _ r gone here _ (packetsOf qs last) all (h.load q false) hpend hfit hlater
        (by rw [hall, hcons]; simp only [append_assoc]) (callsLeft_lt _)
    obtain ⟨hstop, hcut, hw'⟩ := hgo rfl
    rw [hfeed] at hrest
    obtain ⟨pages', rs', r'', hwrite, hfed', hend⟩ := ih hcut hw' hqs hrest (by
      rw [hall, hcons, append_assoc gone new, hnew]
      simp only [append_assoc])
    refine ⟨pages ++ pages', rs ++ rs', r'', ?_, ?_, by rw [getLast?_append, hend]; rfl⟩
    · rw [writeStream, hfeed]
      simp only [OggCook.load, hwrite, Option.map_some]
    · have hjoin := hfed.append hstop hfed'
      rw [← append_assoc, hnew, append_assoc] at hjoin
      exact hjoin

/-- **The packets that have been written are read back**, and each page says truly where its first
packet began and where its last one ended. -/
theorem ffoggRead_written {serial delta : ℕ} (hserial : serial < 2 ^ 32) {reqs : List Req}
    {last : Req} (hreqs : ∀ q ∈ reqs, q.packet.bytes ≠ [] ∧ q.packet.endpos < 2 ^ 64)
    (hlast : last.packet.endpos < 2 ^ 64)
    (hfits : StreamFits table { ffoggCreate serial with maxPagedelta := delta } reqs last) :
    ∃ pages rs r',
      writeStream table { ffoggCreate serial with maxPagedelta := delta } reqs last = some pages ∧
      readPages table .init pages = some (rs, r') ∧
      rs.flatMap OggR.packet = (packetsOf reqs last).map Packet.bytes ∧
      (∀ x ∈ rs, x.good = true) ∧ rs.getLast? = some .done ∧
      PagesOk (packetsOf reqs last) 0 pages := by
  have hcut : Cut { ffoggCreate serial with maxPagedelta := delta } .init [] [] [] :=
    ⟨⟨fun h => by simp [Ffogg.init] at h, .inl rfl, fun _ => rfl, hserial, Nat.two_pow_pos 32⟩, rfl,
      ⟨[], ⟨rfl, rfl, by simp⟩, @Matches.fresh []⟩, Nat.zero_le _, rfl, fun x hx => by cases hx⟩
  obtain ⟨pages, rs, r', hwrite, hfed, hend⟩ :=
    writeStream_eq hcut (fun _ => rfl) hreqs hlast hfits rfl
  exact ⟨pages, rs, r', hwrite, hfed.read, hfed.packets, hfed.good, hend, hfed.ok⟩

/-- An entry of `ogg_crc_table`: the polynomial is 0x04c11db7. -/
def crcEntry (i : ℕ) : UInt32 :=
  Nat.iterate (fun r => if r >= 0x80000000 then (r <<< 1) ^^^ 0x04c11db7 else r <<< 1) 8
    (i.toUInt32 <<< 24)

/-- A packet that may be cut. -/
def packet (bytes : List UInt8) (endpos : ℕ) : Req := ⟨⟨bytes, endpos⟩, false, true⟩

theorem ffoggRead_written_two :
    ∃ pages rs r',
      writeStream crcEntry { ffoggCreate 7 with maxPagedelta := 100 } [packet [1, 2] 10]
        (packet [3] 20) = some pages ∧
      readPages crcEntry .init pages = some (rs, r') ∧
      rs.flatMap OggR.packet = (packetsOf [packet [1, 2] 10] (packet [3] 20)).map Packet.bytes ∧
      (∀ x ∈ rs, x.good = true) ∧ rs.getLast? = some .done ∧
      PagesOk (packetsOf [packet [1, 2] 10] (packet [3] 20)) 0 pages :=
  ffoggRead_written (by decide) (by decide) (by decide) (by decide)

/-! ### A full table of segments -/

section FullTable

variable {table : ℕ → UInt32} {o : OggCook} {k n : ℕ}

/-- The writer holds a page with `k` packets of one byte. -/
structure Ones (o : OggCook) (k : ℕ) : Prop where
  page : o.page = ⟨List.replicate k 1, List.replicate k 1, 7, 0⟩
  delta : o.maxPagedelta = 2 ^ 32 - 1
  continued : o.continued = false

theorem oggPktWrite_one (hk : k < 255) :
    oggPktLen ⟨List.replicate k 1, List.replicate k 1, 7, 0⟩ 1 = 1 ∧
      oggPktWrite ⟨List.replicate k 1, List.replicate k 1, 7, 0⟩ [1] =
        some (⟨List.replicate (k + 1) 1, List.replicate (k + 1) 1, 7, 0⟩, 1) := by
  have hsegs : pktSegs ⟨List.replicate k 1, List.replicate k 1, 7, 0⟩ 1 = (1, true) := by
    have hmin : min 1 (255 - k) = 1 := Nat.min_eq_left (by omega)
    have hall : (1 / 255 + 1) % 2 ^ 32 = 1 := by decide
    simp only [pktSegs, length_replicate, hall, hmin]
    rfl
  have hlen : pktLen ⟨List.replicate k 1, List.replicate k 1, 7, 0⟩ 1 = 1 := by
    rw [pktLen, hsegs]
    rfl
  have hmax : OGG_MAXPAGE = OGG_MAXHDR + 65025 := rfl
  have hroom : ¬(1 = 0 ∨ 255 ≤ 1 ∧ 1 < true.toNat ∨
      (List.replicate k (1 : UInt8)).length + OGG_MAXHDR + 1 > OGG_MAXPAGE) := by
    rw [length_replicate]
    omega
  have hone : [(1 : UInt8)].length = 1 := rfl
  refine ⟨by rw [oggPktLen, hlen]; rfl, ?_⟩
  simp only [oggPktWrite, hone, hsegs, hlen]
  rw [if_neg hroom, replicate_succ']
  simp

theorem Ones.feed (h : Ones o k) (hk : k < 255) : ∃ o', Ones o' (k + 1) ∧
    Ogg.feed table (feedFuel (o.load (packet [1] 10) false)) (o.load (packet [1] 10) false) =
      some ([], false, o') := by
  obtain ⟨hlen, hwrite⟩ := oggPktWrite_one hk
  obtain ⟨q, hq⟩ : ∃ q, q = o.load (packet [1] 10) false := ⟨_, rfl⟩
  have hpkt : q.pkt = [1] := by rw [hq]; rfl
  have hpage : q.page = ⟨List.replicate k 1, List.replicate k 1, 7, 0⟩ := by rw [hq]; exact h.page
  have hdelta : q.maxPagedelta = 2 ^ 32 - 1 := by rw [hq]; exact h.delta
  have hfin : q.fin = false := by rw [hq]; rfl
  have hflush : q.flush = false := by rw [hq]; rfl
  have hcont : q.continued = false := by rw [hq]; exact h.continued
  have hfirst : flushFirst q = false := by
    simp only [flushFirst, hpkt, hpage, hdelta]
    simp [hlen]
  have hcall := @ffoggWrite_whole table q
    ⟨List.replicate (k + 1) 1, List.replicate (k + 1) 1, 7, 0⟩ 1 (by rw [hpkt]; decide) hfirst
    (by rw [hpage, hpkt]; exact hwrite) (by rw [hpkt]; rfl)
  rw [hfin, hflush, if_neg Bool.false_ne_true, if_neg Bool.false_ne_true] at hcall
  refine ⟨{ q with
      page := ⟨List.replicate (k + 1) 1, List.replicate (k + 1) 1, 7, 0⟩
      pkt := []
      pageEndpos := q.pktEndpos
      flush := false
      fin := false }, ⟨rfl, hdelta, hcont⟩, ?_⟩
  rw [← hq, feedFuel, hpkt]
  rw [Ogg.feed, hcall]

/-- **Many packets of one byte** on one page. -/
theorem Ones.writeStream (h : Ones o k) (hk : k + n ≤ 255) (reqs : List Req) (last : Req) :
    ∃ o', Ones o' (k + n) ∧
      Ogg.writeStream table o (List.replicate n (packet [1] 10) ++ reqs) last =
        Ogg.writeStream table o' reqs last := by
  induction n generalizing o k with
  | zero => exact ⟨o, h, rfl⟩
  | succ n ih =>
    obtain ⟨o₁, h₁, hfeed⟩ := @Ones.feed table o k h (by omega)
    obtain ⟨o', h', hwrite⟩ := ih h₁ (by omega)
    refine ⟨o', by rwa [Nat.add_right_comm] at h', ?_⟩
    rw [replicate_succ, cons_append, Ogg.writeStream, hfeed]
    change (Ogg.writeStream table o₁ _ last).map _ = _
    rw [hwrite]
    cases Ogg.writeStream table o' reqs last <;> rfl

/-- The first packet of a page that the writer has filled is read as one that goes on. -/
theorem readPage_contpkt {o : Ffogg} {b : List UInt8} (hcont : o.continued = true)
    (hflags : pageFlags b &&& OGG_FCONTINUED = 0) :
    readPage table o b = (readPage table { o with continued := false, pktdata := [] } b).map
      fun r => (.warn .contpkt :: r.1, r.2) := by
  have hhdr : caseHdr o b =
      (.warn .contpkt :: (caseHdr { o with continued := false, pktdata := [] } b).1,
        (caseHdr { o with continued := false, pktdata := [] } b).2) := by
    cases hinit : o.initDone with
    | true => simp [caseHdr, hcont, hflags, hinit]
    | false =>
      simp only [caseHdr, hcont, hflags, hinit]
      by_cases hthird : o.pgno + 1 = 3
      · simp [hthird]
      · simp [hthird]
  rw [readPage, readPage, hhdr]
  dsimp only
  cases getbody table (caseHdr { o with continued := false, pktdata := [] } b).2 b with
  | error e => rfl
  | ok p =>
    rw [Option.map_map]
    rfl

/-- The page whose table of segments is full. -/
def fullPage : OggPage :=
  ⟨List.replicate 254 1 ++ [255], List.replicate 254 1 ++ List.replicate 255 2, 7, 0⟩

theorem Ones.feedFull (h : Ones o 254) : ∃ o', o'.page = fullPage ∧
    o'.maxPagedelta = 2 ^ 32 - 1 ∧ o'.continued = false ∧
    Ogg.feed table (feedFuel (o.load (packet (List.replicate 255 2) 20) false))
      (o.load (packet (List.replicate 255 2) 20) false) = some ([], false, o') := by
  obtain ⟨q, hq⟩ : ∃ q, q = o.load (packet (List.replicate 255 2) 20) false := ⟨_, rfl⟩
  have hpkt : q.pkt = List.replicate 255 2 := by rw [hq]; rfl
  have hpage : q.page = ⟨List.replicate 254 1, List.replicate 254 1, 7, 0⟩ := by
    rw [hq]
    exact h.page
  have hdelta : q.maxPagedelta = 2 ^ 32 - 1 := by rw [hq]; exact h.delta
  have hfin : q.fin = false := by rw [hq]; rfl
  have hflush : q.flush = false := by rw [hq]; rfl
  have hcont : q.continued = false := by rw [hq]; exact h.continued
  have hlen : oggPktLen ⟨List.replicate 254 1, List.replicate 254 1, 7, 0⟩ 255 = 255 := by
    decide +kernel
  have hwrite : oggPktWrite ⟨List.replicate 254 1, List.replicate 254 1, 7, 0⟩
      (List.replicate 255 2) = some (fullPage, 255) := by decide +kernel
  have hfirst : flushFirst q = false := by
    have hno : ((2 ^ 32 - 1 : ℕ) != 2 ^ 32 - 1) = false := bne_self_eq_false _
    have hsome : ((255 : ℕ) == 0) = false := rfl
    rw [flushFirst, hpkt, hpage, hdelta, length_replicate, hlen, hno, hsome, bne_self_eq_false,
      Bool.false_and, Bool.false_and, Bool.or_false, Bool.or_false, Bool.and_false]
  have hcall := @ffoggWrite_whole table q fullPage 255 (by rw [hpkt]; decide +kernel) hfirst
    (by rw [hpage, hpkt]; exact hwrite) (by rw [hpkt]; decide)
  rw [hfin, hflush, if_neg Bool.false_ne_true, if_neg Bool.false_ne_true] at hcall
  refine ⟨{ q with
      page := fullPage
      pkt := []
      pageEndpos := q.pktEndpos
      flush := false
      fin := false }, rfl, hdelta, hcont, ?_⟩
  rw [← hq, feedFuel, hpkt, length_replicate]
  rw [Ogg.feed, hcall]

theorem feed_behindFull (hpage : o.page = fullPage) (hdelta : o.maxPagedelta = 2 ^ 32 - 1)
    (hcont : o.continued = false) : ∃ pos,
    (Ogg.feed table (feedFuel (o.load (packet [3] 30) true)) (o.load (packet [3] 30) true)).map
        (fun r => (r.1, r.2.1)) =
      some ([(oggPageWrite table fullPage pos OGG_FFIRST).1,
        (oggPageWrite table ⟨[1], [3], 7, 1⟩ 30 OGG_FLAST).1], true) := by
  obtain ⟨q, hq⟩ : ∃ q, q = o.load (packet [3] 30) true := ⟨_, rfl⟩
  have hpkt : q.pkt = [3] := by rw [hq]; rfl
  have hqpage : q.page = fullPage := by rw [hq]; exact hpage
  have hfin : q.fin = true := by rw [hq]; rfl
  have hqcont : q.continued = false := by rw [hq]; exact hcont
  have hqpos : q.pktEndpos = 30 := by rw [hq]; rfl
  have hlen : oggPktLen fullPage 1 = 0 := by decide +kernel
  have hsegs : (fullPage.segs != []) = true := by decide
  have hfirst : flushFirst q = true := by
    rw [flushFirst, hpkt, hqpage, hsegs, length_singleton, hlen]
    rfl
  obtain ⟨q', hq'⟩ : ∃ q' : OggCook, q' = { q with
      continued := false
      page := ⟨[], [], 7, 1⟩
      pageStartpos := q.pageEndpos
      pageEndpos := OGG_GPOS_UNDEF } := ⟨_, rfl⟩
  have hcall : ffoggWrite table q =
      some (.data (oggPageWrite table fullPage q.pageEndpos OGG_FFIRST).1, q') := by
    rw [ffoggWrite, hpkt, hfirst, if_neg (by decide), if_pos rfl, flushPage, hqpage, hqcont, hq']
    rfl
  have hpkt' : q'.pkt = [3] := by rw [hq']; exact hpkt
  have hpage' : q'.page = ⟨[], [], 7, 1⟩ := by rw [hq']
  have hfirst' : flushFirst q' = false := by
    rw [flushFirst, hpage']
    rfl
  have hwrite : oggPktWrite ⟨[], [], 7, 1⟩ [3] = some (⟨[1], [3], 7, 1⟩, 1) := by decide
  have hcall' := @ffoggWrite_whole table q' ⟨[1], [3], 7, 1⟩ 1 (by rw [hpkt']; decide) hfirst'
    (by rw [hpage', hpkt']; exact hwrite) (by rw [hpkt']; rfl)
  rw [if_pos (by rw [hq']; exact hfin)] at hcall'
  refine ⟨q.pageEndpos, ?_⟩
  rw [← hq, feedFuel, hpkt]
  rw [Ogg.feed, hcall]
  change ((Ogg.feed table (2 + 1) q').map _).map _ = _
  rw [Ogg.feed, hcall', flushPage, show q'.pktEndpos = 30 by rw [hq']; exact hqpos]
  have hcont' : q'.continued = false := by rw [hq']
  have hflags : ((OGG_FLAST ||| if 1 = 0 then OGG_FFIRST else 0) |||
      if false = true then OGG_FCONTINUED else 0) = OGG_FLAST := by decide
  dsimp only
  rw [hcont', hflags, if_pos (by decide)]
  rfl

/-- **The packet that fills the table is lost**: the next page does not go on with it. -/
theorem readPages_full (pos : ℕ) : ∃ rs r,
    readPages table .init [(oggPageWrite table fullPage pos OGG_FFIRST).1,
      (oggPageWrite table ⟨[1], [3], 7, 1⟩ 30 OGG_FLAST).1] = some (rs, r) ∧
    .warn .contpkt ∈ rs ∧ rs.flatMap OggR.packet = List.replicate 254 [1] ++ [[3]] := by
  have hpieces : Pieces fullPage.segs fullPage.body (List.replicate 254 [1])
      (List.replicate 255 2) := by
    refine ⟨by decide +kernel, by decide +kernel, ?_⟩
    rw [length_replicate]
  have hsync : Sync .init fullPage :=
    ⟨fun h => by simp [Ffogg.init] at h, .inl rfl, fun _ => rfl, by decide, by decide⟩
  obtain ⟨rs₁, r₁, hread₁, hpkts₁, -, hstop₁, -, hwaits₁, hsync₁⟩ :=
    @readPage_eq table .init fullPage pos OGG_FFIRST _ _ hsync hpieces (by decide +kernel)
      (by decide) (by decide)
  have hcont₁ : r₁.continued = true := by
    by_contra hno
    have hjoin : (joinPieces Ffogg.init.waits (List.replicate 254 [1])
        (List.replicate 255 (2 : UInt8))).2 = some (List.replicate 255 2) := rfl
    rw [Ffogg.waits, if_neg hno, hjoin] at hwaits₁
    cases hwaits₁
  have hflags : pageFlags (oggPageWrite table ⟨[1], [3], 7, 1⟩ 30 OGG_FLAST).1 = OGG_FLAST :=
    page_flags (by decide)
  have hlost := @readPage_contpkt table r₁ (oggPageWrite table ⟨[1], [3], 7, 1⟩ 30 OGG_FLAST).1
    hcont₁ (by rw [hflags]; decide)
  have hsync₂ : Sync { r₁ with continued := false, pktdata := [] } ⟨[1], [3], 7, 1⟩ :=
    ⟨hsync₁.serial, hsync₁.number, fun _ => rfl, by decide, by decide⟩
  obtain ⟨rs₂, r₂, hread₂, hpkts₂, -, hstop₂, -⟩ :=
    @readPage_eq table { r₁ with continued := false, pktdata := [] } ⟨[1], [3], 7, 1⟩ 30 OGG_FLAST
      [[3]] [] hsync₂ ⟨by decide, by decide, by decide⟩ (by decide) (by decide)
      (iff_of_false (by decide) Bool.false_ne_true)
  rw [hread₂, Option.map_some] at hlost
  refine ⟨rs₁ ++ .warn .contpkt :: rs₂, r₂, ?_, by simp, ?_⟩
  · have hgo : rs₁.any OggR.isStop = false := hstop₁.trans (by decide)
    have hend : (OggR.warn .contpkt :: rs₂).any OggR.isStop = true := by
      rw [any_cons, hstop₂]
      decide
    rw [readPages, hread₁]
    dsimp only
    rw [hgo, if_neg Bool.false_ne_true, readPages, hlost]
    dsimp only
    rw [hend, if_pos rfl]
    rfl
  · rw [flatMap_append, flatMap_cons, hpkts₁, hpkts₂]
    rfl

end FullTable

/-- The last packet but one fills the table of segments to the last byte, and is lost. -/
theorem ffoggRead_fullTable :
    ∃ reqs : List Req, (∀ q ∈ reqs, q.packet.bytes ≠ [] ∧ q.packet.endpos < 2 ^ 64) ∧
      ∃ pages rs r', writeStream crcEntry (ffoggCreate 7) reqs (packet [3] 30) = some pages ∧
        readPages crcEntry .init pages = some (rs, r') ∧ .warn .contpkt ∈ rs ∧
        rs.flatMap OggR.packet ≠ (packetsOf reqs (packet [3] 30)).map Packet.bytes := by
  obtain ⟨o, hones, hwrite⟩ := @Ones.writeStream crcEntry (ffoggCreate 7) 0 254 ⟨rfl, rfl, rfl⟩
    (by decide) [packet (List.replicate 255 2) 20] (packet [3] 30)
  obtain ⟨o', hpage, hdelta, hcont, hfeed⟩ := @Ones.feedFull crcEntry o hones
  obtain ⟨pos, hlast⟩ := @feed_behindFull crcEntry o' hpage hdelta hcont
  obtain ⟨rs, r', hread, hwarn, hpkts⟩ := @readPages_full crcEntry pos
  refine ⟨List.replicate 254 (packet [1] 10) ++ [packet (List.replicate 255 2) 20], ?_,
    [(oggPageWrite crcEntry fullPage pos OGG_FFIRST).1,
      (oggPageWrite crcEntry ⟨[1], [3], 7, 1⟩ 30 OGG_FLAST).1], rs, r', ?_, hread, hwarn, ?_⟩
  · intro q hq
    rcases mem_append.mp hq with hq | hq
    · rw [eq_of_mem_replicate hq]
      decide
    · rw [mem_singleton.mp hq]
      decide
  · obtain ⟨⟨pages, done, o''⟩, hfeed', hout⟩ := Option.map_eq_some_iff.mp hlast
    obtain ⟨rfl, rfl⟩ := Prod.mk.inj hout
    rw [hwrite, Ogg.writeStream, hfeed]
    dsimp only
    rw [Ogg.writeStream, hfeed']
    rfl
  rw [hpkts]
  intro heq
  have hlen := congrArg List.length heq
  have hone : (packet [3] 30).packet.bytes ≠ [] := cons_ne_nil _ _
  rw [packetsOf, if_neg hone, length_append, length_replicate, length_map,
    length_append, length_map, length_append, length_replicate] at hlen
  exact absurd hlen (by decide)

end Ogg

end FF
