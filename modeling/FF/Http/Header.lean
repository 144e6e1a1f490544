import FF.Http.Basic
import FF.Crc
import FF.Hashtab
import Mathlib.Data.Fintype.Basic
import Mathlib.Tactic.FinCases

/-!
# HTTP headers

`ffhttp_nexthdr` reads one header line; it may be called again when there is more data. The number
`idx` of its state is kept in a field that the parsers of the first line use too, each with its own
meaning of it. `ffhttp_parsehdr` adds the header to the list and looks at the headers that decide
how the body is framed.

The position in the data is below 64k, so that the `ushort` fields do not overflow.
-/

namespace FF

namespace Http

/-! ### Known headers -/

/-- `ffhttp_shdr` -/
def ffhttpShdr : List (List UInt8) :=
  [] :: [
    "Connection", "Keep-Alive", "Date", "Transfer-Encoding", "Via", "Cache-Control",
    "Content-Encoding", "Content-Length", "Content-Range", "Content-Type", "Host", "Referer",
    "User-Agent", "Accept", "Accept-Encoding", "TE", "If-Match", "If-Modified-Since",
    "If-None-Match", "If-Range", "If-Unmodified-Since", "Range", "Authorization", "Cookie",
    "Cookie2", "Proxy-Authorization", "Proxy-Connection", "Age", "Server", "Location", "ETag",
    "Expires", "Last-Modified", "Accept-Ranges", "Vary", "Proxy-Authenticate", "Set-Cookie",
    "Set-Cookie2", "WWW-Authenticate", "Upgrade", "X-Forwarded-For", "Status"
  ].map ascii

/-- `hdrHashes` -/
def hdrHashes : List UInt32 :=
  [
    0, 704082790, 3308361288, 2862495610, 1470906230, 565660880, 9184401, 3836410099, 314322716,
    1051632209, 3266185539, 3475444733, 1440495237, 2191772431, 3005279540, 2687938133,
    928136154, 1168849366, 1848278858, 1529156225, 2893522586, 462614015, 2475121225,
    2053999599, 2329983590, 3197016794, 146921266, 2570020322, 2704281778, 1517147638,
    1587448267, 3514087100, 2593941644, 4183802465, 2930364553, 315970471, 2775274866,
    1431457525, 3612863184, 1561078874, 3076944922, 2397052407, 2063623452
  ]

/-- `FFHTTP_CONNECTION` -/
def FFHTTP_CONNECTION : ℕ := 1

/-- `FFHTTP_TRANSFER_ENCODING` -/
def FFHTTP_TRANSFER_ENCODING : ℕ := 4

/-- `FFHTTP_CONTENT_ENCODING` -/
def FFHTTP_CONTENT_ENCODING : ℕ := 7

/-- `FFHTTP_CONTENT_LENGTH` -/
def FFHTTP_CONTENT_LENGTH : ℕ := 8

/-- `FFHTTP_HLAST` -/
def FFHTTP_HLAST : ℕ := 43

/-- `ht_knhdr_cmpkey` -/
def htKnhdrCmpkey (val : Option ℕ) (key : List UInt8) (_ : Unit) : ℤ :=
  if ffstrIeq (ffhttpShdr.getD (val.getD 0) []) key then 0 else -1

/-- What `ffhttp_initheaders` puts into the table. -/
def knownHdrs : List (UInt32 × Option ℕ) :=
  ((List.range FFHTTP_HLAST).drop 1).map fun i => (hdrHashes.getD i 0, some i)

/-- The number of the header that a search in `ht_known_hdrs` gives, `FFHTTP_HUKN` for `NULL`. -/
def knownHdr (crc : UInt32) (name : List UInt8) : ℕ :=
  ((knownHdrs.find? (hstMatches htKnhdrCmpkey crc name ())).bind Prod.snd).getD 0

/-- **A search in the table of known headers** ends, and gives that number. -/
theorem ffhttpInitheaders_find {alignPower2 : ℕ → ℕ}
    (halign : ∀ n, ∃ k, k < 64 ∧ alignPower2 n = 2 ^ k) (h64 : alignPower2 44 = 64) :
    ∃ ht₀ ht, ffhstInit alignPower2 (fun _ => true) htKnhdrCmpkey FFHTTP_HLAST = some ht₀ ∧
      run (hstStep 64) (ht₀, []) knownHdrs = some (ht, knownHdrs) ∧
      ∀ crc name, ∃ m v, (∀ n, m ≤ n → ffhstFind n ht crc name () = some v) ∧
        v.getD 0 = knownHdr crc name := by
  have hn : (FFHTTP_HLAST / 1 + 1) % SIZE_BOUND = 44 := by decide
  have hslots : ¬ 64 * 75 % SIZE_BOUND / 100 < 44 := by decide
  obtain ⟨ht₀, hinit⟩ : ∃ ht₀, ffhstInit alignPower2 (fun _ => true) htKnhdrCmpkey FFHTTP_HLAST =
      some ht₀ := by simp [ffhstInit]
  have hht₀ : ht₀.nslots = 64 ∧ ht₀.cmpkey = htKnhdrCmpkey := by
    simp only [ffhstInit, hn, h64, if_neg hslots, if_true, Option.some.injEq] at hinit
    rw [← hinit]
    exact ⟨rfl, rfl⟩
  obtain ⟨ht, hrun, hrep, hns, hcmp⟩ := @run_hstStep_room _ _ _ 64 [] knownHdrs ht₀
    (by rw [hht₀.1]) (ffhstInit_rep halign hinit) (by rw [hht₀.1]; decide)
  refine ⟨ht₀, ht, hinit, hrun, fun crc name => ?_⟩
  have hroom : knownHdrs.length < ht.nslots := by
    rw [hns, hht₀.1]
    decide
  have hval : ∀ e ∈ knownHdrs, e.2 ≠ none := by
    intro e he
    obtain ⟨i, -, rfl⟩ := List.mem_map.mp he
    simp
  obtain ⟨m, v, hfind, hv, -⟩ :=
    (@Ffhstab.Rep.findsEarliest_iff _ _ _ ht _ hrep crc name ()).mpr
      ⟨.inl hroom, fun e he => hval e (List.mem_of_find?_eq_some he)⟩
  refine ⟨m, v, hfind, ?_⟩
  rw [hv, hcmp, hht₀.2]
  rfl

/-! ### A header line -/

/-- The states of `ffhttp_nexthdr`; in another one it does nothing with a byte. -/
inductive HdrIdx
  | key
  | keyData
  | spaceBeforeVal
  | val
  | spaceAfterVal
  | lastLf
  | other (n : ℕ)
  deriving DecidableEq, Repr

/-- The value of the field `idx`. -/
def HdrIdx.toNat : HdrIdx → ℕ
  | .key => 0
  | .keyData => 1
  | .spaceBeforeVal => 2
  | .val => 3
  | .spaceAfterVal => 4
  | .lastLf => 5
  | .other n => n

/-- The state that a value of `idx` stands for. -/
def HdrIdx.ofNat : ℕ → HdrIdx
  | 0 => .key
  | 1 => .keyData
  | 2 => .spaceBeforeVal
  | 3 => .val
  | 4 => .spaceAfterVal
  | 5 => .lastLf
  | n => .other n

/-- `ffrange` -/
structure Ffrange where
  len : ℕ
  off : ℕ
  deriving DecidableEq, Repr

/-- `ffrang_get` -/
def ffrangGet (r : Ffrange) (base : List UInt8) : List UInt8 := (base.drop r.off).take r.len

/-- `ffhttp_hdr` -/
structure FfhttpHdr where
  len : ℕ
  idx : ℕ
  ihdr : ℕ
  crc : UInt32
  key : Ffrange
  val : Ffrange
  deriving DecidableEq, Repr

/-- `ffhttp_inithdr` -/
def ffhttpInithdr : FfhttpHdr := ⟨0, 0, 0, ffcrc32Start, ⟨0, 0⟩, ⟨0, 0⟩⟩

/-- What a byte does: go on, fail with a code, or end the line. -/
inductive HdrStep
  | next (idx : HdrIdx) (h : FfhttpHdr)
  | fail (idx : HdrIdx) (h : FfhttpHdr) (er : FfhttpE)
  | done (h : FfhttpHdr)
  deriving DecidableEq, Repr

/-- `case iKeyData` -/
def caseKeyData (h : FfhttpHdr) (i : ℕ) (ch : UInt8) : HdrStep :=
  if ch = 0x3a then .next .spaceBeforeVal { h with key := { h.key with len := i - h.key.off } }
  else if ch = CR ∨ ch = LF then .fail .keyData h .enoval
  else if !(ffcharIsname ch || ch == 0x2d) then .fail .keyData h .ehdrkey
  else .next .keyData { h with crc := ffcrc32Iupdate h.crc ch }

/-- `case iKey` -/
def caseHdrKey (h : FfhttpHdr) (i : ℕ) (ch : UInt8) : HdrStep :=
  let h := { h with crc := ffcrc32Start, key := { h.key with off := i } }
  if ch = CR then .next .lastLf { h with key := { h.key with len := 0 } }
  else if ch = LF then .done { h with key := { h.key with len := 0 } }
  else if !ffcharIsname ch then .fail .key h .ehdrkey
  else caseKeyData h i ch

/-- `case iVal` -/
def caseHdrVal (h : FfhttpHdr) (i : ℕ) (ch : UInt8) : HdrStep :=
  let h' := { h with val := { h.val with len := i - h.val.off } }
  if ch = 0x20 then .next .spaceAfterVal h'
  else if ch = CR then .next .lastLf h'
  else if ch = LF then .done h'
  else .next .val h

/-- `case iSpaceBeforeVal` -/
def caseSpaceBeforeVal (h : FfhttpHdr) (i : ℕ) (ch : UInt8) : HdrStep :=
  if ch = 0x20 then .next .spaceBeforeVal h
  else caseHdrVal { h with val := { h.val with off := i } } i ch

/-- `case iSpaceAfterVal` -/
def caseSpaceAfterVal (h : FfhttpHdr) (i : ℕ) (ch : UInt8) : HdrStep :=
  if ch = 0x20 then .next .spaceAfterVal h
  else if ch = CR then .next .lastLf h
  else if ch = LF then .done h
  else .next .val { h with val := { h.val with len := i } }

/-- The `switch` of `ffhttp_nexthdr`, at the byte with the index `i`. -/
def hdrSwitch (idx : HdrIdx) (h : FfhttpHdr) (i : ℕ) (ch : UInt8) : HdrStep :=
  match idx with
  | .key => caseHdrKey h i ch
  | .keyData => caseKeyData h i ch
  | .spaceBeforeVal => caseSpaceBeforeVal h i ch
  | .val => caseHdrVal h i ch
  | .spaceAfterVal => caseSpaceAfterVal h i ch
  | .lastLf => if ch ≠ LF then .fail .lastLf h .eeol else .done h
  | .other n => .next (.other n) h

/-- The end of `ffhttp_nexthdr` behind `done`, with the line feed at `i`. -/
def hdrDone (h : FfhttpHdr) (i : ℕ) (d : List UInt8) : FfhttpHdr × FfhttpE :=
  let h := { h with crc := ffcrc32Finish h.crc, idx := 0, len := i + 1 }
  if h.key.len = 0 then (h, .done)
  else ({ h with ihdr := knownHdr h.crc (ffrangGet h.key d) }, .ok)

/-- The loop of `ffhttp_nexthdr` over the rest of the data `d`, from the index `i` on. -/
def nexthdrLoop (d : List UInt8) : HdrIdx → FfhttpHdr → ℕ → List UInt8 → FfhttpHdr × FfhttpE
  | idx, h, i, [] =>
    ({ h with idx := idx.toNat, len := i }, if i = 0xffff then .etoolarge else .more)
  | idx, h, i, ch :: cs =>
    match hdrSwitch idx h i ch with
    | .next idx h => nexthdrLoop d idx h (i + 1) cs
    | .fail idx h er => ({ h with idx := idx.toNat, len := i }, er)
    | .done h => hdrDone h i d

/-- `ffhttp_nexthdr` -/
def ffhttpNexthdr (h : FfhttpHdr) (d : List UInt8) : FfhttpHdr × FfhttpE :=
  nexthdrLoop d (.ofNat h.idx) h h.len ((d.take 0xffff).drop h.len)

/-! ### The headers of a message -/

/-- `_ffhttp_headr` -/
structure FfhttpHeadr where
  hash : UInt32
  key : Ffrange
  val : Ffrange
  deriving DecidableEq, Repr

/-- `ffhttp_headers`; the pointer `base` is left out, for all offsets are into the data of the last
call, and so is the hash table that is made of `hidx` in the end. -/
structure FfhttpHeaders where
  len : ℕ
  ver : ℕ
  firstlineLen : ℕ
  http11 : Bool
  firstcrlf : ℕ
  connClose : Bool
  hasBody : Bool
  chunked : Bool
  bodyConnClose : Bool
  indexHeaders : Bool
  ceGzip : Bool
  ceIdentity : Bool
  contLen : ℤ
  hidx : List FfhttpHeadr
  hdr : FfhttpHdr
  deriving DecidableEq, Repr

/-- `ffhttp_init` -/
def ffhttpInit : FfhttpHeaders where
  len := 0
  ver := 0
  firstlineLen := 0
  http11 := false
  firstcrlf := 0
  connClose := false
  hasBody := false
  chunked := false
  bodyConnClose := false
  indexHeaders := true
  ceGzip := false
  ceIdentity := true
  contLen := -1
  hidx := []
  hdr := ffhttpInithdr

/-- `case FFHTTP_CONNECTION`: the loop over the values. -/
def connectionLoop : ℕ → FfhttpHeaders → List UInt8 → FfhttpHeaders
  | 0, h, _ => h
  | n + 1, h, val =>
    if val = [] then h
    else
      let (shift, v) := ffstrNextval val 0x2c
      if h.http11 then
        if ffstrIeq v (ascii "close") then { h with connClose := true }
        else connectionLoop n h (val.drop shift)
      else if ffstrIeq v (ascii "keep-alive") then { h with connClose := false }
      else connectionLoop n h (val.drop shift)

/-- `case FFHTTP_CONTENT_LENGTH` -/
def caseContentLength (h : FfhttpHeaders) (val : List UInt8) : FfhttpHeaders × FfhttpE :=
  if h.contLen ≠ -1 then (h, .eduphdr)
  else if !h.hasBody then
    let (n, h) :=
      match ffsToint val ⟨8, false, false, false⟩ with
      | some (n, r) => (n, { h with contLen := int64 r })
      | none => (0, h)
    if val.length ≠ n then (h, .ehdrval)
    else if h.contLen ≠ 0 then ({ h with hasBody := true }, .ok)
    else (h, .ok)
  else (h, .ok)

/-- `case FFHTTP_CONTENT_ENCODING` -/
def caseContentEncoding (h : FfhttpHeaders) (val : List UInt8) : FfhttpHeaders :=
  let gzip := ffstrIeq val (ascii "gzip")
  { h with ceGzip := gzip, ceIdentity := !gzip && ffstrIeq val (ascii "identity") }

/-- `case FFHTTP_TRANSFER_ENCODING` -/
def caseTransferEncoding (h : FfhttpHeaders) (val : List UInt8) : FfhttpHeaders :=
  { h with
    chunked := h.chunked || ffstrImatch val (ascii "chunked")
    hasBody := true
    contLen := -1 }

/-- The `switch` of `ffhttp_parsehdr`. -/
def headerSwitch (h : FfhttpHeaders) (ihdr : ℕ) (val : List UInt8) : FfhttpHeaders × FfhttpE :=
  if ihdr = FFHTTP_CONNECTION then (connectionLoop val.length h val, .ok)
  else if ihdr = FFHTTP_CONTENT_LENGTH then caseContentLength h val
  else if ihdr = FFHTTP_CONTENT_ENCODING then (caseContentEncoding h val, .ok)
  else if ihdr = FFHTTP_TRANSFER_ENCODING then (caseTransferEncoding h val, .ok)
  else (h, .ok)

/-- Whether there is memory: for a list of headers of that length, and for the hash table. -/
structure HttpMem where
  realloc : ℕ → Bool
  calloc : ℕ → Bool

/-- `ffhttp_parsehdr` -/
def ffhttpParsehdr (mem : HttpMem) (h : FfhttpHeaders) (data : List UInt8) :
    FfhttpHeaders × FfhttpE :=
  let (hdr, e) := ffhttpNexthdr h.hdr data
  let h := { h with hdr := hdr, len := hdr.len }
  match e with
  | .done => (h, if h.hidx ≠ [] ∧ !mem.calloc h.hidx.length then .esys else .done)
  | .ok =>
    if h.indexHeaders ∧ !mem.realloc (h.hidx.length + 1) then (h, .esys)
    else
      let h :=
        if h.indexHeaders then { h with hidx := h.hidx ++ [⟨hdr.crc, hdr.key, hdr.val⟩] } else h
      headerSwitch h hdr.ihdr (ffrangGet hdr.val data)
  | e => (h, e)

/-! ### Names -/

theorem knownHdr_shdr : ∀ i : Fin 43,
    knownHdr (ffcrc32Iget (ffhttpShdr.getD i.val [])) (ffhttpShdr.getD i.val []) = i.val := by
  intro i
  fin_cases i <;> decide +kernel

theorem ffstrIeq_congr {p q : List UInt8} (h : ffstrIeq p q = true) (s : List UInt8) :
    ffstrIeq s q = ffstrIeq s p := by
  have hmap : p.map lowerUp = q.map lowerUp := by simpa [ffstrIeq] using h
  simp only [ffstrIeq, hmap]

/-- **A header is known by its name**, without regard to case. -/
theorem knownHdr_eq {name : List UInt8} {i : ℕ} (hi : i < FFHTTP_HLAST)
    (hname : ffstrIeq (ffhttpShdr.getD i []) name = true) :
    knownHdr (ffcrc32Iget name) name = i := by
  have hmatch : hstMatches htKnhdrCmpkey (ffcrc32Iget name) name () =
      hstMatches htKnhdrCmpkey (ffcrc32Iget (ffhttpShdr.getD i [])) (ffhttpShdr.getD i []) () := by
    funext e
    rw [hstMatches, hstMatches, htKnhdrCmpkey, htKnhdrCmpkey, ffcrc32Iget_congr hname,
      ffstrIeq_congr hname]
  rw [knownHdr, hmatch]
  exact knownHdr_shdr ⟨i, hi⟩

theorem ffstrIeq_of_knownHdr {crc : UInt32} {name : List UInt8} {i : ℕ} (hi : i ≠ 0)
    (h : knownHdr crc name = i) : ffstrIeq (ffhttpShdr.getD i []) name = true := by
  unfold knownHdr at h
  cases hfind : knownHdrs.find? (hstMatches htKnhdrCmpkey crc name ()) with
  | none =>
    rw [hfind] at h
    exact absurd h.symm hi
  | some e =>
    have hmatch := List.find?_some hfind
    obtain ⟨j, -, rfl⟩ := List.mem_map.mp (List.mem_of_find?_eq_some hfind)
    rw [hfind] at h
    obtain rfl : j = i := h
    by_contra hne
    simp only [hstMatches, htKnhdrCmpkey, Option.getD_some, if_neg hne] at hmatch
    simp at hmatch

/-- **The table that `ffhttp_initheaders` builds** finds for every name the number of the known
header that it is, without regard to case, and no number for another name. -/
theorem ffhttpInitheaders_known {alignPower2 : ℕ → ℕ}
    (halign : ∀ n, ∃ k, k < 64 ∧ alignPower2 n = 2 ^ k) (h64 : alignPower2 44 = 64) :
    ∃ ht₀ ht, ffhstInit alignPower2 (fun _ => true) htKnhdrCmpkey FFHTTP_HLAST = some ht₀ ∧
      run (hstStep 64) (ht₀, []) knownHdrs = some (ht, knownHdrs) ∧
      ∀ name, ∃ m v, (∀ n, m ≤ n → ffhstFind n ht (ffcrc32Iget name) name () = some v) ∧
        ∀ i, 0 < i → i < FFHTTP_HLAST →
          (v.getD 0 = i ↔ ffstrIeq (ffhttpShdr.getD i []) name = true) := by
  obtain ⟨ht₀, ht, hinit, hrun, hfind⟩ := ffhttpInitheaders_find halign h64
  refine ⟨ht₀, ht, hinit, hrun, fun name => ?_⟩
  obtain ⟨m, v, hcall, hv⟩ := hfind (ffcrc32Iget name) name
  refine ⟨m, v, hcall, fun i hpos hi => ?_⟩
  rw [hv]
  exact ⟨ffstrIeq_of_knownHdr hpos.ne', knownHdr_eq hi⟩

theorem ffhttpInitheaders_host :
    ∃ ht₀ ht, ffhstInit alignPower2 (fun _ => true) htKnhdrCmpkey FFHTTP_HLAST = some ht₀ ∧
      run (hstStep 64) (ht₀, []) knownHdrs = some (ht, knownHdrs) ∧
      ∃ m v, (∀ n, m ≤ n →
        ffhstFind n ht (ffcrc32Iget (ascii "hOST")) (ascii "hOST") () = some v) ∧
          v.getD 0 = 11 := by
  obtain ⟨ht₀, ht, hinit, hrun, hfind⟩ := ffhttpInitheaders_known alignPower2_pow (by decide)
  obtain ⟨m, v, hcall, hv⟩ := hfind (ascii "hOST")
  exact ⟨ht₀, ht, hinit, hrun, m, v, hcall, (hv 11 (by decide) (by decide)).mpr (by decide)⟩

end Http

end FF
