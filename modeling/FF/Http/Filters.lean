import FF.Http.Chunked
import FF.Http.FindHdr

/-!
# Filters of a body

The filters of `FF/net/http.h` deliver the body of a message from what follows the headers. Which of
them is opened is decided by the headers: by chunks, by a content length, or up to the end of the
connection. The headers of a message never open two of them (`OneFraming`).
-/

namespace FF

namespace Http

open List Option

/-! ### Program -/

/-- A filter with its data. -/
inductive HttpFilter
  | chunked (c : FfhttpChunked)
  | contlen (len : ℕ)
  | connclose
  deriving DecidableEq, Repr

/-- `http_chunked_open`: nothing where the filter is skipped, `some none` where there is no
memory. -/
def httpChunkedOpen (mem : Bool) (h : FfhttpHeaders) : Option (Option HttpFilter) :=
  if h.chunked then
    some (if mem then some (.chunked (ffhttpChunkinit ⟨0, .start, false⟩)) else none)
  else none

/-- `http_contlen_open`; the length is stored as `uint64`. -/
def httpContlenOpen (mem : Bool) (h : FfhttpHeaders) : Option (Option HttpFilter) :=
  if h.contLen = -1 then none
  else some (if mem then some (.contlen (h.contLen % 2 ^ 64).toNat) else none)

/-- `http_connclose_open` -/
def httpConncloseOpen (h : FfhttpHeaders) : Option (Option HttpFilter) :=
  if h.bodyConnClose then some (some .connclose) else none

/-- What `process` returns: the filter, the code, the rest of `in`, and `out`. -/
abbrev FilterRes := HttpFilter × FfhttpE × List UInt8 × List UInt8

/-- `http_chunked_process`; there is no input where the connection is closed. -/
def httpChunkedProcess (c : FfhttpChunked) : Option (List UInt8) → FilterRes
  | none => (.chunked c, .echunkedFin, [], [])
  | some inp =>
    match ffhttpChunkparse c inp with
    | (c, .ok, rest, out) => (.chunked c, .ok, rest, out)
    | (c, .done, rest, _) => (.chunked c, .done, rest, [])
    | (c, .more, rest, _) => (.chunked c, .ok, rest, [])
    | (c, _, rest, _) => (.chunked c, .echunked, rest, [])

/-- `http_contlen_process` -/
def httpContlenProcess (len : ℕ) : Option (List UInt8) → FilterRes
  | none => (.contlen len, .econtlenFin, [], [])
  | some inp =>
    let n := min inp.length len
    (.contlen (len - n), if len - n = 0 then .done else .ok, inp.drop n, inp.take n)

/-- `http_connclose_process` -/
def httpConncloseProcess : Option (List UInt8) → FilterRes
  | none => (.connclose, .done, [], [])
  | some inp => (.connclose, .ok, [], inp)

/-- `process` of the filter -/
def HttpFilter.process : HttpFilter → Option (List UInt8) → FilterRes
  | .chunked c => httpChunkedProcess c
  | .contlen len => httpContlenProcess len
  | .connclose => httpConncloseProcess

/-- The caller: the fragments one after another as long as there is input, then the end of the
connection. The data, the last code, and what is not consumed. -/
@[grind =] def filterFeed : ℕ → HttpFilter → List (List UInt8) →
    Option (List UInt8 × FfhttpE × List (List UInt8))
  | 0, _, _ => none
  | _ + 1, f, [] => some ((f.process none).2.2.2, (f.process none).2.1, [])
  | n + 1, f, [] :: ds => filterFeed n f ds
  | n + 1, f, (b :: d) :: ds =>
    match f.process (some (b :: d)) with
    | (f, .ok, rest, out) => (filterFeed n f (rest :: ds)).map fun r => (out ++ r.1, r.2)
    | (_, r, rest, out) => some (out, r, rest :: ds)

/-! ### Streams -/

/-- The stream after these headers, for which this filter is opened: the body as the sender frames
it, and what follows. -/
inductive Delivers (h : FfhttpHeaders) : HttpFilter → List UInt8 → List UInt8 → List UInt8 → Prop
  | chunked {f : HttpFilter} {ds : List (List UInt8)} {bs : List UInt8}
      (hopen : httpChunkedOpen true h = some (some f)) (hbs : Framed ds bs) (rest : List UInt8) :
      Delivers h f (bs ++ rest) ds.flatten rest
  | contlen {f : HttpFilter} {body : List UInt8}
      (hopen : httpContlenOpen true h = some (some f)) (hlen : h.contLen = body.length)
      (hbody : body ≠ []) (hmax : body.length < 2 ^ 63) (rest : List UInt8) :
      Delivers h f (body ++ rest) body rest
  | connclose {f : HttpFilter} (hopen : httpConncloseOpen h = some (some f)) (body : List UInt8) :
      Delivers h f body body []

/-- A run of a filter, with enough fuel. -/
def FilterRun (f : HttpFilter) (ds : List (List UInt8)) (out : List UInt8) (r : FfhttpE)
    (rs : List (List UInt8)) : Prop :=
  ∃ m, ∀ n, m ≤ n → filterFeed n f ds = some (out, r, rs)

section Runs

variable {f f' : HttpFilter} {ds rs : List (List UInt8)} {out out' rest : List UInt8} {r : FfhttpE}

theorem FilterRun.empty (h : FilterRun f ds out r rs) : FilterRun f ([] :: ds) out r rs := by
  obtain ⟨m, hm⟩ := h
  refine ⟨m + 1, fun n hn => ?_⟩
  obtain ⟨n, rfl⟩ : ∃ k, n = k + 1 := ⟨n - 1, by omega⟩
  exact hm n (by omega)

theorem FilterRun.ok {b : UInt8} {d : List UInt8}
    (hcall : f.process (some (b :: d)) = (f', .ok, rest, out))
    (h : FilterRun f' (rest :: ds) out' r rs) :
    FilterRun f ((b :: d) :: ds) (out ++ out') r rs := by
  obtain ⟨m, hm⟩ := h
  refine ⟨m + 1, fun n hn => ?_⟩
  obtain ⟨n, rfl⟩ : ∃ k, n = k + 1 := ⟨n - 1, by omega⟩
  simp only [filterFeed, hcall, hm n (by omega), map_some]

theorem FilterRun.fin {b : UInt8} {d : List UInt8} (hr : r ≠ .ok)
    (hcall : f.process (some (b :: d)) = (f', r, rest, out)) :
    FilterRun f ((b :: d) :: ds) out r (rest :: ds) := by
  refine ⟨1, fun n hn => ?_⟩
  obtain ⟨n, rfl⟩ : ∃ k, n = k + 1 := ⟨n - 1, by omega⟩
  cases r <;> first | exact absurd rfl hr | simp only [filterFeed, hcall]

theorem FilterRun.close (f : HttpFilter) :
    FilterRun f [] (f.process none).2.2.2 (f.process none).2.1 [] := by
  refine ⟨1, fun n hn => ?_⟩
  obtain ⟨n, rfl⟩ : ∃ k, n = k + 1 := ⟨n - 1, by omega⟩
  rfl

end Runs

/-! ### Headers -/

/-- No body has two framings, while the headers are parsed. -/
structure OneFraming (h : FfhttpHeaders) : Prop where
  chunked : h.chunked = true → h.hasBody = true ∧ h.contLen = -1
  bodyConnClose : h.bodyConnClose = false

section Headers

variable {mem : HttpMem} {h h' h₀ : FfhttpHeaders} {d : List UInt8}

theorem OneFraming.connectionLoop (hone : OneFraming h) (n : ℕ) (val : List UInt8) :
    OneFraming (connectionLoop n h val) := by
  induction n generalizing val with
  | zero => exact hone
  | succ n ih =>
    rw [Http.connectionLoop]
    dsimp only
    split_ifs
    · exact hone
    · exact ⟨hone.chunked, hone.bodyConnClose⟩
    · exact ih _
    · exact ⟨hone.chunked, hone.bodyConnClose⟩
    · exact ih _

theorem OneFraming.contentLength (hone : OneFraming h) (val : List UInt8) :
    OneFraming (caseContentLength h val).1 := by
  rw [caseContentLength]
  split_ifs with hset hbody
  · exact hone
  · -- there is no body yet, so that the message is not chunked
    have hno : h.chunked ≠ true := fun hc => by simp [(hone.chunked hc).1] at hbody
    cases ffsToint val ⟨8, false, false, false⟩ <;> dsimp only <;> split_ifs <;>
      exact ⟨fun hc => absurd hc hno, hone.bodyConnClose⟩
  · exact hone

theorem OneFraming.headerSwitch (hone : OneFraming h) (ihdr : ℕ) (val : List UInt8) :
    OneFraming (headerSwitch h ihdr val).1 := by
  rw [Http.headerSwitch]
  split_ifs
  · exact hone.connectionLoop _ _
  · exact hone.contentLength val
  · exact ⟨hone.chunked, hone.bodyConnClose⟩
  · exact ⟨fun _ => ⟨rfl, rfl⟩, hone.bodyConnClose⟩
  · exact hone

end Headers

end Http

end FF
