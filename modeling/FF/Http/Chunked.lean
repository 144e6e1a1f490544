import FF.Http.Basic

/-!
# Chunked encoding

`ffhttp_chunkparse` goes through the bytes of a fragment (`chunkLoop`); where it meets data, it
returns as much of the chunk as the fragment has. What the input means is given by a run that
returns one byte of data at a time and does not stop (`chnkRun`).
-/

namespace FF

namespace Http

open List

/-! ### The parser -/

/-- The states of `ffhttp_chunkparse`. -/
inductive ChnkIdx
  | start
  | size
  | ext
  | beforeDataLf
  | data
  | afterData
  | afterDataLf
  | trlStart
  | trlLf
  | trlHdr
  | trlHdrLf
  deriving DecidableEq, Repr

/-- `ffhttp_chunked` -/
structure FfhttpChunked where
  cursiz : ℕ
  state : ChnkIdx
  last : Bool
  deriving DecidableEq, Repr

/-- `ffhttp_chunkinit`: the other fields keep what they had. -/
def ffhttpChunkinit (c : FfhttpChunked) : FfhttpChunked := { c with state := .start }

/-- `chnk_size` -/
def chnkSize (c : FfhttpChunked) (ch : UInt8) : FfhttpChunked × FfhttpE :=
  match ffcharTohex ch with
  | some bb =>
    if c.cursiz.testBit 63 then (c, .etoolarge)
    else ({ c with cursiz := (c.cursiz * 16 + bb) % 2 ^ 64 }, .more)
  | none => ({ c with last := c.cursiz == 0 || c.last }, .ok)

/-- What the `switch` does: go on, return the code `r`, with the byte consumed or not, or return
data. -/
inductive ChnkRes
  | next (c : FfhttpChunked)
  | fin (c : FfhttpChunked) (r : FfhttpE) (consumed : Bool)
  | data
  deriving DecidableEq, Repr

/-- `case iSize` -/
def caseSize (c : FfhttpChunked) (ch : UInt8) : ChnkRes :=
  match chnkSize c ch with
  | (c, .more) => .next c
  | (c, .ok) =>
    if ch = CR then .next { c with state := .beforeDataLf }
    else if ch = LF then .next { c with state := .data }
    else if ch = 0x3b ∨ ch = 0x20 ∨ ch = 0x09 then .next { c with state := .ext }
    else .fin c .ehdrval false
  | (c, r) => .fin c r false

/-- A state in which a line feed has to follow. -/
def expectLf (c : FfhttpChunked) (ch : UInt8) (st : ChnkIdx) : ChnkRes :=
  if ch = LF then .next { c with state := st } else .fin c .eeol false

/-- `case iAfterData` -/
def caseAfterData (c : FfhttpChunked) (ch : UInt8) : ChnkRes :=
  if ch = CR then .next { c with state := .afterDataLf } else expectLf c ch .start

/-- `case iTrlStart` -/
def caseTrlStart (c : FfhttpChunked) (ch : UInt8) : ChnkRes :=
  if ch = CR then .next { c with state := .trlLf }
  else if ch = LF then .fin c .done true
  else .next { c with state := .trlHdr }

/-- The `switch` of `ffhttp_chunkparse`. -/
def chnkSwitch (c : FfhttpChunked) (ch : UInt8) : ChnkRes :=
  match c.state with
  | .start =>
    match ffcharTohex ch with
    | none => .fin c .ehdrval false
    | some t => .next { cursiz := t, state := .size, last := false }
  | .size => caseSize c ch
  | .ext =>
    if ch = CR then .next { c with state := .beforeDataLf }
    else if ch = LF then .next { c with state := .data }
    else .next c
  | .beforeDataLf => expectLf c ch .data
  | .data =>
    -- the byte is processed again in the state `iTrlStart`
    if c.last then caseTrlStart { c with state := .trlStart } ch
    else if c.cursiz ≠ 0 then .data
    else caseAfterData c ch
  | .afterData => caseAfterData c ch
  | .afterDataLf => expectLf c ch .start
  | .trlStart => caseTrlStart c ch
  | .trlLf => if ch = LF then .fin c .done true else .fin c .eeol false
  | .trlHdr =>
    if ch = CR then .next { c with state := .trlHdrLf }
    else if ch = LF then .next { c with state := .trlStart }
    else .next c
  | .trlHdrLf => expectLf c ch .trlStart

/-- The loop of `ffhttp_chunkparse`: the code, the rest of the input, and `dst`. -/
@[grind =] def chunkLoop : FfhttpChunked → List UInt8 → FfhttpChunked × FfhttpE × List UInt8 × List UInt8
  | c, [] => (c, .more, [], [])
  | c, ch :: cs =>
    match chnkSwitch c ch with
    | .next c => chunkLoop c cs
    | .fin c r consumed => (c, r, if consumed then cs else ch :: cs, [])
    | .data =>
      let sz := min c.cursiz (ch :: cs).length
      ({ c with cursiz := c.cursiz - sz }, .ok, (ch :: cs).drop sz, (ch :: cs).take sz)

/-- `ffhttp_chunkparse` -/
def ffhttpChunkparse (c : FfhttpChunked) (body : List UInt8) :
    FfhttpChunked × FfhttpE × List UInt8 × List UInt8 := chunkLoop c body

/-- The caller: the fragments one after another, until the parser reports the end or an error. The
data, the last code, and what is not consumed. -/
@[grind =] def chunkFeed : ℕ → FfhttpChunked → List (List UInt8) →
    Option (List UInt8 × FfhttpE × List (List UInt8))
  | 0, _, _ => none
  | _ + 1, _, [] => some ([], .more, [])
  | n + 1, c, d :: ds =>
    match ffhttpChunkparse c d with
    | (c, .ok, rest, dst) => (chunkFeed n c (rest :: ds)).map fun r => (dst ++ r.1, r.2)
    | (c, .more, _, _) => chunkFeed n c ds
    | (_, r, rest, _) => some ([], r, rest :: ds)

/-! ### The writer -/

/-- `enum FFHTTP_CHUNKED` -/
inductive ChunkFin
  | fin
  | zero
  | last
  deriving DecidableEq, Repr

/-- `ffhttp_chunkfin`: the strings of `sChnkEnd`. -/
def ffhttpChunkfin : ChunkFin → List UInt8
  | .fin => [CR, LF]
  | .zero => [0x30, CR, LF, CR, LF]
  | .last => [CR, LF, 0x30, CR, LF, CR, LF]

/-- `ffhttp_chunkbegin`: what is written to a buffer of `cap` bytes, nothing where 0 is returned. -/
def ffhttpChunkbegin (cap chunkLen : ℕ) : List UInt8 :=
  let digits := ffsFromintHexlow chunkLen cap
  if cap - digits.length < 2 then [] else digits ++ [CR, LF]

/-- The pieces of a body and the bytes that frame them. Each call of `ffhttp_chunkbegin` has a
buffer that is large enough. -/
inductive Framed : List (List UInt8) → List UInt8 → Prop
  | zero : Framed [] (ffhttpChunkfin .zero)
  | last {cap : ℕ} {d : List UInt8} (hd : d ≠ []) (hlen : d.length < 2 ^ 64)
      (hbegin : ffhttpChunkbegin cap d.length ≠ []) :
      Framed [d] (ffhttpChunkbegin cap d.length ++ (d ++ ffhttpChunkfin .last))
  | cons {cap : ℕ} {d bs : List UInt8} {ds : List (List UInt8)} (hd : d ≠ [])
      (hlen : d.length < 2 ^ 64) (hbegin : ffhttpChunkbegin cap d.length ≠ [])
      (h : Framed ds bs) :
      Framed (d :: ds) (ffhttpChunkbegin cap d.length ++ (d ++ (ffhttpChunkfin .fin ++ bs)))

/-! ### The run on the whole input -/

/-- The run of the parser on the whole input: the state, the code, what is not consumed, and the
data. -/
@[grind =] def chnkRun : FfhttpChunked → List UInt8 → FfhttpChunked × FfhttpE × List UInt8 × List UInt8
  | c, [] => (c, .more, [], [])
  | c, ch :: cs =>
    match chnkSwitch c ch with
    | .next c => chnkRun c cs
    | .fin c r consumed => (c, r, if consumed then cs else ch :: cs, [])
    | .data =>
      let (c, r, rest, out) := chnkRun { c with cursiz := c.cursiz - 1 } cs
      (c, r, rest, ch :: out)

/-- More data in front. -/
def prepend (dst : List UInt8) (r : FfhttpChunked × FfhttpE × List UInt8 × List UInt8) :
    FfhttpChunked × FfhttpE × List UInt8 × List UInt8 := (r.1, r.2.1, r.2.2.1, dst ++ r.2.2.2)

@[simp] theorem prepend_nil (r : FfhttpChunked × FfhttpE × List UInt8 × List UInt8) :
    prepend [] r = r := rfl

theorem prepend_prepend (d d' : List UInt8)
    (r : FfhttpChunked × FfhttpE × List UInt8 × List UInt8) :
    prepend d (prepend d' r) = prepend (d ++ d') r := by
  simp [prepend]

variable {c c' : FfhttpChunked} {ch : UInt8} {cs d rest out : List UInt8} {r : FfhttpE}

theorem chnkRun_next (h : chnkSwitch c ch = .next c') : chnkRun c (ch :: cs) = chnkRun c' cs := by
  simp only [chnkRun, h]

theorem chnkRun_fin {consumed : Bool} (h : chnkSwitch c ch = .fin c' r consumed) :
    chnkRun c (ch :: cs) = (c', r, if consumed then cs else ch :: cs, []) := by
  simp only [chnkRun, h]

theorem chnkRun_data (h : chnkSwitch c ch = .data) :
    chnkRun c (ch :: cs) = prepend [ch] (chnkRun { c with cursiz := c.cursiz - 1 } cs) := by
  simp only [chnkRun, h]
  rfl

/-- A byte that is no data: the parser goes on, or the call ends for good. -/
def Settles : ChnkRes → Prop
  | .next _ => True
  | .fin _ r _ => r ≠ .ok ∧ r ≠ .more
  | .data => False

theorem expectLf_settles (c : FfhttpChunked) (ch : UInt8) (st : ChnkIdx) :
    Settles (expectLf c ch st) := by
  unfold expectLf
  split
  · trivial
  · simp [Settles]

theorem caseAfterData_settles (c : FfhttpChunked) (ch : UInt8) :
    Settles (caseAfterData c ch) := by
  unfold caseAfterData
  split
  · trivial
  · exact expectLf_settles c ch _

theorem caseTrlStart_settles (c : FfhttpChunked) (ch : UInt8) : Settles (caseTrlStart c ch) := by
  unfold caseTrlStart
  split
  · trivial
  · split
    · simp [Settles]
    · trivial

theorem caseSize_settles (c : FfhttpChunked) (ch : UInt8) : Settles (caseSize c ch) := by
  simp only [caseSize, chnkSize]
  cases ffcharTohex ch with
  | some bb =>
    cases c.cursiz.testBit 63 with
    | true => simp [Settles]
    | false => trivial
  | none =>
    simp only
    split
    · trivial
    · split
      · trivial
      · split
        · trivial
        · simp [Settles]

theorem chnkSwitch_settles (c : FfhttpChunked) (ch : UInt8) :
    Settles (chnkSwitch c ch) ∨
      chnkSwitch c ch = .data ∧ c.state = .data ∧ c.last = false ∧ c.cursiz ≠ 0 := by
  unfold chnkSwitch
  cases hst : c.state with
  | start => cases ffcharTohex ch <;> simp [Settles]
  | size => exact .inl (caseSize_settles c ch)
  | beforeDataLf | afterDataLf | trlHdrLf => exact .inl (expectLf_settles c ch _)
  | afterData => exact .inl (caseAfterData_settles c ch)
  | trlStart => exact .inl (caseTrlStart_settles c ch)
  | data =>
    cases hlast : c.last with
    | true => exact .inl (caseTrlStart_settles _ ch)
    | false =>
      by_cases h0 : c.cursiz = 0
      · simp only [h0, Bool.false_eq_true, ne_eq, not_true_eq_false, if_false]
        exact .inl (caseAfterData_settles c ch)
      · exact .inr (by simp [h0])
  | ext | trlHdr =>
    left
    simp only
    split
    · trivial
    · split <;> trivial
  | trlLf =>
    left
    simp only
    split <;> simp [Settles]

theorem chnkSwitch_data (hst : c.state = .data) (hlast : c.last = false) (h0 : c.cursiz ≠ 0) :
    chnkSwitch c ch = .data := by
  simp [chnkSwitch, hst, hlast, h0]

theorem chnkRun_bulk (hst : c.state = .data) (hlast : c.last = false) (hlen : d.length ≤ c.cursiz) :
    chnkRun c (d ++ cs) = prepend d (chnkRun { c with cursiz := c.cursiz - d.length } cs) := by
  induction d generalizing c with
  | nil => rfl
  | cons ch d ih =>
    rw [length_cons] at hlen ⊢
    rw [cons_append, chnkRun_data (chnkSwitch_data hst hlast (by omega)),
      ih (c := { c with cursiz := c.cursiz - 1 }) hst hlast (by simp only; omega),
      prepend_prepend, singleton_append, Nat.sub_sub, Nat.add_comm 1]

/-- **A call makes the steps of the run** up to its end. -/
theorem chunkLoop_spec (h : chunkLoop c d = (c', r, rest, out)) :
    (r = .ok → chnkRun c d = prepend out (chnkRun c' rest) ∧ rest.length < d.length) ∧
    (r ≠ .ok → chnkRun c d = (c', r, rest, [])) ∧ (r = .more → rest = []) := by
  induction d generalizing c with
  | nil =>
    cases h
    exact ⟨fun hr => (by cases hr), fun _ => rfl, fun _ => rfl⟩
  | cons ch cs ih =>
    simp only [chunkLoop] at h
    rcases chnkSwitch_settles c ch with hset | ⟨hsw, hst, hlast, h0⟩
    · cases hsw : chnkSwitch c ch with
      | next c₁ =>
        simp only [hsw] at h
        obtain ⟨hok, hfin, hmore⟩ := ih h
        rw [chnkRun_next hsw]
        refine ⟨fun hr => ⟨(hok hr).1, ?_⟩, hfin, hmore⟩
        exact (hok hr).2.trans (Nat.lt_succ_self _)
      | fin c₁ r₁ consumed =>
        simp only [hsw] at h hset
        cases h
        rw [chnkRun_fin hsw]
        exact ⟨fun hr => absurd hr hset.1, fun _ => rfl, fun hr => absurd hr hset.2⟩
      | data =>
        rw [hsw] at hset
        exact hset.elim
    simp only [hsw] at h
    cases h
    refine ⟨fun _ => ⟨?_, ?_⟩, fun hr => absurd rfl hr, fun hr => (by cases hr)⟩
    · obtain ⟨sz, hsz⟩ : ∃ sz, sz = min c.cursiz (ch :: cs).length := ⟨_, rfl⟩
      rw [← hsz]
      have htake : ((ch :: cs).take sz).length = sz := by
        rw [length_take]
        omega
      conv_lhs => rw [← take_append_drop sz (ch :: cs)]
      rw [chnkRun_bulk hst hlast (by rw [htake]; omega), htake]
    · rw [length_drop, length_cons]
      omega

/-! ### Fragments -/

/-- The result `q` of a run with more input behind it. -/
def runOn (q : FfhttpChunked × FfhttpE × List UInt8 × List UInt8) (d : List UInt8) :
    FfhttpChunked × FfhttpE × List UInt8 × List UInt8 :=
  if q.2.1 = .more then prepend q.2.2.2 (chnkRun q.1 d)
  else (q.1, q.2.1, q.2.2.1 ++ d, q.2.2.2)

theorem runOn_prepend (dst : List UInt8) (q : FfhttpChunked × FfhttpE × List UInt8 × List UInt8)
    (d : List UInt8) : runOn (prepend dst q) d = prepend dst (runOn q d) := by
  by_cases hq : q.2.1 = .more
  · have hq' : (prepend dst q).2.1 = .more := hq
    rw [runOn, if_pos hq', runOn, if_pos hq, prepend_prepend]
    rfl
  · have hq' : (prepend dst q).2.1 ≠ .more := hq
    rw [runOn, if_neg hq', runOn, if_neg hq]
    rfl

theorem chnkRun_append (c : FfhttpChunked) (d d' : List UInt8) :
    chnkRun c (d ++ d') = runOn (chnkRun c d) d' := by
  induction d generalizing c with
  | nil => rfl
  | cons ch cs ih =>
    rw [cons_append]
    rcases chnkSwitch_settles c ch with hset | ⟨hsw, -⟩
    · cases hsw : chnkSwitch c ch with
      | next c₁ => rw [chnkRun_next hsw, chnkRun_next hsw, ih]
      | fin c₁ r₁ consumed =>
        rw [hsw] at hset
        rw [chnkRun_fin hsw, chnkRun_fin hsw, runOn, if_neg hset.2]
        cases consumed <;> rfl
      | data =>
        rw [hsw] at hset
        exact hset.elim
    · rw [chnkRun_data hsw, chnkRun_data hsw, ih, runOn_prepend]

theorem chnkRun_more (h : (chnkRun c d).2.1 = .more) : (chnkRun c d).2.2.1 = [] := by
  induction d generalizing c with
  | nil => rfl
  | cons ch cs ih =>
    rcases chnkSwitch_settles c ch with hset | ⟨hsw, -⟩
    · cases hsw : chnkSwitch c ch with
      | next c₁ =>
        rw [chnkRun_next hsw] at h ⊢
        exact ih h
      | fin c₁ r₁ consumed =>
        rw [hsw] at hset
        rw [chnkRun_fin hsw] at h
        exact absurd h hset.2
      | data =>
        rw [hsw] at hset
        exact hset.elim
    · rw [chnkRun_data hsw] at h ⊢
      exact ih h

/-- **However the input is divided**, the calls give the result of the run. -/
theorem chunkFeed_eq {n : ℕ} {ds : List (List UInt8)}
    (hn : ds.flatten.length + ds.length < n) (h : chnkRun c ds.flatten = (c', r, rest, out)) :
    ∃ rs, chunkFeed n c ds = some (out, r, rs) ∧ rs.flatten = rest := by
  induction n generalizing c ds out with
  | zero => omega
  | succ n ih =>
    cases ds with
    | nil =>
      cases h
      exact ⟨[], rfl, rfl⟩
    | cons d ds =>
      obtain ⟨c₁, r₁, rest₁, out₁, hcall⟩ : ∃ c₁ r₁ rest₁ out₁,
          ffhttpChunkparse c d = (c₁, r₁, rest₁, out₁) := ⟨_, _, _, _, rfl⟩
      obtain ⟨hok, hfin, hmore⟩ := chunkLoop_spec hcall
      simp only [flatten_cons, length_append, length_cons] at h hn
      rw [chnkRun_append] at h
      simp only [chunkFeed, hcall]
      by_cases hr : r₁ = .ok
      · subst hr
        obtain ⟨hrun, hlen⟩ := hok rfl
        rw [hrun, runOn_prepend, ← chnkRun_append] at h
        obtain ⟨c₂, r₂, rest₂, out₂, hrun₂⟩ : ∃ c₂ r₂ rest₂ out₂,
            chnkRun c₁ (rest₁ ++ ds.flatten) = (c₂, r₂, rest₂, out₂) := ⟨_, _, _, _, rfl⟩
        rw [hrun₂] at h
        cases h
        have hn' : (rest₁ :: ds).flatten.length + (rest₁ :: ds).length < n := by
          simp only [flatten_cons, length_append, length_cons]
          omega
        obtain ⟨rs, hfeed, hrs⟩ := ih hn' hrun₂
        exact ⟨rs, by simp [hfeed], hrs⟩
      have hrun := hfin hr
      by_cases hm : r₁ = .more
      · subst hm
        rw [hrun, runOn, if_pos rfl, prepend_nil] at h
        exact ih (by omega) h
      · rw [hrun, runOn, if_neg hm] at h
        cases h
        refine ⟨rest₁ :: ds, ?_, rfl⟩
        cases r₁ <;> first | rfl | exact absurd rfl hr | exact absurd rfl hm

/-! ### Framed bodies -/

theorem chnkRun_hex {a v : ℕ} {ds : List UInt8} (h : hexValue a ds = some v) (hv : v < 2 ^ 64)
    (last : Bool) (cs : List UInt8) :
    chnkRun ⟨a, .size, last⟩ (ds ++ cs) = chnkRun ⟨v, .size, last⟩ cs := by
  induction ds generalizing a with
  | nil =>
    obtain rfl : a = v := by simpa [hexValue] using h
    rfl
  | cons ch ds ih =>
    obtain ⟨b, hb, h⟩ := Option.bind_eq_some_iff.mp h
    have hle := le_hexValue h
    have hbit : a.testBit 63 = false := Nat.testBit_lt_two_pow (by omega)
    have hstep : chnkSwitch ⟨a, .size, last⟩ ch = .next ⟨a * 16 + b, .size, last⟩ := by
      simp only [chnkSwitch, caseSize, chnkSize, hb, hbit, Bool.false_eq_true, if_false]
      rw [Nat.mod_eq_of_lt (by omega)]
    rw [cons_append, chnkRun_next hstep, ih h]

theorem chnkRun_size {v : ℕ} {ds : List UInt8} (hne : ds ≠ []) (h : hexValue 0 ds = some v)
    (hv : v < 2 ^ 64) (n : ℕ) (last : Bool) (cs : List UInt8) :
    chnkRun ⟨n, .start, last⟩ (ds ++ CR :: LF :: cs) = chnkRun ⟨v, .data, v == 0⟩ cs := by
  obtain ⟨ch, ds, rfl⟩ := exists_cons_of_ne_nil hne
  obtain ⟨b, hb, h⟩ := Option.bind_eq_some_iff.mp h
  rw [Nat.zero_mul, Nat.zero_add] at h
  have hstart : chnkSwitch ⟨n, .start, last⟩ ch = .next ⟨b, .size, false⟩ := by
    simp only [chnkSwitch, hb]
  have hcr : chnkSwitch ⟨v, .size, false⟩ CR = .next ⟨v, .beforeDataLf, v == 0⟩ := by
    have htohex : ffcharTohex CR = none := by decide
    simp only [chnkSwitch, caseSize, chnkSize, htohex, if_true, Bool.or_false]
  have hlf : chnkSwitch ⟨v, .beforeDataLf, v == 0⟩ LF = .next ⟨v, .data, v == 0⟩ := rfl
  rw [cons_append, chnkRun_next hstart, chnkRun_hex h hv, chnkRun_next hcr, chnkRun_next hlf]

/-- What `ffhttp_chunkbegin` writes is a line with the size. -/
theorem ffhttpChunkbegin_spec {cap v : ℕ} (hv : v < 2 ^ 64) (hne : ffhttpChunkbegin cap v ≠ []) :
    ∃ ds, ffhttpChunkbegin cap v = ds ++ [CR, LF] ∧ ds ≠ [] ∧ hexValue 0 ds = some v := by
  obtain ⟨ds, htext, hds, hval⟩ :=
    ffsFromintHex_spec (m := 16) (n := 64) (by omega) (by omega) (by omega : v < 16 ^ 16)
  have htext := htext []
  rw [append_nil] at htext
  simp only [ffhttpChunkbegin, ffsFromintHexlow, htext] at hne ⊢
  split at hne
  · exact absurd rfl hne
  · next hcap =>
      rw [length_take] at hcap
      rw [take_of_length_le (by omega : ds.length ≤ cap), if_neg (by omega)]
      exact ⟨ds, rfl, hds, hval⟩

theorem chnkRun_chunk {cap : ℕ} (hd : d ≠ []) (hlen : d.length < 2 ^ 64)
    (hbegin : ffhttpChunkbegin cap d.length ≠ []) (n : ℕ) (last : Bool) (cs : List UInt8) :
    chnkRun ⟨n, .start, last⟩ (ffhttpChunkbegin cap d.length ++ (d ++ cs)) =
      prepend d (chnkRun ⟨0, .data, false⟩ cs) := by
  obtain ⟨ds, htext, hds, hval⟩ := ffhttpChunkbegin_spec hlen hbegin
  have h0 : (d.length == 0) = false := by simpa using hd
  rw [htext, append_assoc, cons_append, cons_append, nil_append,
    chnkRun_size hds hval hlen, h0, chnkRun_bulk rfl rfl le_rfl, Nat.sub_self]

/-- **A framed body is read back**, and what follows it is not consumed. -/
theorem Framed.run {ds : List (List UInt8)} {bs : List UInt8} (h : Framed ds bs) (n : ℕ)
    (last : Bool) (tail : List UInt8) :
    ∃ c', chnkRun ⟨n, .start, last⟩ (bs ++ tail) = (c', .done, tail, ds.flatten) := by
  induction h generalizing n last with
  | zero => exact ⟨_, rfl⟩
  | @last cap d hd hlen hbegin =>
    have hend : ∃ c', chnkRun ⟨0, .data, false⟩ (ffhttpChunkfin .last ++ tail) =
        (c', .done, tail, []) := ⟨_, rfl⟩
    obtain ⟨c', hend⟩ := hend
    refine ⟨c', ?_⟩
    rw [append_assoc, append_assoc, chnkRun_chunk hd hlen hbegin, hend]
    simp [prepend]
  | @cons cap d bs ds hd hlen hbegin h ih =>
    have hfin : chnkRun ⟨0, .data, false⟩ (ffhttpChunkfin .fin ++ (bs ++ tail)) =
        chnkRun ⟨0, .start, false⟩ (bs ++ tail) := rfl
    obtain ⟨c', hrun⟩ := ih 0 false
    refine ⟨c', ?_⟩
    rw [append_assoc, append_assoc, append_assoc, chnkRun_chunk hd hlen hbegin, hfin, hrun]
    rfl

theorem Framed.run_prefix {ds : List (List UInt8)} {bs : List UInt8} (h : Framed ds bs) (n : ℕ)
    (last : Bool) {p q : List UInt8} (hbs : bs = p ++ q) (hq : q ≠ []) :
    ∃ c' out, chnkRun ⟨n, .start, last⟩ p = (c', .more, [], out) ∧ out <+: ds.flatten := by
  obtain ⟨c', hrun⟩ := h.run n last []
  rw [append_nil, hbs, chnkRun_append] at hrun
  by_cases hmore : (chnkRun ⟨n, .start, last⟩ p).2.1 = .more
  · have hrest := chnkRun_more hmore
    refine ⟨_, _, Prod.ext rfl (Prod.ext hmore (Prod.ext hrest rfl)), ?_⟩
    rw [runOn, if_pos hmore] at hrun
    exact ⟨_, congrArg (fun r => r.2.2.2) hrun⟩
  · rw [runOn, if_neg hmore] at hrun
    have hrest := congrArg (fun r => r.2.2.1) hrun
    exact absurd (append_eq_nil_iff.mp hrest).2 hq

/-- **The body is read back from its chunks**, however their bytes are divided into fragments: the
data is the body, the end is reported behind the terminating chunk and not before, and the bytes
that follow are not consumed. -/
theorem ffhttp_chunked_roundtrip {ds : List (List UInt8)} {bs : List UInt8} (h : Framed ds bs)
    (c : FfhttpChunked) {frags : List (List UInt8)} {n : ℕ}
    (hn : frags.flatten.length + frags.length < n) :
    (∀ tail, frags.flatten = bs ++ tail →
      ∃ rs, chunkFeed n (ffhttpChunkinit c) frags = some (ds.flatten, .done, rs) ∧
        rs.flatten = tail) ∧
    ∀ q, q ≠ [] → bs = frags.flatten ++ q →
      ∃ out rs, chunkFeed n (ffhttpChunkinit c) frags = some (out, .more, rs) ∧
        rs.flatten = [] ∧ out <+: ds.flatten := by
  refine ⟨fun tail hfrags => ?_, fun q hq hbs => ?_⟩
  · obtain ⟨c', hrun⟩ := h.run c.cursiz c.last tail
    rw [← hfrags] at hrun
    exact chunkFeed_eq hn hrun
  · obtain ⟨c', out, hrun, hout⟩ := h.run_prefix c.cursiz c.last hbs hq
    obtain ⟨rs, hfeed, hrs⟩ := chunkFeed_eq (c := ffhttpChunkinit c) hn hrun
    exact ⟨out, rs, hfeed, hrs, hout⟩

/-- The body `a` as `1 CRLF a CRLF 0 CRLF CRLF`, with one byte behind it. -/
theorem ffhttp_chunked_roundtrip_example :
    ∃ rs, chunkFeed 100 (ffhttpChunkinit ⟨7, .trlHdr, true⟩)
        [[0x31, CR], [LF, 0x61, CR, LF, 0x30], [CR, LF, CR], [LF, 0x78]] =
      some ([0x61], .done, rs) ∧ rs.flatten = [0x78] := by
  have hframed : Framed [[0x61]] [0x31, CR, LF, 0x61, CR, LF, 0x30, CR, LF, CR, LF] :=
    @Framed.last 20 [0x61] (by decide) (by decide) (by decide)
  exact (ffhttp_chunked_roundtrip hframed ⟨7, .trlHdr, true⟩ (by decide)).1 [0x78] rfl

end Http

end FF
