import FF.Ffstring
import Mathlib.Data.List.Infix

/-!
# The URL parser

`ffurl_parse` is called with a text that grows: it goes on behind the bytes that it has seen.
What it finds are offsets and lengths in the text, in fields of 16 and 8 bits.
-/

namespace FF

namespace Url

open List

/-- The states of `ffurl_parse` -/
inductive UrlSt
  | hostStart
  | host
  | ip6
  | afterHost
  | port
  | pathStart
  | path
  | quoted1
  | quoted2
  | qs
  | portOrScheme
  | schemeSlash2
  deriving DecidableEq, Repr

/-- `enum FFURL_E` -/
inductive FFURL_E
  | eok
  | emore
  | estop
  | etoolarge
  | escheme
  | eip6
  | ehost
  | epath
  deriving DecidableEq, Repr

/-- `ffurl` -/
structure Ffurl where
  offhost : ℕ
  port : ℕ
  hostlen : ℕ
  portlen : ℕ
  len : ℕ
  offpath : ℕ
  pathlen : ℕ
  decodedPathlen : ℕ
  idx : UrlSt
  ipv4 : Bool
  ipv6 : Bool
  querystr : Bool
  complex : Bool
  deriving DecidableEq, Repr

/-- `ffurl_init` -/
def ffurlInit : Ffurl := ⟨0, 0, 0, 0, 0, 0, 0, 0, .hostStart, false, false, false, false⟩

/-- `ffchar_ishex` -/
def ffcharIshex (ch : UInt8) : Bool :=
  ffcharIsdigit ch || (ffcharLower ch ≥ 0x61 && ffcharLower ch ≤ 0x66)

/-! ### The states

Each function is a `case` of the `switch` for the byte `ch` behind the bytes `pre`: the object for
the next byte, or an error. -/

/-- What a byte does. -/
abbrev UrlStep := Except (FFURL_E × Ffurl) Ffurl

/-- One byte more in the path -/
def Ffurl.addPath (u : Ffurl) : Ffurl :=
  { u with
    decodedPathlen := (u.decodedPathlen + 1) % 2 ^ 16
    pathlen := (u.pathlen + 1) % 2 ^ 16 }

/-- `iPath` -/
def stPath (u : Ffurl) (pre : List UInt8) (ch : UInt8) : UrlStep :=
  if ch = 0x25 then .ok { u.addPath with complex := true, idx := .quoted1 }
  else if ch = 0x3f then .ok { u with idx := .qs }
  else if ch = 0x2f ∨ ch = 0x2e then
    .ok { u.addPath with complex := u.complex || pre.getLast? = some 0x2f }
  else if ffcharIsansiwhite ch ∨ ch = 0x23 then .error (.estop, u)
  else .ok u.addPath

/-- `iPathStart` -/
def stPathStart (u : Ffurl) (pre : List UInt8) (ch : UInt8) : UrlStep :=
  if ch ≠ 0x2f then .error (.estop, { u with idx := .pathStart })
  else stPath { u with offpath := pre.length % 2 ^ 16, idx := .path } pre ch

/-- `iPort`; a byte that is no digit is seen again in `iPathStart`. -/
def stPort (u : Ffurl) (pre : List UInt8) (ch : UInt8) : UrlStep :=
  if ffcharIsdigit ch then
    let p := u.port * 10 + (ch.toNat - 0x30)
    if p > 0xffff then .error (.etoolarge, { u with idx := .port })
    else .ok { u with idx := .port, port := p, portlen := (u.portlen + 1) % 2 ^ 8 }
  else stPathStart u pre ch

/-- `iPortOrScheme` -/
def stPortOrScheme (u : Ffurl) (pre : List UInt8) (ch : UInt8) : UrlStep :=
  if ch = 0x2f then .ok { u with idx := .schemeSlash2 } else stPort u pre ch

/-- `iAfterHost`; a byte that is no colon is seen again in `iPathStart`. -/
def stAfterHost (u : Ffurl) (pre : List UInt8) (ch : UInt8) : UrlStep :=
  if ch = 0x3a then .ok { u with idx := if u.offhost = 0 then .portOrScheme else .port }
  else stPathStart u pre ch

/-- A character of a host name -/
def isHostChar (ch : UInt8) : Bool := ffcharIsname ch || ch == 0x2d || ch == 0x2e

/-- `iHost` -/
def stHost (u : Ffurl) (pre : List UInt8) (ch : UInt8) : UrlStep :=
  if isHostChar ch then
    if pre.length - u.offhost > 0xff then .error (.etoolarge, { u with idx := .host })
    else .ok { u with
      idx := .host
      ipv4 := u.ipv4 && (ffcharIsdigit ch || ch == 0x2e)
      hostlen := (u.hostlen + 1) % 2 ^ 8 }
  else if u.hostlen = 0 then .error (.ehost, { u with idx := .host })
  else stAfterHost u pre ch

/-- `iHostStart`; a slash is seen again in `iPathStart`. -/
def stHostStart (u : Ffurl) (pre : List UInt8) (ch : UInt8) : UrlStep :=
  if ch = 0x5b then
    .ok { u with idx := .ip6, hostlen := (u.hostlen + 1) % 2 ^ 8, ipv6 := true }
  else if ffcharIsdigit ch then stHost { u with ipv4 := true } pre ch
  else if ch = 0x2f then stPathStart u pre ch
  else stHost u pre ch

/-- A character of an IPv6 address -/
def isIp6Char (ch : UInt8) : Bool := ffcharIshex ch || ch == 0x3a || ch == 0x25

/-- `iIp6` -/
def stIp6 (u : Ffurl) (pre : List UInt8) (ch : UInt8) : UrlStep :=
  if pre.length - u.offhost > 47 then .error (.etoolarge, u)
  else if ch = 0x5d then .ok { u with idx := .afterHost, hostlen := (u.hostlen + 1) % 2 ^ 8 }
  else if isIp6Char ch then .ok { u with hostlen := (u.hostlen + 1) % 2 ^ 8 }
  else .error (.eip6, u)

/-- `iSchemeSlash2` -/
def stSchemeSlash2 (u : Ffurl) (pre : List UInt8) (ch : UInt8) : UrlStep :=
  if ch ≠ 0x2f then .error (.escheme, u)
  else .ok { u with
    hostlen := 0
    idx := .hostStart
    offhost := (pre.length % 2 ^ 16 + 1) % 2 ^ 16 }

/-- `iQuoted1`, `iQuoted2` -/
def stQuoted (next : UrlSt) (u : Ffurl) (ch : UInt8) : UrlStep :=
  if ffcharIshex ch then .ok { u with idx := next, pathlen := (u.pathlen + 1) % 2 ^ 16 }
  else .error (.epath, u)

/-- `iQs` -/
def stQs (u : Ffurl) (ch : UInt8) : UrlStep :=
  if ffcharIsansiwhite ch ∨ ch = 0x23 then .error (.estop, u) else .ok { u with querystr := true }

/-- The `switch` of `ffurl_parse` -/
@[grind =] def urlStep (u : Ffurl) (pre : List UInt8) (ch : UInt8) : UrlStep :=
  match u.idx with
  | .hostStart => stHostStart u pre ch
  | .host => stHost u pre ch
  | .ip6 => stIp6 u pre ch
  | .afterHost => stAfterHost u pre ch
  | .port => stPort u pre ch
  | .pathStart => stPathStart u pre ch
  | .path => stPath u pre ch
  | .quoted1 => stQuoted .quoted2 u ch
  | .quoted2 => stQuoted .path u ch
  | .qs => stQs u ch
  | .portOrScheme => stPortOrScheme u pre ch
  | .schemeSlash2 => stSchemeSlash2 u pre ch

/-! ### The calls -/

/-- The loop of `ffurl_parse` behind the bytes `pre`: the error if there is one, the object, and the
bytes that have been seen. -/
@[grind =] def urlLoop (u : Ffurl) (pre : List UInt8) : List UInt8 → Option FFURL_E × Ffurl × List UInt8
  | [] => (none, u, pre)
  | ch :: rest =>
    match urlStep u pre ch with
    | .ok u => urlLoop u (pre ++ [ch]) rest
    | .error (e, u) => (some e, u, pre)

/-- `consistent` -/
def Ffurl.consistent (u : Ffurl) : Bool :=
  (u.idx = .host && u.hostlen ≠ 0) || u.idx = .afterHost || (u.idx = .port && u.portlen ≠ 0) ||
    u.idx = .path || u.idx = .qs

/-- The object at the end of `ffurl_parse`, with the code `er` behind `n` bytes. -/
def Ffurl.fin (u : Ffurl) (er : FFURL_E) (n : ℕ) : Ffurl :=
  if er ≠ .emore ∧ ¬(u.idx = .path ∨ u.idx = .qs) then
    { u with len := n % 2 ^ 16, offpath := n % 2 ^ 16 }
  else { u with len := n % 2 ^ 16 }

/-- The code of a call that has come to the end of the text, if there was no error. -/
def Ffurl.code (u : Ffurl) (er : Option FFURL_E) : FFURL_E :=
  er.getD (if u.consistent then .eok else .emore)

/-- `ffurl_parse` -/
def ffurlParse (u : Ffurl) (s : List UInt8) : FFURL_E × Ffurl :=
  let (er, u, seen) := urlLoop u (s.take u.len) (s.drop u.len)
  (u.code er, u.fin (u.code er) seen.length)

/-- Calls on prefixes, and then on the text, as long as the results are `ok` or `more`. -/
@[grind =] def ffurlParses (u : Ffurl) : List (List UInt8) → List UInt8 → FFURL_E × Ffurl
  | [], s => ffurlParse u s
  | p :: ps, s =>
    if (ffurlParse u p).1 = .eok ∨ (ffurlParse u p).1 = .emore then
      ffurlParses (ffurlParse u p).2 ps s
    else ffurlParse u p

/-! ### The offset of the path -/

/-- The path has begun. -/
@[grind =] def UrlSt.inPath : UrlSt → Bool
  | .path | .quoted1 | .quoted2 | .qs => true
  | _ => false

/-- The object with another length, and before the path with another offset of it. -/
def Ffurl.reloc (a b : ℕ) (u : Ffurl) : Ffurl :=
  { u with len := a, offpath := if u.idx.inPath then u.offpath else b }

/-- The same for what a byte does. -/
@[grind =] def UrlStep.reloc (a b : ℕ) : UrlStep → UrlStep
  | .ok u => .ok (u.reloc a b)
  | .error (e, u) => .error (e, u.reloc a b)

section Reloc

variable {a b : ℕ} {u : Ffurl} {pre : List UInt8} {ch : UInt8}

theorem reloc_ite {P : Prop} [Decidable P] {x y x' y' : UrlStep} (hx : x = x'.reloc a b)
    (hy : y = y'.reloc a b) : (if P then x else y) = UrlStep.reloc a b (if P then x' else y') := by
  split
  · exact hx
  · exact hy

theorem Ffurl.reloc_inPath (h : u.idx.inPath = true) : u.reloc a b = { u with len := a } := by
  rw [Ffurl.reloc, if_pos h]

theorem Ffurl.reloc_not_inPath (h : u.idx.inPath = false) :
    u.reloc a b = { u with len := a, offpath := b } := by
  rw [Ffurl.reloc, if_neg (by rw [h]; exact Bool.false_ne_true)]

theorem stPath_reloc (h : u.idx = .path) :
    stPath (u.reloc a b) pre ch = UrlStep.reloc a b (stPath u pre ch) := by
  rw [Ffurl.reloc_inPath (by rw [h]; rfl)]
  refine reloc_ite ?_ (reloc_ite ?_ (reloc_ite ?_ (reloc_ite ?_ ?_))) <;>
    simp [UrlStep.reloc, Ffurl.reloc, Ffurl.addPath, h, UrlSt.inPath]

theorem stPathStart_reloc (h : u.idx.inPath = false) :
    stPathStart (u.reloc a b) pre ch = UrlStep.reloc a b (stPathStart u pre ch) := by
  refine reloc_ite ?_ ?_
  · rw [Ffurl.reloc_not_inPath h]
    simp [UrlStep.reloc, Ffurl.reloc, UrlSt.inPath]
  · exact stPath_reloc (u := { u with offpath := pre.length % 2 ^ 16, idx := .path }) rfl

theorem stPort_reloc (h : u.idx.inPath = false) :
    stPort (u.reloc a b) pre ch = UrlStep.reloc a b (stPort u pre ch) := by
  refine reloc_ite (reloc_ite ?_ ?_) (stPathStart_reloc h)
  · rw [Ffurl.reloc_not_inPath h]
    simp [UrlStep.reloc, Ffurl.reloc, UrlSt.inPath]
  · rw [Ffurl.reloc_not_inPath h]
    simp [UrlStep.reloc, Ffurl.reloc, UrlSt.inPath]

theorem stAfterHost_reloc (h : u.idx.inPath = false) :
    stAfterHost (u.reloc a b) pre ch = UrlStep.reloc a b (stAfterHost u pre ch) := by
  refine reloc_ite ?_ (stPathStart_reloc h)
  rw [Ffurl.reloc_not_inPath h]
  by_cases hoff : u.offhost = 0 <;> simp [UrlStep.reloc, Ffurl.reloc, hoff, UrlSt.inPath]

theorem stHost_reloc (h : u.idx.inPath = false) :
    stHost (u.reloc a b) pre ch = UrlStep.reloc a b (stHost u pre ch) := by
  refine reloc_ite (reloc_ite ?_ ?_) (reloc_ite ?_ (stAfterHost_reloc h)) <;>
    rw [Ffurl.reloc_not_inPath h] <;> simp [UrlStep.reloc, Ffurl.reloc, UrlSt.inPath]

theorem stHostStart_reloc (h : u.idx = .hostStart) :
    stHostStart (u.reloc a b) pre ch = UrlStep.reloc a b (stHostStart u pre ch) := by
  have hno : u.idx.inPath = false := by rw [h]; rfl
  refine reloc_ite ?_ (reloc_ite ?_ (reloc_ite (stPathStart_reloc hno) (stHost_reloc hno)))
  · rw [Ffurl.reloc_not_inPath hno]
    simp [UrlStep.reloc, Ffurl.reloc, UrlSt.inPath]
  · exact stHost_reloc (u := { u with ipv4 := true }) hno

/-- **A step does not see the offset of the path** before the path. -/
theorem urlStep_reloc (a b : ℕ) (u : Ffurl) (pre : List UInt8) (ch : UInt8) :
    urlStep (u.reloc a b) pre ch = UrlStep.reloc a b (urlStep u pre ch) := by
  have hidx : (u.reloc a b).idx = u.idx := rfl
  rw [urlStep, urlStep, hidx]
  cases h : u.idx with
  | hostStart => exact stHostStart_reloc h
  | host => exact stHost_reloc (by rw [h]; rfl)
  | ip6 =>
    refine reloc_ite ?_ (reloc_ite ?_ (reloc_ite ?_ ?_)) <;>
      simp [UrlStep.reloc, Ffurl.reloc, h, UrlSt.inPath]
  | afterHost => exact stAfterHost_reloc (by rw [h]; rfl)
  | port => exact stPort_reloc (by rw [h]; rfl)
  | pathStart => exact stPathStart_reloc (by rw [h]; rfl)
  | path => exact stPath_reloc h
  | quoted1 =>
    refine reloc_ite ?_ ?_ <;> simp [UrlStep.reloc, Ffurl.reloc, h, UrlSt.inPath]
  | quoted2 =>
    refine reloc_ite ?_ ?_ <;> simp [UrlStep.reloc, Ffurl.reloc, h, UrlSt.inPath]
  | qs =>
    refine reloc_ite ?_ ?_ <;> simp [UrlStep.reloc, Ffurl.reloc, h, UrlSt.inPath]
  | portOrScheme =>
    refine reloc_ite ?_ (stPort_reloc (by rw [h]; rfl))
    simp [UrlStep.reloc, Ffurl.reloc, h, UrlSt.inPath]
  | schemeSlash2 =>
    refine reloc_ite ?_ ?_ <;> simp [UrlStep.reloc, Ffurl.reloc, h, UrlSt.inPath]

/-- **Nor does the loop.** -/
theorem urlLoop_reloc (a b : ℕ) (u : Ffurl) (pre rest : List UInt8) :
    urlLoop (u.reloc a b) pre rest =
      ((urlLoop u pre rest).1, (urlLoop u pre rest).2.1.reloc a b, (urlLoop u pre rest).2.2) := by
  induction rest generalizing u pre with
  | nil => rfl
  | cons ch rest ih =>
    rw [urlLoop, urlLoop, urlStep_reloc]
    cases urlStep u pre ch with
    | ok u' => exact ih u' (pre ++ [ch])
    | error eu => rfl

end Reloc

/-! ### Calls on prefixes -/

section Prefixes

/-- The error of a step is none of the two codes that let the caller go on. -/
@[grind =] def UrlStep.Real : UrlStep → Prop
  | .ok _ => True
  | .error (e, _) => e ≠ .eok ∧ e ≠ .emore

theorem real_ite {P : Prop} [Decidable P] {x y : UrlStep} (hx : x.Real) (hy : y.Real) :
    UrlStep.Real (if P then x else y) := by
  split
  · exact hx
  · exact hy

theorem real_ok {u : Ffurl} : UrlStep.Real (.ok u) := trivial

theorem real_error {u : Ffurl} {e : FFURL_E} (h : e ≠ .eok ∧ e ≠ .emore) :
    UrlStep.Real (.error (e, u)) := h

theorem stPath_real (u : Ffurl) (pre : List UInt8) (ch : UInt8) : (stPath u pre ch).Real :=
  real_ite real_ok (real_ite real_ok (real_ite real_ok (real_ite (real_error (by decide)) real_ok)))

theorem stPathStart_real (u : Ffurl) (pre : List UInt8) (ch : UInt8) : (stPathStart u pre ch).Real :=
  real_ite (real_error (by decide)) (stPath_real _ pre ch)

theorem stPort_real (u : Ffurl) (pre : List UInt8) (ch : UInt8) : (stPort u pre ch).Real :=
  real_ite (real_ite (real_error (by decide)) real_ok) (stPathStart_real u pre ch)

theorem stAfterHost_real (u : Ffurl) (pre : List UInt8) (ch : UInt8) : (stAfterHost u pre ch).Real :=
  real_ite real_ok (stPathStart_real u pre ch)

theorem stHost_real (u : Ffurl) (pre : List UInt8) (ch : UInt8) : (stHost u pre ch).Real :=
  real_ite (real_ite (real_error (by decide)) real_ok)
    (real_ite (real_error (by decide)) (stAfterHost_real u pre ch))

theorem urlStep_real (u : Ffurl) (pre : List UInt8) (ch : UInt8) : (urlStep u pre ch).Real := by
  rw [urlStep]
  cases u.idx with
  | hostStart =>
    exact real_ite real_ok
      (real_ite (stHost_real _ pre ch) (real_ite (stPathStart_real u pre ch) (stHost_real u pre ch)))
  | host => exact stHost_real u pre ch
  | ip6 =>
    exact real_ite (real_error (by decide))
      (real_ite real_ok (real_ite real_ok (real_error (by decide))))
  | afterHost => exact stAfterHost_real u pre ch
  | port => exact stPort_real u pre ch
  | pathStart => exact stPathStart_real u pre ch
  | path => exact stPath_real u pre ch
  | quoted1 => exact real_ite real_ok (real_error (by decide))
  | quoted2 => exact real_ite real_ok (real_error (by decide))
  | qs => exact real_ite (real_error (by decide)) real_ok
  | portOrScheme => exact real_ite real_ok (stPort_real u pre ch)
  | schemeSlash2 => exact real_ite (real_error (by decide)) real_ok

theorem urlLoop_error {u : Ffurl} {pre rest : List UInt8} {e : FFURL_E}
    (h : (urlLoop u pre rest).1 = some e) : e ≠ .eok ∧ e ≠ .emore := by
  induction rest generalizing u pre with
  | nil => cases h
  | cons ch rest ih =>
    rw [urlLoop] at h
    cases hs : urlStep u pre ch with
    | ok u' =>
      rw [hs] at h
      exact ih h
    | error eu =>
      rw [hs] at h
      cases h
      have hreal := urlStep_real u pre ch
      rwa [hs] at hreal

theorem urlLoop_seen {u : Ffurl} {pre rest : List UInt8} (h : (urlLoop u pre rest).1 = none) :
    (urlLoop u pre rest).2.2 = pre ++ rest := by
  induction rest generalizing u pre with
  | nil => exact (append_nil pre).symm
  | cons ch rest ih =>
    rw [urlLoop] at h ⊢
    cases hs : urlStep u pre ch with
    | ok u' =>
      rw [hs] at h
      exact (ih h).trans (append_assoc pre [ch] rest)
    | error eu =>
      rw [hs] at h
      cases h

/-- **The loop goes on** where it has come to the end of a prefix. -/
theorem urlLoop_append (u : Ffurl) (pre xs ys : List UInt8) (h : (urlLoop u pre xs).1 = none) :
    urlLoop u pre (xs ++ ys) = urlLoop (urlLoop u pre xs).2.1 (pre ++ xs) ys := by
  induction xs generalizing u pre with
  | nil => rw [nil_append, append_nil, urlLoop]
  | cons ch xs ih =>
    rw [cons_append, urlLoop, urlLoop]
    rw [urlLoop] at h
    cases hs : urlStep u pre ch with
    | ok u' =>
      rw [hs] at h
      have hpre : pre ++ ch :: xs = pre ++ [ch] ++ xs := append_cons pre ch xs
      rw [hpre]
      exact ih u' (pre ++ [ch]) h
    | error eu =>
      rw [hs] at h
      cases h

theorem urlLoop_append_error (u : Ffurl) (pre xs ys : List UInt8) {e : FFURL_E}
    (h : (urlLoop u pre xs).1 = some e) : urlLoop u pre (xs ++ ys) = urlLoop u pre xs := by
  induction xs generalizing u pre with
  | nil => cases h
  | cons ch xs ih =>
    rw [cons_append, urlLoop, urlLoop]
    rw [urlLoop] at h
    cases hs : urlStep u pre ch with
    | ok u' =>
      rw [hs] at h
      exact ih u' (pre ++ [ch]) h
    | error eu => rfl

/-- The loop over a text from its start. -/
abbrev urlRun (s : List UInt8) : Option FFURL_E × Ffurl × List UInt8 := urlLoop ffurlInit [] s

/-- A prefix is a URL without a path. -/
def HostOk (p : List UInt8) : Prop :=
  (urlRun p).1 = none ∧ (urlRun p).2.1.consistent = true ∧ (urlRun p).2.1.idx.inPath = false

/-- A text is the beginning of a URL, and its path has not begun. -/
def HostMore (s : List UInt8) : Prop :=
  (urlRun s).1 = none ∧ (urlRun s).2.1.consistent = false ∧ (urlRun s).2.1.idx.inPath = false

theorem urlRun_reloc (s : List UInt8) : (urlRun s).2.1.reloc 0 0 = (urlRun s).2.1 := by
  have h := urlLoop_reloc 0 0 ffurlInit [] s
  exact (congrArg (fun r => r.2.1) h).symm

/-- **The end of a call** sees an offset that has been left behind where the text is the beginning
of a URL without a path. -/
theorem Ffurl.fin_reloc {u : Ffurl} (hu : u.reloc 0 0 = u) (er : FFURL_E) (a b n : ℕ) :
    (u.reloc a b).fin er n = u.fin er n ↔ ¬(er = .emore ∧ u.idx.inPath = false ∧ b ≠ 0) := by
  have hidx : (u.reloc a b).idx = u.idx := rfl
  rw [Ffurl.fin, Ffurl.fin, hidx]
  by_cases hset : er ≠ .emore ∧ ¬(u.idx = .path ∨ u.idx = .qs)
  · rw [if_pos hset, if_pos hset]
    exact ⟨fun _ h => hset.1 h.1, fun _ => rfl⟩
  rw [if_neg hset, if_neg hset]
  cases h : u.idx.inPath with
  | true =>
    rw [reloc_inPath h]
    exact ⟨fun _ h' => Bool.noConfusion h'.2.1, fun _ => rfl⟩
  | false =>
    have hmore : er = .emore := by
      by_contra hne
      refine hset ⟨hne, ?_⟩
      rintro (hp | hq)
      · rw [hp] at h
        cases h
      · rw [hq] at h
        cases h
    have hoff : u.offpath = 0 := by
      have := congrArg Ffurl.offpath hu
      rw [reloc_not_inPath h] at this
      exact this.symm
    rw [reloc_not_inPath h]
    constructor
    · intro heq hno
      exact hno.2.2 ((congrArg Ffurl.offpath heq).trans hoff)
    · intro hno
      have hb : b = 0 := by
        by_contra hb
        exact hno ⟨hmore, rfl, hb⟩
      rw [hb, ← hoff]

theorem Ffurl.code_eq_emore {u : Ffurl} {er : Option FFURL_E} (her : ∀ e, er = some e → e ≠ .emore) :
    u.code er = .emore ↔ er = none ∧ u.consistent = false := by
  cases er with
  | some e => exact ⟨fun h => absurd h (her e rfl), fun h => by cases h.1⟩
  | none =>
    rw [Ffurl.code, Option.getD_none]
    cases u.consistent <;> simp

theorem ffurlParse_init (s : List UInt8) :
    ffurlParse ffurlInit s = ((urlRun s).2.1.code (urlRun s).1,
      (urlRun s).2.1.fin ((urlRun s).2.1.code (urlRun s).1) (urlRun s).2.2.length) := rfl

/-- A call behind the prefix `p` -/
theorem ffurlParse_reloc {p s : List UInt8} (hp : p <+: s) (hnone : (urlRun p).1 = none) (b : ℕ) :
    ffurlParse ((urlRun p).2.1.reloc p.length b) s =
      ((urlRun s).2.1.code (urlRun s).1,
        ((urlRun s).2.1.reloc p.length b).fin ((urlRun s).2.1.code (urlRun s).1)
          (urlRun s).2.2.length) := by
  obtain ⟨t, rfl⟩ := hp
  have hrun := urlLoop_append ffurlInit [] p t hnone
  rw [nil_append] at hrun
  have hlen : ((urlRun p).2.1.reloc p.length b).len = p.length := rfl
  rw [ffurlParse, hlen, take_left, drop_left, urlLoop_reloc, ← hrun]
  rfl

theorem Ffurl.fin_prefix {u : Ffurl} (a b : ℕ) {n : ℕ} (hn : n < 2 ^ 16) :
    (u.reloc a b).fin (u.code none) n =
      u.reloc n (if u.consistent = true ∧ u.idx.inPath = false then n else b) := by
  have hidx : (u.reloc a b).idx = u.idx := rfl
  rw [Ffurl.fin, hidx, Nat.mod_eq_of_lt hn]
  cases hc : u.consistent with
  | false =>
    rw [if_neg (by simp [Ffurl.code, hc]), if_neg (by simp)]
    rfl
  | true =>
    have hcode : u.code none = .eok := by simp [Ffurl.code, hc]
    rw [hcode]
    cases h : u.idx.inPath with
    | false =>
      have hidx : ¬(u.idx = .path ∨ u.idx = .qs) := by
        rintro (hp | hq)
        · rw [hp] at h
          cases h
        · rw [hq] at h
          cases h
      rw [if_pos ⟨by decide, hidx⟩, if_pos ⟨rfl, rfl⟩, reloc_not_inPath h, reloc_not_inPath h]
    | true =>
      have hidx : u.idx = .path ∨ u.idx = .qs := by
        cases hi : u.idx <;> simp_all [Ffurl.consistent, UrlSt.inPath]
      rw [if_neg fun hno => hno.2 hidx, if_neg fun hno => Bool.noConfusion hno.2,
        reloc_inPath h, reloc_inPath h]

/-- **Calls on prefixes end like one call on the text**, but where the text is the beginning of a
URL without a path and an offset of the path has been left behind. -/
theorem parses_eq {ps : List (List UInt8)} {p s : List UInt8} {b : ℕ}
    (hps : (p :: (ps ++ [s])).Pairwise (· <+: ·)) (hlen : s.length < 2 ^ 16)
    (hnone : (urlRun p).1 = none) :
    ffurlParses ((urlRun p).2.1.reloc p.length b) ps s = ffurlParse ffurlInit s ↔
      ¬(HostMore s ∧ (b ≠ 0 ∨ ∃ q ∈ ps, HostOk q)) := by
  induction ps generalizing p b with
  | nil =>
    have hp : p <+: s := (pairwise_cons.mp hps).1 s (by simp)
    rw [ffurlParses, ffurlParse_reloc hp hnone, ffurlParse_init, Prod.mk.injEq,
      Ffurl.fin_reloc (urlRun_reloc s),
      Ffurl.code_eq_emore fun e he => (urlLoop_error he).2, HostMore]
    simp only [true_and, not_mem_nil, false_and, exists_false, or_false, and_assoc]
  | cons q ps ih =>
    obtain ⟨hp, hqs⟩ := pairwise_cons.mp hps
    have hpq : p <+: q := hp q mem_cons_self
    have hqS : q <+: s := (pairwise_cons.mp hqs).1 s (by simp)
    have hqlen : q.length < 2 ^ 16 := Nat.lt_of_le_of_lt hqS.length_le hlen
    rw [ffurlParses, ffurlParse_reloc hpq hnone]
    cases her : (urlRun q).1 with
    | some e =>
      obtain ⟨hok, hmore⟩ := urlLoop_error her
      obtain ⟨t, rfl⟩ := hqS
      have hrun : urlRun (q ++ t) = urlRun q := urlLoop_append_error _ _ q t her
      have hcode : (urlRun q).2.1.code (some e) = e := rfl
      have hfin := (Ffurl.fin_reloc (urlRun_reloc q) e p.length b (urlRun q).2.2.length).mpr
        fun h => hmore h.1
      have hno : ¬(e = .eok ∨ e = .emore) := not_or.mpr ⟨hok, hmore⟩
      rw [hcode, if_neg hno, hfin, ffurlParse_init, hrun, her, hcode]
      refine ⟨fun _ h => ?_, fun _ => rfl⟩
      have hnone' := h.1.1
      rw [hrun, her] at hnone'
      cases hnone'
    | none =>
      have hcode : (urlRun q).2.1.code none = .eok ∨ (urlRun q).2.1.code none = .emore := by
        rw [Ffurl.code, Option.getD_none]
        cases (urlRun q).2.1.consistent <;> simp
      have hseen : (urlRun q).2.2 = q := urlLoop_seen her
      rw [if_pos hcode, hseen, Ffurl.fin_prefix _ _ hqlen, ih hqs her]
      have hb : ((if (urlRun q).2.1.consistent = true ∧ (urlRun q).2.1.idx.inPath = false then
          q.length else b) ≠ 0 ∨ ∃ r ∈ ps, HostOk r) ↔
          (b ≠ 0 ∨ ∃ r ∈ q :: ps, HostOk r) := by
        rw [exists_mem_cons_iff]
        by_cases hhost : (urlRun q).2.1.consistent = true ∧ (urlRun q).2.1.idx.inPath = false
        · have hqne : q.length ≠ 0 := by
            intro h0
            rw [length_eq_zero_iff.mp h0] at hhost
            exact absurd hhost.1 (by decide)
          rw [if_pos hhost]
          exact ⟨fun _ => .inr (.inl ⟨her, hhost⟩), fun _ => .inl hqne⟩
        · have hno : ¬HostOk q := fun h => hhost h.2
          rw [if_neg hhost]
          tauto
      rw [hb]

end Prefixes

/-! ### Components -/

/-- `enum FFURL_COMP` -/
inductive FFURL_COMP
  | fullhost
  | scheme
  | host
  | port
  | path
  | qs
  | pathqs
  deriving DecidableEq, Repr

/-- The `n` bytes of the text from the offset on. -/
def slice (base : List UInt8) (off n : ℕ) : List UInt8 := (base.drop off).take n

/-- `ffurl_get` -/
@[grind =] def ffurlGet (u : Ffurl) (base : List UInt8) : FFURL_COMP → List UInt8
  | .fullhost => slice base u.offhost (u.hostlen + if u.portlen ≠ 0 then 1 + u.portlen else 0)
  | .scheme => slice base 0 (if u.offhost ≠ 0 then u.offhost - 3 else 0)
  | .host =>
    if u.hostlen > 2 ∧ base[u.offhost]? = some 0x5b then
      slice base (u.offhost + 1) (u.hostlen - 2)
    else slice base u.offhost u.hostlen
  | .port => slice base (u.offhost + u.hostlen + 1) u.portlen
  | .path => slice base u.offpath u.pathlen
  | .qs =>
    if u.querystr then
      slice base (u.offpath + u.pathlen + 1) (u.len - (u.offpath + u.pathlen + 1))
    else []
  | .pathqs => slice base u.offpath (u.len - u.offpath)

end Url

end FF
