import FF.Url.Parse

/-!
# The parts of a URL

A grammar for URLs and their beginnings that has the parts themselves, not offsets and lengths in
bytes: `Reads` says how a text is read byte by byte. The parser follows it.
-/

namespace FF

namespace Url

open List Option

/-- **The parts of a URL**; the host has its brackets, and the path its first slash. -/
structure Parts where
  scheme : Option (List UInt8)
  host : List UInt8
  port : Option (List UInt8)
  path : List UInt8
  query : Option (List UInt8)
  deriving DecidableEq, Repr

namespace Parts

/-- No parts. -/
def empty : Parts := ⟨none, [], none, [], none⟩

/-- The scheme with its delimiter -/
def schemeText (p : Parts) : List UInt8 :=
  match p.scheme with
  | none => []
  | some a => a ++ [0x3a, 0x2f, 0x2f]

/-- The port with its delimiter -/
def portText (p : Parts) : List UInt8 :=
  match p.port with
  | none => []
  | some ds => 0x3a :: ds

/-- The query with its delimiter -/
def queryText (p : Parts) : List UInt8 :=
  match p.query with
  | none => []
  | some q => 0x3f :: q

/-- What is in front of the path -/
def front (p : Parts) : List UInt8 := p.schemeText ++ p.host ++ p.portText

/-- **The text** -/
def text (p : Parts) : List UInt8 := p.front ++ p.path ++ p.queryText

end Parts

/-- A character of a path that is no escape -/
def isPathChar (ch : UInt8) : Bool :=
  !ffcharIsansiwhite ch && ch != 0x23 && ch != 0x25 && ch != 0x3f

/-- A character of a query -/
def isQsChar (ch : UInt8) : Bool := !ffcharIsansiwhite ch && ch != 0x23

/-- The host may end here: a name has 255 characters at most. -/
def HostEnd (st : UrlSt) (p : Parts) : Prop :=
  (st = .host ∧ p.host.length ≤ 255) ∨ st = .afterHost

/-- **How the beginning of a URL is read**: the state behind it, and its parts. -/
inductive Reads : List UInt8 → UrlSt → Parts → Prop
  | start : Reads [] .hostStart .empty
  | bracket {s : List UInt8} {p : Parts} (h : Reads s .hostStart p) :
      Reads (s ++ [0x5b]) .ip6 { p with host := [0x5b] }
  | ip6 {s : List UInt8} {p : Parts} {ch : UInt8} (h : Reads s .ip6 p)
      (hch : isIp6Char ch = true) (hlen : p.host.length ≤ 47) :
      Reads (s ++ [ch]) .ip6 { p with host := p.host ++ [ch] }
  | closed {s : List UInt8} {p : Parts} (h : Reads s .ip6 p) (hlen : p.host.length ≤ 47) :
      Reads (s ++ [0x5d]) .afterHost { p with host := p.host ++ [0x5d] }
  | name {s : List UInt8} {st : UrlSt} {p : Parts} {ch : UInt8} (h : Reads s st p)
      (hst : st = .hostStart ∨ st = .host) (hch : isHostChar ch = true)
      (hlen : p.host.length ≤ 255) : Reads (s ++ [ch]) .host { p with host := p.host ++ [ch] }
  | colon {s : List UInt8} {st : UrlSt} {p : Parts} (h : Reads s st p) (hend : HostEnd st p) :
      Reads (s ++ [0x3a]) (if p.scheme = none then .portOrScheme else .port)
        { p with port := some [] }
  | slash1 {s : List UInt8} {p : Parts} (h : Reads s .portOrScheme p) :
      Reads (s ++ [0x2f]) .schemeSlash2 p
  | slash2 {s : List UInt8} {p : Parts} (h : Reads s .schemeSlash2 p) :
      Reads (s ++ [0x2f]) .hostStart { Parts.empty with scheme := some p.host }
  | digit {s : List UInt8} {st : UrlSt} {p : Parts} {ds : List UInt8} {ch : UInt8}
      (h : Reads s st p) (hst : st = .portOrScheme ∨ st = .port) (hds : p.port = some ds)
      (hch : ffcharIsdigit ch = true) (hval : decVal (ds ++ [ch]) ≤ 0xffff) :
      Reads (s ++ [ch]) .port { p with port := some (ds ++ [ch]) }
  | pathStart {s : List UInt8} {st : UrlSt} {p : Parts} (h : Reads s st p)
      (hst : st = .hostStart ∨ HostEnd st p ∨ st = .port) :
      Reads (s ++ [0x2f]) .path { p with path := [0x2f] }
  | path {s : List UInt8} {p : Parts} {ch : UInt8} (h : Reads s .path p)
      (hch : isPathChar ch = true) : Reads (s ++ [ch]) .path { p with path := p.path ++ [ch] }
  | percent {s : List UInt8} {p : Parts} (h : Reads s .path p) :
      Reads (s ++ [0x25]) .quoted1 { p with path := p.path ++ [0x25] }
  | hex1 {s : List UInt8} {p : Parts} {ch : UInt8} (h : Reads s .quoted1 p)
      (hch : ffcharIshex ch = true) : Reads (s ++ [ch]) .quoted2 { p with path := p.path ++ [ch] }
  | hex2 {s : List UInt8} {p : Parts} {ch : UInt8} (h : Reads s .quoted2 p)
      (hch : ffcharIshex ch = true) : Reads (s ++ [ch]) .path { p with path := p.path ++ [ch] }
  | question {s : List UInt8} {p : Parts} (h : Reads s .path p) :
      Reads (s ++ [0x3f]) .qs { p with query := some [] }
  | qs {s : List UInt8} {p : Parts} {q : List UInt8} {ch : UInt8} (h : Reads s .qs p)
      (hq : p.query = some q) (hch : isQsChar ch = true) :
      Reads (s ++ [ch]) .qs { p with query := some (q ++ [ch]) }

/-- A host in brackets -/
def isBracket (h : List UInt8) : Bool := h.head? == some 0x5b

/-- The parts that there are in a state. -/
def Shape (st : UrlSt) (p : Parts) : Prop :=
  match st with
  | .hostStart => p.host = [] ∧ p.port = none ∧ p.path = [] ∧ p.query = none
  | .host => p.host ≠ [] ∧ isBracket p.host = false ∧ p.port = none ∧ p.path = [] ∧ p.query = none
  | .ip6 | .afterHost => isBracket p.host = true ∧ p.port = none ∧ p.path = [] ∧ p.query = none
  | .portOrScheme | .schemeSlash2 =>
    p.host ≠ [] ∧ p.scheme = none ∧ p.port = some [] ∧ p.path = [] ∧ p.query = none
  | .port => p.host ≠ [] ∧ p.port ≠ none ∧ p.path = [] ∧ p.query = none
  | .pathStart => False
  | .path | .quoted1 | .quoted2 => p.path ≠ [] ∧ p.path.head? = some 0x2f ∧ p.query = none
  | .qs => p.path ≠ [] ∧ p.path.head? = some 0x2f ∧ p.query ≠ none

theorem isHostChar_ne_bracket {ch : UInt8} (h : isHostChar ch = true) : ch ≠ 0x5b := by
  rintro rfl
  exact absurd h (by decide)

/-- **The parts of a state** -/
theorem Reads.shape {s : List UInt8} {st : UrlSt} {p : Parts} (h : Reads s st p) : Shape st p := by
  induction h with
  | start => exact ⟨rfl, rfl, rfl, rfl⟩
  | bracket h ih =>
    obtain ⟨-, h2, h3, h4⟩ := ih
    exact ⟨rfl, h2, h3, h4⟩
  | @ip6 s p ch h hch hlen ih =>
    obtain ⟨h1, h2⟩ := ih
    refine ⟨?_, h2⟩
    cases hh : p.host with
    | nil => rw [hh] at h1; cases h1
    | cons c cs => rw [hh] at h1; exact h1
  | @closed s p h hlen ih =>
    obtain ⟨h1, h2⟩ := ih
    refine ⟨?_, h2⟩
    cases hh : p.host with
    | nil => rw [hh] at h1; cases h1
    | cons c cs => rw [hh] at h1; exact h1
  | @name s st p ch h hst hch hlen ih =>
    have hne := isHostChar_ne_bracket hch
    rcases hst with rfl | rfl
    · obtain ⟨h1, h2⟩ := ih
      refine ⟨by simp, ?_, h2⟩
      rw [h1]
      simp [isBracket, hne]
    · obtain ⟨h1, hb, h2⟩ := ih
      refine ⟨by simp, ?_, h2⟩
      cases hh : p.host with
      | nil => exact absurd hh h1
      | cons c cs => rw [hh] at hb; exact hb
  | @colon s st p h hend ih =>
    have hhost : p.host ≠ [] ∧ p.path = [] ∧ p.query = none := by
      rcases hend with ⟨rfl, -⟩ | rfl
      · exact ⟨ih.1, ih.2.2.2.1, ih.2.2.2.2⟩
      · refine ⟨fun hh => ?_, ih.2.2.1, ih.2.2.2⟩
        have hb := ih.1
        rw [hh] at hb
        cases hb
    by_cases hsch : p.scheme = none
    · rw [if_pos hsch]
      exact ⟨hhost.1, hsch, rfl, hhost.2⟩
    · rw [if_neg hsch]
      exact ⟨hhost.1, by simp, hhost.2⟩
  | slash1 h ih => exact ih
  | slash2 h ih => exact ⟨rfl, rfl, rfl, rfl⟩
  | digit h hst hds hch hval ih =>
    rcases hst with rfl | rfl
    · exact ⟨ih.1, by simp, ih.2.2.2⟩
    · exact ⟨ih.1, by simp, ih.2.2⟩
  | pathStart h hst ih =>
    refine ⟨by simp, rfl, ?_⟩
    rcases hst with rfl | (⟨rfl, -⟩ | rfl) | rfl
    · exact ih.2.2.2
    · exact ih.2.2.2.2
    · exact ih.2.2.2
    · exact ih.2.2.2
  | @path s p ch h hch ih => exact ⟨by simp, by simp [head?_append, ih.2.1], ih.2.2⟩
  | percent h ih => exact ⟨by simp, by simp [head?_append, ih.2.1], ih.2.2⟩
  | hex1 h hch ih => exact ⟨by simp, by simp [head?_append, ih.2.1], ih.2.2⟩
  | hex2 h hch ih => exact ⟨by simp, by simp [head?_append, ih.2.1], ih.2.2⟩
  | question h ih => exact ⟨ih.1, ih.2.1, by simp⟩
  | qs h hq hch ih => exact ⟨ih.1, ih.2.1, by simp⟩

theorem Parts.text_of_query {p : Parts} (h : p.query = none) : p.text = p.front ++ p.path := by
  rw [Parts.text, Parts.queryText, h, append_nil]

theorem Parts.text_of_path {p : Parts} (hp : p.path = []) (hq : p.query = none) :
    p.text = p.schemeText ++ p.host ++ p.portText := by
  rw [Parts.text_of_query hq, hp, append_nil, Parts.front]

theorem Parts.text_of_port {p : Parts} (hport : p.port = none) (hp : p.path = [])
    (hq : p.query = none) : p.text = p.schemeText ++ p.host := by
  rw [Parts.text_of_path hp hq, Parts.portText, hport, append_nil]

theorem Parts.text_host {p : Parts} (ch : UInt8) (hport : p.port = none) (hp : p.path = [])
    (hq : p.query = none) : { p with host := p.host ++ [ch] }.text = p.text ++ [ch] := by
  rw [Parts.text_of_port (p := p) hport hp hq, append_assoc]
  exact Parts.text_of_port hport hp hq

theorem Parts.text_path' {p : Parts} (ch : UInt8) (hq : p.query = none) :
    { p with path := p.path ++ [ch] }.text = p.text ++ [ch] := by
  rw [Parts.text_of_query (p := p) hq, append_assoc]
  exact Parts.text_of_query hq

/-- **What has been read** are the parts, and a slash more in one of the states. -/
theorem Reads.text {s : List UInt8} {st : UrlSt} {p : Parts} (h : Reads s st p) :
    s = p.text ++ if st = .schemeSlash2 then [0x2f] else [] := by
  induction h with
  | start => rfl
  | @bracket s p h ih =>
    obtain ⟨h1, h2, h3, h4⟩ := h.shape
    rw [if_neg (by decide), append_nil] at ih ⊢
    have htext := Parts.text_host (p := p) 0x5b h2 h3 h4
    rw [h1, nil_append] at htext
    rw [ih, htext]
  | ip6 h hch hlen ih =>
    obtain ⟨h1, h2, h3, h4⟩ := h.shape
    rw [if_neg (by decide), append_nil] at ih ⊢
    rw [ih, Parts.text_host _ h2 h3 h4]
  | closed h hlen ih =>
    obtain ⟨h1, h2, h3, h4⟩ := h.shape
    rw [if_neg (by decide), append_nil] at ih ⊢
    rw [ih, Parts.text_host _ h2 h3 h4]
  | name h hst hch hlen ih =>
    rcases hst with rfl | rfl
    · obtain ⟨h1, h2, h3, h4⟩ := h.shape
      rw [if_neg (by decide), append_nil] at ih ⊢
      rw [ih, Parts.text_host _ h2 h3 h4]
    · obtain ⟨-, -, h2, h3, h4⟩ := h.shape
      rw [if_neg (by decide), append_nil] at ih ⊢
      rw [ih, Parts.text_host _ h2 h3 h4]
  | @colon s st p h hend ih =>
    have hno : st ≠ .schemeSlash2 := by rcases hend with ⟨rfl, -⟩ | rfl <;> decide
    have hno' : (if p.scheme = none then UrlSt.portOrScheme else .port) ≠ .schemeSlash2 := by
      split <;> decide
    have hparts : p.port = none ∧ p.path = [] ∧ p.query = none := by
      rcases hend with ⟨rfl, -⟩ | rfl
      · exact h.shape.2.2
      · exact h.shape.2
    obtain ⟨h1, h2, h3⟩ := hparts
    rw [if_neg hno, append_nil] at ih
    rw [if_neg hno', append_nil, ih, Parts.text_of_port h1 h2 h3]
    exact (Parts.text_of_path (p := { p with port := some [] }) h2 h3).symm
  | slash1 h ih =>
    rw [if_neg (by decide), append_nil] at ih
    rw [if_pos rfl, ih]
  | @slash2 s p h ih =>
    obtain ⟨-, h1, h2, h3, h4⟩ := h.shape
    rw [if_pos rfl] at ih
    rw [if_neg (by decide), append_nil, ih, Parts.text_of_path h3 h4]
    simp [Parts.text, Parts.front, Parts.schemeText, Parts.portText, Parts.queryText,
      Parts.empty, h1, h2]
  | @digit s st p ds ch h hst hds hch hval ih =>
    have hno : st ≠ .schemeSlash2 := by rcases hst with rfl | rfl <;> decide
    have hparts : p.path = [] ∧ p.query = none := by
      rcases hst with rfl | rfl
      · exact h.shape.2.2.2
      · exact h.shape.2.2
    rw [if_neg hno, append_nil] at ih
    rw [if_neg (by decide), append_nil, ih, Parts.text_of_path hparts.1 hparts.2,
      Parts.text_of_path (p := { p with port := some (ds ++ [ch]) }) hparts.1 hparts.2]
    simp [Parts.portText, Parts.schemeText, hds]
  | @pathStart s st p h hst ih =>
    have hno : st ≠ .schemeSlash2 := by
      rcases hst with rfl | (⟨rfl, -⟩ | rfl) | rfl <;> decide
    have hparts : p.path = [] ∧ p.query = none := by
      rcases hst with rfl | (⟨rfl, -⟩ | rfl) | rfl
      · exact h.shape.2.2
      · exact h.shape.2.2.2
      · exact h.shape.2.2
      · exact h.shape.2.2
    rw [if_neg hno, append_nil] at ih
    rw [if_neg (by decide), append_nil, ih, Parts.text_of_path hparts.1 hparts.2]
    exact (Parts.text_of_query (p := { p with path := [0x2f] }) hparts.2).symm
  | path h hch ih =>
    rw [if_neg (by decide), append_nil] at ih ⊢
    rw [ih, Parts.text_path' _ h.shape.2.2]
  | percent h ih =>
    rw [if_neg (by decide), append_nil] at ih ⊢
    rw [ih, Parts.text_path' _ h.shape.2.2]
  | hex1 h hch ih =>
    rw [if_neg (by decide), append_nil] at ih ⊢
    rw [ih, Parts.text_path' _ h.shape.2.2]
  | hex2 h hch ih =>
    rw [if_neg (by decide), append_nil] at ih ⊢
    rw [ih, Parts.text_path' _ h.shape.2.2]
  | @question s p h ih =>
    rw [if_neg (by decide), append_nil] at ih ⊢
    rw [ih, Parts.text_of_query h.shape.2.2]
    rfl
  | @qs s p q ch h hq hch ih =>
    rw [if_neg (by decide), append_nil] at ih ⊢
    rw [ih]
    simp [Parts.text, Parts.front, Parts.queryText, Parts.schemeText, Parts.portText, hq]

/-! ### The object of the parser -/

/-- A host of digits and dots that begins with a digit. -/
def isIp4 (h : List UInt8) : Bool :=
  h.head?.any ffcharIsdigit && h.all fun ch => ffcharIsdigit ch || ch == 0x2e

/-- The flag for IPv4 behind a host, if it was `old` in front of it. -/
def flagIp4 (old : Bool) (h : List UInt8) : Bool :=
  if h = [] || isBracket h then old
  else (old || h.head?.any ffcharIsdigit) && h.all fun ch => ffcharIsdigit ch || ch == 0x2e

/-- The flag for IPv4 that the scheme leaves behind. -/
def Parts.schemeIp4 (p : Parts) : Bool :=
  match p.scheme with
  | none => false
  | some a => flagIp4 false a

/-- The flag for IPv6 that the scheme leaves behind. -/
def Parts.schemeIp6 (p : Parts) : Bool :=
  match p.scheme with
  | none => false
  | some a => isBracket a

/-- **The fields of the object** for a text that has been read. -/
structure Enc (st : UrlSt) (p : Parts) (u : Ffurl) : Prop where
  idx : u.idx = st
  offhost : u.offhost = p.schemeText.length
  hostlen : u.hostlen = p.host.length % 2 ^ 8
  port : u.port = decVal (p.port.getD [])
  portlen : u.portlen = (p.port.getD []).length % 2 ^ 8
  offpath : p.path ≠ [] → u.offpath = p.front.length
  pathlen : u.pathlen = p.path.length
  querystr : u.querystr = p.query.any fun q => q ≠ []
  ipv4 : u.ipv4 = flagIp4 p.schemeIp4 p.host
  ipv6 : u.ipv6 = (p.schemeIp6 || isBracket p.host)

theorem urlRun_snoc {s : List UInt8} {u : Ffurl} (h : urlRun s = (none, u, s)) (ch : UInt8) :
    urlRun (s ++ [ch]) = match urlStep u s ch with
      | .ok u' => (none, u', s ++ [ch])
      | .error (e, u') => (some e, u', s) := by
  have happ := urlLoop_append ffurlInit [] s [ch] (congrArg Prod.fst h)
  have hu : (urlLoop ffurlInit [] s).2.1 = u := congrArg (fun r => r.2.1) h
  rw [urlRun, happ, hu, nil_append, urlLoop]
  cases urlStep u s ch <;> rfl

/-- The parser has read a text. -/
def Ran (s : List UInt8) (st : UrlSt) (p : Parts) : Prop :=
  ∃ u, urlRun s = (none, u, s) ∧ Enc st p u

theorem Ran.step {s : List UInt8} {st st' : UrlSt} {p p' : Parts} {ch : UInt8} (h : Ran s st p)
    (hstep : ∀ u, Enc st p u → ∃ u', urlStep u s ch = .ok u' ∧ Enc st' p' u') :
    Ran (s ++ [ch]) st' p' := by
  obtain ⟨u, hrun, henc⟩ := h
  obtain ⟨u', hu', henc'⟩ := hstep u henc
  refine ⟨u', ?_, henc'⟩
  rw [urlRun_snoc hrun, hu']

theorem Reads.length_host {s : List UInt8} {st : UrlSt} {p : Parts} (h : Reads s st p)
    (hno : st ≠ .schemeSlash2) (hport : p.port = none) (hpath : p.path = [])
    (hquery : p.query = none) : s.length - p.schemeText.length = p.host.length := by
  have htext := h.text
  rw [if_neg hno, append_nil, Parts.text_of_port hport hpath hquery] at htext
  rw [htext, length_append]
  omega

theorem Reads.length_path {s : List UInt8} {st : UrlSt} {p : Parts} (h : Reads s st p)
    (hno : st ≠ .schemeSlash2) : p.path.length ≤ s.length := by
  have htext := h.text
  rw [if_neg hno, append_nil, Parts.text] at htext
  rw [htext, length_append, length_append]
  omega

theorem flagIp4_bracket (old : Bool) {h : List UInt8} (hb : isBracket h = true) :
    flagIp4 old h = old := by simp [flagIp4, hb]

theorem isBracket_append {h : List UInt8} (hne : h ≠ []) (t : List UInt8) :
    isBracket (h ++ t) = isBracket h := by
  cases h with
  | nil => exact absurd rfl hne
  | cons c cs => rfl

theorem flagIp4_append (old : Bool) {h : List UInt8} (hne : h ≠ []) (hb : isBracket h = false)
    (ch : UInt8) :
    flagIp4 old (h ++ [ch]) = (flagIp4 old h && (ffcharIsdigit ch || ch == 0x2e)) := by
  cases h with
  | nil => exact absurd rfl hne
  | cons c cs =>
    have hb' := isBracket_append (cons_ne_nil c cs) [ch]
    simp only [flagIp4, hb, hb', append_eq_nil_iff, cons_ne_nil, false_and, decide_false,
      Bool.or_self, Bool.false_eq_true, if_false, head?_append, head?_cons,
      some_or, all_append, all_cons, all_nil, Bool.and_true, Bool.and_assoc]

section Steps

variable {s : List UInt8} {st : UrlSt} {p : Parts} {ch : UInt8} {u : Ffurl}

theorem mod_succ {n a : ℕ} (h : a = n % 2 ^ 8) : (a + 1) % 2 ^ 8 = (n + 1) % 2 ^ 8 := by omega

theorem enc_start : Enc .hostStart .empty ffurlInit where
  idx := rfl
  offhost := rfl
  hostlen := rfl
  port := rfl
  portlen := rfl
  offpath := fun h => absurd rfl h
  pathlen := rfl
  querystr := rfl
  ipv4 := rfl
  ipv6 := rfl

theorem Enc.addBracket (hu : Enc st p u) (st' : UrlSt) (hb : isBracket (p.host ++ [ch]) = true)
    (hold : p.host = [] ∨ isBracket p.host = true) (hp : p.path = []) :
    Enc st' { p with host := p.host ++ [ch] }
      { u with idx := st', hostlen := (u.hostlen + 1) % 2 ^ 8, ipv6 := true } where
  idx := rfl
  offhost := hu.offhost
  hostlen := by
    rw [length_append]
    exact mod_succ hu.hostlen
  port := hu.port
  portlen := hu.portlen
  offpath := fun h => absurd hp h
  pathlen := hu.pathlen
  querystr := hu.querystr
  ipv4 := by
    have hflag : flagIp4 p.schemeIp4 p.host = p.schemeIp4 := by
      rcases hold with h | h
      · simp [flagIp4, h]
      · exact flagIp4_bracket _ h
    rw [flagIp4_bracket _ hb]
    exact hu.ipv4.trans hflag
  ipv6 := by rw [hb, Bool.or_true]

theorem Enc.addName (hu : Enc st p u) (hch : isHostChar ch = true)
    (hold : p.host = [] ∨ isBracket p.host = false) (hp : p.path = []) {old : Bool}
    (hip4 : old = (u.ipv4 || (p.host = [] && ffcharIsdigit ch))) :
    Enc .host { p with host := p.host ++ [ch] }
      { u with
        idx := .host
        ipv4 := old && (ffcharIsdigit ch || ch == 0x2e)
        hostlen := (u.hostlen + 1) % 2 ^ 8 } where
  idx := rfl
  offhost := hu.offhost
  hostlen := by
    rw [length_append]
    exact mod_succ hu.hostlen
  port := hu.port
  portlen := hu.portlen
  offpath := fun h => absurd hp h
  pathlen := hu.pathlen
  querystr := hu.querystr
  ipv4 := by
    show (old && _) = flagIp4 p.schemeIp4 (p.host ++ [ch])
    rw [hip4, hu.ipv4]
    by_cases hnil : p.host = []
    · simp [hnil, flagIp4, isBracket, isHostChar_ne_bracket hch]
    · have hb := hold.resolve_left hnil
      rw [flagIp4_append _ hnil hb]
      simp [hnil]
  ipv6 := by
    have hb : isBracket (p.host ++ [ch]) = isBracket p.host := by
      by_cases hnil : p.host = []
      · rw [hnil, nil_append]
        simp [isBracket, isHostChar_ne_bracket hch]
      · exact isBracket_append hnil [ch]
    rw [hb]
    exact hu.ipv6

theorem Enc.addPath (hu : Enc st p u) (st' : UrlSt) (hne : p.path ≠ [])
    (hlen : p.path.length + 1 < 2 ^ 16) (complex : Bool) (dec : ℕ) :
    Enc st' { p with path := p.path ++ [ch] }
      { u with
        idx := st'
        complex := complex
        decodedPathlen := dec
        pathlen := (u.pathlen + 1) % 2 ^ 16 } where
  idx := rfl
  offhost := hu.offhost
  hostlen := hu.hostlen
  port := hu.port
  portlen := hu.portlen
  offpath := fun _ => hu.offpath hne
  pathlen := by
    rw [length_append]
    show (u.pathlen + 1) % 2 ^ 16 = p.path.length + 1
    rw [hu.pathlen, Nat.mod_eq_of_lt hlen]
  querystr := hu.querystr
  ipv4 := hu.ipv4
  ipv6 := hu.ipv6

theorem HostEnd.hostlen (hend : HostEnd st p) (hs : Shape st p) (hu : Enc st p u)
    (hst : st = .host) : u.hostlen ≠ 0 := by
  subst hst
  obtain ⟨-, hlen⟩ | hno := hend
  · have hpos := length_pos_of_ne_nil hs.1
    rw [hu.hostlen, Nat.mod_eq_of_lt (by omega)]
    omega
  · cases hno

theorem Enc.startPath (hu : Enc st p u) (hp : p.path = []) (hlen : p.front.length < 2 ^ 16)
    (complex : Bool) (dec : ℕ) :
    Enc .path { p with path := [0x2f] }
      { u with
        idx := .path
        offpath := p.front.length % 2 ^ 16
        complex := complex
        decodedPathlen := dec
        pathlen := (u.pathlen + 1) % 2 ^ 16 } where
  idx := rfl
  offhost := hu.offhost
  hostlen := hu.hostlen
  port := hu.port
  portlen := hu.portlen
  offpath := fun _ => Nat.mod_eq_of_lt hlen
  pathlen := by
    rw [hu.pathlen, hp]
    rfl
  querystr := hu.querystr
  ipv4 := hu.ipv4
  ipv6 := hu.ipv6

theorem stPathStart_slash (u : Ffurl) (pre : List UInt8) :
    stPathStart u pre 0x2f = .ok { u with
      idx := .path
      offpath := pre.length % 2 ^ 16
      complex := u.complex || pre.getLast? = some 0x2f
      decodedPathlen := (u.decodedPathlen + 1) % 2 ^ 16
      pathlen := (u.pathlen + 1) % 2 ^ 16 } := rfl

/-- The end of a host is seen by `iAfterHost`. -/
theorem HostEnd.step (hend : HostEnd st p) (hs : Shape st p) (hu : Enc st p u)
    (hch : isHostChar ch = false) : urlStep u s ch = stAfterHost u s ch := by
  have hcase := hend
  rcases hcase with ⟨rfl, -⟩ | rfl
  · rw [urlStep, hu.idx]
    show (if _ then _ else if _ then _ else _) = _
    rw [if_neg (by rw [hch]; exact Bool.false_ne_true), if_neg (hend.hostlen hs hu rfl)]
  · rw [urlStep, hu.idx]

end Steps

/-- **What the grammar reads, the parser reads**, with the fields of the parts. -/
theorem Reads.ran {s : List UInt8} {st : UrlSt} {p : Parts} (h : Reads s st p)
    (hlen : s.length < 2 ^ 16) : Ran s st p := by
  induction h with
  | start => exact ⟨ffurlInit, rfl, enc_start⟩
  | @bracket s p h ih =>
    obtain ⟨h1, h2, h3, h4⟩ := h.shape
    rw [length_append] at hlen
    refine (ih (by omega)).step fun u hu => ⟨_, by rw [urlStep, hu.idx]; rfl, ?_⟩
    have henc := @Enc.addBracket _ _ 0x5b _ hu .ip6 (by rw [h1]; rfl) (.inl h1) h3
    rwa [h1, nil_append] at henc
  | @ip6 s p ch h hch hhost ih =>
    obtain ⟨h1, h2, h3, h4⟩ := h.shape
    rw [length_append] at hlen
    have hne : p.host ≠ [] := fun hh => by rw [hh] at h1; cases h1
    refine (ih (by omega)).step fun u hu => ⟨_, ?_, @Enc.addBracket _ _ ch _ hu .ip6
      (by rw [isBracket_append hne]; exact h1) (.inr h1) h3⟩
    have hdist := h.length_host (by decide) h2 h3 h4
    have h6 : u.ipv6 = true := by rw [hu.ipv6, h1, Bool.or_true]
    have hclose : ch ≠ 0x5d := by
      rintro rfl
      exact absurd hch (by decide)
    rw [urlStep, hu.idx]
    show (if _ then _ else if _ then _ else if _ then _ else _) = _
    rw [hu.offhost, hdist, if_neg (by omega), if_neg hclose, if_pos hch, ← hu.idx, ← h6]
  | @closed s p h hhost ih =>
    obtain ⟨h1, h2, h3, h4⟩ := h.shape
    rw [length_append] at hlen
    have hne : p.host ≠ [] := fun hh => by rw [hh] at h1; cases h1
    refine (ih (by omega)).step fun u hu => ⟨_, ?_, @Enc.addBracket _ _ 0x5d _ hu .afterHost
      (by rw [isBracket_append hne]; exact h1) (.inr h1) h3⟩
    have hdist := h.length_host (by decide) h2 h3 h4
    have h6 : u.ipv6 = true := by rw [hu.ipv6, h1, Bool.or_true]
    rw [urlStep, hu.idx]
    show (if _ then _ else if _ then _ else if _ then _ else _) = _
    rw [hu.offhost, hdist, if_neg (by omega), if_pos rfl, ← h6]
  | @name s st p ch h hst hch hhost ih =>
    rw [length_append] at hlen
    have hparts : st ≠ .schemeSlash2 ∧ p.port = none ∧ p.path = [] ∧ p.query = none ∧
        (p.host = [] ∨ isBracket p.host = false) := by
      rcases hst with rfl | rfl
      · obtain ⟨h1, h2, h3, h4⟩ := h.shape
        exact ⟨by decide, h2, h3, h4, .inl h1⟩
      · obtain ⟨-, h1, h2, h3, h4⟩ := h.shape
        exact ⟨by decide, h2, h3, h4, .inr h1⟩
    obtain ⟨hno, h2, h3, h4, hold⟩ := hparts
    refine (ih (by omega)).step fun u hu => ⟨_, ?_, hu.addName hch hold h3 rfl⟩
    have hdist := h.length_host hno h2 h3 h4
    have hname : ∀ v : Ffurl, v.offhost = u.offhost → stHost v s ch = .ok { v with
        idx := .host
        ipv4 := v.ipv4 && (ffcharIsdigit ch || ch == 0x2e)
        hostlen := (v.hostlen + 1) % 2 ^ 8 } := by
      intro v hv
      show (if _ then (if _ then _ else _) else _) = _
      rw [if_pos hch, hv, hu.offhost, hdist, if_neg (by omega)]
    rcases hst with rfl | rfl
    · obtain ⟨h1, -⟩ := h.shape
      have hslash : ch ≠ 0x2f := by
        rintro rfl
        exact absurd hch (by decide)
      rw [urlStep, hu.idx]
      show (if _ then _ else if _ then _ else if _ then _ else _) = _
      rw [if_neg (isHostChar_ne_bracket hch)]
      by_cases hd : ffcharIsdigit ch = true
      · rw [if_pos hd, hname { u with ipv4 := true } rfl, hd, h1]
        simp
      · rw [if_neg hd, if_neg hslash, hname u rfl]
        simp [hd]
    · obtain ⟨h1, -⟩ := h.shape
      rw [urlStep, hu.idx]
      rw [hname u rfl]
      simp [h1]
  | @colon s st p h hend ih =>
    rw [length_append] at hlen
    have hparts : p.port = none ∧ p.path = [] := by
      rcases hend with ⟨rfl, -⟩ | rfl
      · exact ⟨h.shape.2.2.1, h.shape.2.2.2.1⟩
      · exact ⟨h.shape.2.1, h.shape.2.2.1⟩
    refine (ih (by omega)).step fun u hu => ⟨_, (hend.step h.shape hu (by decide)).trans rfl, ?_⟩
    have hoff : u.offhost = 0 ↔ p.scheme = none := by
      rw [hu.offhost, Parts.schemeText]
      cases p.scheme <;> simp
    have hidx : (if u.offhost = 0 then UrlSt.portOrScheme else .port) =
        if p.scheme = none then .portOrScheme else .port := if_congr hoff rfl rfl
    have hport := hu.port
    have hportlen := hu.portlen
    rw [hparts.1] at hport hportlen
    exact { hu with
      idx := hidx
      port := hport
      portlen := hportlen
      offpath := fun hne => absurd hparts.2 hne }
  | @slash1 s p h ih =>
    rw [length_append] at hlen
    refine (ih (by omega)).step fun u hu => ⟨_, by rw [urlStep, hu.idx]; rfl, ?_⟩
    exact { hu with idx := rfl }
  | @slash2 s p h ih =>
    obtain ⟨-, h1, h2, h3, h4⟩ := h.shape
    rw [length_append] at hlen
    have hslen : s.length = p.host.length + 2 := by
      have htext := h.text
      rw [if_pos rfl, Parts.text_of_path h3 h4] at htext
      rw [htext]
      simp [Parts.schemeText, Parts.portText, h1, h2]
    have hone : [(0x2f : UInt8)].length = 1 := rfl
    refine (ih (by omega)).step fun u hu => ⟨_, by rw [urlStep, hu.idx]; rfl, ?_⟩
    have hport := hu.port
    have hportlen := hu.portlen
    have hquery := hu.querystr
    have hpathlen := hu.pathlen
    have hip4 := hu.ipv4
    have hip6 := hu.ipv6
    rw [h2] at hport hportlen
    rw [h3] at hpathlen
    rw [h4] at hquery
    rw [Parts.schemeIp4, h1] at hip4
    rw [Parts.schemeIp6, h1, Bool.false_or] at hip6
    constructor
    · rfl
    · show (s.length % 2 ^ 16 + 1) % 2 ^ 16 = (p.host ++ [0x3a, 0x2f, 0x2f]).length
      rw [length_append, Nat.mod_eq_of_lt (by omega), Nat.mod_eq_of_lt (by omega), hslen]
      rfl
    · rfl
    · exact hport
    · exact hportlen
    · exact fun hne => absurd rfl hne
    · exact hpathlen
    · exact hquery
    · exact hip4
    · show u.ipv6 = (isBracket p.host || isBracket [])
      rw [hip6]
      simp [isBracket]
  | @digit s st p ds ch h hst hds hch hval ih =>
    rw [length_append] at hlen
    refine (ih (by omega)).step fun u hu => ⟨{ u with
      idx := .port
      port := u.port * 10 + (ch.toNat - 0x30)
      portlen := (u.portlen + 1) % 2 ^ 8 }, ?_, ?_⟩
    · have hport := hu.port
      rw [hds, getD_some] at hport
      rw [decVal_append, ← hport] at hval
      have hstep : stPort u s ch = .ok { u with
          idx := .port
          port := u.port * 10 + (ch.toNat - 0x30)
          portlen := (u.portlen + 1) % 2 ^ 8 } := by
        show (if _ then (if _ then _ else _) else _) = _
        rw [if_pos hch, if_neg (by omega)]
      rcases hst with rfl | rfl
      · have hslash : ch ≠ 0x2f := by
          rintro rfl
          exact absurd hch (by decide)
        rw [urlStep, hu.idx]
        show (if _ then _ else _) = _
        rw [if_neg hslash, hstep]
      · rw [urlStep, hu.idx]
        exact hstep
    have hport := hu.port
    have hportlen := hu.portlen
    have hpath : p.path = [] := by
      rcases hst with rfl | rfl
      · exact h.shape.2.2.2.1
      · exact h.shape.2.2.1
    rw [hds, getD_some] at hport hportlen
    exact { hu with
      idx := rfl
      port := by
        show u.port * 10 + (ch.toNat - 0x30) = decVal (ds ++ [ch])
        rw [decVal_append, hport]
      portlen := by
        show (u.portlen + 1) % 2 ^ 8 = (ds ++ [ch]).length % 2 ^ 8
        rw [length_append]
        exact mod_succ hportlen
      offpath := fun hne => absurd hpath hne }
  | @pathStart s st p h hst ih =>
    rw [length_append] at hlen
    have hparts : st ≠ .schemeSlash2 ∧ p.path = [] ∧ p.query = none := by
      rcases hst with rfl | (⟨rfl, -⟩ | rfl) | rfl
      · exact ⟨by decide, h.shape.2.2⟩
      · exact ⟨by decide, h.shape.2.2.2⟩
      · exact ⟨by decide, h.shape.2.2⟩
      · exact ⟨by decide, h.shape.2.2⟩
    obtain ⟨hno, hp, hq⟩ := hparts
    have hfront : s = p.front := by
      have htext := h.text
      rwa [if_neg hno, append_nil, Parts.text_of_query hq, hp, append_nil] at htext
    refine (ih (by omega)).step fun u hu => ⟨_, ?_, hu.startPath hp (by rw [← hfront]; omega)
      (u.complex || s.getLast? = some 0x2f) ((u.decodedPathlen + 1) % 2 ^ 16)⟩
    have hslash := stPathStart_slash u s
    rw [← hfront, ← hslash]
    rcases hst with rfl | hend | rfl
    · rw [urlStep, hu.idx]
      rfl
    · exact hend.step h.shape hu (by decide)
    · rw [urlStep, hu.idx]
      rfl
  | @path s p ch h hch ih =>
    have hplen := h.length_path (by decide)
    rw [length_append] at hlen
    have hone : [ch].length = 1 := rfl
    refine (ih (by omega)).step fun u hu => ?_
    have hadd := fun c d => @Enc.addPath _ _ ch _ hu .path h.shape.1 (by omega) c d
    simp only [isPathChar, Bool.and_eq_true, Bool.not_eq_true', bne_iff_ne, ne_eq] at hch
    obtain ⟨⟨⟨hwhite, hhash⟩, hpercent⟩, hquestion⟩ := hch
    rw [urlStep, hu.idx]
    by_cases hslash : ch = 0x2f ∨ ch = 0x2e
    · refine ⟨_, ?_, hadd (u.complex || s.getLast? = some 0x2f) ((u.decodedPathlen + 1) % 2 ^ 16)⟩
      show (if _ then _ else if _ then _ else if _ then _ else _) = _
      rw [if_neg hpercent, if_neg hquestion, if_pos hslash, ← hu.idx]
      rfl
    refine ⟨_, ?_, hadd u.complex ((u.decodedPathlen + 1) % 2 ^ 16)⟩
    show (if _ then _ else if _ then _ else if _ then _ else if _ then _ else _) = _
    have hstop : ¬(ffcharIsansiwhite ch = true ∨ ch = 0x23) := by
      rintro (hw | hh)
      · rw [hwhite] at hw
        cases hw
      · exact hhash hh
    rw [if_neg hpercent, if_neg hquestion, if_neg hslash, if_neg hstop, ← hu.idx]
    rfl
  | @percent s p h ih =>
    have hplen := h.length_path (by decide)
    rw [length_append] at hlen
    have hone : [(0x25 : UInt8)].length = 1 := rfl
    refine (ih (by omega)).step fun u hu => ⟨_, by rw [urlStep, hu.idx]; rfl, ?_⟩
    exact hu.addPath .quoted1 h.shape.1 (by omega) true ((u.decodedPathlen + 1) % 2 ^ 16)
  | @hex1 s p ch h hch ih =>
    have hplen := h.length_path (by decide)
    rw [length_append] at hlen
    have hone : [ch].length = 1 := rfl
    refine (ih (by omega)).step fun u hu => ⟨_, ?_, @Enc.addPath _ _ ch _ hu .quoted2 h.shape.1
      (by omega) u.complex u.decodedPathlen⟩
    rw [urlStep, hu.idx]
    exact if_pos hch
  | @hex2 s p ch h hch ih =>
    have hplen := h.length_path (by decide)
    rw [length_append] at hlen
    have hone : [ch].length = 1 := rfl
    refine (ih (by omega)).step fun u hu => ⟨_, ?_, @Enc.addPath _ _ ch _ hu .path h.shape.1
      (by omega) u.complex u.decodedPathlen⟩
    rw [urlStep, hu.idx]
    exact if_pos hch
  | @question s p h ih =>
    rw [length_append] at hlen
    refine (ih (by omega)).step fun u hu => ⟨_, by rw [urlStep, hu.idx]; rfl, ?_⟩
    have hquery := hu.querystr
    rw [h.shape.2.2] at hquery
    exact { hu with
      idx := rfl
      querystr := hquery }
  | @qs s p q ch h hq hch ih =>
    rw [length_append] at hlen
    simp only [isQsChar, Bool.and_eq_true, Bool.not_eq_true', bne_iff_ne, ne_eq] at hch
    refine (ih (by omega)).step fun u hu => ⟨{ u with querystr := true }, ?_, ?_⟩
    · have hstop : ¬(ffcharIsansiwhite ch = true ∨ ch = 0x23) := by
        rintro (hw | hh)
        · rw [hch.1] at hw
          cases hw
        · exact hch.2 hh
      have hstep : urlStep u s ch = stQs u ch := by rw [urlStep, hu.idx]
      exact hstep.trans (if_neg hstop)
    · exact { hu with
        querystr := by simp }

/-! ### What the parser reads -/

section Steps

variable {s : List UInt8} {st : UrlSt} {p : Parts} {ch : UInt8} {u u' : Ffurl}

theorem stPathStart_ok (h : stPathStart u s ch = .ok u') : ch = 0x2f ∧ u'.idx = .path := by
  by_cases hch : ch = 0x2f
  · subst hch
    rw [stPathStart_slash] at h
    cases h
    exact ⟨rfl, rfl⟩
  · rw [stPathStart, if_pos hch] at h
    cases h

theorem Reads.host_le (h : Reads s st p) (hst : st = .host) : p.host.length ≤ 256 := by
  cases h with
  | name h _ hch hlen =>
    rw [length_append, length_singleton]
    omega
  | @colon s st p h hend =>
    by_cases hsch : p.scheme = none
    · rw [if_pos hsch] at hst
      cases hst
    · rw [if_neg hsch] at hst
      cases hst
  | _ => cases hst

theorem stAfterHost_reads (h : Reads s st p) (hend : HostEnd st p) (hu : Enc st p u)
    (hstep : stAfterHost u s ch = .ok u') : ∃ p', Reads (s ++ [ch]) u'.idx p' := by
  by_cases hch : ch = 0x3a
  · subst hch
    have hoff : u.offhost = 0 ↔ p.scheme = none := by
      rw [hu.offhost, Parts.schemeText]
      cases p.scheme <;> simp
    have hidx : (if u.offhost = 0 then UrlSt.portOrScheme else UrlSt.port) =
        if p.scheme = none then UrlSt.portOrScheme else UrlSt.port := if_congr hoff rfl rfl
    have hread := h.colon hend
    rw [← hidx] at hread
    rw [stAfterHost, if_pos rfl] at hstep
    cases hstep
    exact ⟨_, hread⟩
  · rw [stAfterHost, if_neg hch] at hstep
    obtain ⟨rfl, hidx⟩ := stPathStart_ok hstep
    rw [hidx]
    exact ⟨_, h.pathStart (.inr (.inl hend))⟩

theorem stHost_reads (h : Reads s st p) (hst : st = .hostStart ∨ st = .host) (hu : Enc st p u)
    {v : Ffurl} (hoff : v.offhost = u.offhost) (hch : isHostChar ch = true)
    (hstep : stHost v s ch = .ok u') : ∃ p', Reads (s ++ [ch]) u'.idx p' := by
  have hdist : s.length - p.schemeText.length = p.host.length := by
    rcases hst with rfl | rfl
    · obtain ⟨-, h2, h3, h4⟩ := h.shape
      exact h.length_host (by decide) h2 h3 h4
    · obtain ⟨-, -, h2, h3, h4⟩ := h.shape
      exact h.length_host (by decide) h2 h3 h4
  rw [stHost, if_pos hch, hoff, hu.offhost, hdist] at hstep
  by_cases hlen : p.host.length > 0xff
  · rw [if_pos hlen] at hstep
    cases hstep
  · rw [if_neg hlen] at hstep
    cases hstep
    exact ⟨_, h.name hst hch (by omega)⟩

theorem stPort_reads {ds : List UInt8} (h : Reads s st p)
    (hst : st = .portOrScheme ∧ ch ≠ 0x2f ∨ st = .port) (hds : p.port = some ds) (hu : Enc st p u)
    (hstep : stPort u s ch = .ok u') : ∃ p', Reads (s ++ [ch]) u'.idx p' := by
  rw [stPort] at hstep
  by_cases hd : ffcharIsdigit ch = true
  · have hport := hu.port
    rw [hds, getD_some] at hport
    rw [if_pos hd, hport, ← decVal_append] at hstep
    by_cases hval : decVal (ds ++ [ch]) > 0xffff
    · rw [if_pos hval] at hstep
      cases hstep
    · rw [if_neg hval] at hstep
      cases hstep
      exact ⟨_, h.digit (hst.imp_left And.left) hds hd (by omega)⟩
  rw [if_neg hd] at hstep
  obtain ⟨rfl, hidx⟩ := stPathStart_ok hstep
  rcases hst with ⟨-, hno⟩ | rfl
  · exact absurd rfl hno
  · rw [hidx]
    exact ⟨_, h.pathStart (.inr (.inr rfl))⟩

theorem stPath_reads (h : Reads s .path p) (hu : Enc .path p u) (hstep : stPath u s ch = .ok u') :
    ∃ p', Reads (s ++ [ch]) u'.idx p' := by
  rw [stPath] at hstep
  by_cases hpercent : ch = 0x25
  · rw [if_pos hpercent] at hstep
    cases hstep
    rw [hpercent]
    exact ⟨_, h.percent⟩
  rw [if_neg hpercent] at hstep
  by_cases hquestion : ch = 0x3f
  · rw [if_pos hquestion] at hstep
    cases hstep
    rw [hquestion]
    exact ⟨_, h.question⟩
  rw [if_neg hquestion] at hstep
  by_cases hslash : ch = 0x2f ∨ ch = 0x2e
  · rw [if_pos hslash] at hstep
    cases hstep
    have hch : isPathChar ch = true := by rcases hslash with rfl | rfl <;> decide
    exact ⟨_, hu.idx.symm ▸ h.path hch⟩
  rw [if_neg hslash] at hstep
  by_cases hstop : ffcharIsansiwhite ch = true ∨ ch = 0x23
  · rw [if_pos hstop] at hstep
    cases hstep
  rw [if_neg hstop] at hstep
  cases hstep
  have hch : isPathChar ch = true := by
    rw [not_or] at hstop
    simp [isPathChar, hpercent, hquestion, hstop]
  exact ⟨_, hu.idx.symm ▸ h.path hch⟩

/-- **A byte that the parser reads, the grammar reads.** -/
theorem Reads.snoc (h : Reads s st p) (hu : Enc st p u) (hstep : urlStep u s ch = .ok u') :
    ∃ p', Reads (s ++ [ch]) u'.idx p' := by
  cases st with
  | hostStart =>
    obtain ⟨h1, -⟩ := h.shape
    have h0 : u.hostlen = 0 := by
      rw [hu.hostlen, h1]
      rfl
    have hname : ∀ v : Ffurl, v.offhost = u.offhost → v.hostlen = u.hostlen →
        stHost v s ch = .ok u' → ∃ p', Reads (s ++ [ch]) u'.idx p' := by
      intro v hoff hlen hv
      by_cases hch : isHostChar ch = true
      · exact stHost_reads h (.inl rfl) hu hoff hch hv
      · rw [stHost, if_neg hch, hlen, if_pos h0] at hv
        cases hv
    rw [urlStep, hu.idx] at hstep
    simp only [stHostStart] at hstep
    by_cases hbracket : ch = 0x5b
    · rw [if_pos hbracket] at hstep
      cases hstep
      rw [hbracket]
      exact ⟨_, h.bracket⟩
    rw [if_neg hbracket] at hstep
    by_cases hd : ffcharIsdigit ch = true
    · rw [if_pos hd] at hstep
      exact hname { u with ipv4 := true } rfl rfl hstep
    rw [if_neg hd] at hstep
    by_cases hslash : ch = 0x2f
    · rw [if_pos hslash] at hstep
      obtain ⟨rfl, hidx⟩ := stPathStart_ok hstep
      rw [hidx]
      exact ⟨_, h.pathStart (.inl rfl)⟩
    · rw [if_neg hslash] at hstep
      exact hname u rfl rfl hstep
  | host =>
    rw [urlStep, hu.idx] at hstep
    by_cases hch : isHostChar ch = true
    · exact stHost_reads h (.inr rfl) hu rfl hch hstep
    rw [stHost, if_neg hch] at hstep
    by_cases h0 : u.hostlen = 0
    · rw [if_pos h0] at hstep
      cases hstep
    rw [if_neg h0] at hstep
    have hle := h.host_le rfl
    have hlen : p.host.length ≤ 255 := by
      rw [hu.hostlen] at h0
      by_contra hgt
      have h256 : p.host.length = 256 := by omega
      rw [h256] at h0
      exact h0 rfl
    exact stAfterHost_reads h (.inl ⟨rfl, hlen⟩) hu hstep
  | ip6 =>
    obtain ⟨-, h2, h3, h4⟩ := h.shape
    have hdist := h.length_host (by decide) h2 h3 h4
    rw [urlStep, hu.idx] at hstep
    simp only [stIp6] at hstep
    rw [hu.offhost, hdist] at hstep
    by_cases hlen : p.host.length > 47
    · rw [if_pos hlen] at hstep
      cases hstep
    rw [if_neg hlen] at hstep
    by_cases hclose : ch = 0x5d
    · rw [if_pos hclose] at hstep
      cases hstep
      rw [hclose]
      exact ⟨_, h.closed (by omega)⟩
    rw [if_neg hclose] at hstep
    by_cases hch : isIp6Char ch = true
    · rw [if_pos hch] at hstep
      cases hstep
      exact ⟨_, hu.idx.symm ▸ h.ip6 hch (by omega)⟩
    · rw [if_neg hch] at hstep
      cases hstep
  | afterHost =>
    rw [urlStep, hu.idx] at hstep
    exact stAfterHost_reads h (.inr rfl) hu hstep
  | port =>
    rw [urlStep, hu.idx] at hstep
    obtain ⟨-, hport, -⟩ := h.shape
    obtain ⟨ds, hds⟩ := ne_none_iff_exists'.mp hport
    exact stPort_reads h (.inr rfl) hds hu hstep
  | pathStart => exact h.shape.elim
  | path =>
    rw [urlStep, hu.idx] at hstep
    exact stPath_reads h hu hstep
  | quoted1 =>
    rw [urlStep, hu.idx] at hstep
    simp only [stQuoted] at hstep
    by_cases hch : ffcharIshex ch = true
    · rw [if_pos hch] at hstep
      cases hstep
      exact ⟨_, h.hex1 hch⟩
    · rw [if_neg hch] at hstep
      cases hstep
  | quoted2 =>
    rw [urlStep, hu.idx] at hstep
    simp only [stQuoted] at hstep
    by_cases hch : ffcharIshex ch = true
    · rw [if_pos hch] at hstep
      cases hstep
      exact ⟨_, h.hex2 hch⟩
    · rw [if_neg hch] at hstep
      cases hstep
  | qs =>
    rw [urlStep, hu.idx] at hstep
    simp only [stQs] at hstep
    by_cases hstop : ffcharIsansiwhite ch = true ∨ ch = 0x23
    · rw [if_pos hstop] at hstep
      cases hstep
    rw [if_neg hstop] at hstep
    cases hstep
    obtain ⟨-, -, hquery⟩ := h.shape
    obtain ⟨q, hq⟩ := ne_none_iff_exists'.mp hquery
    have hch : isQsChar ch = true := by
      rw [not_or] at hstop
      simp [isQsChar, hstop]
    exact ⟨_, hu.idx.symm ▸ h.qs hq hch⟩
  | portOrScheme =>
    rw [urlStep, hu.idx] at hstep
    simp only [stPortOrScheme] at hstep
    by_cases hslash : ch = 0x2f
    · rw [if_pos hslash] at hstep
      cases hstep
      rw [hslash]
      exact ⟨_, h.slash1⟩
    · rw [if_neg hslash] at hstep
      exact stPort_reads h (.inl ⟨rfl, hslash⟩) h.shape.2.2.1 hu hstep
  | schemeSlash2 =>
    rw [urlStep, hu.idx] at hstep
    simp only [stSchemeSlash2] at hstep
    by_cases hslash : ch = 0x2f
    · rw [if_neg (not_not.mpr hslash)] at hstep
      cases hstep
      rw [hslash]
      exact ⟨_, h.slash2⟩
    · rw [if_pos hslash] at hstep
      cases hstep

end Steps

/-- **What the parser reads, the grammar reads.** -/
theorem reads_of_run {s : List UInt8} (hlen : s.length < 2 ^ 16) (h : (urlRun s).1 = none) :
    ∃ p, Reads s (urlRun s).2.1.idx p := by
  induction s using List.reverseRecOn with
  | nil => exact ⟨_, .start⟩
  | append_singleton s ch ih =>
    rw [length_append] at hlen
    cases her : (urlRun s).1 with
    | some e =>
      have hrun := urlLoop_append_error ffurlInit [] s [ch] her
      rw [urlRun, hrun, ← urlRun, her] at h
      cases h
    | none =>
      obtain ⟨p, hp⟩ := ih (by omega) her
      obtain ⟨u, hrun, henc⟩ := hp.ran (by omega)
      have hsnoc := urlRun_snoc hrun ch
      cases hstep : urlStep u s ch with
      | error eu =>
        rw [hstep] at hsnoc
        rw [hsnoc] at h
        cases h
      | ok u' =>
        rw [hstep] at hsnoc
        rw [hsnoc]
        exact hp.snoc henc hstep

end Url

end FF
