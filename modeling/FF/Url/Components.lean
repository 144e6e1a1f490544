import FF.Url.Parts

/-!
# The components of a URL

What `ffurl_get` returns for a URL that has been accepted, and when it is what the text says. The
object is also asked to come out the same when the text was given in prefixes.
-/

namespace FF

namespace Url

open List Option

/-! ### The results of the parser -/

/-- A URL may end here. A port whose number of digits is a multiple of 256 has the length 0. -/
def Complete (st : UrlSt) (p : Parts) : Prop :=
  HostEnd st p ∨ (st = .port ∧ (p.port.getD []).length % 256 ≠ 0) ∨ st = .path ∨ st = .qs

/-- **A URL without a path** -/
def HostUrl (s : List UInt8) : Prop :=
  ∃ st p, Reads s st p ∧ Complete st p ∧ st.inPath = false

/-- **The beginning of a URL** that does not end here and whose path has not begun. -/
def HostPart (s : List UInt8) : Prop :=
  ∃ st p, Reads s st p ∧ ¬Complete st p ∧ st.inPath = false

section Results

variable {s : List UInt8} {st : UrlSt} {p : Parts} {u : Ffurl}

theorem Enc.consistent (h : Reads s st p) (hu : Enc st p u) :
    u.consistent = true ↔ Complete st p := by
  have hidx := hu.idx
  have hshape := h.shape
  cases st with
  | host =>
    have hle := h.host_le rfl
    have hpos := length_pos_of_ne_nil hshape.1
    have hlen : u.hostlen ≠ 0 ↔ p.host.length ≤ 255 := by
      rw [hu.hostlen]
      omega
    simp [Ffurl.consistent, hidx, Complete, HostEnd, ← hlen]
  | port => simp [Ffurl.consistent, hidx, Complete, HostEnd, hu.portlen]
  | _ => simp [Ffurl.consistent, hidx, Complete, HostEnd]

theorem Reads.run (h : Reads s st p) (hlen : s.length < 2 ^ 16) :
    (urlRun s).1 = none ∧ ((urlRun s).2.1.consistent = true ↔ Complete st p) ∧
      (urlRun s).2.1.idx = st ∧ (urlRun s).2.2 = s ∧ Enc st p (urlRun s).2.1 := by
  obtain ⟨u, hrun, hu⟩ := h.ran hlen
  rw [hrun]
  exact ⟨rfl, hu.consistent h, hu.idx, rfl, hu⟩

/-- **The URLs without a path** that the parser accepts -/
theorem hostOk_iff (hlen : s.length < 2 ^ 16) : HostOk s ↔ HostUrl s := by
  constructor
  · rintro ⟨hnone, hcons, hpath⟩
    obtain ⟨p, hp⟩ := reads_of_run hlen hnone
    exact ⟨_, p, hp, (hp.run hlen).2.1.mp hcons, hpath⟩
  · rintro ⟨st, p, hp, hc, hpath⟩
    obtain ⟨hnone, hcons, hidx, -, -⟩ := hp.run hlen
    exact ⟨hnone, hcons.mpr hc, by rw [hidx]; exact hpath⟩

/-- **The beginnings of a URL** for which it wants more data -/
theorem hostMore_iff (hlen : s.length < 2 ^ 16) : HostMore s ↔ HostPart s := by
  constructor
  · rintro ⟨hnone, hcons, hpath⟩
    obtain ⟨p, hp⟩ := reads_of_run hlen hnone
    refine ⟨_, p, hp, fun hc => ?_, hpath⟩
    rw [(hp.run hlen).2.1.mpr hc] at hcons
    cases hcons
  rintro ⟨st, p, hp, hc, hpath⟩
  obtain ⟨hnone, hcons, hidx, -, -⟩ := hp.run hlen
  refine ⟨hnone, ?_, by rw [hidx]; exact hpath⟩
  cases h : (urlRun s).2.1.consistent with
  | false => rfl
  | true => exact absurd (hcons.mp h) hc

/-- **The texts that the parser accepts** -/
theorem ffurlParse_eok_iff (hlen : s.length < 2 ^ 16) :
    (ffurlParse ffurlInit s).1 = .eok ↔ ∃ st p, Reads s st p ∧ Complete st p := by
  rw [ffurlParse_init]
  constructor
  · intro hok
    cases her : (urlRun s).1 with
    | some e =>
      rw [her] at hok
      exact absurd hok (urlLoop_error her).1
    | none =>
      obtain ⟨p, hp⟩ := reads_of_run hlen her
      refine ⟨_, p, hp, (hp.run hlen).2.1.mp ?_⟩
      rw [her, Ffurl.code, getD_none] at hok
      by_contra hno
      rw [if_neg hno] at hok
      cases hok
  · rintro ⟨st, p, hp, hc⟩
    obtain ⟨hnone, hcons, -, -, -⟩ := hp.run hlen
    rw [hnone, Ffurl.code, getD_none, if_pos (hcons.mpr hc)]

theorem Reads.enc (h : Reads s st p) (hc : Complete st p) (hlen : s.length < 2 ^ 16) :
    Enc st p (ffurlParse ffurlInit s).2 ∧ (ffurlParse ffurlInit s).2.len = s.length := by
  obtain ⟨hnone, hcons, hidx, hseen, hu⟩ := h.run hlen
  have hcode : (urlRun s).2.1.code (urlRun s).1 = .eok := by
    rw [hnone, Ffurl.code, getD_none, if_pos (hcons.mpr hc)]
  have hn : s.length % 2 ^ 16 = s.length := Nat.mod_eq_of_lt hlen
  rw [ffurlParse_init, hcode, hseen, Ffurl.fin, hn]
  by_cases hst : (urlRun s).2.1.idx = .path ∨ (urlRun s).2.1.idx = .qs
  · rw [if_neg fun hno => hno.2 hst]
    exact ⟨{ hu with idx := hidx }, rfl⟩
  rw [if_pos ⟨by decide, hst⟩]
  have hpath : p.path = [] := by
    rcases hc with (⟨rfl, -⟩ | rfl) | ⟨rfl, -⟩ | hc
    · exact h.shape.2.2.2.1
    · exact h.shape.2.2.1
    · exact h.shape.2.2.1
    · rw [hidx] at hst
      exact absurd hc hst
  exact ⟨{ hu with idx := hidx, offpath := fun hne => absurd hpath hne }, rfl⟩

/-- A host with its two brackets, or without any. -/
def Closed (h : List UInt8) : Prop :=
  h.length ≤ 255 ∧ (isBracket h = true → ∃ m, h = 0x5b :: (m ++ [0x5d]))

theorem HostEnd.closed (hend : HostEnd st p) (hs : Shape st p)
    (hafter : st = .afterHost → Closed p.host) : Closed p.host := by
  rcases hend with ⟨rfl, hlen⟩ | rfl
  · refine ⟨hlen, fun hb => ?_⟩
    rw [hs.2.1] at hb
    cases hb
  · exact hafter rfl

theorem Reads.closed_host (h : Reads s st p) (hip6 : st ≠ .ip6) (hhost : st ≠ .host) :
    Closed p.host := by
  have hempty : Closed [] := ⟨by simp, fun hb => by cases hb⟩
  induction h with
  | start => exact hempty
  | bracket h ih => exact absurd rfl hip6
  | ip6 h hch hlen ih => exact absurd rfl hip6
  | @closed s p h hlen ih =>
    refine ⟨by rw [length_append, length_singleton]; omega, fun _ => ?_⟩
    have hb := h.shape.1
    cases hh : p.host with
    | nil =>
      rw [hh] at hb
      cases hb
    | cons c cs =>
      rw [hh] at hb
      have hc : c = 0x5b := by simpa [isBracket] using hb
      exact ⟨cs, by rw [hc]; rfl⟩
  | name h hst hch hlen ih => exact absurd rfl hhost
  | colon h hend ih =>
    refine hend.closed h.shape fun hst => ih ?_ ?_
    · rw [hst]
      decide
    · rw [hst]
      decide
  | slash1 h ih => exact ih (by decide) (by decide)
  | slash2 h ih => exact hempty
  | digit h hst hds hch hval ih =>
    rcases hst with rfl | rfl
    · exact ih (by decide) (by decide)
    · exact ih (by decide) (by decide)
  | pathStart h hst ih =>
    rcases hst with rfl | hend | rfl
    · exact ih (by decide) (by decide)
    · refine hend.closed h.shape fun hst => ih ?_ ?_
      · rw [hst]
        decide
      · rw [hst]
        decide
    · exact ih (by decide) (by decide)
  | path h hch ih => exact ih (by decide) (by decide)
  | percent h ih => exact ih (by decide) (by decide)
  | hex1 h hch ih => exact ih (by decide) (by decide)
  | hex2 h hch ih => exact ih (by decide) (by decide)
  | question h ih => exact ih (by decide) (by decide)
  | qs h hq hch ih => exact ih (by decide) (by decide)

theorem Complete.closed (hc : Complete st p) (h : Reads s st p) : Closed p.host := by
  have hafter : ∀ {st'}, st = st' → st' ≠ .ip6 → st' ≠ .host → Closed p.host := by
    rintro _ rfl h1 h2
    exact h.closed_host h1 h2
  rcases hc with hend | ⟨hst, -⟩ | hst | hst
  · exact hend.closed h.shape fun hst => hafter hst (by decide) (by decide)
  · exact hafter hst (by decide) (by decide)
  · exact hafter hst (by decide) (by decide)
  · exact hafter hst (by decide) (by decide)

end Results

/-! ### The components -/

/-- **The components with their delimiters**: brackets where `ffurl_get` has left them out, a colon
where the text has one behind the host. -/
def ffurlJoin (u : Ffurl) (s : List UInt8) : List UInt8 :=
  (if u.offhost ≠ 0 then ffurlGet u s .scheme ++ [0x3a, 0x2f, 0x2f] else []) ++
  (if u.hostlen > 2 ∧ s[u.offhost]? = some 0x5b then 0x5b :: (ffurlGet u s .host ++ [0x5d])
    else ffurlGet u s .host) ++
  (if s[u.offhost + u.hostlen]? = some 0x3a then 0x3a :: ffurlGet u s .port else []) ++
  ffurlGet u s .path ++
  (if u.querystr then 0x3f :: ffurlGet u s .qs else [])

/-- **The flags tell the form of the host.** -/
def FlagsTell (u : Ffurl) (s : List UInt8) : Prop :=
  u.ipv4 = isIp4 (slice s u.offhost u.hostlen) ∧ u.ipv6 = isBracket (slice s u.offhost u.hostlen)

instance (u : Ffurl) (s : List UInt8) : Decidable (FlagsTell u s) :=
  inferInstanceAs (Decidable (_ ∧ _))

section Components

variable {s : List UInt8} {st : UrlSt} {p : Parts} {u : Ffurl}

theorem slice_mid (xs ys zs : List UInt8) : slice (xs ++ ys ++ zs) xs.length ys.length = ys := by
  rw [slice, append_assoc, drop_left, take_left]

/-- The part of the port that `ffurl_get` returns. -/
def Parts.shortPort (p : Parts) : List UInt8 :=
  match p.port with
  | none => []
  | some ds => 0x3a :: ds.take (ds.length % 2 ^ 8)

/-- The query without an empty one. -/
def Parts.shortQuery (p : Parts) : List UInt8 :=
  match p.query with
  | none => []
  | some [] => []
  | some q => 0x3f :: q

theorem getElem?_append_length (xs ys : List UInt8) : (xs ++ ys)[xs.length]? = ys.head? := by
  rw [getElem?_append_right (Nat.le_refl _), Nat.sub_self, head?_eq_getElem?]

theorem get_scheme (hu : Enc st p u) :
    (if u.offhost ≠ 0 then ffurlGet u p.text .scheme ++ [0x3a, 0x2f, 0x2f] else []) =
      p.schemeText := by
  have hoff := hu.offhost
  cases hs : p.scheme with
  | none =>
    have htext : p.schemeText = [] := by rw [Parts.schemeText, hs]
    rw [htext] at hoff ⊢
    rw [if_neg (by rw [hoff]; decide)]
  | some a =>
    have htext : p.schemeText = a ++ [0x3a, 0x2f, 0x2f] := by rw [Parts.schemeText, hs]
    have hlen : u.offhost = a.length + 3 := by rw [hoff, htext, length_append]; rfl
    have hget : ffurlGet u p.text .scheme = a := by
      have hne : u.offhost ≠ 0 := by omega
      have hsub : u.offhost - 3 = a.length := by omega
      rw [ffurlGet, if_pos hne, hsub, Parts.text, Parts.front, htext]
      simp only [append_assoc]
      exact take_left
    rw [if_pos (by omega), hget, htext]

theorem slice_host (hu : Enc st p u) (hlen : p.host.length ≤ 255) :
    slice p.text u.offhost u.hostlen = p.host := by
  rw [hu.offhost, hu.hostlen, Nat.mod_eq_of_lt (by omega), Parts.text, Parts.front]
  simp only [append_assoc]
  rw [← append_assoc]
  exact slice_mid _ _ _

theorem get_host (hu : Enc st p u) (hc : Closed p.host) :
    (if u.hostlen > 2 ∧ p.text[u.offhost]? = some 0x5b then
      0x5b :: (ffurlGet u p.text .host ++ [0x5d]) else ffurlGet u p.text .host) = p.host := by
  have hhead : p.host ≠ [] → p.text[u.offhost]? = p.host.head? := by
    intro hne
    rw [hu.offhost, Parts.text, Parts.front]
    simp only [append_assoc]
    rw [getElem?_append_length]
    exact head?_append_of_ne_nil _ hne
  rw [ffurlGet]
  by_cases hif : u.hostlen > 2 ∧ p.text[u.offhost]? = some 0x5b
  · rw [if_pos hif, if_pos hif]
    have hle := hc.1
    have hlen : u.hostlen = p.host.length := by rw [hu.hostlen, Nat.mod_eq_of_lt (by omega)]
    have hne : p.host ≠ [] := by
      rintro hnil
      rw [hnil] at hlen
      rw [hlen] at hif
      exact absurd hif.1 (by decide)
    have hb : isBracket p.host = true := by rw [isBracket, ← hhead hne, hif.2]; rfl
    obtain ⟨m, hm⟩ := hc.2 hb
    have hmlen : u.hostlen - 2 = m.length := by rw [hlen, hm]; simp
    have hslice : slice p.text (u.offhost + 1) (u.hostlen - 2) = m := by
      have happ : p.text = (p.schemeText ++ [0x5b]) ++ m ++
          ([0x5d] ++ p.portText ++ p.path ++ p.queryText) := by
        rw [Parts.text, Parts.front, hm]
        simp
      have hoff : u.offhost + 1 = (p.schemeText ++ [0x5b]).length := by
        rw [hu.offhost, length_append, length_singleton]
      rw [hmlen, happ, hoff]
      exact slice_mid _ _ _
    rw [hslice, hm]
  · rw [if_neg hif, if_neg hif, slice_host hu hc.1]

theorem get_port (hu : Enc st p u) (hlen : p.host.length ≤ 255)
    (hpath : p.path.head? ≠ some 0x3a) (hquery : p.path = [] → p.query = none) :
    (if p.text[u.offhost + u.hostlen]? = some 0x3a then 0x3a :: ffurlGet u p.text .port else []) =
      p.shortPort := by
  have hoff : u.offhost + u.hostlen = (p.schemeText ++ p.host).length := by
    rw [hu.offhost, hu.hostlen, Nat.mod_eq_of_lt (by omega), length_append]
  have hget : p.text[u.offhost + u.hostlen]? = (p.portText ++ p.path ++ p.queryText).head? := by
    have htext : p.text = (p.schemeText ++ p.host) ++ (p.portText ++ p.path ++ p.queryText) := by
      rw [Parts.text, Parts.front]
      simp only [append_assoc]
    rw [hoff, htext, getElem?_append_length]
  cases hport : p.port with
  | none =>
    have htext : p.portText = [] := by rw [Parts.portText, hport]
    rw [hget, htext, nil_append, Parts.shortPort, hport, if_neg]
    cases hp : p.path with
    | nil =>
      rw [Parts.queryText, hquery hp]
      simp
    | cons c cs =>
      rw [hp] at hpath
      exact hpath
  | some ds =>
    have htext : p.portText = 0x3a :: ds := by rw [Parts.portText, hport]
    have hplen : u.portlen = ds.length % 2 ^ 8 := by rw [hu.portlen, hport, getD_some]
    have hhead : (p.portText ++ p.path ++ p.queryText).head? = some 0x3a := by rw [htext]; rfl
    rw [hget, if_pos hhead, Parts.shortPort, hport, ffurlGet, hoff, hplen, slice]
    congr 1
    have hdrop : p.text.drop ((p.schemeText ++ p.host).length + 1) =
        ds ++ (p.path ++ p.queryText) := by
      have happ : p.text = (p.schemeText ++ p.host ++ [0x3a]) ++ (ds ++ (p.path ++ p.queryText)) := by
        rw [Parts.text, Parts.front, htext]
        simp
      have hone : (p.schemeText ++ p.host).length + 1 = (p.schemeText ++ p.host ++ [0x3a]).length := by
        simp only [length_append, length_singleton]
      rw [hone, happ, drop_left]
    rw [hdrop, take_append_of_le_length (Nat.mod_le _ _)]

theorem get_path (hu : Enc st p u) : ffurlGet u p.text .path = p.path := by
  rw [ffurlGet, hu.pathlen]
  by_cases hne : p.path = []
  · rw [hne]
    exact take_zero
  · rw [hu.offpath hne, Parts.text]
    exact slice_mid _ _ _

theorem get_qs (hu : Enc st p u) (hlen : u.len = p.text.length) (hpath : p.query ≠ none → p.path ≠ []) :
    (if u.querystr then 0x3f :: ffurlGet u p.text .qs else []) = p.shortQuery := by
  have hquery := hu.querystr
  cases hq : p.query with
  | none =>
    rw [hq] at hquery
    rw [if_neg (by rw [hquery]; decide), Parts.shortQuery, hq]
  | some q =>
    cases q with
    | nil =>
      rw [hq] at hquery
      rw [if_neg (by rw [hquery]; decide), Parts.shortQuery, hq]
    | cons c cs =>
      rw [hq] at hquery
      have htrue : u.querystr = true := by rw [hquery]; rfl
      have hoff : u.offpath + u.pathlen + 1 = (p.front ++ p.path ++ [0x3f]).length := by
        rw [hu.offpath (hpath (by rw [hq]; simp)), hu.pathlen]
        simp [Nat.add_assoc]
      have htext : p.text = (p.front ++ p.path ++ [0x3f]) ++ (c :: cs) := by
        rw [Parts.text, Parts.queryText, hq]
        simp
      rw [if_pos htrue, Parts.shortQuery, hq, ffurlGet, if_pos htrue, hlen, hoff, slice]
      congr 1
      conv_lhs => rw [htext]
      rw [drop_left, take_of_length_le]
      rw [length_append, Nat.add_sub_cancel_left]

theorem Complete.text (hc : Complete st p) (h : Reads s st p) : s = p.text := by
  have hno : st ≠ .schemeSlash2 := by
    rcases hc with (⟨rfl, -⟩ | rfl) | ⟨rfl, -⟩ | rfl | rfl <;> decide
  have htext := h.text
  rwa [if_neg hno, append_nil] at htext

theorem Complete.path (hc : Complete st p) (h : Reads s st p) :
    p.path.head? ≠ some 0x3a ∧ (p.path = [] → p.query = none) := by
  have hshape := h.shape
  rcases hc with (⟨rfl, -⟩ | rfl) | ⟨rfl, -⟩ | rfl | rfl
  · obtain ⟨-, -, -, hp, hq⟩ := hshape
    exact ⟨by rw [hp]; simp, fun _ => hq⟩
  · obtain ⟨-, -, hp, hq⟩ := hshape
    exact ⟨by rw [hp]; simp, fun _ => hq⟩
  · obtain ⟨-, -, hp, hq⟩ := hshape
    exact ⟨by rw [hp]; simp, fun _ => hq⟩
  · obtain ⟨hne, hp, -⟩ := hshape
    exact ⟨by rw [hp]; decide, fun hnil => absurd hnil hne⟩
  · obtain ⟨hne, hp, -⟩ := hshape
    exact ⟨by rw [hp]; decide, fun hnil => absurd hnil hne⟩

/-- **The components of an accepted text** -/
theorem ffurlJoin_eq (h : Reads s st p) (hc : Complete st p) (hu : Enc st p u)
    (hlen : u.len = s.length) :
    ffurlJoin u s = p.schemeText ++ p.host ++ p.shortPort ++ p.path ++ p.shortQuery := by
  have hclosed := hc.closed h
  obtain ⟨hpath, hquery⟩ := hc.path h
  obtain rfl := hc.text h
  rw [ffurlJoin, get_scheme hu, get_host hu hclosed, get_port hu hclosed.1 hpath hquery, get_path hu,
    get_qs hu hlen fun hq hp => hq (hquery hp)]

theorem ffurlJoin_iff (h : Reads s st p) (hc : Complete st p) (hu : Enc st p u)
    (hlen : u.len = s.length) :
    ffurlJoin u s = s ↔ (∀ ds, p.port = some ds → ds.length ≤ 255) ∧ p.query ≠ some [] := by
  have hport : p.shortPort.length ≤ p.portText.length ∧
      (p.shortPort.length = p.portText.length → ∀ ds, p.port = some ds → ds.length ≤ 255) ∧
      ((∀ ds, p.port = some ds → ds.length ≤ 255) → p.shortPort = p.portText) := by
    rw [Parts.shortPort, Parts.portText]
    cases p.port with
    | none => simp
    | some ds =>
      simp only [length_cons, length_take, some.injEq, forall_eq']
      refine ⟨by omega, fun heq => by omega, fun hle => ?_⟩
      rw [Nat.mod_eq_of_lt (by omega), take_length]
  have hquery : p.shortQuery.length ≤ p.queryText.length ∧
      (p.shortQuery.length = p.queryText.length → p.query ≠ some []) ∧
      (p.query ≠ some [] → p.shortQuery = p.queryText) := by
    rw [Parts.shortQuery, Parts.queryText]
    cases hq : p.query with
    | none => simp
    | some q => cases q <;> simp
  rw [ffurlJoin_eq h hc hu hlen, hc.text h, Parts.text, Parts.front]
  constructor
  · intro heq
    have hl := congrArg List.length heq
    simp only [length_append] at hl
    exact ⟨hport.2.1 (by omega), hquery.2.1 (by omega)⟩
  · rintro ⟨h1, h2⟩
    rw [hport.2.2 h1, hquery.2.2 h2]

/-! ### The flags -/

/-- **The scheme has left no flag behind** that the host does not have: the text in front of `://` is
read as a host. -/
def FreshFlags (p : Parts) : Prop :=
  ∀ a, p.scheme = some a →
    (isBracket a = true → isBracket p.host = true) ∧
    (isIp4 a = true → p.host ≠ [] ∧ isBracket p.host = false ∧
      ((p.host.all fun ch => ffcharIsdigit ch || ch == 0x2e) = true → isIp4 p.host = true))

theorem flagIp4_false (h : List UInt8) : flagIp4 false h = isIp4 h := by
  rw [flagIp4, isIp4]
  cases h with
  | nil => rfl
  | cons c cs =>
    by_cases hb : isBracket (c :: cs) = true
    · have hc : c = 0x5b := by simpa [isBracket] using hb
      rw [hc]
      rfl
    · simp [hb]

theorem flagIp4_true (h : List UInt8) :
    flagIp4 true h = isIp4 h ↔ h ≠ [] ∧ isBracket h = false ∧
      ((h.all fun ch => ffcharIsdigit ch || ch == 0x2e) = true → isIp4 h = true) := by
  cases h with
  | nil => simp [flagIp4, isIp4]
  | cons c cs =>
    by_cases hb : isBracket (c :: cs) = true
    · have hc : c = 0x5b := by simpa [isBracket] using hb
      have hip4 : isIp4 (c :: cs) = false := by
        rw [hc]
        rfl
      rw [flagIp4_bracket _ hb, hip4, hb]
      simp
    have hflag : flagIp4 true (c :: cs) =
        (c :: cs).all fun ch => ffcharIsdigit ch || ch == 0x2e := by simp [flagIp4, hb]
    rw [hflag, Bool.eq_false_iff.mpr hb]
    constructor
    · intro heq
      exact ⟨cons_ne_nil c cs, rfl, fun hall => heq ▸ hall⟩
    · rintro ⟨-, -, himp⟩
      cases hall : (c :: cs).all fun ch => ffcharIsdigit ch || ch == 0x2e with
      | true => exact (himp hall).symm
      | false => rw [isIp4, hall, Bool.and_false]

/-- **The flags tell the form of the host** unless the scheme has left one behind. -/
theorem flagsTell_iff (h : Reads s st p) (hc : Complete st p) (hu : Enc st p u) :
    FlagsTell u s ↔ FreshFlags p := by
  have hclosed := hc.closed h
  obtain rfl := hc.text h
  rw [FlagsTell, slice_host hu hclosed.1, hu.ipv4, hu.ipv6, FreshFlags, Parts.schemeIp4,
    Parts.schemeIp6]
  cases hs : p.scheme with
  | none => simp [flagIp4_false]
  | some a =>
    have hip6 : (isBracket a || isBracket p.host) = isBracket p.host ↔
        (isBracket a = true → isBracket p.host = true) := by
      cases isBracket a <;> cases isBracket p.host <;> simp
    simp only [flagIp4_false, some.injEq, forall_eq']
    rw [hip6, and_comm]
    refine and_congr_right fun _ => ?_
    cases isIp4 a with
    | false => simp [flagIp4_false]
    | true =>
      rw [flagIp4_true]
      simp only [forall_const]

end Components

/-! ### The claims of the parser -/

/-- **What is expected of the parser** for a text and prefixes of it. -/
def UrlSound (ps : List (List UInt8)) (s : List UInt8) : Prop :=
  ffurlParses ffurlInit ps s = ffurlParse ffurlInit s ∧
    ((ffurlParse ffurlInit s).1 = .eok →
      ffurlJoin (ffurlParse ffurlInit s).2 s = s ∧ FlagsTell (ffurlParse ffurlInit s).2 s)

instance (ps : List (List UInt8)) (s : List UInt8) : Decidable (UrlSound ps s) :=
  inferInstanceAs (Decidable (_ ∧ _))

/-- **It does that** if and only if no prefix is a URL where the text is the beginning of one whose
path has not begun, and a URL has a port of no more than 255 digits, no empty query, and a scheme
that leaves no flag behind. -/
theorem ffurlParses_iff {ps : List (List UInt8)} {s : List UInt8}
    (hps : (ps ++ [s]).Pairwise (· <+: ·)) (hlen : s.length ≤ 65535) :
    UrlSound ps s ↔
      ¬(HostPart s ∧ ∃ q ∈ ps, HostUrl q) ∧
      ∀ st p, Reads s st p → Complete st p →
        (∀ ds, p.port = some ds → ds.length ≤ 255) ∧ p.query ≠ some [] ∧ FreshFlags p := by
  have hlen' : s.length < 2 ^ 16 := by omega
  have hstart : ∀ q ∈ ps, q <+: s := by
    intro q hq
    exact (pairwise_append.mp hps).2.2 q hq s (mem_singleton.mpr rfl)
  have hhost : (∃ q ∈ ps, HostOk q) ↔ ∃ q ∈ ps, HostUrl q := by
    refine exists_congr fun q => and_congr_right fun hq => hostOk_iff ?_
    exact Nat.lt_of_le_of_lt (hstart q hq).length_le hlen'
  have hsame : ffurlParses ffurlInit ps s = ffurlParse ffurlInit s ↔
      ¬(HostPart s ∧ ∃ q ∈ ps, HostUrl q) := by
    have heq := parses_eq (p := []) (b := 0) (pairwise_cons.mpr ⟨fun q _ => nil_prefix, hps⟩)
      hlen' rfl
    have hinit : (urlRun []).2.1.reloc ([] : List UInt8).length 0 = ffurlInit := rfl
    rw [hostMore_iff hlen', hhost, hinit] at heq
    simpa using heq
  refine and_congr hsame ?_
  rw [ffurlParse_eok_iff hlen']
  constructor
  · intro hsound st p h hc
    obtain ⟨hu, hulen⟩ := h.enc hc hlen'
    obtain ⟨hjoin, hflags⟩ := hsound ⟨st, p, h, hc⟩
    obtain ⟨hport, hquery⟩ := (ffurlJoin_iff h hc hu hulen).mp hjoin
    exact ⟨hport, hquery, (flagsTell_iff h hc hu).mp hflags⟩
  · rintro hgood ⟨st, p, h, hc⟩
    obtain ⟨hu, hulen⟩ := h.enc hc hlen'
    obtain ⟨hport, hquery, hflags⟩ := hgood st p h hc
    exact ⟨(ffurlJoin_iff h hc hu hulen).mpr ⟨hport, hquery⟩, (flagsTell_iff h hc hu).mpr hflags⟩

/-- "http://1.2:80/a?q", and two prefixes of it. -/
theorem ffurlParses_iff_example :
    UrlSound [[0x68], [0x68, 0x74, 0x74, 0x70, 0x3a, 0x2f, 0x2f, 0x31]]
      [0x68, 0x74, 0x74, 0x70, 0x3a, 0x2f, 0x2f, 0x31, 0x2e, 0x32, 0x3a, 0x38, 0x30, 0x2f, 0x61,
        0x3f, 0x71] ∧
    ∀ st p, Reads [0x68, 0x74, 0x74, 0x70, 0x3a, 0x2f, 0x2f, 0x31, 0x2e, 0x32, 0x3a, 0x38, 0x30, 0x2f,
        0x61, 0x3f, 0x71] st p → Complete st p →
      (∀ ds, p.port = some ds → ds.length ≤ 255) ∧ p.query ≠ some [] ∧ FreshFlags p := by
  have hsound : UrlSound [[0x68], [0x68, 0x74, 0x74, 0x70, 0x3a, 0x2f, 0x2f, 0x31]]
      [0x68, 0x74, 0x74, 0x70, 0x3a, 0x2f, 0x2f, 0x31, 0x2e, 0x32, 0x3a, 0x38, 0x30, 0x2f, 0x61,
        0x3f, 0x71] := by decide
  exact ⟨hsound, ((ffurlParses_iff (by decide) (by decide)).mp hsound).2⟩

/-- The parser does not do it for "h" and then "h:", nor for "h/?", for "1://[::1]" and for a port
of 256 zeros. -/
theorem ffurlParses_fails :
    ¬(∀ (ps : List (List UInt8)) (s : List UInt8), (ps ++ [s]).Pairwise (· <+: ·) →
      s.length ≤ 65535 → UrlSound ps s) ∧
    ¬UrlSound [[0x68]] [0x68, 0x3a] ∧
    ¬UrlSound [] [0x68, 0x2f, 0x3f] ∧
    ¬UrlSound [] [0x31, 0x3a, 0x2f, 0x2f, 0x5b, 0x3a, 0x3a, 0x31, 0x5d] ∧
    ¬UrlSound [] ([0x68, 0x3a] ++ List.replicate 256 0x30 ++ [0x2f]) := by
  have hprefixes : ¬UrlSound [[0x68]] [0x68, 0x3a] := by decide
  refine ⟨fun h => hprefixes (h _ _ (by decide) (by decide)), hprefixes, by decide, by decide, ?_⟩
  decide +kernel

end Url

end FF
