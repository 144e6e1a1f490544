import FF.Net.Ip4
import FF.Net.Ip6Text
import FF.Str.Nextval
import FF.Str.TextParts

/-!
# Addresses with a port

`ffip_tostr` writes an address, and a port where it is not 0; `ffip_split` splits such a text at the
last `:`.
-/

namespace FF

namespace Net

open List Option

/-! ### The functions -/

/-- An address of the family `AF_INET`, or of another one. -/
inductive IpAddr
  | inet (a : List UInt8)
  | inet6 (a : List UInt8)
  deriving DecidableEq, Repr

/-- The address has its 4 or 16 bytes. -/
def IpAddr.Valid : IpAddr → Prop
  | .inet a => a.length = 4
  | .inet6 a => a.length = 16

/-- `ffs_copyc` behind `p`. -/
def ffsCopyc (cap : ℕ) (p : List UInt8) (ch : UInt8) : List UInt8 :=
  if p.length ≠ cap then p ++ [ch] else p

/-- What `ffs_fmt` writes for `":%u"`. -/
def fmtPort (room port : ℕ) : List UInt8 :=
  let text := partsText [.lit 0x3a, .dec port]
  if text.length < room then text else []

/-- `ffip_tostr` -/
def ffipTostr (cap : ℕ) (ip : IpAddr) (port : ℕ) : List UInt8 :=
  let putPort (p : List UInt8) := if port ≠ 0 then p ++ fmtPort (cap - p.length) port else p
  match ip with
  | .inet a =>
    let p := ffip4Tostr cap a
    if p = [] then [] else putPort p
  | .inet6 a =>
    let p := if port ≠ 0 then ffsCopyc cap [] 0x5b else []
    let text := ffip6Tostr (cap - p.length) a
    if text = [] then []
    else
      let p := p ++ text
      putPort (if port ≠ 0 then ffsCopyc cap p 0x5d else p)

/-- `ffip_split`: the address and the port; `none` where it returns -1. -/
def ffipSplit (data : List UInt8) : Option (List UInt8 × List UInt8) :=
  -- `ffs_rsplit2by`
  let i := ffsRfind (fun c => c == 0x3a) data
  let (ip, port, pos) :=
    if i = data.length then (data, [], false) else (data.take i, data.drop (i + 1), true)
  if ip.head? = some 0x5b then
    let (ip, port, pos) :=
      if data.getLast? = some 0x5d then (data, [], false) else (ip, port, pos)
    if ¬(4 ≤ ip.length ∧ ip.getLast? = some 0x5d) then none
    else if pos ∧ port = [] then none
    else some ((ip.drop 1).take (ip.length - 2), port)
  else if pos ∧ port = [] then none
  else some (ip, port)

/-- `ffip_parse`: the address, with its family; `none` where there is none, or where `ffip6_parse`
writes behind the address. -/
def ffipParse (ip : List UInt8) : Option IpAddr :=
  if (ffip4Parse ip).1 = 0 then some (.inet (ffip4Parse ip).2)
  else
    match ffip6Parse ip with
    | some (0, a) => some (.inet6 a)
    | _ => none

/-- The port that is read: 0 where there is none, else a number of 16 bits. -/
def portValue (port : List UInt8) : Option ℕ :=
  if port = [] then some 0 else ffstrToint port ⟨2, false, false, false⟩

/-! ### The text of a port -/

/-- The digits of a port. -/
def portDigits (port : ℕ) : List UInt8 := fromintText port {}

theorem portDigits_spec {port : ℕ} (hport : port < 2 ^ 16) :
    portDigits port ≠ [] ∧ (portDigits port).length ≤ 5 ∧
      (∀ c ∈ portDigits port, (digitOf 10 c).isSome = true) ∧
      numVal (digitOf 10) 10 0 (portDigits port) = port := by
  have hi : port < 2 ^ 64 := by omega
  have htext : portDigits port = fromintPs port {} := fromintText_plain ⟨rfl, rfl, rfl⟩
  obtain ⟨hlen, hdig, hval, -⟩ := fromintPs_spec hi {}
  have hcount := digitCount_le (by decide : 1 < 10) (by decide : 1 ≤ 5)
    (by omega : port < 10 ^ 5)
  rw [htext]
  exact ⟨fromintPs_ne_nil hi {}, hlen.trans_le hcount, hdig, hval⟩

theorem portText_eq (port : ℕ) : partsText [.lit 0x3a, .dec port] = 0x3a :: portDigits port := by
  simp [partsText, TextPart.text, portDigits]

/-- **The port is read back.** -/
theorem portValue_digits {port : ℕ} (hport : port < 2 ^ 16) :
    portValue (portDigits port) = some port := by
  obtain ⟨hne, hlen, hdig, hval⟩ := portDigits_spec hport
  have htoint := @ffsToint_dec 2 (.inr (.inl rfl)) _ [] hne hdig (by omega) (by rwa [hval])
    (by simp)
  rw [append_nil, hval] at htoint
  rw [portValue, if_neg hne, ffstrToint, htoint]
  exact if_pos rfl

/-- **How `ffs_fmt` writes a port**: behind what has been written, if there is room for it and for
one byte more. -/
theorem ffsFmt_port {err : FErr} {mem mem' : List UInt8} {pos pos' port : ℕ}
    (hport : port < 2 ^ 32) (hpos : pos ≤ mem.length)
    (h : FfsFmt err (ascii ":%u") [.w32 (UInt32.ofNat port)] mem pos pos' mem') :
    mem'.take pos' = mem.take pos ++ fmtPort (mem.length - pos) port := by
  have hfit : PartsFit [] [.lit 0x3a, .dec port] := ⟨trivial, ⟨hport, by simp [partsText]⟩, trivial⟩
  have hread : FmtReads err ((ascii ":%u").takeWhile (· != 0)) [.w32 (UInt32.ofNat port)]
      ([TextPart.lit 0x3a, .dec port].map TextPart.fmtItem) :=
    fmtReads_of_fmtRead 3 rfl
  have htext := fmtText_parts hfit err
  have hlen := length_partsText_le hfit
  obtain ⟨m, hm, htake, hfull, hcall⟩ := ffsFmt_plain hread (by
    intro x hx
    rw [map_cons, map_singleton, mem_cons, mem_singleton] at hx
    rcases hx with rfl | rfl
    · trivial
    · exact ⟨rfl, rfl, rfl⟩) (by
    rw [htext, length_map]
    simp only [length_cons, length_nil] at hlen ⊢
    omega) hpos
  rw [htext] at hfull hcall
  obtain ⟨rfl, rfl⟩ := (hcall _ _).mp h
  unfold fmtPort
  by_cases hroom : pos + (partsText [.lit 0x3a, .dec port]).length < mem.length
  · rw [if_pos hroom, hfull hroom]
    exact congrArg _ (if_pos (by omega)).symm
  · rw [if_neg hroom, htake]
    have hno : ¬(partsText [.lit 0x3a, .dec port]).length < mem.length - pos := by omega
    rw [if_neg hno, append_nil]

/-! ### The split -/

section Split

variable {a ip port x y : List UInt8}

theorem ffsRfind_colon (x : List UInt8) (hy : 0x3a ∉ y) :
    ffsRfind (fun c => c == 0x3a) (x ++ 0x3a :: y) = x.length := by
  have hany : (x ++ 0x3a :: y).any (fun c => c == 0x3a) = true := by simp
  have hrev : 0x3a ∉ y.reverse := fun h => hy (mem_reverse.mp h)
  rw [ffsRfind, if_pos hany, reverse_append, reverse_cons, append_assoc,
    singleton_append, findIdx_sep hrev]
  simp only [length_append, length_cons, length_reverse]
  omega

/-- There is no `:`: there is no port. -/
theorem ffipSplit_none (hx : 0x3a ∉ x) (hbracket : x.head? ≠ some 0x5b) :
    ffipSplit x = some (x, []) := by
  have hany : ¬x.any (fun c => c == 0x3a) = true := by simpa using hx
  rw [ffipSplit, ffsRfind, if_neg hany, if_pos rfl]
  dsimp only
  rw [if_neg hbracket, if_neg fun h => Bool.false_ne_true h.1]

/-- What is behind the last `:` is the port. -/
theorem ffipSplit_colon (hy : 0x3a ∉ y) (hbracket : x.head? ≠ some 0x5b) :
    ffipSplit (x ++ 0x3a :: y) = if y = [] then none else some (x, y) := by
  have hne : x.length ≠ (x ++ 0x3a :: y).length := by simp
  rw [ffipSplit, ffsRfind_colon x hy, if_neg hne, take_left', drop_sep]
  dsimp only
  rw [if_neg hbracket]
  by_cases hnil : y = []
  · rw [if_pos hnil, if_pos ⟨rfl, hnil⟩]
  · rw [if_neg hnil, if_neg fun h => hnil h.2]
  · rfl

theorem ffipSplit_bracket (hx : 2 ≤ x.length) (hy : 0x3a ∉ y) (hne : y ≠ [])
    (hlast : y.getLast? ≠ some 0x5d) :
    ffipSplit (0x5b :: x ++ [0x5d] ++ 0x3a :: y) = some (x, y) := by
  have hlen : (0x5b :: x ++ [0x5d]).length ≠ (0x5b :: x ++ [0x5d] ++ 0x3a :: y).length := by simp
  have hend : (0x5b :: x ++ [0x5d] ++ 0x3a :: y).getLast? ≠ some 0x5d := by
    obtain ⟨c, hc⟩ := ne_none_iff_exists'.mp (mt getLast?_eq_none_iff.mp hne)
    rw [hc] at hlast
    rwa [append_cons, getLast?_append, hc, some_or]
  have hhead : (0x5b :: x ++ [0x5d]).head? = some 0x5b := rfl
  have hfour : 4 ≤ (0x5b :: x ++ [0x5d]).length ∧
      (0x5b :: x ++ [0x5d]).getLast? = some 0x5d := by
    refine ⟨?_, getLast?_concat⟩
    rw [length_append, length_cons, length_singleton]
    omega
  rw [ffipSplit, ffsRfind_colon _ hy, if_neg hlen, take_left', drop_sep]
  · dsimp only
    rw [if_pos hhead, if_neg hend]
    rw [if_neg (not_not.mpr hfour), if_neg fun h => hne h.2]
    have htake : (0x5b :: x ++ [0x5d]).length - 2 = x.length := by simp
    rw [htake, cons_append, drop_one, tail_cons, take_left' rfl]
  · rfl

end Split

/-! ### The text of an IPv4 address -/

theorem mem_ip4Bytes {c : UInt8} {a : List UInt8} (h : c ∈ ip4Bytes a) :
    c = 0x2e ∨ (digitOf 10 c).isSome = true := by
  induction a with
  | nil => cases h
  | cons b a ih =>
    obtain ⟨-, -, hdig, -⟩ := byteText_spec b
    cases a with
    | nil => exact .inr (hdig c h)
    | cons b' a =>
      rw [ip4Bytes, mem_append, mem_cons] at h
      rcases h with h | h | h
      · exact .inr (hdig c h)
      · exact .inl h
      · exact ih h

theorem length_ip4Bytes_le (a : List UInt8) : (ip4Bytes a).length ≤ 4 * a.length := by
  induction a with
  | nil => exact Nat.zero_le _
  | cons b a ih =>
    obtain ⟨-, hlen, -, -⟩ := byteText_spec b
    cases a with
    | nil => exact hlen.trans (Nat.le_succ 3)
    | cons b' a =>
      rw [ip4Bytes, length_append, length_cons]
      simp only [length_cons] at ih ⊢
      omega

/-! ### What the text of an IPv6 address is not -/

section Inet6

variable {a s : List UInt8} {c : UInt8} {cap ndig b i : ℕ} {gs : List (List UInt8)}

theorem ip4Loop_first (h : ∀ c ∈ s, c ≠ 0x2a ∧ c ≠ 0x2e) : (ip4Loop s i [] ndig b).ret = -1 := by
  induction s generalizing i ndig b with
  | nil => rfl
  | cons c s ih =>
    obtain ⟨⟨hstar, hdot⟩, hrest⟩ := forall_mem_cons.mp h
    have hthree : ¬([] : List UInt8).length = 3 := by decide
    rw [ip4Loop]
    by_cases hdigit : ffcharIsdigit c = true ∧ ndig ≠ 3
    · rw [if_pos hdigit]
      by_cases hbyte : b * 10 + (c.toNat - 0x30) > 255
      · rw [if_pos hbyte]
      · rw [if_neg hbyte]
        exact ih hrest
    · rw [if_neg hdigit]
      by_cases hnone : ndig = 0
      · rw [if_pos hnone, if_neg hstar]
      · rw [if_neg hnone, if_neg hthree, if_neg hdot]

theorem ffipParse_inet6 (h : ∀ c ∈ s, c ≠ 0x2a ∧ c ≠ 0x2e) (hparse : ffip6Parse s = some (0, a)) :
    ffipParse s = some (.inet6 a) := by
  have hret : (ffip4Parse s).1 ≠ 0 := by
    have hminus : (-1 : ℤ) ≠ 0 := by decide
    rw [ffip4Parse]
    split
    · exact hminus
    · rwa [ffip4ParseWildcard, ip4Loop_first h]
  rw [ffipParse, if_neg hret, hparse]
  rfl

theorem ffip6Parse_of_ffipParse (h : ffipParse s = some (.inet6 a)) :
    ffip6Parse s = some (0, a) := by
  rw [ffipParse] at h
  split at h
  · cases h
  · split at h
    · next hparse =>
        cases h
        exact hparse
    · cases h

theorem not_mem_ffip6Tostr (ha : a.length = 16) (hcap : FFIP6_STRLEN ≤ cap) (hc : c ≠ 0x3a)
    (hdigit : digitOf 16 c = none) : c ∉ ffip6Tostr cap a := by
  intro hmem
  rcases (ffip6Tostr_form ha hcap).mem hmem with h | h
  · exact hc h
  · rw [hdigit] at h
    cases h

theorem hexText_tohex {ws : List ℕ} (hws : ∀ w ∈ ws, w < 2 ^ 16) :
    ∀ g ∈ ws.map hexText, IsGroup ffcharTohex g := by
  intro g hg
  have hgroup := (hexText_groups hws).1 g hg
  refine ⟨hgroup.ne_nil, hgroup.length_le, fun c hc => ?_⟩
  obtain ⟨d, hd⟩ := isSome_iff_exists.mp (hgroup.digits c hc)
  rw [ffcharTohex_of_digitOf hd]
  rfl

theorem length_ffip6Tostr (ha : a.length = 16) (hcap : FFIP6_STRLEN ≤ cap) :
    2 ≤ (ffip6Tostr cap a).length ∧ (ffip6Tostr cap a).length ≤ 39 := by
  rcases ffip6Tostr_text ha hcap with
    ⟨ws, -, hlen, hws, htext⟩ | ⟨ps, l, qs, -, hlen, hl, hps, hqs, -, htext⟩
  · have hle := length_ip6Text_le hws
    have hcolons : (ip6Text (ws.map hexText)).count 0x3a = 7 := by
      rw [ip6Text, count_intercalate fun g hg => (hexText_tohex hws g hg).not_mem, length_map,
        hlen]
    have hcount := count_le_length (a := (0x3a : UInt8)) (l := ip6Text (ws.map hexText))
    rw [htext]
    omega
  · have hpre := length_ip6Text_le hps
    have hpost := length_ip6Text_le hqs
    rw [htext, length_append, length_cons, length_cons]
    omega

/-- Less than eight groups, with no `::`, are no address. -/
theorem ffip6Parse_few (hgs : ∀ g ∈ gs, IsGroup ffcharTohex g) (hne : gs ≠ [])
    (hlen : gs.length < 8) (hs : s = ip6Text gs ∨ s = ip6Text gs ++ [0x3a]) :
    ffip6Parse s ≠ some (0, a) := by
  have hsplit := splitOn_intercalate (0x3a : UInt8) (fun g hg => (hgs g hg).not_mem) hne
  have hnum : numGroups s < 8 := by
    rcases hs with rfl | rfl
    · rwa [numGroups_text hgs]
    · rwa [numGroups_colon, numGroups_text hgs, numGroups_nil]
  have hlast : ([] : List UInt8) ∉ (s.splitOn 0x3a).dropLast := by
    have hnil : ([] : List UInt8) ∉ gs := fun h => (hgs [] h).ne_nil rfl
    rcases hs with rfl | rfl
    · rw [ip6Text, hsplit]
      exact fun h => hnil (mem_of_mem_dropLast h)
    · rw [splitOn_append_cons_self, ip6Text, hsplit, splitOn_nil, dropLast_concat]
      exact hnil
  rw [Ne, ffip6Parse_eq_some]
  rintro (hform | htrail | hzeros)
  · cases hform with
    | @full fs hfs hfull =>
      rw [numGroups_text hfs, hfull] at hnum
      omega
    | @zeros pre post hpre hpost _ =>
      refine hlast ?_
      rw [splitOn_append_cons_self, ← nil_append (0x3a :: ip6Text post), splitOn_append_cons_self,
        splitOn_nil, singleton_append, dropLast_append_of_ne_nil (cons_ne_nil _ _),
        dropLast_cons_of_ne_nil (splitOn_ne_nil _ _)]
      exact mem_append_right _ mem_cons_self
  · rw [htrail.count.2] at hnum
    omega
  · rw [hzeros.count.2] at hnum
    omega

end Inet6

/-! ### An address and a port are read back -/

/-- **The address and the port are read back** from the text of the address and the port. -/
def ReadsBack (cap : ℕ) (ip : IpAddr) (port : ℕ) : Prop :=
  ∃ i p, ffipSplit (ffipTostr cap ip port) = some (i, p) ∧ ffipParse i = some ip ∧
    portValue p = some port

section ReadsBack

variable {a x : List UInt8} {cap port room : ℕ}

theorem head_ne (hx : 0x5b ∉ x) : x.head? ≠ some 0x5b := fun h => hx (mem_of_head? h)

theorem not_mem_portDigits (hport : port < 2 ^ 16) {c : UInt8} (hc : digitOf 10 c = none) :
    c ∉ portDigits port := by
  intro hmem
  have hdig := (portDigits_spec hport).2.2.1 c hmem
  rw [hc] at hdig
  cases hdig

theorem fmtPort_eq (hport : port < 2 ^ 16) (hroom : 7 ≤ room) :
    fmtPort room port = 0x3a :: portDigits port := by
  have hlen := (portDigits_spec hport).2.1
  rw [fmtPort, portText_eq, if_pos]
  rw [length_cons]
  omega

theorem readsBack_inet (ha : a.length = 4) (hport : port < 2 ^ 16) (hcap : 48 ≤ cap) :
    ReadsBack cap (.inet a) port := by
  have hstrlen : FFIP4_STRLEN ≤ cap := le_trans (by decide) hcap
  have htext : ffip4Tostr cap a = ip4Bytes a := if_neg (not_lt.mpr hstrlen)
  have hparse := ffip4Parse_tostr ha hstrlen
  have hlen := length_ip4Bytes_le a
  rw [htext] at hparse
  have hne : ip4Bytes a ≠ [] := by
    intro hnil
    rw [hnil] at hparse
    cases hparse
  have hchars : ∀ c, c ≠ 0x2e → digitOf 10 c = none → c ∉ ip4Bytes a := by
    intro c hc hdigit hmem
    rcases mem_ip4Bytes hmem with h | h
    · exact hc h
    · rw [hdigit] at h
      cases h
  have hbracket := head_ne (hchars 0x5b (by decide) rfl)
  have hip : ffipParse (ip4Bytes a) = some (.inet a) := by rw [ffipParse, hparse, if_pos rfl]
  by_cases hzero : port = 0
  · refine ⟨_, _, ?_, hip, (if_pos rfl).trans (congrArg some hzero.symm)⟩
    rw [ffipTostr, htext]
    dsimp only
    rw [if_neg hne, if_neg (not_not.mpr hzero)]
    exact ffipSplit_none (hchars 0x3a (by decide) rfl) hbracket
  · refine ⟨_, _, ?_, hip, portValue_digits hport⟩
    rw [ffipTostr, htext]
    dsimp only
    rw [if_neg hne, if_pos hzero, fmtPort_eq hport (by omega),
      ffipSplit_colon (not_mem_portDigits hport rfl) hbracket, if_neg (portDigits_spec hport).1]

theorem readsBack_inet6 (ha : a.length = 16) (hport : port < 2 ^ 16) (hzero : port ≠ 0)
    (hcap : 48 ≤ cap) : ReadsBack cap (.inet6 a) port := by
  have hstrlen : FFIP6_STRLEN ≤ cap - 1 := by
    unfold FFIP6_STRLEN
    omega
  have hparse := ffip6Parse_tostr ha hstrlen
  obtain ⟨htwo, hlen⟩ := length_ffip6Tostr ha hstrlen
  have hchars : ∀ c ∈ ffip6Tostr (cap - 1) a, c ≠ 0x2a ∧ c ≠ 0x2e := fun c hc =>
    ⟨fun h => not_mem_ffip6Tostr ha hstrlen (by decide) (by rfl) (h ▸ hc),
      fun h => not_mem_ffip6Tostr ha hstrlen (by decide) (by rfl) (h ▸ hc)⟩
  have hne : ffip6Tostr (cap - 1) a ≠ [] := length_pos_iff.mp (by omega)
  have hlast : (portDigits port).getLast? ≠ some 0x5d := fun h =>
    not_mem_portDigits hport rfl (mem_of_getLast? h)
  have hfirst : ffsCopyc cap [] 0x5b = [0x5b] := if_pos (by rw [length_nil]; omega)
  have hsecond : ffsCopyc cap (0x5b :: ffip6Tostr (cap - 1) a) 0x5d =
      0x5b :: ffip6Tostr (cap - 1) a ++ [0x5d] :=
    if_pos (by rw [length_cons]; omega)
  have htext : ffipTostr cap (.inet6 a) port =
      0x5b :: ffip6Tostr (cap - 1) a ++ [0x5d] ++ 0x3a :: portDigits port := by
    rw [ffipTostr]
    dsimp only
    rw [if_pos hzero, hfirst, length_singleton, if_neg hne, if_pos hzero, if_pos hzero,
      singleton_append, hsecond, fmtPort_eq hport]
    rw [length_append, length_cons, length_singleton]
    omega
  refine ⟨_, _, ?_, ffipParse_inet6 hchars hparse, portValue_digits hport⟩
  rw [htext]
  exact ffipSplit_bracket htwo (not_mem_portDigits hport rfl) (portDigits_spec hport).1 hlast

theorem ffipSplit_last {w : ℕ} (hw : w < 2 ^ 16) (hx : 0x5b ∉ x) :
    ffipSplit (x ++ 0x3a :: hexText w) = some (x, hexText w) := by
  have hgroup := hexText_tohex (forall_mem_singleton.mpr hw) (hexText w)
    (mem_singleton.mpr rfl)
  rw [ffipSplit_colon hgroup.not_mem (head_ne hx), if_neg hgroup.ne_nil]

/-- An IPv6 address and no port: what is in front of the last group is not the address. -/
theorem ffipSplit_tostr_inet6 (ha : a.length = 16) (hcap : FFIP6_STRLEN ≤ cap) {i p : List UInt8}
    (h : ffipSplit (ffip6Tostr cap a) = some (i, p)) : ffip6Parse i ≠ some (0, a) := by
  have hbracket : 0x5b ∉ ffip6Tostr cap a := not_mem_ffip6Tostr ha hcap (by decide) rfl
  -- A text that ends with a group.
  have hsplit : ∀ (x : List UInt8) (w : ℕ), w < 2 ^ 16 →
      ffip6Tostr cap a = x ++ 0x3a :: hexText w → i = x := by
    intro x w hw htext
    rw [htext] at h hbracket
    rw [ffipSplit_last hw fun hx => hbracket (mem_append_left _ hx)] at h
    exact (Prod.mk.inj (some.inj h)).1.symm
  rcases ffip6Tostr_text ha hcap with
    ⟨ws, rfl, hlen, hws, htext⟩ | ⟨ps, l, qs, rfl, hlen, hl, hps, hqs, hq, htext⟩
  · obtain ⟨vs, w, rfl⟩ : ∃ vs w, ws = vs ++ [w] :=
      eq_nil_or_concat' ws |>.resolve_left fun hnil => by simp [hnil] at hlen
    rw [length_append, length_singleton] at hlen
    have hvs : ∀ v ∈ vs, v < 2 ^ 16 := fun v hv => hws v (mem_append_left _ hv)
    have hne : vs.map hexText ≠ [] := by
      rw [← length_pos_iff, length_map]
      omega
    rw [map_append, map_singleton, ip6Text,
      intercalate_append hne (cons_ne_nil _ _), intercalate_singleton] at htext
    obtain rfl := hsplit _ w (hws w (by simp)) htext
    refine ffip6Parse_few (hexText_tohex hvs) hne ?_ (.inl rfl)
    rw [length_map]
    omega
  rcases eq_nil_or_concat' qs with rfl | ⟨qs', w, rfl⟩
  · -- There is nothing behind the last `:`.
    have hhead : (ip6Text (ps.map hexText) ++ [0x3a]).head? ≠ some 0x5b := by
      refine head_ne fun hx => hbracket ?_
      rw [htext]
      exact mem_append.mpr ((mem_append.mp hx).imp_right fun hc => by simp_all)
    have hend : ffip6Tostr cap (wordBytes (ps ++ List.replicate l 0 ++ [])) =
        ip6Text (ps.map hexText) ++ [0x3a] ++ [0x3a] := htext.trans (append_cons _ _ _)
    rw [hend, ffipSplit_colon not_mem_nil hhead, if_pos rfl] at h
    cases h
  have hw : w < 2 ^ 16 := hqs w (by simp)
  have hqs' : ∀ q ∈ qs', q < 2 ^ 16 := fun q hq => hqs q (mem_append_left _ hq)
  rw [length_append, length_singleton] at hlen
  cases qs' with
  | nil =>
    -- The `::` is split.
    have hend : ip6Text (ps.map hexText) ++ 0x3a :: 0x3a :: ip6Text (([] ++ [w]).map hexText) =
        ip6Text (ps.map hexText) ++ [0x3a] ++ 0x3a :: hexText w := by
      rw [nil_append, map_singleton, ip6Text_singleton, append_assoc]
      rfl
    obtain rfl := hsplit _ w hw (htext.trans hend)
    cases ps with
    | nil =>
      intro hparse
      cases hparse
    | cons v ps =>
      refine ffip6Parse_few (hexText_tohex hps) (by simp) ?_ (.inr rfl)
      rw [length_map]
      omega
  | cons q qs' =>
    -- The `::` stands for one group more.
    have happ : (q :: qs' ++ [w]).map hexText = (q :: qs').map hexText ++ [hexText w] :=
      map_append
    have hne : (q :: qs').map hexText ≠ [] := by simp
    have hcut : ip6Text (ps.map hexText) ++
        0x3a :: 0x3a :: ip6Text ((q :: qs' ++ [w]).map hexText) =
          ip6Text (ps.map hexText) ++ 0x3a :: 0x3a :: ip6Text ((q :: qs').map hexText) ++
            0x3a :: hexText w := by
      rw [happ, ip6Text, ip6Text, ip6Text, intercalate_append hne (cons_ne_nil _ _),
        intercalate_singleton, append_assoc]
      rfl
    obtain rfl := hsplit _ w hw (htext.trans hcut)
    have hform := ip6Form_words (by omega : ps.length + (l + 1) + (q :: qs').length = 8)
      (Nat.succ_pos l) hps hqs'
    have hparse := (ffip6Parse_eq_some _ _).mpr (.inl hform.tohex)
    rw [hparse]
    intro heq
    have hbytes := (Prod.mk.inj (some.inj heq)).2
    have hzero := @ip6Group_words (ps ++ List.replicate l 0) (q :: qs') 0 (by decide)
    have hgroup := @ip6Group_words (ps ++ List.replicate l 0) (qs' ++ [w]) q
      (hqs' q mem_cons_self)
    rw [replicate_succ', ← append_assoc, append_assoc _ [0], singleton_append] at hbytes
    rw [← cons_append, ← hbytes, hzero] at hgroup
    exact hq (by rw [← hgroup]; rfl)

theorem readsBack_inet6_zero (ha : a.length = 16) (hcap : 48 ≤ cap) :
    ¬ReadsBack cap (.inet6 a) 0 := by
  rintro ⟨i, p, hsplit, hparse, -⟩
  have hstrlen : FFIP6_STRLEN ≤ cap := le_trans (by decide) hcap
  have htwo := (length_ffip6Tostr ha hstrlen).1
  have hne : ffip6Tostr cap a ≠ [] := length_pos_iff.mp (by omega)
  have hzero : ¬(0 : ℕ) ≠ 0 := not_not.mpr rfl
  rw [ffipTostr] at hsplit
  dsimp only at hsplit
  rw [if_neg hzero, length_nil, Nat.sub_zero, if_neg hne, if_neg hzero, if_neg hzero,
    nil_append] at hsplit
  exact ffipSplit_tostr_inet6 ha hstrlen hsplit (ffip6Parse_of_ffipParse hparse)

end ReadsBack

/-- **An address and a port are read back exactly where the address is an IPv4 address, or where the
port is not 0**: with no port, there are no brackets around an IPv6 address. -/
theorem ffipSplit_iff (ip : IpAddr) (hip : ip.Valid) (port : ℕ) (hport : port < 2 ^ 16) (cap : ℕ)
    (hcap : 48 ≤ cap) :
    ReadsBack cap ip port ↔ (∃ a, ip = .inet a) ∨ port ≠ 0 := by
  cases ip with
  | inet a => exact ⟨fun _ => .inl ⟨a, rfl⟩, fun _ => readsBack_inet hip hport hcap⟩
  | inet6 a =>
    constructor
    · intro h
      right
      rintro rfl
      exact readsBack_inet6_zero hip hcap h
    · rintro (⟨b, hb⟩ | hzero)
      · cases hb
      · exact readsBack_inet6 hip hport hzero hcap

/-- The address `::1`, and the port 80. -/
theorem ffipSplit_loopback :
    ReadsBack 64 (.inet6 [0, 0, 0, 0, 0, 0, 0, 0, 0, 0, 0, 0, 0, 0, 0, 1]) 80 ↔
      (∃ a, IpAddr.inet6 [0, 0, 0, 0, 0, 0, 0, 0, 0, 0, 0, 0, 0, 0, 0, 1] = .inet a) ∨ 80 ≠ 0 :=
  ffipSplit_iff (.inet6 _) (by rfl) _ (by decide) _ (by decide)

/-- The address `::1` with no port is written as `"::1"`: this is split into `":"`, which is no
address, and the port 1. -/
theorem ffipSplit_no_port :
    ffipSplit (ffipTostr 64 (.inet6 [0, 0, 0, 0, 0, 0, 0, 0, 0, 0, 0, 0, 0, 0, 0, 1]) 0) =
        some ([0x3a], [0x31]) ∧
      ffipParse [0x3a] = none ∧ portValue [0x31] = some 1 ∧
      ¬ReadsBack 64 (.inet6 [0, 0, 0, 0, 0, 0, 0, 0, 0, 0, 0, 0, 0, 0, 0, 1]) 0 := by
  have hsplit : ffipSplit (ffipTostr 64
      (.inet6 [0, 0, 0, 0, 0, 0, 0, 0, 0, 0, 0, 0, 0, 0, 0, 1]) 0) = some ([0x3a], [0x31]) := by
    decide
  refine ⟨hsplit, rfl, rfl, ?_⟩
  rintro ⟨i, p, h, hparse, -⟩
  rw [hsplit] at h
  cases h
  cases hparse

end Net

end FF
