import FF.Http.Header

/-!
# Finding a header

`ffhttp_parsehdr` collects the headers in a list while it reads them, and at the end of the headers
it builds a hash table of them: with the key hash that was computed byte by byte while the name was
read. `ffhttp_findhdr` looks up a name in this table.

Without headers the table is not built: it has no memory then, and a search reads from `NULL`.
-/

namespace FF

namespace Http

open List Option

/-! ### The program -/

/-- `ht_headr_cmpkey` -/
def htHeadrCmpkey (val : Option FfhttpHeadr) (key base : List UInt8) : ℤ :=
  match val with
  | none => -1
  | some hh => if ffstrIeq (ffrangGet hh.key base) key then 0 else -1

/-- `htheaders` -/
abbrev Htheaders : Type := Ffhstab FfhttpHeadr (List UInt8) (List UInt8)

/-- `htheaders` behind `ffhttp_init`: no slots. -/
def htheadersInit : Htheaders := ⟨0, 0, 0, [], htHeadrCmpkey⟩

/-- The loop of `ht_headr_fill`: `some none` where it returns -1. An insertion looks at each slot
once at most. -/
def htHeadrInsert (ht : Htheaders) : List FfhttpHeadr → Option (Option Htheaders)
  | [] => some (some ht)
  | hh :: hidx => do
      let (r, ht) ← ffhstIns ht.nslots ht hh.hash (some hh)
      if r < 0 then some none else htHeadrInsert ht hidx

/-- `ht_headr_fill` -/
def htHeadrFill (alignPower2 : ℕ → ℕ) (mem : HttpMem) (hidx : List FfhttpHeadr) :
    Option (Option Htheaders) :=
  match ffhstInit alignPower2 (fun _ => mem.calloc hidx.length) htHeadrCmpkey hidx.length with
  | none => some none
  | some ht => htHeadrInsert ht hidx

/-- The table at the end of `ffhttp_parsehdr`. -/
def htheaders (alignPower2 : ℕ → ℕ) (mem : HttpMem) (hidx : List FfhttpHeadr) :
    Option (Option Htheaders) :=
  if hidx = [] then some (some htheadersInit) else htHeadrFill alignPower2 mem hidx

/-- `ffhttp_findhdr`: the value, or `some none` where it returns 0; `none` where it reads outside
the memory or has not come to an end in `n` steps. -/
def ffhttpFindhdr (n : ℕ) (ht : Htheaders) (base name : List UInt8) : Option (Option (List UInt8)) :=
  do
    let hh ← ffhstFind n ht (ffcrc32Iget name) name base
    match hh with
    | none => some none
    | some hh => some (some (ffrangGet hh.val base))

/-! ### Runs -/

/-- The state in which the headers begin: after `ffhttp_init`, and after the first line. -/
structure HdrStart (h : FfhttpHeaders) : Prop where
  indexHeaders : h.indexHeaders = true
  hidx : h.hidx = []
  idx : h.hdr.idx = 0

/-- **The calls of `ffhttp_parsehdr`** on data that grows, and the headers that they have given,
with their names and values. -/
inductive ParsesHdrs (mem : HttpMem) (h₀ : FfhttpHeaders) :
    FfhttpHeaders → List UInt8 → List (List UInt8 × List UInt8) → Prop
  | init (d : List UInt8) : ParsesHdrs mem h₀ h₀ d []
  | more {h h' : FfhttpHeaders} {d d' : List UInt8} {hs : List (List UInt8 × List UInt8)}
      (hrun : ParsesHdrs mem h₀ h d hs) (hd : d <+: d')
      (hcall : ffhttpParsehdr mem h d' = (h', .more)) : ParsesHdrs mem h₀ h' d' hs
  | ok {h h' : FfhttpHeaders} {d d' : List UInt8} {hs : List (List UInt8 × List UInt8)}
      (hrun : ParsesHdrs mem h₀ h d hs) (hd : d <+: d')
      (hcall : ffhttpParsehdr mem h d' = (h', .ok)) :
      ParsesHdrs mem h₀ h' d' (hs ++ [(ffrangGet h'.hdr.key d', ffrangGet h'.hdr.val d')])

/-- **The result is right**: the value of the first header with this name, without regard to
case. -/
def FindsHeader (ht : Htheaders) (base : List UInt8) (hs : List (List UInt8 × List UInt8))
    (name : List UInt8) : Prop :=
  ∃ m, ∀ n, m ≤ n → ffhttpFindhdr n ht base name =
    some ((hs.find? fun hdr => ffstrIeq hdr.1 name).map Prod.snd)

/-! ### A header -/

section Ranges

variable {d d' : List UInt8} {r : Ffrange}

theorem ffrangGet_grow (hd : d <+: d') (hr : r.off + r.len ≤ d.length) :
    ffrangGet r d' = ffrangGet r d := by
  obtain ⟨t, rfl⟩ := hd
  rw [ffrangGet, ffrangGet, drop_append_of_le_length (by omega),
    take_append_of_le_length (by rw [length_drop]; omega)]

theorem ffrangGet_succ {n off : ℕ} {ch : UInt8} (hch : d[off + n]? = some ch) :
    ffrangGet ⟨n + 1, off⟩ d = ffrangGet ⟨n, off⟩ d ++ [ch] := by
  rw [ffrangGet, ffrangGet, take_add_one, getElem?_drop, hch]
  rfl

end Ranges

/-- The hash before the end of its computation. -/
def nameCrc (name : List UInt8) : UInt32 := name.foldl ffcrc32Iupdate ffcrc32Start

/-- The name has been read, in front of the index `i`. -/
def KeyDone (d : List UInt8) (h : FfhttpHdr) (i : ℕ) : Prop :=
  i ≤ d.length ∧ h.key.off + h.key.len ≤ i ∧ h.crc = nameCrc (ffrangGet h.key d)

/-- The name and the value have been read. -/
def ValDone (d : List UInt8) (h : FfhttpHdr) (i : ℕ) : Prop :=
  KeyDone d h i ∧ h.val.off + h.val.len ≤ i

/-- **What `ffhttp_nexthdr` has read** in front of the index `i`. -/
def HdrInv (d : List UInt8) (idx : HdrIdx) (h : FfhttpHdr) (i : ℕ) : Prop :=
  match idx with
  | .key => True
  | .keyData => i ≤ d.length ∧ h.key.off ≤ i ∧
      h.crc = nameCrc (ffrangGet ⟨i - h.key.off, h.key.off⟩ d)
  | .spaceBeforeVal => KeyDone d h i
  | .val => KeyDone d h i ∧ h.val.off ≤ i
  | .spaceAfterVal => ValDone d h i
  | .lastLf => h.key.len = 0 ∨ ValDone d h i
  | .other _ => False

section Invariant

variable {d d' : List UInt8} {h : FfhttpHdr} {i : ℕ} {ch : UInt8} {idx : HdrIdx}

theorem KeyDone.grow (hk : KeyDone d h i) (hd : d <+: d') : KeyDone d' h i := by
  obtain ⟨hi, hkey, hcrc⟩ := hk
  refine ⟨hi.trans hd.length_le, hkey, ?_⟩
  rw [ffrangGet_grow hd (hkey.trans hi)]
  exact hcrc

theorem KeyDone.mono (hk : KeyDone d h i) {j : ℕ} (hj : i ≤ j) (hjd : j ≤ d.length) :
    KeyDone d h j :=
  ⟨hjd, hk.2.1.trans hj, hk.2.2⟩

theorem HdrInv.grow (hinv : HdrInv d idx h i) (hd : d <+: d') : HdrInv d' idx h i := by
  cases idx with
  | key => trivial
  | keyData =>
    obtain ⟨hi, hoff, hcrc⟩ := hinv
    refine ⟨hi.trans hd.length_le, hoff, ?_⟩
    have hr : h.key.off + (i - h.key.off) ≤ d.length := by omega
    rw [ffrangGet_grow hd hr]
    exact hcrc
  | spaceBeforeVal => exact KeyDone.grow hinv hd
  | val => exact ⟨hinv.1.grow hd, hinv.2⟩
  | spaceAfterVal => exact ⟨hinv.1.grow hd, hinv.2⟩
  | lastLf => exact hinv.imp_right fun hv => ⟨hv.1.grow hd, hv.2⟩
  | other n => exact hinv.elim

/-- What the invariant says behind a byte. -/
def StepInv (d : List UInt8) (i : ℕ) : HdrStep → Prop
  | .next idx h => HdrInv d idx h (i + 1)
  | .fail _ _ _ => True
  | .done h => h.key.len = 0 ∨ ValDone d h i

theorem caseKeyData_inv (hinv : HdrInv d .keyData h i) (hch : d[i]? = some ch) :
    StepInv d i (caseKeyData h i ch) := by
  obtain ⟨hi, hoff, hcrc⟩ := hinv
  have hlt : i < d.length := (List.getElem?_eq_some_iff.mp hch).1
  rw [caseKeyData]
  split_ifs
  · refine ⟨hlt, ?_, hcrc⟩
    show h.key.off + (i - h.key.off) ≤ i + 1
    omega
  · trivial
  · trivial
  refine ⟨hlt, Nat.le_succ_of_le hoff, ?_⟩
  have hsub : i + 1 - h.key.off = i - h.key.off + 1 := by omega
  have hat : d[h.key.off + (i - h.key.off)]? = some ch := by
    rwa [Nat.add_sub_cancel' hoff]
  rw [hsub, ffrangGet_succ hat, nameCrc, foldl_append, ← nameCrc, ← hcrc]
  rfl

theorem caseHdrKey_inv (hch : d[i]? = some ch) : StepInv d i (caseHdrKey h i ch) := by
  have hlt : i < d.length := (List.getElem?_eq_some_iff.mp hch).1
  rw [caseHdrKey]
  split_ifs
  · exact .inl rfl
  · exact .inl rfl
  · trivial
  · refine caseKeyData_inv ⟨hlt.le, le_rfl, ?_⟩ hch
    rw [Nat.sub_self]
    rfl

theorem caseHdrVal_inv (hk : KeyDone d h i) (hval : h.val.off ≤ i) (hch : d[i]? = some ch) :
    StepInv d i (caseHdrVal h i ch) := by
  have hlt : i < d.length := (List.getElem?_eq_some_iff.mp hch).1
  have hend : h.val.off + (i - h.val.off) ≤ i := by omega
  have hk' : KeyDone d h (i + 1) := hk.mono (Nat.le_succ i) hlt
  rw [caseHdrVal]
  split_ifs
  · exact ⟨hk', Nat.le_succ_of_le hend⟩
  · exact .inr ⟨hk', Nat.le_succ_of_le hend⟩
  · exact .inr ⟨hk, hend⟩
  · exact ⟨hk', Nat.le_succ_of_le hval⟩

/-- **A byte keeps the invariant.** -/
theorem hdrSwitch_inv (hinv : HdrInv d idx h i) (hch : d[i]? = some ch) :
    StepInv d i (hdrSwitch idx h i ch) := by
  have hlt : i < d.length := (List.getElem?_eq_some_iff.mp hch).1
  cases idx with
  | key => exact caseHdrKey_inv hch
  | keyData => exact caseKeyData_inv hinv hch
  | spaceBeforeVal =>
    have hk : KeyDone d h i := hinv
    show StepInv d i (caseSpaceBeforeVal h i ch)
    rw [caseSpaceBeforeVal]
    split_ifs
    · exact hk.mono (Nat.le_succ i) hlt
    · exact caseHdrVal_inv (h := { h with val := { h.val with off := i } }) hk le_rfl hch
  | val => exact caseHdrVal_inv hinv.1 hinv.2 hch
  | spaceAfterVal =>
    obtain ⟨hk, hval⟩ := hinv
    have hk' : KeyDone d h (i + 1) := hk.mono (Nat.le_succ i) hlt
    show StepInv d i (caseSpaceAfterVal h i ch)
    rw [caseSpaceAfterVal]
    split_ifs
    · exact ⟨hk', Nat.le_succ_of_le hval⟩
    · exact .inr ⟨hk', Nat.le_succ_of_le hval⟩
    · exact .inr ⟨hk, hval⟩
    · exact ⟨hk', Nat.le_succ_of_le ((Nat.le_add_right _ _).trans hval)⟩
  | lastLf =>
    show StepInv d i (if ch ≠ LF then .fail .lastLf h .eeol else .done h)
    split_ifs
    · trivial
    · exact hinv
  | other n => exact hinv.elim

theorem hdrSwitch_fail {idx' : HdrIdx} {h' : FfhttpHdr} {er : FfhttpE}
    (hsw : hdrSwitch idx h i ch = .fail idx' h' er) : er ≠ .more ∧ er ≠ .ok := by
  have hdata : ∀ g : FfhttpHdr, caseKeyData g i ch = .fail idx' h' er → er ≠ .more ∧ er ≠ .ok := by
    intro g hg
    rw [caseKeyData] at hg
    split_ifs at hg
    · cases hg
      exact ⟨by decide, by decide⟩
    · cases hg
      exact ⟨by decide, by decide⟩
  have hval : ∀ g : FfhttpHdr, caseHdrVal g i ch ≠ .fail idx' h' er := by
    intro g hg
    rw [caseHdrVal] at hg
    split_ifs at hg
  cases idx with
  | key =>
    have hkey : caseHdrKey h i ch = .fail idx' h' er := hsw
    rw [caseHdrKey] at hkey
    split_ifs at hkey
    · cases hkey
      exact ⟨by decide, by decide⟩
    · exact hdata _ hkey
  | keyData => exact hdata h hsw
  | spaceBeforeVal =>
    have hsp : caseSpaceBeforeVal h i ch = .fail idx' h' er := hsw
    rw [caseSpaceBeforeVal] at hsp
    split_ifs at hsp
    exact absurd hsp (hval _)
  | val => exact absurd hsw (hval h)
  | spaceAfterVal =>
    have hsp : caseSpaceAfterVal h i ch = .fail idx' h' er := hsw
    rw [caseSpaceAfterVal] at hsp
    split_ifs at hsp
  | lastLf =>
    have hlf : (if ch ≠ LF then HdrStep.fail .lastLf h .eeol else .done h) =
        .fail idx' h' er := hsw
    split_ifs at hlf
    cases hlf
    exact ⟨by decide, by decide⟩
  | other n => cases hsw

/-- A header that `ffhttp_nexthdr` has given: its hash, and ranges of the data. -/
structure GotHdr (d : List UInt8) (hash : UInt32) (key val : Ffrange) : Prop where
  hash : hash = ffcrc32Iget (ffrangGet key d)
  key : key.off + key.len ≤ d.length
  val : val.off + val.len ≤ d.length

theorem GotHdr.grow {hash : UInt32} {key val : Ffrange} (hg : GotHdr d hash key val)
    (hd : d <+: d') : GotHdr d' hash key val := by
  refine ⟨?_, hg.key.trans hd.length_le, hg.val.trans hd.length_le⟩
  rw [ffrangGet_grow hd hg.key]
  exact hg.hash

/-- What a call of `ffhttp_nexthdr` at the index `i` gives. -/
def CallInv (d : List UInt8) (i : ℕ) (r : FfhttpHdr × FfhttpE) : Prop :=
  (r.2 = .more → HdrInv d (.ofNat r.1.idx) r.1 r.1.len ∧ i ≤ r.1.len) ∧
    (r.2 = .ok → r.1.idx = 0 ∧ GotHdr d r.1.crc r.1.key r.1.val ∧ i < r.1.len ∧ r.1.len ≤ 0xffff)

theorem HdrInv.ofNat_toNat (hinv : HdrInv d idx h i) : HdrIdx.ofNat idx.toNat = idx := by
  cases idx with
  | other n => exact hinv.elim
  | _ => rfl

theorem HdrInv.store (hinv : HdrInv d idx h i) (n : ℕ) (m : ℕ) :
    HdrInv d idx { h with idx := n, len := m } i := by
  cases idx with
  | _ => exact hinv

theorem hdrDone_inv (hi : i < 0xffff) (hv : h.key.len = 0 ∨ ValDone d h i) :
    CallInv d i (hdrDone h i d) := by
  rw [hdrDone]
  by_cases hkey : h.key.len = 0
  · simp only [if_pos hkey]
    exact ⟨nofun, nofun⟩
  obtain ⟨⟨hid, hoff, hcrc⟩, hval⟩ := hv.resolve_left hkey
  simp only [if_neg hkey]
  refine ⟨nofun, fun _ => ⟨rfl, ⟨?_, hoff.trans hid, hval.trans hid⟩,
    Nat.lt_succ_self i, hi⟩⟩
  rw [hcrc]
  rfl

/-- **The loop keeps the invariant**, up to the end of the header or of the data. -/
theorem nexthdrLoop_inv {cs : List UInt8} (hinv : HdrInv d idx h i)
    (hcs : (d.take 0xffff).drop i = cs) : CallInv d i (nexthdrLoop d idx h i cs) := by
  induction cs generalizing idx h i with
  | nil =>
    refine ⟨fun _ => ⟨?_, le_rfl⟩, fun he => ?_⟩
    · show HdrInv d (.ofNat idx.toNat) _ i
      rw [hinv.ofNat_toNat]
      exact hinv.store _ _
    · rw [nexthdrLoop] at he
      split_ifs at he
  | cons ch cs ih =>
    have hat : (d.take 0xffff)[i]? = some ch := by
      rw [← List.head?_drop, hcs]
      rfl
    have hlt : i < 0xffff := by
      have hlen := (List.getElem?_eq_some_iff.mp hat).1
      rw [List.length_take] at hlen
      omega
    have hch : d[i]? = some ch := by rwa [List.getElem?_take_of_lt hlt] at hat
    have hrest : (d.take 0xffff).drop (i + 1) = cs := by
      rw [← drop_drop, hcs]
      rfl
    have hstep := hdrSwitch_inv hinv hch
    rw [nexthdrLoop]
    cases hsw : hdrSwitch idx h i ch with
    | next idx' h' =>
      rw [hsw] at hstep
      obtain ⟨hmore, hok⟩ := ih hstep hrest
      refine ⟨fun he => ?_, fun he => ?_⟩
      · obtain ⟨hinv', hle⟩ := hmore he
        exact ⟨hinv', (Nat.le_succ i).trans hle⟩
      · obtain ⟨hidx, hgot, hlt', hle⟩ := hok he
        exact ⟨hidx, hgot, (Nat.lt_succ_self i).trans hlt', hle⟩
    | fail idx' h' er =>
      have her := hdrSwitch_fail hsw
      exact ⟨fun he => absurd he her.1, fun he => absurd he her.2⟩
    | done h' =>
      rw [hsw] at hstep
      exact hdrDone_inv hlt hstep

end Invariant

/-! ### The list of headers -/

section Calls

variable {mem : HttpMem} {h h' : FfhttpHeaders} {d d' : List UInt8}

/-- What the headers are indexed by stays as it was. -/
structure SameIndex (h h' : FfhttpHeaders) : Prop where
  hidx : h'.hidx = h.hidx
  hdr : h'.hdr = h.hdr
  indexHeaders : h'.indexHeaders = h.indexHeaders

theorem connectionLoop_same (n : ℕ) (val : List UInt8) : SameIndex h (connectionLoop n h val) := by
  induction n generalizing val with
  | zero => exact ⟨rfl, rfl, rfl⟩
  | succ n ih =>
    rw [connectionLoop]
    dsimp only
    split_ifs
    · exact ⟨rfl, rfl, rfl⟩
    · exact ⟨rfl, rfl, rfl⟩
    · exact ih _
    · exact ⟨rfl, rfl, rfl⟩
    · exact ih _

theorem caseContentLength_same (val : List UInt8) :
    SameIndex h (caseContentLength h val).1 ∧ (caseContentLength h val).2 ≠ .more ∧
      (caseContentLength h val).2 ≠ .done := by
  rw [caseContentLength]
  split_ifs
  · exact ⟨⟨rfl, rfl, rfl⟩, nofun, nofun⟩
  · cases ffsToint val ⟨8, false, false, false⟩ with
    | none =>
      dsimp only
      split_ifs <;> exact ⟨⟨rfl, rfl, rfl⟩, nofun, nofun⟩
    | some r =>
      dsimp only
      split_ifs <;> exact ⟨⟨rfl, rfl, rfl⟩, nofun, nofun⟩
  · exact ⟨⟨rfl, rfl, rfl⟩, nofun, nofun⟩

theorem headerSwitch_same (ihdr : ℕ) (val : List UInt8) :
    SameIndex h (headerSwitch h ihdr val).1 ∧ (headerSwitch h ihdr val).2 ≠ .more ∧
      (headerSwitch h ihdr val).2 ≠ .done := by
  rw [headerSwitch]
  split_ifs
  · exact ⟨connectionLoop_same _ _, nofun, nofun⟩
  · exact caseContentLength_same val
  · exact ⟨⟨rfl, rfl, rfl⟩, nofun, nofun⟩
  · exact ⟨⟨rfl, rfl, rfl⟩, nofun, nofun⟩
  · exact ⟨⟨rfl, rfl, rfl⟩, nofun, nofun⟩

theorem parsehdr_more (hcall : ffhttpParsehdr mem h d = (h', .more)) :
    (ffhttpNexthdr h.hdr d).2 = .more ∧ h'.hdr = (ffhttpNexthdr h.hdr d).1 ∧ h'.hidx = h.hidx ∧
      h'.indexHeaders = h.indexHeaders := by
  rw [ffhttpParsehdr] at hcall
  obtain ⟨⟨hdr, e⟩, hnext⟩ : ∃ r, ffhttpNexthdr h.hdr d = r := ⟨_, rfl⟩
  rw [hnext] at hcall ⊢
  cases e with
  | more =>
    cases hcall
    exact ⟨rfl, rfl, rfl, rfl⟩
  | ok =>
    dsimp only at hcall
    split_ifs at hcall
    · cases hcall
    all_goals exact absurd (congrArg Prod.snd hcall) (headerSwitch_same _ _).2.1
  | done =>
    dsimp only at hcall
    split_ifs at hcall
    all_goals cases hcall
  | _ => cases hcall

theorem parsehdr_ok (hcall : ffhttpParsehdr mem h d = (h', .ok)) (hindex : h.indexHeaders = true) :
    (ffhttpNexthdr h.hdr d).2 = .ok ∧ h'.hdr = (ffhttpNexthdr h.hdr d).1 ∧
      h'.hidx = h.hidx ++ [⟨h'.hdr.crc, h'.hdr.key, h'.hdr.val⟩] ∧ h'.indexHeaders = true := by
  rw [ffhttpParsehdr] at hcall
  obtain ⟨⟨hdr, e⟩, hnext⟩ : ∃ r, ffhttpNexthdr h.hdr d = r := ⟨_, rfl⟩
  rw [hnext] at hcall ⊢
  cases e with
  | ok =>
    dsimp only at hcall
    rw [if_pos hindex] at hcall
    split_ifs at hcall
    · cases hcall
    have hsame := (headerSwitch_same (h := { h with
      hdr := hdr, len := hdr.len, hidx := h.hidx ++ [⟨hdr.crc, hdr.key, hdr.val⟩] }) hdr.ihdr
        (ffrangGet hdr.val d)).1
    rw [hcall] at hsame
    refine ⟨rfl, hsame.hdr, ?_, hsame.indexHeaders.trans hindex⟩
    rw [hsame.hdr]
    exact hsame.hidx
  | done =>
    dsimp only at hcall
    split_ifs at hcall
    all_goals cases hcall
  | _ => cases hcall

theorem parsehdr_done (hcall : ffhttpParsehdr mem h d = (h', .done)) :
    h'.hidx = h.hidx ∧ (h.hidx ≠ [] → mem.calloc h.hidx.length = true) := by
  rw [ffhttpParsehdr] at hcall
  obtain ⟨⟨hdr, e⟩, hnext⟩ : ∃ r, ffhttpNexthdr h.hdr d = r := ⟨_, rfl⟩
  rw [hnext] at hcall
  cases e with
  | done =>
    dsimp only at hcall
    split_ifs at hcall with hmem
    · cases hcall
    · cases hcall
      refine ⟨rfl, fun hne => ?_⟩
      by_contra hno
      exact hmem ⟨hne, by simpa using hno⟩
  | ok =>
    dsimp only at hcall
    split_ifs at hcall
    · cases hcall
    all_goals exact absurd (congrArg Prod.snd hcall) (headerSwitch_same _ _).2.2
  | _ => cases hcall

/-- An entry of the list, for a header with this name and value. -/
structure IsHeadr (d : List UInt8) (hh : FfhttpHeadr) (hdr : List UInt8 × List UInt8) : Prop where
  got : GotHdr d hh.hash hh.key hh.val
  key : ffrangGet hh.key d = hdr.1
  val : ffrangGet hh.val d = hdr.2

theorem IsHeadr.grow {hh : FfhttpHeadr} {hdr : List UInt8 × List UInt8} (hi : IsHeadr d hh hdr)
    (hd : d <+: d') : IsHeadr d' hh hdr := by
  refine ⟨hi.got.grow hd, ?_, ?_⟩
  · rw [ffrangGet_grow hd hi.got.key]
    exact hi.key
  · rw [ffrangGet_grow hd hi.got.val]
    exact hi.val

/-- **The list of the headers**, between two calls. -/
structure HdrsInv (h : FfhttpHeaders) (d : List UInt8) (hs : List (List UInt8 × List UInt8)) :
    Prop where
  indexHeaders : h.indexHeaders = true
  hdr : HdrInv d (.ofNat h.hdr.idx) h.hdr h.hdr.len
  hidx : List.Forall₂ (IsHeadr d) h.hidx hs
  count : hs.length ≤ h.hdr.len
  count_max : hs.length ≤ 0xffff

theorem ParsesHdrs.inv {h₀ : FfhttpHeaders} {hs : List (List UInt8 × List UInt8)}
    (hrun : ParsesHdrs mem h₀ h d hs) (hstart : HdrStart h₀) : HdrsInv h d hs := by
  induction hrun with
  | init d =>
    refine ⟨hstart.indexHeaders, ?_, ?_, Nat.zero_le _, Nat.zero_le _⟩
    · rw [hstart.idx]
      trivial
    · rw [hstart.hidx]
      exact .nil
  | @more h h' d d' hs _ hd hcall ih =>
    obtain ⟨he, hhdr, hhidx, hindex⟩ := parsehdr_more hcall
    obtain ⟨hinv, hle⟩ := (nexthdrLoop_inv (ih.hdr.grow hd) rfl).1 he
    have hnext : nexthdrLoop d' (.ofNat h.hdr.idx) h.hdr h.hdr.len
        ((d'.take 0xffff).drop h.hdr.len) = ffhttpNexthdr h.hdr d' := rfl
    rw [hnext, ← hhdr] at hinv hle
    refine ⟨hindex.trans ih.indexHeaders, hinv, ?_, ih.count.trans hle, ih.count_max⟩
    rw [hhidx]
    exact ih.hidx.imp fun hh hdr hi => hi.grow hd
  | @ok h h' d d' hs _ hd hcall ih =>
    obtain ⟨he, hhdr, hhidx, hindex⟩ := parsehdr_ok hcall ih.indexHeaders
    obtain ⟨hidx, hgot, hlt, hle⟩ := (nexthdrLoop_inv (ih.hdr.grow hd) rfl).2 he
    have hnext : nexthdrLoop d' (.ofNat h.hdr.idx) h.hdr h.hdr.len
        ((d'.take 0xffff).drop h.hdr.len) = ffhttpNexthdr h.hdr d' := rfl
    rw [hnext, ← hhdr] at hidx hgot hlt hle
    have hlen : (hs ++ [(ffrangGet h'.hdr.key d', ffrangGet h'.hdr.val d')]).length =
        hs.length + 1 := length_append
    have hcount := ih.count
    refine ⟨hindex, ?_, ?_, by omega, by omega⟩
    · rw [hidx]
      trivial
    · rw [hhidx]
      exact rel_append (ih.hidx.imp fun hh hdr hi => hi.grow hd)
        (.cons ⟨hgot, rfl, rfl⟩ .nil)

end Calls

/-! ### The table of the headers -/

section Table

variable {alignPower2 : ℕ → ℕ} {mem : HttpMem} {ht : Htheaders} {hidx : List FfhttpHeadr}

/-- The entry of the table for a header. -/
def htEntry (hh : FfhttpHeadr) : UInt32 × Option FfhttpHeadr := (hh.hash, some hh)

theorem htHeadrInsert_rep {es : List (UInt32 × Option FfhttpHeadr)} (hrep : ht.Rep es)
    (hroom : es.length + hidx.length ≤ ht.nslots) (hmax : es.length + hidx.length < 2 ^ 31) :
    ∃ ht', htHeadrInsert ht hidx = some (some ht') ∧ ht'.Rep (es ++ hidx.map htEntry) ∧
      ht'.nslots = ht.nslots ∧ ht'.cmpkey = ht.cmpkey := by
  induction hidx generalizing ht es with
  | nil => exact ⟨ht, rfl, by rwa [map_nil, append_nil], rfl, rfl⟩
  | cons hh hidx ih =>
    rw [length_cons] at hroom hmax
    rcases ffhstIns_spec hrep (htEntry hh) le_rfl with
      ⟨-, r, ht₁, hins, hrep₁, hns₁, hcmp₁, hpos⟩ | ⟨hfull, -⟩
    · have hlen : (es ++ [htEntry hh]).length = es.length + 1 := length_append
      obtain ⟨ht', hloop, hrep', hns', hcmp'⟩ :=
        ih hrep₁ (by rw [hlen, hns₁]; omega) (by rw [hlen]; omega)
      rw [append_assoc] at hrep'
      refine ⟨ht', ?_, hrep', hns'.trans hns₁, hcmp'.trans hcmp₁⟩
      have hr : ¬r < 0 := Int32.not_lt.mpr (Int32.le_of_lt (hpos (by omega)))
      have hins' : ffhstIns ht.nslots ht hh.hash (some hh) = some (r, ht₁) := hins
      rw [htHeadrInsert, hins', bind_eq_bind, bind_some]
      dsimp only
      rw [if_neg hr, hloop]
    · omega

theorem slots_room (hpow : ∀ n, ∃ k, k < 64 ∧ alignPower2 n = 2 ^ k)
    (hge : ∀ n, n ≤ 2 ^ 63 → n ≤ alignPower2 n) {items : ℕ} (hitems : items ≤ 0xffff) :
    items < if alignPower2 (items + 1) * 75 % SIZE_BOUND / 100 < items + 1 then
      alignPower2 (alignPower2 (items + 1) + 1) else alignPower2 (items + 1) := by
  have hfirst := hge (items + 1) (by omega)
  split_ifs with hsmall
  · obtain ⟨k, hk, hslots⟩ := hpow (items + 1)
    have hk63 : k ≠ 63 := by
      rintro rfl
      have hwrap : 2 ^ 63 * 75 % SIZE_BOUND / 100 = 2 ^ 63 / 100 := by decide
      rw [hslots, hwrap] at hsmall
      omega
    have hle : 2 ^ k ≤ 2 ^ 62 := Nat.pow_le_pow_right (by decide) (by omega)
    have hsecond := hge (alignPower2 (items + 1) + 1) (by rw [hslots]; omega)
    omega
  · omega

theorem ffhstInit_room (hpow : ∀ n, ∃ k, k < 64 ∧ alignPower2 n = 2 ^ k)
    (hge : ∀ n, n ≤ 2 ^ 63 → n ≤ alignPower2 n) {items : ℕ} (hitems : items ≤ 0xffff) :
    ∃ ht : Htheaders, ffhstInit alignPower2 (fun _ => true) htHeadrCmpkey items = some ht ∧
      items < ht.nslots ∧ ht.cmpkey = htHeadrCmpkey := by
  have hn : (items / 1 + 1) % SIZE_BOUND = items + 1 := by
    rw [Nat.div_one]
    exact Nat.mod_eq_of_lt (by unfold SIZE_BOUND; omega)
  obtain ⟨ht, hinit⟩ : ∃ ht : Htheaders,
      ffhstInit alignPower2 (fun _ => true) htHeadrCmpkey items = some ht := ⟨_, rfl⟩
  refine ⟨ht, hinit, ?_, ?_⟩
  · rw [ffhstInit, if_pos rfl, hn] at hinit
    obtain rfl := some.inj hinit
    exact slots_room hpow hge hitems
  · rw [ffhstInit, if_pos rfl] at hinit
    obtain rfl := some.inj hinit
    rfl

/-- **The table holds the headers** in their order. -/
theorem htHeadrFill_rep (hpow : ∀ n, ∃ k, k < 64 ∧ alignPower2 n = 2 ^ k)
    (hge : ∀ n, n ≤ 2 ^ 63 → n ≤ alignPower2 n) (hlen : hidx.length ≤ 0xffff)
    (hmem : mem.calloc hidx.length = true) :
    ∃ ht : Htheaders, htHeadrFill alignPower2 mem hidx = some (some ht) ∧
      ht.Rep (hidx.map htEntry) ∧ hidx.length < ht.nslots ∧ ht.cmpkey = htHeadrCmpkey := by
  obtain ⟨ht₀, hinit, hroom, hcmp₀⟩ := ffhstInit_room hpow hge hlen
  have hrep₀ := ffhstInit_rep hpow hinit
  obtain ⟨ht, hins, hrep, hns, hcmp⟩ := @htHeadrInsert_rep ht₀ hidx _ hrep₀
    (by rw [length_nil]; omega) (by rw [length_nil]; omega)
  refine ⟨ht, ?_, hrep, hns ▸ hroom, hcmp.trans hcmp₀⟩
  rw [htHeadrFill, hmem, hinit]
  exact hins

variable {d name : List UInt8} {hs : List (List UInt8 × List UInt8)}

theorem IsHeadr.matches {hh : FfhttpHeadr} {hdr : List UInt8 × List UInt8}
    (hi : IsHeadr d hh hdr) :
    hstMatches htHeadrCmpkey (ffcrc32Iget name) name d (htEntry hh) = ffstrIeq hdr.1 name := by
  rw [hstMatches, htEntry, htHeadrCmpkey]
  rw [hi.got.hash, hi.key]
  cases heq : ffstrIeq hdr.1 name with
  | false =>
    rw [if_neg (by decide), Bool.and_eq_false_iff]
    exact .inr rfl
  | true =>
    rw [if_pos rfl, ffcrc32Iget_congr heq, beq_self_eq_true]
    rfl

/-- **The first header with a name** is the first entry that matches. -/
theorem find_htEntry (hall : List.Forall₂ (IsHeadr d) hidx hs) :
    (((hidx.map htEntry).find? (hstMatches htHeadrCmpkey (ffcrc32Iget name) name d)).bind
        Prod.snd).map (fun hh => ffrangGet hh.val d) =
      (hs.find? fun hdr => ffstrIeq hdr.1 name).map Prod.snd := by
  induction hall with
  | nil => rfl
  | @cons hh hdr hidx hs hi _ ih =>
    rw [map_cons, find?_cons, find?_cons, hi.matches]
    cases ffstrIeq hdr.1 name with
    | false => exact ih
    | true => exact congrArg some hi.val

theorem findsHeader_of_rep (hrep : ht.Rep (hidx.map htEntry))
    (hcmp : ht.cmpkey = htHeadrCmpkey) (hroom : hidx.length < ht.nslots)
    (hall : List.Forall₂ (IsHeadr d) hidx hs) : FindsHeader ht d hs name := by
  have hsome : ∀ e, (hidx.map htEntry).find?
      (hstMatches ht.cmpkey (ffcrc32Iget name) name d) = some e → e.2 ≠ none := by
    intro e he
    obtain ⟨hh, -, rfl⟩ := mem_map.mp (mem_of_find?_eq_some he)
    exact some_ne_none hh
  obtain ⟨m, v, hfind, hv, -⟩ :=
    hrep.findsEarliest_iff.mpr ⟨.inl (by rwa [length_map]), hsome⟩
  refine ⟨m, fun n hn => ?_⟩
  rw [hcmp] at hv
  rw [ffhttpFindhdr, hfind n hn, ← find_htEntry hall, ← hv]
  cases v with
  | none => rfl
  | some hh => rfl

/-- Without slots a search reads from `NULL`. -/
theorem ffhttpFindhdr_init (n : ℕ) : ffhttpFindhdr n htheadersInit d name = none := by
  have hfind : ffhstFind n htheadersInit (ffcrc32Iget name) name d = none := by
    cases n with
    | zero => rfl
    | succ n => rfl
  rw [ffhttpFindhdr, hfind]
  rfl

end Table

/-! ### Main result -/

/-- **A search for a header is right** just when there is a header: for each name it gives the
value of the first header with this name, or nothing. -/
theorem ffhttpFindhdr_iff {alignPower2 : ℕ → ℕ}
    (hpow : ∀ n, ∃ k, k < 64 ∧ alignPower2 n = 2 ^ k)
    (hge : ∀ n, n ≤ 2 ^ 63 → n ≤ alignPower2 n) {mem : HttpMem} {h₀ h h' : FfhttpHeaders}
    {d d' : List UInt8} {hs : List (List UInt8 × List UInt8)} (hstart : HdrStart h₀)
    (hrun : ParsesHdrs mem h₀ h d hs) (hd : d <+: d')
    (hcall : ffhttpParsehdr mem h d' = (h', .done)) (name : List UInt8) :
    (∃ ht, htheaders alignPower2 mem h'.hidx = some (some ht) ∧ FindsHeader ht d' hs name) ↔
      hs ≠ [] := by
  have hinv := hrun.inv hstart
  have hall : List.Forall₂ (IsHeadr d') h.hidx hs :=
    hinv.hidx.imp fun hh hdr hi => hi.grow hd
  have hlen := hall.length_eq
  have hmax := hinv.count_max
  obtain ⟨hhidx, hmem⟩ := parsehdr_done hcall
  rw [hhidx, htheaders]
  by_cases hnil : h.hidx = []
  · have hs_nil : hs = [] := by
      rw [hnil] at hall
      cases hall
      rfl
    rw [if_pos hnil]
    refine ⟨?_, fun hne => absurd hs_nil hne⟩
    rintro ⟨ht, hht, m, hfind⟩
    obtain rfl := some.inj (some.inj hht)
    have hnone := hfind m le_rfl
    rw [ffhttpFindhdr_init] at hnone
    cases hnone
  rw [if_neg hnil]
  have hne : hs ≠ [] := by
    rintro rfl
    exact hnil (length_eq_zero_iff.mp hlen)
  obtain ⟨ht, hfill, hrep, hroom, hcmp⟩ :=
    htHeadrFill_rep hpow hge (by omega) (hmem hnil)
  exact ⟨fun _ => hne, fun _ => ⟨ht, hfill, findsHeader_of_rep hrep hcmp hroom hall⟩⟩

theorem alignPower2_ge (n : ℕ) (hn : n ≤ 2 ^ 63) : n ≤ alignPower2 n := by
  rw [alignPower2]
  obtain ⟨k, hk⟩ : ∃ k, (List.range 63).findIdx (fun k => decide (n ≤ 2 ^ k)) = k := ⟨_, rfl⟩
  rw [hk]
  rcases Nat.lt_or_ge k 63 with hlt | hge
  · have hfound := @findIdx_getElem _ (fun k => decide (n ≤ 2 ^ k)) (List.range 63)
      (by rw [hk, length_range]; exact hlt)
    rw [getElem_range, hk] at hfound
    exact of_decide_eq_true hfound
  · exact hn.trans (Nat.pow_le_pow_right (by decide) hge)

/-- There is memory. -/
def memOk : HttpMem := ⟨fun _ => true, fun _ => true⟩

/-- The header of "Host: a" is found. -/
theorem ffhttpFindhdr_iff_host :
    (∃ ht, htheaders alignPower2 memOk [⟨3475444733, ⟨4, 0⟩, ⟨1, 6⟩⟩] = some (some ht) ∧
      FindsHeader ht (ascii "Host: a\r\n\r\n") [(ascii "Host", ascii "a")] (ascii "HOST")) ↔
      [(ascii "Host", ascii "a")] ≠ [] := by
  have hone : ffhttpParsehdr memOk ffhttpInit (ascii "Host: a\r\n\r\n") =
      ({ ffhttpInit with
          len := 9
          hidx := [⟨3475444733, ⟨4, 0⟩, ⟨1, 6⟩⟩]
          hdr := ⟨9, 0, 11, 3475444733, ⟨4, 0⟩, ⟨1, 6⟩⟩ }, .ok) := by
    decide
  have hend : ffhttpParsehdr memOk { ffhttpInit with
          len := 9
          hidx := [⟨3475444733, ⟨4, 0⟩, ⟨1, 6⟩⟩]
          hdr := ⟨9, 0, 11, 3475444733, ⟨4, 0⟩, ⟨1, 6⟩⟩ } (ascii "Host: a\r\n\r\n") =
      ({ ffhttpInit with
          len := 11
          hidx := [⟨3475444733, ⟨4, 0⟩, ⟨1, 6⟩⟩]
          hdr := ⟨11, 0, 11, 0, ⟨0, 9⟩, ⟨1, 6⟩⟩ }, .done) := by
    decide
  exact ffhttpFindhdr_iff alignPower2_pow alignPower2_ge ⟨rfl, rfl, rfl⟩
    (.ok (.init (ascii "Host: a\r\n\r\n")) prefix_rfl hone) prefix_rfl hend
    (ascii "HOST")

/-- **Without headers a search reads from `NULL`**: an empty line is the whole of the headers. -/
theorem ffhttpFindhdr_empty :
    ∃ h', ffhttpParsehdr memOk ffhttpInit (ascii "\r\n") = (h', .done) ∧
      ¬∃ ht, htheaders alignPower2 memOk h'.hidx = some (some ht) ∧
        FindsHeader ht (ascii "\r\n") [] (ascii "Host") := by
  have hend : ffhttpParsehdr memOk ffhttpInit (ascii "\r\n") =
      ({ ffhttpInit with len := 2, hdr := ⟨2, 0, 0, 0, ⟨0, 0⟩, ⟨0, 0⟩⟩ }, .done) := by
    decide
  refine ⟨_, hend, ?_⟩
  rintro ⟨ht, hht, m, hfind⟩
  obtain rfl := some.inj (some.inj hht)
  have hnone := hfind m le_rfl
  rw [ffhttpFindhdr_init] at hnone
  cases hnone

end Http

end FF
