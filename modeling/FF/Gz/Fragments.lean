import FF.Gz.Stream

/-!
# GZIP files in fragments

The reader follows the units of a file as long as each of its steps meets `Ok`.
-/

namespace FF

namespace Gz

open List

/-! ### The steps that go right -/

/-- **A step that goes right**: the extra field is not empty, the text that begins here ends in this
chunk, the size of the header with its checksum is a `uint`, and a call that answers `Z_DONE` has
taken nothing. -/
def Ok {Z : Type} (zlib : Zlib Z) (cap : ℕ) (t : Ffgz Z) (d : List UInt8) : Prop :=
  match t.state with
  | .extra => extraLen t.buf.bytes ≠ 0
  | .name => hasFlag t.buf.bytes GZ_FNAME = true → ffszNlen d ≠ d.length
  | .cmt => hasFlag t.buf.bytes GZ_FCOMMENT = true → ffszNlen d ≠ d.length
  | .crc => hasFlag t.buf.bytes GZ_FHDRCRC = true → t.buf.len + 2 < 2 ^ 32
  | .data =>
    match t.lz with
    | none => True
    | some z =>
      match (zlib.inflate z d cap).1 with
      | .done rd => rd = 0
      | _ => True
  | _ => True

instance Ok.decidable {Z : Type} (zlib : Zlib Z) (cap : ℕ) (t : Ffgz Z) (d : List UInt8) :
    Decidable (Ok zlib cap t d) :=
  match h : t.state with
  | .extra => decidable_of_iff (extraLen t.buf.bytes ≠ 0) (by simp only [Ok, h])
  | .name => decidable_of_iff (hasFlag t.buf.bytes GZ_FNAME = true → ffszNlen d ≠ d.length)
      (by simp only [Ok, h])
  | .cmt => decidable_of_iff (hasFlag t.buf.bytes GZ_FCOMMENT = true → ffszNlen d ≠ d.length)
      (by simp only [Ok, h])
  | .crc => decidable_of_iff (hasFlag t.buf.bytes GZ_FHDRCRC = true → t.buf.len + 2 < 2 ^ 32)
      (by simp only [Ok, h])
  | .data =>
    match hz : t.lz with
    | none => .isTrue (by simp only [Ok, h, hz])
    | some z =>
      match hr : (zlib.inflate z d cap).1 with
      | .done rd => decidable_of_iff (rd = 0) (by simp only [Ok, h, hz, hr])
      | .err | .out _ _ => .isTrue (by simp only [Ok, h, hz, hr])
  | .trlseek | .gather | .trl | .hdr | .hdrok | .lzinit | .done => .isTrue (by simp only [Ok, h])

/-! ### The reader and the file -/

section Relation

variable {Z D : Type} (dec : Decoder D) (crc32 : List UInt8 → UInt32 → UInt32)
  (pos : Z → Option D) (pending : Z → List UInt8)

/-- The number of bytes in the buffer in front of what is gathered for the state. -/
def Ffgz.base (t : Ffgz Z) : St → ℕ
  | .extra => HDR_SIZE
  | .name => HDR_SIZE + 2
  | .hdrok => t.hsize - 2
  | _ => 0

/-- What the state `st` is for, behind the bytes `h` of the header. -/
def Awaits (t : Ffgz Z) (h : List UInt8) : St → Want D → Prop
  | .trl, a => a = .trl0 ∧ t.nameoff = 0
  | .hdr, a => a = .hdr ∧ t.nameoff = 0
  | .extra, a => a = .extraLen h ∧ t.nameoff = 0
  | .name, a => t.nameoff = 0 ∧ ∃ n, n < 2 ^ 16 ∧ a = .extra h n
  | .hdrok, a => a = .hcrc h t.nameoff
  | .done, a => a = .trl t.crc t.outsize
  | _, _ => False

/-- The bytes `l` have been gathered for the state `st`. -/
def Gathering (t : Ffgz Z) (st : St) (a : Want D) (l : List UInt8) : Prop :=
  ∃ h, t.buf.Has (h ++ l) ∧ h.length = t.base st ∧ t.hsize = h.length + need a ∧ Awaits t h st a

/-- **The reader is where `a` is.** -/
def At (t : Ffgz Z) (a : Want D) : Prop :=
  match t.state with
  | .trlseek => a = .trl0 ∧ t.buf.Has [] ∧ t.nameoff = 0 ∧ TRL_SIZE ≤ t.inoff ∧ t.inoff < 2 ^ 63
  | .gather => ∃ l, Gathering t t.nxstate a l ∧ l.length < need a
  | .name => ∃ h, t.buf.Has h ∧ t.hsize = h.length ∧ h.length < 2 ^ 32 ∧ 4 ≤ h.length ∧
      t.nameoff = 0 ∧ a = (toName dec h).2
  | .cmt => ∃ h, t.buf.Has h ∧ t.hsize = h.length % 2 ^ 32 ∧ 4 ≤ h.length ∧
      a = (toCmt dec h t.nameoff).2
  | .crc => ∃ h, t.buf.Has h ∧ t.hsize = h.length % 2 ^ 32 ∧ 4 ≤ h.length ∧
      a = (toCrc dec h t.nameoff).2
  | .lzinit => a = .data dec.first 0 0 ∧ ∃ h, t.buf.Has h
  | .data => t.buf.Has [] ∧ t.outsize < 2 ^ 64 ∧ ∃ z, t.lz = some z ∧
      a = dataAt (pos z) (crc32 (pending z) t.crc) ((t.outsize + (pending z).length) % 2 ^ 64)
  | st => ∃ l, Gathering t st a l ∧ l.length = need a

/-- The bytes that have been collected. -/
def Ffgz.held (t : Ffgz Z) : List UInt8 :=
  match t.state with
  | .gather => t.buf.bytes.drop (t.base t.nxstate)
  | .trl | .hdr | .extra | .hdrok | .done => t.buf.bytes.drop (t.base t.state)
  | _ => []

/-- The output that `z_inflate` keeps back. -/
def Ffgz.kept (t : Ffgz Z) : List UInt8 :=
  match t.lz with
  | some z => pending z
  | none => []

/-- The events that are still to be given. -/
def Ffgz.owed (t : Ffgz Z) : List Ev :=
  match t.state with
  | .trlseek => [.seek (t.inoff - TRL_SIZE)]
  | .name => (toName dec t.buf.bytes).1
  | .cmt => (toCmt dec t.buf.bytes t.nameoff).1
  | .crc => (toCrc dec t.buf.bytes t.nameoff).1
  | .data => (t.kept pending).map .byte
  | _ => []

/-- A bound for the number of passes that are left. -/
def rank (width : ℕ) (t : Ffgz Z) (d : List UInt8) : ℕ :=
  (width + 16) * d.length +
    match t.state with
    | .hdr | .extra => 9
    | .name => 8
    | .cmt => 7
    | .crc | .hdrok => 6
    | .lzinit => 5
    | .data => 2 + (t.kept pending).length
    | .trlseek | .trl | .done => 1
    | .gather => 0

/-- What a pass has to keep. -/
def Keeps (width : ℕ) (a : Want D) (s : List UInt8) (o : List Ev) (k : ℕ) :
    Pass (Ffgz Z) UInt8 FfgzR → Prop :=
  PassKeeps FfgzR.verdict FfgzR.ev (gzUnit dec crc32) (fun _ _ => []) (At dec crc32 pos pending)
    Ffgz.held (Ffgz.owed dec pending) (rank pending width) a s o k

end Relation

section Passes

variable {Z D : Type} {alloc : ℕ → Bool} {zlib : Zlib Z} {crc32 : List UInt8 → UInt32 → UInt32}
  {cap width : ℕ} {dec : Decoder D} {pos : Z → Option D} {pending : Z → List UInt8} {t : Ffgz Z}
  {a : Want D} {d l : List UInt8} {k : ℕ}

-- Without this, the comparison with 2 ^ 63 in the case is evaluated.
attribute [local irreducible] caseTrlseek

theorem Gathering.held {st : St} (h : Gathering t st a l) : t.buf.bytes.drop (t.base st) = l := by
  obtain ⟨x, hbuf, hx, -⟩ := h
  rw [hbuf.1, ← hx, drop_left]

theorem Awaits.unit {st : St} {x : List UInt8} (h : Awaits t x st a) (s : List UInt8) :
    gzUnit dec crc32 a s = gathered need (act dec crc32) a s := by
  cases a with
  | name | cmt =>
    cases st with
    | name => exact absurd h.2.choose_spec.2 (by simp)
    | trl | hdr | extra => exact absurd h.1 (by simp)
    | hdrok | done => cases h
    | trlseek | gather | cmt | crc | lzinit | data => exact h.elim
  | _ => rfl

theorem Gathering.unit_none {st : St} (h : Gathering t st a l) (hl : l.length < need a) :
    gzUnit dec crc32 a l = none := by
  obtain ⟨x, -, -, -, hx⟩ := h
  rw [hx.unit]
  exact gathered_none.mpr hl

theorem Gathering.unit_some {st : St} (h : Gathering t st a l) (hl : l.length = need a) :
    gzUnit dec crc32 a (l ++ d) = some ((act dec crc32 a l).1, (act dec crc32 a l).2, d) := by
  obtain ⟨x, -, -, -, hx⟩ := h
  rw [hx.unit]
  exact gathered_some hl

theorem Gathering.full {st : St} (hst : t.state = st) (h : Gathering t st a l)
    (hl : l.length = need a) (hname : st ≠ .name) :
    At dec crc32 pos pending t a ∧ t.held = l ∧ t.owed dec pending = [] := by
  have hheld := h.held
  obtain ⟨x, -, -, -, hx⟩ := id h
  unfold At Ffgz.held Ffgz.owed
  rw [hst]
  cases st with
  | trl | hdr | extra | hdrok | done => exact ⟨⟨l, h, hl⟩, hheld, rfl⟩
  | name => exact absurd rfl hname
  | trlseek | gather | cmt | crc | lzinit | data => exact hx.elim

theorem Gathering.rank_le {st : St} (hst : t.state = st) (h : Gathering t st a l) :
    rank pending width t d ≤ (width + 16) * d.length + 9 := by
  obtain ⟨x, -, -, -, hx⟩ := h
  unfold rank
  rw [hst]
  cases st with
  | trlseek | gather | cmt | crc | lzinit | data => exact hx.elim
  | _ => simp only; omega

theorem at_full {st : St} (hst : t.state = st) (h : At dec crc32 pos pending t a)
    (hfull : st = .trl ∨ st = .hdr ∨ st = .extra ∨ st = .hdrok ∨ st = .done) :
    ∃ l, Gathering t st a l ∧ l.length = need a ∧ t.held = l ∧ t.owed dec pending = [] := by
  unfold At at h
  rw [hst] at h
  obtain rfl | rfl | rfl | rfl | rfl := hfull
  all_goals
    obtain ⟨l, hg, hl⟩ := h
    exact ⟨l, hg, hl, (@Gathering.full Z D crc32 dec pos pending t a l _ hst hg hl
      (by decide)).2⟩

/-- **`R_GATHER`** -/
theorem caseGather_keeps (halloc : ∀ n, alloc n = true) (hst : t.state = .gather)
    (hg : Gathering t t.nxstate a l) (hl : l.length < need a) (hk : (width + 16) * d.length ≤ k) :
    Keeps dec crc32 pos pending width a (l ++ d) [] k (caseGather alloc t d) := by
  obtain ⟨x, hbuf, hx, hsize, haw⟩ := id hg
  have hlen : (x ++ l).length = x.length + l.length := length_append
  obtain ⟨buf, hbuf'⟩ :=
    @ffarrAppendUntil_spec t.buf (x ++ l) alloc halloc hbuf d t.hsize (by omega)
  split at hbuf'
  · next hfew =>
      obtain ⟨happ, hhas⟩ := hbuf'
      rw [append_assoc] at hhas
      have hfew' : (l ++ d).length < need a := by
        rw [length_append]
        omega
      have hg' : Gathering { t with buf := buf, inoff := (t.inoff + d.length) % 2 ^ 64 } t.nxstate a
          (l ++ d) := ⟨x, hhas, hx, hsize, haw⟩
      rw [caseGather, happ]
      refine .inr ⟨[], a, l ++ d, rfl, .refl, .inl ⟨rfl, ?_, ?_, ?_, hg'.unit_none hfew', rfl,
        suffix_append l d⟩⟩
      · unfold At
        rw [hst]
        exact ⟨l ++ d, hg', hfew'⟩
      · unfold Ffgz.held
        rw [hst]
        exact hg'.held
      · unfold Ffgz.owed
        rw [hst]
  next hmany =>
    obtain ⟨happ, hhas⟩ := hbuf'
    obtain ⟨r, hr⟩ : ∃ r, r = t.hsize - (x ++ l).length := ⟨_, rfl⟩
    rw [← hr] at happ hhas
    rw [append_assoc] at hhas
    obtain ⟨t', ht'⟩ : ∃ t' : Ffgz Z, t' = { t with
      buf := buf, inoff := (t.inoff + r) % 2 ^ 64, state := t.nxstate } := ⟨_, rfl⟩
    have hfull : (l ++ d.take r).length = need a := by
      rw [length_append, length_take]
      omega
    have hg' : Gathering t' t.nxstate a (l ++ d.take r) := by
      rw [ht']
      exact ⟨x, hhas, hx, hsize, haw⟩
    have hsplit : l ++ d = (l ++ d.take r) ++ d.drop r := by
      rw [append_assoc, take_append_drop]
    have hless : (width + 16) * (d.drop r).length + 16 ≤ k := by
      have hdrop : (d.drop r).length + 1 ≤ d.length := by
        rw [length_drop]
        omega
      have hmul := Nat.mul_le_mul_left (width + 16) hdrop
      rw [Nat.mul_add, Nat.mul_one] at hmul
      omega
    have hcase : caseGather alloc t d = .again t' (d.drop r) := by rw [caseGather, happ, ht']
    have hst' : t'.state = t.nxstate := by rw [ht']
    rw [hcase]
    have hrank := @Gathering.rank_le Z D width pending t' a (d.drop r) _ _ hst' hg'
    by_cases hname : t.nxstate = .name
    · rw [hname] at hg' hst'
      have hunit := @Gathering.unit_some Z D crc32 dec t' a (d.drop r) _ _ hg' hfull
      obtain ⟨y, hhas', hy, hsize', hoff, n, hn, rfl⟩ := hg'
      have hylen : (y ++ (l ++ d.take r)).length = y.length + (n + 1) := by
        rw [length_append, hfull]
        rfl
      have hbase : y.length = 12 := hy
      refine ⟨by omega, (toName dec (y ++ (l ++ d.take r))).1,
        (toName dec (y ++ (l ++ d.take r))).2, ?_, ?_, ?_⟩
      · unfold Ffgz.owed
        rw [hst', hhas'.1, nil_append]
      · unfold Ffgz.held
        rw [hst', hsplit]
        exact .one hunit
      · unfold At
        rw [hst']
        exact ⟨y ++ (l ++ d.take r), hhas', by rw [hylen, hsize']; rfl, by omega, by omega, hoff, rfl⟩
    · obtain ⟨hat, hheld, howed⟩ := @Gathering.full Z D crc32 dec pos pending t' a _ _ hst' hg'
        hfull hname
      refine ⟨by omega, [], a, howed.symm, ?_, hat⟩
      rw [hheld, ← hsplit]
      exact .refl

theorem Keeps.again {s : List UInt8} {o : List Ev} {t' : Ffgz Z} {d' : List UInt8}
    (hrank : rank pending width t' d' < k) {es : List Ev} {a' : Want D}
    (hes : o ++ es = t'.owed dec pending)
    (htakes : Takes (gzUnit dec crc32) a s es a' (t'.held ++ d'))
    (hat : At dec crc32 pos pending t' a') :
    Keeps dec crc32 pos pending width a s o k (.again t' d') :=
  ⟨hrank, es, a', hes, htakes, hat⟩

/-- Gathering begins behind the bytes `x`. -/
theorem at_gather {t' : Ffgz Z} {x : List UInt8} {n : ℕ} {st : St} (hbuf : t'.buf.Has x)
    (hx : x.length = (t'.gather n st).base st) (hsize : n = x.length + need a) (hn : n < 2 ^ 32)
    (haw : Awaits (t'.gather n st) x st a) :
    At dec crc32 pos pending (t'.gather n st) a ∧ (t'.gather n st).held = [] ∧
      (t'.gather n st).owed dec pending = [] ∧
      rank pending width (t'.gather n st) d = (width + 16) * d.length := by
  have hg : Gathering (t'.gather n st) st a [] :=
    ⟨x, by rwa [append_nil], hx, (Nat.mod_eq_of_lt hn).trans hsize, haw⟩
  exact ⟨⟨[], hg, need_pos a⟩, hg.held, rfl, rfl⟩

/-- **`R_TRLSEEK`** -/
theorem caseTrlseek_keeps (hst : t.state = .trlseek) (h : At dec crc32 pos pending t a)
    (hk : (width + 16) * d.length < k) :
    Keeps dec crc32 pos pending width a d [.seek (t.inoff - TRL_SIZE)] k (caseTrlseek t d) := by
  unfold At at h
  simp only [hst] at h
  obtain ⟨rfl, hbuf, hoff, hlow, hhigh⟩ := h
  have hsub : sizeSub t.inoff TRL_SIZE = t.inoff - TRL_SIZE :=
    sizeSub_of_le hlow (by rw [SIZE_BOUND]; omega)
  have hlt : ¬t.inoff - TRL_SIZE ≥ 2 ^ 63 := by omega
  obtain ⟨hat, hheld, howed, hrank⟩ := @at_gather Z D crc32 width dec pos pending .trl0 d
    { t with inoff := t.inoff - TRL_SIZE } [] TRL_SIZE .trl hbuf rfl rfl (by decide) ⟨rfl, hoff⟩
  have hcase : caseTrlseek t d =
      .ret (Ffgz.gather { t with inoff := t.inoff - TRL_SIZE } TRL_SIZE .trl) d
        (.seek (t.inoff - TRL_SIZE)) := by
    rw [caseTrlseek]
    simp only [hsub]
    rw [if_neg hlt]
    rfl
  rw [hcase]
  refine .inl ⟨rfl, by omega, [], .trl0, ?_, ?_, hat⟩
  · rw [howed]
    rfl
  · rw [hheld]
    exact .refl

/-- **`R_TRL`** -/
theorem caseTrl_keeps (hg : Gathering t .trl a l) (hl : l.length = need a)
    (hk : (width + 16) * d.length < k) :
    Keeps dec crc32 pos pending width a (l ++ d) [] k (caseTrl t d) := by
  have hunit := @Gathering.unit_some Z D crc32 dec t a d l _ hg hl
  obtain ⟨x, hbuf, hx, -, rfl, hoff⟩ := hg
  obtain ⟨t', ht'⟩ : ∃ t' : Ffgz Z, t' = { t with
    outsize := leNat (field t.buf.bytes 4 4)
    trlcrc := leNat (field t.buf.bytes 0 4)
    buf := t.buf.setLen 0
    inoff := 0 } := ⟨_, rfl⟩
  have hbuf' : t'.buf.Has [] := by
    rw [ht']
    exact hbuf.setLen (Nat.zero_le _)
  obtain ⟨hat, hheld, howed, hrank⟩ := @at_gather Z D crc32 width dec pos pending .hdr d t' []
    HDR_SIZE .hdr hbuf' rfl rfl (by decide) ⟨rfl, by rw [ht']; exact hoff⟩
  have hcase : caseTrl t d = .ret (t'.gather HDR_SIZE .hdr) d (.seek 0) := by rw [caseTrl, ht']; rfl
  rw [hcase]
  refine .inl ⟨rfl, by omega, [.seek 0], .hdr, ?_, ?_, hat⟩
  · rw [howed]
    rfl
  · rw [hheld]
    exact .one hunit

/-- **`R_HDR`** -/
theorem caseHdr_keeps (hg : Gathering t .hdr a l) (hl : l.length = need a)
    (hk : (width + 16) * d.length + 9 ≤ k) :
    Keeps dec crc32 pos pending width a (l ++ d) [] k (caseHdr t d) := by
  have hunit := @Gathering.unit_some Z D crc32 dec t a d l _ hg hl
  obtain ⟨x, hbuf, hx, hsize, rfl, hoff⟩ := hg
  obtain rfl : x = [] := length_eq_zero_iff.mp hx
  rw [nil_append] at hbuf
  have hlen : l.length = 10 := hl
  have hsize' : t.hsize = 10 := hsize
  rw [act] at hunit
  rw [caseHdr, hbuf.1]
  by_cases hgood : goodHdr l
  · rw [if_neg (by simp [hgood])] at hunit ⊢
    by_cases hextra : hasFlag l GZ_FEXTRA
    · rw [if_pos hextra] at hunit ⊢
      obtain ⟨hat, hheld, howed, hrank⟩ := @at_gather Z D crc32 width dec pos pending
        (.extraLen l) d t l (t.hsize + 2) .extra hbuf hlen (by rw [hlen, hsize']; rfl) (by omega)
        ⟨rfl, hoff⟩
      refine Keeps.again (by omega) howed.symm ?_ hat
      rw [hheld]
      exact .one hunit
    rw [if_neg hextra] at hunit ⊢
    refine Keeps.again ?_ ?_ (.one hunit) ⟨l, hbuf, hsize'.trans hlen.symm, ?_, ?_, hoff, rfl⟩
    · rw [rank]
      simp only
      omega
    · rw [nil_append, ← hbuf.1]
      rfl
    · omega
    · omega
  · rw [if_pos (by simp [hgood])] at hunit ⊢
    exact .inr ⟨[], .hdr, l ++ d, rfl, .refl, .inr ⟨rfl, .inl ⟨d, hunit⟩⟩⟩

/-- **`R_EXTRA`** -/
theorem caseExtra_keeps (hg : Gathering t .extra a l) (hl : l.length = need a)
    (hok : extraLen t.buf.bytes ≠ 0) (hk : (width + 16) * d.length < k) :
    Keeps dec crc32 pos pending width a (l ++ d) [] k (caseExtra t d) := by
  have hunit := @Gathering.unit_some Z D crc32 dec t a d l _ hg hl
  obtain ⟨x, hbuf, hx, hsize, rfl, hoff⟩ := hg
  have hxlen : x.length = 10 := hx
  have hllen : l.length = 2 := hl
  have hlen : (x ++ l).length = 12 := by rw [length_append, hxlen, hllen]
  have hfield : extraLen t.buf.bytes = leNat l := by
    rw [extraLen, field, hbuf.1, HDR_SIZE, ← hxlen, drop_left, take_of_length_le (by omega)]
  have hbound : leNat l < 2 ^ 16 := by
    have hlt := leNat_lt l
    rw [hllen] at hlt
    exact hlt
  obtain ⟨n, hn⟩ := Nat.exists_eq_succ_of_ne_zero (hfield ▸ hok)
  rw [act, hn] at hunit
  have hsize' : t.hsize = 12 := by rw [hsize, hxlen]; rfl
  obtain ⟨hat, hheld, howed, hrank⟩ := @at_gather Z D crc32 width dec pos pending
    (.extra (x ++ l) n) d t (x ++ l) (t.hsize + extraLen t.buf.bytes) .name hbuf hlen
    (by rw [hlen, hsize', hfield, hn]; rfl) (by omega) ⟨hoff, n, by omega, rfl⟩
  refine Keeps.again (by omega) howed.symm ?_ hat
  rw [hheld]
  exact .one hunit

theorem take_ne_nil (d : List UInt8) (hd : ffszNlen d ≠ d.length) : d.take (ffszNlen d + 1) ≠ [] := by
  rw [ne_eq, take_eq_nil_iff]
  rintro (hno | rfl)
  · omega
  · exact hd rfl

/-- **`R_NAME`** -/
theorem caseName_keeps (halloc : ∀ n, alloc n = true) (hst : t.state = .name)
    (h : At dec crc32 pos pending t a)
    (hok : hasFlag t.buf.bytes GZ_FNAME = true → ffszNlen d ≠ d.length)
    (hk : (width + 16) * d.length + 8 ≤ k) :
    Keeps dec crc32 pos pending width a d (toName dec t.buf.bytes).1 k (caseName alloc t d) := by
  unfold At at h
  simp only [hst] at h
  obtain ⟨x, hbuf, hsize, hlt, hx, hoff, rfl⟩ := h
  rw [caseName, hbuf.1]
  rw [hbuf.1] at hok
  by_cases hflag : hasFlag x GZ_FNAME
  · have hd := hok hflag
    obtain ⟨b, hb⟩ : ∃ b, b = d.take (ffszNlen d + 1) := ⟨_, rfl⟩
    have hblen : b.length = ffszNlen d + 1 := by
      have hle := ffszNlen_le d
      rw [hb, length_take]
      omega
    obtain ⟨buf, happ, hhas, -⟩ := @ffarrAppend_grow t.buf x alloc halloc hbuf b
      (by rw [hb]; exact take_ne_nil d hd)
    have hnext : toName dec x = ([], .name x) := if_pos hflag
    have hunit : gzUnit dec crc32 (.name x) d =
        some ((toCmt dec (x ++ b) x.length).1, some (toCmt dec (x ++ b) x.length).2,
          d.drop (ffszNlen d + 1)) := by
      rw [gzUnit, textUnit, if_neg hd, ← hb]
    have hoff' : t.buf.len % 2 ^ 32 = x.length := by
      rw [hbuf.2]
      exact Nat.mod_eq_of_lt hlt
    rw [if_pos hflag, hnext]
    simp only [if_neg hd, ← hb, happ, hoff']
    refine Keeps.again ?_ ?_ (.one hunit) ⟨x ++ b, hhas, ?_, ?_, rfl⟩
    · rw [rank]
      have hmul := Nat.mul_le_mul_left (width + 16) (drop_sublist (ffszNlen d + 1) d).length_le
      simp only
      omega
    · unfold Ffgz.owed
      simp only [hhas.1, nil_append]
    · simp only [length_append, hblen, hsize]
    · rw [length_append]
      omega
  have hnext : toName dec x = toCmt dec x 0 := if_neg hflag
  rw [if_neg hflag, hnext]
  refine Keeps.again ?_ ?_ (.refl) ⟨x, hbuf, ?_, hx, ?_⟩
  · rw [rank]
    simp only
    omega
  · unfold Ffgz.owed
    simp only [hbuf.1, hoff, append_nil]
  · rw [hsize]
    exact (Nat.mod_eq_of_lt hlt).symm
  · rw [hoff]

/-- **`R_CMT`** -/
theorem caseCmt_keeps (halloc : ∀ n, alloc n = true) (hst : t.state = .cmt)
    (h : At dec crc32 pos pending t a)
    (hok : hasFlag t.buf.bytes GZ_FCOMMENT = true → ffszNlen d ≠ d.length)
    (hk : (width + 16) * d.length + 7 ≤ k) :
    Keeps dec crc32 pos pending width a d (toCmt dec t.buf.bytes t.nameoff).1 k
      (caseCmt alloc t d) := by
  unfold At at h
  simp only [hst] at h
  obtain ⟨x, hbuf, hsize, hx, rfl⟩ := h
  rw [caseCmt, hbuf.1]
  rw [hbuf.1] at hok
  by_cases hflag : hasFlag x GZ_FCOMMENT
  · have hd := hok hflag
    obtain ⟨b, hb⟩ : ∃ b, b = d.take (ffszNlen d + 1) := ⟨_, rfl⟩
    have hblen : b.length = ffszNlen d + 1 := by
      have hle := ffszNlen_le d
      rw [hb, length_take]
      omega
    obtain ⟨buf, happ, hhas, -⟩ := @ffarrAppend_grow t.buf x alloc halloc hbuf b
      (by rw [hb]; exact take_ne_nil d hd)
    have hnext : toCmt dec x t.nameoff = ([], .cmt x t.nameoff) := if_pos hflag
    have hunit : gzUnit dec crc32 (.cmt x t.nameoff) d =
        some ((toCrc dec (x ++ b) t.nameoff).1, some (toCrc dec (x ++ b) t.nameoff).2,
          d.drop (ffszNlen d + 1)) := by
      rw [gzUnit, textUnit, if_neg hd, ← hb]
    rw [if_pos hflag, hnext]
    simp only [if_neg hd, ← hb, happ]
    refine Keeps.again ?_ ?_ (.one hunit) ⟨x ++ b, hhas, ?_, ?_, rfl⟩
    · rw [rank]
      have hmul := Nat.mul_le_mul_left (width + 16) (drop_sublist (ffszNlen d + 1) d).length_le
      simp only
      omega
    · unfold Ffgz.owed
      simp only [hhas.1, nil_append]
    · simp only [length_append, hblen, hsize]
      omega
    · rw [length_append]
      omega
  have hnext : toCmt dec x t.nameoff = toCrc dec x t.nameoff := if_neg hflag
  rw [if_neg hflag, hnext]
  refine Keeps.again ?_ ?_ (.refl) ⟨x, hbuf, hsize, hx, rfl⟩
  · rw [rank]
    simp only
    omega
  · unfold Ffgz.owed
    simp only [hbuf.1, append_nil]

theorem infoKeeps {h : List UInt8} {s : List UInt8} {o : List Ev} {es : List Ev}
    (hbuf : t.buf.Has h) (hk : (width + 16) * d.length + 6 ≤ k)
    (hes : o ++ es = (toData dec h t.nameoff).1)
    (htakes : Takes (gzUnit dec crc32) a s es (.data dec.first 0 0) d) :
    Keeps dec crc32 pos pending width a s o k (caseHdrok t d) := by
  rw [caseHdrok, hbuf.1]
  refine .inl ⟨rfl, ?_, es, .data dec.first 0 0, ?_, htakes, rfl, h, hbuf⟩
  · rw [rank]
    simp only
    omega
  · rw [hes]
    rfl

/-- **`R_CRC`** -/
theorem caseCrc_keeps (hst : t.state = .crc) (h : At dec crc32 pos pending t a)
    (hok : hasFlag t.buf.bytes GZ_FHDRCRC = true → t.buf.len + 2 < 2 ^ 32)
    (hk : (width + 16) * d.length + 6 ≤ k) :
    Keeps dec crc32 pos pending width a d (toCrc dec t.buf.bytes t.nameoff).1 k (caseCrc t d) := by
  unfold At at h
  simp only [hst] at h
  obtain ⟨x, hbuf, hsize, hx, rfl⟩ := h
  rw [caseCrc, hbuf.1]
  rw [hbuf.1, hbuf.2] at hok
  by_cases hflag : hasFlag x GZ_FHDRCRC
  · have hroom := hok hflag
    have hsize' : t.hsize = x.length := by omega
    have hnext : toCrc dec x t.nameoff = ([], .hcrc x t.nameoff) := if_pos hflag
    rw [if_pos hflag, hnext]
    obtain ⟨hat, hheld, howed, hrank⟩ := @at_gather Z D crc32 width dec pos pending
      (.hcrc x t.nameoff) d t x (t.hsize + 2) .hdrok hbuf
      (by
        show x.length = (t.hsize + 2) % 2 ^ 32 - 2
        omega)
      (by rw [hsize']; rfl) (by omega) rfl
    refine Keeps.again (by omega) howed.symm ?_ hat
    rw [hheld]
    exact .refl
  · have hnext : toCrc dec x t.nameoff = toData dec x t.nameoff := if_neg hflag
    rw [if_neg hflag, hnext]
    exact infoKeeps hbuf hk (append_nil _) .refl

/-- **`R_HDROK`** -/
theorem caseHdrok_keeps (hg : Gathering t .hdrok a l) (hl : l.length = need a)
    (hk : (width + 16) * d.length + 6 ≤ k) :
    Keeps dec crc32 pos pending width a (l ++ d) [] k (caseHdrok t d) := by
  have hunit := @Gathering.unit_some Z D crc32 dec t a d l _ hg hl
  obtain ⟨x, hbuf, hx, hsize, rfl⟩ := hg
  exact infoKeeps hbuf hk (nil_append _) (.one hunit)

/-- **`R_DONE`** -/
theorem caseDone_keeps (hg : Gathering t .done a l) (hl : l.length = need a) :
    Keeps dec crc32 pos pending width a (l ++ d) [] k (caseDone t d) := by
  have hunit := @Gathering.unit_some Z D crc32 dec t a d l _ hg hl
  obtain ⟨x, hbuf, hx, hsize, rfl⟩ := hg
  obtain rfl : x = [] := length_eq_zero_iff.mp hx
  rw [nil_append] at hbuf
  rw [caseDone, hbuf.1]
  refine .inr ⟨[], _, l ++ d, rfl, .refl, .inr ⟨?_, .inl ⟨d, hunit⟩⟩⟩
  rw [trlStatus]
  split
  · rfl
  · split <;> rfl

/-- **`R_LZINIT`** -/
theorem caseLzinit_keeps (hcrc : CrcOk crc32) (hz : InflateOk zlib dec pos pending width)
    (hst : t.state = .lzinit) (h : At dec crc32 pos pending t a)
    (hk : (width + 16) * d.length + 5 ≤ k) :
    Keeps dec crc32 pos pending width a d [] k (caseLzinit zlib t d) := by
  unfold At at h
  simp only [hst] at h
  obtain ⟨rfl, x, hbuf⟩ := h
  obtain ⟨z, hinit, hpos, hpend⟩ := hz.init
  simp only [caseLzinit, hinit]
  refine Keeps.again ?_ ?_ (.refl) ⟨hbuf.setLen (Nat.zero_le _), Nat.two_pow_pos 64, z, rfl, ?_⟩
  · rw [rank]
    simp only [Ffgz.kept, hpend, length_nil]
    omega
  · unfold Ffgz.owed
    simp only [Ffgz.kept, hpend, map_nil, append_nil]
  · rw [hpos, hpend, hcrc.nil]
    rfl

theorem not_broken (hcrc : CrcOk crc32) {o : Option D} {s es u : List UInt8} {b : UInt8} {x : D}
    {crc : UInt32} {size : ℕ} (hsize : size < 2 ^ 64) (h : Decodes dec o s es (some x))
    (hstep : dec.step x b = none)
    (hgood : UnitsGood (gzUnit dec crc32) (GoodUnit dec) (dataAt o crc size) (s ++ b :: u)) :
    False := by
  have htakes := takes_decodes hcrc h (b :: u) crc size hsize
  have hrest := htakes.unitsGood isUnit_gzUnit hgood
  exact unitsGood_head isUnit_gzUnit (p := _) rfl hrest hstep

/-- **`R_DATA`** -/
theorem caseData_keeps (hcrc : CrcOk crc32) (hz : InflateOk zlib dec pos pending width)
    (hcap : 0 < cap) (hst : t.state = .data) (h : At dec crc32 pos pending t a)
    (hgood : UnitsGood (gzUnit dec crc32) (GoodUnit dec) a d) (hok : Ok zlib cap t d)
    (hk : (width + 16) * d.length + (2 + (t.kept pending).length) ≤ k) :
    Keeps dec crc32 pos pending width a d ((t.kept pending).map .byte) k
      (caseData zlib crc32 cap t d) := by
  unfold At at h
  simp only [hst] at h
  obtain ⟨hbuf, hsize, z, hlz, rfl⟩ := h
  have hkept : t.kept pending = pending z := by rw [Ffgz.kept, hlz]
  rw [hkept] at hk ⊢
  unfold Ok at hok
  simp only [hst, hlz] at hok
  obtain ⟨r, z', hrun⟩ : ∃ r z', zlib.inflate z d cap = (r, z') := ⟨_, _, rfl⟩
  rw [hrun] at hok
  have hans : AnswerOk dec pos pending z d z' r := by
    have hany := hz.inflate z d hcap
    rwa [hrun] at hany
  have hmod : (t.outsize + (pending z).length) % 2 ^ 64 < 2 ^ 64 := Nat.mod_lt _ (by decide)
  cases r with
  | done rd =>
    obtain rfl : rd = 0 := hok
    obtain ⟨-, hpend, hdec⟩ := hans
    rw [take_zero] at hdec
    have hend : pos z = none := by
      cases hp : pos z with
      | none => rfl
      | some x =>
        rw [hp] at hdec
        cases hdec
    obtain ⟨hat, hheld, howed, hrank⟩ := @at_gather Z D crc32 width dec pos pending
      (.trl t.crc t.outsize) d { t with lz := some z' } [] TRL_SIZE .done hbuf rfl rfl (by decide)
      rfl
    have hcase : caseData zlib crc32 cap t d =
        .again (Ffgz.gather { t with lz := some z' } TRL_SIZE .done) d := by
      simp only [caseData, hlz, hrun]
    rw [hcase, hend, hpend, hcrc.nil, length_nil, Nat.add_zero, Nat.mod_eq_of_lt hsize]
    refine Keeps.again (by omega) howed.symm ?_ hat
    rw [hheld]
    exact .refl
  | err =>
    obtain ⟨s, b, u, es, x, rfl, hdec, hstep⟩ := hans
    exact (not_broken hcrc hmod hdec hstep hgood).elim
  | out rd out =>
    obtain ⟨hrd, es, hdec, hes, hmore⟩ := hans
    have htakes := takes_decodes hcrc hdec (d.drop rd) (crc32 (pending z) t.crc) _ hmod
    have hlen : (pending z).length + es.length = out.length + (pending z').length := by
      rw [← length_append, hes, length_append]
    have hto : dataAt (pos z') (crc32 es (crc32 (pending z) t.crc))
        (((t.outsize + (pending z).length) % 2 ^ 64 + es.length) % 2 ^ 64) =
        dataAt (pos z') (crc32 (pending z') (crc32 out t.crc))
          (((t.outsize + out.length) % 2 ^ 64 + (pending z').length) % 2 ^ 64) := by
      rw [← hcrc.append, hes, hcrc.append, Nat.mod_add_mod, Nat.add_assoc, hlen, ← Nat.add_assoc,
        Nat.mod_add_mod]
    rw [take_append_drop, hto] at htakes
    have hmap : (pending z).map Ev.byte ++ es.map .byte =
        out.map .byte ++ (pending z').map .byte := by
      rw [← map_append, hes, map_append]
    by_cases hout : out = []
    · obtain ⟨rfl, hp, hpend⟩ := hmore hout
      obtain ⟨x, hx⟩ := Option.ne_none_iff_exists'.mp hp
      have hcase : caseData zlib crc32 cap t d = .ret { t with
          lz := some z', inoff := (t.inoff + d.length) % 2 ^ 64 } (d.drop d.length) .more := by
        simp only [caseData, hlz, hrun, hout, length_nil, if_true]
      rw [hcase]
      rw [drop_length] at htakes ⊢
      rw [hout, hcrc.nil, length_nil, Nat.add_zero, Nat.mod_eq_of_lt hsize] at htakes
      refine .inr ⟨es.map .byte, _, [], ?_, htakes, .inl ⟨rfl, ?_, ?_, ?_, ?_, rfl, suffix_rfl⟩⟩
      · rw [hmap, hout, hpend]
        rfl
      · unfold At
        simp only [hst]
        exact ⟨hbuf, hsize, z', rfl, rfl⟩
      · unfold Ffgz.held
        simp only [hst]
      · unfold Ffgz.owed
        simp only [hst, Ffgz.kept, hpend, map_nil]
      · rw [hx]
        rfl
    obtain ⟨t', ht'⟩ : ∃ t' : Ffgz Z, t' = { t with
        lz := some z', inoff := (t.inoff + rd) % 2 ^ 64, crc := crc32 out t.crc
        outsize := (t.outsize + out.length) % 2 ^ 64 } := ⟨_, rfl⟩
    have hcase : caseData zlib crc32 cap t d = .ret t' (d.drop rd) (.data out) := by
      have hne : ¬out.length = 0 := fun hno => hout (length_eq_zero_iff.mp hno)
      simp only [caseData, hlz, hrun, hne, if_false, ht']
    have hst' : t'.state = .data := by rw [ht', hst]
    have hkept' : t'.kept pending = pending z' := by rw [ht', Ffgz.kept]
    have hdrop : (d.drop rd).length + rd = d.length := by
      rw [length_drop]
      omega
    have hbound : es.length ≤ width * rd := by
      have hle := hdec.length_le hz
      rwa [length_take, Nat.min_eq_left hrd] at hle
    have hpos := length_pos_of_ne_nil hout
    rw [hcase]
    refine .inl ⟨rfl, ?_, es.map .byte, dataAt (pos z') (crc32 (pending z') (crc32 out t.crc))
      (((t.outsize + out.length) % 2 ^ 64 + (pending z').length) % 2 ^ 64), ?_, ?_, ?_⟩
    · unfold rank
      simp only [hst', hkept']
      rw [← hdrop, Nat.mul_add] at hk
      have hmul := Nat.add_mul width 16 rd
      omega
    · unfold Ffgz.owed
      simp only [hst', hkept', hmap]
      rfl
    · unfold Ffgz.held
      simp only [hst']
      exact htakes
    · unfold At
      simp only [hst']
      rw [ht']
      exact ⟨hbuf, Nat.mod_lt _ (by decide), z', rfl, rfl⟩

/-- **The passes follow the units of a file**, where they meet `Ok`. -/
theorem follows (halloc : ∀ n, alloc n = true) (hcrc : CrcOk crc32)
    (hz : InflateOk zlib dec pos pending width) (hcap : 0 < cap) :
    FollowsWhere (Ok zlib cap) (ffgzPass alloc zlib crc32 cap) FfgzR.verdict FfgzR.ev
      (gzUnit dec crc32) (GoodUnit dec) (fun _ _ => []) (At dec crc32 pos pending) Ffgz.held
      (Ffgz.owed dec pending) (rank pending width) := by
  refine ⟨isUnit_gzUnit, ?_, fun {t a d} h hgood hok => ?_⟩
  · intro r hr
    cases r with
    | more => rfl
    | _ => cases hr
  show Keeps dec crc32 pos pending width a (t.held ++ d) (t.owed dec pending)
    (rank pending width t d) (ffgzPass alloc zlib crc32 cap t d)
  have hheld : ∀ st, t.state = st → (st = .trlseek ∨ st = .name ∨ st = .cmt ∨ st = .crc ∨
      st = .lzinit ∨ st = .data) → t.held = [] := by
    intro st hst hst'
    unfold Ffgz.held
    rw [hst]
    obtain rfl | rfl | rfl | rfl | rfl | rfl := hst' <;> rfl
  have howed : t.owed dec pending = match t.state with
      | .trlseek => [.seek (t.inoff - TRL_SIZE)]
      | .name => (toName dec t.buf.bytes).1
      | .cmt => (toCmt dec t.buf.bytes t.nameoff).1
      | .crc => (toCrc dec t.buf.bytes t.nameoff).1
      | .data => (t.kept pending).map .byte
      | _ => [] := rfl
  have hrank : rank pending width t d = (width + 16) * d.length + match t.state with
      | .hdr | .extra => 9
      | .name => 8
      | .cmt => 7
      | .crc | .hdrok => 6
      | .lzinit => 5
      | .data => 2 + (t.kept pending).length
      | .trlseek | .trl | .done => 1
      | .gather => 0 := rfl
  have hmeets := hok
  unfold Ok at hmeets
  rw [ffgzPass]
  cases hst : t.state with
  | trlseek =>
    simp only [hst] at howed hrank
    rw [hheld _ hst (by simp), howed, nil_append]
    exact caseTrlseek_keeps hst h (by omega)
  | gather =>
    simp only [hst] at howed hrank
    have h' := h
    unfold At at h'
    rw [hst] at h'
    obtain ⟨l, hg, hl⟩ := h'
    have hl' : t.held = l := by
      unfold Ffgz.held
      rw [hst]
      exact hg.held
    rw [hl', howed]
    exact caseGather_keeps halloc hst hg hl (by omega)
  | trl =>
    obtain ⟨l, hg, hl, hl', ho⟩ := at_full hst h (by simp)
    simp only [hst] at hrank
    rw [hl', ho]
    exact caseTrl_keeps hg hl (by omega)
  | hdr =>
    obtain ⟨l, hg, hl, hl', ho⟩ := at_full hst h (by simp)
    simp only [hst] at hrank
    rw [hl', ho]
    exact caseHdr_keeps hg hl (by omega)
  | extra =>
    obtain ⟨l, hg, hl, hl', ho⟩ := at_full hst h (by simp)
    simp only [hst] at hrank hmeets
    rw [hl', ho]
    exact caseExtra_keeps hg hl hmeets (by omega)
  | name =>
    simp only [hst] at howed hrank hmeets
    rw [hheld _ hst (by simp), howed, nil_append]
    exact caseName_keeps halloc hst h hmeets (by omega)
  | cmt =>
    simp only [hst] at howed hrank hmeets
    rw [hheld _ hst (by simp), howed, nil_append]
    exact caseCmt_keeps halloc hst h hmeets (by omega)
  | crc =>
    simp only [hst] at howed hrank hmeets
    rw [hheld _ hst (by simp), howed, nil_append]
    exact caseCrc_keeps hst h hmeets (by omega)
  | hdrok =>
    obtain ⟨l, hg, hl, hl', ho⟩ := at_full hst h (by simp)
    simp only [hst] at hrank
    rw [hl', ho]
    exact caseHdrok_keeps hg hl (by omega)
  | lzinit =>
    simp only [hst] at howed hrank
    rw [hheld _ hst (by simp), howed, nil_append]
    exact caseLzinit_keeps hcrc hz hst h (by omega)
  | data =>
    simp only [hst] at howed hrank
    rw [hheld _ hst (by simp), nil_append] at hgood
    rw [hheld _ hst (by simp), howed, nil_append]
    exact caseData_keeps hcrc hz hcap hst h hgood hok (by omega)
  | done =>
    obtain ⟨l, hg, hl, hl', ho⟩ := at_full hst h (by simp)
    rw [hl', ho]
    exact caseDone_keeps hg hl

end Passes

/-! ### Whole files -/

section Files

variable {Z D : Type} {alloc : ℕ → Bool} {zlib : Zlib Z} {crc32 : List UInt8 → UInt32 → UInt32}
  {cap width : ℕ} {dec : Decoder D} {pos : Z → Option D} {pending : Z → List UInt8}

/-- What the calls have given, byte for byte. -/
def results (rs : List (Return (Ffgz Z) UInt8 FfgzR)) : List Ev := rs.flatMap fun x => x.code.ev

/-- **Each step of the run goes right.** -/
def RunOk (alloc : ℕ → Bool) (zlib : Zlib Z) (crc32 : List UInt8 → UInt32 → UInt32)
    (cap width : ℕ) (t : Ffgz Z) (cs : List (List UInt8)) : Prop :=
  DrainsMeet (Ok zlib cap) (ffgzPass alloc zlib crc32 cap) FfgzR.verdict (fuel width) id t cs

instance (t : Ffgz Z) (cs : List (List UInt8)) :
    Decidable (RunOk alloc zlib crc32 cap width t cs) :=
  DrainsMeet.decidable t cs

/-- **The calls with chunks of a file** -/
theorem readAll_eq (halloc : ∀ n, alloc n = true) (hcrc : CrcOk crc32)
    (hz : InflateOk zlib dec pos pending width) (hcap : 0 < cap) {t : Ffgz Z} {a : Want D}
    {cs : List (List UInt8)} (hcs : cs ≠ []) (hat : At dec crc32 pos pending t a)
    (hgood : UnitsGood (gzUnit dec crc32) (GoodUnit dec) a (t.held ++ cs.flatten))
    (hok : RunOk alloc zlib crc32 cap width t cs) :
    ∃ rs, readAll alloc zlib crc32 cap width t cs = some rs ∧
      results rs = t.owed dec pending ++
        meaning (gzUnit dec crc32) (fun _ _ => []) a (t.held ++ cs.flatten) ∧
      ∀ x ∈ rs, x.code.verdict = .more → x.left <:+ x.state.held := by
  have hf := follows halloc hcrc hz hcap
  refine FollowsWhere.drains_eq hf hf ?_ goodUnit_front ?_ ?_ hcs hat hgood hok
  · intro r hr
    cases r <;> first | exact cons_ne_nil _ _ | cases hr
  · exact fun h => ⟨h, rfl, rfl⟩
  intro t a d _
  rw [rank, fuel]
  have hkept : (t.kept pending).length ≤ width := by
    rw [Ffgz.kept]
    cases t.lz with
    | none => exact Nat.zero_le _
    | some z => exact hz.room z
  split <;> omega

/-- **What `ffgz_read` gives is what the file means**, however it was divided, where each step goes
right: without seeking, and behind the trailer `trl` that is read first. The name in the header is
complete. Where the reader wants more input, it has collected all that it was given. -/
theorem ffgzRead_fragments (halloc : ∀ n, alloc n = true) (hcrc : CrcOk crc32)
    (hz : InflateOk zlib dec pos pending width) (hcap : 0 < cap) {file : List UInt8}
    (hgood : GoodData dec crc32 file) :
    (∀ cs, cs ≠ [] → cs.flatten = file → RunOk alloc zlib crc32 cap width (ffgzInit none) cs →
      ∃ rs, readAll alloc zlib crc32 cap width (ffgzInit none) cs = some rs ∧
        results rs = gzip dec crc32 file ∧
        ∀ x ∈ rs, x.code = .more → x.left <:+ x.state.held) ∧
    (∀ size trl cs, TRL_SIZE ≤ size → size < 2 ^ 63 → trl.length = TRL_SIZE →
      cs.flatten = trl ++ file → RunOk alloc zlib crc32 cap width (ffgzInit (some size)) cs →
      ∃ rs, readAll alloc zlib crc32 cap width (ffgzInit (some size)) cs = some rs ∧
        results rs = .seek (size - TRL_SIZE) :: .seek 0 :: gzip dec crc32 file ∧
        ∀ x ∈ rs, x.code = .more → x.left <:+ x.state.held) ∧
    ∀ (h : Header) (s : List UInt8), h.Valid → file = h.bytes ++ s →
      (gzip dec crc32 file).head? = some (.info h.bytes h.name) := by
  refine ⟨fun cs hcs hfile hok => ?_, fun size trl cs hlow hhigh htrl hfile hok => ?_,
    fun h s hv hfile => ?_⟩
  · have hat : At dec crc32 pos pending (ffgzInit none) .hdr :=
      ⟨[], ⟨[], has_null, rfl, rfl, rfl, rfl⟩, need_pos _⟩
    obtain ⟨rs, hrs, hmeans, hmore⟩ := readAll_eq halloc hcrc hz hcap hcs hat
      (by rw [hfile]; exact hgood) hok
    refine ⟨rs, hrs, ?_, fun x hx hcode => hmore x hx (by rw [hcode]; rfl)⟩
    rw [hmeans, hfile]
    rfl
  · have hcs : cs ≠ [] := by
      rintro rfl
      have hlen := congrArg List.length hfile
      rw [length_append, htrl, flatten_nil, length_nil, TRL_SIZE] at hlen
      omega
    have hunit : gzUnit dec crc32 .trl0 (trl ++ file) = some ([.seek 0], some .hdr, file) :=
      gathered_some htrl
    have hat : At dec crc32 pos pending (ffgzInit (some size)) .trl0 :=
      ⟨rfl, has_null, rfl, hlow, hhigh⟩
    obtain ⟨rs, hrs, hmeans, hmore⟩ := readAll_eq halloc hcrc hz hcap hcs hat
      (by
        rw [hfile]
        exact (unitsGood_some isUnit_gzUnit hunit).mpr ⟨trivial, hgood⟩)
      hok
    refine ⟨rs, hrs, ?_, fun x hx hcode => hmore x hx (by rw [hcode]; rfl)⟩
    rw [hmeans, hfile]
    exact congrArg _ (meaning_takes isUnit_gzUnit (.one hunit))
  · rw [hfile, gzip_header hv]
    rfl

end Files

/-- A file of one byte. -/
def oneByte : List UInt8 := [0x01, 0x01, 0x00, 0xfe, 0xff, 0x61, 0x43, 0xbe, 0xb7, 0xe8, 1, 0, 0, 0]

/-- A header with all fields, in front of a file of one byte. -/
def fullHeader : Header :=
  ⟨[0x1f, 0x8b, 8, 0x1e, 0, 0, 0, 0, 0, 255], some [0x78], some [0x61], some [0x63], some [1, 2]⟩

theorem ffgzRead_fragments_fullHeader :
    (∃ rs, readAll (fun _ => true) (plainZlib storedDecoder) zlibCrc32 1 1 (ffgzInit none)
        [fullHeader.bytes.take 7, fullHeader.bytes.drop 7 ++ oneByte.take 6, oneByte.drop 6] =
          some rs ∧
        results rs = [.info fullHeader.bytes (some [0x61]), .byte 0x61, .done]) ∧
      ∃ rs, readAll (fun _ => true) (plainZlib storedDecoder) zlibCrc32 1 1 (ffgzInit (some 33))
        [oneByte.drop 6, fullHeader.bytes.take 12, fullHeader.bytes.drop 12 ++ oneByte] = some rs ∧
        results rs = [.seek 25, .seek 0, .info fullHeader.bytes (some [0x61]), .byte 0x61, .done] := by
  have hmeans : gzip storedDecoder zlibCrc32 (fullHeader.bytes ++ oneByte) =
      [.info fullHeader.bytes (some [0x61]), .byte 0x61, .done] := by
    decide
  obtain ⟨hplain, hseek, -⟩ := @ffgzRead_fragments _ _ (fun _ => true) (plainZlib storedDecoder)
    zlibCrc32 1 1 storedDecoder id (fun _ => []) (fun _ => rfl) zlibCrc32_ok (plainZlib_ok stored_one)
    Nat.one_pos (fullHeader.bytes ++ oneByte) (by decide)
  obtain ⟨rs, hrs, hres, -⟩ := hplain
    [fullHeader.bytes.take 7, fullHeader.bytes.drop 7 ++ oneByte.take 6, oneByte.drop 6] (by simp)
    (by decide) (by decide)
  obtain ⟨rs', hrs', hres', -⟩ := hseek 33 (oneByte.drop 6)
    [oneByte.drop 6, fullHeader.bytes.take 12, fullHeader.bytes.drop 12 ++ oneByte] (by decide)
    (by decide) (by decide) (by decide) (by decide)
  rw [hmeans] at hres hres'
  exact ⟨⟨rs, hrs, hres⟩, rs', hrs', hres'⟩

/-- A name of two bytes is read where it is in one chunk. Where the chunk ends between the two, the
assertion in `ffarr_append_until` fails with the next chunk, and without it the reader asks for more
input for ever. -/
theorem ffgzRead_cutName :
    let hdr : List UInt8 := [0x1f, 0x8b, 8, 8, 0, 0, 0, 0, 0, 255]
    (∃ rs, readAll (fun _ => true) (plainZlib storedDecoder) zlibCrc32 1 1 (ffgzInit none)
        [hdr ++ [0x61, 0x62, 0] ++ oneByte] = some rs ∧
        results rs = [.info (hdr ++ [0x61, 0x62, 0]) (some [0x61, 0x62]), .byte 0x61, .done]) ∧
      readAll (fun _ => true) (plainZlib storedDecoder) zlibCrc32 1 1 (ffgzInit none)
        [hdr ++ [0x61], [0x62, 0] ++ oneByte] = none := by
  intro hdr
  have hone : (readAll (fun _ => true) (plainZlib storedDecoder) zlibCrc32 1 1 (ffgzInit none)
      [hdr ++ [0x61, 0x62, 0] ++ oneByte]).map results =
      some [.info (hdr ++ [0x61, 0x62, 0]) (some [0x61, 0x62]), .byte 0x61, .done] := by
    decide
  refine ⟨?_, by decide⟩
  obtain ⟨rs, hrs, hres⟩ := Option.map_eq_some_iff.mp hone
  exact ⟨rs, hrs, hres⟩

end Gz

end FF
