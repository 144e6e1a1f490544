import FF.Gz.Read

/-!
# What a GZIP file means

A file is a header, with fields that the flags in it announce, the compressed data, and a trailer
(`gzUnit`). What the compressed data means is given by a decoder that takes it byte by byte.
-/

namespace FF

namespace Gz

open List

/-! ### The units of a file -/

/-- What comes next in a file: the trailer that is read first, the header, the parts of the header
behind the bytes `h` with the name at `off`, the compressed data, and the trailer. -/
inductive Want (D : Type)
  | trl0
  | hdr
  | extraLen (h : List UInt8)
  | extra (h : List UInt8) (n : ℕ)
  | name (h : List UInt8)
  | cmt (h : List UInt8) (off : ℕ)
  | hcrc (h : List UInt8) (off : ℕ)
  | data (x : D) (crc : UInt32) (size : ℕ)
  | trl (crc : UInt32) (size : ℕ)
  deriving DecidableEq, Repr

/-- What is given: where to seek, the header with the name, the bytes of the file, and the status. -/
inductive Ev
  | seek (off : ℕ)
  | info (hdr : List UInt8) (name : Option (List UInt8))
  | byte (b : UInt8)
  | err (e : FfgzE)
  | warn (e : FfgzE)
  | done
  deriving DecidableEq, Repr

/-- What a code gives. -/
def FfgzR.ev : FfgzR → List Ev
  | .warn e => [.warn e]
  | .err e => [.err e]
  | .data out => out.map .byte
  | .done => [.done]
  | .more => []
  | .info hdr name => [.info hdr name]
  | .seek off => [.seek off]

section Units

variable {D : Type} (dec : Decoder D) (crc32 : List UInt8 → UInt32 → UInt32)

/-- Behind the header -/
def toData (h : List UInt8) (off : ℕ) : List Ev × Want D :=
  ([.info h (ffgzFname h off)], .data dec.first 0 0)

/-- Behind the comment -/
def toCrc (h : List UInt8) (off : ℕ) : List Ev × Want D :=
  if hasFlag h GZ_FHDRCRC then ([], .hcrc h off) else toData dec h off

/-- Behind the name -/
def toCmt (h : List UInt8) (off : ℕ) : List Ev × Want D :=
  if hasFlag h GZ_FCOMMENT then ([], .cmt h off) else toCrc dec h off

/-- Behind the extra field -/
def toName (h : List UInt8) : List Ev × Want D :=
  if hasFlag h GZ_FNAME then ([], .name h) else toCmt dec h 0

/-- The place in the compressed data, or the trailer behind it. -/
def dataAt (o : Option D) (crc : UInt32) (size : ℕ) : Want D :=
  match o with
  | some x => .data x crc size
  | none => .trl crc size

/-- The length of the next unit, where it is known. -/
def need : Want D → ℕ
  | .trl0 | .trl _ _ => TRL_SIZE
  | .hdr => HDR_SIZE
  | .extraLen _ | .hcrc _ _ => 2
  | .extra _ n => n + 1
  | .data _ _ _ | .name _ | .cmt _ _ => 1

/-- What a byte of compressed data does. -/
def dataAct (x : D) (crc : UInt32) (size : ℕ) (b : UInt8) : List Ev × Option (Want D) :=
  match dec.step x b with
  | none => ([.err .lz], none)
  | some (out, o) =>
    (out.map .byte, some (dataAt o (crc32 out crc) ((size + out.length) % 2 ^ 64)))

/-- What a unit of a known length does. -/
def act : Want D → List UInt8 → List Ev × Option (Want D)
  | .trl0, _ => ([.seek 0], some .hdr)
  | .hdr, b =>
    if !goodHdr b then ([.err .hdr], none)
    else if hasFlag b GZ_FEXTRA then ([], some (.extraLen b))
    else ((toName dec b).1, some (toName dec b).2)
  | .extraLen h, b =>
    match leNat b with
    | 0 => ((toName dec (h ++ b)).1, some (toName dec (h ++ b)).2)
    | n + 1 => ([], some (.extra (h ++ b) n))
  | .extra h _, b => ((toName dec (h ++ b)).1, some (toName dec (h ++ b)).2)
  | .hcrc h off, b => ((toData dec (h ++ b) off).1, some (toData dec (h ++ b) off).2)
  | .data x crc size, b => dataAct dec crc32 x crc size (b.getD 0 0)
  | .trl crc size, b => ((trlStatus b crc size).ev, none)
  | .name _, _ | .cmt _ _, _ => ([], none)

/-- A text up to the zero byte. -/
def textUnit (next : List UInt8 → List Ev × Want D) (s : List UInt8) :
    Option (List Ev × Option (Want D) × List UInt8) :=
  if ffszNlen s = s.length then none
  else some ((next (s.take (ffszNlen s + 1))).1, some (next (s.take (ffszNlen s + 1))).2,
    s.drop (ffszNlen s + 1))

/-- **The next unit of a file** -/
def gzUnit (a : Want D) (s : List UInt8) : Option (List Ev × Option (Want D) × List UInt8) :=
  match a with
  | .name h => textUnit (fun b => toCmt dec (h ++ b) h.length) s
  | .cmt h off => textUnit (fun b => toCrc dec (h ++ b) off) s
  | a => gathered need (act dec crc32) a s

/-- The compressed data is not broken. -/
def GoodUnit (a : Want D) (s : List UInt8) : Prop :=
  match a, s with
  | .data x _ _, b :: _ => dec.step x b ≠ none
  | _, _ => True

instance GoodUnit.decidable [DecidableEq D] : (a : Want D) → (s : List UInt8) →
    Decidable (GoodUnit dec a s)
  | .data x _ _, b :: _ => inferInstanceAs (Decidable (dec.step x b ≠ none))
  | .data _ _ _, [] => .isTrue trivial
  | .trl0, _ | .hdr, _ | .extraLen _, _ | .extra _ _, _ | .name _, _ | .cmt _ _, _ | .hcrc _ _, _
  | .trl _ _, _ => .isTrue trivial

/-- **The compressed data of a file is not broken.** -/
def GoodData (s : List UInt8) : Prop := UnitsGood (gzUnit dec crc32) (GoodUnit dec) .hdr s

instance [DecidableEq D] (s : List UInt8) : Decidable (GoodData dec crc32 s) :=
  UnitsGood.decidable (gzUnit dec crc32) (GoodUnit dec) .hdr s

/-- **What a file means**, from its first byte on. -/
def gzip (s : List UInt8) : List Ev := meaning (gzUnit dec crc32) (fun _ _ => []) .hdr s

end Units

section UnitLemmas

variable {D : Type} {dec : Decoder D} {crc32 : List UInt8 → UInt32 → UInt32}

theorem ffszNlen_le (s : List UInt8) : ffszNlen s ≤ s.length :=
  (takeWhile_sublist _).length_le

theorem ffszNlen_append {s : List UInt8} (h : ffszNlen s ≠ s.length) (t : List UInt8) :
    ffszNlen (s ++ t) = ffszNlen s := by
  rw [ffszNlen] at h
  rw [ffszNlen, ffszNlen, takeWhile_append, if_neg h]

theorem need_pos (a : Want D) : 0 < need a := by
  cases a <;> simp [need, TRL_SIZE, HDR_SIZE]

theorem textUnit_some {next : List UInt8 → List Ev × Want D} {s r : List UInt8} {es : List Ev}
    {a : Option (Want D)} (h : textUnit next s = some (es, a, r)) :
    r.length < s.length ∧ ∀ t, textUnit next (s ++ t) = some (es, a, r ++ t) := by
  rw [textUnit] at h
  split at h
  · cases h
  next hlen =>
    have hle := ffszNlen_le s
    obtain ⟨rfl, rfl, rfl⟩ : _ = es ∧ _ = a ∧ _ = r := by simpa using h
    refine ⟨by rw [length_drop]; omega, fun t => ?_⟩
    rw [textUnit, ffszNlen_append hlen, if_neg (by rw [length_append]; omega),
      take_append_of_le_length (by omega), drop_append_of_le_length (by omega)]

theorem isUnit_gzUnit : IsUnit (gzUnit dec crc32) := by
  have hg := @isUnit_gathered (Want D) UInt8 Ev need (act dec crc32) need_pos
  refine ⟨fun {a s es a' r} h => ?_, fun {a s es a' r} h t => ?_⟩
  · cases a with
    | name | cmt =>
      rw [gzUnit] at h
      exact (textUnit_some h).1
    | _ => exact hg.shorter h
  · cases a with
    | name | cmt =>
      rw [gzUnit] at h
      exact (textUnit_some h).2 t
    | _ => exact hg.append h t

theorem goodUnit_front {a : Want D} {s : List UInt8} {p : List Ev × Option (Want D) × List UInt8}
    (h : gzUnit dec crc32 a s = some p) (t : List UInt8) (hgood : GoodUnit dec a (s ++ t)) :
    GoodUnit dec a s := by
  cases a with
  | data x crc size =>
    cases s with
    | nil => cases h
    | cons b s => exact hgood
  | _ => exact trivial

/-- **Compressed data** is taken byte by byte. -/
theorem takes_decodes (hcrc : CrcOk crc32) {o o' : Option D} {s es : List UInt8}
    (h : Decodes dec o s es o') (t : List UInt8) (crc : UInt32) (size : ℕ) (hsize : size < 2 ^ 64) :
    Takes (gzUnit dec crc32) (dataAt o crc size) (s ++ t) (es.map .byte)
      (dataAt o' (crc32 es crc) ((size + es.length) % 2 ^ 64)) t := by
  induction h generalizing crc size with
  | nil =>
    rw [hcrc.nil, length_nil, Nat.add_zero, Nat.mod_eq_of_lt hsize]
    exact .refl
  | @cons x b s out es o o' hstep _ ih =>
    have hunit : gzUnit dec crc32 (.data x crc size) (b :: (s ++ t)) =
        some (out.map .byte, some (dataAt o (crc32 out crc) ((size + out.length) % 2 ^ 64)),
          s ++ t) := by
      have hg := @gathered_some (Want D) UInt8 Ev need (act dec crc32) (.data x crc size) [b]
        (s ++ t) rfl
      rw [act, dataAct, getD_cons_zero, hstep] at hg
      exact hg
    have hrest := ih (crc32 out crc) ((size + out.length) % 2 ^ 64) (Nat.mod_lt _ (by decide))
    rw [map_append, hcrc.append, length_append, ← Nat.add_assoc, ← Nat.mod_add_mod]
    exact .cons hunit hrest

end UnitLemmas

/-! ### Headers -/

/-- A header: the part that is always there, and the optional fields. -/
structure Header where
  base : List UInt8
  extra : Option (List UInt8)
  name : Option (List UInt8)
  comment : Option (List UInt8)
  hcrc : Option (List UInt8)
  deriving DecidableEq, Repr

/-- The extra field, with its length. -/
def extraBytes (e : List UInt8) : List UInt8 := leBytes 2 e.length ++ e

/-- A text, with the zero byte. -/
def textBytes (s : List UInt8) : List UInt8 := s ++ [0]

/-- The bytes of the header in front of its checksum. -/
def Header.front (h : Header) : List UInt8 :=
  h.base ++ (h.extra.elim [] extraBytes ++ (h.name.elim [] textBytes ++ h.comment.elim [] textBytes))

/-- The bytes of the header. -/
def Header.bytes (h : Header) : List UInt8 := h.front ++ h.hcrc.getD []

/-- The flags say which fields there are. -/
structure Header.Valid (h : Header) : Prop where
  length : h.base.length = HDR_SIZE
  good : goodHdr h.base = true
  extra : hasFlag h.base GZ_FEXTRA = h.extra.isSome
  extraLen : ∀ e, h.extra = some e → e.length < 2 ^ 16
  name : hasFlag h.base GZ_FNAME = h.name.isSome
  nameText : ∀ s, h.name = some s → ∀ c ∈ s, c ≠ 0
  comment : hasFlag h.base GZ_FCOMMENT = h.comment.isSome
  commentText : ∀ s, h.comment = some s → ∀ c ∈ s, c ≠ 0
  hcrc : hasFlag h.base GZ_FHDRCRC = h.hcrc.isSome
  hcrcLen : ∀ c, h.hcrc = some c → c.length = 2

section HeaderLemmas

variable {D : Type} {dec : Decoder D} {crc32 : List UInt8 → UInt32 → UInt32} {x s : List UInt8}
  {off : ℕ} {name : Option (List UInt8)}

theorem hasFlag_append (hx : 4 ≤ x.length) (y : List UInt8) (flag : UInt8) :
    hasFlag (x ++ y) flag = hasFlag x flag := by
  rw [hasFlag, hasFlag, getD_append _ _ _ _ (by omega)]

theorem ffszNlen_text {b : List UInt8} (hb : ∀ c ∈ b, c ≠ 0) (s : List UInt8) :
    ffszNlen (textBytes b ++ s) = b.length := by
  have hnil : (0 :: s).takeWhile (· != 0) = [] := takeWhile_cons_of_neg (by simp)
  have htake : (b ++ 0 :: s).takeWhile (· != 0) = b ++ (0 :: s).takeWhile (· != 0) :=
    takeWhile_append_of_pos fun c hc => bne_iff_ne.mpr (hb c hc)
  rw [ffszNlen, textBytes, append_assoc, singleton_append, htake, hnil, append_nil]

theorem textUnit_text {next : List UInt8 → List Ev × Want D} {b : List UInt8}
    (hb : ∀ c ∈ b, c ≠ 0) (s : List UInt8) :
    textUnit next (textBytes b ++ s) =
      some ((next (textBytes b)).1, some (next (textBytes b)).2, s) := by
  have hlen : (textBytes b).length = b.length + 1 := by rw [textBytes, length_append]; rfl
  rw [textUnit, ffszNlen_text hb, if_neg (by rw [length_append]; omega),
    take_left' hlen, drop_left' hlen]

/-- Parts of the header have been taken, from the state and the events `p` on, and the header is
complete with the bytes `h`. -/
def Completes (dec : Decoder D) (crc32 : List UInt8 → UInt32 → UInt32) (p : List Ev × Want D)
    (s h : List UInt8) (name : Option (List UInt8)) (u : List UInt8) : Prop :=
  ∃ es, p.1 ++ es = [.info h name] ∧
    Takes (gzUnit dec crc32) p.2 s es (.data dec.first 0 0) u

theorem Completes.cons {p q : List Ev × Want D} {s s' h u : List UInt8} (hp : p.1 = [])
    (hunit : gzUnit dec crc32 p.2 s = some (q.1, some q.2, s'))
    (hq : Completes dec crc32 q s' h name u) : Completes dec crc32 p s h name u := by
  obtain ⟨es, hes, htakes⟩ := hq
  exact ⟨q.1 ++ es, by rw [hp, nil_append, hes], .cons hunit htakes⟩

theorem completes_crc {hcrc : Option (List UInt8)} (hname : ∀ y, ffgzFname (x ++ y) off = name)
    (hflag : hasFlag x GZ_FHDRCRC = hcrc.isSome) (hlen : ∀ c, hcrc = some c → c.length = 2) :
    Completes dec crc32 (toCrc dec x off) (hcrc.getD [] ++ s) (x ++ hcrc.getD []) name s := by
  cases hcrc with
  | none =>
    have hnext : toCrc dec x off = toData dec x off := if_neg (by simp [hflag])
    have hname' := hname []
    rw [append_nil] at hname'
    rw [hnext]
    refine ⟨[], ?_, .refl⟩
    rw [toData, hname', append_nil, Option.getD_none, append_nil]
  | some c =>
    have hnext : toCrc dec x off = ([], .hcrc x off) := if_pos (by simp [hflag])
    rw [hnext]
    refine .cons rfl (gathered_some (hlen c rfl)) ⟨[], ?_, .refl⟩
    rw [toData, hname, Option.getD_some, append_nil]

theorem completes_cmt {comment hcrc : Option (List UInt8)} (hx : 4 ≤ x.length)
    (hname : ∀ y, ffgzFname (x ++ y) off = name)
    (hflag : hasFlag x GZ_FCOMMENT = comment.isSome)
    (htext : ∀ b, comment = some b → ∀ c ∈ b, c ≠ 0)
    (hflag' : hasFlag x GZ_FHDRCRC = hcrc.isSome) (hlen : ∀ c, hcrc = some c → c.length = 2) :
    Completes dec crc32 (toCmt dec x off) (comment.elim [] textBytes ++ (hcrc.getD [] ++ s))
      (x ++ comment.elim [] textBytes ++ hcrc.getD []) name s := by
  cases comment with
  | none =>
    have hnext : toCmt dec x off = toCrc dec x off := if_neg (by simp [hflag])
    rw [hnext, Option.elim_none, append_nil]
    exact completes_crc hname hflag' hlen
  | some b =>
    have hnext : toCmt dec x off = ([], .cmt x off) := if_pos (by simp [hflag])
    rw [hnext, Option.elim_some]
    have hunit : gzUnit dec crc32 (.cmt x off) (textBytes b ++ (hcrc.getD [] ++ s)) =
        some ((toCrc dec (x ++ textBytes b) off).1, some (toCrc dec (x ++ textBytes b) off).2,
          hcrc.getD [] ++ s) := by
      rw [gzUnit, textUnit_text (htext b rfl)]
    refine .cons rfl hunit (completes_crc (fun y => ?_) ?_ hlen)
    · rw [append_assoc, hname]
    · rw [hasFlag_append hx, hflag']

theorem completes_name {name comment hcrc : Option (List UInt8)} (hx : 4 ≤ x.length)
    (hflag : hasFlag x GZ_FNAME = name.isSome) (htext : ∀ b, name = some b → ∀ c ∈ b, c ≠ 0)
    (hflag' : hasFlag x GZ_FCOMMENT = comment.isSome)
    (htext' : ∀ b, comment = some b → ∀ c ∈ b, c ≠ 0)
    (hflag'' : hasFlag x GZ_FHDRCRC = hcrc.isSome) (hlen : ∀ c, hcrc = some c → c.length = 2) :
    Completes dec crc32 (toName dec x)
      (name.elim [] textBytes ++ (comment.elim [] textBytes ++ (hcrc.getD [] ++ s)))
      (x ++ name.elim [] textBytes ++ comment.elim [] textBytes ++ hcrc.getD []) name s := by
  cases name with
  | none =>
    have hnext : toName dec x = toCmt dec x 0 := if_neg (by simp [hflag])
    rw [hnext, Option.elim_none, append_nil]
    exact completes_cmt hx (fun y => rfl) hflag' htext' hflag'' hlen
  | some b =>
    have hnext : toName dec x = ([], .name x) := if_pos (by simp [hflag])
    rw [hnext, Option.elim_some]
    have hunit : gzUnit dec crc32 (.name x)
        (textBytes b ++ (comment.elim [] textBytes ++ (hcrc.getD [] ++ s))) =
        some ((toCmt dec (x ++ textBytes b) x.length).1,
          some (toCmt dec (x ++ textBytes b) x.length).2,
          comment.elim [] textBytes ++ (hcrc.getD [] ++ s)) := by
      rw [gzUnit, textUnit_text (htext b rfl)]
    refine .cons rfl hunit
      (completes_cmt (by rw [length_append]; omega) (fun y => ?_) ?_ htext' ?_ hlen)
    · have hne : x.length ≠ 0 := by omega
      rw [ffgzFname, if_pos hne, append_assoc, drop_left, ffszNlen_text (htext b rfl),
        textBytes, append_assoc, take_left]
    · rw [hasFlag_append hx, hflag']
    · rw [hasFlag_append hx, hflag'']

theorem completes_extra {e h u : List UInt8} (hshort : e.length < 2 ^ 16)
    (hnext : Completes dec crc32 (toName dec (x ++ extraBytes e)) s h name u) :
    Completes dec crc32 ([], .extraLen x) (extraBytes e ++ s) h name u := by
  have hlen : (leBytes 2 e.length).length = 2 := length_leBytes 2 e.length
  have hunit := @gathered_some (Want D) UInt8 Ev need (act dec crc32) (.extraLen x)
    (leBytes 2 e.length) (e ++ s) hlen
  rw [act, leNat_leBytes hshort] at hunit
  rw [extraBytes, append_assoc]
  cases e with
  | nil => exact .cons rfl hunit hnext
  | cons b e =>
    have hunit' := @gathered_some (Want D) UInt8 Ev need (act dec crc32)
      (.extra (x ++ leBytes 2 (b :: e).length) e.length) (b :: e) s rfl
    rw [act, append_assoc] at hunit'
    exact .cons (q := ([], .extra (x ++ leBytes 2 (b :: e).length) e.length)) rfl hunit
      (.cons rfl hunit' hnext)

/-- **A file means its header, with the name in it, and then its data.** -/
theorem gzip_header {h : Header} (hv : h.Valid) (s : List UInt8) :
    gzip dec crc32 (h.bytes ++ s) =
      .info h.bytes h.name :: meaning (gzUnit dec crc32) (fun _ _ => []) (.data dec.first 0 0) s := by
  obtain ⟨base, extra, name, comment, hcrc⟩ := h
  have hlen : base.length = 10 := hv.length
  have hgood : ¬(!goodHdr base) = true := by simp [hv.good]
  obtain ⟨rest, hrest⟩ : ∃ rest, rest = name.elim [] textBytes ++ (comment.elim [] textBytes ++
    (hcrc.getD [] ++ s)) := ⟨_, rfl⟩
  obtain ⟨es, hes, htakes⟩ : Completes dec crc32 ([], .hdr)
      (base ++ (extra.elim [] extraBytes ++ rest))
      (base ++ extra.elim [] extraBytes ++ name.elim [] textBytes ++ comment.elim [] textBytes ++
        hcrc.getD []) name s := by
    have hunit := @gathered_some (Want D) UInt8 Ev need (act dec crc32) .hdr base
      (extra.elim [] extraBytes ++ rest) hlen
    rw [act, if_neg hgood, hv.extra] at hunit
    cases extra with
    | none =>
      rw [if_neg (by simp)] at hunit
      rw [Option.elim_none, append_nil, nil_append]
      refine .cons rfl hunit ?_
      rw [hrest]
      exact completes_name (by omega) hv.name hv.nameText hv.comment hv.commentText hv.hcrc
        hv.hcrcLen
    | some e =>
      rw [if_pos (by simp)] at hunit
      refine .cons (q := ([], .extraLen base)) rfl hunit (completes_extra (hv.extraLen e rfl) ?_)
      rw [hrest]
      refine completes_name (by rw [length_append]; omega) ?_ hv.nameText ?_ hv.commentText
        ?_ hv.hcrcLen
      · rw [hasFlag_append (by omega), hv.name]
      · rw [hasFlag_append (by omega), hv.comment]
      · rw [hasFlag_append (by omega), hv.hcrc]
  have hbytes : Header.bytes ⟨base, extra, name, comment, hcrc⟩ ++ s =
      base ++ (extra.elim [] extraBytes ++ rest) := by
    rw [hrest, Header.bytes, Header.front]
    simp only [append_assoc]
  have hbytes' : Header.bytes ⟨base, extra, name, comment, hcrc⟩ = base ++ extra.elim [] extraBytes ++
      name.elim [] textBytes ++ comment.elim [] textBytes ++ hcrc.getD [] := by
    rw [Header.bytes, Header.front]
    simp only [append_assoc]
  rw [gzip, hbytes, meaning_takes isUnit_gzUnit htakes, hbytes']
  exact congrArg (· ++ _) ((nil_append es).symm.trans hes)

end HeaderLemmas

end Gz

end FF
