import FF.Ffarr
import FF.Lib.Fields
import FF.Mtags.Tags

/-!
# The fields of an APEv2 tag

`ffapetag_parse` of `FF/mtags/ffapetag.c`. The footer at the end of the tag says how large the tag
is; if the data given do not hold all of it, the caller seeks to its start, and the bytes are
gathered. Then each call returns a field, whose name and value are places in the tag.

The size of a field is computed with 32 bits, which a large `val_len` exceeds (`apeFits`).
-/

namespace FF

open List

/-! ### Program -/

/-- The difference of two numbers of 32 bits. -/
def sub32 (a b : ℕ) : ℕ := (a + 2 ^ 32 - b) % 2 ^ 32

/-- `sizeof(ffapehdr)`. -/
def APEHDR_SIZE : ℕ := 32

/-- `ffapehdr`. -/
structure Ffapehdr where
  id : List UInt8
  ver : ℕ
  size : ℕ
  hasHdr : Bool
  deriving DecidableEq, Repr

/-- The fields of a header or footer that the program uses. -/
def Ffapehdr.ofBytes (b : List UInt8) : Ffapehdr where
  id := field b 0 8
  ver := leNat (field b 8 4)
  size := leNat (field b 12 4)
  hasHdr := decide (2 ^ 31 ≤ leNat (field b 20 4))

/-- `ffapetag_valid`. -/
def ffapetagValid (a : Ffapehdr) : Bool :=
  a.id == ascii "APETAGEX" && a.ver == 2000 && APEHDR_SIZE ≤ a.size

/-- `ffapetag_size`. -/
def ffapetagSize (a : Ffapehdr) : ℕ :=
  if a.hasHdr then (a.size + APEHDR_SIZE) % 2 ^ 32 else a.size

/-- `ffapetag_str`. -/
def ffapetagStr : List (List UInt8) :=
  ["album", "albumartist", "artist", "comment", "cover art (front)", "genre", "publisher", "title",
    "track", "year"].map ascii

/-- `_ffapetag_id3`. -/
def ffapetagId3 : List Ffmmtag :=
  [.album, .albumartist, .artist, .comment, .picture, .genre, .publisher, .title, .trackno, .date]

/-- `_ffapetag_field`. -/
def ffapetagField (name : List UInt8) : Ffmmtag :=
  match ffszarrIfindsorted ffapetagStr 10 name with
  | none => .ukn
  | some r => ffapetagId3.getD r .ukn

/-- A string by its place in the tag. -/
structure ApeSlice where
  off : ℕ
  len : ℕ
  deriving DecidableEq, Repr

/-- The states of `ffapetag_parse`. -/
inductive ApetagSt
  | ftr
  | ftrDone
  | copytag
  | fld
  deriving DecidableEq, Repr

/-- `enum FFAPETAG_R`. -/
inductive ApetagR
  | err
  | no
  | footer
  | seek
  | more
  | tag
  | done
  deriving DecidableEq, Repr

/-- `ffapetag`. -/
structure Ffapetag where
  state : ApetagSt
  size : ℕ
  nlen : ℕ
  buf : Ffarr
  hasHdr : Bool
  tag : Ffmmtag
  flags : ℕ
  name : ApeSlice
  val : ApeSlice

/-- A reader in its first state. -/
def Ffapetag.zero : Ffapetag := ⟨.ftr, 0, 0, .null, false, .ukn, 0, ⟨0, 0⟩, ⟨0, 0⟩⟩

/-- `ffsz_nlen` at a place of the memory. -/
def ffszNlen (mem : List UInt8) (off maxlen : ℕ) : Except MemStop ℕ :=
  let s := (mem.drop off).take maxlen
  if s.contains 0 then .ok (s.takeWhile (· ≠ 0)).length
  else if s.length = maxlen then .ok maxlen
  else .error .overread

/-- `ffsz_len` at a place of the memory. -/
def ffszLen (mem : List UInt8) (off : ℕ) : Except MemStop ℕ :=
  let s := mem.drop off
  if s.contains 0 then .ok (s.takeWhile (· ≠ 0)).length else .error .overread

/-- The size of a field with a name and a value of these lengths, as a number of 32 bits. -/
def apeFldSize (namelen vallen : ℕ) : ℕ := (4 * 2 + namelen + 1 + vallen) % 2 ^ 32

/-- The reader with the field that is at its place. -/
def Ffapetag.setFld (a : Ffapetag) (n vallen flags : ℕ) (tag : Ffmmtag) : Ffapetag :=
  { a with
    flags := flags
    name := ⟨a.nlen + 8, n⟩
    tag := tag
    val := ⟨a.nlen + 8 + n + 1, vallen⟩ }

/-- The size of the field that was read is checked. -/
def apetagFldSize (a : Ffapetag) (len : ℕ) : Ffapetag × ApetagR × ℕ :=
  if apeFldSize a.name.len a.val.len > sizeSub (sub32 a.size a.nlen) APEHDR_SIZE then
    (a, .err, len)
  else ({ a with nlen := (a.nlen + apeFldSize a.name.len a.val.len) % 2 ^ 32 }, .tag, 0)

/-- The state `I_FLD`: `mem` is the memory from the start of the tag on, and `dlen` the length of
`d`. -/
def apetagFld (a : Ffapetag) (mem : List UInt8) (dlen len : ℕ) :
    Except MemStop (Ffapetag × ApetagR × ℕ) :=
  if sub32 a.size a.nlen = APEHDR_SIZE then .ok (a, .done, 0)
  else if 8 ≥ dlen then .ok (a, .err, len)
  else do
    let vallen ← readBytes mem a.nlen 4
    let flags ← readBytes mem (a.nlen + 4) 4
    let n ← ffszNlen mem (a.nlen + 8) dlen
    let namelen ← ffszLen mem (a.nlen + 8)
    .ok (apetagFldSize (a.setFld (n % 2 ^ 32) (leNat vallen) (leNat flags)
      (ffapetagField ((mem.drop (a.nlen + 8)).take namelen))) len)

/-- The state `I_HDR`. -/
def apetagHdr (a : Ffapetag) (mem : List UInt8) (dlen len : ℕ) :
    Except MemStop (Ffapetag × ApetagR × ℕ) :=
  if a.hasHdr then do
    let id ← readBytes mem 0 8
    if id ≠ ascii "APETAGEX" then .ok (a, .err, len)
    else
      apetagFld { a with nlen := (a.nlen + APEHDR_SIZE) % 2 ^ 32, state := .fld } mem
        (sizeSub dlen APEHDR_SIZE) len
  else apetagFld { a with state := .fld } mem dlen len

/-- `ffapetag_parse`: the result, and the number of bytes that were processed. -/
def ffapetagParse (alloc : ℕ → Bool) (a : Ffapetag) (data : List UInt8) :
    Except MemStop (Ffapetag × ApetagR × ℕ) :=
  match a.state with
  | .ftr =>
    if data.length < APEHDR_SIZE then .ok (a, .err, data.length)
    else
      let ftr := Ffapehdr.ofBytes (data.drop (data.length - APEHDR_SIZE))
      if ¬ffapetagValid ftr then .ok (a, .no, 0)
      else
        .ok ({ a with hasHdr := ftr.hasHdr, size := ffapetagSize ftr, state := .ftrDone },
          .footer, data.length)
  | .ftrDone =>
    if a.size > data.length then .ok ({ a with state := .copytag }, .seek, data.length)
    else apetagHdr a (data.drop (data.length - a.size)) a.size data.length
  | .copytag =>
    match ffarrAppendUntil alloc a.buf data a.size with
    | .fail => .ok (a, .err, data.length)
    | .assert => .error .endless -- nothing is gathered, and more is asked for
    | .more buf => .ok ({ a with buf := buf }, .more, data.length)
    | .done buf _ => apetagHdr { a with buf := buf } buf.bytes buf.len data.length
  | .fld =>
    if a.buf.len ≠ 0 then apetagFld a a.buf.bytes (sizeSub a.buf.len a.nlen) data.length
    else
      apetagFld a (data.drop (data.length - a.size)) (sizeSub a.size a.nlen) data.length

/-- The caller: data are given until they do not suffice, then the bytes from the start of the tag
on, in pieces. The fields and the last result; `none` if there is no end within the fuel, or on a
fault. -/
@[grind =] def apetagRun (alloc : ℕ → Bool) : ℕ → Ffapetag → List UInt8 → List (List UInt8) →
    Option (List (ApeSlice × ApeSlice) × ApetagR)
  | 0, _, _, _ => none
  | fuel + 1, a, data, pieces =>
    match ffapetagParse alloc a data with
    | .error _ => none
    | .ok (a, .footer, _) => apetagRun alloc fuel a data pieces
    | .ok (a, .tag, _) =>
      (apetagRun alloc fuel a data pieces).map fun x => ((a.name, a.val) :: x.1, x.2)
    | .ok (a, .seek, _) =>
      match pieces with
      | [] => some ([], .seek)
      | p :: ps => apetagRun alloc fuel a p ps
    | .ok (a, .more, _) =>
      match pieces with
      | [] => some ([], .more)
      | p :: ps => apetagRun alloc fuel a p ps
    | .ok (_, r, _) => some ([], r)

/-! ### Tags -/

/-- **An APEv2 tag**: it ends with a valid footer, which says how long it is. -/
structure ApeTag where
  bytes : List UInt8
  long : APEHDR_SIZE ≤ bytes.length
  valid : ffapetagValid (Ffapehdr.ofBytes (bytes.drop (bytes.length - APEHDR_SIZE))) = true
  size : bytes.length = (Ffapehdr.ofBytes (bytes.drop (bytes.length - APEHDR_SIZE))).size +
    if (Ffapehdr.ofBytes (bytes.drop (bytes.length - APEHDR_SIZE))).hasHdr then APEHDR_SIZE else 0

/-- The footer. -/
def ApeTag.footer (t : ApeTag) : Ffapehdr :=
  Ffapehdr.ofBytes (t.bytes.drop (t.bytes.length - APEHDR_SIZE))

/-- Where the fields begin. -/
def ApeTag.start (t : ApeTag) : ℕ := if t.footer.hasHdr then APEHDR_SIZE else 0

/-- The length of the name of the field at the front. -/
def apeNameLen (d : List UInt8) : ℕ := ((d.drop 8).takeWhile (· ≠ 0)).length

/-- The length of its value. -/
def apeValLen (d : List UInt8) : ℕ := leNat (d.take 4)

/-- The size of the field. -/
def apeFldLen (d : List UInt8) : ℕ := 4 * 2 + apeNameLen d + 1 + apeValLen d

/-- **No field size wraps around**: of the fields from `d` on, one behind another, none has 2^32
bytes or more, unless what is left of this number is still too large for the tag. -/
@[grind =] def apeFits : ℕ → List UInt8 → Prop
  | 0, _ => True
  | n + 1, d =>
    APEHDR_SIZE < d.length →
      (apeFldLen d < 2 ^ 32 ∨ d.length - APEHDR_SIZE < apeFldLen d % 2 ^ 32) ∧
        (apeFldLen d ≤ d.length - APEHDR_SIZE → apeFits n (d.drop (apeFldLen d)))

/-- The fields of a tag with this property; a tag with a wrong header is not read. -/
def ApeTag.Fits (t : ApeTag) : Prop :=
  (t.footer.hasHdr = true → t.bytes.take 8 = ascii "APETAGEX") →
    apeFits t.bytes.length (t.bytes.drop t.start)

/-- The names and values lie within the first `n` bytes, and the fields one behind another. -/
def FieldsIn (n : ℕ) (fields : List (ApeSlice × ApeSlice)) : Prop :=
  (∀ f ∈ fields, f.1.off + f.1.len ≤ f.2.off ∧ f.2.off + f.2.len ≤ n) ∧
    fields.Pairwise fun f g => f.2.off + f.2.len ≤ g.1.off

/-- The data given at first end with the tag and hold all of it; or they hold its footer, and the
tag is read again from its start. -/
def ApeTag.Given (t : ApeTag) (data : List UInt8) (pieces : List (List UInt8)) : Prop :=
  (∃ pre, data = pre ++ t.bytes) ∨
    (APEHDR_SIZE ≤ data.length ∧ data.length < t.bytes.length ∧ (∃ front, t.bytes = front ++ data) ∧
      ∃ post, pieces.flatten = t.bytes ++ post)

/-- **The tag is read well**: the reading ends, the fields lie in the tag, and they do not
overlap. -/
def ApeTag.Safe (t : ApeTag) (alloc : ℕ → Bool) (data : List UInt8)
    (pieces : List (List UInt8)) : Prop :=
  ∃ fields r k, (∀ fuel, k ≤ fuel → apetagRun alloc fuel .zero data pieces = some (fields, r)) ∧
    FieldsIn t.bytes.length fields

/-! ### A field -/

section Field

theorem ok_bind {ε α β : Type} (x : α) (f : α → Except ε β) : (Except.ok x >>= f) = f x := rfl

variable {t : ApeTag} {alloc : ℕ → Bool} {a a' : Ffapetag} {data : List UInt8}
  {pieces : List (List UInt8)} {c : ℕ}

/-- **The version in the footer has a zero byte**, so that a name ends in the tag. -/
theorem ApeTag.zero_mem (t : ApeTag) (hc : c + APEHDR_SIZE < t.bytes.length) :
    (t.bytes.drop (c + 8)).contains 0 = true := by
  have hver : leNat (field (t.bytes.drop (t.bytes.length - APEHDR_SIZE)) 8 4) = 2000 := by
    have hvalid := t.valid
    rw [ffapetagValid, Bool.and_eq_true, Bool.and_eq_true] at hvalid
    exact eq_of_beq hvalid.1.2
  rw [APEHDR_SIZE] at hc
  rw [field, drop_drop, APEHDR_SIZE] at hver
  obtain ⟨x, y, z, w, hf⟩ :
      ∃ x y z w, (t.bytes.drop (t.bytes.length - 32 + 8)).take 4 = [x, y, z, w] := by
    apply length_eq_four.mp
    rw [length_take, length_drop]
    omega
  have hz : z = 0 := by
    rw [hf] at hver
    simp only [leNat] at hver
    refine UInt8.toNat_inj.mp ?_
    change z.toNat = 0
    omega
  have hmem : z ∈ t.bytes.drop (t.bytes.length - 32 + 8) := by
    have hin : z ∈ (t.bytes.drop (t.bytes.length - 32 + 8)).take 4 := by
      rw [hf]
      simp
    exact mem_of_mem_take hin
  have hsplit : t.bytes.drop (t.bytes.length - 32 + 8) =
      (t.bytes.drop (c + 8)).drop (t.bytes.length - 32 - c) := by
    rw [drop_drop]
    congr 1
    omega
  rw [hsplit] at hmem
  rw [contains_iff_mem, ← hz]
  exact mem_of_mem_drop hmem

/-- The reader stands at the place `c` of the tag, which is in the buffer or at the end of the
data. -/
structure ApeAt (t : ApeTag) (a : Ffapetag) (data : List UInt8) (c : ℕ) : Prop where
  state : a.state = .fld
  size : a.size = t.bytes.length
  nlen : a.nlen = c
  mem : (a.buf.len ≠ 0 ∧ a.buf.Has t.bytes) ∨
    (a.buf.len = 0 ∧ data.drop (data.length - t.bytes.length) = t.bytes)

/-- In the state `I_FLD` the tag is what is read. -/
theorem ApeAt.parse (h : ApeAt t a data c) (hc : c ≤ t.bytes.length)
    (hsize : t.bytes.length < 2 ^ 32) :
    ffapetagParse alloc a data = apetagFld a t.bytes (t.bytes.length - c) data.length := by
  obtain ⟨hstate, hs, hn, hmem⟩ := h
  have hlt : t.bytes.length < SIZE_BOUND := Nat.lt_trans hsize (by decide)
  rw [ffapetagParse, hstate]
  dsimp only
  rcases hmem with ⟨hne, hhas⟩ | ⟨h0, hdrop⟩
  · rw [if_pos hne, hhas.1, hhas.2, hn, sizeSub_of_le hc hlt]
  · rw [if_neg (fun hne => hne h0), hs, hdrop, hn, sizeSub_of_le hc hlt]

/-- **A call for a field**: it ends at the footer, or the field is returned or refused by the
remainder of its size. -/
theorem ApeAt.fld (h : ApeAt t a data c) (hc : c + APEHDR_SIZE ≤ t.bytes.length)
    (hsize : t.bytes.length < 2 ^ 32) (len : ℕ) :
    (c + APEHDR_SIZE = t.bytes.length ∧
        apetagFld a t.bytes (t.bytes.length - c) len = .ok (a, .done, 0)) ∨
      (c + APEHDR_SIZE < t.bytes.length ∧
        ((t.bytes.length - c - APEHDR_SIZE < apeFldLen (t.bytes.drop c) % 2 ^ 32 ∧
            ∃ a', apetagFld a t.bytes (t.bytes.length - c) len = .ok (a', .err, len)) ∨
          (apeFldLen (t.bytes.drop c) % 2 ^ 32 ≤ t.bytes.length - c - APEHDR_SIZE ∧
            ∃ a', apetagFld a t.bytes (t.bytes.length - c) len = .ok (a', .tag, 0) ∧
              ApeAt t a' data (c + apeFldLen (t.bytes.drop c) % 2 ^ 32) ∧
              a'.name = ⟨c + 8, apeNameLen (t.bytes.drop c)⟩ ∧
              a'.val =
                ⟨c + 8 + apeNameLen (t.bytes.drop c) + 1, apeValLen (t.bytes.drop c)⟩))) := by
  obtain ⟨hstate, hs, hn, hmem⟩ := h
  have hsub : sub32 a.size a.nlen = t.bytes.length - c := by
    rw [sub32, hs, hn]
    omega
  rw [APEHDR_SIZE] at hc ⊢
  rcases Nat.eq_or_lt_of_le hc with heq | hlt
  · left
    refine ⟨heq, ?_⟩
    rw [apetagFld, hsub, APEHDR_SIZE, if_pos (by omega)]
  right
  refine ⟨hlt, ?_⟩
  have hzero := t.zero_mem hlt
  have hname : apeNameLen (t.bytes.drop c) =
      ((t.bytes.drop (c + 8)).takeWhile (· ≠ 0)).length := by
    rw [apeNameLen, drop_drop]
  have hnlt : apeNameLen (t.bytes.drop c) < 2 ^ 32 := by
    have hle := (takeWhile_sublist (· ≠ 0) (l := t.bytes.drop (c + 8))).length_le
    rw [length_drop] at hle
    rw [hname]
    omega
  have htake : (t.bytes.drop (c + 8)).take (t.bytes.length - c) = t.bytes.drop (c + 8) :=
    take_of_length_le (by rw [length_drop]; omega)
  have hnl : ffszNlen t.bytes (c + 8) (t.bytes.length - c) =
      .ok (apeNameLen (t.bytes.drop c)) := by
    rw [ffszNlen, htake, if_pos hzero, hname]
  have hl : ffszLen t.bytes (c + 8) = .ok (apeNameLen (t.bytes.drop c)) := by
    rw [ffszLen, if_pos hzero, hname]
  have hv : readBytes t.bytes c 4 = .ok ((t.bytes.drop c).take 4) := readBytes_eq (by omega)
  have hf : readBytes t.bytes (c + 4) 4 = .ok ((t.bytes.drop (c + 4)).take 4) :=
    readBytes_eq (by omega)
  have hne : ¬sub32 a.size a.nlen = APEHDR_SIZE := by
    rw [hsub, APEHDR_SIZE]
    omega
  have hroom : sizeSub (sub32 a.size a.nlen) APEHDR_SIZE = t.bytes.length - c - 32 := by
    rw [hsub, APEHDR_SIZE]
    refine sizeSub_of_le (by omega) ?_
    rw [SIZE_BOUND]
    omega
  have hlen : apeFldSize (apeNameLen (t.bytes.drop c)) (apeValLen (t.bytes.drop c)) =
      apeFldLen (t.bytes.drop c) % 2 ^ 32 := by
    rw [apeFldSize, apeFldLen]
  obtain ⟨a₁, ha₁⟩ : ∃ a₁, a₁ = a.setFld (apeNameLen (t.bytes.drop c))
    (apeValLen (t.bytes.drop c)) (leNat ((t.bytes.drop (c + 4)).take 4))
    (ffapetagField ((t.bytes.drop (c + 8)).take (apeNameLen (t.bytes.drop c)))) := ⟨_, rfl⟩
  have hfld : apetagFld a t.bytes (t.bytes.length - c) len =
      .ok (if apeFldLen (t.bytes.drop c) % 2 ^ 32 > t.bytes.length - c - 32 then (a₁, .err, len)
        else ({ a₁ with nlen := (c + apeFldLen (t.bytes.drop c) % 2 ^ 32) % 2 ^ 32 },
          .tag, 0)) := by
    rw [apetagFld, if_neg hne, if_neg (by omega), hn, hv, hf, hnl, hl, ok_bind, ok_bind, ok_bind,
      ok_bind, Nat.mod_eq_of_lt hnlt, ← apeValLen, ← ha₁, apetagFldSize]
    have hname₁ : a₁.name.len = apeNameLen (t.bytes.drop c) := by rw [ha₁]; rfl
    have hval₁ : a₁.val.len = apeValLen (t.bytes.drop c) := by rw [ha₁]; rfl
    have hnlen₁ : a₁.nlen = c := by rw [ha₁]; exact hn
    have hsub₁ : sub32 a₁.size a₁.nlen = sub32 a.size a.nlen := by rw [ha₁]; rfl
    rw [hname₁, hval₁, hsub₁, hroom, hlen, hnlen₁]
  rw [hfld]
  by_cases hfit : apeFldLen (t.bytes.drop c) % 2 ^ 32 ≤ t.bytes.length - c - 32
  · right
    refine ⟨hfit, ?_⟩
    rw [if_neg (by omega)]
    have hnext : (c + apeFldLen (t.bytes.drop c) % 2 ^ 32) % 2 ^ 32 =
        c + apeFldLen (t.bytes.drop c) % 2 ^ 32 := Nat.mod_eq_of_lt (by omega)
    rw [hnext]
    refine ⟨_, rfl, ⟨?_, ?_, rfl, ?_⟩, ?_, ?_⟩
    · rw [ha₁]
      exact hstate
    · rw [ha₁]
      exact hs
    · rw [ha₁]
      exact hmem
    · rw [ha₁, Ffapetag.setFld, hn]
    · rw [ha₁, Ffapetag.setFld, hn]
  · left
    refine ⟨by omega, ?_⟩
    rw [if_pos (by omega)]
    exact ⟨_, rfl⟩

end Field

/-! ### Runs -/

section Runs

variable {t : ApeTag} {alloc : ℕ → Bool} {a a' : Ffapetag} {data : List UInt8}
  {pieces : List (List UInt8)} {c : ℕ}

theorem apetagRun_of_parse {fuel len : ℕ} (h : ffapetagParse alloc a data = .ok (a', .tag, len)) :
    apetagRun alloc (fuel + 1) a data pieces =
      (apetagRun alloc fuel a' data pieces).map fun x => ((a'.name, a'.val) :: x.1, x.2) := by
  rw [apetagRun, h]

/-- **Fields whose sizes do not wrap around** are read well. -/
theorem ApeAt.run (hsize : t.bytes.length < 2 ^ 32) :
    ∀ n c a, ApeAt t a data c → c + APEHDR_SIZE ≤ t.bytes.length → t.bytes.length - c ≤ n →
      apeFits n (t.bytes.drop c) →
      ∃ fields r k, (∀ fuel, k ≤ fuel → apetagRun alloc fuel a data pieces = some (fields, r)) ∧
        FieldsIn t.bytes.length fields ∧ ∀ f ∈ fields, c ≤ f.1.off := by
  have hpos : 0 < APEHDR_SIZE := by decide
  intro n
  induction n with
  | zero =>
    intro c a _ hc hn
    omega
  | succ n ih =>
    intro c a h hc hn hfits
    have hcle : c ≤ t.bytes.length := Nat.le_of_add_right_le hc
    rcases h.fld hc hsize data.length with
      ⟨-, he⟩ | ⟨hlt, ⟨-, a', he⟩ | ⟨hle, a', he, hat, hname, hval⟩⟩
    · refine ⟨[], .done, 1, fun fuel hf => ?_, ⟨nofun, List.Pairwise.nil⟩, nofun⟩
      obtain ⟨fuel, rfl⟩ : ∃ f, fuel = f + 1 := ⟨fuel - 1, by omega⟩
      rw [apetagRun, h.parse hcle hsize, he]
    · refine ⟨[], .err, 1, fun fuel hf => ?_, ⟨nofun, List.Pairwise.nil⟩, nofun⟩
      obtain ⟨fuel, rfl⟩ : ∃ f, fuel = f + 1 := ⟨fuel - 1, by omega⟩
      rw [apetagRun, h.parse hcle hsize, he]
    -- the size of the field is what is compared
    have hdlen : (t.bytes.drop c).length = t.bytes.length - c := length_drop
    obtain ⟨hwrap, hrest⟩ := hfits (by omega)
    rw [hdlen] at hwrap hrest
    have hsmall : apeFldLen (t.bytes.drop c) < 2 ^ 32 := by
      rcases hwrap with hsmall | hbig
      · exact hsmall
      · omega
    rw [Nat.mod_eq_of_lt hsmall] at hle hat
    have hw : apeFldLen (t.bytes.drop c) =
        4 * 2 + apeNameLen (t.bytes.drop c) + 1 + apeValLen (t.bytes.drop c) := rfl
    have hfit' := hrest hle
    rw [drop_drop] at hfit'
    obtain ⟨fields, r, k, hrun, ⟨hin, hsep⟩, hfrom⟩ :=
      ih _ a' hat (by omega) (by omega) hfit'
    refine ⟨(a'.name, a'.val) :: fields, r, k + 1, fun fuel hf => ?_, ⟨?_, ?_⟩, ?_⟩
    · obtain ⟨fuel, rfl⟩ : ∃ f, fuel = f + 1 := ⟨fuel - 1, by omega⟩
      rw [apetagRun_of_parse ((h.parse hcle hsize).trans he), hrun fuel (by omega)]
      rfl
    · rintro f hf
      rcases mem_cons.mp hf with rfl | hf
      · rw [hname, hval]
        dsimp only
        omega
      · exact hin f hf
    · refine pairwise_cons.mpr ⟨fun f hf => ?_, hsep⟩
      have hle' := hfrom f hf
      rw [hval]
      dsimp only
      omega
    rintro f hf
    rcases mem_cons.mp hf with rfl | hf
    · rw [hname]
      dsimp only
      omega
    · have hle' := hfrom f hf
      omega

/-- **A field whose size wraps around** is returned, and its value does not lie in the tag. -/
theorem ApeAt.run_unfit (hsize : t.bytes.length < 2 ^ 32) :
    ∀ n c a, ApeAt t a data c → c + APEHDR_SIZE ≤ t.bytes.length → ¬apeFits n (t.bytes.drop c) →
      ∀ fuel fields r, apetagRun alloc fuel a data pieces = some (fields, r) →
        ∃ f ∈ fields, t.bytes.length < f.2.off + f.2.len := by
  intro n
  induction n with
  | zero =>
    intro c a _ _ hno
    exact absurd trivial hno
  | succ n ih =>
    intro c a h hc hno fuel fields r hrun
    have hcle : c ≤ t.bytes.length := Nat.le_of_add_right_le hc
    have hdlen : (t.bytes.drop c).length = t.bytes.length - c := length_drop
    rw [apeFits, hdlen] at hno
    obtain ⟨hlong, hno⟩ := Classical.not_imp.mp hno
    cases fuel with
    | zero => cases hrun
    | succ fuel =>
      rcases h.fld hc hsize data.length with
        ⟨heq, -⟩ | ⟨hlt, ⟨hbig, a', he⟩ | ⟨hle, a', he, hat, hname, hval⟩⟩
      · omega
      · have hbad : apeFldLen (t.bytes.drop c) % 2 ^ 32 ≤ apeFldLen (t.bytes.drop c) :=
          Nat.mod_le _ _
        refine absurd ⟨.inr hbig, fun hle => ?_⟩ hno
        omega
      rw [apetagRun_of_parse ((h.parse hcle hsize).trans he)] at hrun
      obtain ⟨x, hx, hcons⟩ := Option.map_eq_some_iff.mp hrun
      obtain ⟨rfl, -⟩ := Prod.mk.inj hcons
      have hw : apeFldLen (t.bytes.drop c) =
          4 * 2 + apeNameLen (t.bytes.drop c) + 1 + apeValLen (t.bytes.drop c) := rfl
      by_cases hsmall : apeFldLen (t.bytes.drop c) < 2 ^ 32
      · rw [Nat.mod_eq_of_lt hsmall] at hle hat
        have hno' : ¬apeFits n (t.bytes.drop (c + apeFldLen (t.bytes.drop c))) := by
          intro hfit
          refine hno ⟨.inl hsmall, fun _ => ?_⟩
          rw [drop_drop]
          exact hfit
        obtain ⟨f, hf, hout⟩ := ih _ a' hat (by omega) hno' fuel x.1 x.2 hx
        exact ⟨f, mem_cons_of_mem _ hf, hout⟩
      · refine ⟨_, mem_cons_self, ?_⟩
        rw [hval]
        dsimp only
        omega

theorem apetagRun_congr (h : ffapetagParse alloc a data = ffapetagParse alloc a' data) (fuel : ℕ) :
    apetagRun alloc fuel a data pieces = apetagRun alloc fuel a' data pieces := by
  cases fuel with
  | zero => rfl
  | succ fuel => rw [apetagRun, apetagRun, h]

/-- What the field sizes of the tag say about a run. -/
structure ApeReads (t : ApeTag) (alloc : ℕ → Bool) (a : Ffapetag) (data : List UInt8)
    (pieces : List (List UInt8)) : Prop where
  well : t.Fits → ∃ fields r k,
    (∀ fuel, k ≤ fuel → apetagRun alloc fuel a data pieces = some (fields, r)) ∧
      FieldsIn t.bytes.length fields
  badly : ¬t.Fits → ∀ fuel fields r, apetagRun alloc fuel a data pieces = some (fields, r) →
    ∃ f ∈ fields, t.bytes.length < f.2.off + f.2.len

theorem ApeReads.step {data' : List UInt8} {pieces' : List (List UInt8)}
    (h : ∀ fuel, apetagRun alloc (fuel + 1) a data pieces = apetagRun alloc fuel a' data' pieces')
    (h' : ApeReads t alloc a' data' pieces') : ApeReads t alloc a data pieces := by
  refine ⟨fun hfit => ?_, fun hno fuel fields r hrun => ?_⟩
  · obtain ⟨fields, r, k, hk, hin⟩ := h'.well hfit
    refine ⟨fields, r, k + 1, fun fuel hf => ?_, hin⟩
    obtain ⟨fuel, rfl⟩ : ∃ f, fuel = f + 1 := ⟨fuel - 1, by omega⟩
    rw [h, hk fuel (by omega)]
  · cases fuel with
    | zero => cases hrun
    | succ fuel =>
      rw [h] at hrun
      exact h'.badly hno fuel fields r hrun

theorem ApeTag.start_le (t : ApeTag) : t.start + APEHDR_SIZE ≤ t.bytes.length := by
  have hsize := t.size
  have hvalid := t.valid
  rw [ffapetagValid, Bool.and_eq_true] at hvalid
  have hle := of_decide_eq_true hvalid.2
  rw [ApeTag.start]
  split
  · next h =>
      rw [ApeTag.footer] at h
      rw [if_pos h] at hsize
      omega
  · next h =>
      rw [ApeTag.footer] at h
      rw [if_neg h] at hsize
      omega

/-- **The header** is checked, and the first field is returned by the same call. -/
theorem ApeReads.of_hdr (hsize : t.bytes.length < 2 ^ 32)
    (h : ffapetagParse alloc a data = apetagHdr a' t.bytes t.bytes.length data.length)
    (hs : a'.size = t.bytes.length) (hn : a'.nlen = 0) (hh : a'.hasHdr = t.footer.hasHdr)
    (hmem : (a'.buf.len ≠ 0 ∧ a'.buf.Has t.bytes) ∨
      (a'.buf.len = 0 ∧ data.drop (data.length - t.bytes.length) = t.bytes)) :
    ApeReads t alloc a data pieces := by
  have hstart := t.start_le
  have hstart' : t.start ≤ t.bytes.length := Nat.le_of_add_right_le hstart
  by_cases hbad : t.footer.hasHdr = true ∧ t.bytes.take 8 ≠ ascii "APETAGEX"
  · obtain ⟨hhdr, hid⟩ := hbad
    have hlong := t.long
    rw [APEHDR_SIZE] at hlong
    have hread : readBytes t.bytes 0 8 = .ok (t.bytes.take 8) := readBytes_eq (by omega)
    have he : ffapetagParse alloc a data = .ok (a', .err, data.length) := by
      rw [h, apetagHdr, if_pos (hh.trans hhdr), hread, ok_bind, if_pos hid]
    refine ⟨fun _ => ⟨[], .err, 1, fun fuel hf => ?_, nofun, List.Pairwise.nil⟩, fun hno => ?_⟩
    · obtain ⟨fuel, rfl⟩ : ∃ f, fuel = f + 1 := ⟨fuel - 1, by omega⟩
      rw [apetagRun, he]
    · exact absurd (fun hgood => absurd (hgood hhdr) hid) hno
  have hgood : t.footer.hasHdr = true → t.bytes.take 8 = ascii "APETAGEX" :=
    fun hhdr => Classical.byContradiction fun hid => hbad ⟨hhdr, hid⟩
  obtain ⟨a₁, ha₁, hat⟩ : ∃ a₁, ffapetagParse alloc a data =
      apetagFld a₁ t.bytes (t.bytes.length - t.start) data.length ∧ ApeAt t a₁ data t.start := by
    rw [h, apetagHdr, hh, hn, ApeTag.start]
    rw [ApeTag.start] at hstart
    cases hhdr : t.footer.hasHdr with
    | false =>
      rw [if_neg (by decide), if_neg (by decide), Nat.sub_zero]
      exact ⟨_, rfl, rfl, hs, rfl, hmem⟩
    | true =>
      rw [hhdr, if_pos rfl] at hstart
      have hread : readBytes t.bytes 0 8 = .ok (t.bytes.take 8) :=
        readBytes_eq (by rw [APEHDR_SIZE] at hstart; omega)
      have hlt : t.bytes.length < SIZE_BOUND := Nat.lt_trans hsize (by decide)
      rw [if_pos rfl, if_pos rfl, hread, ok_bind, if_neg (not_not_intro (hgood hhdr)),
        sizeSub_of_le (by omega) hlt]
      exact ⟨_, rfl, rfl, hs, rfl, hmem⟩
  have hcongr : ∀ fuel, apetagRun alloc fuel a data pieces =
      apetagRun alloc fuel a₁ data pieces :=
    apetagRun_congr (ha₁.trans (hat.parse hstart' hsize).symm)
  refine ⟨fun hfit => ?_, fun hno fuel fields r hrun => ?_⟩
  · obtain ⟨fields, r, k, hrun, hin, -⟩ := ApeAt.run hsize t.bytes.length t.start a₁ hat hstart
      (Nat.sub_le _ _) (hfit hgood)
    exact ⟨fields, r, k, fun fuel hf => (hcongr fuel).trans (hrun fuel hf), hin⟩
  · rw [hcongr] at hrun
    have hno' : ¬apeFits t.bytes.length (t.bytes.drop t.start) := fun hfit => hno fun _ => hfit
    exact ApeAt.run_unfit hsize t.bytes.length t.start a₁ hat hstart hno' fuel fields r hrun

theorem ApeReads.of_gathered (hsize : t.bytes.length < 2 ^ 32) {b : Ffarr} {n : ℕ}
    (hst : a.state = .copytag) (hs : a.size = t.bytes.length) (hn : a.nlen = 0)
    (hh : a.hasHdr = t.footer.hasHdr)
    (hu : ffarrAppendUntil alloc a.buf data t.bytes.length = .done b n) (hb : b.Has t.bytes) :
    ApeReads t alloc a data pieces := by
  have hstart := t.start_le
  rw [APEHDR_SIZE] at hstart
  have hparse : ffapetagParse alloc a data =
      apetagHdr { a with buf := b } t.bytes t.bytes.length data.length := by
    rw [ffapetagParse, hst]
    rw [hs, hu]
    dsimp only
    rw [hb.1, hb.2]
  exact ApeReads.of_hdr hsize hparse hs hn hh (.inl ⟨by dsimp only; rw [hb.2]; omega, hb⟩)

/-- **The tag is gathered** from its start on. -/
theorem ApeReads.gather (halloc : ∀ n, alloc n = true) (hsize : t.bytes.length < 2 ^ 32)
    {post : List UInt8} (ps : List (List UInt8)) :
    ∀ (p l : List UInt8) (a : Ffapetag), a.state = .copytag → a.size = t.bytes.length →
      a.nlen = 0 → a.hasHdr = t.footer.hasHdr → a.buf.Has l → l.length < t.bytes.length →
      l ++ (p :: ps).flatten = t.bytes ++ post → ApeReads t alloc a p ps := by
  induction ps with
  | nil =>
    intro p l a hst hs hn hh hhas hl heq
    rw [flatten_cons, flatten_nil, append_nil] at heq
    have hlen := congrArg List.length heq
    rw [length_append, length_append] at hlen
    obtain ⟨b, hb⟩ := @ffarrAppendUntil_spec a.buf l alloc halloc hhas p t.bytes.length hl
    rw [if_neg (by omega)] at hb
    have htake : l ++ p.take (t.bytes.length - l.length) = t.bytes := by
      have htake := congrArg (List.take t.bytes.length) heq
      rwa [take_left, take_append, take_of_length_le (Nat.le_of_lt hl)] at htake
    exact .of_gathered hsize hst hs hn hh hb.1 (htake ▸ hb.2)
  | cons q qs ih =>
    intro p l a hst hs hn hh hhas hl heq
    obtain ⟨b, hb⟩ := @ffarrAppendUntil_spec a.buf l alloc halloc hhas p t.bytes.length hl
    by_cases hmore : l.length + p.length < t.bytes.length
    · rw [if_pos hmore] at hb
      have hstep : ∀ fuel, apetagRun alloc (fuel + 1) a p (q :: qs) =
          apetagRun alloc fuel { a with buf := b } q qs := by
        intro fuel
        rw [apetagRun, ffapetagParse, hst]
        rw [hs, hb.1]
      refine .step hstep (ih q (l ++ p) { a with buf := b } hst hs hn hh hb.2
        (by rw [length_append]; exact hmore) ?_)
      rw [append_assoc]
      exact heq
    rw [if_neg hmore] at hb
    have htake : l ++ p.take (t.bytes.length - l.length) = t.bytes := by
      have htake := congrArg (List.take t.bytes.length) heq
      rwa [take_left, flatten_cons, take_append,
        take_of_length_le (Nat.le_of_lt hl),
        take_append_of_le_length (by omega)] at htake
    exact .of_gathered hsize hst hs hn hh hb.1 (htake ▸ hb.2)

/-- **A tag** of less than 4 GiB, read from its footer on. -/
theorem ApeTag.reads (halloc : ∀ n, alloc n = true) (hsize : t.bytes.length < 2 ^ 32)
    (hgiven : t.Given data pieces) : ApeReads t alloc .zero data pieces := by
  have hlong := t.long
  have hlongd : APEHDR_SIZE ≤ data.length ∧
      data.drop (data.length - APEHDR_SIZE) = t.bytes.drop (t.bytes.length - APEHDR_SIZE) := by
    rcases hgiven with ⟨pre, rfl⟩ | ⟨hle, -, ⟨front, hfront⟩, -⟩
    · rw [length_append]
      refine ⟨by omega, ?_⟩
      rw [Nat.add_sub_assoc hlong, drop_append]
      rw [drop_of_length_le (Nat.le_add_right _ _), Nat.add_sub_cancel_left, nil_append]
    · refine ⟨hle, ?_⟩
      rw [hfront, length_append, Nat.add_sub_assoc hle, drop_append]
      rw [drop_of_length_le (Nat.le_add_right _ _), Nat.add_sub_cancel_left, nil_append]
  have hfsize : ffapetagSize t.footer = t.bytes.length := by
    have hts := t.size
    rw [ffapetagSize, ApeTag.footer]
    split
    · next h =>
        rw [if_pos h] at hts
        rw [← hts]
        exact Nat.mod_eq_of_lt hsize
    · next h =>
        rw [if_neg h] at hts
        exact hts.symm
  -- the footer
  obtain ⟨a, ha⟩ : ∃ a : Ffapetag, a = { Ffapetag.zero with
      hasHdr := t.footer.hasHdr, size := t.bytes.length, state := .ftrDone } := ⟨_, rfl⟩
  have hfooter : ffapetagParse alloc .zero data = .ok (a, .footer, data.length) := by
    have hvalid := t.valid
    rw [ffapetagParse, Ffapetag.zero]
    rw [ApeTag.footer] at hfsize
    rw [if_neg (Nat.not_lt.mpr hlongd.1), hlongd.2, if_neg (not_not_intro hvalid), hfsize, ha,
      ApeTag.footer, Ffapetag.zero]
  have hstep : ∀ fuel, apetagRun alloc (fuel + 1) .zero data pieces =
      apetagRun alloc fuel a data pieces := by
    intro fuel
    rw [apetagRun, hfooter]
  refine .step hstep ?_
  have hst : a.state = .ftrDone := by rw [ha]
  have hs : a.size = t.bytes.length := by rw [ha]
  have hn : a.nlen = 0 := by rw [ha, Ffapetag.zero]
  have hh : a.hasHdr = t.footer.hasHdr := by rw [ha]
  have hb : a.buf = .null := by rw [ha, Ffapetag.zero]
  by_cases hwhole : data.length < t.bytes.length
  · rcases hgiven with ⟨pre, rfl⟩ | ⟨-, -, -, post, hpost⟩
    · rw [length_append] at hwhole
      omega
    cases pieces with
    | nil =>
      have hlen := congrArg List.length hpost
      rw [length_append] at hlen
      exact absurd hlen (by rw [flatten_nil, length_nil]; omega)
    | cons p ps =>
      have hseek : ∀ fuel, apetagRun alloc (fuel + 1) a data (p :: ps) =
          apetagRun alloc fuel { a with state := .copytag } p ps := by
        intro fuel
        rw [apetagRun, ffapetagParse, hst]
        rw [hs, if_pos hwhole]
      refine .step hseek (.gather halloc hsize ps p [] _ rfl hs hn hh ?_ ?_ hpost)
      · dsimp only
        rw [hb]
        exact has_null
      · rw [APEHDR_SIZE] at hlong
        rw [length_nil]
        omega
  obtain ⟨pre, rfl⟩ : ∃ pre, data = pre ++ t.bytes := by
    rcases hgiven with hpre | ⟨-, hlt, -⟩
    · exact hpre
    · exact absurd hlt hwhole
  have hdrop : (pre ++ t.bytes).drop ((pre ++ t.bytes).length - t.bytes.length) = t.bytes := by
    rw [length_append, Nat.add_sub_cancel, drop_left]
  refine .of_hdr hsize ?_ hs hn hh (.inr ⟨by rw [hb]; rfl, hdrop⟩)
  rw [ffapetagParse, hst]
  rw [hs, if_neg hwhole, hdrop]

end Runs

/-! ### Results -/

/-- **The fields of a tag** of less than 4 GiB lie in it one behind another, and the reading ends,
exactly if no field size wraps around. -/
theorem ffapetagParse_iff (t : ApeTag) {alloc : ℕ → Bool} (halloc : ∀ n, alloc n = true)
    (hsize : t.bytes.length < 2 ^ 32) {data : List UInt8} {pieces : List (List UInt8)}
    (hgiven : t.Given data pieces) : t.Safe alloc data pieces ↔ t.Fits := by
  obtain ⟨hwell, hbadly⟩ := ApeTag.reads halloc hsize hgiven
  constructor
  · rintro ⟨fields, r, k, hrun, hin, -⟩
    refine Classical.byContradiction fun hno => ?_
    obtain ⟨f, hf, hout⟩ := hbadly hno k fields r (hrun k (Nat.le_refl k))
    exact absurd (hin f hf).2 (Nat.not_le_of_lt hout)
  · intro hfit
    obtain ⟨fields, r, k, hrun, hin⟩ := hwell hfit
    exact ⟨fields, r, k, hrun, hin⟩

/-- A tag without a header, of one field with the name `a` and the value `x`, which says that its
value has `vallen` bytes. -/
def apeOne (vallen : ℕ) : List UInt8 :=
  leBytes 4 vallen ++ leBytes 4 0 ++ [0x61, 0, 0x78] ++ ascii "APETAGEX" ++ leBytes 4 2000 ++
    leBytes 4 43 ++ leBytes 4 1 ++ leBytes 4 0 ++ List.replicate 8 0

/-- The value has one byte. -/
theorem ffapetagParse_iff_example :
    (⟨apeOne 1, by decide, by decide, by decide⟩ : ApeTag).Safe (fun _ => true)
      (0xff :: apeOne 1) [] :=
  (ffapetagParse_iff ⟨apeOne 1, by decide, by decide, by decide⟩ (fun _ => rfl) (by decide)
    (.inl ⟨[0xff], rfl⟩)).mpr fun _ _ => ⟨.inl (by decide), fun _ h => absurd h (by decide)⟩

/-- **A value of 2^32 - 1 bytes**: the size of the field is 9 with 32 bits, and it is returned. -/
theorem ffapetagParse_wraps :
    (⟨apeOne (2 ^ 32 - 1), by decide, by decide, by decide⟩ : ApeTag).Given
        (apeOne (2 ^ 32 - 1)) [] ∧
      ¬(⟨apeOne (2 ^ 32 - 1), by decide, by decide, by decide⟩ : ApeTag).Safe (fun _ => true)
        (apeOne (2 ^ 32 - 1)) [] := by
  have hgiven : (⟨apeOne (2 ^ 32 - 1), by decide, by decide, by decide⟩ : ApeTag).Given
      (apeOne (2 ^ 32 - 1)) [] := .inl ⟨[], rfl⟩
  refine ⟨hgiven, ?_⟩
  rintro ⟨fields, r, k, hrun, hin, -⟩
  have hno : ¬(⟨apeOne (2 ^ 32 - 1), by decide, by decide, by decide⟩ : ApeTag).Fits := by
    intro hfit
    have hone := (hfit (fun h => absurd h (by decide)) (by decide)).1
    exact absurd hone (by decide)
  obtain ⟨f, hf, hout⟩ := (ApeTag.reads (fun _ => rfl) (by decide) hgiven).badly hno k fields r
    (hrun k (Nat.le_refl k))
  exact absurd (hin f hf).2 (Nat.not_le_of_lt hout)

end FF
