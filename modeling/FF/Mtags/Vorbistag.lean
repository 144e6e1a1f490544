import FF.Lib.Fields
import FF.Mtags.Tags

/-!
# Vorbis comments

`FF/mtags/ffvorbistag.c`. A comment block is the vendor, the number of comments, and the comments,
each with its length in front of it. `ffvorbtag_add` takes the first entry for the vendor; it leaves
room behind it for the number of comments, which `ffvorbtag_fin` writes.

The room that is reserved for the vendor is that of a comment without a name, which is three bytes
less than what is needed. And the table of names is searched without its last entry.
-/

namespace FF

open List

/-! ### Names -/

/-- `ffvorbtag_str`. -/
def ffvorbtagStr : List (List UInt8) :=
  ["ALBUM", "ALBUM ARTIST", "ALBUMARTIST", "ARTIST", "COMMENT", "COMPOSER", "DATE", "DISCNUMBER",
    "GENRE", "LYRICS", "PUBLISHER", "TITLE", "TOTALTRACKS", "TRACKNUMBER", "TRACKTOTAL"].map ascii

/-- `vorb_tags`. -/
def vorbTags : List Ffmmtag :=
  [.album, .albumartist, .albumartist, .artist, .comment, .composer, .date, .discnumber, .genre,
    .lyrics, .publisher, .title, .tracktotal, .trackno, .tracktotal]

/-- `ffvorbtag_find`. -/
def ffvorbtagFind (name : List UInt8) : Option ℕ :=
  ffszarrIfindsorted ffvorbtagStr (ffvorbtagStr.length - 1) name

/-- The tag of a name. -/
def vorbKind (name : List UInt8) : Ffmmtag :=
  match ffvorbtagFind name with
  | some i => vorbTags.getD i .ukn
  | none => .ukn

/-- `ffchar_upper`. -/
def ffcharUpper (ch : UInt8) : UInt8 := ch &&& 0xdf

/-- The bytes that `ffs_upper` writes, without a limit. -/
def ffsUpper (src : List UInt8) : List UInt8 :=
  src.map fun ch => if ffcharIslow ch then ffcharUpper ch else ch

/-! ### Reading -/

/-- The states of `ffvorbtag_parse`. -/
inductive VorbSt
  | vendor
  | cmtcnt
  | cmt
  deriving DecidableEq, Repr

/-- `enum FFVORBTAG_R`. -/
inductive VorbR
  | ok
  | done
  | err
  deriving DecidableEq, Repr

/-- `ffvorbtag`. The data are the bytes from `off` on; a string is a place in the data, and the name
of the vendor is a constant. -/
structure Ffvorbtag where
  state : VorbSt
  cnt : ℕ
  tag : Ffmmtag
  name : Option (ℕ × ℕ)
  val : ℕ × ℕ
  off : ℕ
  deriving DecidableEq, Repr

/-- A new reader. -/
def Ffvorbtag.init : Ffvorbtag := ⟨.vendor, 0, .ukn, none, (0, 0), 0⟩

/-- A string with its length in front of it: the bytes behind the length, or an error. -/
def vorbStr (data : List UInt8) (off : ℕ) : Except MemStop (Option (ℕ × ℕ)) :=
  if data.length - off < 4 then .ok none
  else do
    let b ← readBytes data off 4
    if data.length - (off + 4) < leNat b then .ok none else .ok (some (off + 4, leNat b))

/-- The comment `(off, len)`: `ffs_split2by`, and the tag. -/
def vorbSplit (data : List UInt8) (v : Ffvorbtag) (off len : ℕ) : Ffvorbtag :=
  let pos := (field data off len).idxOf 0x3d
  { v with
    cnt := v.cnt - 1
    off := off + len
    name := some (off, pos)
    val := if pos = len then (0, 0) else (off + pos + 1, len - (pos + 1))
    tag := vorbKind (field data off pos) }

/-- The state `I_CMT`. -/
def vorbCmt (data : List UInt8) (v : Ffvorbtag) : Except MemStop (VorbR × Ffvorbtag) :=
  if v.cnt = 0 then .ok (.done, v)
  else do
    match ← vorbStr data v.off with
    | none => .ok (.err, v)
    | some (off, len) => .ok (.ok, vorbSplit data v off len)

/-- `ffvorbtag_parse`; the reader is not used again after an error. -/
def ffvorbtagParse (data : List UInt8) (v : Ffvorbtag) : Except MemStop (VorbR × Ffvorbtag) :=
  match v.state with
  | .vendor => do
      match ← vorbStr data v.off with
      | none => .ok (.err, v)
      | some (off, len) =>
        .ok (.ok, { v with
          name := none
          val := (off, len)
          tag := .vendor
          off := off + len
          state := .cmtcnt })
  | .cmtcnt =>
    if data.length - v.off < 4 then .ok (.err, v)
    else do
      let b ← readBytes data v.off 4
      vorbCmt data { v with off := v.off + 4, cnt := leNat b, state := .cmt }
  | .cmt => vorbCmt data v

/-- The calls of `ffvorbtag_parse` until it returns no tag: the tags, and what it returns then. -/
def vorbtagRun (data : List UInt8) : ℕ → Ffvorbtag → Except MemStop (List Ffvorbtag × VorbR)
  | 0, _ => .error .endless
  | fuel + 1, v => do
      match ← ffvorbtagParse data v with
      | (.ok, v) =>
        let (l, r) ← vorbtagRun data fuel v
        .ok (v :: l, r)
      | (r, _) => .ok ([], r)

/-! ### Writing -/

/-- The memory allocator: whether there are `n` bytes, and what is in memory that is new. -/
structure VorbAlloc where
  ok : ℕ → Bool
  fill : ℕ → UInt8

/-- `ffmem_realloc` to a larger size. -/
def VorbAlloc.realloc (alloc : VorbAlloc) (mem : List UInt8) (n : ℕ) : Option (List UInt8) :=
  if alloc.ok n then
    some (mem ++ (List.range (n - mem.length)).map fun i => alloc.fill (mem.length + i))
  else none

/-- `ffvorbtag_cook`. The array `out` has the memory `mem`, all of its capacity, and a length, which
may be larger. -/
structure FfvorbtagCook where
  mem : List UInt8
  len : ℕ
  cnt : ℕ
  vendorOff : ℕ
  nogrow : Bool

/-- `ffarr_grow` with `FFARR_GROWQUARTER`. Without bytes to preserve, the memory is a new one. -/
def vorbGrow (alloc : VorbAlloc) (mem : List UInt8) (len n : ℕ) : Option (List UInt8) :=
  if mem.length ≥ len + n then some mem
  else alloc.realloc (if len = 0 then [] else mem) (len + max ((len + n) / 4) n)

/-- The room that `ffvorbtag_add` reserves. -/
def vorbReserve (alloc : VorbAlloc) (v : FfvorbtagCook) (n : ℕ) : Option (List UInt8) :=
  if v.nogrow then (if n > sizeSub v.mem.length v.len then none else some v.mem)
  else vorbGrow alloc v.mem v.len n

/-- Write bytes into memory. -/
def memWrite (mem : List UInt8) (off : ℕ) (bytes : List UInt8) : Except MemStop (List UInt8) :=
  if off + bytes.length ≤ mem.length then .ok (setBytes mem off bytes) else .error .overwrite

/-- What `ffvorbtag_add` writes as the vendor; there is room for the number of comments behind. -/
def vorbAddVendor (v : FfvorbtagCook) (mem val : List UInt8) :
    Except MemStop (Option FfvorbtagCook) := do
  let mem ← memWrite mem v.len (leBytes 4 val.length)
  let mem ← memWrite mem (v.len + 4) val
  .ok (some { v with
    mem := mem
    vendorOff := v.len % 2 ^ 32
    len := v.len + 4 + val.length + 4
    cnt := (v.cnt + 1) % 2 ^ 32 })

/-- What `ffvorbtag_add` writes behind the length of a comment. -/
def vorbAddText (v : FfvorbtagCook) (mem up val : List UInt8) :
    Except MemStop (Option FfvorbtagCook) := do
  let mem ← memWrite mem (v.len + 4) up
  let mem ← memWrite mem (v.len + 4 + up.length) [0x3d]
  let mem ← memWrite mem (v.len + 4 + up.length + 1) val
  .ok (some { v with
    mem := mem
    len := v.len + 4 + up.length + 1 + val.length
    cnt := (v.cnt + 1) % 2 ^ 32 })

/-- What `ffvorbtag_add` writes as a comment; `ffs_upper` ends at the edge of the memory. -/
def vorbAddCmt (v : FfvorbtagCook) (mem name val : List UInt8) :
    Except MemStop (Option FfvorbtagCook) := do
  let mem ← memWrite mem v.len (leBytes 4 (name.length + 1 + val.length))
  vorbAddText v mem ((ffsUpper name).take (mem.length - (v.len + 4))) val

/-- The number of bytes for which `ffvorbtag_add` reserves room. -/
def vorbRoom (cnt : ℕ) (name val : List UInt8) : ℕ :=
  (4 + ((if cnt ≠ 0 then name.length else 0) + 1 + val.length) % 2 ^ 32) % 2 ^ 32

/-- `ffvorbtag_add`; `none` for an error. -/
def ffvorbtagAdd (alloc : VorbAlloc) (v : FfvorbtagCook) (name val : List UInt8) :
    Except MemStop (Option FfvorbtagCook) :=
  match vorbReserve alloc v (vorbRoom v.cnt name val) with
  | none => .ok none
  | some mem => if v.cnt = 0 then vorbAddVendor v mem val else vorbAddCmt v mem name val

/-- `ffvorbtag_fin`: the memory. -/
def ffvorbtagFin (v : FfvorbtagCook) : Except MemStop (List UInt8) := do
  let b ← readBytes v.mem v.vendorOff 4
  memWrite v.mem (v.vendorOff + 4 + leNat b) (leBytes 4 ((v.cnt + 2 ^ 32 - 1) % 2 ^ 32))

/-- The calls of `ffvorbtag_add`, up to the first error. -/
def vorbAdds (alloc : VorbAlloc) (v : FfvorbtagCook) :
    List (List UInt8 × List UInt8) → Except MemStop (Option FfvorbtagCook)
  | [] => .ok (some v)
  | c :: cs => do
      match ← ffvorbtagAdd alloc v c.1 c.2 with
      | none => .ok none
      | some v => vorbAdds alloc v cs

/-- All of a block: the bytes of the array, or `none` for an error of `ffvorbtag_add`. -/
def vorbWrite (alloc : VorbAlloc) (v : FfvorbtagCook) (vendor : List UInt8)
    (comments : List (List UInt8 × List UInt8)) : Except MemStop (Option (List UInt8)) := do
  match ← vorbAdds alloc v (([], vendor) :: comments) with
  | none => .ok none
  | some v =>
    let mem ← ffvorbtagFin v
    .ok (some (mem.take v.len))

/-! ### What the data hold -/

/-- A tag: its name, its value and its kind. -/
def Ffvorbtag.entry (data : List UInt8) (v : Ffvorbtag) : List UInt8 × List UInt8 × Ffmmtag :=
  (match v.name with
    | none => ascii "VENDOR"
    | some s => field data s.1 s.2, field data v.val.1 v.val.2, v.tag)

/-- The kind of a comment, of the names of all kinds. -/
def vorbTagOf (name : List UInt8) : Ffmmtag :=
  match (ffvorbtagStr.zip vorbTags).find? fun p => ffstrIeq name p.1 with
  | some p => p.2
  | none => .ukn

/-- The tags that were added. -/
def vorbEntries (vendor : List UInt8) (comments : List (List UInt8 × List UInt8)) :
    List (List UInt8 × List UInt8 × Ffmmtag) :=
  (ascii "VENDOR", vendor, .vendor) ::
    comments.map fun c => (ffsUpper c.1, c.2, vorbTagOf c.1)

/-- **The block is written and read back**: an error is returned, or the block is written within the
memory and the tags are read back from it. -/
def VorbGood (alloc : VorbAlloc) (v : FfvorbtagCook) (vendor : List UInt8)
    (comments : List (List UInt8 × List UInt8)) : Prop :=
  vorbWrite alloc v vendor comments = .ok none ∨
    ∃ out l, vorbWrite alloc v vendor comments = .ok (some out) ∧
      vorbtagRun (out.drop v.len) ((out.drop v.len).length + 2) .init = .ok (l, .done) ∧
        l.map (Ffvorbtag.entry (out.drop v.len)) = vorbEntries vendor comments

/-- What is returned **lies within the data**. -/
def Ffvorbtag.In (data : List UInt8) (v : Ffvorbtag) : Prop :=
  (∀ s, v.name = some s → s.1 + s.2 ≤ data.length) ∧ v.val.1 + v.val.2 ≤ data.length

/-! ### Arbitrary data -/

section Reading

variable {data : List UInt8} {v : Ffvorbtag}

/-- The length that is read. -/
def vorbLen (data : List UInt8) (off : ℕ) : ℕ := leNat (field data off 4)

theorem vorbStr_eq (off : ℕ) : vorbStr data off =
    .ok (if data.length - off < 4 ∨ data.length - (off + 4) < vorbLen data off then none
      else some (off + 4, vorbLen data off)) := by
  by_cases hlen : data.length - off < 4
  · rw [vorbStr, if_pos hlen, if_pos (.inl hlen)]
  have hread : readBytes data off 4 = .ok (field data off 4) := readBytes_eq (by omega)
  rw [vorbStr, if_neg hlen, hread]
  change (if data.length - (off + 4) < vorbLen data off then
    Except.ok none else .ok (some (off + 4, vorbLen data off))) = _
  by_cases hshort : data.length - (off + 4) < vorbLen data off
  · rw [if_pos hshort, if_pos (.inr hshort)]
  · rw [if_neg hshort, if_neg (by rintro (h | h) <;> contradiction)]

/-- The state `I_CMT`, without reads outside. -/
theorem vorbCmt_eq : vorbCmt data v =
    .ok (if v.cnt = 0 then (.done, v)
      else if data.length - v.off < 4 ∨ data.length - (v.off + 4) < vorbLen data v.off then
        (.err, v)
      else (.ok, vorbSplit data v (v.off + 4) (vorbLen data v.off))) := by
  by_cases hcnt : v.cnt = 0
  · rw [vorbCmt, if_pos hcnt, if_pos hcnt]
  · rw [vorbCmt, if_neg hcnt, if_neg hcnt, vorbStr_eq]
    split <;> rfl

theorem vorbSplit_in {off len : ℕ} (h : off + len ≤ data.length) :
    (vorbSplit data v off len).In data ∧ (vorbSplit data v off len).off = off + len := by
  have hfind : (field data off len).idxOf 0x3d ≤ len := by
    have hle := idxOf_le_length (a := (0x3d : UInt8)) (l := field data off len)
    rwa [length_field h] at hle
  refine ⟨⟨?_, ?_⟩, rfl⟩
  · rintro s hs
    cases hs
    omega
  · rw [vorbSplit]
    split
    · exact Nat.zero_le _
    · dsimp only
      omega

/-- What a tag that is returned is. -/
structure VorbStep (data : List UInt8) (v v' : Ffvorbtag) : Prop where
  within : v'.In data
  lt : v.off + 4 ≤ v'.off
  le : v'.off ≤ data.length

theorem vorbCmt_spec (data : List UInt8) (v : Ffvorbtag) :
    ∃ r v', vorbCmt data v = .ok (r, v') ∧ (r = .ok → VorbStep data v v') := by
  rw [vorbCmt_eq]
  by_cases hcnt : v.cnt = 0
  · rw [if_pos hcnt]
    exact ⟨_, _, rfl, by rintro ⟨⟩⟩
  rw [if_neg hcnt]
  by_cases hbad : data.length - v.off < 4 ∨ data.length - (v.off + 4) < vorbLen data v.off
  · rw [if_pos hbad]
    exact ⟨_, _, rfl, by rintro ⟨⟩⟩
  · rw [if_neg hbad]
    obtain ⟨hin, hoff⟩ := vorbSplit_in (v := v) (by omega :
      v.off + 4 + vorbLen data v.off ≤ data.length)
    exact ⟨_, _, rfl, fun _ => ⟨hin, by rw [hoff]; omega, by rw [hoff]; omega⟩⟩

/-- **One call** -/
theorem ffvorbtagParse_spec (data : List UInt8) (v : Ffvorbtag) :
    ∃ r v', ffvorbtagParse data v = .ok (r, v') ∧ (r = .ok → VorbStep data v v') := by
  rw [ffvorbtagParse]
  cases hst : v.state with
  | vendor =>
    rw [vorbStr_eq]
    by_cases hbad : data.length - v.off < 4 ∨ data.length - (v.off + 4) < vorbLen data v.off
    · rw [if_pos hbad]
      exact ⟨_, _, rfl, by rintro ⟨⟩⟩
    rw [if_neg hbad]
    refine ⟨_, _, rfl, fun _ => ⟨⟨by rintro s ⟨⟩, ?_⟩, ?_, ?_⟩⟩
    · dsimp only
      omega
    · dsimp only
      omega
    · dsimp only
      omega
  | cmtcnt =>
    by_cases hlen : data.length - v.off < 4
    · rw [if_pos hlen]
      exact ⟨_, _, rfl, by rintro ⟨⟩⟩
    have hread : readBytes data v.off 4 = .ok (field data v.off 4) := readBytes_eq (by omega)
    rw [if_neg hlen, hread]
    obtain ⟨r, v', hr, hstep⟩ := vorbCmt_spec data
      { v with off := v.off + 4, cnt := vorbLen data v.off, state := .cmt }
    refine ⟨r, v', hr, fun hok => ?_⟩
    have h := hstep hok
    exact ⟨h.within, Nat.le_trans (Nat.add_le_add_right (Nat.le_add_right _ _) _) h.lt, h.le⟩
  | cmt => exact vorbCmt_spec data v

/-- **All calls**: whatever the data are, what is returned lies within. -/
theorem vorbtagRun_spec (data : List UInt8) (fuel : ℕ) (v : Ffvorbtag)
    (hfuel : data.length - v.off < fuel) :
    ∃ l r, vorbtagRun data fuel v = .ok (l, r) ∧ ∀ u ∈ l, u.In data := by
  induction fuel generalizing v with
  | zero => omega
  | succ fuel ih =>
    obtain ⟨r, v', hr, hstep⟩ := ffvorbtagParse_spec data v
    rw [vorbtagRun, hr]
    cases r with
    | ok =>
      have h := hstep rfl
      have hlt := h.lt
      have hle := h.le
      obtain ⟨l, r, hrun, hl⟩ := ih v' (by omega)
      refine ⟨v' :: l, r, ?_, ?_⟩
      · change (vorbtagRun data fuel v' >>= fun x => Except.ok (v' :: x.1, x.2)) = _
        rw [hrun]
        rfl
      · intro u hu
        rcases mem_cons.mp hu with rfl | hu
        · exact h.within
        · exact hl u hu
    | done => exact ⟨[], .done, rfl, by simp⟩
    | err => exact ⟨[], .err, rfl, by simp⟩

end Reading

/-! ### Kinds -/

section Kinds

variable {name name' : List UInt8}

theorem vorbKind_congr (h : name.map lowerUp = name'.map lowerUp) :
    vorbKind name = vorbKind name' := by
  rw [vorbKind, vorbKind, ffvorbtagFind, ffvorbtagFind, ffszarrIfindsorted_congr h]

theorem vorbTagOf_congr (h : name.map lowerUp = name'.map lowerUp) :
    vorbTagOf name = vorbTagOf name' := by
  have hieq : ∀ s, ffstrIeq name s = ffstrIeq name' s := by
    intro s
    rw [ffstrIeq, ffstrIeq, h]
  simp only [vorbTagOf, hieq]

theorem map_lowerUp_ffsUpper (name : List UInt8) :
    (ffsUpper name).map lowerUp = name.map lowerUp := by
  have hchar : ∀ i : Fin 256, lowerUp (if ffcharIslow (UInt8.ofNat i) then
      ffcharUpper (UInt8.ofNat i) else UInt8.ofNat i) = lowerUp (UInt8.ofNat i) := by
    decide +kernel
  rw [ffsUpper, map_map]
  apply map_congr_left
  intro ch _
  have h := hchar ⟨ch.toNat, ch.toNat_lt⟩
  rwa [UInt8.ofNat_toNat] at h

theorem vorbKind_str : ∀ s ∈ ffvorbtagStr.take 14, vorbKind s = vorbTagOf s := by
  decide

theorem vorbKind_tracktotal :
    vorbKind (ascii "TRACKTOTAL") = .ukn ∧ vorbTagOf (ascii "TRACKTOTAL") = .tracktotal := by
  decide

/-- **The kind of a name** is found, unless it is the last name of the table. -/
theorem vorbKind_upper (name : List UInt8) :
    vorbKind (ffsUpper name) = vorbTagOf name ↔ ffstrIeq name (ascii "TRACKTOTAL") = false := by
  rw [vorbKind_congr (map_lowerUp_ffsUpper name)]
  have hlast : ffstrIeq name (ascii "TRACKTOTAL") = true → vorbKind name ≠ vorbTagOf name := by
    intro h
    have hmap : name.map lowerUp = (ascii "TRACKTOTAL").map lowerUp := eq_of_beq h
    rw [vorbKind_congr hmap, vorbTagOf_congr hmap, vorbKind_tracktotal.1, vorbKind_tracktotal.2]
    decide
  constructor
  · intro heq
    rw [← Bool.not_eq_true]
    intro h
    exact hlast h heq
  intro hno
  by_cases hex : ∃ s ∈ ffvorbtagStr.take 14, ffstrIeq name s = true
  · obtain ⟨s, hs, hieq⟩ := hex
    have hmap : name.map lowerUp = s.map lowerUp := eq_of_beq hieq
    rw [vorbKind_congr hmap, vorbTagOf_congr hmap]
    exact vorbKind_str s hs
  have hnone : ffvorbtagFind name = none := by
    cases hfind : ffvorbtagFind name with
    | none => rfl
    | some i =>
      obtain ⟨hi, hieq⟩ := ffszarrIfindsorted_eq hfind
      have hmem : ∀ i < 14, ffvorbtagStr.getD i [] ∈ ffvorbtagStr.take 14 := by decide
      exact absurd ⟨_, hmem i hi, hieq⟩ hex
  have hzip : (ffvorbtagStr.zip vorbTags).find? (fun p => ffstrIeq name p.1) = none := by
    rw [find?_eq_none]
    rintro ⟨s, t⟩ hp hieq
    have hs : s ∈ ffvorbtagStr.take 14 ++ [ascii "TRACKTOTAL"] := (of_mem_zip hp).1
    rcases mem_append.mp hs with hs | hs
    · exact hex ⟨s, hs, hieq⟩
    · rw [mem_singleton.mp hs, hno] at hieq
      cases hieq
  rw [vorbKind, hnone, vorbTagOf, hzip]

end Kinds

/-! ### A block that was written -/

/-- The bytes of a comment. -/
def vorbCmtBytes (c : List UInt8 × List UInt8) : List UInt8 :=
  leBytes 4 (c.1.length + 1 + c.2.length) ++ (ffsUpper c.1 ++ 0x3d :: c.2)

/-- The bytes of a block. -/
def vorbBlock (vendor : List UInt8) (comments : List (List UInt8 × List UInt8)) : List UInt8 :=
  leBytes 4 vendor.length ++ (vendor ++ (leBytes 4 comments.length ++
    (comments.map vorbCmtBytes).flatten))

/-- **A comment that is read back**: its length has 32 bits, and its name is not the last one of the
table. -/
def VorbOk (c : List UInt8 × List UInt8) : Prop :=
  c.1.length + 1 + c.2.length < 2 ^ 32 ∧ ffstrIeq c.1 (ascii "TRACKTOTAL") = false

section Written

variable {data rest : List UInt8} {v : Ffvorbtag} {c : List UInt8 × List UInt8}

theorem length_ffsUpper (s : List UInt8) : (ffsUpper s).length = s.length := length_map _

theorem length_vorbCmtBytes (c : List UInt8 × List UInt8) :
    (vorbCmtBytes c).length = 4 + (c.1.length + 1 + c.2.length) := by
  rw [vorbCmtBytes, length_append, length_leBytes, length_append, length_ffsUpper,
    length_cons, Nat.add_assoc, Nat.add_comm 1]

theorem notMem_ffsUpper {s : List UInt8} (h : 0x3d ∉ s) : 0x3d ∉ ffsUpper s := by
  have hchar : ∀ i : Fin 256, (if ffcharIslow (UInt8.ofNat i) then ffcharUpper (UInt8.ofNat i)
      else UInt8.ofNat i) = 0x3d → UInt8.ofNat i = 0x3d := by
    decide +kernel
  intro hmem
  obtain ⟨ch, hch, heq⟩ := mem_map.mp hmem
  have hback := hchar ⟨ch.toNat, ch.toNat_lt⟩
  rw [UInt8.ofNat_toNat] at hback
  exact h (hback heq ▸ hch)

theorem field_of_drop {x : List UInt8} {off : ℕ} (h : data.drop off = x ++ rest) :
    field data off x.length = x := by
  rw [field, h]
  exact take_left' rfl

theorem drop_of_drop {x : List UInt8} {off : ℕ} (h : data.drop off = x ++ rest) :
    data.drop (off + x.length) = rest := by
  rw [← drop_drop, h, drop_left]

theorem le_of_drop {x : List UInt8} {off : ℕ} (h : data.drop off = x ++ rest) :
    x.length + rest.length = data.length - off := by
  rw [← length_append, ← h, length_drop]

theorem vorbLen_of_drop {off n : ℕ} (h : data.drop off = leBytes 4 n ++ rest) :
    vorbLen data off = n % 2 ^ 32 := by
  have hfield := field_of_drop h
  rw [length_leBytes] at hfield
  rw [vorbLen, hfield, leNat_leBytes_mod]
  rfl

/-- **A comment is split** at its equals sign. -/
theorem vorbSplit_entry {off : ℕ} (hname : 0x3d ∉ c.1)
    (h : data.drop off = ffsUpper c.1 ++ 0x3d :: c.2 ++ rest) :
    (vorbSplit data v off (c.1.length + 1 + c.2.length)).entry data =
      (ffsUpper c.1, c.2, vorbKind (ffsUpper c.1)) := by
  have hlen : (ffsUpper c.1 ++ 0x3d :: c.2).length = c.1.length + 1 + c.2.length := by
    rw [length_append, length_ffsUpper, length_cons, Nat.add_assoc, Nat.add_comm 1]
  have htext : field data off (c.1.length + 1 + c.2.length) = ffsUpper c.1 ++ 0x3d :: c.2 := by
    rw [← hlen]
    exact field_of_drop h
  have hpos : (ffsUpper c.1 ++ 0x3d :: c.2).idxOf 0x3d = c.1.length := by
    rw [idxOf_append_of_notMem (notMem_ffsUpper hname), idxOf_cons_self, length_ffsUpper,
      Nat.add_zero]
  rw [append_assoc] at h
  have hup : field data off c.1.length = ffsUpper c.1 := by
    rw [← length_ffsUpper c.1]
    exact field_of_drop h
  have hval : field data (off + c.1.length + 1) c.2.length = c.2 := by
    have h1 := drop_of_drop h
    rw [length_ffsUpper, cons_append] at h1
    exact field_of_drop (drop_succ h1)
  rw [Ffvorbtag.entry, vorbSplit]
  dsimp only
  rw [htext, hpos, hup, if_neg (by omega)]
  have hsub : c.1.length + 1 + c.2.length - (c.1.length + 1) = c.2.length := by omega
  rw [hsub, hval]

theorem length_vorbSplit (data : List UInt8) (v : Ffvorbtag) (off len : ℕ) :
    ((vorbSplit data v off len).entry data).1.length +
      ((vorbSplit data v off len).entry data).2.1.length ≤ len := by
  have hfield : ∀ o l, (field data o l).length ≤ l := by
    intro o l
    exact length_take_le _ _
  have hfind := idxOf_le_length (a := (0x3d : UInt8)) (l := field data off len)
  have hlen := hfield off len
  rw [Ffvorbtag.entry, vorbSplit]
  obtain ⟨pos, hpos⟩ : ∃ pos, pos = (field data off len).idxOf 0x3d := ⟨_, rfl⟩
  rw [← hpos] at hfind ⊢
  have hname := hfield off pos
  by_cases heq : pos = len
  · rw [if_pos heq]
    have hval := hfield 0 0
    dsimp only
    omega
  · rw [if_neg heq]
    have hval := hfield (off + pos + 1) (len - (pos + 1))
    dsimp only
    omega

/-- One call in the state `I_CMT` in front of a comment. -/
theorem vorbCmt_written (hst : v.state = .cmt) (hcnt : v.cnt ≠ 0)
    (h : data.drop v.off = vorbCmtBytes c ++ rest) :
    ffvorbtagParse data v = .ok
      (.ok, vorbSplit data v (v.off + 4) ((c.1.length + 1 + c.2.length) % 2 ^ 32)) := by
  have hle := le_of_drop h
  rw [length_vorbCmtBytes] at hle
  rw [vorbCmtBytes, append_assoc] at h
  have hlen := vorbLen_of_drop h
  rw [ffvorbtagParse, hst]
  dsimp only
  rw [vorbCmt_eq, if_neg hcnt, hlen, if_neg (by omega)]

/-- **The comments are read back** if and only if each of them is. -/
theorem vorbtagRun_cmts {cs : List (List UInt8 × List UInt8)} {fuel : ℕ}
    (hnames : ∀ c ∈ cs, 0x3d ∉ c.1) (hst : v.state = .cmt) (hcnt : v.cnt = cs.length)
    (h : data.drop v.off = (cs.map vorbCmtBytes).flatten) (hfuel : cs.length < fuel) :
    (∃ l, vorbtagRun data fuel v = .ok (l, .done) ∧
        l.map (Ffvorbtag.entry data) = cs.map fun c => (ffsUpper c.1, c.2, vorbTagOf c.1)) ↔
      ∀ c ∈ cs, VorbOk c := by
  induction cs generalizing v fuel with
  | nil =>
    cases fuel with
    | zero => omega
    | succ fuel =>
      have hparse : ffvorbtagParse data v = .ok (.done, v) := by
        rw [ffvorbtagParse, hst]
        rw [vorbCmt, if_pos (hcnt.trans length_nil)]
      rw [vorbtagRun, hparse]
      exact ⟨fun _ => by simp, fun _ => ⟨[], rfl, rfl⟩⟩
  | cons c cs ih =>
    cases fuel with
    | zero => omega
    | succ fuel =>
      rw [map_cons, flatten_cons] at h
      have hparse := vorbCmt_written hst (by rw [hcnt, length_cons]; omega) h
      have hwhole := h
      rw [vorbCmtBytes, append_assoc] at h
      have htext := drop_of_drop h
      rw [length_leBytes] at htext
      obtain ⟨v', hv'⟩ : ∃ v', v' =
        vorbSplit data v (v.off + 4) ((c.1.length + 1 + c.2.length) % 2 ^ 32) := ⟨_, rfl⟩
      have hrun : vorbtagRun data (fuel + 1) v =
          vorbtagRun data fuel v' >>= fun x => .ok (v' :: x.1, x.2) := by
        rw [vorbtagRun, hparse, ← hv']
        rfl
      have hiff : (∃ l, vorbtagRun data (fuel + 1) v = .ok (l, .done) ∧
          l.map (Ffvorbtag.entry data) = (c :: cs).map fun c =>
            (ffsUpper c.1, c.2, vorbTagOf c.1)) ↔
          v'.entry data = (ffsUpper c.1, c.2, vorbTagOf c.1) ∧
            ∃ l, vorbtagRun data fuel v' = .ok (l, .done) ∧
              l.map (Ffvorbtag.entry data) = cs.map fun c =>
                (ffsUpper c.1, c.2, vorbTagOf c.1) := by
        rw [hrun]
        constructor
        · rintro ⟨l, hl, hmap⟩
          obtain ⟨⟨l', r⟩, hl', heq⟩ := bind_eq_ok.mp hl
          cases heq
          rw [map_cons, map_cons, List.cons.injEq] at hmap
          exact ⟨hmap.1, l', hl', hmap.2⟩
        · rintro ⟨he, l, hl, hmap⟩
          refine ⟨v' :: l, ?_, ?_⟩
          · rw [hl]
            rfl
          · rw [map_cons, map_cons, he, hmap]
      rw [hiff, forall_mem_cons]
      obtain ⟨hname, hnames⟩ := forall_mem_cons.mp hnames
      by_cases hlt : c.1.length + 1 + c.2.length < 2 ^ 32
      · have hoff : v'.off = v.off + (vorbCmtBytes c).length := by
          rw [hv', Nat.mod_eq_of_lt hlt, length_vorbCmtBytes, ← Nat.add_assoc]
          rfl
        have hdrop := drop_of_drop hwhole
        rw [← hoff] at hdrop
        have hentry : v'.entry data = (ffsUpper c.1, c.2, vorbKind (ffsUpper c.1)) := by
          rw [hv', Nat.mod_eq_of_lt hlt]
          exact vorbSplit_entry hname htext
        have hcnt' : v'.cnt = cs.length := by
          rw [hv']
          change v.cnt - 1 = _
          rw [hcnt, length_cons, Nat.add_sub_cancel]
        have hst' : v'.state = .cmt := by
          rw [hv']
          exact hst
        rw [ih hnames hst' hcnt' hdrop (by rw [length_cons] at hfuel; omega), hentry,
          Prod.mk.injEq, Prod.mk.injEq, vorbKind_upper, VorbOk]
        simp only [true_and, hlt]
      have hsize := length_vorbSplit data v (v.off + 4)
        ((c.1.length + 1 + c.2.length) % 2 ^ 32)
      rw [← hv'] at hsize
      constructor
      · rintro ⟨hentry, -⟩
        rw [hentry] at hsize
        dsimp only at hsize
        rw [length_ffsUpper] at hsize
        omega
      · rintro ⟨hok, -⟩
        exact absurd hok.1 hlt

theorem vorbtagRun_succ {v' : Ffvorbtag} {fuel : ℕ} (h : ffvorbtagParse data v = .ok (.ok, v'))
    {l : List Ffvorbtag} {r : VorbR} :
    vorbtagRun data (fuel + 1) v = .ok (l, r) ↔
      ∃ l', vorbtagRun data fuel v' = .ok (l', r) ∧ l = v' :: l' := by
  have hrun : vorbtagRun data (fuel + 1) v =
      vorbtagRun data fuel v' >>= fun x => .ok (v' :: x.1, x.2) := by
    rw [vorbtagRun, h]
    rfl
  rw [hrun, bind_eq_ok]
  constructor
  · rintro ⟨⟨l', r'⟩, hl', heq⟩
    cases heq
    exact ⟨l', hl', rfl⟩
  · rintro ⟨l', hl', rfl⟩
    exact ⟨_, hl', rfl⟩

theorem ffvorbtagParse_vendor {vendor : List UInt8} (hlen : vendor.length < 2 ^ 32)
    (h : data = leBytes 4 vendor.length ++ (vendor ++ rest)) :
    ffvorbtagParse data .init =
      .ok (.ok, ⟨.cmtcnt, 0, .vendor, none, (4, vendor.length), 4 + vendor.length⟩) := by
  have hdrop : data.drop 0 = leBytes 4 vendor.length ++ (vendor ++ rest) := h
  have hle := le_of_drop hdrop
  rw [length_leBytes, length_append] at hle
  have hl := vorbLen_of_drop hdrop
  rw [Nat.mod_eq_of_lt hlen] at hl
  rw [ffvorbtagParse, Ffvorbtag.init]
  dsimp only
  rw [vorbStr_eq, hl, if_neg (by omega)]
  rfl

theorem ffvorbtagParse_cmtcnt (hst : v.state = .cmtcnt) (hle : 4 ≤ data.length - v.off) :
    ffvorbtagParse data v = ffvorbtagParse data
      { v with off := v.off + 4, cnt := vorbLen data v.off, state := .cmt } := by
  have hread : readBytes data v.off 4 = .ok (field data v.off 4) := readBytes_eq (by omega)
  rw [ffvorbtagParse, hst]
  rw [if_neg (by omega), hread]
  rfl

theorem length_le_cmts (cs : List (List UInt8 × List UInt8)) :
    cs.length ≤ (cs.map vorbCmtBytes).flatten.length := by
  induction cs with
  | nil => exact Nat.zero_le _
  | cons c cs ih =>
    rw [map_cons, flatten_cons, length_append, length_cons, length_vorbCmtBytes]
    omega

/-- **A block is read back** if and only if its comments are. -/
theorem vorbtagRun_block {vendor : List UInt8} {cs : List (List UInt8 × List UInt8)}
    (hnames : ∀ c ∈ cs, 0x3d ∉ c.1) (hvendor : vendor.length < 2 ^ 32) (hcs : cs.length < 2 ^ 32)
    (h : data = vorbBlock vendor cs) :
    (∃ l, vorbtagRun data (data.length + 2) .init = .ok (l, .done) ∧
        l.map (Ffvorbtag.entry data) = vorbEntries vendor cs) ↔ ∀ c ∈ cs, VorbOk c := by
  have hfirst := ffvorbtagParse_vendor hvendor h
  obtain ⟨v₁, hv₁⟩ : ∃ v₁ : Ffvorbtag, v₁ =
    ⟨.cmtcnt, 0, .vendor, none, (4, vendor.length), 4 + vendor.length⟩ := ⟨_, rfl⟩
  rw [← hv₁] at hfirst
  have hdrop0 : data.drop 0 = leBytes 4 vendor.length ++ (vendor ++ (leBytes 4 cs.length ++
    (cs.map vorbCmtBytes).flatten)) := h
  have htext := drop_of_drop hdrop0
  rw [length_leBytes] at htext
  have hcnt : data.drop v₁.off = leBytes 4 cs.length ++ (cs.map vorbCmtBytes).flatten := by
    have hd := drop_of_drop htext
    rw [Nat.zero_add] at hd
    rw [hv₁]
    exact hd
  have hcmts := drop_of_drop hcnt
  rw [length_leBytes] at hcmts
  have hentry : v₁.entry data = (ascii "VENDOR", vendor, .vendor) := by
    have hfield := field_of_drop htext
    rw [Nat.zero_add] at hfield
    rw [hv₁, Ffvorbtag.entry]
    rw [hfield]
  have hleft : 4 ≤ data.length - v₁.off := by
    have hle := le_of_drop hcnt
    rw [length_leBytes] at hle
    omega
  have hsecond := ffvorbtagParse_cmtcnt (by rw [hv₁]) hleft
  rw [vorbLen_of_drop hcnt, Nat.mod_eq_of_lt hcs] at hsecond
  have hlong : cs.length < data.length + 1 := by
    have hle := le_of_drop hdrop0
    have hcs := length_le_cmts cs
    rw [length_append, length_append] at hle
    omega
  obtain ⟨v₂, hv₂⟩ : ∃ v₂ : Ffvorbtag, v₂ =
    { v₁ with off := v₁.off + 4, cnt := cs.length, state := .cmt } := ⟨_, rfl⟩
  have hrun : vorbtagRun data (data.length + 1) v₁ = vorbtagRun data (data.length + 1) v₂ := by
    rw [vorbtagRun, vorbtagRun, hsecond, hv₂]
  have hcmts₂ : data.drop v₂.off = (cs.map vorbCmtBytes).flatten := by
    rw [hv₂]
    exact hcmts
  rw [← vorbtagRun_cmts hnames (by rw [hv₂]) (by rw [hv₂]) hcmts₂ hlong, ← hrun]
  constructor
  · rintro ⟨l, hl, hmap⟩
    obtain ⟨l', hl', rfl⟩ := (vorbtagRun_succ hfirst).mp hl
    rw [map_cons, vorbEntries, List.cons.injEq] at hmap
    exact ⟨l', hl', hmap.2⟩
  · rintro ⟨l, hl, hmap⟩
    refine ⟨v₁ :: l, (vorbtagRun_succ hfirst).mpr ⟨l, hl, rfl⟩, ?_⟩
    rw [map_cons, hentry, hmap, vorbEntries]

theorem length_vorbtagRun {fuel : ℕ} {l : List Ffvorbtag} {r : VorbR} (hst : v.state = .cmt)
    (h : vorbtagRun data fuel v = .ok (l, r)) : l.length ≤ v.cnt := by
  induction fuel generalizing v l with
  | zero => cases h
  | succ fuel ih =>
    have hparse : ffvorbtagParse data v = vorbCmt data v := by rw [ffvorbtagParse, hst]
    rw [vorbCmt_eq] at hparse
    by_cases hcnt : v.cnt = 0
    · rw [if_pos hcnt] at hparse
      rw [vorbtagRun, hparse] at h
      cases h
      exact Nat.zero_le _
    rw [if_neg hcnt] at hparse
    split at hparse
    · rw [vorbtagRun, hparse] at h
      cases h
      exact Nat.zero_le _
    · obtain ⟨l', hl', rfl⟩ := (vorbtagRun_succ hparse).mp h
      have hle := ih (v := vorbSplit data v (v.off + 4) (vorbLen data v.off)) hst hl'
      rw [length_cons]
      change l'.length ≤ v.cnt - 1 at hle
      omega

theorem vorbLen_lt (data : List UInt8) (off : ℕ) : vorbLen data off < 2 ^ 32 := by
  have hlt := leNat_lt (field data off 4)
  have hle : (field data off 4).length ≤ 4 := length_take_le _ _
  exact Nat.lt_of_lt_of_le hlt (Nat.pow_le_pow_right (by decide) hle)

theorem length_cmtcnt_lt {fuel : ℕ} {l : List Ffvorbtag} {r : VorbR} (hst : v.state = .cmtcnt)
    (h : vorbtagRun data fuel v = .ok (l, r)) : l.length < 2 ^ 32 := by
  cases fuel with
  | zero => cases h
  | succ fuel =>
    by_cases hle : 4 ≤ data.length - v.off
    · have hparse := ffvorbtagParse_cmtcnt hst hle
      obtain ⟨v₂, hv₂⟩ : ∃ v₂ : Ffvorbtag, v₂ =
        { v with off := v.off + 4, cnt := vorbLen data v.off, state := .cmt } := ⟨_, rfl⟩
      have hrun : vorbtagRun data (fuel + 1) v = vorbtagRun data (fuel + 1) v₂ := by
        rw [vorbtagRun, vorbtagRun, hparse, hv₂]
      rw [hrun] at h
      have hcnt := length_vorbtagRun (by rw [hv₂]) h
      rw [hv₂] at hcnt
      exact Nat.lt_of_le_of_lt hcnt (vorbLen_lt data v.off)
    have hparse : ffvorbtagParse data v = .ok (.err, v) := by
      rw [ffvorbtagParse, hst]
      rw [if_pos (Nat.lt_of_not_le hle)]
    rw [vorbtagRun, hparse] at h
    cases h
    exact Nat.two_pow_pos 32

/-- **What is read has lengths of 32 bits.** -/
theorem vorbtagRun_lt {fuel : ℕ} {l : List Ffvorbtag} {r : VorbR} {vendor : List UInt8}
    {cs : List (List UInt8 × List UInt8)} (h : vorbtagRun data fuel .init = .ok (l, r))
    (hmap : l.map (Ffvorbtag.entry data) = vorbEntries vendor cs) :
    vendor.length < 2 ^ 32 ∧ cs.length < 2 ^ 32 := by
  cases fuel with
  | zero => cases h
  | succ fuel =>
    have hparse : ffvorbtagParse data .init = .ok (if data.length - 0 < 4 ∨
        data.length - (0 + 4) < vorbLen data 0 then (.err, .init)
        else (.ok, ⟨.cmtcnt, 0, .vendor, none, (0 + 4, vorbLen data 0),
          0 + 4 + vorbLen data 0⟩)) := by
      rw [ffvorbtagParse, Ffvorbtag.init]
      dsimp only
      rw [vorbStr_eq]
      split <;> rfl
    split at hparse
    · rw [vorbtagRun, hparse] at h
      cases h
      cases hmap
    obtain ⟨l', hl', rfl⟩ := (vorbtagRun_succ hparse).mp h
    rw [map_cons, vorbEntries, List.cons.injEq] at hmap
    constructor
    · have hval : field data (0 + 4) (vorbLen data 0) = vendor :=
        congrArg (fun e => e.2.1) hmap.1
      have hle : vendor.length ≤ vorbLen data 0 := by
        rw [← hval]
        exact length_take_le _ _
      exact Nat.lt_of_le_of_lt hle (vorbLen_lt data 0)
    · have hlen : l'.length = cs.length := by
        have h := congrArg List.length hmap.2
        rwa [length_map, length_map] at h
      rw [← hlen]
      exact length_cmtcnt_lt rfl hl'

end Written

end FF
