import FF.Path.Norm
import FF.Tar.Read

/-!
# Writing TAR archives

`fftar_newfile` prepares the header of a file, and `fftar_write` gives the bytes of the archive:
the header, the data as the caller passes it in, padding, and the blocks at the end.

The caller passes in the data of a file chunk by chunk, and takes what is written until the writer
wants more. Then it says that the file is done.
-/

namespace FF

namespace Tar

open List Option

open Path

/-- `TAR_ENDDATA` -/
def TAR_ENDDATA : ℕ := 3 * TAR_BLOCK

/-- `FFPATH_MERGEDOTS | FFPATH_FORCESLASH | FFPATH_TOREL` -/
def nameFlags : PathFlags := { FFPATH_MERGEDOTS with forceslash := true, torel := true }

/-- `f->mode & FFUNIX_FILE_DIR` -/
def FftarFile.isDir (f : FftarFile) : Bool := f.mode &&& FFUNIX_FILE_DIR != 0

/-- The slash behind the name of a directory that has none. -/
def addslash (f : FftarFile) : List UInt8 :=
  if f.isDir && f.name.getLast? != some SLASH then [SLASH] else []

/-- `"root"` -/
def root : List UInt8 := [0x72, 0x6f, 0x6f, 0x74]

/-- `fftar_hdr_write` -/
def fftarHdrWrite (f : FftarFile) (buf : List UInt8) : Except FftarE (List UInt8) :=
  let buf := setBytes buf 156 [if f.isDir then FFTAR_DIR else FFTAR_FILE]
  if f.name.length + (addslash f).length > 100 then .error .big
  else
    match ffpathNorm 100 f.name nameFlags with
    | .error _ | .ok [] => .error .fname
    | .ok name =>
      let buf := setBytes buf 0 (name ++ addslash f)
      let buf := setBytes buf 100 (tarWritenum (f.mode &&& 0o777) 8)
      let buf := setBytes buf 108 (tarWritenum f.uid 8)
      let buf := setBytes buf 116 (tarWritenum f.gid 8)
      let buf := setBytes buf 124 (tarWritenum f.size 12)
      let buf := setBytes buf 136 (tarWritenum f.mtime 12)
      let buf := setBytes buf 257 TAR_GNU_MAGIC
      let buf := setBytes buf 265 (f.uidStr.getD root)
      let buf := setBytes buf 297 (f.gidStr.getD root)
      let chksum := tarChecksum buf 329
      let buf := setBytes buf 148 (tarWritenum chksum 6)
      .ok (setBytes buf 154 [0])

/-! ### The writer -/

/-- The states of `fftar_write` -/
inductive WSt
  | newfile
  | hdr
  | data
  | padding
  | fdone
  | ftr
  | done
  deriving DecidableEq, Repr

/-- `fftar_cook` -/
structure FftarCook where
  state : WSt
  buf : List UInt8
  fsize : ℕ
  input : List UInt8
  fdone : Bool
  deriving DecidableEq, Repr

/-- `fftar_cook` behind `fftar_create` -/
def FftarCook.create : FftarCook := ⟨.newfile, List.replicate TAR_ENDDATA 0, 0, [], false⟩

/-- `fftar_wfinish` -/
def fftarWfinish (t : FftarCook) : FftarCook := { t with state := .ftr }

/-- `fftar_wfiledone` -/
def fftarWfiledone (t : FftarCook) : FftarCook := { t with fdone := true }

/-- `fftar_newfile`: `none` for 0. -/
def fftarNewfile (t : FftarCook) (f : FftarFile) : Option FftarE × FftarCook :=
  if t.state ≠ .newfile then (some .notready, t)
  else
    let buf := List.replicate TAR_BLOCK 0
    match fftarHdrWrite f buf with
    | .error e => (some e, { t with buf := buf })
    | .ok buf => (none, { t with buf := buf, fdone := false, state := .hdr })

/-- `case W_PADDING` -/
def casePadding (t : FftarCook) : FftarR × FftarCook :=
  let padding := if t.fsize % TAR_BLOCK ≠ 0 then TAR_BLOCK - t.fsize % TAR_BLOCK else 0
  let buf := List.replicate TAR_BLOCK 0
  (.data (buf.take padding), { t with buf := buf, state := .fdone })

/-- **`fftar_write`** -/
def fftarWrite (t : FftarCook) : FftarR × FftarCook :=
  match t.state with
  | .hdr => (.data (t.buf.take TAR_BLOCK), { t with fsize := 0, state := .data })
  | .data =>
    if t.fdone then casePadding t
    else
      let out := t.input
      let t := { t with input := [], fsize := (t.fsize + out.length) % 2 ^ 64 }
      if out.length = 0 then (.more, t) else (.data out, t)
  | .padding => casePadding t
  | .fdone => (.filedone, { t with state := .newfile })
  | .ftr =>
    let buf := List.replicate TAR_ENDDATA 0
    (.data buf, { t with buf := buf, state := .done })
  | .done => (.done, t)
  | .newfile => (.err .notready, t)

/-! ### The caller -/

/-- Take what is written, up to a code that is no data. -/
def takeOut : ℕ → FftarCook → Option (List UInt8 × FftarR × FftarCook)
  | 0, _ => none
  | n + 1, t =>
    match fftarWrite t with
    | (.data out, t) => (takeOut n t).map fun r => (out ++ r.1, r.2)
    | (r, t) => some ([], r, t)

/-- Pass in the data of a file. -/
def writeChunks : FftarCook → List (List UInt8) → Option (List UInt8 × FftarCook)
  | t, [] => some ([], t)
  | t, c :: cs =>
    match takeOut 3 { t with input := c } with
    | some (out, .more, t) => (writeChunks t cs).map fun r => (out ++ r.1, r.2)
    | _ => none

/-- Write a file. -/
def writeFile (t : FftarCook) (f : FftarFile) (cs : List (List UInt8)) :
    Option (List UInt8 × FftarCook) :=
  match fftarNewfile t f with
  | (some _, _) => none
  | (none, t) => do
      let (out, t) ← writeChunks t cs
      match takeOut 3 (fftarWfiledone t) with
      | some (out', .filedone, t) => some (out ++ out', t)
      | _ => none

/-- **Write an archive**: the files and their chunks of data. -/
def writeFiles : FftarCook → List (FftarFile × List (List UInt8)) → Option (List UInt8)
  | t, [] =>
    match takeOut 2 (fftarWfinish t) with
    | some (out, .done, _) => some out
    | _ => none
  | t, (f, cs) :: fs => do
      let (out, t) ← writeFile t f cs
      let out' ← writeFiles t fs
      some (out ++ out')

/-! ### The header of a file -/

/-- The widths of the fields of a header, as they are written. -/
def hdrWidths : List ℕ := [100, 8, 8, 8, 12, 12, 6, 2, 1, 100, 8, 32, 32, 183]

/-- The type that is written. -/
def FftarFile.stype (f : FftarFile) : UInt8 := if f.isDir then FFTAR_DIR else FFTAR_FILE

/-- The fields of the header of a file with the name `name`, and with the bytes `chk` for the
checksum. -/
def hdrFields (f : FftarFile) (name chk : List UInt8) : List (List UInt8) :=
  [padded 100 name, padded 8 (tarWritenum (f.mode &&& 0o777) 8), padded 8 (tarWritenum f.uid 8),
    padded 8 (tarWritenum f.gid 8), padded 12 (tarWritenum f.size 12),
    padded 12 (tarWritenum f.mtime 12), padded 6 chk, [0, 0], [f.stype], List.replicate 100 0,
    TAR_GNU_MAGIC, padded 32 (f.uidStr.getD root), padded 32 (f.gidStr.getD root),
    List.replicate 183 0]

/-- A file that a caller describes: strings end at their first zero byte and numbers have the size
of their type. The names of owners fit their fields, and a directory has no data. -/
structure Storable (f : FftarFile) : Prop where
  name : ∀ c ∈ f.name, c ≠ 0
  uid : f.uid < 2 ^ 32
  gid : f.gid < 2 ^ 32
  size : f.size < 2 ^ 64
  mtime : f.mtime < 2 ^ 64
  uidStr : ∀ s, f.uidStr = some s → s.length < 32 ∧ ∀ c ∈ s, c ≠ 0
  gidStr : ∀ s, f.gidStr = some s → s.length < 32 ∧ ∀ c ∈ s, c ≠ 0
  dir : f.isDir = true → f.size = 0

/-- The name that is stored: normalized, and with a slash behind that of a directory. -/
def storedName (f : FftarFile) : List UInt8 :=
  match ffpathNorm 100 f.name nameFlags with
  | .error _ => []
  | .ok name => name ++ addslash f

/-- The file as it is stored: its permissions without the other bits of the mode, and owners. -/
def stored (f : FftarFile) : FftarFile :=
  { name := storedName f
    linkTo := none
    mode := f.mode &&& 0o777 ||| (if f.isDir then FFUNIX_FILE_DIR else 0)
    uid := f.uid
    gid := f.gid
    type := f.stype
    size := f.size
    mtime := f.mtime
    uidStr := some (f.uidStr.getD root)
    gidStr := some (f.gidStr.getD root) }

/-- The file is accepted by `fftar_newfile`. -/
def Accepted (f : FftarFile) : Prop := ∃ b, fftarHdrWrite f (List.replicate TAR_BLOCK 0) = .ok b

theorem cstr_padded {w : ℕ} {s : List UInt8} (hs : ∀ c ∈ s, c ≠ 0) (hw : s.length < w)
    (l : List UInt8) : cstr (padded w s ++ l) = s := by
  obtain ⟨k, hk⟩ : ∃ k, w - s.length = k + 1 := ⟨w - s.length - 1, by omega⟩
  rw [padded, hk, replicate_succ, append_assoc, cons_append, cstr_append_zero, cstr,
    takeWhile_eq_self_iff.mpr fun c hc => decide_eq_true (hs c hc)]

theorem cstr_padded_le {s : List UInt8} (hs : ∀ c ∈ s, c ≠ 0) (w : ℕ) :
    cstr (padded w s) = s := by
  rcases Nat.lt_or_ge s.length w with hlt | hge
  · have h := cstr_padded hs hlt []
    rwa [append_nil] at h
  · rw [padded, Nat.sub_eq_zero_of_le hge, replicate_zero, append_nil, cstr,
      takeWhile_eq_self_iff.mpr fun c hc => decide_eq_true (hs c hc)]

theorem sum_toNat_le (l : List UInt8) : (l.map UInt8.toNat).sum ≤ 255 * l.length := by
  induction l with
  | nil => exact le_rfl
  | cons c l ih =>
    have hc := c.toNat_lt
    rw [map_cons, sum_cons, length_cons]
    omega

theorem Accepted.name {f : FftarFile} (h : Accepted f) (hf : Storable f) :
    (∃ name, ffpathNorm 100 f.name nameFlags = .ok name ∧ name ≠ [] ∧
      storedName f = name ++ addslash f) ∧ (storedName f).length ≤ 100 ∧
      (∀ c ∈ storedName f, c ≠ 0) ∧ f.name.length + (addslash f).length ≤ 100 := by
  obtain ⟨b, hb⟩ := h
  unfold fftarHdrWrite at hb
  dsimp only at hb
  split at hb
  · cases hb
  next hlen =>
    split at hb
    · cases hb
    · cases hb
    next name hne hname =>
      have hstored : storedName f = name ++ addslash f := by rw [storedName, hname]
      have hle := length_ffpathNorm hname
      refine ⟨⟨name, hname, hne, hstored⟩, ?_, ?_, by omega⟩
      · rw [hstored, length_append]
        omega
      intro c hc
      rw [hstored] at hc
      rcases mem_append.mp hc with hc | hc
      · refine ffpathNorm_forall (fun c _ => ?_) (by decide) hf.name hname c hc
        exact (by decide : SLASH ≠ 0)
      · unfold addslash at hc
        split at hc
        · rw [mem_singleton.mp hc]
          decide
        · cases hc

theorem owner_ok {o : Option (List UInt8)} (h : ∀ s, o = some s → s.length < 32 ∧ ∀ c ∈ s, c ≠ 0) :
    (o.getD root).length < 32 ∧ ∀ c ∈ o.getD root, c ≠ 0 := by
  cases o with
  | none => decide +kernel
  | some s => exact h s rfl

/-- What is written into the header in front of the checksum: the fields and their contents. -/
def hdrWrites (f : FftarFile) (name : List UInt8) : List (ℕ × List UInt8) :=
  [(8, [f.stype]), (0, name), (1, tarWritenum (f.mode &&& 0o777) 8), (2, tarWritenum f.uid 8),
    (3, tarWritenum f.gid 8), (4, tarWritenum f.size 12), (5, tarWritenum f.mtime 12),
    (10, TAR_GNU_MAGIC), (11, f.uidStr.getD root), (12, f.gidStr.getD root)]

theorem hdrWrites_block {f : FftarFile} (hf : Storable f) {name : List UInt8}
    (hlen : name.length ≤ 100) :
    Block hdrWidths ((hdrWrites f name).foldl
        (fun b p => setBytes b (hdrWidths.take p.1).sum p.2) (List.replicate TAR_BLOCK 0))
      (hdrFields f name []) := by
  obtain ⟨huid, -⟩ := owner_ok hf.uidStr
  obtain ⟨hgid, -⟩ := owner_ok hf.gidStr
  have hmode : f.mode &&& 0o777 < 2 ^ 32 := Nat.lt_of_le_of_lt Nat.and_le_right (by decide)
  have hfit : ∀ p ∈ hdrWrites f name, p.1 < hdrWidths.length ∧ p.2.length ≤ hdrWidths.getD p.1 0 := by
    have h8 : ∀ {n}, n < 2 ^ 32 → (tarWritenum n 8).length ≤ 8 :=
      fun h => length_tarWritenum (.inl ⟨rfl, h⟩)
    have h12 : ∀ {n}, n < 2 ^ 64 → (tarWritenum n 12).length ≤ 12 :=
      fun h => length_tarWritenum (.inr (.inl ⟨rfl, h⟩))
    simp only [hdrWrites, forall_mem_cons]
    exact ⟨⟨by decide, le_rfl⟩, ⟨by decide, hlen⟩, ⟨by decide, h8 hmode⟩, ⟨by decide, h8 hf.uid⟩,
      ⟨by decide, h8 hf.gid⟩, ⟨by decide, h12 hf.size⟩, ⟨by decide, h12 hf.mtime⟩,
      ⟨by decide, le_rfl⟩, ⟨by decide, Nat.le_of_lt huid⟩, ⟨by decide, Nat.le_of_lt hgid⟩,
      fun _ h => by cases h⟩
  have hfields : (hdrWrites f name).foldl
      (fun fs p => fs.set p.1 (p.2 ++ (fs.getD p.1 []).drop p.2.length))
      (hdrWidths.map fun w => List.replicate w 0) = hdrFields f name [] := by
    have hmagic : padded 8 TAR_GNU_MAGIC = TAR_GNU_MAGIC := rfl
    simp only [hdrWrites, hdrWidths, map_cons, map_nil, foldl_cons, foldl_nil, set_cons_zero,
      set_cons_succ, getD_cons_zero, getD_cons_succ, append_drop_replicate, hmagic]
    rfl
  have h := (Block.empty hdrWidths).writes hfit
  rw [hfields] at h
  exact h

theorem tarChecksum_lt (b : List UInt8) : tarChecksum b 329 < 8 ^ 6 := by
  have hlow := sum_toNat_le (field b 0 148)
  have hhigh := sum_toNat_le (field b 156 (329 - 156))
  have hlow' : (field b 0 148).length ≤ 148 := length_take_le _ _
  have hhigh' : (field b 156 (329 - 156)).length ≤ 173 := length_take_le _ _
  rw [tarChecksum]
  omega

/-- The checksum does not depend on its own field, and not on empty bytes behind the fields. -/
theorem tarChecksum_eq {b buf : List UInt8} (htake : b.take 148 = buf.take 148)
    (hdrop : b.drop 156 = buf.drop 156) (hzero : b.drop 329 = List.replicate 183 0) :
    tarChecksum b TAR_BLOCK = tarChecksum buf 329 := by
  have hsplit : field b 156 (TAR_BLOCK - 156) = field buf 156 173 ++ List.replicate 183 0 := by
    have hcut := take_append_drop 173 (b.drop 156)
    rw [drop_drop, hzero] at hcut
    have hle : (b.drop 156).length ≤ TAR_BLOCK - 156 := by
      rw [← hcut, length_append, length_replicate, TAR_BLOCK]
      have := length_take_le 173 (b.drop 156)
      omega
    rw [field, take_of_length_le hle, ← hcut, field, hdrop]
  have hsum : ∀ n, ((List.replicate n (0 : UInt8)).map UInt8.toNat).sum = 0 := by
    intro n
    induction n with
    | zero => rfl
    | succ n ih =>
      rw [replicate_succ, map_cons, sum_cons, ih]
      rfl
  rw [tarChecksum, tarChecksum, hsplit, map_append, sum_append, hsum]
  simp only [field, drop_zero, htake, Nat.add_zero]

/-- **The header of a file is a block with the fields of the file**, and with its checksum. -/
theorem hdr_block {f : FftarFile} (h : Accepted f) (hf : Storable f) :
    ∃ b chk, fftarHdrWrite f (List.replicate TAR_BLOCK 0) = .ok b ∧ chk < 8 ^ 6 ∧
      Block hdrWidths b (hdrFields f (storedName f) (tarWritenum chk 6)) ∧
      tarChecksum b TAR_BLOCK = chk := by
  obtain ⟨⟨name, hname, hne, hstored⟩, hlen, -, hfit⟩ := h.name hf
  have hbuf := hdrWrites_block hf hlen
  obtain ⟨buf, heq⟩ : ∃ buf, buf = (hdrWrites f (storedName f)).foldl
    (fun b p => setBytes b (hdrWidths.take p.1).sum p.2) (List.replicate TAR_BLOCK 0) := ⟨_, rfl⟩
  rw [← heq] at hbuf
  have hchk := tarChecksum_lt buf
  have hsix : (tarWritenum (tarChecksum buf 329) 6).length ≤ 6 :=
    length_tarWritenum (.inr (.inr ⟨rfl, hchk⟩))
  have hdone : Block hdrWidths
      (setBytes (setBytes buf 148 (tarWritenum (tarChecksum buf 329) 6)) 154 [0])
      (hdrFields f (storedName f) (tarWritenum (tarChecksum buf 329) 6)) := by
    have h1 : Block hdrWidths (setBytes buf 148 (tarWritenum (tarChecksum buf 329) 6)) _ :=
      hbuf.setBytes 6 (by decide) rfl hsix
    have h2 : Block hdrWidths
        (setBytes (setBytes buf 148 (tarWritenum (tarChecksum buf 329) 6)) 154 [0]) _ :=
      h1.setBytes 7 (by decide) rfl (by decide)
    have hempty : padded 6 [] = List.replicate 6 0 := rfl
    simp only [hdrFields, set_cons_zero, set_cons_succ, getD_cons_zero,
      getD_cons_succ, hempty, append_drop_replicate] at h2
    exact h2
  refine ⟨_, tarChecksum buf 329, ?_, hchk, hdone, tarChecksum_eq ?_ ?_ ?_⟩
  · unfold fftarHdrWrite
    obtain ⟨c, cs, rfl⟩ := exists_cons_of_ne_nil hne
    rw [if_neg (by omega), hname, heq, hstored]
    rfl
  · exact (hdone.take 6 rfl).trans (hbuf.take 6 rfl).symm
  · exact (hdone.drop 8 (by decide) rfl).trans (hbuf.drop 8 (by decide) rfl).symm
  · exact (hdone.drop 13 (by decide) rfl).trans (append_nil _)

theorem storedName_ne_nil {f : FftarFile} (h : Accepted f) (hf : Storable f) : storedName f ≠ [] := by
  obtain ⟨⟨name, -, hne, hstored⟩, -⟩ := h.name hf
  rw [hstored]
  exact append_ne_nil_of_left_ne_nil hne _

/-- **The header of a file is read back.** -/
theorem hdr_read {f : FftarFile} (h : Accepted f) (hf : Storable f) {b : List UInt8} {chk : ℕ}
    (hchk : chk < 8 ^ 6) (hb : Block hdrWidths b (hdrFields f (storedName f) (tarWritenum chk 6)))
    (hsum : tarChecksum b TAR_BLOCK = chk) (un : Unset) :
    b.length = TAR_BLOCK ∧ b.getD 0 0 ≠ 0 ∧ hdrNameSize un b ≤ 100 + 1 ∧
      fftarHdrParse un none b = .ok (stored f) := by
  obtain ⟨-, hlen, hnz, -⟩ := h.name hf
  obtain ⟨huid, huidz⟩ := owner_ok hf.uidStr
  obtain ⟨hgid, hgidz⟩ := owner_ok hf.gidStr
  have hmode : f.mode &&& 0o777 < 2 ^ 32 := Nat.lt_of_le_of_lt Nat.and_le_right (by decide)
  have hsix : (tarWritenum chk 6).length ≤ 6 := length_tarWritenum (.inr (.inr ⟨rfl, hchk⟩))
  have fname : field b 0 100 = padded 100 (storedName f) := hb.field 0 (by decide) rfl rfl
  have fmode : field b 100 8 = padded 8 (tarWritenum (f.mode &&& 0o777) 8) :=
    hb.field 1 (by decide) rfl rfl
  have fuid : field b 108 8 = padded 8 (tarWritenum f.uid 8) := hb.field 2 (by decide) rfl rfl
  have fgid : field b 116 8 = padded 8 (tarWritenum f.gid 8) := hb.field 3 (by decide) rfl rfl
  have fsize : field b 124 12 = padded 12 (tarWritenum f.size 12) := hb.field 4 (by decide) rfl rfl
  have fmtime : field b 136 12 = padded 12 (tarWritenum f.mtime 12) := hb.field 5 (by decide) rfl rfl
  have fmagic : field b 257 8 = TAR_GNU_MAGIC := hb.field 10 (by decide) rfl rfl
  have ftype : b.getD 156 0 = f.stype := hb.getD 8 (by decide) rfl (by decide)
  have fchk : field b 148 8 = padded 8 (tarWritenum chk 6) := by
    have hdrop : b.drop 148 = padded 6 (tarWritenum chk 6) ++ _ := hb.drop 6 (by decide) rfl
    have hpad : padded 6 (tarWritenum chk 6) ++ [0, 0] = padded 8 (tarWritenum chk 6) :=
      padded_append (k := 2) hsix
    rw [field, hdrop]
    simp only [hdrFields, drop_succ_cons, drop_zero, flatten_cons]
    rw [← append_assoc, hpad]
    exact take_left' (length_padded (Nat.le_trans hsix (by decide)))
  have funame : cstr (b.drop 265) = f.uidStr.getD root := by
    have hdrop : b.drop 265 = padded 32 (f.uidStr.getD root) ++ _ := hb.drop 11 (by decide) rfl
    rw [hdrop, cstr_padded huidz huid]
  have fgname : cstr (b.drop 297) = f.gidStr.getD root := by
    have hdrop : b.drop 297 = padded 32 (f.gidStr.getD root) ++ _ := hb.drop 12 (by decide) rfl
    rw [hdrop, cstr_padded hgidz hgid]
  have hplain : hasPrefix b = false := by
    rw [hasPrefix, fmagic]
    rfl
  have hname : hdrName b = storedName f := by
    rw [hdrName, hplain, fname, cstr_padded_le hnz]
    rfl
  have hlink : ¬(f.stype = FFTAR_SLINK ∨ f.stype = FFTAR_HLINK) := by
    unfold FftarFile.stype
    split <;> decide
  have hdir : (f.stype = FFTAR_DIR) = (f.isDir = true) := by
    unfold FftarFile.stype
    cases f.isDir <;> decide
  have hmagic : (TAR_GNU_MAGIC == TAR_GNU_MAGIC) = true := by decide
  have hparse : fftarHdrParse un none b = .ok (stored f) := by
    simp only [fftarHdrParse, ftype, fmode, fuid, fgid, fsize, fmtime, fchk, fmagic, funame, fgname,
      hname, hlink, hdir, hsum, tarNum_writenum hmode, tarNum_writenum hf.uid, tarNum_writenum hf.gid,
      tarNum64_writenum hf.size, tarNum64_writenum hf.mtime, tarNum_checksum hchk, false_and,
      if_false, ne_eq, not_true_eq_false, hmagic, Bool.true_or, if_true, getD_none,
      Nat.and_assoc, Nat.and_self, stored]
  refine ⟨hb.length_eq, ?_, ?_, hparse⟩
  · have hfirst : b.getD 0 0 = (padded 100 (storedName f)).getD 0 0 :=
      hb.getD 0 (by decide) rfl (by decide)
    obtain ⟨c, cs, hcons⟩ := exists_cons_of_ne_nil (storedName_ne_nil h hf)
    rw [hfirst, hcons]
    exact hnz c (by rw [hcons]; exact mem_cons_self)
  · rw [hdrNameSize, hparse]
    simp only [hname]
    omega

/-! ### What is written -/

/-- The length of the padding behind `n` bytes of data. -/
def padLen (n : ℕ) : ℕ := if n % TAR_BLOCK ≠ 0 then TAR_BLOCK - n % TAR_BLOCK else 0

/-- The header block of a file. -/
def hdrOf (f : FftarFile) : List UInt8 :=
  match fftarHdrWrite f (List.replicate TAR_BLOCK 0) with
  | .error _ => []
  | .ok b => b

/-- The bytes of a file: its header, its data, and padding. -/
def fileBytes (p : FftarFile × List (List UInt8)) : List UInt8 :=
  hdrOf p.1 ++ (p.2.flatten ++ List.replicate (padLen p.2.flatten.length) 0)

/-- The bytes of an archive -/
def archiveBytes (fs : List (FftarFile × List (List UInt8))) : List UInt8 :=
  fs.flatMap fileBytes ++ List.replicate TAR_ENDDATA 0

/-- The writer is ready for data: `pre` is what it will write in front of it, and `n` the number of
bytes that it has got. -/
structure Ready (t : FftarCook) (pre : List UInt8) (n : ℕ) : Prop where
  open_ : t.fdone = false
  state : t.state = .hdr ∧ pre = t.buf.take TAR_BLOCK ∧ n = 0 ∨
    t.state = .data ∧ pre = [] ∧ n = t.fsize

theorem takeOut_data {n : ℕ} {t t' : FftarCook} {out : List UInt8}
    (h : fftarWrite t = (.data out, t')) :
    takeOut (n + 1) t = (takeOut n t').map fun r => (out ++ r.1, r.2) := by
  rw [takeOut, h]

theorem takeOut_chunk {t : FftarCook} {pre : List UInt8} {n k : ℕ} (h : Ready t pre n)
    (hn : n < 2 ^ 64) (c : List UInt8) :
    ∃ t', takeOut (k + 3) { t with input := c } = some (pre ++ c, .more, t') ∧
      Ready t' [] ((n + c.length) % 2 ^ 64) := by
  have hdata : ∀ {k} {t : FftarCook}, t.state = .data → t.fdone = false → t.fsize < 2 ^ 64 →
      c = t.input → ∃ t', takeOut (k + 2) t = some (c, .more, t') ∧
        Ready t' [] ((t.fsize + c.length) % 2 ^ 64) := by
    rintro k ⟨-, buf, fsize, input, -⟩ rfl rfl hsize hin
    obtain rfl : c = input := hin
    by_cases hc : c.length = 0
    · obtain rfl := length_eq_zero_iff.mp hc
      exact ⟨_, rfl, rfl, .inr ⟨rfl, rfl, rfl⟩⟩
    refine ⟨⟨.data, buf, (fsize + c.length) % 2 ^ 64, [], false⟩, ?_, rfl, .inr ⟨rfl, rfl, rfl⟩⟩
    have hfirst : fftarWrite ⟨.data, buf, fsize, c, false⟩ =
        (.data c, ⟨.data, buf, (fsize + c.length) % 2 ^ 64, [], false⟩) := by
      simp [fftarWrite, hc]
    rw [takeOut_data hfirst]
    simp [takeOut, fftarWrite]
  obtain ⟨hopen, ⟨hst, rfl, rfl⟩ | ⟨hst, rfl, rfl⟩⟩ := h
  · have hfirst : fftarWrite { t with input := c } =
        (.data (t.buf.take TAR_BLOCK), { t with input := c, fsize := 0, state := .data }) := by
      simp [fftarWrite, hst]
    obtain ⟨t', ht', hready⟩ :=
      @hdata k { t with input := c, fsize := 0, state := .data } rfl hopen (Nat.two_pow_pos 64)
        rfl
    refine ⟨t', ?_, hready⟩
    rw [takeOut_data hfirst, ht']
    rfl
  · exact hdata hst hopen hn rfl

theorem takeOut_done {t : FftarCook} {pre : List UInt8} {n : ℕ} (h : Ready t pre n) :
    ∃ t', takeOut 3 (fftarWfiledone t) =
      some (pre ++ List.replicate (padLen n) 0, .filedone, t') ∧ t'.state = .newfile := by
  have hpad : ∀ {k} {t : FftarCook}, t.state = .data → t.fdone = true →
      ∃ t', takeOut (k + 2) t = some (List.replicate (padLen t.fsize) 0, .filedone, t') ∧
        t'.state = .newfile := by
    rintro k ⟨-, buf, fsize, input, -⟩ rfl rfl
    have hle : padLen fsize ≤ TAR_BLOCK := by
      rw [padLen]
      split <;> omega
    have hfirst : fftarWrite ⟨.data, buf, fsize, input, true⟩ =
        (.data (List.replicate (padLen fsize) 0),
          ⟨.fdone, List.replicate TAR_BLOCK 0, fsize, input, true⟩) := by
      simp only [fftarWrite, casePadding, if_true, take_replicate]
      rw [← padLen, Nat.min_eq_left hle]
    refine ⟨⟨.newfile, List.replicate TAR_BLOCK 0, fsize, input, true⟩, ?_, rfl⟩
    rw [takeOut_data hfirst]
    simp [takeOut, fftarWrite]
  obtain ⟨hopen, ⟨hst, rfl, rfl⟩ | ⟨hst, rfl, rfl⟩⟩ := h
  · have hfirst : fftarWrite (fftarWfiledone t) =
        (.data (t.buf.take TAR_BLOCK), { fftarWfiledone t with fsize := 0, state := .data }) := by
      simp [fftarWrite, fftarWfiledone, hst]
    obtain ⟨t', ht', hstate⟩ := @hpad 0 { fftarWfiledone t with fsize := 0, state := .data } rfl rfl
    refine ⟨t', ?_, hstate⟩
    rw [takeOut_data hfirst, ht']
    rfl
  · obtain ⟨t', ht', hstate⟩ := @hpad 1 (fftarWfiledone t) hst rfl
    exact ⟨t', ht', hstate⟩

theorem writeChunks_eq {cs : List (List UInt8)} {t : FftarCook} {pre : List UInt8} {n : ℕ}
    (h : Ready t pre n) (hn : n < 2 ^ 64) :
    ∃ out t', writeChunks t cs = some (out, t') ∧ ∃ rest, Ready t' rest ((n + cs.flatten.length) % 2 ^ 64) ∧
      out ++ rest = pre ++ cs.flatten := by
  induction cs generalizing t pre n with
  | nil =>
    refine ⟨[], t, rfl, pre, ?_, by simp⟩
    rwa [flatten_nil, length_nil, Nat.add_zero, Nat.mod_eq_of_lt hn]
  | cons c cs ih =>
    obtain ⟨t₁, h₁, hready⟩ := takeOut_chunk (k := 0) h hn c
    obtain ⟨out, t', ht', rest, hrest, hout⟩ := ih hready (Nat.mod_lt _ (by decide))
    refine ⟨pre ++ c ++ out, t', ?_, rest, ?_, ?_⟩
    · rw [writeChunks, h₁]
      simp only [ht', map_some]
    · rwa [Nat.mod_add_mod, Nat.add_assoc, ← length_append, ← flatten_cons] at hrest
    · rw [append_assoc, hout, nil_append, flatten_cons, append_assoc]

/-- **What is written for a file** -/
theorem writeFile_eq {t : FftarCook} {f : FftarFile} {cs : List (List UInt8)} {b : List UInt8}
    (ht : t.state = .newfile) (hb : fftarHdrWrite f (List.replicate TAR_BLOCK 0) = .ok b)
    (hlen : b.length = TAR_BLOCK) (hsize : cs.flatten.length < 2 ^ 64) :
    ∃ t', writeFile t f cs = some (fileBytes (f, cs), t') ∧ t'.state = .newfile := by
  have hnew : fftarNewfile t f = (none, { t with buf := b, fdone := false, state := .hdr }) := by
    simp [fftarNewfile, ht, hb]
  have hready : Ready { t with buf := b, fdone := false, state := .hdr } b 0 :=
    ⟨rfl, .inl ⟨rfl, by rw [take_of_length_le (Nat.le_of_eq hlen)], rfl⟩⟩
  obtain ⟨out, t₁, h₁, rest, hrest, hout⟩ := @writeChunks_eq cs _ _ _ hready (by decide)
  rw [Nat.zero_add, Nat.mod_eq_of_lt hsize] at hrest
  obtain ⟨t', ht', hstate⟩ := takeOut_done hrest
  refine ⟨t', ?_, hstate⟩
  rw [writeFile, hnew]
  simp only [h₁, ht', bind_eq_bind, bind_some]
  rw [← append_assoc, hout, fileBytes, hdrOf, hb, append_assoc]

/-- **What is written for a list of files** -/
theorem writeFiles_eq {fs : List (FftarFile × List (List UInt8))} {t : FftarCook}
    (ht : t.state = .newfile)
    (hfs : ∀ p ∈ fs, Accepted p.1 ∧ Storable p.1 ∧ p.2.flatten.length = p.1.size) :
    writeFiles t fs = some (archiveBytes fs) := by
  induction fs generalizing t with
  | nil =>
    have hfirst : fftarWrite (fftarWfinish t) = (.data (List.replicate TAR_ENDDATA 0),
        { t with buf := List.replicate TAR_ENDDATA 0, state := .done }) := rfl
    rw [writeFiles, takeOut_data hfirst]
    simp [takeOut, fftarWrite, archiveBytes]
  | cons p fs ih =>
    obtain ⟨⟨hacc, hst, hsize⟩, hfs⟩ := forall_mem_cons.mp hfs
    obtain ⟨b, chk, hb, -, hblock, -⟩ := hdr_block hacc hst
    obtain ⟨t', ht', hstate⟩ := @writeFile_eq t p.1 p.2 b ht hb hblock.length_eq
      (by rw [hsize]; exact hst.size)
    have hrest := ih hstate hfs
    rw [writeFiles, ht']
    simp only [hrest, bind_eq_bind, bind_some]
    rw [archiveBytes, archiveBytes, flatMap_cons, append_assoc]

end Tar

end FF
