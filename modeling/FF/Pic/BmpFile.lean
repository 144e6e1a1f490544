import FF.Pic.Bmp

/-!
# Images in BMP files

A file that the writer assembles holds the headers and, in each slot, a line of the image with its
padding (`BmpHolds`). A slot that is written leaves the others alone; so at the end the lines are
all there, whatever order they came in. The reader then finds them, one slot after another.
-/

namespace FF

open List

/-! ### The image -/

/-- The size of the headers. -/
def FfpicInfo.hdrsize (info : FfpicInfo) : ℕ :=
  if info.format = FFPIC_ABGR then BMP_HDR + BMP_HDR4 else BMP_HDR

/-- The size of a line without padding. -/
def FfpicInfo.lineO (info : FfpicInfo) : ℕ := info.width * ffpicBits info.format / 8

/-- The size of a line. -/
def FfpicInfo.lineSize (info : FfpicInfo) : ℕ := bmpAlign info.lineO

/-- The place of a line, counted from the top. -/
def FfpicInfo.slot (info : FfpicInfo) (i : ℕ) : ℕ :=
  info.hdrsize + (info.height - 1 - i) * info.lineSize

/-- **An image that can be stored**: one of the two formats, and sizes of 32 bits. -/
structure FfpicInfo.Valid (info : FfpicInfo) : Prop where
  format : info.format = FFPIC_BGR ∨ info.format = FFPIC_ABGR
  width : 1 ≤ info.width
  height : 1 ≤ info.height
  bits : info.width * ffpicBits info.format < 2 ^ 32
  size : info.hdrsize + info.height * info.lineSize < 2 ^ 32

/-- The lines of an image, from the top. -/
structure BmpImage (info : FfpicInfo) (lines : List (List UInt8)) : Prop where
  length : lines.length = info.height
  size : ∀ l ∈ lines, l.length = info.lineO

/-- A line with its padding. -/
def FfpicInfo.padLine (info : FfpicInfo) (l : List UInt8) : List UInt8 :=
  l ++ List.replicate (info.lineSize - info.lineO) 0

section Image

variable {info : FfpicInfo} {lines : List (List UInt8)} {i j : ℕ}

theorem bmpAlign_spec (n : ℕ) : n ≤ bmpAlign n ∧ bmpAlign n ≤ n + 3 := by
  rw [bmpAlign]
  omega

theorem FfpicInfo.Valid.lineO_pos (h : info.Valid) : 0 < info.lineO := by
  have hw := h.width
  rw [lineO]
  rcases h.format with hf | hf
  · have hb : ffpicBits info.format = 24 := by rw [hf]; rfl
    rw [hb]
    omega
  · have hb : ffpicBits info.format = 32 := by rw [hf]; rfl
    rw [hb]
    omega

theorem FfpicInfo.Valid.lineO_le (_ : info.Valid) : info.lineO ≤ info.lineSize :=
  (bmpAlign_spec info.lineO).1

theorem FfpicInfo.Valid.linesize (h : info.Valid) :
    bmpLinesize info.width (ffpicBits info.format) = info.lineO := by
  rw [bmpLinesize, Nat.mod_eq_of_lt h.bits, FfpicInfo.lineO]

theorem FfpicInfo.slot_lt (info : FfpicInfo) (hi : i < info.height) :
    info.slot i + info.lineSize ≤ info.hdrsize + info.height * info.lineSize := by
  have hmul : (info.height - 1 - i + 1) * info.lineSize ≤ info.height * info.lineSize :=
    Nat.mul_le_mul_right _ (by omega)
  rw [Nat.succ_mul] at hmul
  rw [slot]
  omega

/-- **Slots do not overlap.** -/
theorem FfpicInfo.slot_disjoint (hi : i < info.height) (hj : j < info.height) (hne : i ≠ j) :
    info.slot i + info.lineSize ≤ info.slot j ∨ info.slot j + info.lineSize ≤ info.slot i := by
  rw [slot, slot]
  rcases Nat.lt_or_gt_of_ne hne with hlt | hlt
  · right
    have hmul : (info.height - 1 - j + 1) * info.lineSize ≤
        (info.height - 1 - i) * info.lineSize := Nat.mul_le_mul_right _ (by omega)
    rw [Nat.succ_mul] at hmul
    omega
  · left
    have hmul : (info.height - 1 - i + 1) * info.lineSize ≤
        (info.height - 1 - j) * info.lineSize := Nat.mul_le_mul_right _ (by omega)
    rw [Nat.succ_mul] at hmul
    omega

/-- **The place that is sought** is the slot. -/
theorem FfpicInfo.Valid.seekoff (h : info.Valid) (hi : i < info.height) :
    bmpSeekoff info.hdrsize info.height i info.lineSize = info.slot i := by
  have hsize := h.size
  have hslot := info.slot_lt hi
  have hpos := Nat.lt_of_lt_of_le h.lineO_pos h.lineO_le
  have hheight : info.height < 2 ^ 32 := by
    have hmul : info.height * 1 ≤ info.height * info.lineSize := Nat.mul_le_mul_left _ hpos
    omega
  have hsub : (info.height + 2 ^ 33 - i - 1) % 2 ^ 32 = info.height - 1 - i := by omega
  rw [bmpSeekoff, hsub]
  exact Nat.mod_eq_of_lt (by rw [slot] at hslot; omega)

theorem FfpicInfo.Valid.width_lt (h : info.Valid) : info.width < 2 ^ 32 := by
  have hbits := h.bits
  have hw : info.width * 1 ≤ info.width * ffpicBits info.format := by
    apply Nat.mul_le_mul_left
    rcases h.format with hf | hf <;> rw [hf] <;> decide
  omega

theorem FfpicInfo.Valid.height_lt (h : info.Valid) : info.height < 2 ^ 32 := by
  have hsize := h.size
  have hpos := Nat.lt_of_lt_of_le h.lineO_pos h.lineO_le
  have hmul : info.height * 1 ≤ info.height * info.lineSize := Nat.mul_le_mul_left _ hpos
  omega

theorem FfpicInfo.Valid.length_padLine (h : info.Valid) {l : List UInt8}
    (hl : l.length = info.lineO) : (info.padLine l).length = info.lineSize := by
  have hle := h.lineO_le
  rw [padLine, length_append, length_replicate, hl]
  omega

end Image

/-! ### The file -/

/-- **The file holds** the headers, and the lines of which `P` says that they are there. -/
structure BmpHolds (info : FfpicInfo) (lines : List (List UInt8)) (P : ℕ → Prop)
    (file : List UInt8) : Prop where
  hdr : field file 0 info.hdrsize = bmpHdrWrite info info.lineSize
  line : ∀ i < info.height, P i →
    field file (info.slot i) info.lineSize = info.padLine (lines.getD i [])

section File

variable {info : FfpicInfo} {lines : List (List UInt8)} {P Q : ℕ → Prop} {file bytes : List UInt8}
  {i pos : ℕ}

theorem field_fileWrite_self (file : List UInt8) (pos : ℕ) (bytes : List UInt8) :
    field (fileWrite file pos bytes) pos bytes.length = bytes := by
  rw [fileWrite]
  apply field_setBytes_self
  rw [length_append, length_replicate]
  omega

theorem field_fileWrite_of_le {o l : ℕ} (hol : o + l ≤ pos) (hfile : o + l ≤ file.length) :
    field (fileWrite file pos bytes) o l = field file o l := by
  rw [fileWrite, field_setBytes_of_le hol, field_append hfile]
  rw [length_append, length_replicate]
  omega

theorem field_fileWrite_of_ge {o l : ℕ} (hol : pos + bytes.length ≤ o)
    (hfile : o + l ≤ file.length) : field (fileWrite file pos bytes) o l = field file o l := by
  rw [fileWrite, field_setBytes_of_ge hol, field_append hfile]
  rw [length_append, length_replicate]
  omega

theorem le_length_of_field {o l : ℕ} (h : l ≤ (field file o l).length) (hl : 0 < l) :
    o + l ≤ file.length := by
  rw [field, length_take, length_drop] at h
  omega

theorem fileWrite_fileWrite (file : List UInt8) (pos : ℕ) (x y : List UInt8) :
    fileWrite (fileWrite file pos x) (pos + x.length) y = fileWrite file pos (x ++ y) := by
  have hpos : pos ≤ (file ++ List.replicate (pos - file.length) 0).length := by
    rw [length_append, length_replicate]
    omega
  have hlen : pos + x.length ≤ (fileWrite file pos x).length := by
    rw [fileWrite, setBytes, length_append, length_append, length_take]
    omega
  rw [fileWrite, Nat.sub_eq_zero_of_le hlen, replicate_zero, append_nil, fileWrite,
    setBytes_setBytes x y hpos, fileWrite]

theorem FfpicInfo.Valid.length_hdr (hv : info.Valid) (linesize : ℕ) :
    (bmpHdrWrite info linesize).length = info.hdrsize := by
  rw [FfpicInfo.hdrsize]
  rcases hv.format with hf | hf
  · rw [if_neg (by rw [hf]; decide)]
    exact (bmpHdrWrite_bgr hf linesize hv.width_lt hv.height_lt).length
  · obtain ⟨h, heq, hh⟩ := bmpHdrWrite_abgr hf linesize hv.width_lt hv.height_lt
    rw [if_pos hf, heq, length_append, hh.length, bmpHdr4_eq]
    rfl

theorem BmpImage.length_getD (himg : BmpImage info lines) (hi : i < info.height) :
    (lines.getD i []).length = info.lineO := by
  have hlen : i < lines.length := by rwa [himg.length]
  rw [getD_eq_getElem lines [] hlen]
  exact himg.size _ (getElem_mem hlen)

theorem BmpHolds.hdr_le (hv : info.Valid) (h : BmpHolds info lines P file) :
    info.hdrsize ≤ file.length := by
  have hle : info.hdrsize ≤ (field file 0 info.hdrsize).length := by
    rw [h.hdr, hv.length_hdr]
  have hpos : 0 < info.hdrsize := by
    rw [FfpicInfo.hdrsize]
    split <;> decide
  have h0 := le_length_of_field hle hpos
  rwa [Nat.zero_add] at h0

theorem BmpHolds.slot_le (hv : info.Valid) (himg : BmpImage info lines)
    (h : BmpHolds info lines P file) (hi : i < info.height) (hP : P i) :
    info.slot i + info.lineSize ≤ file.length := by
  have hle : info.lineSize ≤ (field file (info.slot i) info.lineSize).length := by
    rw [h.line i hi hP, hv.length_padLine (himg.length_getD hi)]
  exact le_length_of_field hle (Nat.lt_of_lt_of_le hv.lineO_pos hv.lineO_le)

/-- **A line is written into its slot.** -/
theorem BmpHolds.write (hv : info.Valid) (himg : BmpImage info lines) (hi : i < info.height)
    (h : BmpHolds info lines P file) (hQ : ∀ j, Q j → j = i ∨ P j) :
    BmpHolds info lines Q
      (fileWrite file (info.slot i) (info.padLine (lines.getD i []))) where
  hdr := by
    have hhdr := h.hdr_le hv
    rw [field_fileWrite_of_le _ _, h.hdr]
    · rw [FfpicInfo.slot]
      omega
    · omega
  line := by
    intro j hj hQj
    have hlen := hv.length_padLine (himg.length_getD hi)
    by_cases heq : j = i
    · have hself := field_fileWrite_self file (info.slot i) (info.padLine (lines.getD i []))
      rw [heq]
      rwa [hlen] at hself
    · have hP : P j := (hQ j hQj).resolve_left heq
      have hle := h.slot_le hv himg hj hP
      rcases info.slot_disjoint hj hi heq with hbefore | hbehind
      · rw [field_fileWrite_of_le hbefore hle, h.line j hj hP]
      · rw [field_fileWrite_of_ge (by rw [hlen]; exact hbehind) hle, h.line j hj hP]

end File

/-! ### Writing an image -/

/-- The lines in the order in which the writer is given them. -/
def bmpOrder (reverse : Bool) (lines : List (List UInt8)) : List (List UInt8) :=
  if reverse then lines.reverse else lines

/-- The line that is given as the `k`th one, counted from the top. -/
def bmpIdx (reverse : Bool) (height k : ℕ) : ℕ := if reverse then height - 1 - k else k

/-- A writer in front of the `k`th line: `g` are the lines of its input, and `groups` those that it
has not been given yet. -/
def bmpW (info : FfpicInfo) (reverse : Bool) (st : BmpW) (k : ℕ) (data : List UInt8) (seekoff : ℕ)
    (g : List (List UInt8)) (file : List UInt8) (pos : ℕ) (groups : List (List (List UInt8))) :
    BmpOut :=
  ⟨⟨st, info.lineSize, info.lineO, info.hdrsize, data, g.flatten, k, seekoff, info, reverse⟩, file,
    pos, groups.map List.flatten⟩

section Writer

variable {alloc : ℕ → Bool} {info : FfpicInfo} {reverse : Bool} {lines g : List (List UInt8)}
  {groups : List (List (List UInt8))} {data file : List UInt8} {k pos seekoff : ℕ}
  {es : List (Except BmpE (List UInt8))}

theorem bmpIdx_lt (reverse : Bool) (hk : k < info.height) : bmpIdx reverse info.height k < info.height := by
  rw [bmpIdx]
  split <;> omega

/-- The `k`th line that is given. -/
theorem bmpOrder_drop (himg : BmpImage info lines) (hk : k < info.height) :
    (bmpOrder reverse lines).drop k =
      lines.getD (bmpIdx reverse info.height k) [] :: (bmpOrder reverse lines).drop (k + 1) := by
  have hlen : (bmpOrder reverse lines).length = info.height := by
    rw [bmpOrder]
    split
    · rw [length_reverse, himg.length]
    · exact himg.length
  have hk' : k < (bmpOrder reverse lines).length := by rwa [hlen]
  have hidx : bmpIdx reverse info.height k < lines.length := by
    rw [himg.length]
    exact bmpIdx_lt reverse hk
  rw [drop_eq_getElem_cons hk', getD_eq_getElem _ _ hidx]
  congr 1
  cases reverse with
  | false => rfl
  | true =>
    simp only [bmpOrder, bmpIdx, if_true, getElem_reverse, himg.length]

theorem bmpW_seek (hv : info.Valid) (hk : k < info.height)
    (hpos : reverse = true → pos = info.slot (bmpIdx reverse info.height k)) :
    ∃ seekoff', bmpWriteMove alloc (bmpW info reverse .seek k data seekoff g file pos groups) =
      ([], some (bmpW info reverse .data k data seekoff' g file
        (info.slot (bmpIdx reverse info.height k)) groups)) := by
  cases reverse with
  | true =>
    rw [hpos rfl]
    exact ⟨seekoff, rfl⟩
  | false =>
    refine ⟨bmpSeekoff info.hdrsize info.height k info.lineSize, ?_⟩
    have hseek := hv.seekoff hk
    rw [bmpIdx, if_neg (by decide), ← hseek]
    rfl

theorem bmpW_more (hv : info.Valid) (hg : g = [])
    {l : List (List UInt8)} (hmove : RunEnds (bmpWriteMove alloc)
      (bmpW info reverse .data k data seekoff l file pos groups) es) :
    RunEnds (bmpWriteMove alloc)
      (bmpW info reverse .data k data seekoff g file pos (l :: groups)) es := by
  subst hg
  refine RunEnds.silent ?_ hmove
  have hpos := hv.lineO_pos
  have hstep : bmpWriteStep alloc
      (bmpW info reverse .data k data seekoff [] file pos (l :: groups)).b =
      (some .more, (bmpW info reverse .data k data seekoff [] file pos (l :: groups)).b) := by
    change (if 0 < info.lineO then _ else _) = _
    rw [if_pos hpos]
    rfl
  rw [bmpWriteMove, hstep]
  rfl

theorem bmpW_input (hv : info.Valid) {l : List UInt8} {rest : List (List UInt8)}
    (horder : g ++ groups.flatten = l :: rest)
    (hrun : ∀ g' groups', g' ++ groups'.flatten = rest →
      RunEnds (bmpWriteMove alloc)
        (bmpW info reverse .data k data seekoff (l :: g') file pos groups') es) :
    RunEnds (bmpWriteMove alloc)
      (bmpW info reverse .data k data seekoff g file pos groups) es := by
  induction groups generalizing g with
  | nil =>
    rw [flatten_nil, append_nil] at horder
    rw [horder]
    exact hrun rest [] (by rw [flatten_nil, append_nil])
  | cons l' groups ih =>
    cases g with
    | nil =>
      rw [nil_append, flatten_cons] at horder
      exact bmpW_more hv rfl (ih horder)
    | cons a g =>
      rw [cons_append, List.cons.injEq] at horder
      rw [horder.1]
      exact hrun g (l' :: groups) horder.2

/-- **A line and its padding** are written. -/
theorem bmpW_line (hv : info.Valid) {l : List UInt8} (hl : l.length = info.lineO)
    (hrun : ∀ data', RunEnds (bmpWriteMove alloc)
      (bmpW info reverse .more k data' seekoff g (fileWrite file pos (info.padLine l))
        (pos + info.lineSize) groups) es) :
    RunEnds (bmpWriteMove alloc)
      (bmpW info reverse .data k data seekoff (l :: g) file pos groups) es := by
  have hdata : bmpWriteMove alloc
      (bmpW info reverse .data k data seekoff (l :: g) file pos groups) =
      ([], some (bmpW info reverse .pad k l seekoff g (fileWrite file pos l)
        (pos + info.lineO) groups)) := by
    have htake : (l ++ g.flatten).take info.lineO = l := take_left' hl
    have hdrop : (l ++ g.flatten).drop info.lineO = g.flatten := drop_left' hl
    have hlong : ¬(l ++ g.flatten).length < info.lineO := by
      rw [length_append, hl]
      omega
    have hstep : bmpWriteStep alloc
        (bmpW info reverse .data k data seekoff (l :: g) file pos groups).b =
        (some .data, (bmpW info reverse .pad k l seekoff g file pos groups).b) := by
      change (if (l ++ g.flatten).length < info.lineO then _ else
        (some BmpR.data, (⟨.pad, info.lineSize, info.lineO, info.hdrsize,
          (l ++ g.flatten).take info.lineO, (l ++ g.flatten).drop info.lineO, k, seekoff, info,
          reverse⟩ : FfbmpCook))) = _
      rw [if_neg hlong, htake, hdrop]
      rfl
    rw [bmpWriteMove, hstep, ← hl]
    rfl
  refine RunEnds.silent hdata ?_
  by_cases heq : info.lineSize = info.lineO
  · have hpad : bmpWriteMove alloc
        (bmpW info reverse .pad k l seekoff g (fileWrite file pos l) (pos + info.lineO) groups) =
        ([], some (bmpW info reverse .more k l seekoff g (fileWrite file pos l)
          (pos + info.lineO) groups)) := by
      have hstep : bmpWriteStep alloc (bmpW info reverse .pad k l seekoff g
          (fileWrite file pos l) (pos + info.lineO) groups).b =
          (none, (bmpW info reverse .more k l seekoff g (fileWrite file pos l)
            (pos + info.lineO) groups).b) := by
        change (if info.lineSize = info.lineO then _ else _) = _
        rw [if_pos heq]
        rfl
      rw [bmpWriteMove, hstep]
      rfl
    refine RunEnds.silent hpad ?_
    have h := hrun l
    rwa [FfpicInfo.padLine, heq, Nat.sub_self, replicate_zero, append_nil] at h
  obtain ⟨pad, hpaddef⟩ : ∃ pad, pad = List.replicate (info.lineSize - info.lineO) (0 : UInt8) :=
    ⟨_, rfl⟩
  have hpadlen : info.lineO + pad.length = info.lineSize := by
    rw [hpaddef, length_replicate, Nat.add_sub_cancel' hv.lineO_le]
  have hpad : bmpWriteMove alloc
      (bmpW info reverse .pad k l seekoff g (fileWrite file pos l) (pos + info.lineO) groups) =
      ([], some (bmpW info reverse .more k pad seekoff g
        (fileWrite (fileWrite file pos l) (pos + info.lineO) pad)
        (pos + info.lineO + pad.length) groups)) := by
    have hstep : bmpWriteStep alloc (bmpW info reverse .pad k l seekoff g
        (fileWrite file pos l) (pos + info.lineO) groups).b =
        (some .data, (bmpW info reverse .more k pad seekoff g (fileWrite file pos l)
          (pos + info.lineO) groups).b) := by
      change (if info.lineSize = info.lineO then _ else _) = _
      rw [if_neg heq, hpaddef]
      rfl
    rw [bmpWriteMove, hstep]
    rfl
  refine RunEnds.silent hpad ?_
  have h := hrun pad
  have hwrite := fileWrite_fileWrite file pos l pad
  rw [hl] at hwrite
  rwa [FfpicInfo.padLine, ← hpaddef, ← hwrite, ← hpadlen, ← Nat.add_assoc] at h

/-- The lines that have been given when the `k`th one is. -/
def bmpGiven (reverse : Bool) (height k i : ℕ) : Prop :=
  ∃ j < k, bmpIdx reverse height j = i

/-- **One line**: it is written into its slot. -/
theorem bmpW_iter (hv : info.Valid) (himg : BmpImage info lines) (hk : k < info.height)
    (hpos : reverse = true → pos = info.slot (bmpIdx reverse info.height k))
    (horder : g ++ groups.flatten = (bmpOrder reverse lines).drop k)
    (hrun : ∀ data' seekoff' g' groups', g' ++ groups'.flatten =
      (bmpOrder reverse lines).drop (k + 1) → RunEnds (bmpWriteMove alloc)
        (bmpW info reverse .more k data' seekoff' g'
          (fileWrite file (info.slot (bmpIdx reverse info.height k))
            (info.padLine (lines.getD (bmpIdx reverse info.height k) [])))
          (info.slot (bmpIdx reverse info.height k) + info.lineSize) groups') es) :
    RunEnds (bmpWriteMove alloc)
      (bmpW info reverse .seek k data seekoff g file pos groups) es := by
  obtain ⟨seekoff', hseek⟩ := bmpW_seek hv hk hpos
  rw [bmpOrder_drop himg hk] at horder
  refine RunEnds.silent hseek (bmpW_input hv horder ?_)
  intro g' groups' hrest
  refine bmpW_line hv (himg.length_getD (bmpIdx_lt reverse hk)) ?_
  intro data'
  exact hrun data' seekoff' g' groups' hrest

theorem bmpGiven_succ {i : ℕ} (h : bmpGiven reverse info.height (k + 1) i) :
    i = bmpIdx reverse info.height k ∨ bmpGiven reverse info.height k i := by
  obtain ⟨j, hj, rfl⟩ := h
  rcases Nat.lt_succ_iff_lt_or_eq.mp hj with hlt | rfl
  · exact .inr ⟨j, hlt, rfl⟩
  · exact .inl rfl

/-- The file with the `k`th line. -/
def bmpPut (info : FfpicInfo) (lines : List (List UInt8)) (reverse : Bool) (k : ℕ)
    (file : List UInt8) : List UInt8 :=
  fileWrite file (info.slot (bmpIdx reverse info.height k))
    (info.padLine (lines.getD (bmpIdx reverse info.height k) []))

/-- The file with `n` lines from the `k`th one on. -/
def bmpPuts (info : FfpicInfo) (lines : List (List UInt8)) (reverse : Bool) :
    ℕ → ℕ → List UInt8 → List UInt8
  | 0, _, file => file
  | n + 1, k, file => bmpPuts info lines reverse n (k + 1) (bmpPut info lines reverse k file)

/-- **The lines are there** when all of them have been written. -/
theorem bmpPuts_holds (hv : info.Valid) (himg : BmpImage info lines) {n : ℕ}
    (hk : k + n = info.height) (h : BmpHolds info lines (bmpGiven reverse info.height k) file) :
    BmpHolds info lines (bmpGiven reverse info.height info.height)
      (bmpPuts info lines reverse n k file) := by
  induction n generalizing k file with
  | zero =>
    rw [Nat.add_zero] at hk
    exact hk ▸ h
  | succ n ih =>
    have hlt : k < info.height := by omega
    refine ih (by omega) ?_
    exact h.write hv himg (bmpIdx_lt reverse hlt) (fun _ => bmpGiven_succ)

theorem bmpW_done (hk : (k + 1) % 2 ^ 32 = info.height) :
    RunEnds (bmpWriteMove alloc)
      (bmpW info reverse .more k data seekoff g file pos groups) [.ok file] := by
  have hstep : bmpWriteStep alloc (bmpW info reverse .more k data seekoff g file pos groups).b =
      (some .done,
        (bmpW info reverse .more ((k + 1) % 2 ^ 32) data seekoff g file pos groups).b) := by
    change (if (k + 1) % 2 ^ 32 = info.height then _ else _) = _
    rw [if_pos hk]
    rfl
  apply RunEnds.last
  rw [bmpWriteMove, hstep]
  rfl

theorem bmpW_next (hk : (k + 1) % 2 ^ 32 = k + 1) (hne : k + 1 ≠ info.height)
    (hrun : RunEnds (bmpWriteMove alloc)
      (bmpW info reverse .seek (k + 1) data seekoff g file pos groups) es) :
    RunEnds (bmpWriteMove alloc)
      (bmpW info reverse .more k data seekoff g file pos groups) es := by
  have hstep : bmpWriteStep alloc (bmpW info reverse .more k data seekoff g file pos groups).b =
      (none, (bmpW info reverse .seek (k + 1) data seekoff g file pos groups).b) := by
    change (if (k + 1) % 2 ^ 32 = info.height then _ else
      (none, (bmpW info reverse .seek ((k + 1) % 2 ^ 32) data seekoff g file pos groups).b)) = _
    rw [hk, if_neg hne]
  refine RunEnds.silent ?_ hrun
  rw [bmpWriteMove, hstep]
  rfl

/-- **The writer ends** when all lines have been written. -/
theorem bmpW_run (hv : info.Valid) (himg : BmpImage info lines) {n : ℕ}
    (hk : k + n + 1 = info.height)
    (hpos : reverse = true → pos = info.slot (bmpIdx reverse info.height k))
    (horder : g ++ groups.flatten = (bmpOrder reverse lines).drop k) :
    RunEnds (bmpWriteMove alloc) (bmpW info reverse .seek k data seekoff g file pos groups)
      [.ok (bmpPuts info lines reverse (n + 1) k file)] := by
  have hheight := hv.height_lt
  induction n generalizing k data seekoff g file pos groups with
  | zero =>
    have hlt : k < info.height := by omega
    refine bmpW_iter hv himg hlt hpos horder ?_
    intro data' seekoff' g' groups' _
    exact bmpW_done (by rw [Nat.mod_eq_of_lt (by omega)]; omega)
  | succ n ih =>
    have hlt : k < info.height := by omega
    refine bmpW_iter hv himg hlt hpos horder ?_
    intro data' seekoff' g' groups' hrest
    refine bmpW_next (Nat.mod_eq_of_lt (by omega)) (by omega) ?_
    refine ih (by omega) ?_ hrest
    rintro rfl
    have hthis : info.height - 1 - (info.height - 1 - k) = k := by omega
    have hthat : info.height - 1 - (info.height - 1 - (k + 1)) = k + 1 := by omega
    rw [bmpIdx, bmpIdx, if_pos rfl, if_pos rfl, FfpicInfo.slot, FfpicInfo.slot, hthis, hthat,
      Nat.succ_mul, Nat.add_assoc]

/-- **The file of the writer** holds the image. -/
theorem bmpWrite_holds (halloc : ∀ n, alloc n = true) (hv : info.Valid)
    (himg : BmpImage info lines) (hgroups : groups.flatten = bmpOrder reverse lines) :
    ∃ b file, ffbmpCreate info reverse = .ok b ∧
      RunEnds (bmpWriteMove alloc) ⟨b, [], 0, groups.map List.flatten⟩ [.ok file] ∧
      BmpHolds info lines (fun _ => True) file := by
  obtain ⟨hdr, hhdr⟩ : ∃ hdr, hdr = bmpHdrWrite info info.lineSize := ⟨_, rfl⟩
  have hlen : hdr.length = info.hdrsize := by rw [hhdr, hv.length_hdr]
  have hcreate : ffbmpCreate info reverse =
      .ok ⟨.hdr, 0, 0, 0, [], [], 0, 0, info, reverse⟩ := if_pos hv.format
  have hstep : bmpWriteStep alloc ⟨.hdr, 0, 0, 0, [], [], 0, 0, info, reverse⟩ =
      (some .data, (bmpW info reverse .seek 0 hdr 0 [] hdr info.hdrsize groups).b) := by
    change (if alloc (BMP_HDR + BMP_HDR4) = true then _ else _) = _
    rw [if_pos (halloc _), hv.linesize, ← FfpicInfo.lineSize, ← hhdr, hlen]
    rfl
  have hwrite : fileWrite [] 0 hdr = hdr := by
    rw [fileWrite, setBytes]
    simp
  have hmove : bmpWriteMove alloc
      ⟨⟨.hdr, 0, 0, 0, [], [], 0, 0, info, reverse⟩, [], 0, groups.map List.flatten⟩ =
      ([], some (bmpW info reverse .seek 0 hdr 0 [] hdr info.hdrsize groups)) := by
    rw [bmpWriteMove, hstep]
    change ([], some (BmpOut.mk _ (fileWrite [] 0 hdr) (0 + hdr.length) _)) = _
    rw [hwrite, hlen, Nat.zero_add]
    rfl
  have hempty : BmpHolds info lines (bmpGiven reverse info.height 0) hdr := by
    constructor
    · rw [field, drop_zero, take_of_length_le (by rw [hlen]), hhdr]
    · rintro i _ ⟨j, hj, -⟩
      exact absurd hj (Nat.not_lt_zero j)
  have hheight := hv.height
  have hall := bmpPuts_holds hv himg (Nat.zero_add info.height) hempty
  have hpos : reverse = true → info.hdrsize = info.slot (bmpIdx reverse info.height 0) := by
    rintro rfl
    rw [bmpIdx, if_pos rfl, FfpicInfo.slot, Nat.sub_zero, Nat.sub_self, Nat.zero_mul, Nat.add_zero]
  have hrun : RunEnds (bmpWriteMove alloc) (bmpW info reverse .seek 0 hdr 0 [] hdr info.hdrsize groups)
      [.ok (bmpPuts info lines reverse (info.height - 1 + 1) 0 hdr)] :=
    bmpW_run hv himg (by omega) hpos hgroups
  rw [Nat.sub_add_cancel hheight] at hrun
  refine ⟨_, bmpPuts info lines reverse info.height 0 hdr, hcreate, RunEnds.silent hmove hrun,
    hall.hdr, ?_⟩
  · intro i hi _
    refine hall.line i hi ⟨bmpIdx reverse info.height i, bmpIdx_lt reverse hi, ?_⟩
    rw [bmpIdx, bmpIdx]
    cases reverse with
    | false => rfl
    | true =>
      rw [if_pos rfl, if_pos rfl]
      omega

end Writer

/-! ### Reading an image -/

/-- The bytes `d` lie at `o` in the file. -/
def LieAt (file : List UInt8) (o : ℕ) (d : List UInt8) : Prop := field file o d.length = d

section Reader

variable {alloc : ℕ → Bool} {file d x y : List UInt8} {sizes : ℕ → ℕ} {info : FfpicInfo}
  {lines : List (List UInt8)} {o k pos reads : ℕ} {b : Ffbmp} {es : List BmpEvent}

theorem LieAt.nil (file : List UInt8) (o : ℕ) : LieAt file o [] := by
  rw [LieAt, field, length_nil, take_zero]

theorem lieAt_field (file : List UInt8) (o n : ℕ) : LieAt file o (field file o n) := by
  rw [LieAt, field, field, length_take, ← take_eq_take_min]

theorem LieAt.append (hx : LieAt file o x) (hy : LieAt file (o + x.length) y) :
    LieAt file o (x ++ y) := by
  rw [LieAt, length_append, field_add, hx, hy]

theorem LieAt.take (h : LieAt file o d) {n : ℕ} (hn : n ≤ d.length) :
    d.take n = field file o n := by
  conv_lhs => rw [← h]
  rw [field, take_take, Nat.min_eq_left hn, field]

theorem LieAt.drop (h : LieAt file o d) (n : ℕ) : LieAt file (o + n) (d.drop n) :=
  calc field file (o + n) (d.drop n).length
      = (field file o d.length).drop n := by
        rw [field, field, length_drop, drop_take, drop_drop]
    _ = d.drop n := congrArg (List.drop n) h

/-- **Gathering**: the bytes at the place `o`, whatever pieces they come in. -/
theorem bmpR_gather (halloc : ∀ n, alloc n = true) {n : ℕ} (hn : o + n ≤ file.length)
    (hst : b.state = .gather) (hsize : b.gatherSize = n)
    (hrun : ∀ inbuf d pos reads, inbuf.Has [] → LieAt file (o + n) d → pos = o + n + d.length →
      RunEnds (bmpReadMove alloc file sizes) ⟨{ b with
        gathered := field file o n
        data := d
        inbuf := inbuf
        state := b.nxstate }, pos, reads⟩ es) (m : ℕ) :
    ∀ (inbuf : Ffarr) (g d : List UInt8) (pos reads : ℕ), inbuf.Has g → g.length < n →
      LieAt file o g → LieAt file (o + g.length) d → pos = o + g.length + d.length →
      2 * (n - g.length) + (if d = [] then 1 else 0) ≤ m →
      RunEnds (bmpReadMove alloc file sizes) ⟨{ b with inbuf := inbuf, data := d }, pos, reads⟩
        es := by
  induction m with
  | zero =>
    intro inbuf g d pos reads _ hg _ _ _ hm
    omega
  | succ m ih =>
    intro inbuf g d pos reads hhas hg hlg hld hpos hm
    obtain ⟨inbuf', hspec⟩ := @ffarrAppendUntil_spec inbuf g alloc halloc hhas d n hg
    by_cases hfew : g.length + d.length < n
    · rw [if_pos hfew] at hspec
      obtain ⟨happ, hhas'⟩ := hspec
      have hstep : bmpReadStep alloc { b with inbuf := inbuf, data := d } =
          (some .more, { b with inbuf := inbuf', data := d }) := by
        simp only [bmpReadStep, hst, hsize, happ]
      have hroom : pos < file.length := by omega
      obtain ⟨d', hd'⟩ : ∃ d', d' = field file pos (sizes reads + 1) := ⟨_, rfl⟩
      have hne : d' ≠ [] := by
        intro hnil
        have hlen := congrArg List.length (hd'.symm.trans hnil)
        rw [field, length_take, length_drop, length_nil] at hlen
        omega
      have hmove : bmpReadMove alloc file sizes ⟨{ b with inbuf := inbuf, data := d }, pos, reads⟩ =
          ([], some ⟨{ b with inbuf := inbuf', data := d' }, pos + d'.length, reads + 1⟩) := by
        rw [bmpReadMove, hstep]
        simp only [if_pos hroom, BmpIn.read, ← hd']
      have hgd : (g ++ d).length = g.length + d.length := length_append
      refine RunEnds.silent hmove (ih inbuf' (g ++ d) d' _ _ hhas' (by omega)
        (hlg.append hld) ?_ (by omega) ?_)
      · rw [hgd, ← Nat.add_assoc, ← hpos, hd']
        exact lieAt_field file pos _
      rw [if_neg hne, hgd]
      by_cases hd : d = []
      · rw [if_pos hd] at hm
        omega
      · have hlong := length_pos_iff.mpr hd
        omega
    rw [if_neg hfew] at hspec
    obtain ⟨happ, hhas'⟩ := hspec
    have hstep : bmpReadStep alloc { b with inbuf := inbuf, data := d } =
        (none, { b with
          gathered := inbuf'.bytes
          data := d.drop (n - g.length)
          inbuf := inbuf'.setLen 0
          state := b.nxstate }) := by
      simp only [bmpReadStep, hst, hsize, happ]
    have hall : inbuf'.bytes = field file o n := by
      have hfront : field file o g.length = g := hlg
      have hadd := field_add file o g.length (n - g.length)
      rw [Nat.add_sub_cancel' (by omega), hfront] at hadd
      rw [hhas'.1, hld.take (by omega), hadd]
    have hmove : bmpReadMove alloc file sizes ⟨{ b with inbuf := inbuf, data := d }, pos, reads⟩ =
        ([], some ⟨{ b with
          gathered := field file o n
          data := d.drop (n - g.length)
          inbuf := inbuf'.setLen 0
          state := b.nxstate }, pos, reads⟩) := by
      rw [bmpReadMove, hstep, hall]
    refine RunEnds.silent hmove (hrun _ _ _ _ (hhas'.setLen (Nat.zero_le _)) ?_ ?_)
    · have hdrop := hld.drop (n - g.length)
      rwa [Nat.add_assoc, Nat.add_sub_cancel' (by omega)] at hdrop
    · rw [length_drop]
      omega

/-- **A reader in front of a line** of the image, or behind the last one. -/
structure Ffbmp.At (info : FfpicInfo) (k : ℕ) (b : Ffbmp) : Prop where
  state : b.state = if k = info.height then .done else .seek
  line : b.line = k
  dataoff : b.dataoff = info.hdrsize
  linesize : b.linesize = info.lineSize
  linesizeO : b.linesizeO = info.lineO
  info_eq : b.info = info
  inbuf : b.inbuf.Has []

theorem lieAt_read (file : List UInt8) (o n : ℕ) :
    LieAt file (o + ([] : List UInt8).length) (field file o n) :=
  lieAt_field file o n

/-- **A line is read** from its slot. -/
theorem bmpR_line (halloc : ∀ n, alloc n = true) (hv : info.Valid) (himg : BmpImage info lines)
    (h : BmpHolds info lines (fun _ => True) file) (hk : k < info.height) (hb : b.At info k)
    (hrun : ∀ b' pos reads, b'.At info (k + 1) →
      RunEnds (bmpReadMove alloc file sizes) ⟨b', pos, reads⟩ es) :
    RunEnds (bmpReadMove alloc file sizes) ⟨b, pos, reads⟩ (.line (lines.getD k []) :: es) := by
  obtain ⟨b₁, hb₁⟩ : ∃ b₁, b₁ = Ffbmp.gather { b with seekoff := info.slot k } .data info.lineSize :=
    ⟨_, rfl⟩
  have hstep : bmpReadStep alloc b = (some .seek, b₁) := by
    have hst := hb.state
    rw [if_neg (Nat.ne_of_lt hk)] at hst
    simp only [bmpReadStep, hst, hb₁]
    rw [hb.dataoff, hb.info_eq, hb.line, hb.linesize, hv.seekoff hk]
  obtain ⟨d, hd⟩ : ∃ d, d = field file (info.slot k) (sizes reads) := ⟨_, rfl⟩
  have hmove : bmpReadMove alloc file sizes ⟨b, pos, reads⟩ =
      ([], some ⟨{ b₁ with data := d }, info.slot k + d.length, reads + 1⟩) := by
    rw [bmpReadMove, hstep]
    simp only [BmpIn.read, hd, hb₁, Ffbmp.gather]
  have hpos := Nat.lt_of_lt_of_le hv.lineO_pos hv.lineO_le
  have hlen := himg.length_getD hk
  have hheight := hv.height_lt
  refine RunEnds.silent hmove ?_
  have hinbuf : { b₁ with data := d } = { b₁ with inbuf := b.inbuf, data := d } := by
    rw [hb₁]
    rfl
  rw [hinbuf]
  refine bmpR_gather halloc (h.slot_le hv himg hk trivial) (by rw [hb₁]; rfl) (by rw [hb₁]; rfl) ?_
    _ b.inbuf [] d _ _ hb.inbuf hpos (LieAt.nil file _) (hd ▸ lieAt_read file _ _) rfl (le_refl _)
  intro inbuf d' pos' reads' hhas _ _
  have hfile := h.line k hk trivial
  have hdata : bmpReadMove alloc file sizes ⟨{ b₁ with
        gathered := field file (info.slot k) info.lineSize
        data := d'
        inbuf := inbuf
        state := b₁.nxstate }, pos', reads'⟩ =
      ([.line (lines.getD k [])], some ⟨{ b₁ with
        gathered := field file (info.slot k) info.lineSize
        data := d'
        inbuf := inbuf
        rgb := lines.getD k []
        line := k + 1
        state := if k + 1 = info.height then .done else .seek }, pos', reads'⟩) := by
    have htake : (field file (info.slot k) info.lineSize).take info.lineO = lines.getD k [] := by
      rw [hfile, FfpicInfo.padLine, take_left' hlen]
    have hmod : (k + 1) % 2 ^ 32 = k + 1 := Nat.mod_eq_of_lt (by omega)
    rw [hb₁]
    simp only [bmpReadMove, bmpReadStep, Ffbmp.gather, hb.linesizeO, hb.line, hb.info_eq, htake, hmod]
  refine RunEnds.cons hdata (hrun _ _ _ ?_)
  rw [hb₁]
  exact ⟨rfl, rfl, hb.dataoff, hb.linesize, hb.linesizeO, hb.info_eq, hhas⟩

/-- **All lines are read**, from the top. -/
theorem bmpR_lines (halloc : ∀ n, alloc n = true) (hv : info.Valid) (himg : BmpImage info lines)
    (h : BmpHolds info lines (fun _ => True) file) {n : ℕ} (hk : k + n = info.height)
    (hb : b.At info k) :
    RunEnds (bmpReadMove alloc file sizes) ⟨b, pos, reads⟩
      ((lines.drop k).map .line ++ [BmpEvent.done]) := by
  induction n generalizing k b pos reads with
  | zero =>
    rw [Nat.add_zero] at hk
    have hst := hb.state
    rw [if_pos hk] at hst
    rw [drop_eq_nil_of_le (by rw [himg.length, hk])]
    apply RunEnds.last
    simp only [bmpReadMove, bmpReadStep, hst]
    rfl
  | succ n ih =>
    have hlt : k < info.height := by omega
    have hlen : k < lines.length := by rwa [himg.length]
    rw [drop_eq_getElem_cons hlen, ← getD_eq_getElem lines [] hlen]
    refine bmpR_line halloc hv himg h hlt hb ?_
    intro b' pos' reads' hb'
    exact ih (by omega) hb'

/-- **The header of an image without transparency** is all there is. -/
theorem bmpHdrRead_bgr (hv : info.Valid) (hf : info.format = FFPIC_BGR) {hdr : List UInt8}
    (hh : BmpHdrIs hdr info.width info.height 24 BMP_HDR COMP_NONE) (b : Ffbmp) :
    bmpHdrRead b hdr = (.hdr, { b with
      dataoff := info.hdrsize
      linesizeO := info.lineO
      linesize := info.lineSize
      info := info
      state := .seek }) := by
  have hbits : ffpicBits info.format = 24 := by rw [hf]; rfl
  have hsize : info.hdrsize = BMP_HDR := by
    rw [FfpicInfo.hdrsize, if_neg (by rw [hf]; decide)]
  have hline := hv.linesize
  rw [hbits] at hline
  have hinfo : (⟨info.width, info.height, FFPIC_BGR⟩ : FfpicInfo) = info := by rw [← hf]
  rw [bmpHdrRead, if_neg (not_not_intro hh.bm)]
  simp only [hh.dataoff, hh.width, hh.height, hh.bits, hh.comp, hline, hinfo]
  rw [hsize]
  rfl

/-- **The first header of an image with transparency**: the second one is gathered. -/
theorem bmpHdrRead_abgr (hv : info.Valid) (hf : info.format = FFPIC_ABGR) {hdr : List UInt8}
    (hh : BmpHdrIs hdr info.width info.height 32 (BMP_HDR + BMP_HDR4) COMP_BITFIELDS)
    (b : Ffbmp) :
    bmpHdrRead b hdr = (.more, Ffbmp.gather { b with
      dataoff := info.hdrsize
      linesizeO := info.lineO
      linesize := info.lineSize
      info := info } .hdr4 BMP_HDR4) := by
  have hbits : ffpicBits info.format = 32 := by rw [hf]; rfl
  have hsize : info.hdrsize = BMP_HDR + BMP_HDR4 := by rw [FfpicInfo.hdrsize, if_pos hf]
  have hline := hv.linesize
  rw [hbits] at hline
  have hinfo : (⟨info.width, info.height, FFPIC_ABGR⟩ : FfpicInfo) = info := by rw [← hf]
  rw [bmpHdrRead, if_neg (not_not_intro hh.bm)]
  simp only [hh.dataoff, hh.width, hh.height, hh.bits, hh.comp, hline, hinfo]
  rw [hsize]
  rfl

/-- **The headers are read**: one of them, or two. -/
theorem bmpR_hdr (halloc : ∀ n, alloc n = true) (hv : info.Valid)
    (h : BmpHolds info lines (fun _ => True) file)
    (hrun : ∀ b' pos reads, b'.At info 0 →
      RunEnds (bmpReadMove alloc file sizes) ⟨b', pos, reads⟩ es) :
    RunEnds (bmpReadMove alloc file sizes) ⟨ffbmpOpen, 0, 0⟩ (.hdr info :: es) := by
  have hfile := h.hdr_le hv
  have hheight := hv.height
  have hseek : BmpSt.seek = if 0 = info.height then .done else .seek := by
    rw [if_neg (by omega)]
  have hsize : info.hdrsize = BMP_HDR ∨ info.hdrsize = BMP_HDR + BMP_HDR4 := by
    rw [FfpicInfo.hdrsize]
    split
    · exact .inr rfl
    · exact .inl rfl
  have hroom : 0 + BMP_HDR ≤ file.length := by
    omega
  have hopen := @bmpR_gather alloc file sizes 0 ffbmpOpen (.hdr info :: es) halloc BMP_HDR hroom
    rfl rfl
  refine hopen ?_ _ .null [] [] 0 0 has_null (by decide) (LieAt.nil file 0) (LieAt.nil file _) rfl
    (le_refl _)
  intro inbuf d pos reads hhas hd hpos
  rcases hv.format with hf | hf
  · have hs : info.hdrsize = BMP_HDR := by
      rw [FfpicInfo.hdrsize, if_neg (by rw [hf]; decide)]
    have hhdr := h.hdr
    rw [hs] at hhdr
    have hh := bmpHdrWrite_bgr hf info.lineSize hv.width_lt hv.height_lt
    have hmove : bmpReadMove alloc file sizes ⟨{ ffbmpOpen with
          gathered := field file 0 BMP_HDR
          data := d
          inbuf := inbuf
          state := .hdr }, pos, reads⟩ =
        ([.hdr info], some ⟨{ ffbmpOpen with
          gathered := field file 0 BMP_HDR
          data := d
          inbuf := inbuf
          dataoff := info.hdrsize
          linesizeO := info.lineO
          linesize := info.lineSize
          info := info
          state := .seek }, pos, reads⟩) := by
      simp only [bmpReadMove, bmpReadStep, hhdr, bmpHdrRead_bgr hv hf hh]
    exact RunEnds.cons hmove (hrun _ pos reads ⟨hseek, rfl, rfl, rfl, rfl, rfl, hhas⟩)
  have hs : info.hdrsize = BMP_HDR + BMP_HDR4 := by rw [FfpicInfo.hdrsize, if_pos hf]
  obtain ⟨hdr, heq, hh⟩ := bmpHdrWrite_abgr hf info.lineSize hv.width_lt hv.height_lt
  have hboth := h.hdr
  rw [hs, field_add, heq] at hboth
  have hlen : (field file 0 BMP_HDR).length = hdr.length := by
    rw [length_field hroom, hh.length]
  obtain ⟨hhdr, hhdr4⟩ := append_inj hboth hlen
  obtain ⟨b₁, hb₁⟩ : ∃ b₁, b₁ = Ffbmp.gather { ffbmpOpen with
    gathered := field file 0 BMP_HDR
    data := d
    inbuf := inbuf
    dataoff := info.hdrsize
    linesizeO := info.lineO
    linesize := info.lineSize
    info := info } .hdr4 BMP_HDR4 := ⟨_, rfl⟩
  have hmove : bmpReadMove alloc file sizes ⟨{ ffbmpOpen with
        gathered := field file 0 BMP_HDR
        data := d
        inbuf := inbuf
        state := .hdr }, pos, reads⟩ =
      ([], some ⟨{ b₁ with inbuf := inbuf, data := d }, pos, reads⟩) := by
    simp only [bmpReadMove, bmpReadStep, hhdr, bmpHdrRead_abgr hv hf hh, hb₁]
    rfl
  refine RunEnds.silent hmove ?_
  have hroom4 : 0 + BMP_HDR + BMP_HDR4 ≤ file.length := by
    rw [hs] at hfile
    omega
  refine bmpR_gather halloc hroom4 (by rw [hb₁]; rfl) (by rw [hb₁]; rfl) ?_ _ inbuf [] d _ _ hhas
    (by decide) (LieAt.nil file _) hd hpos (le_refl _)
  intro inbuf' d' pos' reads' hhas' _ _
  have hlast : bmpReadMove alloc file sizes ⟨{ b₁ with
        gathered := field file (0 + BMP_HDR) BMP_HDR4
        data := d'
        inbuf := inbuf'
        state := b₁.nxstate }, pos', reads'⟩ =
      ([.hdr info], some ⟨{ b₁ with
        gathered := field file (0 + BMP_HDR) BMP_HDR4
        data := d'
        inbuf := inbuf'
        state := .seek }, pos', reads'⟩) := by
    have hok : bmpHdr4Ok bmpHdr4 = true := by decide
    rw [hb₁]
    simp only [bmpReadMove, bmpReadStep, Ffbmp.gather, hhdr4, hok, if_true]
  refine RunEnds.cons hlast (hrun _ pos' reads' ?_)
  rw [hb₁]
  exact ⟨hseek, rfl, rfl, rfl, rfl, rfl, hhas'⟩

/-- **The image is read** from a file that holds it. -/
theorem bmpRead_holds (halloc : ∀ n, alloc n = true) (hv : info.Valid) (himg : BmpImage info lines)
    (h : BmpHolds info lines (fun _ => True) file) :
    RunEnds (bmpReadMove alloc file sizes) ⟨ffbmpOpen, 0, 0⟩
      (.hdr info :: (lines.map .line ++ [.done])) := by
  refine bmpR_hdr halloc hv h ?_
  intro b' pos reads hb'
  exact bmpR_lines halloc hv himg h (Nat.zero_add info.height) hb'

end Reader

/-! ### Result -/

/-- **Writing and reading.** The lines are given in either order, in pieces of any numbers of lines;
the file is read in pieces of any sizes. -/
theorem bmp_roundTrip {alloc : ℕ → Bool} {info : FfpicInfo} {reverse : Bool}
    {lines : List (List UInt8)} {groups : List (List (List UInt8))}
    (halloc : ∀ n, alloc n = true) (hv : info.Valid) (himg : BmpImage info lines)
    (hgroups : groups.flatten = bmpOrder reverse lines) :
    ∃ b file, ffbmpCreate info reverse = .ok b ∧
      RunEnds (bmpWriteMove alloc) ⟨b, [], 0, groups.map List.flatten⟩ [.ok file] ∧
      ∀ sizes, RunEnds (bmpReadMove alloc file sizes) ⟨ffbmpOpen, 0, 0⟩
        (.hdr info :: (lines.map .line ++ [.done])) := by
  obtain ⟨b, file, hcreate, hwrite, hholds⟩ := bmpWrite_holds halloc hv himg hgroups
  refine ⟨b, file, hcreate, hwrite, ?_⟩
  intro sizes
  exact bmpRead_holds halloc hv himg hholds

/-- Two lines of a pixel with transparency, from the bottom to the top. -/
theorem bmp_roundTrip_example :
    ∃ b file, ffbmpCreate ⟨1, 2, FFPIC_ABGR⟩ true = .ok b ∧
      RunEnds (bmpWriteMove fun _ => true) ⟨b, [], 0, [[5, 6, 7, 8], [1, 2, 3, 4]]⟩ [.ok file] ∧
      ∀ sizes, RunEnds (bmpReadMove (fun _ => true) file sizes) ⟨ffbmpOpen, 0, 0⟩
        [.hdr ⟨1, 2, FFPIC_ABGR⟩, .line [1, 2, 3, 4], .line [5, 6, 7, 8], .done] :=
  @bmp_roundTrip (fun _ => true) ⟨1, 2, FFPIC_ABGR⟩ true [[1, 2, 3, 4], [5, 6, 7, 8]]
    [[[5, 6, 7, 8]], [[1, 2, 3, 4]]] (fun _ => rfl)
    ⟨.inr rfl, by decide, by decide, by decide, by decide⟩ ⟨rfl, by decide⟩ rfl

end FF
