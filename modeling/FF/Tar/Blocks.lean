import FF.Tar.Read

/-!
# What a TAR archive means

An archive is read block by block (`tarUnit`): a header block, the name behind a long-name header,
the blocks of an extended header, the data blocks of a file, and the empty blocks at the end.
-/

namespace FF

namespace Tar

open List

/-- Where a reader is between two units. -/
inductive Phase
  | hdr (long : Option (List UInt8))
  | long (size : ℕ)
  | skip (size : ℕ)
  | data (first : Bool) (left : ℕ)
  | fin
  deriving DecidableEq, Repr

/-- The phase, and the room there is for a name. -/
structure Arch where
  room : ℕ
  phase : Phase
  deriving DecidableEq, Repr

/-- An archive from its first byte on. -/
def Arch.start : Arch := ⟨100 + 1 + 155 + 1, .hdr none⟩

/-- What is given: headers, the bytes of files, the ends of files, and the end of the archive. -/
inductive Ev
  | file (f : FftarFile)
  | byte (b : UInt8)
  | filedone
  | err (e : FftarE)
  | done
  deriving DecidableEq, Repr

/-- What a code gives. -/
def FftarR.ev : FftarR → List Ev
  | .err e => [.err e]
  | .data out => out.map .byte
  | .done => [.done]
  | .more => []
  | .filehdr f => [.file f]
  | .filedone => [.filedone]

/-- The blocks of data that follow a header of an extended header. -/
def skipPhase (size : ℕ) : Phase := if size = 0 then .hdr none else .skip size

/-- An empty block at the end. -/
def finAct (room : ℕ) (b : List UInt8) : List Ev × Option Arch :=
  if b.dropWhile (· == 0) ≠ [] then ([.err .padding], none) else ([], some ⟨room, .fin⟩)

/-- A header -/
def fileAct (room : ℕ) (f : FftarFile) : List Ev × Option Arch :=
  if noData f.type ∧ f.size ≠ 0 then ([.err .havedata], none)
  else if f.type = FFTAR_LONG then
    if f.size > TAR_MAXLONGNAME then ([.err .longname], none)
    else if f.size = 0 then ([], some ⟨room, .hdr (some [])⟩)
    else ([], some ⟨room, .long f.size⟩)
  else if isExt f.type then
    if f.size > TAR_MAXLONGNAME then ([.err .longname], none)
    else ([], some ⟨room, skipPhase f.size⟩)
  else if f.size = 0 then ([.file f, .filedone], some ⟨room, .hdr none⟩)
  else ([.file f], some ⟨room, .data true f.size⟩)

/-- A header block -/
def hdrAct (un : Unset) (room : ℕ) (long : Option (List UInt8)) (b : List UInt8) :
    List Ev × Option Arch :=
  if b.getD 0 0 = 0 then finAct room b
  else
    match fftarHdrParse un long b with
    | .error e => ([.err e], none)
    | .ok f => fileAct room f

/-- A data block -/
def dataAct (room left : ℕ) (b : List UInt8) : List Ev × Option Arch :=
  let n := min left TAR_BLOCK
  let bytes := (b.take n).map Ev.byte
  if left - n = 0 then
    if (b.drop n).dropWhile (· == 0) ≠ [] then ([.err .padding], none)
    else (bytes ++ [Ev.filedone], some ⟨room, .hdr none⟩)
  else (bytes, some ⟨room, .data false (left - n)⟩)

/-- The length of the next unit: as many blocks as a long name takes, or one. -/
def need (a : Arch) : ℕ :=
  match a.phase with
  | .long size => ((size - 1) / TAR_BLOCK + 1) * TAR_BLOCK
  | _ => TAR_BLOCK

/-- What a unit does. -/
def act (un : Unset) (a : Arch) (b : List UInt8) : List Ev × Option Arch :=
  match a.phase with
  | .hdr long => hdrAct un a.room long b
  | .long size => ([], some ⟨size + 1, .hdr (some (cstr (b.take size)))⟩)
  | .skip size => ([], some ⟨a.room, skipPhase (size - min TAR_BLOCK size)⟩)
  | .data _ left => dataAct a.room left b
  | .fin => finAct a.room b

/-- **The next unit of an archive** -/
def tarUnit (un : Unset) : Arch → List UInt8 → Option (List Ev × Option Arch × List UInt8) :=
  gathered need (act un)

/-- The end of the input behind empty blocks is the end of the archive. -/
def atEnd (a : Arch) (s : List UInt8) : List Ev :=
  if a.phase = .fin ∧ s = [] then [.done] else []

/-- A header with data that is no file's has such data. -/
def HasData : Except FftarE FftarFile → Prop
  | .ok f => f.type = FFTAR_LONG ∨ isExt f.type → f.size ≠ 0
  | .error _ => True

/-- Units that are read alike however they are divided: a name has room, a header of a long name or
of an extended header has data behind it, and the padding of a file of several blocks is empty. -/
def GoodUnit (un : Unset) (a : Arch) (s : List UInt8) : Prop :=
  let b := s.take TAR_BLOCK
  match a.phase with
  | .hdr long => b.getD 0 0 = 0 ∨
      (long = none → hdrNameSize un b ≤ a.room) ∧ HasData (fftarHdrParse un long b)
  | .data first left =>
    first = false → left ≤ TAR_BLOCK → (b.drop left).dropWhile (· == 0) = []
  | _ => True

instance HasData.decidable : ∀ r, Decidable (HasData r)
  | .ok f => inferInstanceAs (Decidable (f.type = FFTAR_LONG ∨ isExt f.type → f.size ≠ 0))
  | .error _ => isTrue trivial

instance GoodUnit.decidable (un : Unset) :
    (a : Arch) → (s : List UInt8) → Decidable (GoodUnit un a s)
  | ⟨room, .hdr long⟩, s => inferInstanceAs (Decidable ((s.take TAR_BLOCK).getD 0 0 = 0 ∨
      (long = none → hdrNameSize un (s.take TAR_BLOCK) ≤ room) ∧
        HasData (fftarHdrParse un long (s.take TAR_BLOCK))))
  | ⟨_, .data first left⟩, s => inferInstanceAs (Decidable (first = false → left ≤ TAR_BLOCK →
      ((s.take TAR_BLOCK).drop left).dropWhile (· == 0) = []))
  | ⟨_, .long _⟩, _ => isTrue trivial
  | ⟨_, .skip _⟩, _ => isTrue trivial
  | ⟨_, .fin⟩, _ => isTrue trivial

/-- **A good archive** -/
def GoodArchive (un : Unset) (s : List UInt8) : Prop :=
  UnitsGood (tarUnit un) (GoodUnit un) .start s

instance (un : Unset) (s : List UInt8) : Decidable (GoodArchive un s) :=
  UnitsGood.decidable (tarUnit un) (GoodUnit un) .start s

/-- What the end of the input adds, where it is announced. -/
def endOf (fin : Bool) : Arch → List UInt8 → List Ev := if fin then atEnd else fun _ _ => []

/-- What an archive means from `a` on. -/
def archiveFrom (un : Unset) (fin : Bool) (a : Arch) (s : List UInt8) : List Ev :=
  meaning (tarUnit un) (endOf fin) a s

/-- **What an archive means** -/
def archive (un : Unset) (fin : Bool) (s : List UInt8) : List Ev := archiveFrom un fin .start s

/-- What the calls have given, byte for byte. -/
def results (rs : List (Return Fftar UInt8 FftarR)) : List Ev := rs.flatMap fun x => x.code.ev

theorem need_pos (a : Arch) : 0 < need a := by
  unfold need
  split
  · exact Nat.mul_pos (Nat.succ_pos _) (by decide)
  · decide

theorem isUnit_tarUnit (un : Unset) : IsUnit (tarUnit un) := isUnit_gathered need_pos

theorem goodUnit_front {un : Unset} {a : Arch} {s : List UInt8} {p : List Ev × Option Arch × List UInt8}
    (h : tarUnit un a s = some p) (t : List UInt8) (hgood : GoodUnit un a (s ++ t)) :
    GoodUnit un a s := by
  have hlen : TAR_BLOCK ≤ s.length := by
    have hno : ¬s.length < need a := fun hlt => by
      rw [tarUnit, gathered_none.mpr hlt] at h
      cases h
    have hneed : TAR_BLOCK ≤ need a := by
      unfold need
      split
      · exact Nat.le_mul_of_pos_left _ (Nat.succ_pos _)
      · exact le_rfl
    omega
  unfold GoodUnit at hgood ⊢
  rwa [take_append_of_le_length hlen] at hgood

/-! ### The reader and the archive -/

/-- What the reader waits for, in the state `st` behind a block. -/
def Awaits (t : Fftar) : St → Phase → Prop
  | .hdr, ph => ph = .hdr (if t.longName then some t.nameStr else none)
  | .skip, ph => t.longName = false ∧ t.file.size ≠ 0 ∧ ph = .skip t.file.size
  | .dataBlk, ph =>
    t.longName = false ∧ t.fsize ≠ 0 ∧ t.fsize ≤ t.file.size ∧
      ph = .data (t.fsize == t.file.size) t.fsize
  | .fin, ph => ph = .fin
  | _, _ => False

/-- The bytes that have been collected. -/
def Fftar.held (t : Fftar) : List UInt8 :=
  match t.state with
  | .gather => t.buf.bytes
  | .longName => t.name.bytes
  | .hdr | .skip | .dataBlk | .fin => t.block
  | _ => []

/-- The events that are still to be given. -/
def Fftar.owed (t : Fftar) : List Ev := if t.state = .fdone then [.filedone] else []

/-- The number of passes of a call, for an input that is not used up. -/
def rank (t : Fftar) (d : List UInt8) : ℕ :=
  4 * d.length +
    match t.state with
    | .init | .hdr => 3
    | .fin | .dataBlk => 2
    | .skip | .longName | .data | .fdone | .fin2 => 1
    | .gather => 0

/-- The room for names, and the buffers behind a unit. -/
structure Idle (t : Fftar) (a : Arch) : Prop where
  room : a.room ≤ t.name.cap
  name : t.name.Has []
  buf : t.buf.Has []

/-- **The reader is where `a` is.** -/
def At (t : Fftar) (a : Arch) : Prop :=
  match t.state with
  | .init => a = .start ∧ t.buf.Has [] ∧ t.longName = false
  | .gather => ∃ l, t.buf.Has l ∧ l.length < TAR_BLOCK ∧ a.room ≤ t.name.cap ∧ t.name.Has [] ∧
      Awaits t t.nxstate a.phase ∧ (t.nxstate = .fin → l ≠ [])
  | .longName => ∃ l, t.name.Has l ∧ l.length < need a ∧ t.buf.Has [] ∧ t.longName = false ∧
      t.file.size ≠ 0 ∧ a.phase = .long t.file.size
  | .data => Idle t a ∧ Awaits t .dataBlk a.phase
  | .fdone => Idle t a ∧ t.longName = false ∧ a.phase = .hdr none
  | .fin2 => Idle t a ∧ a.phase = .fin
  | st => Idle t a ∧ t.block.length = TAR_BLOCK ∧ Awaits t st a.phase

/-- What a pass has to keep. -/
def Keeps (un : Unset) (fin : Bool) (a : Arch) (s : List UInt8) (o : List Ev) (k : ℕ) :
    Pass Fftar UInt8 FftarR → Prop :=
  PassKeeps FftarR.verdict FftarR.ev (tarUnit un) (endOf fin) (fun t a => t.fin = fin ∧ At t a)
    Fftar.held Fftar.owed rank a s o k

section Passes

variable {alloc : ℕ → Bool} {un : Unset} {fin : Bool} {t : Fftar} {a : Arch} {d l : List UInt8}

theorem endOf_of_ne (h : a.phase ≠ .fin) (s : List UInt8) : endOf fin a s = [] := by
  rw [endOf]
  split
  · rw [atEnd, if_neg fun hno => h hno.1]
  · rfl

theorem endOf_of_cons (h : s ≠ []) : endOf fin a s = [] := by
  rw [endOf]
  split
  · rw [atEnd, if_neg fun hno => h hno.2]
  · rfl

/-- **Gathering a block**: all bytes are taken, or a block is complete. -/
theorem caseGather_cases (halloc : ∀ n, alloc n = true) (hbuf : t.buf.Has l)
    (hl : l.length < TAR_BLOCK) :
    (l.length + d.length < TAR_BLOCK ∧ ∃ buf,
      caseGather alloc t d = .ret { t with buf := buf } d .more ∧ buf.Has (l ++ d)) ∨
    ∃ buf b rest, caseGather alloc t d =
        .again { t with buf := buf, block := b, state := t.nxstate } rest ∧
      buf.Has [] ∧ b.length = TAR_BLOCK ∧ b ++ rest = l ++ d ∧ rest.length < d.length := by
  obtain ⟨buf, hbuf'⟩ := @ffarrAppendUntil_spec t.buf l alloc halloc hbuf d TAR_BLOCK hl
  split at hbuf'
  · next hfew =>
      obtain ⟨hg, hhas⟩ := hbuf'
      exact .inl ⟨hfew, buf, by rw [caseGather, hg], hhas⟩
  next hmany =>
    obtain ⟨hg, hhas⟩ := hbuf'
    refine .inr ⟨buf.setLen 0, _, _, by rw [caseGather, hg], hhas.setLen (Nat.zero_le _), ?_, ?_, ?_⟩
    · rw [hhas.1, length_append, length_take]
      omega
    · rw [hhas.1, append_assoc, take_append_drop]
    · rw [length_drop]
      omega

theorem at_block {st : St} (hst : t.state = st) (hb : t.block.length = TAR_BLOCK)
    (h : Idle t a) (ha : Awaits t st a.phase) : At t a := by
  unfold At
  rw [hst]
  cases st with
  | hdr | skip | dataBlk | fin => exact ⟨h, hb, ha⟩
  | init | gather | longName | data | fdone | fin2 => exact ha.elim

theorem need_of_awaits {st : St} (h : Awaits t st a.phase) : need a = TAR_BLOCK := by
  unfold need
  split
  · next size hph =>
      rw [hph] at h
      cases st with
      | hdr | fin => cases h
      | skip => exact absurd h.2.2 (by simp)
      | dataBlk => exact absurd h.2.2.2 (by simp)
      | init | gather | longName | data | fdone | fin2 => exact h.elim
  · rfl

theorem held_of_awaits {t t' : Fftar} {st : St} {ph : Phase} (hst : t.state = st)
    (h : Awaits t' st ph) :
    t.held = t.block := by
  unfold Fftar.held
  rw [hst]
  cases st with
  | hdr | skip | dataBlk | fin => rfl
  | init | gather | longName | data | fdone | fin2 => exact h.elim

/-- **`R_GATHER`** -/
theorem caseGather_keeps (halloc : ∀ n, alloc n = true) (hfin : t.fin = fin) (hbuf : t.buf.Has l)
    (hl : l.length < TAR_BLOCK) (hroom : a.room ≤ t.name.cap) (hname : t.name.Has [])
    (hawaits : Awaits t t.nxstate a.phase) (hne : t.nxstate = .fin → l ++ d ≠ []) {k : ℕ}
    (hst : t.state = .gather) (hk : 4 * d.length ≤ k) :
    Keeps un fin a (l ++ d) [] k (caseGather alloc t d) := by
  have hneed := need_of_awaits hawaits
  obtain ⟨hfew, buf, hg, hhas⟩ | ⟨buf, b, rest, hg, hhas, hb, hrest, hlt⟩ :=
    @caseGather_cases alloc t d l halloc hbuf hl
  · rw [hg]
    have hend : endOf fin a (l ++ d) = [] := by
      by_cases hnx : t.nxstate = .fin
      · exact endOf_of_cons (hne hnx)
      · refine endOf_of_ne (fun hph => ?_) _
        rw [hph] at hawaits
        unfold Awaits at hawaits
        split at hawaits <;> simp_all
    refine .inr ⟨[], a, l ++ d, rfl, .refl, .inl ⟨rfl, ⟨hfin, ?_⟩, ?_, ?_, ?_, hend,
      suffix_append l d⟩⟩
    · unfold At
      rw [hst]
      exact ⟨l ++ d, hhas, by rw [length_append]; exact hfew, hroom, hname, hawaits, hne⟩
    · rw [Fftar.held, hst]
      exact hhas.1
    · rw [Fftar.owed, hst, if_neg (by decide)]
    · rw [tarUnit, gathered_none, length_append, hneed]
      exact hfew
  rw [hg]
  refine ⟨?_, [], a, ?_, ?_, hfin, ?_⟩
  · rw [rank]
    have h3 : (match t.nxstate with
      | .init | .hdr => 3
      | .fin | .dataBlk => 2
      | .skip | .longName | .data | .fdone | .fin2 => 1
      | .gather => 0) ≤ 3 := by
      cases t.nxstate <;> decide
    simp only
    omega
  · rw [Fftar.owed]
    have hno : t.nxstate ≠ .fdone := fun hno => by
      rw [hno] at hawaits
      exact hawaits.elim
    rw [if_neg hno]
    rfl
  · rw [@held_of_awaits { t with buf := buf, block := b, state := t.nxstate } t _ _ rfl hawaits]
    simp only [hrest]
    exact .refl
  · exact at_block rfl hb ⟨hroom, hname, hhas⟩ hawaits

/-- **`R_FIN2`** -/
theorem caseFin2_keeps (halloc : ∀ n, alloc n = true) (hst : t.state = .fin2) (hfin : t.fin = fin)
    (h : Idle t a) (hph : a.phase = .fin) {k : ℕ} (hk : 4 * d.length ≤ k) :
    Keeps un fin a d [] k (caseFin2 alloc t d) := by
  unfold caseFin2
  by_cases hd : d.length = 0
  · obtain rfl := length_eq_zero_iff.mp hd
    have hnone : tarUnit un a [] = none := gathered_none.mpr (need_pos a)
    rw [if_pos hd, hfin]
    cases fin with
    | true =>
      refine .inr ⟨[], a, [], rfl, .refl, .inr ⟨rfl, .inr ⟨hnone, ?_⟩⟩⟩
      rw [endOf, if_pos rfl, atEnd, if_pos ⟨hph, rfl⟩]
      rfl
    | false =>
      refine .inr ⟨[], a, [], rfl, .refl, .inl ⟨rfl, ⟨hfin, ?_⟩, ?_, ?_, hnone, rfl,
        nil_suffix⟩⟩
      · unfold At
        rw [hst]
        exact ⟨h, hph⟩
      · rw [Fftar.held, hst]
      · rw [Fftar.owed, hst, if_neg (by decide)]
  · rw [if_neg hd]
    have hne : d ≠ [] := fun hno => hd (length_eq_zero_iff.mpr hno)
    exact caseGather_keeps (t := { t with state := .gather, nxstate := .fin }) halloc hfin h.buf
      (by decide) h.room h.name hph (fun _ => hne) rfl hk

theorem caseFin_keeps (halloc : ∀ n, alloc n = true) (hfin : t.fin = fin) (h : Idle t a)
    (hb : t.block.length = need a)
    (hact : act un a t.block = finAct a.room t.block) {k : ℕ} (hk : 4 * d.length ≤ k) :
    Keeps un fin a (t.block ++ d) [] k (caseFin alloc t d) := by
  have hunit : tarUnit un a (t.block ++ d) = _ := gathered_some hb
  rw [hact, finAct] at hunit
  unfold caseFin
  by_cases hzero : t.block.dropWhile (· == 0) ≠ []
  · rw [if_pos hzero] at hunit ⊢
    exact .inr ⟨[], a, _, rfl, .refl, .inr ⟨rfl, .inl ⟨d, hunit⟩⟩⟩
  · rw [if_neg hzero] at hunit ⊢
    have hkeeps := @caseFin2_keeps alloc un fin { t with state := .fin2 } ⟨a.room, .fin⟩ d halloc rfl
      hfin ⟨h.room, h.name, h.buf⟩ rfl k hk
    exact PassKeeps.prepend (.one hunit) hkeeps

theorem gather_again {u : Fftar} {b : Arch} {s : List UInt8} (hst : u.state = .gather)
    (hfin : u.fin = fin) (h : Idle u b) (ha : Awaits u u.nxstate b.phase)
    (hnx : u.nxstate ≠ .fin) (ht : Takes (tarUnit un) a s [] b d) {k : ℕ}
    (hk : 4 * d.length < k) : Keeps un fin a s [] k (.again u d) := by
  have hheld : u.held = [] := by
    rw [Fftar.held, hst]
    exact h.buf.1
  refine ⟨?_, [], b, ?_, ?_, hfin, ?_⟩
  · rw [rank, hst]
    exact hk
  · rw [Fftar.owed, hst, if_neg (by decide)]
    rfl
  · rw [hheld]
    exact ht
  · unfold At
    rw [hst]
    exact ⟨[], h.buf, by decide, h.room, h.name, ha, fun hno => absurd hno hnx⟩

theorem hdrParsed_keeps {f : FftarFile} {s : List UInt8} (hfin : t.fin = fin) (h : Idle t a)
    (hlong : t.longName = false)
    (hunit : tarUnit un a s = some ((fileAct a.room f).1, (fileAct a.room f).2, d))
    (hgood : f.type = FFTAR_LONG ∨ isExt f.type → f.size ≠ 0) {k : ℕ} (hk : 4 * d.length + 1 < k) :
    Keeps un fin a s [] k (hdrParsed t d f) := by
  have herr : ∀ {e t'}, fileAct a.room f = ([.err e], none) →
      Keeps un fin a s [] k (.ret t' d (.err e)) := by
    intro e t' he
    rw [he] at hunit
    exact .inr ⟨[], a, s, rfl, .refl, .inr ⟨rfl, .inl ⟨d, hunit⟩⟩⟩
  unfold hdrParsed
  by_cases hdata : noData f.type ∧ f.size ≠ 0
  · rw [if_pos hdata]
    exact herr (if_pos hdata)
  by_cases htype : f.type = FFTAR_LONG
  · by_cases hbig : f.size > TAR_MAXLONGNAME
    · simp only [if_neg hdata, if_pos htype, if_pos hbig]
      exact herr (by rw [fileAct, if_neg hdata, if_pos htype, if_pos hbig])
    have hsize := hgood (.inl htype)
    rw [fileAct, if_neg hdata, if_pos htype, if_neg hbig, if_neg hsize] at hunit
    simp only [if_neg hdata, if_pos htype, if_neg hbig]
    refine ⟨by simp [rank]; omega, [], ⟨a.room, .long f.size⟩, rfl, ?_, hfin, [], h.name,
      need_pos _, h.buf, hlong, hsize, rfl⟩
    show Takes _ _ _ _ _ (t.name.bytes ++ d)
    rw [h.name.1]
    exact .one hunit
  by_cases hext : isExt f.type = true
  · by_cases hbig : f.size > TAR_MAXLONGNAME
    · simp only [if_neg hdata, if_neg htype, if_pos hext, if_pos hbig]
      exact herr (by rw [fileAct, if_neg hdata, if_neg htype, if_pos hext, if_pos hbig])
    have hsize := hgood (.inr hext)
    rw [fileAct, if_neg hdata, if_neg htype, if_pos hext, if_neg hbig, skipPhase,
      if_neg hsize] at hunit
    simp only [if_neg hdata, if_neg htype, if_pos hext, if_neg hbig]
    exact gather_again
      (u := { t with file := f, fsize := f.size, state := .gather, nxstate := .skip })
      (b := ⟨a.room, .skip f.size⟩) rfl hfin ⟨h.room, h.name, h.buf⟩ ⟨hlong, hsize, rfl⟩ (by simp)
      (.one hunit) (by omega)
  rw [fileAct, if_neg hdata, if_neg htype, if_neg hext] at hunit
  simp only [if_neg hdata, if_neg htype, if_neg hext]
  by_cases hsize : f.size = 0
  · rw [if_pos hsize] at hunit
    simp only [hsize, ne_eq, not_true_eq_false, if_false]
    exact .inl ⟨rfl, by simp [rank]; omega, [.file f, .filedone], _, rfl, .one hunit, hfin,
      ⟨h.room, h.name, h.buf⟩, hlong, rfl⟩
  · rw [if_neg hsize] at hunit
    simp only [ne_eq, hsize, not_false_eq_true, if_true]
    exact .inl ⟨rfl, by simp [rank]; omega, [.file f], _, rfl, .one hunit, hfin,
      ⟨h.room, h.name, h.buf⟩, hlong, hsize, le_rfl, by simp⟩

/-- **`R_HDR`** -/
theorem caseHdr_keeps (halloc : ∀ n, alloc n = true) (hfin : t.fin = fin) (h : Idle t a)
    (hb : t.block.length = TAR_BLOCK) (ha : Awaits t .hdr a.phase)
    (hgood : GoodUnit un a (t.block ++ d)) {k : ℕ} (hk : 4 * d.length + 2 < k) :
    Keeps un fin a (t.block ++ d) [] k (caseHdr alloc un t d) := by
  have hneed := need_of_awaits ha
  have hph : a.phase = .hdr (if t.longName then some t.nameStr else none) := ha
  have hunit : tarUnit un a (t.block ++ d) = _ := gathered_some (hb.trans hneed.symm)
  have hact : act un a t.block = hdrAct un a.room (if t.longName then some t.nameStr else none)
      t.block := by rw [act, hph]
  unfold GoodUnit at hgood
  rw [hph, take_left' hb] at hgood
  rw [hact, hdrAct] at hunit
  unfold caseHdr
  by_cases hzero : t.block.getD 0 0 = 0
  · rw [if_pos hzero]
    exact @caseFin_keeps alloc un fin { t with state := .fin } a d halloc hfin
      ⟨h.room, h.name, h.buf⟩ (hb.trans hneed.symm) (by rw [hact, hdrAct, if_pos hzero]) k (by omega)
  rw [if_neg hzero] at hunit ⊢
  have hparse := hgood.resolve_left hzero
  cases hlong : t.longName with
  | true =>
    rw [hlong, if_pos rfl] at hunit hparse
    rw [if_pos rfl]
    cases hp : fftarHdrParse un (some t.nameStr) t.block with
    | error e =>
      rw [hp] at hunit
      simp only [hp]
      exact .inr ⟨[], a, _, rfl, .refl, .inr ⟨rfl, .inl ⟨d, hunit⟩⟩⟩
    | ok f =>
      rw [hp] at hunit
      simp only [hp]
      have hdata := hparse.2
      rw [hp] at hdata
      exact hdrParsed_keeps (t := { t with longName := false }) (k := k) hfin
        ⟨h.room, h.name, h.buf⟩ rfl hunit hdata (by omega)
  | false =>
    rw [hlong, if_neg Bool.false_ne_true] at hunit hparse
    have hroom : ¬hdrNameSize un t.block > t.name.cap :=
      Nat.not_lt.mpr (Nat.le_trans (hparse.1 rfl) h.room)
    rw [if_neg Bool.false_ne_true, if_neg hroom]
    cases hp : fftarHdrParse un none t.block with
    | error e =>
      rw [hp] at hunit
      simp only [hp]
      exact .inr ⟨[], a, _, rfl, .refl, .inr ⟨rfl, .inl ⟨d, hunit⟩⟩⟩
    | ok f =>
      rw [hp] at hunit
      simp only [hp]
      have hdata := hparse.2
      rw [hp] at hdata
      exact hdrParsed_keeps (t := { t with longName := false, nameStr := hdrName t.block })
        (k := k) hfin ⟨h.room, h.name, h.buf⟩ rfl hunit hdata (by omega)

/-- **`R_SKIP`** -/
theorem caseSkip_keeps (hfin : t.fin = fin) (h : Idle t a) (hb : t.block.length = TAR_BLOCK)
    (ha : Awaits t .skip a.phase) {k : ℕ} (hk : 4 * d.length < k) :
    Keeps un fin a (t.block ++ d) [] k (caseSkip t d) := by
  have hneed := need_of_awaits ha
  obtain ⟨hlong, hsize, hph⟩ := ha
  have hunit : tarUnit un a (t.block ++ d) = _ := gathered_some (hb.trans hneed.symm)
  have hact : act un a t.block =
      ([], some ⟨a.room, skipPhase (t.file.size - min TAR_BLOCK t.file.size)⟩) := by rw [act, hph]
  rw [hact, skipPhase] at hunit
  unfold caseSkip
  by_cases hmore : t.file.size - min TAR_BLOCK t.file.size = 0
  · rw [if_pos hmore] at hunit
    simp only [hmore, ne_eq, not_true_eq_false, if_false]
    exact gather_again
      (u := { t with file := { t.file with size := 0 }, state := .gather, nxstate := .hdr })
      (b := ⟨a.room, .hdr none⟩) rfl hfin ⟨h.room, h.name, h.buf⟩ (by simp [Awaits, hlong]) (by simp)
      (.one hunit) hk
  rw [if_neg hmore] at hunit
  simp only [ne_eq, hmore, not_false_eq_true, if_true]
  exact gather_again
    (u := { t with
      file := { t.file with size := t.file.size - min TAR_BLOCK t.file.size }
      state := .gather
      nxstate := .skip })
    (b := ⟨a.room, .skip (t.file.size - min TAR_BLOCK t.file.size)⟩) rfl hfin
    ⟨h.room, h.name, h.buf⟩ ⟨hlong, hmore, rfl⟩ (by simp) (.one hunit) hk

/-- `ff_align_ceil2` of a size is the length of the blocks that hold it. -/
theorem alignCeil_eq {n : ℕ} (hn : n ≠ 0) :
    alignCeil n TAR_BLOCK = ((n - 1) / TAR_BLOCK + 1) * TAR_BLOCK := by
  have h : (n + (TAR_BLOCK - 1)) / TAR_BLOCK = (n - 1) / TAR_BLOCK + 1 := by
    have hsum : n + (TAR_BLOCK - 1) = n - 1 + TAR_BLOCK := by
      have : 1 ≤ TAR_BLOCK := by decide
      omega
    rw [hsum, Nat.add_div_right _ (by decide)]
  rw [alignCeil, h]

theorem le_alignCeil (n : ℕ) : n ≤ alignCeil n TAR_BLOCK := by
  simp only [alignCeil, TAR_BLOCK]
  omega

/-- **`R_LONG_NAME`** -/
theorem caseLongName_keeps (halloc : ∀ n, alloc n = true) (hst : t.state = .longName)
    (hfin : t.fin = fin) (h : At t a) {k : ℕ} (hk : 4 * d.length < k) :
    Keeps un fin a (t.held ++ d) [] k (caseLongName alloc t d) := by
  unfold At at h
  rw [hst] at h
  obtain ⟨l, hname, hl, hbuf, hlong, hsize, hph⟩ := h
  have hheld : t.held = l := by
    rw [Fftar.held, hst]
    exact hname.1
  have hneed : alignCeil t.file.size TAR_BLOCK = need a := by
    rw [alignCeil_eq hsize, need, hph]
  rw [hheld, caseLongName, hneed]
  obtain ⟨name, hg⟩ := @ffarrAppendUntil_spec t.name l alloc halloc hname d (need a) hl
  split at hg
  · next hfew =>
      obtain ⟨hg, hhas⟩ := hg
      rw [hg]
      refine .inr ⟨[], a, l ++ d, rfl, .refl, .inl ⟨rfl, ⟨hfin, ?_⟩, ?_, ?_, ?_, ?_,
        suffix_append l d⟩⟩
      · unfold At
        rw [hst]
        exact ⟨l ++ d, hhas, by rw [length_append]; exact hfew, hbuf, hlong, hsize, hph⟩
      · rw [Fftar.held, hst]
        exact hhas.1
      · rw [Fftar.owed, hst, if_neg (by decide)]
      · rw [tarUnit, gathered_none, length_append]
        exact hfew
      · exact endOf_of_ne (by rw [hph]; simp) _
  next hmany =>
    obtain ⟨hg, hhas⟩ := hg
    obtain ⟨b, hb⟩ : ∃ b, b = l ++ d.take (need a - l.length) := ⟨_, rfl⟩
    have hsplit : l ++ d = b ++ d.drop (need a - l.length) := by
      rw [hb, append_assoc, take_append_drop]
    have hblk : b.length = need a := by
      rw [hb, length_append, length_take]
      omega
    have hle : t.file.size ≤ b.length := by
      rw [hblk, ← hneed]
      exact le_alignCeil _
    rw [← hb] at hhas
    obtain ⟨name', happ, hhas', hcap⟩ :=
      @ffarrAppend_grow _ _ alloc halloc (hhas.setLen hle) [0] (cons_ne_nil 0 [])
    rw [length_take, Nat.min_eq_left hle, length_singleton] at hcap
    have hunit : tarUnit un a (b ++ d.drop (need a - l.length)) =
        some ((act un a b).1, (act un a b).2, d.drop (need a - l.length)) := gathered_some hblk
    rw [act, hph] at hunit
    have hstr : cstr name'.bytes = cstr (b.take t.file.size) := by
      rw [hhas'.1]
      exact cstr_append_zero _ []
    rw [hg, hsplit]
    simp only [happ]
    refine gather_again
      (u := { t with
        name := name'.setLen 0
        nameStr := cstr name'.bytes
        longName := true
        state := .gather
        nxstate := .hdr })
      (b := ⟨t.file.size + 1, .hdr (some (cstr (b.take t.file.size)))⟩)
      rfl hfin ⟨?_, hhas'.setLen (Nat.zero_le _), hbuf⟩ ?_ (by simp) (.one hunit) ?_
    · rw [Ffarr.cap_setLen]
      exact hcap
    · show Phase.hdr _ = .hdr _
      rw [hstr]
      rfl
    · rw [length_drop]
      omega

/-! ### Data -/

/-- The blocks of data that are given together: all but the last of a file, or all of it. -/
theorem takes_data {first : Bool} {left n room : ℕ} {blocks s : List UInt8}
    (hblocks : blocks.length = alignCeil n TAR_BLOCK) (hn : n ≤ left) (hpos : n ≠ 0)
    (hlast : n < left → n % TAR_BLOCK = 0)
    (hpad : n = left → (blocks.drop n).dropWhile (· == 0) = []) :
    Takes (tarUnit un) ⟨room, .data first left⟩ (blocks ++ s)
      ((blocks.take n).map Ev.byte ++ if n = left then [Ev.filedone] else [])
      ⟨room, if n = left then .hdr none else .data false (left - n)⟩ s := by
  have hB : TAR_BLOCK = 512 := rfl
  induction n using Nat.strong_induction_on generalizing first left blocks with
  | _ n ih =>
    by_cases hone : n ≤ TAR_BLOCK
    · have hlen : blocks.length = TAR_BLOCK := by
        rw [hblocks, alignCeil_eq hpos, hB]
        omega
      have hunit : tarUnit un ⟨room, .data first left⟩ (blocks ++ s) =
          some ((dataAct room left blocks).1, (dataAct room left blocks).2, s) :=
        gathered_some hlen
      by_cases hend : n = left
      · subst hend
        have hmin : min n TAR_BLOCK = n := Nat.min_eq_left hone
        rw [dataAct, hmin, if_pos (Nat.sub_self n), if_neg (by simpa using hpad rfl)] at hunit
        rw [if_pos rfl, if_pos rfl]
        exact .one hunit
      have hmod := hlast (by omega)
      obtain rfl : n = TAR_BLOCK := by rw [hB] at hmod hone ⊢; omega
      have hmin : min left TAR_BLOCK = TAR_BLOCK := Nat.min_eq_right hn
      rw [dataAct, hmin, if_neg (by omega)] at hunit
      rw [if_neg hend, if_neg hend, append_nil]
      exact .one hunit
    have hceil : alignCeil (n - TAR_BLOCK) TAR_BLOCK + TAR_BLOCK = alignCeil n TAR_BLOCK := by
      simp only [alignCeil, hB]
      omega
    have hfront : (blocks.take TAR_BLOCK).length = TAR_BLOCK := by
      rw [length_take]
      omega
    have hunit : tarUnit un ⟨room, .data first left⟩
        (blocks.take TAR_BLOCK ++ (blocks.drop TAR_BLOCK ++ s)) =
        some ((dataAct room left (blocks.take TAR_BLOCK)).1,
          (dataAct room left (blocks.take TAR_BLOCK)).2, blocks.drop TAR_BLOCK ++ s) :=
      gathered_some hfront
    have hmin : min left TAR_BLOCK = TAR_BLOCK := Nat.min_eq_right (by omega)
    rw [dataAct, hmin, if_neg (by omega), take_take, Nat.min_self, ← append_assoc,
      take_append_drop] at hunit
    have hrest := @ih (n - TAR_BLOCK) (by omega) false (left - TAR_BLOCK)
      (blocks.drop TAR_BLOCK) (by rw [length_drop]; omega) (by omega) (by omega)
      (fun hlt => by have := hlast (by omega); rw [hB] at this ⊢; omega)
      (fun heq => by
        rw [drop_drop, Nat.add_sub_cancel' (by omega)]
        exact hpad (by omega))
    have hiff : n - TAR_BLOCK = left - TAR_BLOCK ↔ n = left := by omega
    have hleft : left - TAR_BLOCK - (n - TAR_BLOCK) = left - n := by omega
    have htake : blocks.take n =
        blocks.take TAR_BLOCK ++ (blocks.drop TAR_BLOCK).take (n - TAR_BLOCK) := by
      rw [← take_add, Nat.add_sub_cancel' (by omega)]
    simp only [hiff, hleft] at hrest
    rw [htake, map_append, append_assoc]
    exact .cons hunit hrest

theorem padding_good {first : Bool} {left room : ℕ} {blocks s : List UInt8}
    (hgood : UnitsGood (tarUnit un) (GoodUnit un) ⟨room, .data first left⟩ (blocks ++ s))
    (hblocks : blocks.length = alignCeil left TAR_BLOCK) (hleft : TAR_BLOCK < left) :
    (blocks.drop left).dropWhile (· == 0) = [] := by
  have hB : TAR_BLOCK = 512 := rfl
  obtain ⟨m, hm⟩ : ∃ m, m = (left - 1) / TAR_BLOCK * TAR_BLOCK := ⟨_, rfl⟩
  rw [alignCeil_eq (by omega), Nat.add_mul, ← hm, Nat.one_mul] at hblocks
  have hmod : m % TAR_BLOCK = 0 := by rw [hm, Nat.mul_mod_left]
  have hlt : m < left := by rw [hB] at hm; omega
  have hpos : m ≠ 0 := by rw [hB] at hm hleft; omega
  have hle : left - m ≤ TAR_BLOCK := by rw [hB] at hm ⊢; omega
  have hceil : alignCeil m TAR_BLOCK = m := by
    rw [alignCeil_eq hpos]
    rw [hB] at hmod ⊢
    omega
  have hfront : (blocks.take m).length = alignCeil m TAR_BLOCK := by
    rw [length_take, hceil]
    omega
  have ht := @takes_data un first left m room (blocks.take m) (blocks.drop m ++ s) hfront (by omega)
    hpos (fun _ => hmod) (fun hno => absurd hno (by omega))
  rw [← append_assoc, take_append_drop, if_neg (by omega : m ≠ left),
    if_neg (by omega : m ≠ left)] at ht
  have hlast : (blocks.drop m).length = TAR_BLOCK := by
    rw [length_drop]
    omega
  have hunit : tarUnit un ⟨room, .data false (left - m)⟩ (blocks.drop m ++ s) = some _ :=
    gathered_some hlast
  have hpad := unitsGood_head (isUnit_tarUnit un) hunit (ht.unitsGood (isUnit_tarUnit un) hgood)
    rfl hle
  rwa [take_left' hlast, drop_drop, Nat.add_sub_cancel' hlt.le] at hpad

/-- **Blocks of data** -/
theorem dataOut_keeps {n : ℕ} {blocks : List UInt8} (hst : t.state = .data) (hfin : t.fin = fin)
    (h : Idle t a) (ha : Awaits t .dataBlk a.phase)
    (hgood : UnitsGood (tarUnit un) (GoodUnit un) a (blocks ++ d))
    (hblocks : blocks.length = alignCeil n TAR_BLOCK) (hn : n ≤ t.fsize) (hpos : n ≠ 0)
    (hlast : n < t.fsize → n % TAR_BLOCK = 0) {k : ℕ} (hk : 4 * d.length + 1 < k) :
    Keeps un fin a (blocks ++ d) [] k (dataOut t d blocks n) := by
  obtain ⟨hlong, hsize, hle, hph⟩ := ha
  obtain ⟨room, ph⟩ := a
  obtain rfl : ph = _ := hph
  unfold dataOut
  by_cases hend : t.fsize - n = 0
  · obtain rfl : n = t.fsize := by omega
    simp only [hend, if_true]
    by_cases hpad : (blocks.drop t.fsize).dropWhile (· == 0) ≠ []
    · have hone : t.fsize ≤ TAR_BLOCK :=
        Nat.le_of_not_lt fun hlt => hpad (padding_good hgood hblocks hlt)
      have hlen : blocks.length = TAR_BLOCK := by
        rw [hblocks, alignCeil_eq hpos]
        simp only [TAR_BLOCK] at hone ⊢
        omega
      have hunit : tarUnit un ⟨room, .data (t.fsize == t.file.size) t.fsize⟩ (blocks ++ d) =
          some ((dataAct room t.fsize blocks).1, (dataAct room t.fsize blocks).2, d) :=
        gathered_some hlen
      rw [dataAct, Nat.min_eq_left hone, if_pos (Nat.sub_self _), if_pos hpad] at hunit
      rw [if_pos hpad]
      exact .inr ⟨[], _, _, rfl, .refl, .inr ⟨rfl, .inl ⟨d, hunit⟩⟩⟩
    · have ht := @takes_data un (t.fsize == t.file.size) t.fsize t.fsize room blocks d hblocks le_rfl
        hpos (fun hno => absurd hno (lt_irrefl _)) (fun _ => by simpa using hpad)
      rw [if_pos rfl, if_pos rfl] at ht
      rw [if_neg hpad]
      exact .inl ⟨rfl, by simp [rank]; omega, _, _, rfl, ht, hfin, ⟨h.room, h.name, h.buf⟩, hlong, rfl⟩
  have hne : n ≠ t.fsize := by omega
  have ht := @takes_data un (t.fsize == t.file.size) t.fsize n room blocks d hblocks hn hpos hlast
    (fun hno => absurd hno hne)
  rw [if_neg hne, if_neg hne, append_nil] at ht
  simp only [hend, if_false]
  refine .inl ⟨rfl, by simp [rank, hst]; omega, (blocks.take n).map Ev.byte,
    ⟨room, .data false (t.fsize - n)⟩, ?_, ?_, hfin, ?_⟩
  · simp [Fftar.owed, hst, FftarR.ev]
  · simpa [Fftar.held, hst] using ht
  unfold At
  simp only [hst]
  refine ⟨⟨h.room, h.name, h.buf⟩, hlong, hend, Nat.le_trans (Nat.sub_le _ _) hle, ?_⟩
  have hfirst : (t.fsize - n == t.file.size) = false := by
    rw [beq_eq_false_iff_ne]
    omega
  simp only [hfirst]

/-- **`R_DATA`** -/
theorem caseData_keeps (hst : t.state = .data) (hfin : t.fin = fin) (h : Idle t a)
    (ha : Awaits t .dataBlk a.phase) (hgood : UnitsGood (tarUnit un) (GoodUnit un) a d) {k : ℕ}
    (hk : 4 * d.length < k) : Keeps un fin a d [] k (caseData t d) := by
  unfold caseData
  by_cases hzero : d.length = 0
  · obtain rfl := length_eq_zero_iff.mp hzero
    rw [if_pos hzero]
    refine .inr ⟨[], a, [], rfl, .refl, .inl ⟨rfl, ⟨hfin, ?_⟩, ?_, ?_, ?_, ?_, nil_suffix⟩⟩
    · unfold At
      rw [hst]
      exact ⟨h, ha⟩
    · rw [Fftar.held, hst]
    · rw [Fftar.owed, hst, if_neg (by decide)]
    · exact gathered_none.mpr (need_pos a)
    · exact endOf_of_ne (by rw [ha.2.2.2]; simp) _
  rw [if_neg hzero]
  by_cases hfew : d.length < TAR_BLOCK
  · rw [if_pos hfew]
    exact gather_again (u := { t with state := .gather, nxstate := .dataBlk }) (b := a) rfl hfin
      ⟨h.room, h.name, h.buf⟩ ha (by simp) .refl hk
  rw [if_neg hfew]
  obtain ⟨hlong, hsize, hle, hph⟩ := ha
  obtain ⟨n, hn⟩ : ∃ n, n = min t.fsize (alignFloor d.length TAR_BLOCK) := ⟨_, rfl⟩
  have hB : TAR_BLOCK = 512 := rfl
  have hfloor : alignFloor d.length TAR_BLOCK ≤ d.length ∧ alignFloor d.length TAR_BLOCK ≠ 0 ∧
      alignFloor d.length TAR_BLOCK % TAR_BLOCK = 0 := by
    simp only [alignFloor, hB] at hfew ⊢
    omega
  have hpos : n ≠ 0 := by omega
  have hceil : alignCeil n TAR_BLOCK ≤ d.length := by
    simp only [alignCeil, alignFloor, hB] at hn hfew ⊢
    omega
  have hceil0 : alignCeil n TAR_BLOCK ≠ 0 := by
    rw [alignCeil_eq hpos]
    exact Nat.ne_of_gt (Nat.mul_pos (Nat.succ_pos _) (by decide))
  have hsplit := take_append_drop (alignCeil n TAR_BLOCK) d
  have hkeeps := @dataOut_keeps un fin t a (d.drop (alignCeil n TAR_BLOCK)) n
    (d.take (alignCeil n TAR_BLOCK)) hst hfin h ⟨hlong, hsize, hle, hph⟩ (by rwa [hsplit])
    (length_take_of_le hceil) (by omega) hpos (fun hlt => by
      rw [show n = alignFloor d.length TAR_BLOCK by omega]
      exact hfloor.2.2) k (by rw [length_drop]; omega)
  rw [hsplit] at hkeeps
  simp only [← hn]
  exact hkeeps

/-- **`R_DATA_BLK`** -/
theorem caseDataBlk_keeps (hfin : t.fin = fin) (h : Idle t a)
    (hb : t.block.length = TAR_BLOCK) (ha : Awaits t .dataBlk a.phase)
    (hgood : UnitsGood (tarUnit un) (GoodUnit un) a (t.block ++ d)) {k : ℕ}
    (hk : 4 * d.length + 1 < k) : Keeps un fin a (t.block ++ d) [] k (caseDataBlk t d) := by
  have hB : TAR_BLOCK = 512 := rfl
  obtain ⟨hlong, hsize, hle, hph⟩ := ha
  obtain ⟨n, hn⟩ : ∃ n, n = min t.fsize TAR_BLOCK := ⟨_, rfl⟩
  rw [caseDataBlk, ← hn]
  rw [hB] at hn
  refine @dataOut_keeps un fin { t with state := .data } a d n t.block rfl hfin
    ⟨h.room, h.name, h.buf⟩ ⟨hlong, hsize, hle, hph⟩ hgood ?_ ?_ (by omega) ?_ k hk
  · rw [hb]
    simp only [alignCeil, hB]
    omega
  · show n ≤ t.fsize
    omega
  · intro hlt
    have hlt' : n < t.fsize := hlt
    rw [hB]
    omega

/-- **The passes follow the units.** -/
theorem follows (halloc : ∀ n, alloc n = true) (un : Unset) (fin : Bool) :
    Follows (fftarPass alloc un) FftarR.verdict FftarR.ev (tarUnit un) (GoodUnit un) (endOf fin)
      (fun t a => t.fin = fin ∧ At t a) Fftar.held Fftar.owed rank where
  isUnit := isUnit_tarUnit un
  more r hr := by
    cases r <;> first | rfl | cases hr
  keeps {t a d} h hgood := by
    obtain ⟨hfin, hat⟩ := h
    have howed : t.state ≠ .fdone → t.owed = [] := fun hne => if_neg hne
    unfold fftarPass
    unfold At at hat
    cases hst : t.state with
    | init =>
      rw [hst] at hat
      obtain ⟨rfl, hbuf, hlong⟩ := hat
      rw [howed (by simp [hst])]
      have hheld : t.held = [] := by rw [Fftar.held, hst]
      have hreal : ffarrRealloc alloc .null (100 + 1 + 155 + 1) =
          some (.own [] (100 + 1 + 155 + 1)) := by
        simp [ffarrRealloc, halloc, Ffarr.null, Ffarr.cap, Ffarr.bytes]
      simp only [caseInit, hreal, hheld, nil_append]
      exact gather_again
        (u := { t with name := .own [] (100 + 1 + 155 + 1), state := .gather, nxstate := .hdr })
        (b := .start) rfl hfin ⟨le_rfl, ⟨rfl, rfl⟩, hbuf⟩ (by simp [Awaits, hlong, Arch.start])
        (by simp) .refl (by simp [rank, hst])
    | gather =>
      rw [hst] at hat
      obtain ⟨l, hbuf, hl, hroom, hname, hawaits, hne⟩ := hat
      have hheld : t.held = l := by
        rw [Fftar.held, hst]
        exact hbuf.1
      rw [howed (by simp [hst]), hheld]
      exact caseGather_keeps halloc hfin hbuf hl hroom hname hawaits
        (fun hnx => append_ne_nil_of_left_ne_nil (hne hnx) d) hst (by simp [rank])
    | hdr =>
      rw [hst] at hat
      obtain ⟨h, hb, ha⟩ := hat
      have hheld : t.held = t.block := by rw [Fftar.held, hst]
      rw [hheld] at hgood ⊢
      rw [howed (by simp [hst])]
      have hunit : tarUnit un a (t.block ++ d) = some _ :=
        gathered_some (hb.trans (need_of_awaits ha).symm)
      exact caseHdr_keeps halloc hfin h hb ha (unitsGood_head (isUnit_tarUnit un) hunit hgood)
        (by simp [rank, hst])
    | longName =>
      rw [howed (by simp [hst])]
      exact caseLongName_keeps halloc hst hfin (by unfold At; rw [hst]; rwa [hst] at hat)
        (by simp [rank, hst])
    | skip =>
      rw [hst] at hat
      obtain ⟨h, hb, ha⟩ := hat
      have hheld : t.held = t.block := by rw [Fftar.held, hst]
      rw [hheld, howed (by simp [hst])]
      exact caseSkip_keeps hfin h hb ha (by simp [rank, hst])
    | data =>
      rw [hst] at hat
      obtain ⟨h, ha⟩ := hat
      have hheld : t.held = [] := by rw [Fftar.held, hst]
      rw [hheld] at hgood ⊢
      rw [howed (by simp [hst])]
      exact caseData_keeps hst hfin h ha hgood (by simp [rank, hst])
    | dataBlk =>
      rw [hst] at hat
      obtain ⟨h, hb, ha⟩ := hat
      have hheld : t.held = t.block := by rw [Fftar.held, hst]
      rw [hheld] at hgood ⊢
      rw [howed (by simp [hst])]
      exact caseDataBlk_keeps hfin h hb ha hgood (by simp [rank, hst])
    | fdone =>
      rw [hst] at hat
      obtain ⟨h, hlong, hph⟩ := hat
      have hheld : t.held = [] := by rw [Fftar.held, hst]
      have hbuf : t.buf.bytes = [] := h.buf.1
      refine .inl ⟨rfl, by simp [rank, hst], [], a, by simp [Fftar.owed, hst, FftarR.ev], ?_, hfin,
        [], h.buf, by decide, h.room, h.name, by simp [Awaits, hlong, hph], fun hno => by cases hno⟩
      show Takes _ _ _ _ _ (t.buf.bytes ++ d)
      rw [hheld, hbuf]
      exact .refl
    | fin =>
      rw [hst] at hat
      obtain ⟨h, hb, ha⟩ := hat
      have hheld : t.held = t.block := by rw [Fftar.held, hst]
      rw [hheld, howed (by simp [hst])]
      have hph : a.phase = .fin := ha
      exact caseFin_keeps halloc hfin h (hb.trans (need_of_awaits ha).symm) (by rw [act, hph])
        (by simp [rank])
    | fin2 =>
      rw [hst] at hat
      obtain ⟨h, hph⟩ := hat
      have hheld : t.held = [] := by rw [Fftar.held, hst]
      rw [hheld, howed (by simp [hst])]
      exact caseFin2_keeps halloc hst hfin h hph (by simp [rank])

end Passes

/-! ### Runs -/

theorem at_fin {t : Fftar} {a : Arch} (h : At t a) : At (fftarFin t) a := by
  obtain ⟨st, nx, file, fsize, buf, block, name, str, fin, long⟩ := t
  have hidle : ∀ {t : Fftar}, Idle t a → Idle (fftarFin t) a := fun h => ⟨h.room, h.name, h.buf⟩
  cases st with
  | init | gather | longName => exact h
  | data | fdone | fin2 | hdr | skip | dataBlk | fin => exact ⟨hidle h.1, h.2⟩

/-- **The calls with the chunks of a good archive** give what the archive means. Where more input is
wanted, all that was given has been collected. -/
theorem readAll_eq {alloc : ℕ → Bool} (halloc : ∀ n, alloc n = true) (un : Unset) (fin : Bool)
    {cs : List (List UInt8)} (hcs : cs ≠ []) (hgood : GoodArchive un cs.flatten) :
    ∃ rs, readAll alloc un fin .zero cs = some rs ∧ results rs = archive un fin cs.flatten ∧
      ∀ x ∈ rs, x.code.verdict = .more → x.left <:+ x.state.held := by
  have hstart : At Fftar.zero .start := ⟨rfl, ⟨rfl, rfl⟩, rfl⟩
  refine Follows.drains_eq (follows halloc un false) (follows halloc un fin) ?_ goodUnit_front ?_ ?_
    hcs ⟨rfl, hstart⟩ rfl hgood
  · intro r hr
    cases r <;> first | exact cons_ne_nil _ _ | cases hr
  · rintro t a ⟨hfin, hat⟩
    cases fin with
    | false => exact ⟨⟨hfin, hat⟩, rfl, rfl⟩
    | true => exact ⟨⟨rfl, at_fin hat⟩, rfl, rfl⟩
  · intro t a d _
    rw [rank, fuel]
    split <;> omega

end Tar

end FF
