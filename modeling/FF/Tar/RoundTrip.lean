import FF.Tar.Blocks
import FF.Tar.Write

/-!
# What has been written is read back

An archive that has been written is a good one, and it means the files that it has been written
for. So the reader gives these files, however the archive is divided.
-/

namespace FF

namespace Tar

open List

open Path

section Written

variable {un : Unset} {room : ℕ} {s : List UInt8}

theorem data_good {first : Bool} {left : ℕ} {blocks : List UInt8}
    (hblocks : blocks.length = alignCeil left TAR_BLOCK) (hpos : left ≠ 0)
    (hpad : (blocks.drop left).dropWhile (· == 0) = [])
    (hs : UnitsGood (tarUnit un) (GoodUnit un) ⟨room, .hdr none⟩ s) :
    UnitsGood (tarUnit un) (GoodUnit un) ⟨room, .data first left⟩ (blocks ++ s) := by
  have hB : TAR_BLOCK = 512 := rfl
  induction left using Nat.strong_induction_on generalizing first blocks with
  | _ left ih =>
    by_cases hone : left ≤ TAR_BLOCK
    · have hlen : blocks.length = TAR_BLOCK := by
        rw [hblocks, alignCeil_eq hpos, hB]
        omega
      have hunit : tarUnit un ⟨room, .data first left⟩ (blocks ++ s) =
          some ((dataAct room left blocks).1, (dataAct room left blocks).2, s) :=
        gathered_some hlen
      rw [dataAct, Nat.min_eq_left hone, if_pos (Nat.sub_self left), if_neg (by simpa using hpad)]
        at hunit
      refine (unitsGood_some (isUnit_tarUnit un) hunit).mpr ⟨?_, hs⟩
      intro _ _
      rw [take_left' hlen]
      exact hpad
    have hfront : (blocks.take TAR_BLOCK).length = TAR_BLOCK := by
      rw [length_take, hblocks, alignCeil_eq hpos]
      rw [hB] at hone ⊢
      omega
    have hunit : tarUnit un ⟨room, .data first left⟩
        (blocks.take TAR_BLOCK ++ (blocks.drop TAR_BLOCK ++ s)) =
        some ((dataAct room left (blocks.take TAR_BLOCK)).1,
          (dataAct room left (blocks.take TAR_BLOCK)).2, blocks.drop TAR_BLOCK ++ s) :=
      gathered_some hfront
    rw [dataAct, Nat.min_eq_right (by omega), if_neg (by omega), ← append_assoc,
      take_append_drop] at hunit
    refine (unitsGood_some (isUnit_tarUnit un) hunit).mpr ⟨fun _ hle => absurd hle hone, ?_⟩
    refine ih (left - TAR_BLOCK) (by omega) ?_ (by omega) ?_
    · rw [length_drop, hblocks]
      simp only [alignCeil, hB]
      omega
    · rw [drop_drop, Nat.add_sub_cancel' (by omega)]
      exact hpad

theorem length_blocks (n : ℕ) : n + padLen n = alignCeil n TAR_BLOCK := by
  unfold padLen alignCeil TAR_BLOCK
  split <;> omega

/-- What is given for a file. -/
def fileEvents (p : FftarFile × List (List UInt8)) : List Ev :=
  .file (stored p.1) :: (p.2.flatten.map Ev.byte ++ [Ev.filedone])

/-- **A file that has been written** means the file, and is good. -/
theorem file_takes {p : FftarFile × List (List UInt8)} (hacc : Accepted p.1) (hst : Storable p.1)
    (hlen : p.2.flatten.length = p.1.size) (hroom : 100 + 1 ≤ room) :
    Takes (tarUnit un) ⟨room, .hdr none⟩ (fileBytes p ++ s) (fileEvents p) ⟨room, .hdr none⟩ s ∧
      (UnitsGood (tarUnit un) (GoodUnit un) ⟨room, .hdr none⟩ s →
        UnitsGood (tarUnit un) (GoodUnit un) ⟨room, .hdr none⟩ (fileBytes p ++ s)) := by
  obtain ⟨f, cs⟩ := p
  obtain ⟨b, chk, hb, hchk, hblock, hsum⟩ := hdr_block hacc hst
  obtain ⟨hblen, hfirst, hname, hparse⟩ := hdr_read hacc hst hchk hblock hsum un
  obtain ⟨blocks, hblocks⟩ : ∃ blocks, blocks =
      cs.flatten ++ List.replicate (padLen cs.flatten.length) 0 := ⟨_, rfl⟩
  have hbytes : fileBytes (f, cs) ++ s = b ++ (blocks ++ s) := by
    rw [fileBytes, hdrOf, hb, hblocks, append_assoc]
  have hlen' : blocks.length = alignCeil f.size TAR_BLOCK := by
    rw [hblocks, length_append, length_replicate, hlen, length_blocks]
  have hunit : tarUnit un ⟨room, .hdr none⟩ (b ++ (blocks ++ s)) =
      some ((hdrAct un room none b).1, (hdrAct un room none b).2, blocks ++ s) :=
    gathered_some hblen
  have htype : f.stype ≠ FFTAR_LONG ∧ isExt f.stype = false ∧ (noData f.stype = true → f.size = 0) := by
    unfold FftarFile.stype
    cases hdir : f.isDir with
    | true => exact ⟨by decide, by decide, fun _ => hst.dir hdir⟩
    | false => exact ⟨by decide, by decide, fun h => absurd h (by decide)⟩
  have hgood : GoodUnit un ⟨room, .hdr none⟩ (b ++ (blocks ++ s)) := by
    unfold GoodUnit
    rw [take_left' hblen]
    refine .inr ⟨fun _ => Nat.le_trans hname hroom, ?_⟩
    rw [hparse]
    rintro (h | h)
    · exact absurd h htype.1
    · exact absurd h (by rw [show (stored f).type = f.stype from rfl, htype.2.1]; decide)
  have hact : hdrAct un room none b = fileAct room (stored f) := by
    rw [hdrAct, if_neg hfirst, hparse]
  rw [hact] at hunit
  unfold fileAct at hunit
  have hno : ¬(noData (stored f).type = true ∧ (stored f).size ≠ 0) := fun h => h.2 (htype.2.2 h.1)
  have hext : ¬isExt (stored f).type = true := by
    rw [show (stored f).type = f.stype from rfl, htype.2.1]
    decide
  rw [if_neg hno, if_neg (show ¬(stored f).type = FFTAR_LONG from htype.1), if_neg hext] at hunit
  rw [hbytes]
  by_cases hzero : f.size = 0
  · rw [if_pos (show (stored f).size = 0 from hzero)] at hunit
    have hnil : cs.flatten = [] := length_eq_zero_iff.mp (hlen.trans hzero)
    have hempty : blocks = [] := by
      rw [hblocks, hnil]
      rfl
    rw [hempty, nil_append] at hunit hgood ⊢
    constructor
    · rw [fileEvents, hnil]
      exact .one hunit
    · intro h
      exact (unitsGood_some (isUnit_tarUnit un) hunit).mpr ⟨hgood, h⟩
  rw [if_neg (show ¬(stored f).size = 0 from hzero)] at hunit
  have htake : blocks.take f.size = cs.flatten := by
    rw [hblocks, take_left' hlen]
  have hpad : (blocks.drop f.size).dropWhile (· == 0) = [] := by
    rw [hblocks, drop_left' hlen]
    refine dropWhile_eq_nil_iff.mpr fun x hx => ?_
    rw [eq_of_mem_replicate hx]
    rfl
  constructor
  · have hdata := @takes_data un true f.size f.size room blocks s hlen' le_rfl hzero
      (fun hno => absurd hno (lt_irrefl _)) (fun _ => hpad)
    rw [if_pos rfl, if_pos rfl, htake] at hdata
    exact .cons hunit hdata
  · intro h
    exact (unitsGood_some (isUnit_tarUnit un) hunit).mpr ⟨hgood, data_good hlen' hzero hpad h⟩

theorem end_takes : Takes (tarUnit un) ⟨room, .hdr none⟩ (List.replicate TAR_ENDDATA 0) []
      ⟨room, .fin⟩ [] ∧
    UnitsGood (tarUnit un) (GoodUnit un) ⟨room, .hdr none⟩ (List.replicate TAR_ENDDATA 0) := by
  obtain ⟨z, hz⟩ : ∃ z : List UInt8, z = List.replicate TAR_BLOCK 0 := ⟨_, rfl⟩
  have hlen : z.length = TAR_BLOCK := by rw [hz, length_replicate]
  have hthree : List.replicate TAR_ENDDATA (0 : UInt8) = z ++ (z ++ (z ++ [])) := by
    rw [hz, append_nil, ← replicate_add, ← replicate_add]
    rfl
  have hfirst : z.getD 0 0 = 0 := by rw [hz]; rfl
  have hfin : finAct room z = ([], some ⟨room, .fin⟩) := by
    have hempty : z.dropWhile (· == 0) = [] := by
      refine dropWhile_eq_nil_iff.mpr fun x hx => ?_
      rw [hz] at hx
      rw [eq_of_mem_replicate hx]
      rfl
    rw [finAct, hempty, if_neg (by simp)]
  have hhdr : ∀ s, tarUnit un ⟨room, .hdr none⟩ (z ++ s) = some ([], some ⟨room, .fin⟩, s) := by
    intro s
    have h : tarUnit un ⟨room, .hdr none⟩ (z ++ s) =
        some ((hdrAct un room none z).1, (hdrAct un room none z).2, s) := gathered_some hlen
    rwa [hdrAct, if_pos hfirst, hfin] at h
  have hend : ∀ s, tarUnit un ⟨room, .fin⟩ (z ++ s) = some ([], some ⟨room, .fin⟩, s) := by
    intro s
    have h : tarUnit un ⟨room, .fin⟩ (z ++ s) = some ((finAct room z).1, (finAct room z).2, s) :=
      gathered_some hlen
    rwa [hfin] at h
  have hu := isUnit_tarUnit un
  rw [hthree]
  constructor
  · exact .cons (hhdr _) (.cons (hend _) (.one (hend _)))
  · refine (unitsGood_some hu (hhdr _)).mpr ⟨.inl ?_, (unitsGood_some hu (hend _)).mpr ⟨trivial,
      (unitsGood_some hu (hend _)).mpr ⟨trivial, trivial⟩⟩⟩
    rw [take_left' hlen]
    exact hfirst

/-- **An archive that has been written** means its files, and is good. -/
theorem archive_takes {fs : List (FftarFile × List (List UInt8))}
    (hfs : ∀ p ∈ fs, Accepted p.1 ∧ Storable p.1 ∧ p.2.flatten.length = p.1.size)
    (hroom : 100 + 1 ≤ room) :
    Takes (tarUnit un) ⟨room, .hdr none⟩ (archiveBytes fs) (fs.flatMap fileEvents) ⟨room, .fin⟩ [] ∧
      UnitsGood (tarUnit un) (GoodUnit un) ⟨room, .hdr none⟩ (archiveBytes fs) := by
  induction fs with
  | nil => exact end_takes
  | cons p fs ih =>
    obtain ⟨⟨hacc, hst, hlen⟩, hfs⟩ := forall_mem_cons.mp hfs
    obtain ⟨ht, hgood⟩ := ih hfs
    obtain ⟨ht', hgood'⟩ := @file_takes un room (archiveBytes fs) p hacc hst hlen hroom
    have hbytes : archiveBytes (p :: fs) = fileBytes p ++ archiveBytes fs := by
      rw [archiveBytes, archiveBytes, flatMap_cons, append_assoc]
    rw [hbytes, flatMap_cons]
    exact ⟨ht'.trans ht, hgood' hgood⟩

end Written

/-- A name that is stored as it is: it is normalized, and that of a directory ends with a slash. -/
def Normalized (f : FftarFile) : Prop :=
  ffpathNorm 100 f.name nameFlags = .ok f.name ∧ addslash f = []

/-- **What has been written is read back**, however the archive is divided: each file with its
permissions, owners, size and time and with its data, and in the end `FFTAR_DONE`. A name is read
back as it has been stored. -/
theorem fftarRead_written {alloc : ℕ → Bool} (halloc : ∀ n, alloc n = true) (un : Unset)
    {fs : List (FftarFile × List (List UInt8))}
    (hfs : ∀ p ∈ fs, Accepted p.1 ∧ Storable p.1 ∧ p.2.flatten.length = p.1.size) :
    ∃ out, writeFiles .create fs = some out ∧
      (∀ cs, cs.flatten = out → ∃ rs, readAll alloc un true .zero cs = some rs ∧
        results rs = fs.flatMap fileEvents ++ [.done]) ∧
      ∀ p ∈ fs, Normalized p.1 → (stored p.1).name = p.1.name := by
  refine ⟨archiveBytes fs, writeFiles_eq rfl hfs, ?_, ?_⟩
  · intro cs hcs
    obtain ⟨ht, hgood⟩ := @archive_takes un (100 + 1 + 155 + 1) fs hfs (by decide)
    have hne : cs ≠ [] := by
      rintro rfl
      have hlen := congrArg List.length hcs
      rw [archiveBytes, length_append, length_replicate, TAR_ENDDATA, TAR_BLOCK] at hlen
      simp at hlen
    rw [← hcs] at ht hgood
    obtain ⟨rs, hrs, hmeans, -⟩ := readAll_eq halloc un true hne hgood
    refine ⟨rs, hrs, hmeans.trans ?_⟩
    have hend : tarUnit un ⟨100 + 1 + 155 + 1, .fin⟩ [] = none := gathered_none.mpr (need_pos _)
    rw [archive, archiveFrom, Arch.start, meaning_takes (isUnit_tarUnit un) ht, meaning_none hend]
    rfl
  · rintro p - ⟨hnorm, hslash⟩
    show storedName p.1 = p.1.name
    rw [storedName, hnorm]
    simp only [hslash, append_nil]

/-- A file of one byte -/
def oneByteFile : FftarFile :=
  { FftarFile.zero with name := [0x61], mode := 0o644, uid := 0o10000000, size := 1 }

theorem fftarRead_written_oneByte :
    ∃ out, writeFiles .create [(oneByteFile, [[0x78], []])] = some out ∧
      ∀ cs, cs.flatten = out → ∃ rs, readAll (fun _ => true) ⟨0, 0⟩ true .zero cs = some rs ∧
        results rs = [.file (stored oneByteFile), .byte 0x78, .filedone, .done] := by
  have hacc : Accepted oneByteFile := ⟨hdrOf oneByteFile, by decide +kernel⟩
  have howner : ∀ s : List UInt8, none = some s → s.length < 32 ∧ ∀ c ∈ s, c ≠ 0 := by
    intro s h
    cases h
  have hst : Storable oneByteFile := ⟨by decide +kernel, by decide, by decide,
    by decide, by decide, howner, howner, by decide⟩
  obtain ⟨out, hout, hread, -⟩ := @fftarRead_written (fun _ => true) (fun _ => rfl) ⟨0, 0⟩
    [(oneByteFile, [[0x78], []])] (by
      rintro p hp
      obtain rfl := mem_singleton.mp hp
      exact ⟨hacc, hst, rfl⟩)
  exact ⟨out, hout, hread⟩

/-- A directory whose name has no slash at the end. -/
def plainDir : FftarFile := { FftarFile.zero with name := [0x64], mode := FFUNIX_FILE_DIR }

/-- The name of a directory is read back with the slash that the writer adds. -/
theorem fftarRead_plainDir :
    ∃ out rs, writeFiles .create [(plainDir, [])] = some out ∧
      readAll (fun _ => true) ⟨0, 0⟩ true .zero [out] = some rs ∧
      (results rs).head? = some (.file { stored plainDir with name := [0x64, 0x2f] }) ∧
      plainDir.name = [0x64] := by
  have hrun : ((writeFiles .create [(plainDir, [])]).bind fun out =>
      (readAll (fun _ => true) ⟨0, 0⟩ true .zero [out]).bind fun rs => (results rs).head?) =
      some (.file { stored plainDir with name := [0x64, 0x2f] }) := by
    decide +kernel
  obtain ⟨out, hout, hrest⟩ := Option.bind_eq_some_iff.mp hrun
  obtain ⟨rs, hrs, hhead⟩ := Option.bind_eq_some_iff.mp hrest
  exact ⟨out, rs, hout, hrs, hhead, rfl⟩

end Tar

end FF
