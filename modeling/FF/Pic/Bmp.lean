import FF.Ffarr
import FF.Ffstring
import FF.Lib.Fields
import FF.Lib.Runs

/-!
# BMP files

`FF/pic/ffbmp.c`. The lines of an image stand in the file from the bottom to the top, each with
padding up to a multiple of four bytes. The writer makes headers, lines and padding, and asks for
seeks between the lines, unless they come from the bottom to the top; the reader asks for a seek in
front of each line.

The file and its position belong to the caller (`BmpOut`, `BmpIn`).
-/

namespace FF

/-! ### Headers -/

/-- `FFPIC_BGR` of `enum FFPIC_FMT`. -/
def FFPIC_BGR : ℕ := 24 + 0x100

/-- `FFPIC_ABGR`. -/
def FFPIC_ABGR : ℕ := 32 + 0x100 + 0x200

/-- `ffpic_bits`. -/
def ffpicBits (fmt : ℕ) : ℕ := fmt % 256

/-- `ffpic_info`. -/
structure FfpicInfo where
  width : ℕ
  height : ℕ
  format : ℕ
  deriving DecidableEq, Repr

/-- `enum FFBMP_E`. -/
inductive BmpE
  | fmt
  | line
  | inv
  | comp
  | hdr4
  | sys
  deriving DecidableEq, Repr

/-- `enum FFBMP_R`. -/
inductive BmpR
  | err (e : BmpE)
  | more
  | done
  | hdr
  | data
  | seek
  deriving DecidableEq, Repr

/-- `COMP_NONE` of `enum COMP`. -/
def COMP_NONE : ℕ := 0

/-- `COMP_BITFIELDS`. -/
def COMP_BITFIELDS : ℕ := 3

/-- `sizeof(struct bmp_hdr)`. -/
def BMP_HDR : ℕ := 54

/-- `sizeof(struct bmp_hdr4)`. -/
def BMP_HDR4 : ℕ := 68

/-- `ff_align_ceil2` with 4. -/
def bmpAlign (n : ℕ) : ℕ := (n + 3) / 4 * 4

/-- The size of a line without padding. -/
def bmpLinesize (width bpp : ℕ) : ℕ := width * bpp % 2 ^ 32 / 8

/-- The place of a line, counted from the top. -/
def bmpSeekoff (dataoff height line linesize : ℕ) : ℕ :=
  (dataoff + (height + 2 ^ 33 - line - 1) % 2 ^ 32 * linesize) % 2 ^ 32

/-! ### Writing -/

/-- The states of `ffbmp_write`. -/
inductive BmpW
  | hdr
  | more
  | seek
  | data
  | pad
  deriving DecidableEq, Repr

/-- `ffbmp_cook`. -/
structure FfbmpCook where
  state : BmpW
  linesize : ℕ
  linesizeO : ℕ
  dataoff : ℕ
  data : List UInt8
  rgb : List UInt8
  line : ℕ
  seekoff : ℕ
  info : FfpicInfo
  inputReverse : Bool
  deriving DecidableEq, Repr

/-- `ffbmp_create`. -/
def ffbmpCreate (info : FfpicInfo) (inputReverse : Bool) : Except BmpE FfbmpCook :=
  if info.format = FFPIC_BGR ∨ info.format = FFPIC_ABGR then
    .ok ⟨.hdr, 0, 0, 0, [], [], 0, 0, info, inputReverse⟩
  else .error .fmt

/-- The second header, which `bmp_hdr_write` writes for `FFPIC_ABGR`. -/
def bmpHdr4 : List UInt8 :=
  let h := List.replicate BMP_HDR4 0
  let h := setBytes h 0 (beBytes 4 0x000000ff)
  let h := setBytes h 4 (beBytes 4 0x0000ff00)
  let h := setBytes h 8 (beBytes 4 0x00ff0000)
  let h := setBytes h 12 (beBytes 4 0xff000000)
  setBytes h 16 (ascii "BGRs")

/-- `bmp_hdr_write`: the headers. The number of bits is written with four bytes into a field of
two; those of the next field are written later or stay 0. -/
def bmpHdrWrite (info : FfpicInfo) (linesize : ℕ) : List UInt8 :=
  let h := List.replicate BMP_HDR 0
  let h := setBytes h 0 (ascii "BM")
  let h := setBytes h 18 (leBytes 4 info.width)
  let h := setBytes h 22 (leBytes 4 info.height)
  let h := setBytes h 28 (leBytes 4 (ffpicBits info.format))
  let h := setBytes h 26 (leBytes 2 1)
  let h := setBytes h 34 (leBytes 4 (info.height * linesize))
  let abgr := decide (info.format = FFPIC_ABGR)
  let hdrsize := if abgr then BMP_HDR + BMP_HDR4 else BMP_HDR
  let h := if abgr then setBytes h 30 (leBytes 4 COMP_BITFIELDS) ++ bmpHdr4 else h
  let h := setBytes h 14 (leBytes 4 (hdrsize - 14))
  let h := setBytes h 10 (leBytes 4 hdrsize)
  setBytes h 2 (leBytes 4 (hdrsize + info.height * linesize))

/-- A pass of the loop of `ffbmp_write`: what it returns, if it ends the call. -/
def bmpWriteStep (alloc : ℕ → Bool) (b : FfbmpCook) : Option BmpR × FfbmpCook :=
  match b.state with
  | .hdr =>
    if alloc (BMP_HDR + BMP_HDR4) then
      let linesizeO := bmpLinesize b.info.width (ffpicBits b.info.format)
      let hdr := bmpHdrWrite b.info (bmpAlign linesizeO)
      (some .data, { b with
        linesize := bmpAlign linesizeO
        linesizeO := linesizeO
        dataoff := hdr.length
        data := hdr
        state := .seek })
    else (some (.err .sys), b)
  | .seek =>
    if b.inputReverse then (none, { b with state := .data })
    else
      (some .seek, { b with
        state := .data
        seekoff := bmpSeekoff b.dataoff b.info.height b.line b.linesize })
  | .data =>
    if b.rgb.length < b.linesizeO then
      if b.rgb.length ≠ 0 then (some (.err .line), b) else (some .more, b)
    else
      (some .data, { b with
        data := b.rgb.take b.linesizeO
        rgb := b.rgb.drop b.linesizeO
        state := .pad })
  | .pad =>
    if b.linesize = b.linesizeO then (none, { b with state := .more })
    else
      (some .data, { b with
        data := List.replicate (b.linesize - b.linesizeO) 0
        state := .more })
  | .more =>
    let line := (b.line + 1) % 2 ^ 32
    if line = b.info.height then (some .done, { b with line := line })
    else (none, { b with line := line, state := .seek })

/-- Write into a file at a position, which may lie behind its end. -/
def fileWrite (file : List UInt8) (pos : ℕ) (bytes : List UInt8) : List UInt8 :=
  setBytes (file ++ List.replicate (pos - file.length) 0) pos bytes

/-- The writer, its file, and the input that it has not been given yet. -/
structure BmpOut where
  b : FfbmpCook
  file : List UInt8
  pos : ℕ
  input : List (List UInt8)

/-- A pass of the writer, and what the caller does then; the file is there at the end. -/
def bmpWriteMove (alloc : ℕ → Bool) (s : BmpOut) : List (Except BmpE (List UInt8)) × Option BmpOut :=
  match bmpWriteStep alloc s.b with
  | (none, b) => ([], some { s with b := b })
  | (some .data, b) =>
    ([], some { s with
      b := b
      file := fileWrite s.file s.pos b.data
      pos := s.pos + b.data.length })
  | (some .seek, b) => ([], some { s with b := b, pos := b.seekoff })
  | (some .more, b) =>
    match s.input with
    | [] => ([], none)
    | rgb :: input => ([], some { s with b := { b with rgb := rgb }, input := input })
  | (some .done, _) => ([.ok s.file], none)
  | (some (.err e), _) => ([.error e], none)
  | (some .hdr, _) => ([], none)

/-! ### Reading -/

/-- The states of `ffbmp_read`. -/
inductive BmpSt
  | gather
  | hdr
  | hdr4
  | seek
  | data
  | done
  deriving DecidableEq, Repr

/-- `ffbmp`. The bytes that have been gathered are those at `inbuf.ptr`; they stay there when its
length is reset. -/
structure Ffbmp where
  state : BmpSt
  nxstate : BmpSt
  data : List UInt8
  rgb : List UInt8
  inbuf : Ffarr
  gathered : List UInt8
  linesize : ℕ
  linesizeO : ℕ
  line : ℕ
  dataoff : ℕ
  gatherSize : ℕ
  seekoff : ℕ
  info : FfpicInfo
  deriving DecidableEq, Repr

/-- `GATHER`. -/
def Ffbmp.gather (b : Ffbmp) (nxstate : BmpSt) (len : ℕ) : Ffbmp :=
  { b with state := .gather, nxstate := nxstate, gatherSize := len }

/-- `ffbmp_open` of a zeroed reader. -/
def ffbmpOpen : Ffbmp :=
  Ffbmp.gather ⟨.gather, .gather, [], [], .null, [], 0, 0, 0, 0, 0, 0, ⟨0, 0, 0⟩⟩ .hdr BMP_HDR

/-- `bmp_hdr_read`: what it returns, and the reader. -/
def bmpHdrRead (b : Ffbmp) (h : List UInt8) : BmpR × Ffbmp :=
  if field h 0 2 ≠ ascii "BM" then (.err .inv, b)
  else
    let dataoff := leNat (field h 10 4)
    if dataoff < BMP_HDR then (.err .fmt, b)
    else
      let width := leNat (field h 18 4)
      let height := leNat (field h 22 4)
      let bpp := leNat (field h 28 2)
      let comp := leNat (field h 30 4)
      let linesizeO := bmpLinesize width bpp
      let b := { b with
        dataoff := dataoff
        linesizeO := linesizeO
        linesize := bmpAlign linesizeO
        info := ⟨width, height, b.info.format⟩ }
      if bpp = 24 then
        if comp ≠ COMP_NONE then (.err .comp, b)
        else (.hdr, { b with info := ⟨width, height, FFPIC_BGR⟩, state := .seek })
      else if bpp = 32 then
        if comp ≠ COMP_BITFIELDS then (.err .comp, b)
        else if dataoff < BMP_HDR + BMP_HDR4 then (.err .fmt, b)
        else
          (.more, Ffbmp.gather { b with info := ⟨width, height, FFPIC_ABGR⟩ } .hdr4 BMP_HDR4)
      else (.err .fmt, b)

/-- What the state `R_HDR4` checks. -/
def bmpHdr4Ok (h : List UInt8) : Bool :=
  beNat (field h 0 4) = 0x000000ff ∧ beNat (field h 4 4) = 0x0000ff00 ∧
    beNat (field h 8 4) = 0x00ff0000 ∧ beNat (field h 12 4) = 0xff000000 ∧
      field h 16 4 = ascii "BGRs"

/-- A pass of the loop of `ffbmp_read`: what it returns, if it ends the call. -/
def bmpReadStep (alloc : ℕ → Bool) (b : Ffbmp) : Option BmpR × Ffbmp :=
  match b.state with
  | .gather =>
    match ffarrAppendUntil alloc b.inbuf b.data b.gatherSize with
    | .fail | .assert => (some (.err .sys), b)
    | .more inbuf => (some .more, { b with inbuf := inbuf })
    | .done inbuf n =>
      (none, { b with
        gathered := inbuf.bytes
        data := b.data.drop n
        inbuf := inbuf.setLen 0
        state := b.nxstate })
  | .hdr =>
    match bmpHdrRead b b.gathered with
    | (.more, b) => (none, b)
    | (r, b) => (some r, b)
  | .hdr4 =>
    if bmpHdr4Ok b.gathered then (some .hdr, { b with state := .seek })
    else (some (.err .hdr4), b)
  | .seek =>
    (some .seek, Ffbmp.gather
      { b with seekoff := bmpSeekoff b.dataoff b.info.height b.line b.linesize } .data b.linesize)
  | .data =>
    let line := (b.line + 1) % 2 ^ 32
    (some .data, { b with
      rgb := b.gathered.take b.linesizeO
      line := line
      state := if line = b.info.height then .done else .seek })
  | .done => (some .done, b)

/-- What the reader returns to the caller. -/
inductive BmpEvent
  | hdr (info : FfpicInfo)
  | line (rgb : List UInt8)
  | done
  | err (e : BmpE)
  deriving DecidableEq, Repr

/-- The reader, the position in the file, and how often the file has been read. -/
structure BmpIn where
  b : Ffbmp
  pos : ℕ
  reads : ℕ

/-- The caller reads `n` bytes of the file, or as many as there are. -/
def BmpIn.read (file : List UInt8) (b : Ffbmp) (pos n reads : ℕ) : BmpIn :=
  ⟨{ b with data := field file pos n }, pos + (field file pos n).length, reads + 1⟩

/-- A pass of the reader, and what the caller does then: for more input, it reads some bytes; behind
a seek it reads some bytes, or none. How many they are each time is given by `sizes`. -/
def bmpReadMove (alloc : ℕ → Bool) (file : List UInt8) (sizes : ℕ → ℕ) (s : BmpIn) :
    List BmpEvent × Option BmpIn :=
  match bmpReadStep alloc s.b with
  | (none, b) => ([], some { s with b := b })
  | (some .more, b) =>
    if s.pos < file.length then ([], some (.read file b s.pos (sizes s.reads + 1) s.reads))
    else ([], none)
  | (some .seek, b) => ([], some (.read file b b.seekoff (sizes s.reads) s.reads))
  | (some .hdr, b) => ([.hdr b.info], some { s with b := b })
  | (some .data, b) => ([.line b.rgb], some { s with b := b })
  | (some .done, _) => ([.done], none)
  | (some (.err e), _) => ([.err e], none)

/-! ### Headers as bytes -/

/-- The fields of the first header. -/
def bmpHdrFields (info : FfpicInfo) (hdrsize comp linesize : ℕ) : List (List UInt8) :=
  [ascii "BM", leBytes 4 (hdrsize + info.height * linesize), List.replicate 4 0, leBytes 4 hdrsize,
    leBytes 4 (hdrsize - 14), leBytes 4 info.width, leBytes 4 info.height, leBytes 2 1,
    leBytes 2 (ffpicBits info.format), leBytes 4 comp, leBytes 4 (info.height * linesize),
    List.replicate 16 0]

/-- The fields of the second header. -/
def bmpHdr4Fields : List (List UInt8) :=
  [beBytes 4 0x000000ff, beBytes 4 0x0000ff00, beBytes 4 0x00ff0000, beBytes 4 0xff000000,
    ascii "BGRs", List.replicate 48 0]

theorem bmpHdr4_eq : bmpHdr4 = bmpHdr4Fields.flatten := by
  decide

/-- The widths of the fields of the first header. -/
def bmpWidths : List ℕ := [2, 4, 4, 4, 4, 4, 4, 2, 2, 4, 4, 16]

/-- What `bmp_hdr_write` writes into the first header: the number of a field, and its bytes. -/
def bmpHdrWrites (info : FfpicInfo) (hdrsize linesize : ℕ) (comp : List UInt8) :
    List (ℕ × List UInt8) :=
  [(0, ascii "BM"), (5, leBytes 4 info.width), (6, leBytes 4 info.height),
    (8, leBytes 2 (ffpicBits info.format)), (9, [0, 0]), (7, leBytes 2 1),
    (10, leBytes 4 (info.height * linesize)), (9, comp), (4, leBytes 4 (hdrsize - 14)),
    (3, leBytes 4 hdrsize), (1, leBytes 4 (hdrsize + info.height * linesize))]

theorem bmpHdrWrites_fit (info : FfpicInfo) (hdrsize linesize : ℕ) {comp : List UInt8}
    (hcomp : comp.length ≤ 4) : ∀ p ∈ bmpHdrWrites info hdrsize linesize comp,
      p.1 < bmpWidths.length ∧ p.2.length ≤ bmpWidths.getD p.1 0 := by
  simp [bmpHdrWrites, bmpWidths, length_leBytes, ascii, hcomp]

theorem bmpHdrWrites_block (info : FfpicInfo) (hdrsize linesize : ℕ) {comp : List UInt8} {c : ℕ}
    (hcomp : (comp = [] ∧ c = COMP_NONE) ∨ comp = leBytes 4 c) :
    Block bmpWidths
      ((bmpHdrWrites info hdrsize linesize comp).foldl
        (fun b p => setBytes b (bmpWidths.take p.1).sum p.2) (List.replicate BMP_HDR 0))
      (bmpHdrFields info hdrsize c linesize) := by
  rcases hcomp with ⟨rfl, rfl⟩ | rfl
  · exact (Block.empty bmpWidths).writes (bmpHdrWrites_fit info hdrsize linesize (Nat.zero_le 4))
  · exact (Block.empty bmpWidths).writes
      (bmpHdrWrites_fit info hdrsize linesize (Nat.le_of_eq (length_leBytes 4 c)))

theorem length_bmpHdrWrites (info : FfpicInfo) (hdrsize linesize k : ℕ) {comp : List UInt8}
    (hcomp : comp.length ≤ 4) :
    (((bmpHdrWrites info hdrsize linesize comp).take k).foldl
      (fun b p => setBytes b (bmpWidths.take p.1).sum p.2) (List.replicate BMP_HDR 0)).length =
      BMP_HDR :=
  ((Block.empty bmpWidths).writes fun p hp =>
    bmpHdrWrites_fit info hdrsize linesize hcomp p (List.mem_of_mem_take hp)).length_eq

/-- **The first header** is made of these writes. -/
theorem bmpHdrWrite_eq (info : FfpicInfo) (linesize : ℕ)
    (hbits : leBytes 4 (ffpicBits info.format) = leBytes 2 (ffpicBits info.format) ++ [0, 0]) :
    bmpHdrWrite info linesize =
      if info.format = FFPIC_ABGR then
        (bmpHdrWrites info (BMP_HDR + BMP_HDR4) linesize (leBytes 4 COMP_BITFIELDS)).foldl
          (fun b p => setBytes b (bmpWidths.take p.1).sum p.2) (List.replicate BMP_HDR 0) ++ bmpHdr4
      else
        (bmpHdrWrites info BMP_HDR linesize []).foldl
          (fun b p => setBytes b (bmpWidths.take p.1).sum p.2) (List.replicate BMP_HDR 0) := by
  obtain ⟨b, hb⟩ : ∃ b, b = setBytes (setBytes (setBytes (List.replicate BMP_HDR 0) 0 (ascii "BM"))
    18 (leBytes 4 info.width)) 22 (leBytes 4 info.height) := ⟨_, rfl⟩
  have hblen : b.length = 54 := by
    rw [hb]
    exact length_bmpHdrWrites info 0 linesize 3 (List.length_nil.trans_le (Nat.zero_le 4))
  have hbpp : setBytes b 28 (leBytes 4 (ffpicBits info.format)) =
      setBytes (setBytes b 28 (leBytes 2 (ffpicBits info.format))) 30 [0, 0] := by
    have hfit : 28 ≤ b.length := by
      rw [hblen]
      decide
    have h := setBytes_setBytes (leBytes 2 (ffpicBits info.format)) [0, 0] hfit
    rw [length_leBytes] at h
    rw [hbits, ← h]
  by_cases hfmt : info.format = FFPIC_ABGR
  · obtain ⟨x, hx⟩ : ∃ x, x = setBytes (setBytes (setBytes
        (setBytes b 28 (leBytes 4 (ffpicBits info.format))) 26 (leBytes 2 1)) 34
          (leBytes 4 (info.height * linesize))) 30 (leBytes 4 COMP_BITFIELDS) := ⟨_, rfl⟩
    have hxlen : x.length = 54 := by
      rw [hx, hbpp, hb]
      exact length_bmpHdrWrites info 0 linesize 8
        (Nat.le_of_eq (length_leBytes 4 COMP_BITFIELDS))
    rw [if_pos hfmt, bmpHdrWrite]
    simp only [hfmt, decide_true, if_true]
    have h14 : 14 + (leBytes 4 (BMP_HDR + BMP_HDR4 - 14)).length ≤ x.length := by
      rw [hxlen, length_leBytes]
      decide
    have hx₁ := length_setBytes h14
    have h10 : 10 + (leBytes 4 (BMP_HDR + BMP_HDR4)).length ≤
        (setBytes x 14 (leBytes 4 (BMP_HDR + BMP_HDR4 - 14))).length := by
      rw [hx₁, hxlen, length_leBytes]
      decide
    have hx₂ := length_setBytes h10
    have h2 : 2 + (leBytes 4 (BMP_HDR + BMP_HDR4 + info.height * linesize)).length ≤
        (setBytes (setBytes x 14 (leBytes 4 (BMP_HDR + BMP_HDR4 - 14))) 10
          (leBytes 4 (BMP_HDR + BMP_HDR4))).length := by
      rw [hx₂, hx₁, hxlen, length_leBytes]
      decide
    rw [← hfmt, ← hb, ← hx, setBytes_append h14, setBytes_append h10, setBytes_append h2, hx, hbpp,
      hb]
    rfl
  · rw [if_neg hfmt, bmpHdrWrite, bmpHdrWrites]
    simp only [hfmt, decide_false, Bool.false_eq_true, if_false, List.foldl_cons, List.foldl_nil,
      setBytes_nil]
    rw [← hb, hbpp, hb]
    rfl

/-- The fields that are read. -/
structure BmpHdrIs (h : List UInt8) (width height bits dataoff comp : ℕ) : Prop where
  length : h.length = BMP_HDR
  bm : field h 0 2 = ascii "BM"
  dataoff : leNat (field h 10 4) = dataoff
  width : leNat (field h 18 4) = width
  height : leNat (field h 22 4) = height
  bits : leNat (field h 28 2) = bits
  comp : leNat (field h 30 4) = comp

theorem Block.bmpHdrIs {info : FfpicInfo} {h : List UInt8} {hdrsize comp linesize : ℕ}
    (hb : Block bmpWidths h (bmpHdrFields info hdrsize comp linesize))
    (hw : info.width < 2 ^ 32) (hh : info.height < 2 ^ 32) (hbits : ffpicBits info.format < 2 ^ 16)
    (hsize : hdrsize < 2 ^ 32) (hcomp : comp < 2 ^ 32) :
    BmpHdrIs h info.width info.height (ffpicBits info.format) hdrsize comp where
  length := hb.length_eq
  bm := hb.field 0 (by decide) rfl rfl
  dataoff := by
    have hf : FF.field h 10 4 = leBytes 4 hdrsize := hb.field 3 (by decide) rfl rfl
    rw [hf, leNat_leBytes hsize]
  width := by
    have hf : FF.field h 18 4 = leBytes 4 info.width := hb.field 5 (by decide) rfl rfl
    rw [hf, leNat_leBytes hw]
  height := by
    have hf : FF.field h 22 4 = leBytes 4 info.height := hb.field 6 (by decide) rfl rfl
    rw [hf, leNat_leBytes hh]
  bits := by
    have hf : FF.field h 28 2 = leBytes 2 (ffpicBits info.format) :=
      hb.field 8 (by decide) rfl rfl
    rw [hf, leNat_leBytes hbits]
  comp := by
    have hf : FF.field h 30 4 = leBytes 4 comp := hb.field 9 (by decide) rfl rfl
    rw [hf, leNat_leBytes hcomp]

/-- **The header of an image without transparency** -/
theorem bmpHdrWrite_bgr {info : FfpicInfo} (hf : info.format = FFPIC_BGR) (linesize : ℕ)
    (hw : info.width < 2 ^ 32) (hh : info.height < 2 ^ 32) :
    BmpHdrIs (bmpHdrWrite info linesize) info.width info.height 24 BMP_HDR COMP_NONE := by
  have hbits : ffpicBits info.format = 24 := by rw [hf]; rfl
  have hb := bmpHdrWrites_block info BMP_HDR linesize (.inl ⟨rfl, rfl⟩)
  have hne : ¬info.format = FFPIC_ABGR := by rw [hf]; decide
  rw [bmpHdrWrite_eq info linesize (by rw [hbits]; rfl), if_neg hne, ← hbits]
  exact hb.bmpHdrIs hw hh (by rw [hbits]; decide) (by decide) (by decide)

/-- **The headers of an image with transparency** -/
theorem bmpHdrWrite_abgr {info : FfpicInfo} (hf : info.format = FFPIC_ABGR) (linesize : ℕ)
    (hw : info.width < 2 ^ 32) (hh : info.height < 2 ^ 32) :
    ∃ h, bmpHdrWrite info linesize = h ++ bmpHdr4 ∧
      BmpHdrIs h info.width info.height 32 (BMP_HDR + BMP_HDR4) COMP_BITFIELDS := by
  have hbits : ffpicBits info.format = 32 := by rw [hf]; rfl
  have hcomp : leBytes 4 COMP_BITFIELDS = leBytes 4 COMP_BITFIELDS := rfl
  have hb := bmpHdrWrites_block info (BMP_HDR + BMP_HDR4) linesize (.inr hcomp)
  rw [bmpHdrWrite_eq info linesize (by rw [hbits]; rfl), if_pos hf, ← hbits]
  exact ⟨_, rfl, hb.bmpHdrIs hw hh (by rw [hbits]; decide) (by decide) (by decide)⟩

end FF
