import FF.Ffstring
import FF.Lib.Bits
import FF.Lib.Fields

/-!
# Metadata blocks of FLAC

The STREAMINFO and PICTURE blocks of `FF/aformat/ffflac-fmt.c`.

`flac_info` puts the upper four bits of the number of samples at the wrong place. `flac_meta_pic`
compares the lengths that it reads as signed numbers, and does not look whether the next length
lies in the block; and `flac_pic_write` does not look whether the size of the block fits into its
header.
-/

namespace FF

open List

/-! ### Program -/

/-- `FLAC_SYNCLEN`. -/
def FLAC_SYNCLEN : ℕ := 4

/-- `FLAC_MINSIZE`. -/
def FLAC_MINSIZE : ℕ := 42

/-- `FLAC_TINFO`. -/
def FLAC_TINFO : ℕ := 0

/-- `FLAC_TPIC`. -/
def FLAC_TPIC : ℕ := 6

/-- `ffflac_info`. -/
structure FfflacInfo where
  bits : ℕ
  channels : ℕ
  sampleRate : ℕ
  minblock : ℕ
  maxblock : ℕ
  minframe : ℕ
  maxframe : ℕ
  totalSamples : ℕ
  md5 : List UInt8
  deriving DecidableEq, Repr

/-- `ffpcm`; the formats 8, 16 and 24 are those of as many bits. -/
structure Ffpcm where
  format : ℕ
  channels : ℕ
  sampleRate : ℕ
  deriving DecidableEq, Repr

/-- `flac_hdr`: the type of a block, its size, and whether it is the last one. -/
def flacHdr (data : List UInt8) : Option (ℕ × ℕ × ℕ) :=
  if data.length < 4 then none
  else
    let b := (data.getD 0 0).toNat
    some (b % 128, beNat (field data 1 3), b / 128)

/-- `flac_sethdr`. -/
def flacSethdr (type islast size : ℕ) : List UInt8 :=
  UInt8.ofNat (type % 128 + islast % 2 * 128) :: beBytes 3 size

/-- What `flac_info` returns. -/
inductive FlacInfoR
  | more
  | err
  | ok (n : ℕ) (info : FfflacInfo) (fmt : Ffpcm) (islast : ℕ)
  deriving DecidableEq, Repr

/-- The numbers that `flac_info` takes out of the packed fields of `struct flac_streaminfo`. -/
def flacUnpack (uinfo4 lo : ℕ) : Ffpcm × ℕ :=
  ({ sampleRate := (uinfo4 &&& 0xfffff000) >>> 12
     channels := ((uinfo4 &&& 0x00000e00) >>> 9) + 1
     format := ((uinfo4 &&& 0x000001f0) >>> 4) + 1 },
    ((uinfo4 &&& 0x0000000f) <<< 4) ||| lo)

/-- `flac_info`. -/
def flacInfo (data : List UInt8) (info : FfflacInfo) : FlacInfoR :=
  if data.length < FLAC_MINSIZE then .more
  else if data.take FLAC_SYNCLEN ≠ ascii "fLaC" then .err
  else
    match flacHdr (data.drop FLAC_SYNCLEN) with
    | none => .err
    | some (type, len, islast) =>
      if type ≠ FLAC_TINFO ∨ len < 34 then .err
      else if (data.length - 8) % 2 ^ 32 < len then .more
      else
        let u := flacUnpack (beNat (field data 18 4)) (beNat (field data 22 4))
        if u.1.format ≠ 8 ∧ u.1.format ≠ 16 ∧ u.1.format ≠ 24 then .err
        else .ok (8 + len)
          { info with
            totalSamples := u.2
            minblock := beNat (field data 8 2)
            maxblock := beNat (field data 10 2)
            minframe := beNat (field data 12 3)
            maxframe := beNat (field data 15 3)
            md5 := field data 26 16 } u.1 islast

/-- The packed fields that `flac_info_write` makes. -/
def flacPack (info : FfflacInfo) : List UInt8 :=
  [UInt8.ofNat (info.sampleRate >>> 12), UInt8.ofNat (info.sampleRate >>> 4),
    UInt8.ofNat (((info.sampleRate <<< 4) &&& 0xf0) ||| (((info.channels - 1) <<< 1) &&& 0x0e) |||
      (((info.bits - 1) >>> 4) &&& 0x01)),
    UInt8.ofNat ((((info.bits - 1) <<< 4) &&& 0xf0) ||| ((info.totalSamples >>> 32) &&& 0x0f))]

/-- The fields of what `flac_info_write` writes. -/
def flacInfoFields (info : FfflacInfo) : List (List UInt8) :=
  [ascii "fLaC", flacSethdr FLAC_TINFO 0 34, beBytes 2 info.minblock, beBytes 2 info.maxblock,
    beBytes 3 info.minframe, beBytes 3 info.maxframe, flacPack info, beBytes 4 info.totalSamples,
    info.md5.take 16]

/-- `flac_info_write` into the buffer `out`, and what it returns. The program asserts that the
buffer has `FLAC_MINSIZE` bytes. -/
def flacInfoWrite (out : List UInt8) (info : FfflacInfo) : Option (List UInt8 × ℕ) :=
  if out.length < FLAC_MINSIZE then none
  -- FLAC_EBIGHDRSAMPLES
  else if info.totalSamples >>> 36 ≠ 0 then none
  else some (setBytes out 0 (flacInfoFields info).flatten, FLAC_MINSIZE)

/-- `ffint_ntoh32`. -/
def flacNtoh32 (b : List UInt8) (d : ℕ) : Except MemStop ℕ := beNat <$> readBytes b d 4

/-- `flac_meta_pic` from the length of the data on: the place and the length of the picture, or
`FLAC_EPIC`. -/
def flacPicData (b : List UInt8) (d : ℕ) : Except MemStop (Option (ℕ × ℕ)) := do
  let dataLen ← flacNtoh32 b d
  if (b.length : ℤ) - (d + 4 : ℕ) < Int.bmod dataLen (2 ^ 32) then .ok none
  else .ok (some (d + 4, dataLen))

/-- `flac_meta_pic` from the length of the description on. The compiler's `int` wraps around. -/
def flacPicDesc (b : List UInt8) (d : ℕ) : Except MemStop (Option (ℕ × ℕ)) := do
  let descLen ← flacNtoh32 b d
  if (b.length : ℤ) - (d + 4 : ℕ) < Int.bmod (descLen + 4 * 4 : ℕ) (2 ^ 32) then .ok none
  else flacPicData b (d + 4 + (descLen + 4 * 4) % 2 ^ 32)

/-- `flac_meta_pic`. -/
def flacMetaPic (b : List UInt8) : Except MemStop (Option (ℕ × ℕ)) :=
  if b.length < 8 then .ok none
  else do
    let mimeLen ← flacNtoh32 b 4
    if (b.length : ℤ) - 8 < Int.bmod mimeLen (2 ^ 32) then .ok none
    else flacPicDesc b (8 + mimeLen)

/-- `struct flac_picinfo`; the texts are strings with a zero byte behind them. -/
structure FlacPicinfo where
  mime : List UInt8
  desc : List UInt8
  width : ℕ
  height : ℕ
  bpp : ℕ
  mime_sz : 0 ∉ mime
  desc_sz : 0 ∉ desc

/-- The size of a picture block, as `flac_pic_write` returns it without a buffer. -/
def flacPicSize (info : FlacPicinfo) (pic : List UInt8) : ℕ :=
  4 + 4 + (4 + info.mime.length) + (4 + info.desc.length) + 4 * 4 + 4 + pic.length

/-- The fields of the block that `flac_pic_write` writes, without its header. -/
def flacPicFields (info : FlacPicinfo) (pic : List UInt8) : List (List UInt8) :=
  [beBytes 4 3, beBytes 4 info.mime.length, info.mime, beBytes 4 info.desc.length, info.desc,
    beBytes 4 info.width ++ beBytes 4 info.height ++ beBytes 4 info.bpp ++ beBytes 4 0,
    beBytes 4 pic.length, pic]

/-- `flac_pic_write` into the buffer `data`, and what it returns. -/
def flacPicWrite (data : List UInt8) (info : FlacPicinfo) (pic : List UInt8) (islast : ℕ) :
    Option (List UInt8 × ℤ) :=
  let n := flacPicSize info pic % SIZE_BOUND
  if (data.length : ℤ) < ssize n ∨
      n < (info.mime.length ||| info.desc.length ||| pic.length) then none
  else
    some (setBytes data 0 (flacSethdr FLAC_TPIC islast (n - 4) ++ (flacPicFields info pic).flatten),
      Int.bmod n (2 ^ 32))

/-! ### STREAMINFO -/

/-- What the program allows a STREAMINFO to be. -/
structure FfflacInfo.Valid (info : FfflacInfo) : Prop where
  rate : info.sampleRate < 2 ^ 20
  one_le : 1 ≤ info.channels
  le_eight : info.channels ≤ 8
  bits : info.bits = 8 ∨ info.bits = 16 ∨ info.bits = 24
  total : info.totalSamples < 2 ^ 36
  md5 : info.md5.length = 16

/-- The numbers of frames and samples **fit**: those of frames into their fields, and the number of
samples into 32 bits. -/
structure FfflacInfo.Fits (info : FfflacInfo) : Prop where
  minblock : info.minblock < 2 ^ 16
  maxblock : info.maxblock < 2 ^ 16
  minframe : info.minframe < 2 ^ 24
  maxframe : info.maxframe < 2 ^ 24
  total : info.totalSamples < 2 ^ 32

/-- The format that `flac_info` returns. -/
def FfflacInfo.fmt (info : FfflacInfo) : Ffpcm where
  format := info.bits
  channels := info.channels
  sampleRate := info.sampleRate

/-- `info` read into `info₀`, whose first three fields `flac_info` leaves alone. -/
def FfflacInfo.into (info info₀ : FfflacInfo) : FfflacInfo :=
  { info with bits := info₀.bits, channels := info₀.channels, sampleRate := info₀.sampleRate }

variable {info : FfflacInfo}

theorem beNat_flacPack (h : info.Valid) : beNat (flacPack info) =
    info.sampleRate * 2 ^ 12 + (info.channels - 1) * 2 ^ 9 + (info.bits - 1) * 2 ^ 4 +
      info.totalSamples / 2 ^ 32 := by
  have hr := h.rate
  have hc := h.le_eight
  have hb : info.bits - 1 < 2 ^ 5 := by
    have hbits := h.bits
    omega
  have ht := h.total
  have hrate := shiftLeft_and_mask (m := 0xf0) info.sampleRate 4 4 rfl
  have hchan := shiftLeft_and_mask (m := 0x0e) (info.channels - 1) 1 3 rfl
  have hbit := and_mask_shiftRight (m := 0x01) ((info.bits - 1) >>> 4) 0 1 rfl
  have hbits := shiftLeft_and_mask (m := 0xf0) (info.bits - 1) 4 4 rfl
  have htotal := and_mask_shiftRight (m := 0x0f) (info.totalSamples >>> 32) 0 4 rfl
  rw [Nat.shiftRight_zero, Nat.pow_zero, Nat.div_one] at hbit htotal
  have hthird : info.sampleRate % 2 ^ 4 * 2 ^ 4 ||| (info.channels - 1) % 2 ^ 3 * 2 ^ 1 =
      (info.sampleRate % 2 ^ 4 * 2 ^ 3 + (info.channels - 1) % 2 ^ 3) * 2 ^ 1 := by
    rw [mul_or _ (by omega)]
    omega
  rw [flacPack, hrate, hchan, hbit, hbits, htotal, hthird, mul_or _ (by omega),
    mul_or _ (by omega)]
  simp only [beNat, foldl_cons, foldl_nil, UInt8.toNat_ofNat', Nat.shiftRight_eq_div_pow]
  omega

theorem flacUnpack_pack (h : info.Valid) :
    flacUnpack (beNat (flacPack info)) (info.totalSamples % 2 ^ 32) =
      (info.fmt, ((info.totalSamples / 2 ^ 32) <<< 4) ||| (info.totalSamples % 2 ^ 32)) := by
  have hr := h.rate
  have hone := h.one_le
  have hc := h.le_eight
  have hb := h.bits
  have ht := h.total
  have hv := beNat_flacPack h
  obtain ⟨v, hveq⟩ : ∃ v, beNat (flacPack info) = v := ⟨_, rfl⟩
  rw [hveq] at hv ⊢
  have hlow := and_mask_shiftRight (m := 0x0000000f) v 0 4 rfl
  rw [Nat.shiftRight_zero, Nat.pow_zero, Nat.div_one] at hlow
  rw [flacUnpack, and_mask_shiftRight (m := 0xfffff000) v 12 20 rfl,
    and_mask_shiftRight (m := 0x00000e00) v 9 3 rfl,
    and_mask_shiftRight (m := 0x000001f0) v 4 5 rfl, hlow, FfflacInfo.fmt]
  have hrate : v / 2 ^ 12 % 2 ^ 20 = info.sampleRate := by omega
  have hchan : v / 2 ^ 9 % 2 ^ 3 + 1 = info.channels := by omega
  have hbits : v / 2 ^ 4 % 2 ^ 5 + 1 = info.bits := by omega
  have htotal : v % 2 ^ 4 = info.totalSamples / 2 ^ 32 := by omega
  rw [hrate, hchan, hbits, htotal]

theorem shiftLeft_or_eq_iff {t : ℕ} (ht : t < 2 ^ 36) :
    ((t / 2 ^ 32) <<< 4 ||| t % 2 ^ 32) = t ↔ t < 2 ^ 32 := by
  constructor
  · intro heq
    have hhigh : (t / 2 ^ 32) <<< 4 < 2 ^ 32 := by
      rw [Nat.shiftLeft_eq]
      omega
    have hor := Nat.or_lt_two_pow hhigh (Nat.mod_lt t (Nat.two_pow_pos 32))
    rwa [heq] at hor
  · intro hlt
    rw [Nat.div_eq_of_lt hlt, Nat.mod_eq_of_lt hlt, Nat.zero_shiftLeft, Nat.zero_or]

theorem flacHdr_sethdr (type islast size : ℕ) (rest : List UInt8) :
    flacHdr (flacSethdr type islast size ++ rest) =
      some (type % 128, size % 2 ^ 24, islast % 2) := by
  have hlen : (flacSethdr type islast size).length = 4 := by
    rw [flacSethdr, length_cons, length_beBytes]
  have hsize : field (flacSethdr type islast size ++ rest) 1 3 = beBytes 3 size := by
    rw [field, flacSethdr, cons_append, drop_one, tail_cons]
    exact take_left' (length_beBytes 3 size)
  have hbyte : ((flacSethdr type islast size ++ rest).getD 0 0).toNat =
      type % 128 + islast % 2 * 128 := by
    rw [flacSethdr, cons_append, getD_cons_zero, UInt8.toNat_ofNat']
    omega
  rw [flacHdr, if_neg (by rw [length_append, hlen]; omega)]
  dsimp only
  rw [hsize, hbyte, beNat_beBytes_mod]
  have htype : (type % 128 + islast % 2 * 128) % 128 = type % 128 := by omega
  have hlast : (type % 128 + islast % 2 * 128) / 128 = islast % 2 := by omega
  rw [htype, hlast]
  rfl

theorem flacInfo_block (h : info.Valid) (post : List UInt8) :
    Block [4, 4, 2, 2, 3, 3, 4, 4, 16, post.length] ((flacInfoFields info).flatten ++ post)
      (flacInfoFields info ++ [post]) where
  eq := by rw [flatten_append, flatten_singleton]
  widths := by
    have hmd5 : (info.md5.take 16).length = 16 := by rw [length_take, h.md5, Nat.min_self]
    simp only [flacInfoFields, map_cons, map_nil, hmd5, length_beBytes, flacSethdr, flacPack,
      length_cons, length_nil, cons_append, nil_append]
    rfl

/-- **What `flac_info` reads** of what `flac_info_write` wrote -/
theorem flacInfo_written (h : info.Valid) (info₀ : FfflacInfo) {post : List UInt8}
    (hpost : 34 + post.length < 2 ^ 32) :
    flacInfo ((flacInfoFields info).flatten ++ post) info₀ =
      .ok FLAC_MINSIZE
        { info.into info₀ with
          minblock := info.minblock % 2 ^ 16
          maxblock := info.maxblock % 2 ^ 16
          minframe := info.minframe % 2 ^ 24
          maxframe := info.maxframe % 2 ^ 24
          totalSamples := ((info.totalSamples / 2 ^ 32) <<< 4) ||| (info.totalSamples % 2 ^ 32) }
        info.fmt 0 := by
  have hb := flacInfo_block h post
  obtain ⟨d, hd⟩ : ∃ d, d = (flacInfoFields info).flatten ++ post := ⟨_, rfl⟩
  have hlen : d.length = 42 + post.length := by
    rw [hd, hb.length_eq]
    simp only [sum_cons, sum_nil]
    omega
  have hsync : d.take FLAC_SYNCLEN = ascii "fLaC" := by
    rw [hd]
    rfl
  have hhdr : flacHdr (d.drop FLAC_SYNCLEN) = some (FLAC_TINFO, 34, 0) := by
    have hdrop := hb.drop 1 (by decide : 1 < 10) (rfl : FLAC_SYNCLEN = _)
    rw [hd, hdrop]
    exact flacHdr_sethdr FLAC_TINFO 0 34 _
  have hminb : field d 8 2 = beBytes 2 info.minblock :=
    hd ▸ hb.field 2 (by decide : 2 < 10) rfl rfl
  have hmaxb : field d 10 2 = beBytes 2 info.maxblock :=
    hd ▸ hb.field 3 (by decide : 3 < 10) rfl rfl
  have hminf : field d 12 3 = beBytes 3 info.minframe :=
    hd ▸ hb.field 4 (by decide : 4 < 10) rfl rfl
  have hmaxf : field d 15 3 = beBytes 3 info.maxframe :=
    hd ▸ hb.field 5 (by decide : 5 < 10) rfl rfl
  have hpack : field d 18 4 = flacPack info := hd ▸ hb.field 6 (by decide : 6 < 10) rfl rfl
  have htotal : field d 22 4 = beBytes 4 info.totalSamples :=
    hd ▸ hb.field 7 (by decide : 7 < 10) rfl rfl
  have hmd5 : field d 26 16 = info.md5.take 16 := hd ▸ hb.field 8 (by decide : 8 < 10) rfl rfl
  have hfmt : ¬(info.fmt.format ≠ 8 ∧ info.fmt.format ≠ 16 ∧ info.fmt.format ≠ 24) := by
    have hbits := h.bits
    simp only [FfflacInfo.fmt]
    omega
  have hpow : (256 : ℕ) ^ 4 = 2 ^ 32 := rfl
  rw [← hd, flacInfo, if_neg (by rw [hlen, FLAC_MINSIZE]; omega), if_neg (not_not.mpr hsync), hhdr]
  dsimp only
  rw [if_neg (by decide), if_neg (by omega), hpack, htotal, beNat_beBytes_mod, hpow,
    flacUnpack_pack h, if_neg hfmt, hminb, hmaxb, hminf, hmaxf, hmd5, beNat_beBytes_mod,
    beNat_beBytes_mod, beNat_beBytes_mod, beNat_beBytes_mod, take_of_length_le h.md5.le]
  rfl

/-- **A STREAMINFO is read back** if its numbers fit. -/
theorem flacInfo_back (h : info.Valid) (info₀ : FfflacInfo) {post : List UInt8}
    (hpost : 34 + post.length < 2 ^ 32) :
    flacInfo ((flacInfoFields info).flatten ++ post) info₀ =
      .ok FLAC_MINSIZE (info.into info₀) info.fmt 0 ↔ info.Fits := by
  rw [flacInfo_written h info₀ hpost, FlacInfoR.ok.injEq]
  simp only [FfflacInfo.into, FfflacInfo.mk.injEq, true_and, and_true, shiftLeft_or_eq_iff h.total]
  constructor
  · rintro ⟨hminb, hmaxb, hminf, hmaxf, htotal⟩
    exact ⟨by omega, by omega, by omega, by omega, htotal⟩
  · intro hfits
    exact ⟨Nat.mod_eq_of_lt hfits.minblock, Nat.mod_eq_of_lt hfits.maxblock,
      Nat.mod_eq_of_lt hfits.minframe, Nat.mod_eq_of_lt hfits.maxframe, hfits.total⟩

/-- The bytes that `flac_info_write` writes in front of the buffer. -/
theorem flacInfoWrite_eq {out out' : List UInt8} {n : ℕ} (h : info.Valid)
    (hw : flacInfoWrite out info = some (out', n)) :
    out'.take n = (flacInfoFields info).flatten := by
  have hlen : (flacInfoFields info).flatten.length = FLAC_MINSIZE := by
    have hb := (flacInfo_block h []).length_eq
    rwa [append_nil] at hb
  rw [flacInfoWrite] at hw
  split at hw
  · cases hw
  split at hw
  · cases hw
  · cases hw
    rw [setBytes, take_zero, nil_append]
    exact take_left' hlen

theorem flacInfoWrite_some {out : List UInt8} (h : info.Valid) (hout : FLAC_MINSIZE ≤ out.length) :
    ∃ out', flacInfoWrite out info = some (out', FLAC_MINSIZE) := by
  have htotal : info.totalSamples >>> 36 = 0 := by
    rw [Nat.shiftRight_eq_div_pow, Nat.div_eq_of_lt h.total]
  rw [flacInfoWrite, if_neg (Nat.not_lt.mpr hout), if_neg (not_not.mpr htotal)]
  exact ⟨_, rfl⟩

/-! ### Arbitrary bytes -/

/-- The number in the four bytes at `d`. -/
def numAt (b : List UInt8) (d : ℕ) : ℕ := beNat (field b d 4)

/-- The length `n`, in front of `left` bytes, **is let through** by the comparison of signed
numbers. -/
def LetThrough (n left : ℤ) : Prop := Int.bmod n (2 ^ 32) ≤ left

/-- The length of the picture lies in the block, and so does the picture if its length is let
through. -/
def PicDataFits (b : List UInt8) (d : ℕ) : Prop :=
  d + 4 ≤ b.length ∧
    (LetThrough (numAt b d) (b.length - (d + 4 : ℕ)) → d + 4 + numAt b d ≤ b.length)

/-- The same from the description on; 16 bytes stand between it and the length of the picture. -/
def PicDescFits (b : List UInt8) (d : ℕ) : Prop :=
  d + 4 ≤ b.length ∧
    (LetThrough (numAt b d + 4 * 4 : ℕ) (b.length - (d + 4 : ℕ)) →
      PicDataFits b (d + 4 + (numAt b d + 4 * 4) % 2 ^ 32))

/-- **The lengths fit**: behind every length that is let through there is room in the block for what
is read next. -/
def PicFits (b : List UInt8) : Prop :=
  8 ≤ b.length → LetThrough (numAt b 4) (b.length - 8) → PicDescFits b (8 + numAt b 4)

/-- A failure or a place within the block, and no other byte is read. -/
def PicSafe (b : List UInt8) (r : Except MemStop (Option (ℕ × ℕ))) : Prop :=
  r = .ok none ∨ ∃ off len, r = .ok (some (off, len)) ∧ off + len ≤ b.length

section Arbitrary

variable {b : List UInt8} {d : ℕ}

theorem flacNtoh32_eq (h : d + 4 ≤ b.length) : flacNtoh32 b d = .ok (numAt b d) := by
  rw [flacNtoh32, readBytes_eq h]
  rfl

theorem flacNtoh32_error (h : ¬d + 4 ≤ b.length) : flacNtoh32 b d = .error .overread := by
  rw [flacNtoh32, readBytes, if_neg h]
  rfl

theorem PicSafe.none : PicSafe b (.ok none) := .inl rfl

theorem not_picSafe_error (e : MemStop) : ¬PicSafe b (.error e) := by
  rintro (h | ⟨_, _, h, _⟩) <;> cases h

theorem picSafe_step (left : ℤ) (c : ℕ → ℤ) (g : ℕ → Except MemStop (Option (ℕ × ℕ))) :
    PicSafe b (flacNtoh32 b d >>= fun n =>
        if left < Int.bmod (c n) (2 ^ 32) then .ok none else g n) ↔
      d + 4 ≤ b.length ∧ (LetThrough (c (numAt b d)) left → PicSafe b (g (numAt b d))) := by
  by_cases hd : d + 4 ≤ b.length
  · have hread : (flacNtoh32 b d >>= fun n =>
        if left < Int.bmod (c n) (2 ^ 32) then .ok none else g n) =
        if left < Int.bmod (c (numAt b d)) (2 ^ 32) then .ok none else g (numAt b d) := by
      rw [flacNtoh32_eq hd]
      rfl
    rw [hread]
    by_cases hlt : left < Int.bmod (c (numAt b d)) (2 ^ 32)
    · rw [if_pos hlt]
      constructor
      · intro _
        exact ⟨hd, fun hthrough => absurd hlt (Int.not_lt.mpr hthrough)⟩
      · intro _
        exact PicSafe.none
    rw [if_neg hlt]
    constructor
    · intro h
      exact ⟨hd, fun _ => h⟩
    · intro h
      exact h.2 (Int.not_lt.mp hlt)
  rw [flacNtoh32_error hd]
  constructor
  · intro h
    exact absurd h (not_picSafe_error _)
  · intro h
    exact absurd h.1 hd

theorem flacPicData_safe : PicSafe b (flacPicData b d) ↔ PicDataFits b d := by
  have hstep := picSafe_step (b := b) (d := d) (b.length - (d + 4 : ℕ)) (fun n => n)
    (fun n => .ok (some (d + 4, n)))
  have hslice : ∀ n, PicSafe b (.ok (some (d + 4, n))) ↔ d + 4 + n ≤ b.length := by
    intro n
    constructor
    · rintro (h | ⟨off, len, h, hle⟩)
      · cases h
      · cases h
        exact hle
    · intro hle
      exact .inr ⟨d + 4, n, rfl, hle⟩
  rw [hslice] at hstep
  exact hstep

theorem flacPicDesc_safe : PicSafe b (flacPicDesc b d) ↔ PicDescFits b d := by
  have hstep := picSafe_step (b := b) (d := d) (b.length - (d + 4 : ℕ))
    (fun n => (n + 4 * 4 : ℕ)) (fun n => flacPicData b (d + 4 + (n + 4 * 4) % 2 ^ 32))
  rw [flacPicData_safe] at hstep
  exact hstep

/-- **When `flac_meta_pic` stays within a block** -/
theorem flacMetaPic_safe (b : List UInt8) : PicSafe b (flacMetaPic b) ↔ PicFits b := by
  by_cases hlen : b.length < 8
  · rw [flacMetaPic, if_pos hlen]
    constructor
    · intro _ h8
      omega
    · intro _
      exact PicSafe.none
  have hstep := picSafe_step (b := b) (d := 4) (b.length - 8) (fun n => n)
    (fun n => flacPicDesc b (8 + n))
  rw [flacPicDesc_safe] at hstep
  rw [flacMetaPic, if_neg hlen]
  constructor
  · intro h _
    exact (hstep.mp h).2
  · intro h
    exact hstep.mpr ⟨by omega, h (by omega)⟩

/-! ### Pictures -/

theorem picStep_some (left : ℤ) (c : ℕ → ℤ) (g : ℕ → Except MemStop (Option (ℕ × ℕ)))
    {r : ℕ × ℕ} :
    (flacNtoh32 b d >>= fun n =>
        if left < Int.bmod (c n) (2 ^ 32) then .ok none else g n) = .ok (some r) ↔
      d + 4 ≤ b.length ∧ LetThrough (c (numAt b d)) left ∧ g (numAt b d) = .ok (some r) := by
  rw [bind_eq_ok]
  constructor
  · rintro ⟨n, hn, hg⟩
    by_cases hd : d + 4 ≤ b.length
    · rw [flacNtoh32_eq hd] at hn
      cases hn
      split at hg
      · cases hg
      · next hle => exact ⟨hd, Int.not_lt.mp hle, hg⟩
    · rw [flacNtoh32_error hd] at hn
      cases hn
  · rintro ⟨hd, hle, hg⟩
    exact ⟨numAt b d, flacNtoh32_eq hd, by rw [if_neg (Int.not_lt.mpr hle), hg]⟩

/-- The place of the length of the picture. -/
def picDataAt (b : List UInt8) : ℕ :=
  8 + numAt b 4 + 4 + (numAt b (8 + numAt b 4) + 4 * 4) % 2 ^ 32

theorem flacMetaPic_some {off len : ℕ} :
    flacMetaPic b = .ok (some (off, len)) ↔
      8 ≤ b.length ∧ LetThrough (numAt b 4) (b.length - 8) ∧
        8 + numAt b 4 + 4 ≤ b.length ∧
        LetThrough (numAt b (8 + numAt b 4) + 4 * 4 : ℕ) (b.length - (8 + numAt b 4 + 4 : ℕ)) ∧
        picDataAt b + 4 ≤ b.length ∧
        LetThrough (numAt b (picDataAt b)) (b.length - (picDataAt b + 4 : ℕ)) ∧
        off = picDataAt b + 4 ∧ len = numAt b (picDataAt b) := by
  have hdata : flacPicData b (picDataAt b) = .ok (some (off, len)) ↔
      picDataAt b + 4 ≤ b.length ∧
        LetThrough (numAt b (picDataAt b)) (b.length - (picDataAt b + 4 : ℕ)) ∧
        off = picDataAt b + 4 ∧ len = numAt b (picDataAt b) := by
    refine (picStep_some _ (fun n => n) fun n => .ok (some (picDataAt b + 4, n))).trans ?_
    rw [Except.ok.injEq, Option.some.injEq, Prod.mk.injEq, eq_comm (a := off), eq_comm (a := len)]
  have hdesc : flacPicDesc b (8 + numAt b 4) = .ok (some (off, len)) ↔
      8 + numAt b 4 + 4 ≤ b.length ∧
        LetThrough (numAt b (8 + numAt b 4) + 4 * 4 : ℕ) (b.length - (8 + numAt b 4 + 4 : ℕ)) ∧
        flacPicData b (picDataAt b) = .ok (some (off, len)) :=
    picStep_some _ (fun n => (n + 4 * 4 : ℕ))
      fun n => flacPicData b (8 + numAt b 4 + 4 + (n + 4 * 4) % 2 ^ 32)
  by_cases hlen : b.length < 8
  · rw [flacMetaPic, if_pos hlen]
    constructor
    · intro h
      cases h
    · intro h
      omega
  · rw [flacMetaPic, if_neg hlen, ← hdata, ← hdesc]
    exact picStep_some _ (fun n => n) fun n => flacPicDesc b (8 + n)

theorem flacPic_block (info : FlacPicinfo) (pic : List UInt8) :
    Block [4, 4, info.mime.length, 4, info.desc.length, 16, 4, pic.length]
      (flacPicFields info pic).flatten (flacPicFields info pic) where
  eq := rfl
  widths := by
    simp only [flacPicFields, map_cons, map_nil, length_beBytes, length_append]

theorem length_flacPicFields (info : FlacPicinfo) (pic : List UInt8) :
    (flacPicFields info pic).flatten.length = flacPicSize info pic - 4 := by
  rw [(flacPic_block info pic).length_eq, flacPicSize]
  simp only [sum_cons, sum_nil]
  omega

/-- **The block is returned whole**: what `flac_meta_pic` returns of the block that the header
announces is the picture. -/
def PicBack (out pic : List UInt8) : Prop :=
  ∃ size islast off len, flacHdr out = some (FLAC_TPIC, size, islast) ∧
    flacMetaPic (field out 4 size) = .ok (some (off, len)) ∧
      off + len ≤ (field out 4 size).length ∧ field (field out 4 size) off len = pic

theorem numAt_ge {i : ℕ} (hi : i + 4 ≤ b.length) (hne : b.getD i 0 ≠ 0) : 2 ^ 24 ≤ numAt b i := by
  have hlen : (field b i 4).length = 4 := by
    rw [field, length_take, length_drop]
    omega
  have hfirst : (field b i 4).getD 0 0 = b.getD i 0 := by
    rw [field, getD_eq_getElem?_getD, getElem?_take_of_lt (by decide),
      getElem?_drop, Nat.add_zero, getD_eq_getElem?_getD]
  rw [numAt]
  obtain ⟨x, hx⟩ : ∃ x, x = field b i 4 := ⟨_, rfl⟩
  rw [← hx] at hlen hfirst ⊢
  obtain ⟨a₀, a₁, a₂, a₃, rfl⟩ := length_eq_four.mp hlen
  have hpos : 0 < a₀.toNat := by
    rw [Nat.pos_iff_ne_zero]
    intro h0
    apply hne
    rw [← hfirst, getD_cons_zero]
    exact UInt8.toNat_inj.mp h0
  simp only [beNat, foldl_cons, foldl_nil]
  omega

theorem numAt_take {i s : ℕ} (hi : i + 4 ≤ s) : numAt (b.take s) i = numAt b i := by
  rw [numAt, numAt, field, field, drop_take, take_take, Nat.min_eq_left (by omega)]

theorem getD_ne_zero {x rest : List UInt8} {j : ℕ} (h : b.drop d = x ++ rest) (hx : 0 ∉ x)
    (hj : j < x.length) : b.getD (d + j) 0 ≠ 0 := by
  have hget : b[d + j]? = some x[j] := by
    rw [← getElem?_drop, h, getElem?_append_left hj, getElem?_eq_getElem hj]
  rw [getD_eq_getElem?_getD, hget, Option.getD_some]
  intro h0
  exact hx (h0 ▸ getElem_mem hj)

theorem numAt_text {x rest : List UInt8} {i : ℕ} (h : b.drop d = x ++ rest) (hx : 0 ∉ x)
    (hd : d ≤ i) (hi : i < d + x.length) (hlen : i + 4 ≤ b.length) : 2 ^ 24 ≤ numAt b i := by
  obtain ⟨j, rfl⟩ : ∃ j, i = d + j := ⟨i - d, by omega⟩
  exact numAt_ge hlen (getD_ne_zero h hx (by omega))

variable {info : FlacPicinfo} {pic c : List UInt8}

theorem numAt_mime (hc : c = (flacPicFields info pic).flatten) :
    numAt c 4 = info.mime.length % 2 ^ 32 := by
  have hfield : field c 4 4 = beBytes 4 info.mime.length :=
    hc ▸ (flacPic_block info pic).field 1 (by decide : 1 < 8) rfl rfl
  rw [numAt, hfield, beNat_beBytes_mod]
  rfl

theorem numAt_desc (hc : c = (flacPicFields info pic).flatten) :
    numAt c (8 + info.mime.length) = info.desc.length % 2 ^ 32 := by
  have hoff : 8 + info.mime.length = ([4, 4, info.mime.length, 4, info.desc.length, 16, 4,
      pic.length].take 3).sum := by
    simp only [take_succ_cons, take_zero, sum_cons, sum_nil]
    omega
  have hfield : field c (8 + info.mime.length) 4 = beBytes 4 info.desc.length :=
    hc ▸ (flacPic_block info pic).field 3 (by decide : 3 < 8) hoff rfl
  rw [numAt, hfield, beNat_beBytes_mod]
  rfl

theorem numAt_pic (hc : c = (flacPicFields info pic).flatten) :
    numAt c (28 + info.mime.length + info.desc.length) = pic.length % 2 ^ 32 := by
  have hoff : 28 + info.mime.length + info.desc.length = ([4, 4, info.mime.length, 4,
      info.desc.length, 16, 4, pic.length].take 6).sum := by
    simp only [take_succ_cons, take_zero, sum_cons, sum_nil]
    omega
  have hfield : field c (28 + info.mime.length + info.desc.length) 4 = beBytes 4 pic.length :=
    hc ▸ (flacPic_block info pic).field 6 (by decide : 6 < 8) hoff rfl
  rw [numAt, hfield, beNat_beBytes_mod]
  rfl

theorem flacMetaPic_whole (hc : c = (flacPicFields info pic).flatten) (hlen : c.length < 2 ^ 24) :
    flacMetaPic c = .ok (some (32 + info.mime.length + info.desc.length, pic.length)) := by
  have hsize : c.length = 32 + info.mime.length + info.desc.length + pic.length := by
    rw [hc, length_flacPicFields, flacPicSize]
    omega
  have hthrough : ∀ (n : ℕ) (left : ℤ), (n : ℤ) ≤ left → n < 2 ^ 24 → LetThrough n left := by
    intro n left hle hlt
    rw [LetThrough, Int.bmod_eq_of_le (by omega) (by omega)]
    exact hle
  have hmime : numAt c 4 = info.mime.length := by
    rw [numAt_mime hc, Nat.mod_eq_of_lt (by omega)]
  have hdesc : numAt c (8 + info.mime.length) = info.desc.length := by
    rw [numAt_desc hc, Nat.mod_eq_of_lt (by omega)]
  have hpic : numAt c (28 + info.mime.length + info.desc.length) = pic.length := by
    rw [numAt_pic hc, Nat.mod_eq_of_lt (by omega)]
  have hat : picDataAt c = 28 + info.mime.length + info.desc.length := by
    rw [picDataAt, hmime, hdesc, Nat.mod_eq_of_lt (by omega)]
    omega
  rw [flacMetaPic_some, hat, hmime, hdesc, hpic]
  refine ⟨by omega, ?_, by omega, ?_, by omega, ?_, by omega, rfl⟩
  · exact hthrough _ _ (by omega) (by omega)
  · exact hthrough _ _ (by omega) (by omega)
  · exact hthrough _ _ (by omega) (by omega)

/-- **A picture that is returned** lies behind lengths that the block has; so the block is whole. -/
theorem flacMetaPic_part (hc : c = (flacPicFields info pic).flatten) {s off len : ℕ}
    (hs : s ≤ c.length) (hlt : s < 2 ^ 24)
    (hr : flacMetaPic (c.take s) = .ok (some (off, len))) (hin : off + len ≤ s)
    (hpic : field (c.take s) off len = pic) : s = c.length := by
  have hsize : c.length = 32 + info.mime.length + info.desc.length + pic.length := by
    rw [hc, length_flacPicFields, flacPicSize]
    omega
  have hslen : (c.take s).length = s := by rw [length_take, Nat.min_eq_left hs]
  obtain ⟨-, -, hmime, -, hdata, -, hoff, hlen⟩ := flacMetaPic_some.mp hr
  have hpiclen : len = pic.length := by
    rw [← hpic, field, length_take, length_drop, hslen]
    omega
  rw [hslen] at hmime hdata
  -- no number among the bytes of a text is as small as the block
  have hsmall : numAt c (picDataAt (c.take s)) < 2 ^ 24 := by
    rw [← numAt_take hdata, ← hlen]
    omega
  have hge : 8 + numAt c 4 + 4 ≤ picDataAt (c.take s) := by
    rw [picDataAt, numAt_take (by omega)]
    exact Nat.le_add_right _ _
  have hmimelt : info.mime.length < 2 ^ 32 := by
    by_contra hbig
    have hdrop : c.drop 8 = info.mime ++ ((flacPicFields info pic).drop 3).flatten :=
      hc ▸ (flacPic_block info pic).drop 2 (by decide : 2 < 8) rfl
    have htext := numAt_text hdrop info.mime_sz (i := picDataAt (c.take s)) (by omega) (by omega)
      (by omega)
    omega
  have hmime' : numAt (c.take s) 4 = info.mime.length := by
    rw [numAt_take (by omega), numAt_mime hc, Nat.mod_eq_of_lt hmimelt]
  rw [hmime'] at hmime
  have hdesclt : info.desc.length + 4 * 4 < 2 ^ 32 := by
    by_contra hbig
    have hoff : 8 + info.mime.length + 4 = ([4, 4, info.mime.length, 4, info.desc.length, 16, 4,
        pic.length].take 4).sum := by
      simp only [take_succ_cons, take_zero, sum_cons, sum_nil]
      omega
    have hdrop : c.drop (8 + info.mime.length + 4) =
        info.desc ++ ((flacPicFields info pic).drop 5).flatten :=
      hc ▸ (flacPic_block info pic).drop 4 (by decide : 4 < 8) hoff
    have hle : 8 + info.mime.length + 4 ≤ picDataAt (c.take s) := by
      rw [picDataAt, hmime']
      exact Nat.le_add_right _ _
    have htext := numAt_text hdrop info.desc_sz (i := picDataAt (c.take s)) hle (by omega)
      (by omega)
    omega
  have hat : picDataAt (c.take s) = 28 + info.mime.length + info.desc.length := by
    have hmod : info.desc.length % 2 ^ 32 = info.desc.length := Nat.mod_eq_of_lt (by omega)
    rw [picDataAt, hmime', numAt_take (by omega), numAt_desc hc, hmod, Nat.mod_eq_of_lt hdesclt]
    omega
  omega

/-- **A picture is read back** if the size of its block fits into the header. -/
theorem flacPic_back {data out : List UInt8} {islast : ℕ} {r : ℤ}
    (hmem : flacPicSize info pic < 2 ^ 63)
    (hw : flacPicWrite data info pic islast = some (out, r)) :
    PicBack out pic ↔ flacPicSize info pic - 4 < 2 ^ 24 := by
  obtain ⟨c, hc⟩ : ∃ c, c = (flacPicFields info pic).flatten := ⟨_, rfl⟩
  have hclen : c.length = flacPicSize info pic - 4 := by rw [hc, length_flacPicFields]
  obtain ⟨post, hout⟩ : ∃ post, out =
      flacSethdr FLAC_TPIC islast (flacPicSize info pic - 4) ++ (c ++ post) := by
    have hn : flacPicSize info pic % SIZE_BOUND = flacPicSize info pic :=
      Nat.mod_eq_of_lt (Nat.lt_trans hmem (by decide))
    rw [flacPicWrite, hn] at hw
    split at hw
    · cases hw
    · cases hw
      rw [← hc, setBytes, take_zero, nil_append, append_assoc]
      exact ⟨_, rfl⟩
  have hhdr : flacHdr out =
      some (FLAC_TPIC, (flacPicSize info pic - 4) % 2 ^ 24, islast % 2) := by
    rw [hout, flacHdr_sethdr]
    rfl
  have hblock : ∀ s ≤ c.length, field out 4 s = c.take s := by
    intro s hs
    have hdrop : out.drop 4 = c ++ post := by
      rw [hout]
      exact drop_left' (by rw [flacSethdr, length_cons, length_beBytes])
    rw [field, hdrop, take_append_of_le_length hs]
  constructor
  · rintro ⟨size, last, off, len, hh, hr, hin, hpic⟩
    rw [hhdr] at hh
    cases hh
    have hs : (flacPicSize info pic - 4) % 2 ^ 24 ≤ c.length := by
      rw [hclen]
      exact Nat.mod_le _ _
    rw [hblock _ hs] at hr hin hpic
    rw [length_take, Nat.min_eq_left hs] at hin
    have heq := flacMetaPic_part hc hs (Nat.mod_lt _ (by decide)) hr hin hpic
    rw [← hclen, ← heq]
    exact Nat.mod_lt _ (by decide)
  intro hlt
  have hwhole : field out 4 c.length = c := by rw [hblock _ le_rfl, take_length]
  have hsize : c.length = 32 + info.mime.length + info.desc.length + pic.length := by
    rw [hclen, flacPicSize]
    omega
  have hfield : field c (32 + info.mime.length + info.desc.length) pic.length = pic := by
    have hoff : 32 + info.mime.length + info.desc.length = ([4, 4, info.mime.length, 4,
        info.desc.length, 16, 4, pic.length].take 7).sum := by
      simp only [take_succ_cons, take_zero, sum_cons, sum_nil]
      omega
    exact hc ▸ (flacPic_block info pic).field 7 (by decide : 7 < 8) hoff rfl
  rw [Nat.mod_eq_of_lt hlt, ← hclen] at hhdr
  refine ⟨c.length, islast % 2, 32 + info.mime.length + info.desc.length, pic.length, hhdr, ?_,
    ?_, ?_⟩
  · rw [hwhole]
    exact flacMetaPic_whole hc (by omega)
  · rw [hwhole, hsize]
  · rw [hwhole, hfield]

end Arbitrary

/-! ### Together -/

/-- **A STREAMINFO and a picture that are written are read back**, and arbitrary bytes are read
safely, exactly if the numbers fit: the numbers of frames and samples into their fields and the
number of samples into 32 bits; the size of the picture block into its header; and the lengths of an
arbitrary block into it. -/
theorem flacMeta_iff {info info₀ : FfflacInfo} {buf out post : List UInt8} {n : ℕ}
    {picinfo : FlacPicinfo} {pic data pout : List UInt8} {islast : ℕ} {r : ℤ} (hvalid : info.Valid)
    (hpost : 34 + post.length < 2 ^ 32) (hw : flacInfoWrite buf info = some (out, n))
    (hmem : flacPicSize picinfo pic < 2 ^ 63)
    (hpic : flacPicWrite data picinfo pic islast = some (pout, r)) (b : List UInt8) :
    (flacInfo (out.take n ++ post) info₀ = .ok n (info.into info₀) info.fmt 0 ↔ info.Fits) ∧
    (PicBack pout pic ↔ flacPicSize picinfo pic - 4 < 2 ^ 24) ∧
    (PicSafe b (flacMetaPic b) ↔ PicFits b) := by
  refine ⟨?_, flacPic_back hmem hpic, flacMetaPic_safe b⟩
  · have hn : n = FLAC_MINSIZE := by
      have hout : FLAC_MINSIZE ≤ buf.length := by
        by_contra hshort
        rw [flacInfoWrite, if_pos (Nat.not_le.mp hshort)] at hw
        cases hw
      obtain ⟨out', hsome⟩ := flacInfoWrite_some hvalid hout
      rw [hw] at hsome
      cases hsome
      rfl
    rw [flacInfoWrite_eq hvalid hw, hn]
    exact flacInfo_back hvalid info₀ hpost

/-- A recording of an hour, and a picture of two bytes. -/
theorem flacMeta_iff_example :
    (∃ info : FfflacInfo, ∃ out' n, flacInfoWrite (List.replicate 42 0) info = some (out', n) ∧
      (flacInfo (out'.take n ++ []) info = .ok n (info.into info) info.fmt 0 ↔ info.Fits)) ∧
    (∃ info out r, flacPicWrite (List.replicate 47 0) info [1, 2] 1 = some (out, r) ∧
      (PicBack out [1, 2] ↔ flacPicSize info [1, 2] - 4 < 2 ^ 24)) ∧
    (PicSafe [0, 0, 0, 3] (flacMetaPic [0, 0, 0, 3]) ↔ PicFits [0, 0, 0, 3]) := by
  obtain ⟨info, hinfo⟩ : ∃ info : FfflacInfo, info =
      ⟨16, 2, 44100, 4096, 4096, 16, 10000, 158760000, List.replicate 16 7⟩ := ⟨_, rfl⟩
  obtain ⟨picinfo, hpicinfo⟩ : ∃ picinfo : FlacPicinfo, picinfo =
      ⟨ascii "image/x", [], 1, 1, 24, by decide, by decide⟩ := ⟨_, rfl⟩
  obtain ⟨out, n, hw⟩ : ∃ out n, flacInfoWrite (List.replicate 42 0) info = some (out, n) := by
    rw [hinfo]
    exact ⟨_, _, rfl⟩
  obtain ⟨pout, r, hpic⟩ : ∃ pout r,
      flacPicWrite (List.replicate 47 0) picinfo [1, 2] 1 = some (pout, r) := by
    rw [hpicinfo]
    exact ⟨_, _, rfl⟩
  have hvalid : info.Valid := by
    rw [hinfo]
    exact ⟨by decide, by decide, by decide, by decide, by decide, rfl⟩
  have hmem : flacPicSize picinfo [1, 2] < 2 ^ 63 := by
    rw [hpicinfo]
    decide
  obtain ⟨hback, hpicback, hsafe⟩ := @flacMeta_iff info info (List.replicate 42 0) out [] n picinfo
    [1, 2] (List.replicate 47 0) pout 1 r hvalid (by decide) hw hmem hpic [0, 0, 0, 3]
  exact ⟨⟨info, out, n, hw, hback⟩, ⟨picinfo, pout, r, hpic, hpicback⟩, hsafe⟩

/-- 2^32 samples are read back as 16; and of a block of 9 bytes, whose type of image has one byte,
four bytes are read behind its end. -/
theorem flacMeta_samples :
    (∃ (info : FfflacInfo) (out : List UInt8) (n : ℕ) (read : FfflacInfo), info.Valid ∧
      flacInfoWrite (List.replicate 42 0) info = some (out, n) ∧
      flacInfo (out.take n) info = .ok n read info.fmt 0 ∧
      info.totalSamples = 2 ^ 32 ∧ read.totalSamples = 16) ∧
    flacMetaPic [0, 0, 0, 3, 0, 0, 0, 1, 9] = .error .overread := by
  refine ⟨⟨⟨16, 2, 44100, 4096, 4096, 16, 10000, 2 ^ 32, List.replicate 16 7⟩, _, _, _,
    ⟨by decide, by decide, by decide, by decide, by decide, rfl⟩, rfl, rfl, rfl, ?_⟩, ?_⟩
  · decide
  · decide

end FF
