import FF.Lib.Bytes

/-!
# Headers of ADTS frames

The header of 7 bytes of `FF/aformat/ffaac-adts.c`, whose fields are read from one big-endian
number. `adts_hdr_parse` reads an eighth byte with them, which no field uses.
-/

namespace FF

open List

/-- `ADTS_HDRLEN`. -/
def ADTS_HDRLEN : ℕ := 7

/-- The errors of `enum ADTS_E`. -/
inductive AdtsE
  | sync
  | layer
  | sampfreq
  | chanconf
  | framelen
  | rawblocks
  | lostsync
  deriving DecidableEq, Repr

/-- `struct adts_hdr`. -/
structure AdtsHdr where
  aot : ℕ
  sampFreqIdx : ℕ
  chanConf : ℕ
  frlen : ℕ
  datalen : ℕ
  rawBlocks : ℕ
  haveCrc : Bool
  deriving DecidableEq, Repr

/-- `ffbit_read64` in the 56 bits of a header. -/
def bitRead (v off n : ℕ) : ℕ := v / 2 ^ (56 - off - n) % 2 ^ n

/-- `adts_hdr_parse`. -/
def adtsHdrParse (d : List UInt8) : Except AdtsE AdtsHdr :=
  let v := beNat (d.take ADTS_HDRLEN)
  if bitRead v 0 12 ≠ 0x0fff then .error .sync
  else if bitRead v 13 2 ≠ 0 then .error .layer
  else
    let haveCrc := bitRead v 15 1 = 0
    let aot := bitRead v 16 2 + 1
    let sampFreqIdx := bitRead v 18 4
    if 13 ≤ sampFreqIdx then .error .sampfreq
    else
      let chanConf := bitRead v 23 3
      if chanConf = 0 then .error .chanconf
      else
        let frlen := bitRead v 30 13
        if frlen < (if haveCrc then 9 else 7) then .error .framelen
        else
          let rawBlocks := bitRead v 54 2 + 1
          if rawBlocks ≠ 1 then .error .rawblocks
          else .ok
            { aot, sampFreqIdx, chanConf, frlen
              datalen := frlen - (if haveCrc then 9 else 7)
              rawBlocks, haveCrc }

/-- The bits of `H_CONSTMASK`. -/
def constBits (d : List UInt8) : List UInt8 :=
  List.zipWith (· &&& ·) (d.take 4) [0xff, 0xfe, 0xfd, 0xc0]

/-- `adts_hdr_cmp`: the headers differ. -/
def adtsHdrCmp (a b : List UInt8) : Bool := constBits a ≠ constBits b

/-- `adts_hdr_find`: the place of the header, and what it says. -/
def adtsHdrFind (hp : Option (List UInt8)) : List UInt8 → Option (ℕ × AdtsHdr)
  | [] => none
  | c :: data =>
    if c ≠ 0xff then (adtsHdrFind hp data).map fun p => (p.1 + 1, p.2)
    else if (c :: data).length < ADTS_HDRLEN then none
    else
      match adtsHdrParse (c :: data) with
      | .ok h =>
        if hp.all fun hp => !adtsHdrCmp (c :: data) hp then some (0, h)
        else (adtsHdrFind hp data).map fun p => (p.1 + 1, p.2)
      | .error _ => (adtsHdrFind hp data).map fun p => (p.1 + 1, p.2)

/-- `mp4_asc_samp_freq`, the frequencies. -/
def mp4AscSampFreq : List ℕ :=
  [96000 / 5, 88200 / 5, 64000 / 5, 48000 / 5, 44100 / 5, 32000 / 5, 24000 / 5, 22050 / 5,
    16000 / 5, 12000 / 5, 11025 / 5, 8000 / 5, 7350 / 5, 0, 0, 65535]

/-- `ffbit_write32`. -/
def bitWrite (val off n : ℕ) : ℕ := val % 2 ^ n * 2 ^ (32 - off - n)

/-- `adts_mk_mp4asc`: the two bytes. -/
def adtsMkMp4asc (h : AdtsHdr) : List UInt8 :=
  let v := bitWrite h.aot 0 5 ||| bitWrite h.sampFreqIdx 5 4 ||| bitWrite h.chanConf 9 4
  [UInt8.ofNat (v / 2 ^ 24), UInt8.ofNat (v / 2 ^ 16)]

/-- Data begins with a header. -/
def AdtsHeader (d : List UInt8) (h : AdtsHdr) : Prop :=
  ADTS_HDRLEN ≤ d.length ∧ adtsHdrParse d = .ok h

section Header

variable {d e : List UInt8} {h : AdtsHdr}

theorem adtsHdrParse_append (hd : ADTS_HDRLEN ≤ d.length) :
    adtsHdrParse (d ++ e) = adtsHdrParse d := by
  rw [adtsHdrParse, take_append_of_le_length hd]
  rfl

theorem AdtsHeader.append (hd : AdtsHeader d h) : AdtsHeader (d ++ e) h := by
  refine ⟨?_, (adtsHdrParse_append hd.1).trans hd.2⟩
  rw [length_append]
  exact Nat.le_add_right_of_le hd.1

theorem AdtsHeader.take (hd : AdtsHeader d h) {n : ℕ} (hn : ADTS_HDRLEN ≤ n) :
    AdtsHeader (d.take n) h := by
  have hlen : ADTS_HDRLEN ≤ (d.take n).length := by
    rw [length_take]
    exact Nat.le_min.mpr ⟨hn, hd.1⟩
  refine ⟨hlen, ?_⟩
  rw [← adtsHdrParse_append hlen (e := d.drop n), take_append_drop]
  exact hd.2

theorem ok_of_check {c : Prop} [Decidable c] {e : AdtsE} {x : Except AdtsE AdtsHdr}
    (hx : (if c then .error e else x) = .ok h) : ¬c ∧ x = .ok h := by
  by_cases hc : c
  · rw [if_pos hc] at hx
    cases hx
  · rw [if_neg hc] at hx
    exact ⟨hc, hx⟩

theorem AdtsHeader.fields (hd : AdtsHeader d h) :
    bitRead (beNat (d.take ADTS_HDRLEN)) 0 12 = 0x0fff ∧ h.sampFreqIdx < 13 ∧
      h.frlen = h.datalen + (if h.haveCrc then 9 else 7) ∧
      bitRead (beNat (d.take ADTS_HDRLEN)) 54 2 = 0 := by
  obtain ⟨-, hp⟩ := hd
  rw [adtsHdrParse] at hp
  obtain ⟨hsync, hp⟩ := ok_of_check hp
  obtain ⟨-, hp⟩ := ok_of_check hp
  obtain ⟨hfreq, hp⟩ := ok_of_check hp
  obtain ⟨-, hp⟩ := ok_of_check hp
  obtain ⟨hlen, hp⟩ := ok_of_check hp
  obtain ⟨hblocks, hp⟩ := ok_of_check hp
  obtain rfl := Except.ok.inj hp
  refine ⟨not_not.mp hsync, Nat.lt_of_not_le hfreq, ?_, Nat.succ_injective (not_not.mp hblocks)⟩
  simp only [decide_eq_true_eq]
  exact (Nat.sub_add_cancel (Nat.le_of_not_lt hlen)).symm

theorem AdtsHeader.ends (hd : AdtsHeader d h) :
    d[0]? = some 0xff ∧ ∃ c, d[6]? = some c ∧ c ≠ 0xff := by
  obtain ⟨hsync, -, -, hblocks⟩ := hd.fields
  obtain ⟨hlen, -⟩ := hd
  match d, hlen with
  | b0 :: b1 :: b2 :: b3 :: b4 :: b5 :: b6 :: l, _ =>
    have h0 := b0.toNat_lt
    have h1 := b1.toNat_lt
    have h2 := b2.toNat_lt
    have h3 := b3.toNat_lt
    have h4 := b4.toNat_lt
    have h5 := b5.toNat_lt
    have h6 := b6.toNat_lt
    simp only [ADTS_HDRLEN, take_succ_cons, take_zero, beNat, foldl_cons,
      foldl_nil, bitRead, Nat.reduceSub, Nat.reducePow] at hsync hblocks
    have hff : (0xff : UInt8).toNat = 255 := rfl
    refine ⟨congrArg some (UInt8.toNat_inj.mp ?_), b6, rfl, fun he => ?_⟩
    · rw [hff]
      omega
    · rw [he, hff] at hblocks
      omega

end Header

/-! ### Searching -/

section Find

variable {d : List UInt8}

end Find

end FF
