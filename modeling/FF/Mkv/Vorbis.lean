import FF.Number
import Mathlib.Data.List.TakeWhile

/-!
# Vorbis headers in Matroska

`ffmkv_vorbis_hdr` divides the codec's private data into the three header packets, one in a call.
The lengths of the first two stand in front, each as a run of bytes that ends with one below 255.
-/

namespace FF

namespace Mkv

open List Option

/-! ### The reader -/

/-- What `ogg_pktlen` returns: the bytes processed and the length, 0, or nothing, where the 32-bit
counter wraps in front of the end. -/
inductive PktLen
  | bytes (i pktlen : ℕ)
  | error
  | forever
  deriving DecidableEq, Repr

/-- The loop of `ogg_pktlen` on the bytes from `i` on. Where `i` wraps to 0 all bytes so far are
255, so that the loop begins anew. -/
def oggPktlenLoop : List UInt8 → ℕ → ℕ → PktLen
  | [], _, _ => .error
  | seglen :: data, i, pktlen =>
    if seglen = 255 then
      if i + 1 = 2 ^ 32 then .forever
      else oggPktlenLoop data (i + 1) ((pktlen + seglen.toNat) % 2 ^ 32)
    else if i + 1 = 2 ^ 32 then .error
    else .bytes (i + 1) ((pktlen + seglen.toNat) % 2 ^ 32)

/-- `ogg_pktlen` -/
def oggPktlen (data : List UInt8) : PktLen := oggPktlenLoop data 0 0

/-- `ffmkv_vorbis`; `out` is the offset in `data` and the length. -/
structure FfmkvVorbis where
  state : ℕ
  pkt2Off : ℕ
  pkt3Off : ℕ
  data : List UInt8
  out : ℕ × ℕ
  deriving DecidableEq, Repr

/-- What `ffmkv_vorbis_hdr` returns: 0, 1, or `-MKV_EVORBISHDR`. -/
inductive VorbisRet
  | ready
  | done
  | evorbishdr
  deriving DecidableEq, Repr

/-- `case 0` of `ffmkv_vorbis_hdr`; `none` where it does not return. -/
def vorbisPkt1 (m : FfmkvVorbis) : Option (FfmkvVorbis × VorbisRet) :=
  if m.data.length < 3 then some (m, .evorbishdr)
  else if m.data.head? ≠ some 2 then some (m, .evorbishdr)
  else
    let s := m.data.drop 1
    match oggPktlen s with
    | .error => some (m, .evorbishdr)
    | .forever => none
    | .bytes n pkt1Len =>
      let s := s.drop n
      match oggPktlen s with
      | .error => some (m, .evorbishdr)
      | .forever => none
      | .bytes n pkt2Len =>
        let s := s.drop n
        let dataoff := (m.data.length - s.length) % 2 ^ 32
        some ({ m with
          pkt2Off := (dataoff + pkt1Len) % 2 ^ 32
          pkt3Off := (dataoff + pkt1Len + pkt2Len) % 2 ^ 32
          out := (dataoff, pkt1Len)
          state := m.state + 1 }, .ready)

/-- `ffmkv_vorbis_hdr` -/
def ffmkvVorbisHdr (m : FfmkvVorbis) : Option (FfmkvVorbis × VorbisRet) :=
  match m.state with
  | 0 => vorbisPkt1 m
  | 1 =>
    some ({ m with
      out := (m.pkt2Off, sizeSub m.data.length m.pkt2Off)
      state := m.state + 1 }, .ready)
  | 2 =>
    some ({ m with
      out := (m.pkt3Off, sizeSub m.data.length m.pkt3Off)
      state := m.state + 1 }, .ready)
  | 3 => some (m, .done)
  | _ => some ({ m with state := m.state + 1 }, .ready)

/-- The caller: calls until a code other than 0. The slices, and the last code. -/
def vorbisCalls : ℕ → FfmkvVorbis → Option (List (ℕ × ℕ) × VorbisRet)
  | 0, _ => none
  | n + 1, m => do
      let (m, r) ← ffmkvVorbisHdr m
      match r with
      | .ready =>
        let (outs, r) ← vorbisCalls n m
        some (m.out :: outs, r)
      | _ => some ([], r)

/-- The state before the first call. -/
def vorbisInit (data : List UInt8) : FfmkvVorbis := ⟨0, 0, 0, data, (0, 0)⟩

/-! ### The packets -/

/-- The number of bytes 255 at the start. -/
def ffRun (s : List UInt8) : ℕ := (s.takeWhile fun c => c == 255).length

/-- The length that stands at the start of `s`. -/
def fieldLen (s : List UInt8) : ℕ := 255 * ffRun s + (s.getD (ffRun s) 0).toNat

/-- What follows the length. -/
def fieldRest (s : List UInt8) : List UInt8 := s.drop (ffRun s + 1)

/-- The length at the start of `s` has an end. -/
def FieldEnds (s : List UInt8) : Prop := ffRun s < s.length

/-- The offset of the first packet: behind the number of packets and the two lengths. -/
def pktsOff (data : List UInt8) : ℕ :=
  1 + (ffRun (data.drop 1) + 1) + (ffRun (fieldRest (data.drop 1)) + 1)

/-- **The data fails, or is divided into the three packets**: they follow the lengths, the first
two have the lengths that stand there, the third is the rest, and all are inside the data. -/
def VorbisExact (data : List UInt8) : Prop :=
  vorbisCalls 4 (vorbisInit data) = some ([], .evorbishdr) ∨
    (FieldEnds (data.drop 1) ∧ FieldEnds (fieldRest (data.drop 1)) ∧
      ∃ l₁ l₂ l₃, l₁ = fieldLen (data.drop 1) ∧ l₂ = fieldLen (fieldRest (data.drop 1)) ∧
        pktsOff data + l₁ + l₂ + l₃ = data.length ∧
        vorbisCalls 4 (vorbisInit data) = some ([(pktsOff data, l₁), (pktsOff data + l₁, l₂),
          (pktsOff data + l₁ + l₂, l₃)], .done))

/-- The length at the start of `s` is refused: it has no end, or its last byte is the one at which
the 32-bit counter wraps to 0. -/
def FieldFails (s : List UInt8) : Prop :=
  (ffRun s = s.length ∧ ffRun s < 2 ^ 32) ∨ ffRun s + 1 = 2 ^ 32

/-- The length at the start of `s` is read. -/
def FieldRead (s : List UInt8) : Prop := FieldEnds s ∧ ffRun s + 1 < 2 ^ 32

/-- **The data that is divided right**: it is refused, or the third packet is empty, and the data
shorter than `2 ^ 32`. -/
def VorbisOk (data : List UInt8) : Prop :=
  data.length < 3 ∨ data.head? ≠ some 2 ∨ FieldFails (data.drop 1) ∨
    (FieldRead (data.drop 1) ∧ FieldFails (fieldRest (data.drop 1))) ∨
    (FieldRead (data.drop 1) ∧ FieldRead (fieldRest (data.drop 1)) ∧
      pktsOff data + fieldLen (data.drop 1) + fieldLen (fieldRest (data.drop 1)) = data.length ∧
      data.length < 2 ^ 32)

/-! ### Lengths -/

theorem ffRun_cons (c : UInt8) (s : List UInt8) :
    ffRun (c :: s) = if c = 255 then ffRun s + 1 else 0 := by
  unfold ffRun
  by_cases hc : c = 255
  · rw [takeWhile_cons_of_pos (by simp [hc]), if_pos hc, length_cons]
  · rw [takeWhile_cons_of_neg (by simp [hc]), if_neg hc, length_nil]

theorem ffRun_le (s : List UInt8) : ffRun s ≤ s.length := ( takeWhile_prefix _).length_le

/-- The loop of `ogg_pktlen`. -/
theorem oggPktlenLoop_spec (s : List UInt8) {i p : ℕ} (hi : i < 2 ^ 32) (hp : p < 2 ^ 32) :
    oggPktlenLoop s i p =
      if 2 ^ 32 ≤ i + ffRun s then .forever
      else if ffRun s = s.length ∨ i + ffRun s + 1 = 2 ^ 32 then .error
      else .bytes (i + ffRun s + 1) ((p + fieldLen s) % 2 ^ 32) := by
  induction s generalizing i p with
  | nil =>
    have hrun : ffRun [] = 0 := rfl
    rw [hrun, if_neg (by omega), length_nil, if_pos (Or.inl rfl), oggPktlenLoop]
  | cons c s ih =>
    rw [oggPktlenLoop, ffRun_cons]
    by_cases hc : c = 255
    · rw [if_pos hc, if_pos hc]
      by_cases hwrap : i + 1 = 2 ^ 32
      · rw [if_pos hwrap, if_pos (by omega)]
      have hlen : p + fieldLen (c :: s) = p + c.toNat + fieldLen s := by
        rw [fieldLen, fieldLen, ffRun_cons, if_pos hc, hc, getD_cons_succ]
        have h255 : (255 : UInt8).toNat = 255 := rfl
        rw [h255]
        omega
      have hadd : i + 1 + ffRun s = i + (ffRun s + 1) := by omega
      rw [if_neg hwrap, ih (by omega) (Nat.mod_lt _ (Nat.two_pow_pos 32)), hadd, hlen, length_cons,
        Nat.mod_add_mod]
      simp only [Nat.add_right_cancel_iff]
    have hin : ¬2 ^ 32 ≤ i + 0 := by omega
    rw [if_neg hc, if_neg hc, if_neg hin, Nat.add_zero, length_cons]
    have hlen : fieldLen (c :: s) = c.toNat := by
      rw [fieldLen, ffRun_cons, if_neg hc, getD_cons_zero]
      omega
    rw [hlen]
    by_cases hwrap : i + 1 = 2 ^ 32
    · rw [if_pos hwrap, if_pos (Or.inr hwrap)]
    · have hok : ¬(0 = s.length + 1 ∨ i + 1 = 2 ^ 32) := by omega
      rw [if_neg hwrap, if_neg hok]

/-- **What `ogg_pktlen` makes of a length.** -/
theorem oggPktlen_spec (s : List UInt8) :
    (FieldFails s → oggPktlen s = .error) ∧
    (FieldRead s → oggPktlen s = .bytes (ffRun s + 1) (fieldLen s % 2 ^ 32)) ∧
    (¬FieldFails s → ¬FieldRead s → oggPktlen s = .forever) := by
  have hspec := oggPktlenLoop_spec s (i := 0) (p := 0) (by omega) (by omega)
  have hle := ffRun_le s
  simp only [Nat.zero_add] at hspec
  unfold oggPktlen
  rw [hspec]
  refine ⟨fun hfail => ?_, fun hread => ?_, fun hfail hread => ?_⟩
  · rcases hfail with ⟨hend, hlt⟩ | hwrap
    · rw [if_neg (by omega), if_pos (Or.inl hend)]
    · rw [if_neg (by omega), if_pos (Or.inr hwrap)]
  · obtain ⟨hend, hlt⟩ := hread
    unfold FieldEnds at hend
    rw [if_neg (by omega), if_neg (by omega)]
  · unfold FieldFails at hfail
    unfold FieldRead FieldEnds at hread
    rw [if_pos (by omega)]

/-! ### The calls -/

theorem vorbisCalls_ready (data : List UInt8) (pkt2Off pkt3Off : ℕ) (out : ℕ × ℕ) :
    vorbisCalls 3 ⟨1, pkt2Off, pkt3Off, data, out⟩ =
      some ([(pkt2Off, sizeSub data.length pkt2Off), (pkt3Off, sizeSub data.length pkt3Off)],
        .done) := rfl

/-- The first call refuses the data. -/
def VorbisFails (data : List UInt8) : Prop :=
  data.length < 3 ∨ data.head? ≠ some 2 ∨ FieldFails (data.drop 1) ∨
    (FieldRead (data.drop 1) ∧ FieldFails (fieldRest (data.drop 1)))

theorem vorbisPkt1_fails {data : List UInt8} (h : VorbisFails data) :
    vorbisPkt1 (vorbisInit data) = some (vorbisInit data, .evorbishdr) := by
  change (if data.length < 3 then _ else if data.head? ≠ some 2 then _ else _) = _
  by_cases hlen : data.length < 3
  · rw [if_pos hlen]
  by_cases hhead : data.head? ≠ some 2
  · rw [if_neg hlen, if_pos hhead]
  rw [if_neg hlen, if_neg hhead]
  rcases (h.resolve_left hlen).resolve_left hhead with hfail | ⟨hread, hfail⟩
  · have herr := (oggPktlen_spec _).1 hfail
    simp only [vorbisInit, herr]
  · have hok := (oggPktlen_spec _).2.1 hread
    have herr := (oggPktlen_spec _).1 hfail
    unfold fieldRest at herr
    simp only [vorbisInit, hok, herr]

theorem length_fieldRest (s : List UInt8) : (fieldRest s).length = s.length - (ffRun s + 1) :=
  length_drop

theorem pktsOff_eq {data : List UInt8} (hread₁ : FieldRead (data.drop 1))
    (hread₂ : FieldRead (fieldRest (data.drop 1))) :
    data.length - (fieldRest (fieldRest (data.drop 1))).length = pktsOff data := by
  have h₁ := hread₁.1
  have h₂ := hread₂.1
  unfold FieldEnds at h₁ h₂
  unfold pktsOff
  rw [length_fieldRest] at h₂ ⊢
  rw [length_fieldRest]
  rw [length_drop] at h₁ h₂ ⊢
  omega

theorem vorbisPkt1_read {data : List UInt8} (hfail : ¬VorbisFails data)
    (hread₁ : FieldRead (data.drop 1)) (hread₂ : FieldRead (fieldRest (data.drop 1))) :
    ∃ d l₁ l₂, d = pktsOff data % 2 ^ 32 ∧ l₁ = fieldLen (data.drop 1) % 2 ^ 32 ∧
      l₂ = fieldLen (fieldRest (data.drop 1)) % 2 ^ 32 ∧
      vorbisPkt1 (vorbisInit data) = some (⟨1, (d + l₁) % 2 ^ 32, (d + l₁ + l₂) % 2 ^ 32, data,
        (d, l₁)⟩, .ready) := by
  obtain ⟨hlen, hfail⟩ := not_or.mp hfail
  obtain ⟨hhead, -⟩ := not_or.mp hfail
  have hok₁ := (oggPktlen_spec _).2.1 hread₁
  have hok₂ := (oggPktlen_spec _).2.1 hread₂
  have hoff := pktsOff_eq hread₁ hread₂
  refine ⟨_, _, _, rfl, rfl, rfl, ?_⟩
  rw [← hoff]
  change (if data.length < 3 then _ else if data.head? ≠ some 2 then _ else _) = _
  rw [if_neg hlen, if_neg hhead]
  unfold fieldRest at *
  simp only [vorbisInit, hok₁, hok₂]

theorem vorbisPkt1_forever {data : List UInt8} (hfail : ¬VorbisFails data)
    (hread : ¬(FieldRead (data.drop 1) ∧ FieldRead (fieldRest (data.drop 1)))) :
    vorbisPkt1 (vorbisInit data) = none := by
  obtain ⟨hlen, hfail⟩ := not_or.mp hfail
  obtain ⟨hhead, hfail⟩ := not_or.mp hfail
  obtain ⟨hfail₁, hfail₂⟩ := not_or.mp hfail
  change (if data.length < 3 then _ else if data.head? ≠ some 2 then _ else _) = _
  rw [if_neg hlen, if_neg hhead]
  by_cases hread₁ : FieldRead (data.drop 1)
  · have hok := (oggPktlen_spec _).2.1 hread₁
    have hever := (oggPktlen_spec _).2.2 (fun h => hfail₂ ⟨hread₁, h⟩) fun h => hread ⟨hread₁, h⟩
    unfold fieldRest at hever
    simp only [vorbisInit, hok, hever]
  · have hever := (oggPktlen_spec _).2.2 hfail₁ hread₁
    simp only [vorbisInit, hever]

/-- **The slices that the calls return**, where both lengths are read. -/
theorem vorbisCalls_eq {data : List UInt8} (hfail : ¬VorbisFails data)
    (hread₁ : FieldRead (data.drop 1)) (hread₂ : FieldRead (fieldRest (data.drop 1))) :
    ∃ d l₁ l₂, d = pktsOff data % 2 ^ 32 ∧ l₁ = fieldLen (data.drop 1) % 2 ^ 32 ∧
      l₂ = fieldLen (fieldRest (data.drop 1)) % 2 ^ 32 ∧
      vorbisCalls 4 (vorbisInit data) =
        some ([(d, l₁), ((d + l₁) % 2 ^ 32, sizeSub data.length ((d + l₁) % 2 ^ 32)),
          ((d + l₁ + l₂) % 2 ^ 32, sizeSub data.length ((d + l₁ + l₂) % 2 ^ 32))], .done) := by
  obtain ⟨d, l₁, l₂, hd, hl₁, hl₂, hcall⟩ := vorbisPkt1_read hfail hread₁ hread₂
  refine ⟨d, l₁, l₂, hd, hl₁, hl₂, ?_⟩
  have hfirst : ffmkvVorbisHdr (vorbisInit data) = vorbisPkt1 (vorbisInit data) := rfl
  rw [vorbisCalls, hfirst, hcall, bind_eq_bind, bind_some]
  simp only [vorbisCalls_ready, bind_eq_bind, bind_some]

/-- **Exactly when the data is divided into the packets.** -/
theorem ffmkvVorbisHdr_iff (data : List UInt8) : VorbisExact data ↔ VorbisOk data := by
  have hfirst : ffmkvVorbisHdr (vorbisInit data) = vorbisPkt1 (vorbisInit data) := rfl
  by_cases hfail : VorbisFails data
  · have hcalls : vorbisCalls 4 (vorbisInit data) = some ([], .evorbishdr) := by
      rw [vorbisCalls, hfirst, vorbisPkt1_fails hfail]
      rfl
    refine ⟨fun _ => ?_, fun _ => Or.inl hcalls⟩
    rcases hfail with h | h | h | h
    · exact Or.inl h
    · exact Or.inr (Or.inl h)
    · exact Or.inr (Or.inr (Or.inl h))
    · exact Or.inr (Or.inr (Or.inr (Or.inl h)))
  have hok : VorbisOk data ↔ FieldRead (data.drop 1) ∧ FieldRead (fieldRest (data.drop 1)) ∧
      pktsOff data + fieldLen (data.drop 1) + fieldLen (fieldRest (data.drop 1)) = data.length ∧
      data.length < 2 ^ 32 := by
    constructor
    · rintro (h | h | h | h | h)
      · exact absurd (Or.inl h) hfail
      · exact absurd (Or.inr (Or.inl h)) hfail
      · exact absurd (Or.inr (Or.inr (Or.inl h))) hfail
      · exact absurd (Or.inr (Or.inr (Or.inr h))) hfail
      · exact h
    · intro h
      exact Or.inr (Or.inr (Or.inr (Or.inr h)))
  rw [hok]
  by_cases hread : FieldRead (data.drop 1) ∧ FieldRead (fieldRest (data.drop 1))
  · obtain ⟨hread₁, hread₂⟩ := hread
    obtain ⟨d, l₁, l₂, hd, hl₁, hl₂, hcalls⟩ := vorbisCalls_eq hfail hread₁ hread₂
    constructor
    · rintro (herr | ⟨-, -, m₁, m₂, m₃, hm₁, hm₂, hsum, hslices⟩)
      · rw [hcalls] at herr
        cases herr
      rw [hcalls] at hslices
      simp only [some.injEq, Prod.mk.injEq, List.cons.injEq, and_true] at hslices
      obtain ⟨⟨ho₁, hs₁⟩, ⟨ho₂, hs₂⟩, ho₃, hs₃⟩ := hslices
      unfold sizeSub SIZE_BOUND at hs₂ hs₃
      refine ⟨hread₁, hread₂, ?_, ?_⟩
      · omega
      · omega
    rintro ⟨-, -, hsum, hlt⟩
    refine Or.inr ⟨hread₁.1, hread₂.1, _, _, 0, rfl, rfl, hsum, ?_⟩
    rw [hcalls]
    have hd' : d = pktsOff data := by omega
    have hl₁' : l₁ = fieldLen (data.drop 1) := by omega
    have hl₂' : l₂ = fieldLen (fieldRest (data.drop 1)) := by omega
    rw [hd', hl₁', hl₂', Nat.mod_eq_of_lt (by omega), Nat.mod_eq_of_lt (by omega),
      sizeSub_of_le (by omega) (by unfold SIZE_BOUND; omega),
      sizeSub_of_le (by omega) (by unfold SIZE_BOUND; omega)]
    simp only [some.injEq, Prod.mk.injEq, List.cons.injEq, and_true, true_and]
    omega
  have hcalls : vorbisCalls 4 (vorbisInit data) = none := by
    rw [vorbisCalls, hfirst, vorbisPkt1_forever hfail hread]
    rfl
  constructor
  · rintro (herr | ⟨-, -, m₁, m₂, m₃, -, -, -, hslices⟩)
    · rw [hcalls] at herr
      cases herr
    · rw [hcalls] at hslices
      cases hslices
  · rintro ⟨h₁, h₂, -⟩
    exact absurd ⟨h₁, h₂⟩ hread

/-- **The second slice is not the second packet**: it reaches to the end of the data. -/
theorem ffmkvVorbisHdr_pkt2 : ¬∀ data, VorbisExact data := by
  intro h
  have hcalls : vorbisCalls 4 (vorbisInit [2, 1, 1, 0x61, 0x62, 0x63]) =
      some ([(3, 1), (4, 2), (5, 1)], .done) := by decide
  rcases h [2, 1, 1, 0x61, 0x62, 0x63] with herr | ⟨-, -, m₁, m₂, m₃, hm₁, hm₂, -, hslices⟩
  · rw [hcalls] at herr
    cases herr
  · rw [hcalls] at hslices
    simp only [some.injEq, Prod.mk.injEq, List.cons.injEq, and_true] at hslices
    omega

end Mkv

end FF
