import FF.Path.Norm
import FF.Url.Parts
import FF.Url.Query

/-!
# Percent-escapes

Three functions look at the escapes of a URL on their own: `ffurl_parse` counts the bytes of the
decoded path, `ffuri_escape` writes escapes, and `ffuri_decode` reads them. A text has characters
and escapes, its units, and each of them stands for one byte.
-/

namespace FF

namespace Url

open List Option

/-! ### The program -/

/-- `uriesc` -/
def uriesc : List UInt32 := [0, 0x7fffffd6, 0xffffffff, 0x7fffffff, 0, 0, 0, 0]

/-- `uriesc_pathseg` -/
def uriescPathseg : List UInt32 := [0, 0x7fff7fd6, 0xefffffff, 0x7fffffff, 0, 0, 0, 0]

/-- `enum FFURI_ESCAPE` -/
inductive FFURI_ESCAPE
  | whole
  | pathseg
  | qsseg
  deriving DecidableEq, Repr

/-- `uri_encode_types` -/
@[grind =] def uriEncodeTypes : FFURI_ESCAPE → List UInt32
  | .whole => uriesc
  | .pathseg => uriescPathseg
  | .qsseg => uriescQsseg

/-- `enum FFURI_DECODE` -/
structure DecodeFlags where
  normPath : Bool
  httpreq : Bool
  deriving DecidableEq, Repr

/-- The states of `ffuri_decode` -/
inductive UriSt
  | uri
  | quoted1
  | quoted2
  deriving DecidableEq, Repr

/-- A byte that is not allowed in the request of a client. -/
def badReqByte (flags : DecodeFlags) (ch : UInt8) : Bool :=
  flags.httpreq && (ffcharIsansiwhite ch || ch == 0x23)

/-- The loop of `ffuri_decode`: the state, what is in `dst`, and the rest of the text; `none` where
it fails. -/
@[grind =] def decodeLoop (cap : ℕ) (flags : DecodeFlags) :
    UriSt → ℕ → List UInt8 → List UInt8 → Option (UriSt × List UInt8 × List UInt8)
  | idx, _, dst, [] => some (idx, dst, [])
  | idx, b, dst, ch :: d =>
    if dst.length < cap then
      match idx with
      | .uri =>
        if ch = 0x25 then decodeLoop cap flags .quoted1 b dst d
        else if badReqByte flags ch then none
        else decodeLoop cap flags .uri b (dst ++ [ch]) d
      | .quoted1 =>
        match ffcharTohex ch with
        | none => none
        | some bt => decodeLoop cap flags .quoted2 bt dst d
      | .quoted2 =>
        match ffcharTohex ch with
        | none => none
        | some bt =>
          let b := b <<< 4 ||| bt
          if b = 0 then none else decodeLoop cap flags .uri b (dst ++ [UInt8.ofNat b]) d
    else some (idx, dst, ch :: d)

/-- The flags of `ffuri_decode` for `ffpath_norm` -/
def uriNormFlags : Path.PathFlags :=
  { mergedots := true, mergeslash := true, strictBounds := true, windows := true,
    forceslash := true }

/-- The end of `ffuri_decode`, behind its loop. -/
def decodeEnd (cap : ℕ) (flags : DecodeFlags) (dst : List UInt8) :
    Except Path.NormStop (List UInt8) := do
  let dst ← if flags.normPath then Path.ffpathNorm cap dst uriNormFlags else .ok dst
  if dst = [] then .error .zero else .ok dst

/-- `ffuri_decode`: what is in `dst` in the end. The function returns its length, and 0 for
`error zero`. -/
@[grind =] def ffuriDecode (cap : ℕ) (d : List UInt8) (flags : DecodeFlags) :
    Except Path.NormStop (List UInt8) :=
  match decodeLoop cap flags .uri 0 [] d with
  | some (.uri, dst, _) => decodeEnd cap flags dst
  | _ => .error .zero

/-! ### Units -/

/-- **The units of a text**: its characters and escapes, with what there is of an escape at the
end. -/
@[grind =] def units : List UInt8 → List (List UInt8)
  | [] => []
  | [ch] => [[ch]]
  | [ch, a] => if ch = 0x25 then [[ch, a]] else [ch] :: units [a]
  | ch :: a :: b :: d =>
    if ch = 0x25 then [ch, a, b] :: units d else [ch] :: units (a :: b :: d)

/-- The byte that a unit stands for. -/
@[grind =] def decodeUnit (flags : DecodeFlags) : List UInt8 → Option UInt8
  | [ch] => if ch = 0x25 ∨ badReqByte flags ch then none else some ch
  | [_, a, b] =>
    match ffcharTohex a, ffcharTohex b with
    | some x, some y => if x <<< 4 ||| y = 0 then none else some (UInt8.ofNat (x <<< 4 ||| y))
    | _, _ => none
  | _ => none

/-- A whole unit -/
def IsUnit (x : List UInt8) : Prop := (∃ ch, ch ≠ 0x25 ∧ x = [ch]) ∨ ∃ a b, x = [0x25, a, b]

theorem units_cons {ch : UInt8} (hch : ch ≠ 0x25) (d : List UInt8) :
    units (ch :: d) = [ch] :: units d := by
  match d with
  | [] => rfl
  | [a] => simp only [units, if_neg hch]
  | a :: b :: d => simp only [units, if_neg hch]

theorem units_escape (a b : UInt8) (d : List UInt8) :
    units (0x25 :: a :: b :: d) = [0x25, a, b] :: units d := by
  rw [units, if_pos rfl]

theorem units_short {d : List UInt8} (hd : d.length ≤ 1) : units (0x25 :: d) = [0x25 :: d] := by
  match d with
  | [] => rfl
  | [a] => rfl
  | _ :: _ :: _ => simp at hd

theorem decodeUnit_short {flags : DecodeFlags} {d : List UInt8} (hd : d.length ≤ 1) :
    decodeUnit flags (0x25 :: d) = none := by
  match d with
  | [] => rw [decodeUnit, if_pos (Or.inl rfl)]
  | [a] => rfl
  | _ :: _ :: _ => simp at hd

theorem units_cases (d : List UInt8) :
    d = [] ∨ (∃ ch d', ch ≠ 0x25 ∧ d = ch :: d') ∨ (∃ a b d', d = 0x25 :: a :: b :: d') ∨
      ∃ d', d'.length ≤ 1 ∧ d = 0x25 :: d' := by
  match d with
  | [] => exact .inl rfl
  | ch :: d =>
    by_cases hch : ch = 0x25
    · rw [hch]
      match d with
      | [] => exact .inr (.inr (.inr ⟨[], Nat.zero_le 1, rfl⟩))
      | [a] => exact .inr (.inr (.inr ⟨[a], le_rfl, rfl⟩))
      | a :: b :: d => exact .inr (.inr (.inl ⟨a, b, d, rfl⟩))
    · exact .inr (.inl ⟨ch, d, hch, rfl⟩)

/-- **Whole units, put together, have these units.** -/
theorem units_flatten {us : List (List UInt8)} (hus : ∀ x ∈ us, IsUnit x) :
    units us.flatten = us := by
  induction us with
  | nil => rfl
  | cons x us ih =>
    have hrest := ih fun y hy => hus y (mem_cons_of_mem _ hy)
    rw [flatten_cons]
    rcases hus x mem_cons_self with ⟨ch, hch, rfl⟩ | ⟨a, b, rfl⟩
    · rw [singleton_append, units_cons hch, hrest]
    · have happ : [0x25, a, b] ++ us.flatten = 0x25 :: a :: b :: us.flatten := rfl
      rw [happ, units_escape, hrest]

/-! ### Decoding -/

section Decode

variable {cap : ℕ} {flags : DecodeFlags}

/-- The result of the loop, where it ends behind a unit. -/
@[grind =] def loopBytes : Option (UriSt × List UInt8 × List UInt8) → Option (List UInt8)
  | some (.uri, dst, _) => some dst
  | _ => none

theorem loop_char {ch : UInt8} (hch : ch ≠ 0x25) {b : ℕ} {dst d : List UInt8}
    (hroom : dst.length < cap) :
    decodeLoop cap flags .uri b dst (ch :: d) =
      (decodeUnit flags [ch]).bind fun c => decodeLoop cap flags .uri b (dst ++ [c]) d := by
  rw [decodeLoop, if_pos hroom, decodeUnit]
  simp only [if_neg hch]
  cases hbad : badReqByte flags ch with
  | true =>
    rw [if_pos rfl, if_pos (.inr rfl)]
    rfl
  | false =>
    rw [if_neg Bool.false_ne_true, if_neg (by simp [hch])]
    rfl

theorem loop_escape (a c : UInt8) {b : ℕ} {dst d : List UInt8} (hroom : dst.length < cap) :
    ∃ b', decodeLoop cap flags .uri b dst (0x25 :: a :: c :: d) =
      (decodeUnit flags [0x25, a, c]).bind fun x =>
        decodeLoop cap flags .uri b' (dst ++ [x]) d := by
  rw [decodeLoop, if_pos hroom, if_pos rfl, decodeLoop, if_pos hroom, decodeUnit]
  cases ha : ffcharTohex a with
  | none => exact ⟨0, rfl⟩
  | some x =>
    dsimp only
    rw [decodeLoop, if_pos hroom]
    cases hc : ffcharTohex c with
    | none => exact ⟨0, rfl⟩
    | some y =>
      refine ⟨x <<< 4 ||| y, ?_⟩
      dsimp only
      by_cases hzero : x <<< 4 ||| y = 0
      · rw [if_pos hzero, if_pos hzero]
        rfl
      · rw [if_neg hzero, if_neg hzero]
        rfl

theorem loop_short {d : List UInt8} (hd : d.length ≤ 1) {b : ℕ} {dst : List UInt8}
    (hroom : dst.length < cap) : loopBytes (decodeLoop cap flags .uri b dst (0x25 :: d)) = none := by
  match d with
  | [] =>
    rw [decodeLoop, if_pos hroom]
    rfl
  | [a] =>
    rw [decodeLoop, if_pos hroom, if_pos rfl, decodeLoop, if_pos hroom]
    cases ffcharTohex a with
    | none => rfl
    | some x => rfl
  | _ :: _ :: _ => simp at hd

/-- **The loop over a text** for whose units there is room -/
theorem decodeLoop_units {d dst : List UInt8} {b : ℕ}
    (hroom : dst.length + (units d).length ≤ cap) :
    loopBytes (decodeLoop cap flags .uri b dst d) =
      ((units d).mapM (decodeUnit flags)).map fun v => dst ++ v := by
  have hstep : ∀ {x : List UInt8} {us : List (List UInt8)} {dst : List UInt8} (r : UInt8 → Option
      (UriSt × List UInt8 × List UInt8)), (∀ c, decodeUnit flags x = some c →
        loopBytes (r c) = (us.mapM (decodeUnit flags)).map fun v => dst ++ [c] ++ v) →
      loopBytes ((decodeUnit flags x).bind r) =
        ((x :: us).mapM (decodeUnit flags)).map fun v => dst ++ v := by
    intro x us dst r hr
    rw [mapM_cons]
    cases hx : decodeUnit flags x with
    | none => rfl
    | some c =>
      refine (hr c hx).trans ?_
      cases us.mapM (decodeUnit flags) with
      | none => rfl
      | some v => simp
  obtain ⟨n, hn⟩ : ∃ n, d.length = n := ⟨_, rfl⟩
  induction n using Nat.strong_induction_on generalizing d dst b with
  | _ n ih =>
    rcases units_cases d with rfl | ⟨ch, d, hch, rfl⟩ | ⟨a, c, d, rfl⟩ | ⟨d, hd, rfl⟩
    · simp [units, decodeLoop, loopBytes]
    · rw [units_cons hch, length_cons] at hroom
      rw [length_cons] at hn
      rw [loop_char hch (by omega), units_cons hch]
      refine hstep _ fun x _ => ih d.length (by omega) ?_ rfl
      rw [length_append, length_singleton]
      omega
    · rw [units_escape, length_cons] at hroom
      rw [length_cons, length_cons, length_cons] at hn
      obtain ⟨b', hloop⟩ := @loop_escape cap flags a c b dst d (by omega)
      rw [hloop, units_escape]
      refine hstep _ fun x _ => ih d.length (by omega) ?_ rfl
      rw [length_append, length_singleton]
      omega
    · rw [units_short hd, length_singleton] at hroom
      rw [loop_short hd (by omega), units_short hd, mapM_cons, decodeUnit_short hd]
      rfl

/-- **A buffer with room for all units** gets the whole text, decoded. -/
theorem ffuriDecode_units {d : List UInt8} (hroom : (units d).length ≤ cap) :
    ffuriDecode cap d flags =
      match (units d).mapM (decodeUnit flags) with
      | some v => decodeEnd cap flags v
      | none => .error .zero := by
  have hloop := @decodeLoop_units cap flags d [] 0 (by rwa [length_nil, Nat.zero_add])
  have hmap : ((units d).mapM (decodeUnit flags)).map (fun v => [] ++ v) =
      (units d).mapM (decodeUnit flags) := by simp
  rw [ffuriDecode, ← hmap, ← hloop]
  cases decodeLoop cap flags .uri 0 [] d with
  | none => rfl
  | some r =>
    obtain ⟨idx, dst, rest⟩ := r
    cases idx with
    | uri => rfl
    | quoted1 => rfl
    | quoted2 => rfl

theorem length_mapM_decodeUnit {us : List (List UInt8)} {v : List UInt8}
    (h : us.mapM (decodeUnit flags) = some v) : v.length = us.length := by
  induction us generalizing v with
  | nil =>
    cases h
    rfl
  | cons x us ih =>
    rw [mapM_cons] at h
    obtain ⟨c, -, h⟩ := bind_eq_some_iff.mp h
    obtain ⟨w, hw, h⟩ := bind_eq_some_iff.mp h
    obtain rfl := some.inj h
    rw [length_cons, length_cons, ih hw]

theorem decodeEnd_raw (httpreq : Bool) {v : List UInt8} (hv : v ≠ []) :
    decodeEnd cap ⟨false, httpreq⟩ v = .ok v := if_neg hv

theorem decodeEnd_raw_ok {httpreq : Bool} {v out : List UInt8}
    (h : decodeEnd cap ⟨false, httpreq⟩ v = .ok out) : out = v := by
  by_cases hv : v = []
  · have hzero : decodeEnd cap ⟨false, httpreq⟩ v = .error .zero := if_pos hv
    rw [hzero] at h
    cases h
  · rw [decodeEnd_raw httpreq hv] at h
    exact (Except.ok.inj h).symm

theorem decodeEnd_length {v out : List UInt8} (h : decodeEnd cap flags v = .ok out) :
    out.length ≤ v.length := by
  obtain ⟨normPath, httpreq⟩ := flags
  cases normPath with
  | false => rw [decodeEnd_raw_ok h]
  | true =>
    have hdo : decodeEnd cap ⟨true, httpreq⟩ v =
        (Path.ffpathNorm cap v uriNormFlags).bind fun dst =>
          if dst = [] then .error .zero else .ok dst := rfl
    rw [hdo] at h
    cases hnorm : Path.ffpathNorm cap v uriNormFlags with
    | error e =>
      rw [hnorm] at h
      cases h
    | ok dst =>
      rw [hnorm] at h
      have hite : (if dst = [] then Except.error Path.NormStop.zero else .ok dst) =
          .ok out := h
      split_ifs at hite with hnil
      obtain rfl := Except.ok.inj hite
      exact Path.length_ffpathNorm hnorm

theorem decodeEnd_ne_fault (hcap : 1 ≤ cap) (v : List UInt8) :
    decodeEnd cap flags v ≠ .error .fault := by
  obtain ⟨normPath, httpreq⟩ := flags
  have hend : ∀ dst : List UInt8,
      (if dst = [] then Except.error Path.NormStop.zero else .ok dst) ≠ .error .fault := by
    intro dst h
    split_ifs at h
    cases h
  cases normPath with
  | false => exact hend v
  | true =>
    have hdo : decodeEnd cap ⟨true, httpreq⟩ v =
        (Path.ffpathNorm cap v uriNormFlags).bind fun dst =>
          if dst = [] then .error .zero else .ok dst := rfl
    have hnorm := Path.ffpathNorm_ne_fault hcap v uriNormFlags
    rw [hdo]
    cases hcase : Path.ffpathNorm cap v uriNormFlags with
    | error e =>
      rw [hcase] at hnorm
      exact fun h => hnorm (congrArg _ (Except.error.inj h))
    | ok dst => exact hend dst

end Decode

/-! ### Reading what is escaped -/

/-- What is not escaped is no `%`, and is allowed in a request. -/
theorem plain_of_testarr {type : FFURI_ESCAPE} {b : UInt8}
    (h : ffbitTestarr (uriEncodeTypes type) b.toNat = true) (flags : DecodeFlags) :
    b ≠ 0x25 ∧ badReqByte flags b = false := by
  have hall : ∀ i : Fin 256, ffbitTestarr (uriEncodeTypes type) i = true →
      UInt8.ofNat i ≠ 0x25 ∧ (ffcharIsansiwhite (UInt8.ofNat i) || UInt8.ofNat i == 0x23) =
        false := by
    cases type with
    | whole => decide +kernel
    | pathseg => decide +kernel
    | qsseg => decide +kernel
  have hb := hall ⟨b.toNat, b.toNat_lt⟩ h
  rw [UInt8.ofNat_toNat] at hb
  refine ⟨hb.1, ?_⟩
  rw [badReqByte, hb.2, Bool.and_false]

theorem isUnit_escByte (type : FFURI_ESCAPE) (b : UInt8) :
    IsUnit (escByte (uriEncodeTypes type) b) := by
  rw [escByte]
  cases hb : ffbitTestarr (uriEncodeTypes type) b.toNat with
  | true => exact .inl ⟨b, (plain_of_testarr hb ⟨false, false⟩).1, if_pos rfl⟩
  | false => exact .inr ⟨_, _, if_neg Bool.false_ne_true⟩

/-- **An escaped byte is decoded.** -/
theorem decodeUnit_escByte (type : FFURI_ESCAPE) (flags : DecodeFlags) {b : UInt8} (hb : b ≠ 0) :
    decodeUnit flags (escByte (uriEncodeTypes type) b) = some b := by
  rw [escByte]
  cases hesc : ffbitTestarr (uriEncodeTypes type) b.toNat with
  | true =>
    obtain ⟨hne, hok⟩ := plain_of_testarr hesc flags
    rw [if_pos rfl, decodeUnit, hok]
    exact if_neg (by simp [hne])
  | false =>
    have hall : ∀ i : Fin 256, UInt8.ofNat i ≠ 0 →
        decodeUnit ⟨false, false⟩ (0x25 :: ffsHexbyte (UInt8.ofNat i) ffHEX) =
          some (UInt8.ofNat i) := by
      decide +kernel
    have hdec := hall ⟨b.toNat, b.toNat_lt⟩
    rw [UInt8.ofNat_toNat] at hdec
    rw [if_neg Bool.false_ne_true]
    exact hdec hb

/-- **What is escaped is read back.** -/
theorem ffuriDecode_escape (type : FFURI_ESCAPE) (httpreq : Bool) {s : List UInt8} (hs : s ≠ [])
    (hnul : (0 : UInt8) ∉ s) {cap : ℕ} (hcap : s.length ≤ cap) :
    ffuriDecode cap (s.flatMap (escByte (uriEncodeTypes type))) ⟨false, httpreq⟩ = .ok s := by
  have hflat : s.flatMap (escByte (uriEncodeTypes type)) =
      (s.map (escByte (uriEncodeTypes type))).flatten := flatMap_def
  have hunits : units (s.flatMap (escByte (uriEncodeTypes type))) =
      s.map (escByte (uriEncodeTypes type)) := by
    rw [hflat]
    refine units_flatten fun x hx => ?_
    obtain ⟨b, -, rfl⟩ := mem_map.mp hx
    exact isUnit_escByte type b
  have hdec : (s.map (escByte (uriEncodeTypes type))).mapM (decodeUnit ⟨false, httpreq⟩) =
      some s := by
    clear hs hcap hflat hunits
    induction s with
    | nil => rfl
    | cons b s ih =>
      obtain ⟨hb, hs'⟩ := not_or.mp (mem_cons.not.mp hnul)
      rw [map_cons, mapM_cons, decodeUnit_escByte type _ (Ne.symm hb), ih hs']
      rfl
  rw [ffuriDecode_units (by rwa [hunits, length_map]), hunits, hdec]
  exact decodeEnd_raw httpreq hs

/-! ### The path that the parser has read -/

/-- A unit of a path -/
def PathUnit (x : List UInt8) : Prop :=
  (∃ ch, isPathChar ch = true ∧ x = [ch]) ∨
    ∃ a b, ffcharIshex a = true ∧ ffcharIshex b = true ∧ x = [0x25, a, b]

theorem PathUnit.isUnit {x : List UInt8} (hx : PathUnit x) : IsUnit x := by
  rcases hx with ⟨ch, hch, rfl⟩ | ⟨a, b, -, -, rfl⟩
  · refine .inl ⟨ch, ?_, rfl⟩
    rintro rfl
    exact absurd hch (by decide)
  · exact .inr ⟨a, b, rfl⟩

theorem length_le_flatten {us : List (List UInt8)} (hus : ∀ x ∈ us, PathUnit x) :
    us.length ≤ us.flatten.length := by
  induction us with
  | nil => exact le_rfl
  | cons x us ih =>
    have hrest := ih fun y hy => hus y (mem_cons_of_mem _ hy)
    have hpos : 1 ≤ x.length := by
      rcases hus x mem_cons_self with ⟨ch, -, rfl⟩ | ⟨a, b, -, -, rfl⟩
      · exact le_rfl
      · exact Nat.le_add_left 1 2
    rw [length_cons, flatten_cons, length_append]
    omega

/-- The fields for a path of the units `us` behind `front`, and the beginning `part` of an
escape. -/
structure PathFields (u : Ffurl) (front : List UInt8) (us : List (List UInt8))
    (part : List UInt8) : Prop where
  all : ∀ x ∈ us, PathUnit x
  offpath : u.offpath = front.length
  pathlen : u.pathlen = us.flatten.length + part.length
  decoded : u.decodedPathlen = us.length + if part = [] then 0 else 1

/-- **What the parser has read of the path.** -/
@[grind =] def PathInv (u : Ffurl) (seen : List UInt8) : Prop :=
  match u.idx with
  | .path => ∃ front us, seen = front ++ us.flatten ∧ PathFields u front us []
  | .quoted1 => ∃ front us, seen = front ++ us.flatten ++ [0x25] ∧ PathFields u front us [0x25]
  | .quoted2 => ∃ front us a, ffcharIshex a = true ∧ seen = front ++ us.flatten ++ [0x25, a] ∧
      PathFields u front us [0x25, a]
  | .qs => ∃ front us rest, seen = front ++ us.flatten ++ rest ∧ PathFields u front us []
  | _ => u.pathlen = 0 ∧ u.decodedPathlen = 0

/-- What a byte does to the invariant. -/
@[grind =] def UrlStepInv (pre : List UInt8) (ch : UInt8) : UrlStep → Prop
  | .ok u => PathInv u (pre ++ [ch])
  | .error (.estop, u) => PathInv u pre ∧ u.idx ≠ .quoted1 ∧ u.idx ≠ .quoted2
  | .error _ => True

section Steps

variable {u : Ffurl} {pre front : List UInt8} {us : List (List UInt8)} {ch : UInt8}

theorem PathFields.char (hf : PathFields u front us []) (hch : isPathChar ch = true)
    (hlen : (front ++ us.flatten).length + 1 < 2 ^ 16) (idx : UrlSt) (complex : Bool) :
    PathFields { u.addPath with idx := idx, complex := complex } front (us ++ [[ch]]) [] := by
  have hle := length_le_flatten hf.all
  have hpath := hf.pathlen
  have hdec := hf.decoded
  rw [length_append] at hlen
  rw [length_nil, Nat.add_zero] at hpath
  rw [if_pos rfl, Nat.add_zero] at hdec
  refine ⟨?_, hf.offpath, ?_, ?_⟩
  · intro x hx
    rcases mem_append.mp hx with hx | hx
    · exact hf.all x hx
    · exact .inl ⟨ch, hch, mem_singleton.mp hx⟩
  · show (u.pathlen + 1) % 2 ^ 16 = _
    rw [flatten_append, length_append, flatten_singleton, length_singleton, length_nil, hpath]
    omega
  · show (u.decodedPathlen + 1) % 2 ^ 16 = _
    rw [if_pos rfl, length_append, length_singleton, hdec]
    omega

theorem PathFields.percent (hf : PathFields u front us [])
    (hlen : (front ++ us.flatten).length + 1 < 2 ^ 16) :
    PathFields { u.addPath with complex := true, idx := .quoted1 } front us [0x25] := by
  have hle := length_le_flatten hf.all
  have hpath := hf.pathlen
  have hdec := hf.decoded
  rw [length_append] at hlen
  rw [length_nil, Nat.add_zero] at hpath
  rw [if_pos rfl, Nat.add_zero] at hdec
  refine ⟨hf.all, hf.offpath, ?_, ?_⟩
  · show (u.pathlen + 1) % 2 ^ 16 = us.flatten.length + 1
    rw [hpath]
    omega
  · show (u.decodedPathlen + 1) % 2 ^ 16 = us.length + 1
    rw [hdec]
    omega

theorem stPath_inv (hidx : u.idx = .path) (hpre : pre = front ++ us.flatten)
    (hf : PathFields u front us []) (hlen : pre.length + 1 < 2 ^ 16) :
    UrlStepInv pre ch (stPath u pre ch) := by
  have hlen' : (front ++ us.flatten).length + 1 < 2 ^ 16 := hpre ▸ hlen
  have hchar : isPathChar ch = true → ∀ complex,
      PathInv { u.addPath with idx := .path, complex := complex } (pre ++ [ch]) := by
    intro hch complex
    refine ⟨front, us ++ [[ch]], ?_, hf.char hch hlen' .path complex⟩
    rw [hpre, flatten_append, flatten_singleton, append_assoc]
  rw [stPath]
  by_cases hpercent : ch = 0x25
  · rw [if_pos hpercent, hpercent]
    exact ⟨front, us, by rw [hpre], hf.percent hlen'⟩
  rw [if_neg hpercent]
  by_cases hquestion : ch = 0x3f
  · rw [if_pos hquestion]
    exact ⟨front, us, [ch], by rw [hpre], hf.all, hf.offpath, hf.pathlen, hf.decoded⟩
  rw [if_neg hquestion]
  by_cases hslash : ch = 0x2f ∨ ch = 0x2e
  · rw [if_pos hslash]
    have hch : isPathChar ch = true := by rcases hslash with rfl | rfl <;> decide
    have hinv := hchar hch (u.complex || decide (pre.getLast? = some 0x2f))
    rw [← hidx] at hinv
    exact hinv
  rw [if_neg hslash]
  by_cases hstop : ffcharIsansiwhite ch = true ∨ ch = 0x23
  · rw [if_pos hstop]
    refine ⟨?_, ?_, ?_⟩
    · rw [PathInv, hidx]
      exact ⟨front, us, hpre, hf⟩
    · rw [hidx]
      decide
    · rw [hidx]
      decide
  rw [if_neg hstop]
  rw [not_or] at hstop
  have hch : isPathChar ch = true := by simp [isPathChar, hpercent, hquestion, hstop]
  have hinv := hchar hch u.complex
  rw [← hidx] at hinv
  exact hinv

/-- Nothing has been counted. -/
def NoPath (u : Ffurl) : Prop := u.pathlen = 0 ∧ u.decodedPathlen = 0

theorem stPathStart_inv (hu : NoPath u) (hlen : pre.length + 1 < 2 ^ 16) :
    UrlStepInv pre ch (stPathStart u pre ch) := by
  rw [stPathStart]
  by_cases hch : ch ≠ 0x2f
  · rw [if_pos hch]
    refine ⟨hu, ?_, ?_⟩
    · intro h
      cases h
    · intro h
      cases h
  · rw [if_neg hch]
    refine @stPath_inv _ pre pre [] ch rfl (append_nil pre).symm ?_ hlen
    refine ⟨?_, Nat.mod_eq_of_lt (by omega), hu.1, hu.2⟩
    intro x hx
    cases hx

theorem stPort_inv (hu : NoPath u) (hlen : pre.length + 1 < 2 ^ 16) :
    UrlStepInv pre ch (stPort u pre ch) := by
  rw [stPort]
  split_ifs
  · dsimp only
    split_ifs
    · trivial
    · exact hu
  · exact stPathStart_inv hu hlen

theorem stAfterHost_inv (hu : NoPath u) (hlen : pre.length + 1 < 2 ^ 16) :
    UrlStepInv pre ch (stAfterHost u pre ch) := by
  rw [stAfterHost]
  by_cases hcolon : ch = 0x3a
  · rw [if_pos hcolon]
    by_cases hoff : u.offhost = 0
    · rw [if_pos hoff]
      exact hu
    · rw [if_neg hoff]
      exact hu
  · rw [if_neg hcolon]
    exact stPathStart_inv hu hlen

theorem stHost_inv (hu : NoPath u) (hlen : pre.length + 1 < 2 ^ 16) :
    UrlStepInv pre ch (stHost u pre ch) := by
  rw [stHost]
  split_ifs
  · trivial
  · exact hu
  · trivial
  · exact stAfterHost_inv hu hlen

theorem stHostStart_inv (hu : NoPath u) (hlen : pre.length + 1 < 2 ^ 16) :
    UrlStepInv pre ch (stHostStart u pre ch) := by
  rw [stHostStart]
  split_ifs
  · exact hu
  · exact stHost_inv hu hlen
  · exact stPathStart_inv hu hlen
  · exact stHost_inv hu hlen

theorem stPortOrScheme_inv (hu : NoPath u) (hlen : pre.length + 1 < 2 ^ 16) :
    UrlStepInv pre ch (stPortOrScheme u pre ch) := by
  rw [stPortOrScheme]
  split_ifs
  · exact hu
  · exact stPort_inv hu hlen

theorem stIp6_inv (hidx : u.idx = .ip6) (hu : NoPath u) : UrlStepInv pre ch (stIp6 u pre ch) := by
  rw [stIp6]
  split_ifs
  · trivial
  · exact hu
  · show PathInv { u with hostlen := (u.hostlen + 1) % 2 ^ 8 } (pre ++ [ch])
    rw [PathInv]
    rw [hidx]
    exact hu
  · trivial

theorem stSchemeSlash2_inv (hu : NoPath u) : UrlStepInv pre ch (stSchemeSlash2 u pre ch) := by
  rw [stSchemeSlash2]
  split_ifs
  · trivial
  · exact hu

theorem stQuoted1_inv (hpre : pre = front ++ us.flatten ++ [0x25])
    (hf : PathFields u front us [0x25]) (hlen : pre.length + 1 < 2 ^ 16) :
    UrlStepInv pre ch (stQuoted .quoted2 u ch) := by
  rw [stQuoted]
  by_cases hch : ffcharIshex ch = true
  · rw [if_pos hch]
    refine ⟨front, us, ch, hch, by rw [hpre, append_assoc]; rfl, hf.all, hf.offpath, ?_,
      hf.decoded⟩
    have hpath := hf.pathlen
    rw [length_singleton] at hpath
    rw [hpre, length_append, length_append, length_singleton] at hlen
    show (u.pathlen + 1) % 2 ^ 16 = us.flatten.length + 2
    rw [hpath]
    omega
  · rw [if_neg hch]
    trivial

theorem stQuoted2_inv {a : UInt8} (ha : ffcharIshex a = true)
    (hpre : pre = front ++ us.flatten ++ [0x25, a]) (hf : PathFields u front us [0x25, a])
    (hlen : pre.length + 1 < 2 ^ 16) : UrlStepInv pre ch (stQuoted .path u ch) := by
  rw [stQuoted]
  by_cases hch : ffcharIshex ch = true
  · rw [if_pos hch]
    have hpath := hf.pathlen
    have hlen2 : ([0x25, a] : List UInt8).length = 2 := rfl
    rw [hlen2] at hpath
    rw [hpre, length_append, length_append, hlen2] at hlen
    refine ⟨front, us ++ [[0x25, a, ch]], ?_, ?_, hf.offpath, ?_, ?_⟩
    · rw [hpre, flatten_append, flatten_singleton]
      simp
    · intro x hx
      rcases mem_append.mp hx with hx | hx
      · exact hf.all x hx
      · exact .inr ⟨a, ch, ha, hch, mem_singleton.mp hx⟩
    · rw [flatten_append, flatten_singleton, length_append]
      show (u.pathlen + 1) % 2 ^ 16 = us.flatten.length + 3
      rw [hpath]
      omega
    · rw [length_append]
      exact hf.decoded
  · rw [if_neg hch]
    trivial

theorem stQs_inv (hidx : u.idx = .qs) (hinv : PathInv u pre) :
    UrlStepInv pre ch (stQs u ch) := by
  rw [stQs]
  have hqs := hinv
  rw [PathInv, hidx] at hqs
  obtain ⟨front, us, rest, hpre, hf⟩ := hqs
  split_ifs
  · refine ⟨hinv, ?_, ?_⟩
    · rw [hidx]
      decide
    · rw [hidx]
      decide
  · show PathInv { u with querystr := true } (pre ++ [ch])
    rw [PathInv]
    rw [hidx]
    refine ⟨front, us, rest ++ [ch], ?_, hf.all, hf.offpath, hf.pathlen, hf.decoded⟩
    rw [hpre, append_assoc]

/-- **A byte keeps the invariant.** -/
theorem urlStep_inv (hinv : PathInv u pre) (hlen : pre.length + 1 < 2 ^ 16) :
    UrlStepInv pre ch (urlStep u pre ch) := by
  have hcase := hinv
  rw [PathInv] at hcase
  rw [urlStep]
  cases hidx : u.idx with
  | hostStart =>
    rw [hidx] at hcase
    exact stHostStart_inv hcase hlen
  | host =>
    rw [hidx] at hcase
    exact stHost_inv hcase hlen
  | ip6 =>
    rw [hidx] at hcase
    exact stIp6_inv hidx hcase
  | afterHost =>
    rw [hidx] at hcase
    exact stAfterHost_inv hcase hlen
  | port =>
    rw [hidx] at hcase
    exact stPort_inv hcase hlen
  | pathStart =>
    rw [hidx] at hcase
    exact stPathStart_inv hcase hlen
  | path =>
    rw [hidx] at hcase
    obtain ⟨front, us, hpre, hf⟩ := hcase
    exact stPath_inv hidx hpre hf hlen
  | quoted1 =>
    rw [hidx] at hcase
    obtain ⟨front, us, hpre, hf⟩ := hcase
    exact stQuoted1_inv hpre hf hlen
  | quoted2 =>
    rw [hidx] at hcase
    obtain ⟨front, us, a, ha, hpre, hf⟩ := hcase
    exact stQuoted2_inv ha hpre hf hlen
  | qs => exact stQs_inv hidx hinv
  | portOrScheme =>
    rw [hidx] at hcase
    exact stPortOrScheme_inv hcase hlen
  | schemeSlash2 =>
    rw [hidx] at hcase
    exact stSchemeSlash2_inv hcase

/-- **The loop keeps the invariant**, to the end of the text or to a character behind the URL. -/
theorem urlLoop_inv {rest : List UInt8} (hinv : PathInv u pre)
    (hlen : (pre ++ rest).length < 2 ^ 16) :
    (urlLoop u pre rest).2.2 <+: pre ++ rest ∧
      ((urlLoop u pre rest).1 = none →
        PathInv (urlLoop u pre rest).2.1 (urlLoop u pre rest).2.2) ∧
      ((urlLoop u pre rest).1 = some .estop →
        PathInv (urlLoop u pre rest).2.1 (urlLoop u pre rest).2.2 ∧
          (urlLoop u pre rest).2.1.idx ≠ .quoted1 ∧ (urlLoop u pre rest).2.1.idx ≠ .quoted2) := by
  induction rest generalizing u pre with
  | nil =>
    refine ⟨by rw [append_nil]; exact prefix_rfl, fun _ => hinv, ?_⟩
    intro h
    cases h
  | cons ch rest ih =>
    have hpre : pre.length + 1 < 2 ^ 16 := by
      rw [length_append, length_cons] at hlen
      omega
    have happ : pre ++ ch :: rest = pre ++ [ch] ++ rest := by simp
    have hstep := @urlStep_inv u pre ch hinv hpre
    rw [urlLoop]
    cases hres : urlStep u pre ch with
    | ok u' =>
      rw [hres] at hstep
      rw [happ] at hlen ⊢
      exact ih hstep hlen
    | error eu =>
      obtain ⟨e, u'⟩ := eu
      rw [hres] at hstep
      refine ⟨prefix_append pre _, ?_, ?_⟩
      · intro h
        cases h
      · intro he
        obtain rfl : e = .estop := some.inj he
        exact hstep

end Steps

/-! ### The calls -/

/-- The object between two calls on a text that grows. -/
def CallsInv (u : Ffurl) (s : List UInt8) : Prop :=
  ∃ seen, seen <+: s ∧ u.len = seen.length ∧ PathInv u seen

/-- What the parser says of the path of a text. -/
def PathUnits (u : Ffurl) (s : List UInt8) : Prop :=
  ∃ us : List (List UInt8), (∀ x ∈ us, PathUnit x) ∧ ffurlGet u s .path = us.flatten ∧ u.decodedPathlen = us.length

section Calls

variable {u : Ffurl} {s s' : List UInt8}

theorem CallsInv.grow (h : CallsInv u s) (hs : s <+: s') : CallsInv u s' := by
  obtain ⟨seen, hseen, hlen, hinv⟩ := h
  exact ⟨seen, hseen.trans hs, hlen, hinv⟩

theorem PathInv.pathUnits {seen : List UInt8} (hinv : PathInv u seen) (hseen : seen <+: s)
    (h1 : u.idx ≠ .quoted1) (h2 : u.idx ≠ .quoted2) : PathUnits u s := by
  have hget : ∀ front us rest, seen = front ++ us.flatten ++ rest → PathFields u front us [] →
      PathUnits u s := by
    rintro front us rest rfl hf
    obtain ⟨t, rfl⟩ := hseen
    refine ⟨us, hf.all, ?_, hf.decoded⟩
    have hpath : u.pathlen = us.flatten.length := hf.pathlen
    rw [ffurlGet, slice, hf.offpath, hpath, append_assoc, append_assoc, drop_left, take_left]
  have hno : u.pathlen = 0 ∧ u.decodedPathlen = 0 → PathUnits u s := by
    rintro ⟨hpath, hdec⟩
    refine ⟨[], nofun, ?_, hdec⟩
    rw [ffurlGet, slice, hpath, take_zero]
    rfl
  rw [PathInv] at hinv
  cases hidx : u.idx with
  | path =>
    rw [hidx] at hinv
    obtain ⟨front, us, hs, hf⟩ := hinv
    exact hget front us [] (by rw [hs, append_nil]) hf
  | qs =>
    rw [hidx] at hinv
    obtain ⟨front, us, rest, hs, hf⟩ := hinv
    exact hget front us rest hs hf
  | quoted1 => exact absurd hidx h1
  | quoted2 => exact absurd hidx h2
  | _ =>
    rw [hidx] at hinv
    exact hno hinv

theorem PathInv.fin {seen : List UInt8} {er : FFURL_E} (hinv : PathInv u seen)
    (hq : er ≠ .emore → u.idx ≠ .quoted1 ∧ u.idx ≠ .quoted2) (n : ℕ) :
    PathInv (u.fin er n) seen := by
  rw [Ffurl.fin]
  split_ifs with h
  · obtain ⟨h1, h2⟩ := hq h.1
    rw [not_or] at h
    rw [PathInv] at hinv ⊢
    cases hidx : u.idx with
    | path => exact absurd hidx h.2.1
    | qs => exact absurd hidx h.2.2
    | quoted1 => exact absurd hidx h1
    | quoted2 => exact absurd hidx h2
    | _ =>
      rw [hidx] at hinv
      exact hinv
  rw [PathInv] at hinv ⊢
  cases hidx : u.idx with
  | path =>
    rw [hidx] at hinv
    obtain ⟨front, us, hs, hf⟩ := hinv
    exact ⟨front, us, hs, hf.all, hf.offpath, hf.pathlen, hf.decoded⟩
  | qs =>
    rw [hidx] at hinv
    obtain ⟨front, us, rest, hs, hf⟩ := hinv
    exact ⟨front, us, rest, hs, hf.all, hf.offpath, hf.pathlen, hf.decoded⟩
  | quoted1 =>
    rw [hidx] at hinv
    obtain ⟨front, us, hs, hf⟩ := hinv
    exact ⟨front, us, hs, hf.all, hf.offpath, hf.pathlen, hf.decoded⟩
  | quoted2 =>
    rw [hidx] at hinv
    obtain ⟨front, us, a, ha, hs, hf⟩ := hinv
    exact ⟨front, us, a, ha, hs, hf.all, hf.offpath, hf.pathlen, hf.decoded⟩
  | _ =>
    rw [hidx] at hinv
    exact hinv

/-- **A call** keeps what is known of the path; at the end of a URL the path has whole units. -/
theorem ffurlParse_inv (h : CallsInv u s) (hlen : s.length < 2 ^ 16) :
    ((ffurlParse u s).1 = .eok ∨ (ffurlParse u s).1 = .emore → CallsInv (ffurlParse u s).2 s) ∧
      ((ffurlParse u s).1 = .eok ∨ (ffurlParse u s).1 = .estop →
        ∀ s', s <+: s' → PathUnits (ffurlParse u s).2 s') := by
  obtain ⟨seen₀, ⟨t, rfl⟩, hulen, hinv⟩ := h
  obtain ⟨⟨er, u', seen⟩, hloop⟩ : ∃ r, urlLoop u seen₀ t = r := ⟨_, rfl⟩
  obtain ⟨hseen, hnone, hstop⟩ := urlLoop_inv hinv hlen
  rw [hloop] at hseen hnone hstop
  have hcall : ffurlParse u (seen₀ ++ t) = (u'.code er, u'.fin (u'.code er) seen.length) := by
    rw [ffurlParse, hulen, take_left, drop_left, hloop]
  have hidx : (u'.fin (u'.code er) seen.length).idx = u'.idx := by
    rw [Ffurl.fin]
    split_ifs <;> rfl
  have hfinlen : (u'.fin (u'.code er) seen.length).len = seen.length := by
    have hmod : seen.length % 2 ^ 16 = seen.length :=
      Nat.mod_eq_of_lt (Nat.lt_of_le_of_lt hseen.length_le hlen)
    rw [Ffurl.fin]
    split_ifs <;> exact hmod
  rw [hcall]
  dsimp only
  cases er with
  | none =>
    have hcode : u'.code none ≠ .emore → u'.idx ≠ .quoted1 ∧ u'.idx ≠ .quoted2 := by
      intro hne
      rw [Ffurl.code, getD_none] at hne
      split_ifs at hne with hcons
      · constructor
        · intro hq
          rw [Ffurl.consistent, hq] at hcons
          cases hcons
        · intro hq
          rw [Ffurl.consistent, hq] at hcons
          cases hcons
      · exact absurd rfl hne
    have hfin := (hnone rfl).fin hcode seen.length
    refine ⟨fun _ => ⟨seen, hseen, hfinlen, hfin⟩, fun her s' hs' => ?_⟩
    have hne : u'.code none ≠ .emore := by
      rcases her with her | her
      · rw [her]
        decide
      · rw [her]
        decide
    obtain ⟨h1, h2⟩ := hcode hne
    exact hfin.pathUnits (hseen.trans hs') (hidx ▸ h1) (hidx ▸ h2)
  | some e =>
    have hcode : u'.code (some e) = e := rfl
    have hreal := urlLoop_error (congrArg Prod.fst hloop)
    rw [hcode] at hidx hfinlen ⊢
    refine ⟨fun her => her.elim (fun h => absurd h hreal.1) fun h => absurd h hreal.2,
      fun her s' hs' => ?_⟩
    obtain rfl := her.resolve_left hreal.1
    obtain ⟨hinv', h1, h2⟩ := hstop rfl
    exact (hinv'.fin (fun _ => ⟨h1, h2⟩) seen.length).pathUnits (hseen.trans hs') (hidx ▸ h1)
      (hidx ▸ h2)

/-- **The path of a URL that is given in prefixes**: the length that the parser records is the
number of its units. -/
theorem ffurlParses_pathUnits {ps : List (List UInt8)}
    (hps : (ps ++ [s]).Pairwise (· <+: ·)) (hlen : s.length < 2 ^ 16) (h : CallsInv u s')
    (hs : ∀ p ∈ ps ++ [s], s' <+: p)
    (her : (ffurlParses u ps s).1 = .eok ∨ (ffurlParses u ps s).1 = .estop) :
    PathUnits (ffurlParses u ps s).2 s := by
  induction ps generalizing u s' with
  | nil =>
    exact (ffurlParse_inv (h.grow (hs s (mem_singleton.mpr rfl))) hlen).2 her s
      prefix_rfl
  | cons p ps ih =>
    obtain ⟨hp, hps'⟩ := pairwise_cons.mp hps
    have hpS : p <+: s := hp s (mem_append_right _ (mem_singleton.mpr rfl))
    have hplen : p.length < 2 ^ 16 := Nat.lt_of_le_of_lt hpS.length_le hlen
    obtain ⟨hmore, hend⟩ := ffurlParse_inv (h.grow (hs p mem_cons_self)) hplen
    rw [ffurlParses] at her ⊢
    by_cases hcode : (ffurlParse u p).1 = .eok ∨ (ffurlParse u p).1 = .emore
    · rw [if_pos hcode] at her ⊢
      exact ih hps' (hmore hcode) hp her
    · rw [if_neg hcode] at her ⊢
      exact hend her s hpS

end Calls

/-! ### The decoded path -/

theorem exists_tohex_of_ishex {ch : UInt8} (h : ffcharIshex ch = true) :
    ∃ b, ffcharTohex ch = some b := by
  have hall : ∀ i : Fin 256, ffcharIshex (UInt8.ofNat i) = true →
      (ffcharTohex (UInt8.ofNat i)).isSome = true := by
    decide +kernel
  have hch := hall ⟨ch.toNat, ch.toNat_lt⟩
  rw [UInt8.ofNat_toNat] at hch
  exact isSome_iff_exists.mp (hch h)

/-- The escape of the byte 0 -/
def nulEscape : List UInt8 := [0x25, 0x30, 0x30]

theorem PathUnit.decode {x : List UInt8} (hx : PathUnit x) (hnul : x ≠ nulEscape)
    (flags : DecodeFlags) : ∃ c, decodeUnit flags x = some c := by
  rcases hx with ⟨ch, hch, rfl⟩ | ⟨a, b, ha, hb, rfl⟩
  · refine ⟨ch, ?_⟩
    simp only [isPathChar, Bool.and_eq_true, bne_iff_ne, Bool.not_eq_true'] at hch
    obtain ⟨⟨⟨hwhite, hsharp⟩, hpercent⟩, -⟩ := hch
    have hok : badReqByte flags ch = false := by
      rw [badReqByte, hwhite, beq_eq_false_iff_ne.mpr hsharp]
      exact Bool.and_false _
    rw [decodeUnit, hok]
    exact if_neg (by simp [hpercent])
  obtain ⟨m, hm⟩ := exists_tohex_of_ishex ha
  obtain ⟨n, hn⟩ := exists_tohex_of_ishex hb
  have hzero : ∀ i : Fin 256, ffcharIshex (UInt8.ofNat i) = true →
      ffcharTohex (UInt8.ofNat i) = some 0 → UInt8.ofNat i = 0x30 := by
    decide +kernel
  have hdigit : ∀ c, ffcharIshex c = true → ffcharTohex c = some 0 → c = 0x30 := by
    intro c
    have hc := hzero ⟨c.toNat, c.toNat_lt⟩
    rwa [UInt8.ofNat_toNat] at hc
  rw [decodeUnit, hm, hn]
  refine ⟨UInt8.ofNat (m <<< 4 ||| n), if_neg fun h => hnul ?_⟩
  rw [Nat.or_eq_zero_iff, Nat.shiftLeft_eq] at h
  have hm0 : m = 0 := by omega
  rw [hdigit a ha (hm0 ▸ hm), hdigit b hb (h.2 ▸ hn)]
  rfl

theorem exists_mapM_of_pathUnits {us : List (List UInt8)} (hus : ∀ x ∈ us, PathUnit x)
    (hnul : nulEscape ∉ us) (flags : DecodeFlags) : ∃ v, us.mapM (decodeUnit flags) = some v := by
  induction us with
  | nil => exact ⟨[], rfl⟩
  | cons x us ih =>
    obtain ⟨hx, hrest⟩ := not_or.mp (mem_cons.not.mp hnul)
    obtain ⟨c, hc⟩ := (hus x mem_cons_self).decode (Ne.symm hx) flags
    obtain ⟨v, hv⟩ := ih (fun y hy => hus y (mem_cons_of_mem _ hy)) hrest
    exact ⟨c :: v, by rw [mapM_cons, hc, hv]; rfl⟩

/-- **What is escaped is read back**, where there is room for it. -/
def EscapeSound (type : FFURI_ESCAPE) (s : List UInt8) : Prop :=
  ∀ capE cap httpreq, ffuriEscapeLen (uriEncodeTypes type) s ≤ capE → s.length ≤ cap →
    ∃ e, ffuriEscape (uriEncodeTypes type) capE s = .ok e ∧
      ffuriDecode cap e ⟨false, httpreq⟩ = .ok s

/-- **A result is that of the whole text**, where there is room for its units. -/
def DecodeSound (cap : ℕ) (flags : DecodeFlags) (d : List UInt8) : Prop :=
  (units d).length ≤ cap → ∀ out, ffuriDecode cap d flags = .ok out →
    ∃ v, (units d).mapM (decodeUnit flags) = some v ∧ decodeEnd cap flags v = .ok out

/-- **The recorded length is that of the decoded path**: there is room for the units of the path
`d`, the result has this length before it is normalized, and it is not longer behind that. -/
structure PathlenSound (n : ℕ) (d : List UInt8) : Prop where
  units : (units d).length = n
  raw : ∀ httpreq out, ffuriDecode n d ⟨false, httpreq⟩ = .ok out → out.length = n
  norm : ∀ httpreq out, ffuriDecode n d ⟨true, httpreq⟩ = .ok out → out.length ≤ n
  decoded : d ≠ [] → nulEscape ∉ Url.units d →
    ∀ httpreq, ∃ out, ffuriDecode n d ⟨false, httpreq⟩ = .ok out
  noFault : d ≠ [] → ∀ flags, ffuriDecode n d flags ≠ .error .fault

theorem decodeSound (cap : ℕ) (flags : DecodeFlags) (d : List UInt8) :
    DecodeSound cap flags d := by
  intro hroom out hout
  rw [ffuriDecode_units hroom] at hout
  cases hv : (units d).mapM (decodeUnit flags) with
  | none =>
    rw [hv] at hout
    cases hout
  | some v =>
    rw [hv] at hout
    exact ⟨v, rfl, hout⟩

theorem escapeSound (type : FFURI_ESCAPE) {s : List UInt8} (hs : s ≠ [])
    (hnul : (0 : UInt8) ∉ s) : EscapeSound type s := by
  intro capE cap httpreq hcapE hcap
  refine ⟨s.flatMap (escByte (uriEncodeTypes type)), ?_,
    ffuriDecode_escape type httpreq hs hnul hcap⟩
  rw [ffuriEscape, escapeLoop_eq, nil_append]
  rw [length_escBytes, length_nil, Nat.zero_add]
  exact hcapE

theorem PathUnits.pathlenSound {u : Ffurl} {s : List UInt8} (h : PathUnits u s) :
    PathlenSound u.decodedPathlen (ffurlGet u s .path) := by
  obtain ⟨us, hall, hget, hdec⟩ := h
  have hunits : units (ffurlGet u s .path) = us := by
    rw [hget]
    exact units_flatten fun x hx => (hall x hx).isUnit
  have hlen : (units (ffurlGet u s .path)).length = u.decodedPathlen := by rw [hunits, hdec]
  have hpos : ffurlGet u s .path ≠ [] → us ≠ [] := by
    rintro hne rfl
    exact hne hget
  refine ⟨hlen, fun httpreq out hout => ?_, fun httpreq out hout => ?_,
    fun hne hnul httpreq => ?_, fun hne flags hfault => ?_⟩
  · obtain ⟨v, hv, hend⟩ := decodeSound _ _ _ hlen.le out hout
    rw [decodeEnd_raw_ok hend, length_mapM_decodeUnit hv, hlen]
  · obtain ⟨v, hv, hend⟩ := decodeSound _ _ _ hlen.le out hout
    have hle := decodeEnd_length hend
    rwa [length_mapM_decodeUnit hv, hlen] at hle
  · rw [hunits] at hnul
    obtain ⟨v, hv⟩ := exists_mapM_of_pathUnits hall hnul ⟨false, httpreq⟩
    have hvne : v ≠ [] := by
      rintro rfl
      have hzero := length_mapM_decodeUnit hv
      exact hpos hne (length_eq_zero_iff.mp hzero.symm)
    refine ⟨v, ?_⟩
    rw [ffuriDecode_units hlen.le, hunits, hv]
    exact decodeEnd_raw httpreq hvne
  have hone : 1 ≤ u.decodedPathlen := by
    rw [hdec]
    exact length_pos_of_ne_nil (hpos hne)
  rw [ffuriDecode_units hlen.le] at hfault
  cases hv : (units (ffurlGet u s .path)).mapM (decodeUnit flags) with
  | none =>
    rw [hv] at hfault
    cases hfault
  | some v =>
    rw [hv] at hfault
    exact decodeEnd_ne_fault hone v hfault

/-- **The three functions agree** on the escapes of a text. -/
theorem ffuri_escape_decode :
    (∀ type s, s ≠ [] → (0 : UInt8) ∉ s → EscapeSound type s) ∧
      (∀ cap flags d, DecodeSound cap flags d) ∧
      ∀ ps s, (ps ++ [s]).Pairwise (· <+: ·) → s.length ≤ 65535 →
        (ffurlParses ffurlInit ps s).1 = .eok ∨ (ffurlParses ffurlInit ps s).1 = .estop →
          PathlenSound (ffurlParses ffurlInit ps s).2.decodedPathlen
            (ffurlGet (ffurlParses ffurlInit ps s).2 s .path) := by
  refine ⟨fun type s hs hnul => escapeSound type hs hnul, decodeSound, ?_⟩
  intro ps s hps hlen her
  have hinit : CallsInv ffurlInit [] := ⟨[], prefix_rfl, rfl, rfl, rfl⟩
  exact (ffurlParses_pathUnits hps (Nat.lt_succ_of_le hlen) hinit
    (fun p _ => nil_prefix) her).pathlenSound

/-- "a b", "/%41" and the path of a URL. -/
theorem ffuri_escape_decode_example :
    EscapeSound .whole (ascii "a b") ∧ DecodeSound 2 ⟨false, true⟩ (ascii "/%41") ∧
      PathlenSound (ffurlParses ffurlInit [ascii "h/a%2"] (ascii "h/a%20b?q")).2.decodedPathlen
        (ffurlGet (ffurlParses ffurlInit [ascii "h/a%2"] (ascii "h/a%20b?q")).2
          (ascii "h/a%20b?q") .path) :=
  ⟨ffuri_escape_decode.1 _ _ (by decide) (by decide), ffuri_escape_decode.2.1 _ _ _,
    ffuri_escape_decode.2.2 _ _ (by decide) (by decide) (.inl (by decide))⟩

/-- **The recorded length is not that of a path that is normalized**: "/a/../b%41" has 8 bytes, and
becomes "/bA". -/
theorem ffuri_decode_normalized :
    (ffurlParse ffurlInit (ascii "/a/../b%41")).1 = .eok ∧
      (ffurlParse ffurlInit (ascii "/a/../b%41")).2.decodedPathlen = 8 ∧
      ffurlGet (ffurlParse ffurlInit (ascii "/a/../b%41")).2 (ascii "/a/../b%41") .path =
        ascii "/a/../b%41" ∧
      ffuriDecode 8 (ascii "/a/../b%41") ⟨true, true⟩ = .ok (ascii "/bA") ∧
      (ascii "/bA").length ≠ 8 := by
  decide

end Url

end FF
