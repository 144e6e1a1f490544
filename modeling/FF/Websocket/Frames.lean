import FF.Websocket.Basic

/-!
# Reading frames in fragments

What the reader returns for frames with a body of less than 126 bytes, whatever fragments they
come in and whatever follows them. The pieces of a body are what the fragments hold of it, and
each piece of a masked body is unmasked from the first byte of the key on.
-/

namespace FF

namespace Websocket

open List

/-! ### Masking from any byte of the key on -/

/-- Masking from the byte `i` of the key on. -/
def xorAt (key : List UInt8) (i : ℕ) (src : List UInt8) : List UInt8 :=
  src.mapIdx fun j b => b ^^^ key.getD ((i + j) % 4) 0

theorem xorAt_nil (key : List UInt8) (i : ℕ) : xorAt key i [] = [] := rfl

theorem length_xorAt (key : List UInt8) (i : ℕ) (src : List UInt8) :
    (xorAt key i src).length = src.length := length_mapIdx

/-- **Masking goes on** where it has stopped. -/
theorem xorAt_append (key : List UInt8) (i : ℕ) (a b : List UInt8) :
    xorAt key i (a ++ b) = xorAt key i a ++ xorAt key (i + a.length) b := by
  rw [xorAt, mapIdx_append]
  congr 1
  refine ext_getElem (by simp [xorAt]) fun j h1 h2 => ?_
  simp only [getElem_mapIdx, xorAt]
  rw [Nat.add_comm j, Nat.add_assoc]

theorem xorAt_mod (key : List UInt8) (i k : ℕ) (src : List UInt8) :
    xorAt key (i + 4 * k) src = xorAt key i src := by
  refine ext_getElem (by simp [xorAt]) fun j h1 h2 => ?_
  simp only [getElem_mapIdx, xorAt]
  have hmod : (i + 4 * k + j) % 4 = (i + j) % 4 := by omega
  rw [hmod]

/-- **`ffmem_xor4`** begins with the first byte of the key. -/
theorem ffmemXor4_eq (key src : List UInt8) : ffmemXor4 key src = xorAt key 0 src := by
  induction src using ffmemXor4.induct with
  | case1 b0 b1 b2 b3 src ih =>
    have hsplit : b0 :: b1 :: b2 :: b3 :: src = [b0, b1, b2, b3] ++ src := rfl
    rw [ffmemXor4, ih, hsplit, xorAt_append]
    have hmod : xorAt key (0 + [b0, b1, b2, b3].length) src = xorAt key 0 src :=
      xorAt_mod key 0 1 src
    rw [hmod]
    rfl
  | case2 src h =>
    rw [ffmemXor4, xorAt]
    · simp only [Nat.zero_add]
    · exact h

/-! ### Parts of a run -/

/-- The reader with the rest `inp` of a fragment and the fragments behind it. In the stream the
fragment begins at `a` and its rest at `x`. -/
structure Cfg where
  w : Ws
  inp : List UInt8
  fs : List (List UInt8)
  a : ℕ
  x : ℕ

/-- **Where the fragment begins** that holds the byte at `pos`, for fragments from `a` on. -/
def fragStart : ℕ → List (List UInt8) → ℕ → ℕ
  | a, [], _ => a
  | a, f :: fs, pos => if pos < a + f.length then a else fragStart (a + f.length) fs pos

/-- The same for the input and the fragments that are left. -/
def Cfg.start (c : Cfg) (pos : ℕ) : ℕ :=
  if pos < c.x + c.inp.length then c.a else fragStart (c.x + c.inp.length) c.fs pos

/-- All the bytes that are left. -/
def Cfg.left (c : Cfg) : List UInt8 := c.inp ++ c.fs.flatten

/-- **A part of a run**: the calls between the two configurations return `rs`. -/
structure Goes (c : Cfg) (rs : List Ret) (c' : Cfg) : Prop where
  reads : ∀ rs' w', Reads c.w c.inp c.fs rs' w' ↔
    ∃ rs'', rs' = rs ++ rs'' ∧ Reads c'.w c'.inp c'.fs rs'' w'
  start : ∀ pos, c'.x ≤ pos → c.start pos = c'.start pos
  le : c.x ≤ c'.x
  inside : c.a ≤ c.x → c'.a ≤ c'.x

theorem Reads.iff_of_parse {w w₁ : Ws} {inp inp₁ : List UInt8} {fs : List (List UInt8)}
    {rs : List Ret} {w' : Ws} (h : ffwebsktParse w inp = ffwebsktParse w₁ inp₁) :
    Reads w inp fs rs w' ↔ Reads w₁ inp₁ fs rs w' := by
  have key : ∀ {w w₁ : Ws} {inp inp₁ : List UInt8},
      ffwebsktParse w inp = ffwebsktParse w₁ inp₁ → Reads w inp fs rs w' →
      Reads w₁ inp₁ fs rs w' := by
    intro w w₁ inp inp₁ h hr
    cases hr with
    | done hp => exact .done (h ▸ hp)
    | feed hp hs => exact .feed (h ▸ hp) hs
    | err hp => exact .err (h ▸ hp)
    | next hp hmore herr hs => exact .next (h ▸ hp) hmore herr hs
  exact ⟨key h, key h.symm⟩

theorem Reads.next_iff {w w₁ : Ws} {inp rest : List UInt8} {fs : List (List UInt8)} {r : Ret}
    {rs : List Ret} {w' : Ws} (h : ffwebsktParse w inp = ⟨r, w₁, rest⟩) (hmore : r ≠ .more)
    (herr : r ≠ .err) :
    Reads w inp fs rs w' ↔ ∃ rs', rs = [r] ++ rs' ∧ Reads w₁ rest fs rs' w' := by
  constructor
  · intro hr
    cases hr with
    | done hp =>
      rw [h] at hp
      cases hp
      exact absurd rfl hmore
    | feed hp hs =>
      rw [h] at hp
      cases hp
      exact absurd rfl hmore
    | err hp =>
      rw [h] at hp
      cases hp
      exact absurd rfl herr
    | next hp hm he hs =>
      rw [h] at hp
      cases hp
      exact ⟨_, rfl, hs⟩
  · rintro ⟨rs', rfl, hs⟩
    exact .next h hmore herr hs

theorem Reads.feed_iff {w w₁ : Ws} {inp f : List UInt8} {fs : List (List UInt8)}
    {rs : List Ret} {w' : Ws} (h : ffwebsktParse w inp = ⟨.more, w₁, []⟩) :
    Reads w inp (f :: fs) rs w' ↔ Reads w₁ f fs rs w' := by
  constructor
  · intro hr
    cases hr with
    | feed hp hs =>
      rw [h] at hp
      cases hp
      exact hs
    | err hp =>
      rw [h] at hp
      cases hp
    | next hp hm he hs =>
      rw [h] at hp
      cases hp
      exact absurd rfl hm
  · intro hs
    exact .feed h hs

theorem Reads.done_iff {w w₁ : Ws} {inp : List UInt8} {rs : List Ret} {w' : Ws}
    (h : ffwebsktParse w inp = ⟨.more, w₁, []⟩) : Reads w inp [] rs w' ↔ rs = [] ∧ w' = w₁ := by
  constructor
  · intro hr
    cases hr with
    | done hp =>
      rw [h] at hp
      cases hp
      exact ⟨rfl, rfl⟩
    | err hp =>
      rw [h] at hp
      cases hp
    | next hp hm he hs =>
      rw [h] at hp
      cases hp
      exact absurd rfl hm
  · rintro ⟨rfl, rfl⟩
    exact .done h

namespace Goes

variable {c c' c'' : Cfg}

theorem refl (c : Cfg) : Goes c [] c :=
  ⟨fun rs' w' => ⟨fun h => ⟨rs', rfl, h⟩, fun ⟨_, he, h⟩ => he ▸ h⟩, fun _ _ => rfl, Nat.le_refl _,
    id⟩

/-- **Parts of a run**, one after another. -/
theorem trans {rs rs' : List Ret} (h : Goes c rs c') (h' : Goes c' rs' c'') :
    Goes c (rs ++ rs') c'' := by
  refine ⟨fun ts w' => ?_, fun pos hpos => ?_, h.le.trans h'.le, h'.inside ∘ h.inside⟩
  · rw [h.reads]
    constructor
    · rintro ⟨ts', rfl, hr⟩
      obtain ⟨ts'', rfl, hrest⟩ := (h'.reads _ _).mp hr
      exact ⟨ts'', (append_assoc ..).symm, hrest⟩
    · rintro ⟨ts'', rfl, hr⟩
      exact ⟨rs' ++ ts'', append_assoc .., (h'.reads _ _).mpr ⟨ts'', rfl, hr⟩⟩
  · rw [h.start pos (h'.le.trans hpos), h'.start pos hpos]

theorem start_drop {w' : Ws} {k : ℕ} (hk : k ≤ c.inp.length) (pos : ℕ) :
    c.start pos = Cfg.start ⟨w', c.inp.drop k, c.fs, c.a, c.x + k⟩ pos := by
  simp only [Cfg.start, length_drop]
  have hsum : c.x + k + (c.inp.length - k) = c.x + c.inp.length := by omega
  rw [hsum]

/-- A call that returns something and takes `k` bytes. -/
theorem next {r : Ret} {w' : Ws} {k : ℕ} (h : ffwebsktParse c.w c.inp = ⟨r, w', c.inp.drop k⟩)
    (hk : k ≤ c.inp.length) (hmore : r ≠ .more) (herr : r ≠ .err) :
    Goes c [r] ⟨w', c.inp.drop k, c.fs, c.a, c.x + k⟩ :=
  ⟨fun _ _ => Reads.next_iff h hmore herr, fun pos _ => start_drop hk pos, Nat.le_add_right _ _,
    fun ha => ha.trans (Nat.le_add_right _ _)⟩

/-- A call that goes on as another one behind `k` bytes. -/
theorem skip {w' : Ws} {k : ℕ} (h : ffwebsktParse c.w c.inp = ffwebsktParse w' (c.inp.drop k))
    (hk : k ≤ c.inp.length) : Goes c [] ⟨w', c.inp.drop k, c.fs, c.a, c.x + k⟩ := by
  refine ⟨fun rs w'' => ?_, fun pos _ => start_drop hk pos, Nat.le_add_right _ _,
    fun ha => ha.trans (Nat.le_add_right _ _)⟩
  rw [Reads.iff_of_parse h]
  exact ⟨fun hr => ⟨rs, rfl, hr⟩, fun ⟨_, he, hr⟩ => he ▸ hr⟩

theorem feed {w' : Ws} {f : List UInt8} {fs : List (List UInt8)} (hfs : c.fs = f :: fs)
    (h : ffwebsktParse c.w c.inp = ⟨.more, w', []⟩) :
    Goes c [] ⟨w', f, fs, c.x + c.inp.length, c.x + c.inp.length⟩ := by
  refine ⟨fun rs w'' => ?_, fun pos hpos => ?_, Nat.le_add_right _ _, fun _ => Nat.le_refl _⟩
  · rw [hfs, Reads.feed_iff h]
    exact ⟨fun hr => ⟨rs, rfl, hr⟩, fun ⟨_, he, hr⟩ => he ▸ hr⟩
  · rw [Cfg.start, if_neg (Nat.not_lt.mpr hpos), hfs]
    rfl

end Goes

/-! ### Gathering -/

/-- The reader gathers `len` bytes for the state `nx` and has `bs` of them. -/
structure Gathering (w : Ws) (nx : Next) (len : ℕ) (bs : List UInt8) : Prop where
  state : w.state = .gather
  nxstate : w.nxstate = nx
  gathlen : w.gathlen = len
  buf : w.buf = bs

/-- What follows when all of the bytes are there. -/
def afterGather (nx : Next) : Ws → List UInt8 → Res := if nx = .hdr then rHdr else rNext

section Gather

variable {c : Cfg} {nx : Next} {t : List UInt8}

theorem parse_gather_short {p : ℕ} (hg : Gathering c.w nx t.length (t.take p))
    (hp : p + c.inp.length < t.length) :
    ffwebsktParse c.w c.inp = ⟨.more, { c.w with buf := t.take p ++ c.inp }, []⟩ := by
  have hlen : (t.take p).length = p := by
    rw [length_take]
    omega
  unfold ffwebsktParse
  simp only [hg.state, rGather, hg.gathlen, hg.buf, hlen]
  rw [Nat.min_eq_right (by omega), take_length, drop_length,
    if_pos (by rw [length_append, hlen]; omega)]

theorem parse_gather_all {p : ℕ} {rest : List UInt8} (hg : Gathering c.w nx t.length (t.take p))
    (hp : p ≤ t.length) (hinp : c.inp = t.drop p ++ rest) :
    ffwebsktParse c.w c.inp = afterGather nx { c.w with buf := t } rest := by
  have hlen : (t.take p).length = p := by
    rw [length_take]
    omega
  have hdrop : (t.drop p).length = t.length - p := length_drop
  unfold ffwebsktParse
  simp only [hg.state, rGather, hg.gathlen, hg.buf, hg.nxstate, hlen, hinp]
  have hmin : min (t.length - p) (t.drop p ++ rest).length = (t.drop p).length := by
    rw [length_append, hdrop]
    omega
  rw [hmin, take_left, drop_left, take_append_drop, if_neg (not_not.mpr rfl)]
  rfl

/-- **Gathering over fragments**: the bytes are taken, and what follows is done. -/
theorem gather_goes {rest : List UInt8} (fs : List (List UInt8)) {p : ℕ} (hfs : c.fs = fs)
    (hg : Gathering c.w nx t.length (t.take p)) (hp : p ≤ t.length)
    (hleft : c.left = t.drop p ++ rest) :
    ∃ c' k, Goes c [] c' ∧ k ≤ c'.inp.length ∧ c'.x + k = c.x + (t.length - p) ∧
      c'.inp.drop k ++ c'.fs.flatten = rest ∧
      ffwebsktParse c'.w c'.inp = afterGather nx { c.w with buf := t } (c'.inp.drop k) := by
  induction fs generalizing c p with
  | nil =>
    have hinp : c.inp = t.drop p ++ rest := by
      rw [← hleft, Cfg.left, hfs, flatten_nil, append_nil]
    refine ⟨c, t.length - p, .refl c, ?_, rfl, ?_, ?_⟩
    · rw [hinp, length_append, length_drop]
      omega
    · rw [hinp, hfs, drop_left' length_drop]
      simp
    · rw [parse_gather_all hg hp hinp]
      rw [hinp, drop_left' length_drop]
  | cons f fs ih =>
    by_cases hshort : p + c.inp.length < t.length
    · have hparse := parse_gather_short hg hshort
      obtain ⟨hinp, hflat⟩ : c.inp = (t.drop p).take c.inp.length ∧
          c.fs.flatten = t.drop (p + c.inp.length) ++ rest := by
        have hle : c.inp.length ≤ (t.drop p).length := by
          rw [length_drop]
          omega
        have hsplit := hleft
        rw [Cfg.left, ← take_append_drop c.inp.length (t.drop p), append_assoc] at hsplit
        obtain ⟨h1, h2⟩ := append_inj hsplit (by rw [length_take]; omega)
        exact ⟨h1, by rw [h2, drop_drop]⟩
      have hbuf : t.take p ++ c.inp = t.take (p + c.inp.length) := by
        rw [take_add]
        exact congrArg _ hinp
      have hgo := Goes.feed hfs hparse
      have hg' : Gathering { c.w with buf := t.take p ++ c.inp } nx t.length
          (t.take (p + c.inp.length)) := ⟨hg.state, hg.nxstate, hg.gathlen, hbuf⟩
      obtain ⟨c', k, hgo', hk, hx, hrest, hres⟩ := @ih
        ⟨{ c.w with buf := t.take p ++ c.inp }, f, fs, c.x + c.inp.length, c.x + c.inp.length⟩
        (p + c.inp.length) rfl hg' (by omega)
        (by rw [Cfg.left, ← hflat, hfs, flatten_cons])
      refine ⟨c', k, hgo.trans hgo', hk, ?_, hrest, hres⟩
      rw [hx]
      simp only
      omega
    have hle : (t.drop p).length ≤ c.inp.length := by
      rw [length_drop]
      omega
    obtain ⟨hinp, hrest⟩ : c.inp = t.drop p ++ c.inp.drop (t.length - p) ∧
        c.inp.drop (t.length - p) ++ c.fs.flatten = rest := by
      have hsplit := hleft
      rw [Cfg.left, ← take_append_drop (t.length - p) c.inp, append_assoc] at hsplit
      obtain ⟨h1, h2⟩ := append_inj hsplit (by
        rw [length_take, length_drop]
        rw [length_drop] at hle
        omega)
      exact ⟨by rw [← h1, take_append_drop], h2⟩
    refine ⟨c, t.length - p, .refl c, ?_, rfl, hrest, parse_gather_all hg hp hinp⟩
    rw [length_drop] at hle
    exact hle

end Gather

/-! ### Frames -/

/-- A frame with a short body: the opcode, the mask key if there is one, and the bytes of the body
as they are in the frame. -/
structure Frame where
  op : UInt8
  key : Option (List UInt8)
  body : List UInt8
  deriving DecidableEq, Repr

namespace Frame

/-- The first two bytes of a frame. -/
def head (f : Frame) : List UInt8 :=
  [WS_F_FIN ||| f.op, UInt8.ofNat f.body.length ||| if f.key.isSome then WS_F_MASK else 0]

/-- The header of a frame. -/
def hdr (f : Frame) : List UInt8 := f.head ++ f.key.getD []

/-- The bytes of a frame. -/
def bytes (f : Frame) : List UInt8 := f.hdr ++ f.body

/-- A frame that the reader accepts. -/
structure Ok (server : Bool) (f : Frame) : Prop where
  op_ne : f.op ≠ 0
  op_lt : f.op.toNat < 16
  len : f.body.length < WS_MAXMSG1
  key : ∀ k ∈ f.key, k.length = 4
  masked : server = true → f.key.isSome = true

/-- **The body as the reader passes it on**, if it begins at `pos` in the stream and the fragment
with a byte begins at the value of `start`: each piece of it is unmasked from the first byte of
the key on. -/
def decoded (f : Frame) (start : ℕ → ℕ) (pos : ℕ) : List UInt8 :=
  match f.key with
  | none => f.body
  | some k => f.body.mapIdx fun j b => b ^^^ k.getD ((j - (start (pos + j) - pos)) % 4) 0

end Frame

theorem first_bits {op : UInt8} (h : op.toNat < 16) :
    (WS_F_FIN ||| op) &&& WS_F_OPCODE = op ∧ (WS_F_FIN ||| op) &&& WS_F_RES = 0 ∧
      (WS_F_FIN ||| op) &&& WS_F_FIN ≠ 0 := by
  have key : ∀ n : Fin 16, (WS_F_FIN ||| UInt8.ofNat n) &&& WS_F_OPCODE = UInt8.ofNat n ∧
      (WS_F_FIN ||| UInt8.ofNat n) &&& WS_F_RES = 0 ∧
      (WS_F_FIN ||| UInt8.ofNat n) &&& WS_F_FIN ≠ 0 := by decide
  have hop : UInt8.ofNat op.toNat = op := UInt8.ofNat_toNat
  have h' := key ⟨op.toNat, h⟩
  rwa [hop] at h'

theorem second_bits {n : ℕ} (h : n < WS_MAXMSG1) (m : Bool) :
    ((UInt8.ofNat n ||| if m then WS_F_MASK else 0) &&& WS_F_DATALEN).toNat = n ∧
      ((UInt8.ofNat n ||| if m then WS_F_MASK else 0) &&& WS_F_MASK ≠ 0 ↔ m = true) := by
  have key : ∀ (k : Fin 126) (m : Bool),
      ((UInt8.ofNat k ||| if m then WS_F_MASK else 0) &&& WS_F_DATALEN).toNat = k ∧
      ((UInt8.ofNat k ||| if m then WS_F_MASK else 0) &&& WS_F_MASK ≠ 0 ↔ m = true) := by
    decide
  exact key ⟨n, h⟩ m

/-- The reader is ready for a frame. -/
structure Ready (server : Bool) (w : Ws) : Prop where
  gathering : Gathering w .hdr 2 []
  cont : w.cont = false
  server : w.server = server

/-- The reader has the header of a frame and `q` bytes of its body. -/
structure InBody (server : Bool) (f : Frame) (q : ℕ) (w : Ws) : Prop where
  state : w.state = .body
  datalen : w.datalen = f.body.length - q
  maskOff : w.maskOff = if f.key.isSome then 2 else 0
  mask : ∀ k ∈ f.key, w.mask = k
  cont : w.cont = false
  server : w.server = server

section Header

variable {server : Bool} {f : Frame} {w : Ws}

theorem hdrLen_unmasked {b1 : UInt8} {n : ℕ} (hn : (b1 &&& WS_F_DATALEN).toNat = n)
    (hlt : n < WS_MAXMSG1) (hm : b1 &&& WS_F_MASK = 0) (hs : w.server = false) :
    hdrLen w b1 = some ({ w with maskOff := 0, datalen := n }, 0) := by
  have h126 : n ≠ 126 := Nat.ne_of_lt hlt
  have h127 : n ≠ 127 := Nat.ne_of_lt (Nat.lt_succ_of_lt hlt)
  unfold hdrLen
  simp only [hn, if_neg h126, if_neg h127, hm, ne_eq, not_true, if_false, hs, Bool.false_eq_true]

theorem hdrLen_masked {b1 : UInt8} {n : ℕ} (hn : (b1 &&& WS_F_DATALEN).toNat = n)
    (hlt : n < WS_MAXMSG1) (hm : b1 &&& WS_F_MASK ≠ 0) :
    hdrLen w b1 = some
      ({ w with maskOff := 2, datalen := n, state := .gather, nxstate := .hok }, 4) := by
  have h126 : n ≠ 126 := Nat.ne_of_lt hlt
  have h127 : n ≠ 127 := Nat.ne_of_lt (Nat.lt_succ_of_lt hlt)
  unfold hdrLen
  simp only [hn, if_neg h126, if_neg h127, if_pos hm, if_true]

theorem rHdr_unmasked (hok : f.Ok server) (hkey : f.key = none) (hw : Ready server w)
    (inp : List UInt8) :
    ∃ w', rHdr { w with buf := f.head } inp = ⟨.msg f.op, w', inp⟩ ∧ InBody server f 0 w' := by
  obtain ⟨hop, hres, hfin⟩ := first_bits hok.op_lt
  obtain ⟨hn, hm⟩ := second_bits hok.len false
  have hserver : w.server = false := by
    rw [hw.server]
    cases hs : server with
    | false => rfl
    | true =>
      have hmask := hok.masked hs
      rw [hkey] at hmask
      cases hmask
  have hb1 : f.head.getD 1 0 = UInt8.ofNat f.body.length ||| if false then WS_F_MASK else 0 := by
    rw [Frame.head, hkey]
    rfl
  have hb0 : f.head.getD 0 0 = WS_F_FIN ||| f.op := rfl
  have hm' := not_not.mp fun h => Bool.false_ne_true (hm.mp h)
  rw [← hb1] at hn hm'
  refine ⟨{ w with
    buf := f.head, state := .body, op := f.op, cont := false, maskOff := 0,
    datalen := f.body.length }, ?_, ?_⟩
  · unfold rHdr
    simp only [hb0, hop, hres, ne_eq, not_true, if_false, hw.cont, Bool.not_false, true_and,
      hok.op_ne, Bool.false_eq_true, false_and, hfin, decide_false]
    rw [hdrLen_unmasked hn hok.len hm']
    · simp only [ne_eq, not_true, if_false, rHok, hok.op_ne]
    · exact hserver
  · exact ⟨rfl, rfl, by rw [hkey]; rfl, by simp [hkey], rfl, hw.server⟩

/-- The reader has two bytes of a header and gathers the mask key. -/
structure InKey (server : Bool) (f : Frame) (w : Ws) : Prop where
  gathering : Gathering w .hok 6 f.head
  datalen : w.datalen = f.body.length
  maskOff : w.maskOff = 2
  op : w.op = f.op
  cont : w.cont = false
  server : w.server = server

theorem rHdr_masked (hok : f.Ok server) (hkey : f.key.isSome = true) (hw : Ready server w)
    (inp : List UInt8) :
    ∃ w', rHdr { w with buf := f.head } inp = ffwebsktParse w' inp ∧ InKey server f w' := by
  obtain ⟨hop, hres, hfin⟩ := first_bits hok.op_lt
  obtain ⟨hn, hm⟩ := second_bits hok.len true
  have hb1 : f.head.getD 1 0 = UInt8.ofNat f.body.length ||| if true then WS_F_MASK else 0 := by
    rw [Frame.head, hkey]
    rfl
  have hb0 : f.head.getD 0 0 = WS_F_FIN ||| f.op := rfl
  have hm' := hm.mpr rfl
  rw [← hb1] at hn hm'
  refine ⟨{ w with
    buf := f.head, state := .gather, nxstate := .hok, gathlen := 6, op := f.op, cont := false,
    maskOff := 2, datalen := f.body.length }, ?_, ?_⟩
  · unfold rHdr
    simp only [hb0, hop, hres, ne_eq, not_true, if_false, hw.cont, Bool.not_false, true_and,
      hok.op_ne, Bool.false_eq_true, false_and, hfin, decide_false]
    rw [hdrLen_masked hn hok.len hm']
    rfl
  · exact ⟨⟨rfl, rfl, rfl, rfl⟩, rfl, rfl, rfl, rfl, hw.server⟩

theorem rNext_masked {k : List UInt8} (hok : f.Ok server) (hkey : f.key = some k)
    (hw : InKey server f w) (inp : List UInt8) :
    ∃ w', rNext { w with buf := f.hdr } inp = ⟨.msg f.op, w', inp⟩ ∧ InBody server f 0 w' := by
  have hlen : k.length = 4 := hok.key k hkey
  have hmask : (f.hdr.drop 2).take 4 = k := by
    rw [Frame.hdr, hkey, drop_left' (by rfl)]
    exact take_of_length_le (Nat.le_of_eq hlen)
  have htwo : ¬(2 = 0) := Nat.succ_ne_zero 1
  refine ⟨{ w with buf := f.hdr, state := .body, mask := k }, ?_, ?_⟩
  · unfold rNext
    simp only [hw.gathering.nxstate, rHok, hw.maskOff, hw.op, ne_eq, htwo,
      not_false_eq_true, if_true, hok.op_ne, if_false, hmask]
  refine ⟨rfl, hw.datalen, ?_, ?_, hw.cont, hw.server⟩
  · rw [hkey]
    exact hw.maskOff
  · intro k' hk'
    rw [hkey] at hk'
    exact Option.some.inj hk'

/-- **The header of a frame** over fragments: the reader returns the opcode. -/
theorem header_goes {c : Cfg} {rest : List UInt8} (hok : f.Ok server) (hw : Ready server c.w)
    (hleft : c.left = f.hdr ++ rest) :
    ∃ c', Goes c [.msg f.op] c' ∧ InBody server f 0 c'.w ∧ c'.left = rest ∧
      c'.x = c.x + f.hdr.length := by
  rw [Frame.hdr, append_assoc] at hleft
  obtain ⟨c₁, k₁, hgo₁, hk₁, hx₁, hrest₁, hparse₁⟩ :=
    @gather_goes c .hdr f.head (f.key.getD [] ++ rest) c.fs 0 rfl hw.gathering (Nat.zero_le _) hleft
  have hx₁' : c₁.x + k₁ = c.x + 2 := hx₁
  cases hkey : f.key with
  | none =>
    obtain ⟨w', hres, hbody⟩ := rHdr_unmasked hok hkey hw (c₁.inp.drop k₁)
    rw [hkey] at hrest₁
    refine ⟨_, hgo₁.trans (Goes.next (hparse₁.trans hres) hk₁ (by simp) (by simp)), hbody,
      hrest₁, ?_⟩
    rw [Frame.hdr, hkey]
    exact hx₁'
  | some key =>
    obtain ⟨w₂, hres₂, hw₂⟩ := rHdr_masked hok (by rw [hkey]; rfl) hw (c₁.inp.drop k₁)
    have hgo₂ := hgo₁.trans (Goes.skip (hparse₁.trans hres₂) hk₁)
    have hlen : key.length = 4 := hok.key key hkey
    have hhdr : f.hdr.length = 6 := by
      rw [Frame.hdr, hkey, length_append]
      simp [Frame.head, hlen]
    have hhead : f.hdr.take 2 = f.head := by
      rw [Frame.hdr, take_left' (by rfl)]
    have hdrop : f.hdr.drop 2 = key := by
      rw [Frame.hdr, hkey, drop_left' (by rfl)]
      rfl
    obtain ⟨c₃, k₃, hgo₃, hk₃, hx₃, hrest₃, hparse₃⟩ :=
      @gather_goes ⟨w₂, c₁.inp.drop k₁, c₁.fs, c₁.a, c₁.x + k₁⟩ .hok f.hdr rest c₁.fs 2 rfl
        (by rw [hhead, hhdr]; exact hw₂.gathering) (by omega)
        (by rw [hdrop]; rw [hkey] at hrest₁; exact hrest₁)
    obtain ⟨w', hres, hbody⟩ := rNext_masked hok hkey hw₂ (c₃.inp.drop k₃)
    refine ⟨_, (hgo₂.trans hgo₃).trans (Goes.next (hparse₃.trans hres) hk₃ (by simp) (by simp)),
      hbody, hrest₃, ?_⟩
    simp only at hx₃ ⊢
    omega

end Header

section Body

variable {server : Bool} {f : Frame} {c : Cfg} {q : ℕ}

/-- A piece of a body as the reader passes it on. -/
def Frame.piece (f : Frame) (bs : List UInt8) : List UInt8 :=
  match f.key with
  | none => bs
  | some k => xorAt k 0 bs

theorem length_decoded (start : ℕ → ℕ) (pos : ℕ) :
    (f.decoded start pos).length = f.body.length := by
  unfold Frame.decoded
  split
  · rfl
  · exact length_mapIdx

theorem decoded_drop_congr {start start' : ℕ → ℕ} {pos : ℕ}
    (h : ∀ j, q ≤ j → start (pos + j) = start' (pos + j)) :
    (f.decoded start pos).drop q = (f.decoded start' pos).drop q := by
  unfold Frame.decoded
  split
  · rfl
  · refine ext_getElem (by simp) fun j h1 h2 => ?_
    simp only [getElem_drop, getElem_mapIdx]
    rw [h (q + j) (Nat.le_add_right q j)]

theorem piece_eq {start : ℕ → ℕ} {pos a n : ℕ} (ha : q = 0 ∧ a ≤ pos ∨ a = pos + q)
    (hstart : ∀ j, q ≤ j → j < q + n → start (pos + j) = a) :
    f.piece ((f.body.drop q).take n) = ((f.decoded start pos).drop q).take n := by
  unfold Frame.piece Frame.decoded
  split
  · rfl
  refine ext_getElem (by simp [xorAt]) fun j h1 h2 => ?_
  have hj : j < n := by
    rw [length_take] at h2
    omega
  simp only [xorAt, getElem_mapIdx, getElem_take, getElem_drop]
  rw [hstart (q + j) (by omega) (by omega)]
  have hphase : q + j - (a - pos) = 0 + j := by omega
  rw [hphase]

theorem parse_fin (hw : InBody server f f.body.length c.w) :
    ∃ w', ffwebsktParse c.w c.inp = ⟨.fin, w', c.inp.drop 0⟩ ∧ Ready server w' := by
  have hdata := hw.datalen
  rw [Nat.sub_self] at hdata
  refine ⟨{ c.w with buf := [], state := .gather, nxstate := .hdr, gathlen := 2 }, ?_,
    ⟨rfl, rfl, rfl, rfl⟩, hw.cont, hw.server⟩
  unfold ffwebsktParse
  simp only [hw.state, rBody, hdata, if_true, drop_zero]

theorem parse_empty (hw : InBody server f q c.w) (hq : q < f.body.length) (hinp : c.inp = []) :
    ffwebsktParse c.w c.inp = ⟨.more, c.w, []⟩ := by
  have hdata : c.w.datalen ≠ 0 := by
    rw [hw.datalen]
    omega
  unfold ffwebsktParse
  simp only [hw.state, rBody, if_neg hdata, hinp, if_true]

theorem parse_data (hok : f.Ok server) (hw : InBody server f q c.w) (hq : q < f.body.length)
    (hinp : c.inp ≠ []) {n : ℕ} (hn : n = min (f.body.length - q) c.inp.length) :
    ∃ w', ffwebsktParse c.w c.inp = ⟨.data (f.piece (c.inp.take n)), w', c.inp.drop n⟩ ∧
      InBody server f (q + n) w' := by
  have hdata : c.w.datalen ≠ 0 := by
    rw [hw.datalen]
    omega
  have hbuf : min (min (f.body.length - q) c.inp.length) BUF_SIZE = n := by
    have hlen := hok.len
    have h1 : WS_MAXMSG1 = 126 := rfl
    have h2 : BUF_SIZE = 4096 := rfl
    omega
  have hrest : f.body.length - q - n = f.body.length - (q + n) := by omega
  refine ⟨{ c.w with datalen := f.body.length - (q + n) }, ?_,
    hw.state, rfl, hw.maskOff, hw.mask, hw.cont, hw.server⟩
  unfold ffwebsktParse
  simp only [hw.state, rBody, if_neg hdata, if_neg hinp, hw.maskOff, Frame.piece]
  cases hkey : f.key with
  | none => simp [hw.datalen, ← hn, hrest]
  | some k =>
    have hmask : c.w.mask = k := hw.mask k hkey
    simp [hw.datalen, hbuf, hrest, hmask, ffmemXor4_eq]

/-- What is to be shown of the rest of a body, from the configuration `c` on. -/
def BodyGoes (server : Bool) (f : Frame) (pos q : ℕ) (rest : List UInt8) (c : Cfg) : Prop :=
  ∃ (c' : Cfg) (pieces : List (List UInt8)), Goes c (pieces.map .data ++ [Ret.fin]) c' ∧
    Ready server c'.w ∧ c'.left = rest ∧ c'.x = pos + f.body.length ∧
    pieces.flatten = (f.decoded c.start pos).drop q

theorem bodyGoes_fin {rest : List UInt8} {pos : ℕ} (hw : InBody server f f.body.length c.w)
    (hleft : c.left = rest) (hx : c.x = pos + f.body.length) :
    BodyGoes server f pos f.body.length rest c := by
  obtain ⟨w', hparse, hready⟩ := parse_fin hw
  refine ⟨_, [], Goes.next hparse (Nat.zero_le _) (by simp) (by simp), hready, ?_, hx, ?_⟩
  · exact hleft
  · rw [flatten_nil, drop_eq_nil_of_le (Nat.le_of_eq (length_decoded _ _))]

theorem BodyGoes.of_goes {c' : Cfg} {rest : List UInt8} {pos : ℕ} (hgo : Goes c [] c')
    (hx : c'.x = pos + q) (h : BodyGoes server f pos q rest c') :
    BodyGoes server f pos q rest c := by
  obtain ⟨c'', pieces, hgo', hready, hleft, hx'', hpieces⟩ := h
  refine ⟨c'', pieces, hgo.trans hgo', hready, hleft, hx'', ?_⟩
  rw [hpieces]
  refine (decoded_drop_congr fun j hj => hgo.start _ ?_).symm
  omega

theorem BodyGoes.of_piece {c' : Cfg} {rest : List UInt8} {pos n : ℕ}
    (hgo : Goes c [.data (f.piece ((f.body.drop q).take n))] c') (hx : c'.x = pos + (q + n))
    (hcx : c.x = pos + q) (hn : n ≤ c.inp.length) (ha : q = 0 ∧ c.a ≤ pos ∨ c.a = pos + q)
    (h : BodyGoes server f pos (q + n) rest c') : BodyGoes server f pos q rest c := by
  obtain ⟨c'', pieces, hgo', hready, hleft, hx'', hpieces⟩ := h
  refine ⟨c'', f.piece ((f.body.drop q).take n) :: pieces, hgo.trans hgo', hready, hleft, hx'', ?_⟩
  have hpiece := @piece_eq f q c.start pos c.a n ha (by
    intro j hj hjn
    rw [Cfg.start, if_pos (by omega)])
  have hcongr := @decoded_drop_congr f (q + n) c'.start c.start pos
    (fun j hj => (hgo.start _ (by omega)).symm)
  rw [flatten_cons, hpieces, hpiece, hcongr, ← drop_drop, take_append_drop]

theorem data_goes (hok : f.Ok server) {rest : List UInt8} (hw : InBody server f q c.w)
    (hlt : q < f.body.length) (hinp : c.inp ≠ []) (hleft : c.left = f.body.drop q ++ rest) {n : ℕ}
    (hn : n = min (f.body.length - q) c.inp.length) :
    ∃ w', Goes c [.data (f.piece ((f.body.drop q).take n))]
        ⟨w', c.inp.drop n, c.fs, c.a, c.x + n⟩ ∧ InBody server f (q + n) w' ∧
      c.inp.drop n ++ c.fs.flatten = f.body.drop (q + n) ++ rest := by
  obtain ⟨w', hparse, hw'⟩ := parse_data hok hw hlt hinp hn
  have hle : n ≤ c.inp.length := by omega
  have hle' : n ≤ (f.body.drop q).length := by
    rw [length_drop]
    omega
  have htake := congrArg (List.take n) hleft
  have hdrop := congrArg (List.drop n) hleft
  rw [Cfg.left, take_append_of_le_length hle, take_append_of_le_length hle'] at htake
  rw [Cfg.left, drop_append_of_le_length hle, drop_append_of_le_length hle', drop_drop] at hdrop
  rw [htake] at hparse
  exact ⟨w', Goes.next hparse hle (by simp) (by simp), hw', hdrop⟩

/-- **A body over fragments**: its pieces, and an end. -/
theorem body_goes (hok : f.Ok server) {rest : List UInt8} {pos : ℕ} (fs : List (List UInt8))
    (hfs : c.fs = fs) (hw : InBody server f q c.w) (hq : q ≤ f.body.length)
    (hleft : c.left = f.body.drop q ++ rest) (hx : c.x = pos + q)
    (ha : q = 0 ∧ c.a ≤ pos ∨ c.a = pos + q) : BodyGoes server f pos q rest c := by
  by_cases hend : q = f.body.length
  · subst hend
    rw [drop_length, nil_append] at hleft
    exact bodyGoes_fin hw hleft hx
  have hlt : q < f.body.length := Nat.lt_of_le_of_ne hq hend
  induction fs generalizing c q with
  | nil =>
    obtain ⟨n, hn⟩ : ∃ n, n = min (f.body.length - q) c.inp.length := ⟨_, rfl⟩
    have hlen : c.inp.length = f.body.length - q + rest.length := by
      have h := congrArg List.length hleft
      rwa [Cfg.left, hfs, flatten_nil, append_nil, length_append, length_drop] at h
    have hinp : c.inp ≠ [] := ne_nil_of_length_pos (by omega)
    obtain ⟨w', hgo, hw', hrest⟩ := data_goes hok hw hlt hinp hleft hn
    have hqn : q + n = f.body.length := by omega
    refine BodyGoes.of_piece hgo (by simp only; omega) hx (by omega) ha ?_
    rw [hqn] at hw' hrest ⊢
    rw [drop_length, nil_append] at hrest
    exact bodyGoes_fin hw' hrest (by simp only; omega)
  | cons g fs ih =>
    by_cases hinp : c.inp = []
    · have hgo := Goes.feed hfs (parse_empty hw hlt hinp)
      have hx0 : c.x + c.inp.length = pos + q := by
        rw [hinp, length_nil]
        exact hx
      refine BodyGoes.of_goes hgo hx0 (ih rfl hw hq ?_ hx0 (.inr hx0) hend hlt)
      rw [Cfg.left, hinp, hfs] at hleft
      exact hleft
    obtain ⟨n, hn⟩ : ∃ n, n = min (f.body.length - q) c.inp.length := ⟨_, rfl⟩
    obtain ⟨w', hgo, hw', hrest⟩ := data_goes hok hw hlt hinp hleft hn
    refine BodyGoes.of_piece hgo (by simp only; omega) hx (by omega) ha ?_
    by_cases hqn : q + n = f.body.length
    · rw [hqn] at hw' hrest ⊢
      rw [drop_length, nil_append] at hrest
      exact bodyGoes_fin hw' hrest (by simp only; omega)
    have hall : c.inp.drop n = [] := drop_eq_nil_of_le (by omega)
    have hlt' : q + n < f.body.length := by omega
    have hgo' := @Goes.feed ⟨w', c.inp.drop n, c.fs, c.a, c.x + n⟩ w' g fs hfs
      (parse_empty hw' hlt' hall)
    have hx' : c.x + n + (c.inp.drop n).length = pos + (q + n) := by
      rw [hall, length_nil]
      omega
    refine BodyGoes.of_goes hgo' hx' (ih rfl hw' (by omega) ?_ hx' (.inr hx') hqn hlt')
    rw [hall, hfs] at hrest
    exact hrest

end Body

/-! ### Whole frames -/

/-- **What the reader returns for frames** from the position `pos` of the stream on. -/
inductive Got (start : ℕ → ℕ) : ℕ → List Frame → List Ret → Prop
  | nil {pos : ℕ} : Got start pos [] []
  | cons {pos : ℕ} {f : Frame} {frs : List Frame} {pieces : List (List UInt8)} {rs : List Ret}
      (h : pieces.flatten = f.decoded start (pos + f.hdr.length))
      (hs : Got start (pos + f.bytes.length) frs rs) :
      Got start pos (f :: frs) (.msg f.op :: (pieces.map Ret.data ++ .fin :: rs))

theorem Got.congr {start start' : ℕ → ℕ} {pos : ℕ} {frs : List Frame} {rs : List Ret}
    (h : Got start pos frs rs) (hs : ∀ i, pos ≤ i → start i = start' i) :
    Got start' pos frs rs := by
  induction h with
  | nil => exact .nil
  | @cons pos f frs pieces rs hp _ ih =>
    have hdec := @decoded_drop_congr f 0 start start' (pos + f.hdr.length)
      (fun j _ => hs _ (by omega))
    rw [drop_zero, drop_zero] at hdec
    exact .cons (hdec ▸ hp) (ih fun i hi => hs i (by omega))

/-- **A frame over fragments** -/
theorem frame_goes {server : Bool} {f : Frame} {c : Cfg} {rest : List UInt8} (hok : f.Ok server)
    (hw : Ready server c.w) (hleft : c.left = f.bytes ++ rest) (ha : c.a ≤ c.x) :
    ∃ (c' : Cfg) (pieces : List (List UInt8)),
      Goes c (.msg f.op :: (pieces.map .data ++ [.fin])) c' ∧ Ready server c'.w ∧
      c'.left = rest ∧ c'.x = c.x + f.bytes.length ∧
      pieces.flatten = f.decoded c.start (c.x + f.hdr.length) := by
  rw [Frame.bytes, append_assoc] at hleft
  obtain ⟨c₁, hgo₁, hbody, hleft₁, hx₁⟩ := header_goes hok hw hleft
  have ha₁ : c₁.a ≤ c.x + f.hdr.length := hx₁ ▸ hgo₁.inside ha
  obtain ⟨c', pieces, hgo, hready, hleft', hx', hpieces⟩ := @body_goes server f c₁ 0 hok rest
    (c.x + f.hdr.length) c₁.fs rfl hbody (Nat.zero_le _) hleft₁ hx₁ (.inl ⟨rfl, ha₁⟩)
  refine ⟨c', pieces, hgo₁.trans hgo, hready, hleft', ?_, ?_⟩
  · rw [hx', Frame.bytes, length_append]
    omega
  · rw [drop_zero] at hpieces
    rw [hpieces]
    have hdec := @decoded_drop_congr f 0 c₁.start c.start (c.x + f.hdr.length)
      (fun j _ => (hgo₁.start _ (by omega)).symm)
    rwa [drop_zero, drop_zero] at hdec

/-- **Frames over fragments** -/
theorem frames_goes {server : Bool} {frs : List Frame} {c : Cfg} {rest : List UInt8}
    (hok : ∀ f ∈ frs, f.Ok server) (hw : Ready server c.w)
    (hleft : c.left = frs.flatMap Frame.bytes ++ rest) (ha : c.a ≤ c.x) :
    ∃ c' rs, Goes c rs c' ∧ Ready server c'.w ∧ c'.left = rest ∧ Got c.start c.x frs rs := by
  induction frs generalizing c with
  | nil => exact ⟨c, [], .refl c, hw, hleft, .nil⟩
  | cons f frs ih =>
    obtain ⟨hf, hfrs⟩ := forall_mem_cons.mp hok
    rw [flatMap_cons, append_assoc] at hleft
    obtain ⟨c₁, pieces, hgo, hready, hleft₁, hx₁, hpieces⟩ := frame_goes hf hw hleft ha
    obtain ⟨c', rs, hgo', hready', hleft', hgot⟩ := ih hfrs hready hleft₁ (hgo.inside ha)
    refine ⟨c', _, hgo.trans hgo', hready', hleft', ?_⟩
    have hgot' : Got c.start (c.x + f.bytes.length) frs rs :=
      hx₁ ▸ hgot.congr fun i hi => (hgo.start i hi).symm
    have hcons := Got.cons hpieces hgot'
    simpa using hcons

end Websocket

end FF
