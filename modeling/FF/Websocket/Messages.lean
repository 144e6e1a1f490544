import FF.Websocket.Frames

/-!
# Messages from the writer to the reader

The frames of the writer, delivered to the reader in fragments. The writer leaves the marks 126
and 127 for a long body out, and the reader begins with the first byte of the key for each piece.
-/

namespace FF

namespace Websocket

open List Option

/-- A message: its opcode, the mask key (0 for none) and its bytes. -/
structure Msg where
  op : UInt8
  mask : UInt32
  payload : List UInt8
  deriving DecidableEq, Repr

/-- A message that may be sent to the reader. -/
structure Msg.Ok (server : Bool) (m : Msg) : Prop where
  op_ne : m.op ≠ 0
  op_lt : m.op.toNat < 16
  len : m.payload.length ≤ WS_MAXMSG
  masked : server = true → m.mask ≠ 0

/-- The frames of the messages. -/
@[grind =] def cookAll : List Msg → Option (List UInt8)
  | [] => some []
  | m :: ms => do
      let bytes ← ffwebsktCook m.mask m.op m.payload
      let rest ← cookAll ms
      some (bytes ++ rest)

/-- **The reader returns the messages**: for each one its opcode, pieces that are its bytes when
they are put together, and an end. -/
inductive Delivers : List Msg → List Ret → Prop
  | nil : Delivers [] []
  | cons {m : Msg} {ms : List Msg} {pieces : List (List UInt8)} {rs : List Ret}
      (h : pieces.flatten = m.payload) (hs : Delivers ms rs) :
      Delivers (m :: ms) (.msg m.op :: (pieces.map Ret.data ++ .fin :: rs))

/-- **What is expected**: the reader takes all the fragments, returns the messages and has no
bytes of a further header. -/
def Transfers (server : Bool) (ms : List Msg) (fs : List (List UInt8)) : Prop :=
  ∃ rs w, Reads (Ws.new server) [] fs rs w ∧ Delivers ms rs ∧ w.buf = []

/-- The size of the frame of a message that is shorter than 126 bytes. -/
def Msg.size (m : Msg) : ℕ := (if m.mask ≠ 0 then 6 else 2) + m.payload.length

/-- **No piece of a masked body is out of phase**: each byte of it is at the same byte of the key
when it is counted from the beginning of the body, and when it is counted from the beginning of
the fragment that has the byte, if this fragment begins in the body. `start` tells where the
fragment of a byte begins. -/
@[grind =] def InPhase (start : ℕ → ℕ) : ℕ → List Msg → Prop
  | _, [] => True
  | pos, m :: ms =>
    (m.mask ≠ 0 → ∀ j < m.payload.length, (keyBytes m.mask).getD (j % 4) 0 =
      (keyBytes m.mask).getD ((j - (start (pos + 6 + j) - (pos + 6))) % 4) 0) ∧
    InPhase start (pos + m.size) ms

/-! ### What the writer writes -/

/-- The body of a message in its frame. -/
def Msg.body (m : Msg) : List UInt8 :=
  if m.mask ≠ 0 then xorAt (keyBytes m.mask) 0 m.payload else m.payload

/-- The frame of a message that is shorter than 126 bytes. -/
def Msg.frame (m : Msg) : Frame :=
  ⟨m.op, if m.mask ≠ 0 then some (keyBytes m.mask) else none, m.body⟩

theorem Msg.length_body (m : Msg) : m.body.length = m.payload.length := by
  unfold Msg.body
  split
  · exact length_xorAt _ _ _
  · rfl

/-- **The calls of `ffwebskt_writenext`** mask the bytes of the message, 4096 at a time. -/
theorem writeLoop_eq {mask : UInt32} {n : ℕ} {payload : List UInt8} (h : payload.length + 2 ≤ n) :
    writeLoop mask n payload =
      some (if mask ≠ 0 then xorAt (keyBytes mask) 0 payload else payload) := by
  induction n generalizing payload with
  | zero => omega
  | succ n ih =>
    rw [writeLoop]
    by_cases hnil : payload = []
    · rw [if_pos hnil, hnil]
      split
      · rfl
      · rfl
    have hlen := length_pos_iff.mpr hnil
    rw [if_neg hnil]
    by_cases hm : mask ≠ 0
    · have hbuf : BUF_SIZE = 4 * 1024 := rfl
      have hdrop : (payload.drop BUF_SIZE).length + 2 ≤ n := by
        rw [length_drop]
        omega
      rw [if_pos hm, ih hdrop, if_pos hm, if_pos hm, map_some, ffmemXor4_eq]
      congr 1
      conv_rhs => rw [← take_append_drop BUF_SIZE payload, xorAt_append]
      congr 1
      by_cases hlong : BUF_SIZE ≤ payload.length
      · rw [length_take_of_le hlong, hbuf, xorAt_mod]
      · rw [drop_eq_nil_of_le (by omega)]
        rfl
    · rw [if_neg hm, if_neg hm, ih (by rw [length_nil]; omega), if_neg hm,
        map_some, append_nil]

/-- **The frame of a short message** -/
theorem ffwebsktCook_short {m : Msg} (h : m.payload.length < WS_MAXMSG1) :
    ffwebsktCook m.mask m.op m.payload = some m.frame.bytes := by
  unfold ffwebsktCook ffwebsktNewmsg
  simp only [if_pos h]
  rw [writeLoop_eq (Nat.le_refl _)]
  unfold Frame.bytes Frame.hdr Frame.head Msg.frame
  rw [m.length_body]
  unfold Msg.body
  split
  · rfl
  · rfl

/-- **The frame of a long message** begins as the frame of an empty one. -/
theorem ffwebsktCook_long {m : Msg} {bytes : List UInt8} (h : WS_MAXMSG1 ≤ m.payload.length)
    (hb : ffwebsktCook m.mask m.op m.payload = some bytes) :
    ∃ key rest, bytes = (Frame.mk m.op key []).bytes ++ rest ∧ (∀ k ∈ key, k.length = 4) ∧
      (m.mask ≠ 0 → key.isSome = true) := by
  obtain ⟨n, hn, hcook⟩ : ∃ n, 2 ≤ n ∧ ffwebsktNewmsg m.mask m.op m.payload =
      some ([WS_F_FIN ||| m.op, if m.mask ≠ 0 then WS_F_MASK else 0] ++ hton n m.payload.length ++
        if m.mask ≠ 0 then keyBytes m.mask else []) := by
    unfold ffwebsktCook at hb
    unfold ffwebsktNewmsg at hb ⊢
    simp only [if_neg (Nat.not_lt.mpr h)] at hb ⊢
    split
    · exact ⟨2, Nat.le_refl 2, rfl⟩
    split
    · exact ⟨8, by omega, rfl⟩
    · rename_i h2 h3
      rw [if_neg h2, if_neg h3] at hb
      cases hb
  have hbody := @writeLoop_eq m.mask (m.payload.length + 2) m.payload (Nat.le_refl _)
  unfold ffwebsktCook at hb
  simp only [hcook, hbody, map_some, some.injEq] at hb
  by_cases hm : m.mask ≠ 0
  · simp only [if_pos hm] at hb
    obtain ⟨key, rest, hsplit, hkey⟩ : ∃ key rest,
        hton n m.payload.length ++ keyBytes m.mask = key ++ rest ∧ key.length = 4 := by
      refine ⟨_, _, (take_append_drop 4 _).symm, ?_⟩
      rw [length_take, length_append]
      have hlen : (keyBytes m.mask).length = 4 := rfl
      omega
    refine ⟨some key, rest ++ xorAt (keyBytes m.mask) 0 m.payload, ?_, ?_, fun _ => rfl⟩
    · rw [← hb, append_assoc _ (hton n _), hsplit]
      simp [Frame.bytes, Frame.hdr, Frame.head]
    · rintro k hk
      cases hk
      exact hkey
  · simp only [if_neg hm] at hb
    refine ⟨none, hton n m.payload.length ++ m.payload, ?_, by simp, fun h => absurd h hm⟩
    rw [← hb]
    simp [Frame.bytes, Frame.hdr, Frame.head]

/-! ### What the reader returns -/

theorem pieces_inj {ps ps' : List (List UInt8)} {rs rs' : List Ret}
    (h : ps.map Ret.data ++ Ret.fin :: rs = ps'.map Ret.data ++ Ret.fin :: rs') :
    ps = ps' ∧ rs = rs' := by
  induction ps generalizing ps' with
  | nil =>
    cases ps' with
    | nil => exact ⟨rfl, (List.cons.inj h).2⟩
    | cons p ps' => cases (List.cons.inj h).1
  | cons p ps ih =>
    cases ps' with
    | nil => cases (List.cons.inj h).1
    | cons p' ps' =>
      obtain ⟨hp, hrest⟩ := List.cons.inj h
      obtain ⟨hps, hrs⟩ := ih hrest
      cases hp
      exact ⟨by rw [hps], hrs⟩

theorem delivers_cons_iff {m : Msg} {ms : List Msg} {ps : List (List UInt8)} {rs : List Ret} :
    Delivers (m :: ms) (.msg m.op :: (ps.map Ret.data ++ .fin :: rs)) ↔
      ps.flatten = m.payload ∧ Delivers ms rs := by
  constructor
  · intro h
    generalize hr : Ret.msg m.op :: (ps.map Ret.data ++ Ret.fin :: rs) = r at h
    cases h with
    | cons hp hs =>
      obtain ⟨rfl, rfl⟩ := pieces_inj (List.cons.inj hr).2
      exact ⟨hp, hs⟩
  · rintro ⟨hp, hs⟩
    exact .cons hp hs

theorem unmask_iff (b x y : UInt8) : (b ^^^ x) ^^^ y = b ↔ x = y := by
  rw [UInt8.xor_assoc]
  conv_lhs => rhs; rw [← UInt8.xor_zero (a := b)]
  rw [UInt8.xor_right_inj, UInt8.xor_eq_zero_iff]

/-- **The body of a message arrives** exactly when no piece of it is out of phase. -/
theorem decoded_frame_iff (m : Msg) (start : ℕ → ℕ) (pos : ℕ) :
    m.frame.decoded start (pos + m.frame.hdr.length) = m.payload ↔
      (m.mask ≠ 0 → ∀ j < m.payload.length, (keyBytes m.mask).getD (j % 4) 0 =
        (keyBytes m.mask).getD ((j - (start (pos + 6 + j) - (pos + 6))) % 4) 0) := by
  by_cases hm : m.mask ≠ 0
  · have hkey : m.frame.key = some (keyBytes m.mask) := if_pos hm
    have hbody : m.frame.body = xorAt (keyBytes m.mask) 0 m.payload := if_pos hm
    have hhdr : m.frame.hdr.length = 6 := by
      rw [Frame.hdr, hkey]
      rfl
    rw [Frame.decoded, hkey, hhdr, hbody]
    simp only [hm, true_implies, ne_eq, not_false_eq_true, forall_const]
    constructor
    · intro h j hj
      have hget := congrArg (fun l : List UInt8 => l[j]?) h
      simp only [xorAt, getElem?_mapIdx, getElem?_eq_getElem hj, map_some,
        some.injEq, Nat.zero_add] at hget
      exact (unmask_iff _ _ _).mp hget
    · intro h
      refine ext_getElem (by simp [xorAt]) fun j h1 h2 => ?_
      simp only [xorAt, getElem_mapIdx, Nat.zero_add]
      exact (unmask_iff _ _ _).mpr (h j h2)
  · have hkey : m.frame.key = none := if_neg hm
    have hbody : m.frame.body = m.payload := if_neg hm
    rw [Frame.decoded, hkey, hbody]
    exact ⟨fun _ h => absurd h hm, fun _ => rfl⟩

theorem Msg.frame_ok {server : Bool} {m : Msg} (hok : m.Ok server)
    (hlen : m.payload.length < WS_MAXMSG1) : m.frame.Ok server where
  op_ne := hok.op_ne
  op_lt := hok.op_lt
  len := m.length_body ▸ hlen
  key := by
    intro k hk
    unfold Msg.frame at hk
    split at hk
    · cases hk
      rfl
    · cases hk
  masked := by
    intro hs
    rw [Msg.frame, if_pos (hok.masked hs)]
    rfl

theorem Msg.length_frame (m : Msg) : m.frame.bytes.length = m.size := by
  rw [Frame.bytes, length_append, Msg.size]
  congr 1
  · unfold Frame.hdr Msg.frame
    split
    · rfl
    · rfl
  · exact m.length_body

/-- Short messages: what the reader returns are the messages when no piece is out of phase. -/
theorem delivers_iff {ms : List Msg} {start : ℕ → ℕ} {pos : ℕ} {rs : List Ret}
    (h : Got start pos (ms.map Msg.frame) rs) : Delivers ms rs ↔ InPhase start pos ms := by
  induction ms generalizing pos rs with
  | nil =>
    cases h
    exact ⟨fun _ => trivial, fun _ => .nil⟩
  | cons m ms ih =>
    rw [map_cons] at h
    cases h with
    | cons hp hs =>
      rw [InPhase, ← decoded_frame_iff, ← hp, ← m.length_frame, ← ih hs]
      exact delivers_cons_iff

theorem parse_ready {server : Bool} {w : Ws} (hw : Ready server w) :
    ffwebsktParse w [] = ⟨.more, { w with buf := [] }, []⟩ :=
  @parse_gather_short ⟨w, [], [], 0, 0⟩ .hdr [0, 0] 0 hw.gathering Nat.zero_lt_two

theorem ready_done {server : Bool} {c : Cfg} (fs : List (List UInt8)) (hfs : c.fs = fs)
    (hw : Ready server c.w) (hleft : c.left = []) :
    ∃ w, w.buf = [] ∧ ∀ rs w', Reads c.w c.inp c.fs rs w' ↔ rs = [] ∧ w' = w := by
  induction fs generalizing c with
  | nil =>
    obtain ⟨hinp, -⟩ := append_eq_nil_iff.mp hleft
    refine ⟨{ c.w with buf := [] }, rfl, fun rs w' => ?_⟩
    rw [hfs, hinp]
    exact Reads.done_iff (parse_ready hw)
  | cons f fs ih =>
    obtain ⟨hinp, hflat⟩ := append_eq_nil_iff.mp hleft
    rw [hfs, flatten_cons] at hflat
    have hready : Ready server { c.w with buf := [] } :=
      ⟨⟨hw.gathering.state, hw.gathering.nxstate, hw.gathering.gathlen, rfl⟩, hw.cont, hw.server⟩
    obtain ⟨w, hbuf, hreads⟩ := @ih ⟨{ c.w with buf := [] }, f, fs, c.x, c.x⟩ rfl hready hflat
    refine ⟨w, hbuf, fun rs w' => ?_⟩
    rw [hfs, hinp, Reads.feed_iff (parse_ready hw)]
    exact hreads rs w'

theorem cookAll_cons {m : Msg} {ms : List Msg} {bytes : List UInt8}
    (h : cookAll (m :: ms) = some bytes) :
    ∃ b rest, ffwebsktCook m.mask m.op m.payload = some b ∧ cookAll ms = some rest ∧
      bytes = b ++ rest := by
  rw [cookAll] at h
  obtain ⟨b, hb, h⟩ := bind_eq_some_iff.mp h
  obtain ⟨rest, hrest, h⟩ := bind_eq_some_iff.mp h
  cases h
  exact ⟨b, rest, hb, hrest, rfl⟩

theorem cookAll_short {ms : List Msg} (h : ∀ m ∈ ms, m.payload.length < WS_MAXMSG1) :
    cookAll ms = some ((ms.map Msg.frame).flatMap Frame.bytes) := by
  induction ms with
  | nil => rfl
  | cons m ms ih =>
    obtain ⟨hm, hms⟩ := forall_mem_cons.mp h
    rw [cookAll, ffwebsktCook_short hm, ih hms]
    rfl

/-- **A long message does not arrive.** -/
theorem not_delivers {server : Bool} {ms : List Msg} {c : Cfg} {rs : List Ret} {w : Ws}
    (hok : ∀ m ∈ ms, m.Ok server) (hw : Ready server c.w) (hleft : cookAll ms = some c.left)
    (ha : c.a ≤ c.x) (hlong : ∃ m ∈ ms, WS_MAXMSG1 ≤ m.payload.length)
    (hr : Reads c.w c.inp c.fs rs w) : ¬Delivers ms rs := by
  induction ms generalizing c rs with
  | nil =>
    obtain ⟨m, hm, -⟩ := hlong
    cases hm
  | cons m ms ih =>
    obtain ⟨hm, hms⟩ := forall_mem_cons.mp hok
    obtain ⟨b, rest, hb, hrest, hleft⟩ := cookAll_cons hleft
    rcases Nat.lt_or_ge m.payload.length WS_MAXMSG1 with hshort | hge
    · obtain rfl : m.frame.bytes = b := by simpa [ffwebsktCook_short hshort] using hb
      obtain ⟨c', pieces, hgo, hready, hleft', -, -⟩ :=
        frame_goes (Msg.frame_ok hm hshort) hw hleft ha
      obtain ⟨rs', rfl, hr'⟩ := (hgo.reads rs w).mp hr
      obtain ⟨m', hm', hge'⟩ := hlong
      rcases mem_cons.mp hm' with rfl | hmem
      · exact absurd hshort (Nat.not_lt.mpr hge')
      · have hnot := ih hms hready (hleft' ▸ hrest) (hgo.inside ha) ⟨m', hmem, hge'⟩ hr'
        intro hd
        rw [cons_append, append_assoc] at hd
        exact hnot (delivers_cons_iff.mp hd).2
    obtain ⟨key, junk, rfl, hkey, hmask⟩ := ffwebsktCook_long hge hb
    have hfok : (Frame.mk m.op key []).Ok server :=
      ⟨hm.op_ne, hm.op_lt, Nat.zero_lt_succ _, hkey, fun hs => hmask (hm.masked hs)⟩
    rw [append_assoc] at hleft
    obtain ⟨c', pieces, hgo, -, -, -, hpieces⟩ := frame_goes hfok hw hleft ha
    obtain ⟨rs', rfl, -⟩ := (hgo.reads rs w).mp hr
    intro hd
    rw [cons_append, append_assoc] at hd
    have hpayload := (delivers_cons_iff.mp hd).1
    have hempty : (Frame.mk m.op key []).decoded c.start
        (c.x + (Frame.mk m.op key []).hdr.length) = [] := by
      unfold Frame.decoded
      split
      · rfl
      · rfl
    rw [hpieces, hempty] at hpayload
    rw [← hpayload] at hge
    cases hge

theorem reads_new {server : Bool} {fs : List (List UInt8)} {rs : List Ret} {w : Ws} :
    Reads (Ws.new server) [] fs rs w ↔
      Reads { Ws.new server with state := .gather, nxstate := .hdr, gathlen := 2 } [] fs rs w :=
  Reads.iff_of_parse rfl

/-- The reader in front of the fragments of a stream. -/
def Cfg.first (server : Bool) (fs : List (List UInt8)) : Cfg :=
  ⟨{ Ws.new server with state := .gather, nxstate := .hdr, gathlen := 2 }, [], fs, 0, 0⟩

theorem ready_first (server : Bool) (fs : List (List UInt8)) :
    Ready server (Cfg.first server fs).w := ⟨⟨rfl, rfl, rfl, rfl⟩, rfl, rfl⟩

theorem transfers_short_iff {server : Bool} {ms : List Msg} {fs : List (List UInt8)}
    (hok : ∀ m ∈ ms, m.Ok server) (hfs : cookAll ms = some fs.flatten)
    (hshort : ∀ m ∈ ms, m.payload.length < WS_MAXMSG1) :
    Transfers server ms fs ↔ InPhase (fragStart 0 fs) 0 ms := by
  have hstream : (Cfg.first server fs).left = (ms.map Msg.frame).flatMap Frame.bytes ++ [] := by
    rw [append_nil]
    exact (some.inj ((cookAll_short hshort).symm.trans hfs)).symm
  have hframes : ∀ f ∈ ms.map Msg.frame, f.Ok server := by
    intro f hf
    obtain ⟨m, hm, rfl⟩ := mem_map.mp hf
    exact Msg.frame_ok (hok m hm) (hshort m hm)
  obtain ⟨c', rs, hgo, hready', hleft', hgot⟩ :=
    frames_goes hframes (ready_first server fs) hstream (Nat.le_refl 0)
  obtain ⟨w, hbuf, hdone⟩ := ready_done c'.fs rfl hready' hleft'
  have hstart : (Cfg.first server fs).start = fragStart 0 fs := rfl
  have hx : (Cfg.first server fs).x = 0 := rfl
  rw [hstart, hx] at hgot
  rw [← delivers_iff hgot]
  constructor
  · rintro ⟨rs', w', hr, hd, -⟩
    obtain ⟨rs'', rfl, hr'⟩ := (hgo.reads _ _).mp (reads_new.mp hr)
    obtain ⟨rfl, -⟩ := (hdone _ _).mp hr'
    rwa [append_nil] at hd
  · intro hd
    refine ⟨rs, w, reads_new.mpr ((hgo.reads _ _).mpr ⟨[], ?_, ?_⟩), hd, hbuf⟩
    · rw [append_nil]
    · exact (hdone _ _).mpr ⟨rfl, rfl⟩

theorem not_transfers {server : Bool} {ms : List Msg} {fs : List (List UInt8)}
    (hok : ∀ m ∈ ms, m.Ok server) (hfs : cookAll ms = some fs.flatten)
    (hlong : ∃ m ∈ ms, WS_MAXMSG1 ≤ m.payload.length) : ¬Transfers server ms fs := by
  rintro ⟨rs, w, hr, hd, -⟩
  exact not_delivers (c := Cfg.first server fs) hok (ready_first server fs) hfs (Nat.le_refl 0)
    hlong (reads_new.mp hr) hd

/-- **Messages in fragments.** For all messages that may be sent to the reader and for all
fragments of their frames, the reader takes all of the fragments and returns the messages exactly
when each message is shorter than 126 bytes and no piece of a masked body is out of phase. -/
theorem transfers_iff {server : Bool} {ms : List Msg} {fs : List (List UInt8)}
    (hok : ∀ m ∈ ms, m.Ok server) (hfs : cookAll ms = some fs.flatten) :
    Transfers server ms fs ↔
      (∀ m ∈ ms, m.payload.length < WS_MAXMSG1) ∧ InPhase (fragStart 0 fs) 0 ms := by
  by_cases hshort : ∀ m ∈ ms, m.payload.length < WS_MAXMSG1
  · rw [transfers_short_iff hok hfs hshort]
    exact ⟨fun h => ⟨hshort, h⟩, fun h => h.2⟩
  · have hlong : ∃ m ∈ ms, WS_MAXMSG1 ≤ m.payload.length := by
      simpa using hshort
    exact ⟨fun h => absurd h (not_transfers hok hfs hlong), fun h => absurd h.1 hshort⟩

/-- It can be decided whether a piece is out of phase. -/
instance InPhase.decidable (start : ℕ → ℕ) : ∀ pos ms, Decidable (InPhase start pos ms)
  | _, [] => isTrue trivial
  | pos, m :: ms =>
    have := InPhase.decidable start (pos + m.size) ms
    inferInstanceAs (Decidable (_ ∧ _))

/-- A text of two letters with a mask key. -/
def twoLetters : Msg := ⟨1, 0x04030201, [0x61, 0x62]⟩

/-- A text of 126 letters. -/
def manyLetters : Msg := ⟨1, 0, List.replicate 126 0x61⟩

theorem twoLetters_ok (server : Bool) : ∀ m ∈ [twoLetters], m.Ok server := by
  intro m hm
  obtain rfl := mem_singleton.mp hm
  exact ⟨by decide, by decide, by decide, fun _ => by decide⟩

/-- The two letters arrive when the header is a fragment of its own. -/
theorem transfers_twoLetters :
    Transfers true [twoLetters] [[0x81, 0x82, 1, 2, 3, 4], [0x60, 0x60]] :=
  (transfers_iff (twoLetters_ok true) (by decide)).mpr
    ⟨by decide, by decide⟩

/-- **Messages that do not arrive**: two letters in two fragments, of which the second one begins
with the second letter, and 126 letters in one fragment. -/
theorem transfers_fails :
    (cookAll [twoLetters] = some [[0x81, 0x82, 1, 2, 3, 4, 0x60], [0x60]].flatten ∧
      ¬Transfers true [twoLetters] [[0x81, 0x82, 1, 2, 3, 4, 0x60], [0x60]]) ∧
    (cookAll [manyLetters] = some [[0x81, 0, 0, 126] ++ List.replicate 126 0x61].flatten ∧
      ¬Transfers false [manyLetters] [[0x81, 0, 0, 126] ++ List.replicate 126 0x61]) := by
  have htwo : cookAll [twoLetters] = some [[0x81, 0x82, 1, 2, 3, 4, 0x60], [0x60]].flatten := by
    decide
  have hmany : cookAll [manyLetters] =
      some [[0x81, 0, 0, 126] ++ List.replicate 126 0x61].flatten := by
    decide +kernel
  refine ⟨⟨htwo, ?_⟩, hmany, ?_⟩
  · rw [transfers_short_iff (twoLetters_ok true) htwo (by decide)]
    decide
  · refine not_transfers ?_ hmany ⟨manyLetters, mem_cons_self, by decide +kernel⟩
    intro m hm
    obtain rfl := mem_singleton.mp hm
    exact ⟨by decide, by decide, by decide +kernel, fun h => absurd h Bool.false_ne_true⟩

end Websocket

end FF
