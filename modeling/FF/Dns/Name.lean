import FF.Lib.Bytes

/-!
# Names in DNS messages

A name is a sequence of labels, each behind its length, up to a zero byte or a pointer to another
place of the message. `ffdns_name` decodes a name and follows the pointers, `ffdns_skipname` goes
to the end of it, and `ffdns_encodename` makes one of a text.

A position is the index of a byte of the message. The name that `ffdns_name` returns is empty
where the function returns 0.
-/

namespace FF

namespace Dns

open List

/-- `FFDNS_MAXNAME` -/
def FFDNS_MAXNAME : ℕ := 255

/-- `FFDNS_MAXLABEL` -/
def FFDNS_MAXLABEL : ℕ := 63

/-- `MAX_JUMPS` -/
def MAX_JUMPS : ℕ := 128

/-- `.` -/
def DOT : UInt8 := 0x2e

/-! ### Skipping -/

/-- The loop of `ffdns_skipname`, with at most `n` labels. -/
@[grind =] def skipLoop (resp : List UInt8) : ℕ → ℕ → Except MemStop ℕ
  | 0, _ => .error .endless
  | n + 1, p => do
      if p < resp.length then
        let b ← readAt resp p
        if b &&& 0xc0 ≠ 0 then .ok (p + 2)
        else if b = 0 then .ok (p + 1)
        else skipLoop resp n (p + 1 + b.toNat)
      else .ok p

/-- `ffdns_skipname` -/
def ffdnsSkipname (resp : List UInt8) (pos : ℕ) : Except MemStop ℕ := do
  let p ← skipLoop resp (resp.length + 1) pos
  return min p resp.length

/-! ### Decoding -/

/-- The variables of `ffdns_name`. -/
structure NameVars where
  p : ℕ
  pos : ℕ
  sz : ℕ
  nm : List UInt8
  j : ℕ
  deriving DecidableEq, Repr

/-- What an iteration does: go on, or return the name and the position behind it. -/
inductive NameStep
  | next (v : NameVars)
  | ret (name : List UInt8) (pos : ℕ)
  deriving DecidableEq, Repr

/-- The position behind the name, set before the first jump only. -/
def NameVars.posAt (v : NameVars) (p : ℕ) : ℕ := if v.j = MAX_JUMPS then p else v.pos

/-- A byte where a label may begin. -/
def nameLabel (resp : List UInt8) (v : NameVars) (b : UInt8) : Except MemStop NameStep := do
  if b = 0 then .ok (.ret v.nm (v.posAt (v.p + 1)))
  else if b &&& 0xc0 = 0 then
    if b.toNat > FFDNS_MAXLABEL then .ok (.ret [] v.pos)
    else .ok (.next { v with sz := b.toNat, p := v.p + 1 })
  else if v.p + 1 = resp.length ∨ v.j = 0 then .ok (.ret [] v.pos)
  else
    let pos := v.posAt (v.p + 2)
    let b1 ← readAt resp (v.p + 1)
    let off := ((b &&& 0x3f).toNat <<< 8) ||| b1.toNat
    if off ≥ resp.length then .ok (.ret [] pos)
    else .ok (.next { v with p := off, pos := pos, j := v.j - 1 })

/-- A byte of a label. -/
def nameChar (cap : ℕ) (v : NameVars) (b : UInt8) : Except MemStop NameStep :=
  if v.nm.length ≥ cap then .error .overwrite
  else
    let nm := v.nm ++ [b]
    let nm := if v.sz = 1 ∧ nm.length ≠ cap then nm ++ [DOT] else nm
    if nm.length = cap then .ok (.ret [] v.pos)
    else .ok (.next { v with nm := nm, sz := v.sz - 1, p := v.p + 1 })

/-- An iteration of `ffdns_name` -/
def nameByte (resp : List UInt8) (cap : ℕ) (v : NameVars) (b : UInt8) : Except MemStop NameStep :=
  if v.sz = 0 then nameLabel resp v b else nameChar cap v b

/-- The loop of `ffdns_name`, with at most `n` iterations. -/
@[grind =] def nameLoop (resp : List UInt8) (cap : ℕ) : ℕ → NameVars → Except MemStop (List UInt8 × ℕ)
  | 0, _ => .error .endless
  | n + 1, v =>
    if v.p = resp.length then .ok ([], v.pos)
    else do
      let b ← readAt resp v.p
      let s ← nameByte resp cap v b
      match s with
      | .next v => nameLoop resp cap n v
      | .ret name pos => .ok (name, pos)

/-- The number of iterations that is enough. -/
def nameFuel (resp : List UInt8) : ℕ := (MAX_JUMPS + 1) * (resp.length + 1)

/-- `ffdns_name`: the name and the position behind it. -/
def ffdnsName (cap : ℕ) (resp : List UInt8) (pos : ℕ) : Except MemStop (List UInt8 × ℕ) :=
  nameLoop resp cap (nameFuel resp) ⟨pos, pos, 0, [], MAX_JUMPS⟩

/-! ### Encoding -/

/-- The loop of `ffdns_encodename` over the characters of the name from the last one on: the bytes
before `out` and the length of the label that has been begun. -/
@[grind =] def encodeLoop : List UInt8 → List UInt8 → ℕ → Option (List UInt8 × ℕ)
  | [], out, sz => some (out, sz)
  | c :: cs, out, sz =>
    if c = DOT then
      if sz = 0 then none else encodeLoop cs (UInt8.ofNat sz :: out) 0
    else if sz = FFDNS_MAXLABEL then none
    else encodeLoop cs (c :: out) (sz + 1)

/-- The labels of the name; a dot at the end of it is the root label. -/
def encodeLabels (name : List UInt8) : Option (List UInt8 × ℕ) :=
  if name.getLast? = some DOT then encodeLoop name.dropLast.reverse [0] 0
  else encodeLoop name.reverse [] 0

/-- `ffdns_encodename`: the bytes written; `none` where the name is not encoded. -/
def ffdnsEncodename (cap : ℕ) (name : List UInt8) : Option (List UInt8) :=
  if name = [] then none
  else if cap < name.length + 1 then none
  else if name = [DOT] then some [0]
  else
    match encodeLabels name with
    | none => none
    | some (out, sz) => if sz = 0 then none else some (UInt8.ofNat sz :: out)

/-! ### Skipping stays inside and ends -/

section Skip

variable {resp : List UInt8}

theorem skipLoop_of_le {p : ℕ} (h : resp.length ≤ p) (n : ℕ) :
    skipLoop resp (n + 1) p = .ok p := by
  rw [skipLoop, if_neg (by omega)]

theorem skipLoop_of_lt {p : ℕ} (h : p < resp.length) (n : ℕ) :
    skipLoop resp (n + 1) p =
      if resp[p] &&& 0xc0 ≠ 0 then .ok (p + 2)
      else if resp[p] = 0 then .ok (p + 1)
      else skipLoop resp n (p + 1 + resp[p].toNat) := by
  rw [skipLoop, if_pos h, readAt_eq h]
  rfl

theorem skipLoop_total {n p : ℕ} (hn : resp.length - p < n) :
    ∃ q, skipLoop resp n p = .ok q ∧ p ≤ q := by
  induction n generalizing p with
  | zero => omega
  | succ n ih =>
    rcases Nat.lt_or_ge p resp.length with h | h
    · rw [skipLoop_of_lt h]
      split
      · exact ⟨_, rfl, by omega⟩
      · split
        · exact ⟨_, rfl, by omega⟩
        · obtain ⟨q, hq, hle⟩ := @ih (p + 1 + resp[p].toNat) (by omega)
          exact ⟨q, hq, by omega⟩
    · exact ⟨p, skipLoop_of_le h n, le_rfl⟩

theorem skipLoop_mono {n m p q : ℕ} (hnm : n ≤ m) (h : skipLoop resp n p = .ok q) :
    skipLoop resp m p = .ok q := by
  induction n generalizing m p with
  | zero => cases h
  | succ n ih =>
    obtain ⟨m, rfl⟩ : ∃ m', m = m' + 1 := ⟨m - 1, by omega⟩
    rcases Nat.lt_or_ge p resp.length with hp | hp
    · rw [skipLoop_of_lt hp] at h ⊢
      split
      · rwa [if_pos ‹_›] at h
      · rw [if_neg ‹_›] at h
        split
        · rwa [if_pos ‹_›] at h
        · rw [if_neg ‹_›] at h
          exact ih (by omega) h
    · rw [skipLoop_of_le hp] at h ⊢
      exact h

theorem ffdnsSkipname_of_skipLoop {m p q : ℕ} (h : skipLoop resp m p = .ok q) :
    ffdnsSkipname resp p = .ok (min q resp.length) := by
  obtain ⟨q', hq', -⟩ := @skipLoop_total resp (resp.length + 1) p (by omega)
  have h1 := skipLoop_mono (le_max_left m (resp.length + 1)) h
  have h2 := skipLoop_mono (le_max_right m (resp.length + 1)) hq'
  obtain rfl : q = q' := by simpa [h1] using h2
  rw [ffdnsSkipname, hq']
  rfl

/-- **`ffdns_skipname`** reads inside of the message, ends, and does not go back. -/
theorem ffdnsSkipname_spec (resp : List UInt8) (p : ℕ) :
    ∃ q, ffdnsSkipname resp p = .ok q ∧ q ≤ resp.length ∧ (p ≤ resp.length → p ≤ q) := by
  obtain ⟨q, hq, hle⟩ := @skipLoop_total resp (resp.length + 1) p (by omega)
  refine ⟨min q resp.length, ffdnsSkipname_of_skipLoop hq, by omega, fun h => by omega⟩

end Skip

/-! ### Decoding stays inside and ends -/

section Decode

variable {resp : List UInt8} {cap : ℕ}

/-- The position `pos` is where skipping leads to, or was set before. -/
structure SkipTo (resp : List UInt8) (v : NameVars) (pos : ℕ) : Prop where
  skip : v.j = MAX_JUMPS →
    v.p + v.sz ≤ resp.length ∧ ∃ m, skipLoop resp m (v.p + v.sz) = .ok pos
  jumped : v.j ≠ MAX_JUMPS → pos = v.pos

/-- What holds before each iteration. -/
structure NameInv (resp : List UInt8) (cap : ℕ) (v : NameVars) : Prop where
  p_le : v.p ≤ resp.length
  pos_le : v.pos ≤ resp.length
  nm_lt : v.nm.length < cap
  j_le : v.j ≤ MAX_JUMPS

/-- The number of iterations that may follow. -/
def NameVars.measure (resp : List UInt8) (v : NameVars) : ℕ :=
  v.j * (resp.length + 1) + (resp.length - v.p)

/-- What an iteration may do: it returns a name that has been decoded, or the next iteration has
less to do and what it says of the position holds here too. -/
def StepOk (resp : List UInt8) (cap : ℕ) (v : NameVars) : NameStep → Prop
  | .next v' =>
    NameInv resp cap v' ∧ v'.measure resp < v.measure resp ∧
      ∀ pos, SkipTo resp v' pos → SkipTo resp v pos
  | .ret name pos =>
    name.length < cap ∧ pos ≤ resp.length ∧ (name ≠ [] → SkipTo resp v pos)

theorem posAt_le {v : NameVars} (hi : NameInv resp cap v) {p : ℕ} (hp : p ≤ resp.length) :
    v.posAt p ≤ resp.length := by
  unfold NameVars.posAt
  split
  · exact hp
  · exact hi.pos_le

theorem skipTo_posAt {v : NameVars} (hp : v.p < resp.length) (hsz : v.sz = 0) {q : ℕ}
    (h : skipLoop resp 1 v.p = .ok q) : SkipTo resp v (v.posAt q) where
  skip := by
    intro hj
    rw [hsz, Nat.add_zero, NameVars.posAt, if_pos hj]
    exact ⟨hp.le, 1, h⟩
  jumped := by
    intro hj
    rw [NameVars.posAt, if_neg hj]

theorem nameLabel_spec {v : NameVars} (hi : NameInv resp cap v) (hp : v.p < resp.length)
    (hsz : v.sz = 0) :
    ∃ s, nameLabel resp v resp[v.p] = .ok s ∧ StepOk resp cap v s := by
  have hcap : 0 < cap := Nat.zero_lt_of_lt hi.nm_lt
  unfold nameLabel
  by_cases h0 : resp[v.p] = 0
  · rw [if_pos h0]
    refine ⟨_, rfl, hi.nm_lt, posAt_le hi hp, fun _ => skipTo_posAt hp hsz ?_⟩
    rw [skipLoop_of_lt hp, h0]
    rfl
  rw [if_neg h0]
  by_cases hc0 : resp[v.p] &&& 0xc0 = 0
  · rw [if_pos hc0]
    split
    · exact ⟨_, rfl, hcap, hi.pos_le, fun h => absurd rfl h⟩
    refine ⟨_, rfl, ⟨hp, hi.pos_le, hi.nm_lt, hi.j_le⟩, ?_, fun pos hskip => ⟨?_, ?_⟩⟩
    · simp only [NameVars.measure]
      omega
    · intro hj
      obtain ⟨hle, m, hm⟩ := hskip.skip hj
      rw [hsz, Nat.add_zero]
      refine ⟨hp.le, m + 1, ?_⟩
      rw [skipLoop_of_lt hp, if_neg (by simpa using hc0), if_neg h0]
      exact hm
    · exact hskip.jumped
  rw [if_neg hc0]
  split
  · exact ⟨_, rfl, hcap, hi.pos_le, fun h => absurd rfl h⟩
  rename_i hend
  have hp1 : v.p + 1 < resp.length := by omega
  have hpos := @posAt_le resp cap v hi (v.p + 2) (by omega)
  simp only [readAt_eq hp1, bind, Except.bind]
  split
  · exact ⟨_, rfl, hcap, hpos, fun h => absurd rfl h⟩
  rename_i hoff
  have hj := hi.j_le
  refine ⟨_, rfl, ⟨by simp only; omega, hpos, hi.nm_lt, by simp only; omega⟩, ?_, fun pos hskip => ?_⟩
  · obtain ⟨j, hj'⟩ : ∃ j, v.j = j + 1 := ⟨v.j - 1, by omega⟩
    simp only [NameVars.measure, hj', Nat.add_sub_cancel, Nat.add_mul, Nat.one_mul]
    omega
  · have hjump := hskip.jumped (by simp only; omega)
    rw [hjump]
    refine skipTo_posAt hp hsz ?_
    rw [skipLoop_of_lt hp, if_pos hc0]

theorem nameChar_spec {v : NameVars} (hi : NameInv resp cap v) (hp : v.p < resp.length)
    (hsz : v.sz ≠ 0) (b : UInt8) :
    ∃ s, nameChar cap v b = .ok s ∧ StepOk resp cap v s := by
  have hcap : 0 < cap := Nat.zero_lt_of_lt hi.nm_lt
  obtain ⟨nm, hnm⟩ : ∃ nm, nm = if v.sz = 1 ∧ (v.nm ++ [b]).length ≠ cap then
    v.nm ++ [b] ++ [DOT] else v.nm ++ [b] := ⟨_, rfl⟩
  have hle : nm.length ≤ cap := by
    have hlt := hi.nm_lt
    rw [hnm]
    split
    · rename_i h
      have hne := h.2
      rw [length_append, length_singleton] at hne
      rw [length_append, length_append, length_singleton, length_singleton]
      omega
    · rw [length_append, length_singleton]
      omega
  unfold nameChar
  rw [if_neg (by have := hi.nm_lt; omega)]
  simp only
  rw [← hnm]
  split
  · exact ⟨_, rfl, hcap, hi.pos_le, fun h => absurd rfl h⟩
  refine ⟨_, rfl, ⟨hp, hi.pos_le, by simp only; omega, hi.j_le⟩, ?_, fun pos hskip => ⟨?_, ?_⟩⟩
  · simp only [NameVars.measure]
    omega
  · intro hj
    have h := hskip.skip hj
    have heq : v.p + 1 + (v.sz - 1) = v.p + v.sz := by omega
    rwa [heq] at h
  · exact hskip.jumped

theorem nameByte_spec {v : NameVars} (hi : NameInv resp cap v) (hp : v.p < resp.length) :
    ∃ s, nameByte resp cap v resp[v.p] = .ok s ∧ StepOk resp cap v s := by
  unfold nameByte
  split
  · exact nameLabel_spec hi hp ‹_›
  · exact nameChar_spec hi hp ‹_› _

/-- The loop of `ffdns_name` -/
theorem nameLoop_spec {n : ℕ} {v : NameVars} (hi : NameInv resp cap v)
    (hn : v.measure resp < n) :
    ∃ name pos, nameLoop resp cap n v = .ok (name, pos) ∧ name.length < cap ∧
      pos ≤ resp.length ∧ (name ≠ [] → SkipTo resp v pos) := by
  induction n generalizing v with
  | zero => omega
  | succ n ih =>
    have hcap : 0 < cap := Nat.zero_lt_of_lt hi.nm_lt
    by_cases hend : v.p = resp.length
    · refine ⟨[], v.pos, ?_, hcap, hi.pos_le, fun h => absurd rfl h⟩
      rw [nameLoop, if_pos hend]
    have hp : v.p < resp.length := lt_of_le_of_ne hi.p_le hend
    obtain ⟨s, hs, hok⟩ := nameByte_spec hi hp
    rw [nameLoop, if_neg hend, readAt_eq hp]
    simp only [bind, Except.bind, hs]
    cases s with
    | ret name pos => exact ⟨name, pos, rfl, hok⟩
    | next v' =>
      obtain ⟨hi', hlt, hskip⟩ := hok
      obtain ⟨name, pos, hrun, hlen, hpos, hto⟩ := ih hi' (by omega)
      exact ⟨name, pos, hrun, hlen, hpos, fun h => hskip pos (hto h)⟩

/-- **`ffdns_name`** reads inside of the message, writes inside of the buffer and ends; where it
decodes a name, skipping the name leads to the same position. -/
theorem ffdnsName_spec {p : ℕ} (hcap : 0 < cap) (hp : p ≤ resp.length) :
    ∃ name pos, ffdnsName cap resp p = .ok (name, pos) ∧ name.length < cap ∧
      pos ≤ resp.length ∧ (name ≠ [] → ffdnsSkipname resp p = .ok pos) := by
  have hfuel : MAX_JUMPS * (resp.length + 1) + (resp.length - p) < nameFuel resp := by
    rw [nameFuel, Nat.add_mul, Nat.one_mul]
    omega
  obtain ⟨name, pos, hrun, hlen, hpos, hto⟩ :=
    nameLoop_spec (v := ⟨p, p, 0, [], MAX_JUMPS⟩) ⟨hp, hp, hcap, le_rfl⟩ hfuel
  refine ⟨name, pos, hrun, hlen, hpos, fun hne => ?_⟩
  obtain ⟨-, m, hm⟩ := (hto hne).skip rfl
  rw [← min_eq_left hpos]
  exact ffdnsSkipname_of_skipLoop hm

end Decode

/-! ### Labels -/

/-- A label on the wire: its length and its bytes. -/
def wireLabel (l : List UInt8) : List UInt8 := UInt8.ofNat l.length :: l

/-- Labels on the wire, without the zero byte at the end. -/
def wire (ls : List (List UInt8)) : List UInt8 := ls.flatMap wireLabel

/-- Labels as a text with a dot behind each of them. -/
def dotted (ls : List (List UInt8)) : List UInt8 := ls.flatMap (· ++ [DOT])

/-- A label that can be encoded. -/
def IsLabel (l : List UInt8) : Prop := l ≠ [] ∧ l.length ≤ FFDNS_MAXLABEL ∧ DOT ∉ l

@[simp] theorem wire_nil : wire [] = [] := rfl

@[simp] theorem wire_cons (l : List UInt8) (ls : List (List UInt8)) :
    wire (l :: ls) = UInt8.ofNat l.length :: (l ++ wire ls) := rfl

@[simp] theorem dotted_nil : dotted [] = [] := rfl

@[simp] theorem dotted_cons (l : List UInt8) (ls : List (List UInt8)) :
    dotted (l :: ls) = l ++ DOT :: dotted ls := by
  simp [dotted]

theorem length_dotted (ls : List (List UInt8)) : (dotted ls).length = (wire ls).length := by
  induction ls with
  | nil => rfl
  | cons l ls ih => simp [ih, Nat.add_assoc, Nat.add_comm 1]

theorem lengthByte {n : ℕ} (h0 : n ≠ 0) (h : n ≤ FFDNS_MAXLABEL) :
    UInt8.ofNat n ≠ 0 ∧ UInt8.ofNat n &&& 0xc0 = 0 ∧ (UInt8.ofNat n).toNat = n := by
  have key : ∀ m : Fin 64, m.val ≠ 0 →
      UInt8.ofNat m ≠ 0 ∧ UInt8.ofNat m &&& 0xc0 = 0 ∧ (UInt8.ofNat m).toNat = m := by decide
  exact key ⟨n, Nat.lt_succ_of_le h⟩ h0

/-! ### What is encoded -/

/-- The labels behind the first one in a text. -/
def tailText (ls : List (List UInt8)) : List UInt8 := ls.flatMap (DOT :: ·)

theorem tailText_dot (l : List UInt8) (ls : List (List UInt8)) :
    l ++ tailText ls ++ [DOT] = dotted (l :: ls) := by
  induction ls generalizing l with
  | nil => simp [tailText]
  | cons m ls ih =>
    have h := ih m
    simp [tailText, ← h]

/-- The loop of `ffdns_encodename` behind the beginning `cur` of a label: the labels of the text,
the first of them still without its length. -/
theorem encodeLoop_spec {cs cur t out : List UInt8} {sz : ℕ} (hlen : cur.length ≤ FFDNS_MAXLABEL)
    (hdot : DOT ∉ cur) (h : encodeLoop cs (cur ++ t) cur.length = some (out, sz)) :
    ∃ l ls, cs.reverse ++ cur = l ++ tailText ls ∧ out = l ++ wire ls ++ t ∧ sz = l.length ∧
      l.length ≤ FFDNS_MAXLABEL ∧ DOT ∉ l ∧ ∀ m ∈ ls, IsLabel m := by
  induction cs generalizing cur t with
  | nil =>
    cases h
    exact ⟨cur, [], by simp [tailText], by simp, rfl, hlen, hdot, by simp⟩
  | cons c cs ih =>
    rw [encodeLoop] at h
    by_cases hc : c = DOT
    · rw [if_pos hc] at h
      by_cases h0 : cur.length = 0
      · rw [if_pos h0] at h
        cases h
      rw [if_neg h0] at h
      obtain ⟨l, ls, htext, hout, hsz, hl, hld, hls⟩ :=
        @ih [] (UInt8.ofNat cur.length :: (cur ++ t)) (Nat.zero_le _) (by simp) h
      refine ⟨l, ls ++ [cur], ?_, ?_, hsz, hl, hld, ?_⟩
      · rw [append_nil] at htext
        simp [htext, hc, tailText]
      · simp [hout, wire, wireLabel]
      · intro m hm
        rcases mem_append.mp hm with hm | hm
        · exact hls m hm
        · obtain rfl := mem_singleton.mp hm
          exact ⟨fun h => h0 (by rw [h]; rfl), hlen, hdot⟩
    rw [if_neg hc] at h
    by_cases hmax : cur.length = FFDNS_MAXLABEL
    · rw [if_pos hmax] at h
      cases h
    rw [if_neg hmax] at h
    have hlen' : (c :: cur).length ≤ FFDNS_MAXLABEL := by
      rw [length_cons]
      omega
    have hdot' : DOT ∉ c :: cur := by
      simp [hdot, Ne.symm hc]
    obtain ⟨l, ls, htext, hrest⟩ := ih hlen' hdot' h
    exact ⟨l, ls, by simpa using htext, hrest⟩

/-- **`ffdns_encodename`**: a text that is accepted is the root, or labels with dots between them
and perhaps one behind the last. -/
theorem ffdnsEncodename_spec {cap : ℕ} {name out : List UInt8}
    (h : ffdnsEncodename cap name = some out) :
    (name = [DOT] ∧ out = [0]) ∨ ∃ ls, ls ≠ [] ∧ (∀ l ∈ ls, IsLabel l) ∧
      ((name = dotted ls ∧ out = wire ls ++ [0]) ∨
        (name ++ [DOT] = dotted ls ∧ name.getLast? ≠ some DOT ∧ out = wire ls)) := by
  unfold ffdnsEncodename at h
  split at h
  · cases h
  split at h
  · cases h
  split at h
  · rename_i hroot
    cases h
    exact .inl ⟨hroot, rfl⟩
  split at h
  · cases h
  rename_i out' sz henc
  split at h
  · cases h
  rename_i hsz
  cases h
  right
  unfold encodeLabels at henc
  split at henc
  · rename_i hlast
    obtain ⟨l, ls, htext, hout, rfl, hl, hld, hls⟩ :=
      @encodeLoop_spec _ [] [0] out' sz (Nat.zero_le _) (by simp) henc
    have hname : name = name.dropLast ++ [DOT] := by
      obtain ⟨pre, hpre⟩ := getLast?_eq_some_iff.mp hlast
      rw [hpre, dropLast_concat]
    rw [reverse_reverse, append_nil] at htext
    refine ⟨l :: ls, by simp, ?_, .inl ⟨?_, ?_⟩⟩
    · intro m hm
      rcases mem_cons.mp hm with rfl | hm
      · exact ⟨fun h => hsz (by rw [h]; rfl), hl, hld⟩
      · exact hls m hm
    · rw [← tailText_dot, ← htext]
      exact hname
    · simp [hout]
  rename_i hlast
  obtain ⟨l, ls, htext, hout, rfl, hl, hld, hls⟩ :=
    @encodeLoop_spec _ [] [] out' sz (Nat.zero_le _) (by simp) henc
  rw [reverse_reverse, append_nil] at htext
  refine ⟨l :: ls, by simp, ?_, .inr ⟨?_, hlast, ?_⟩⟩
  · intro m hm
    rcases mem_cons.mp hm with rfl | hm
    · exact ⟨fun h => hsz (by rw [h]; rfl), hl, hld⟩
    · exact hls m hm
  · rw [← tailText_dot, ← htext]
  · simp [hout]

/-! ### What is decoded -/

section Labels

variable {resp rest : List UInt8} {cap : ℕ}

/-- An iteration of `ffdns_name` at the byte `c`. -/
theorem nameLoop_succ {v : NameVars} {c : UInt8} {l : List UInt8} (h : resp.drop v.p = c :: l)
    (n : ℕ) :
    nameLoop resp cap (n + 1) v = (nameByte resp cap v c).bind fun
      | .next v => nameLoop resp cap n v
      | .ret name pos => .ok (name, pos) := by
  have hlt := lt_of_drop h
  rw [nameLoop, if_neg (by omega), readAt_of_drop h]
  rfl

theorem nameLoop_chars {cs : List UInt8} {v : NameVars} (n : ℕ) (hcs : cs ≠ [])
    (hsz : v.sz = cs.length) (h : resp.drop v.p = cs ++ rest) (hcap : v.nm.length < cap) :
    nameLoop resp cap (n + cs.length) v =
      if v.nm.length + cs.length + 1 < cap then
        nameLoop resp cap n
          { v with p := v.p + cs.length, sz := 0, nm := v.nm ++ cs ++ [DOT] }
      else .ok ([], v.pos) := by
  induction cs generalizing v with
  | nil => exact absurd rfl hcs
  | cons c cs ih =>
    rw [cons_append] at h
    have hne : v.sz ≠ 0 := by
      rw [hsz, length_cons]
      omega
    rw [length_cons, ← Nat.add_assoc, nameLoop_succ h, nameByte, if_neg hne, nameChar,
      if_neg (by omega)]
    rw [length_cons] at hsz
    by_cases hlast : cs = []
    · have hsz1 : v.sz = 1 := by simpa [hlast] using hsz
      by_cases hfull : v.nm.length + 1 = cap
      · simp [hsz1, hlast, hfull, Except.bind]
      · by_cases hfull' : v.nm.length + 2 = cap
        · simp [hsz1, hlast, hfull, hfull', Except.bind]
        · have hlt : v.nm.length + 2 < cap := by omega
          simp [hsz1, hlast, hfull, hfull', hlt, Except.bind]
    have hsz1 : v.sz ≠ 1 := by
      intro h1
      exact hlast (length_eq_zero_iff.mp (by omega))
    by_cases hfull : v.nm.length + 1 = cap
    · have hno : ¬v.nm.length + (cs.length + 1) + 1 < cap := by omega
      simp [hsz1, hfull, hno, Except.bind]
    have hrec := @ih { v with nm := v.nm ++ [c], sz := v.sz - 1, p := v.p + 1 } hlast
      (by simp only; omega) (drop_succ h)
      (by simp only [length_append, length_singleton]; omega)
    simp only [length_append, length_singleton] at hrec
    simp only [hsz1, false_and, if_false, length_append, length_singleton, hfull, Except.bind]
    rw [hrec]
    have hsum : v.nm.length + 1 + cs.length + 1 = v.nm.length + (cs.length + 1) + 1 := by
      omega
    have hp : v.p + 1 + cs.length = v.p + (cs.length + 1) := by omega
    simp only [hsum, hp, append_assoc, cons_append, nil_append]

/-- **Labels are decoded** to the text with a dot behind each of them, or to nothing where the
text does not fit into the buffer. -/
theorem nameLoop_labels {ls : List (List UInt8)} {v : NameVars} (n : ℕ)
    (hls : ∀ l ∈ ls, IsLabel l) (hsz : v.sz = 0) (hj : v.j = MAX_JUMPS)
    (h : resp.drop v.p = wire ls ++ 0 :: rest) (hcap : v.nm.length < cap) :
    nameLoop resp cap (n + (wire ls).length + 1) v =
      .ok (if v.nm.length + (dotted ls).length < cap then
        (v.nm ++ dotted ls, v.p + (wire ls).length + 1) else ([], v.pos)) := by
  induction ls generalizing v with
  | nil =>
    rw [wire_nil, nil_append] at h
    rw [wire_nil, length_nil, nameLoop_succ h, nameByte, if_pos hsz, nameLabel, if_pos rfl]
    simp [NameVars.posAt, hj, hcap, Except.bind]
  | cons l ls ih =>
    obtain ⟨⟨hne, hlen, -⟩, hls⟩ := forall_mem_cons.mp hls
    obtain ⟨h0, hbits, hnat⟩ := lengthByte (fun h => hne (length_eq_zero_iff.mp h)) hlen
    rw [wire_cons, cons_append, append_assoc] at h
    have hfuel : n + (wire (l :: ls)).length + 1 = (n + (wire ls).length + 1) + l.length + 1 := by
      rw [wire_cons, length_cons, length_append]
      omega
    rw [hfuel, nameLoop_succ h, nameByte, if_pos hsz, nameLabel, if_neg h0, if_pos hbits, hnat,
      if_neg (by omega)]
    simp only [Except.bind]
    rw [@nameLoop_chars resp (wire ls ++ 0 :: rest) cap l ⟨v.p + 1, v.pos, l.length, v.nm, v.j⟩ _
      hne rfl (drop_succ h) hcap]
    simp only [dotted_cons, length_append, length_cons]
    by_cases hfit : v.nm.length + l.length + 1 < cap
    · have hdrop : resp.drop (v.p + 1 + l.length) = wire ls ++ 0 :: rest := by
        rw [← drop_drop, drop_succ h, drop_left]
      rw [if_pos hfit, @ih ⟨v.p + 1 + l.length, v.pos, 0, v.nm ++ l ++ [DOT], v.j⟩ hls rfl hj
        hdrop (by simp only [length_append, length_singleton]; omega)]
      have hsum : v.nm.length + (l.length + 1) + (dotted ls).length =
        v.nm.length + (l.length + ((dotted ls).length + 1)) := by omega
      have hp : v.p + 1 + l.length + (wire ls).length + 1 =
        v.p + (wire (l :: ls)).length + 1 := by
        rw [wire_cons, length_cons, length_append]
        omega
      simp only [length_append, length_singleton, Nat.add_assoc] at hsum hp ⊢
      simp only [hsum, hp, append_assoc, singleton_append]
    · rw [if_neg hfit, if_neg (by omega)]

/-- **`ffdns_name`** of labels on the wire. -/
theorem ffdnsName_labels {ls : List (List UInt8)} {p : ℕ} (hls : ∀ l ∈ ls, IsLabel l)
    (h : resp.drop p = wire ls ++ 0 :: rest) (hcap : 0 < cap) :
    ffdnsName cap resp p =
      .ok (if (dotted ls).length < cap then (dotted ls, p + (wire ls).length + 1) else ([], p)) := by
  have hlen := congrArg List.length h
  rw [length_drop, length_append, length_cons] at hlen
  obtain ⟨n, hn⟩ : ∃ n, nameFuel resp = n + (wire ls).length + 1 := by
    refine ⟨nameFuel resp - (wire ls).length - 1, ?_⟩
    have hle : resp.length + 1 ≤ nameFuel resp := by
      rw [nameFuel, Nat.add_mul, Nat.one_mul]
      omega
    omega
  have hrun := @nameLoop_labels resp rest cap ls ⟨p, p, 0, [], MAX_JUMPS⟩ n hls rfl rfl h hcap
  rw [ffdnsName, hn, hrun, nil_append, length_nil, Nat.zero_add]

theorem skipLoop_labels {ls : List (List UInt8)} {p : ℕ} (hls : ∀ l ∈ ls, IsLabel l)
    (h : resp.drop p = wire ls ++ 0 :: rest) :
    skipLoop resp (ls.length + 1) p = .ok (p + (wire ls).length + 1) := by
  induction ls generalizing p with
  | nil =>
    rw [wire_nil, nil_append] at h
    rw [length_nil, skipLoop, if_pos (lt_of_drop h), readAt_of_drop h]
    rfl
  | cons l ls ih =>
    obtain ⟨⟨hne, hlen, -⟩, hls⟩ := forall_mem_cons.mp hls
    obtain ⟨h0, hbits, hnat⟩ := lengthByte (fun h => hne (length_eq_zero_iff.mp h)) hlen
    rw [wire_cons, cons_append, append_assoc] at h
    have hdrop : resp.drop (p + 1 + l.length) = wire ls ++ 0 :: rest := by
      rw [← drop_drop, drop_succ h, drop_left]
    have hp : p + 1 + l.length + (wire ls).length + 1 = p + (wire (l :: ls)).length + 1 := by
      rw [wire_cons, length_cons, length_append]
      omega
    rw [length_cons, skipLoop, if_pos (lt_of_drop h), readAt_of_drop h]
    simp only [bind, Except.bind, hbits, ne_eq, not_true, if_false, h0, hnat]
    rw [ih hls hdrop, hp]

/-- **`ffdns_skipname`** of labels on the wire. -/
theorem ffdnsSkipname_labels {ls : List (List UInt8)} {p : ℕ} (hls : ∀ l ∈ ls, IsLabel l)
    (h : resp.drop p = wire ls ++ 0 :: rest) :
    ffdnsSkipname resp p = .ok (p + (wire ls).length + 1) := by
  have hlen := congrArg List.length h
  rw [length_drop, length_append, length_cons] at hlen
  rw [ffdnsSkipname_of_skipLoop (skipLoop_labels hls h), min_eq_left (by omega)]

end Labels

end Dns

end FF
