import FF.Lib.Refine
import FF.Tls.Basic

/-!
# The ranges that are read from TLS records

All ranges that the reader has, those it works on and those it returns, lie inside of the input.
Two lists are read without a look at their end: the length of a server name is compared with the
data from its entry on and not with what is behind the header of the entry, and the versions of
a Client Hello are read two bytes at a time up to an end that may be odd.

## Main definitions

* `Inside`: the invariant.
* `Names`, `Ext`, `Exts`: the extensions that a call reads do not have these two lengths.
* `GoodState`: the condition on the state before a call.
-/

namespace FF

namespace Tls

/-- A range of the input -/
def Str.Inside (d : List UInt8) (s : Str) : Prop := s.ptr + s.len ≤ d.length

instance (d : List UInt8) (s : Str) : Decidable (s.Inside d) := inferInstanceAs (Decidable (_ ≤ _))

/-- **All ranges lie inside of the input.** -/
structure Inside (d : List UInt8) (t : Fftls) : Prop where
  inp : t.inp.Inside d
  buf : t.buf.Inside d
  sessionId : t.sessionId.Inside d
  ciphers : t.ciphers.Inside d
  hostname : t.hostname.Inside d
  alpnProtos : t.alpnProtos.Inside d
  cert : t.cert.Inside d

/-- The number in the `n` bytes from the index `p` on. -/
def num (d : List UInt8) (p n : ℕ) : ℕ := beNat ((d.drop p).take n)

/-! ### The condition -/

/-- **The entries of a list of server names**: an entry whose length is not above the size of the
data has a name that ends there. The result tells whether an entry ends the call. -/
inductive Names (d : List UInt8) : Str → Bool → Prop
  | short {data : Str} (h : data.len < 3) : Names d data false
  | error {data : Str} (h3 : 3 ≤ data.len) (h : data.len < num d (data.ptr + 1) 2) :
      Names d data true
  | host {data : Str} (h : 3 + num d (data.ptr + 1) 2 ≤ data.len)
      (htype : d[data.ptr]? = some EXT_SN_HOSTNAME) : Names d data true
  | next {data : Str} {b : Bool} (h : 3 + num d (data.ptr + 1) 2 ≤ data.len)
      (htype : d[data.ptr]? ≠ some EXT_SN_HOSTNAME)
      (hnext : Names d ⟨data.ptr + (3 + num d (data.ptr + 1) 2),
        data.len - (3 + num d (data.ptr + 1) 2)⟩ b) : Names d data b

/-- **An extension**, in a hello of the type `hshake`: the server names are as above, and the
versions of a Client Hello have an even number of bytes. The result tells whether it ends the
call. -/
inductive Ext (d : List UInt8) (hshake type : ℕ) (data : Str) : Bool → Prop
  | nolist (htype : type = EXT_SERVER_NAME) (h : data.len < 2 + num d data.ptr 2) :
      Ext d hshake type data true
  | names {b : Bool} (htype : type = EXT_SERVER_NAME) (h : 2 + num d data.ptr 2 ≤ data.len)
      (hnames : Names d ⟨data.ptr + 2, data.len - 2⟩ b) : Ext d hshake type data b
  | alpn (htype : type = EXT_ALPN) : Ext d hshake type data true
  | noversions (htype : type = EXT_SUPP_VERS) (hsh : hshake = HS_CLIENT_HELLO)
      (h : ¬(num d data.ptr 1 < 0x80 ∧ 1 + num d data.ptr 1 ≤ data.len)) : Ext d hshake type data true
  | versions (htype : type = EXT_SUPP_VERS) (hsh : hshake = HS_CLIENT_HELLO)
      (h : num d data.ptr 1 < 0x80 ∧ 1 + num d data.ptr 1 ≤ data.len)
      (heven : (data.len - 1) % 2 = 0) : Ext d hshake type data false
  | version (htype : type = EXT_SUPP_VERS) (hsh : hshake ≠ HS_CLIENT_HELLO) :
      Ext d hshake type data (data.len < 2)
  | other (h1 : type ≠ EXT_SERVER_NAME) (h2 : type ≠ EXT_ALPN) (h3 : type ≠ EXT_SUPP_VERS) :
      Ext d hshake type data false

/-- **The extensions that one call reads** -/
inductive Exts (d : List UInt8) (hshake : ℕ) : Str → Prop
  | error {buf : Str} (h : buf.len < 4 + num d (buf.ptr + 2) 2) : Exts d hshake buf
  | last {buf : Str} (h : 4 + num d (buf.ptr + 2) 2 ≤ buf.len)
      (hext : Ext d hshake (num d buf.ptr 2) ⟨buf.ptr + 4, num d (buf.ptr + 2) 2⟩ true) :
      Exts d hshake buf
  | next {buf : Str} (h : 4 + num d (buf.ptr + 2) 2 ≤ buf.len)
      (hext : Ext d hshake (num d buf.ptr 2) ⟨buf.ptr + 4, num d (buf.ptr + 2) 2⟩ false)
      (hnext : Exts d hshake ⟨buf.ptr + (4 + num d (buf.ptr + 2) 2),
        buf.len - (4 + num d (buf.ptr + 2) 2)⟩) : Exts d hshake buf

/-- **The condition on the state before a call**: the extensions it reads are as above. -/
def GoodState (d : List UInt8) (t : Fftls) : Prop :=
  match t.state with
  | .helExts => 2 + num d t.buf.ptr 2 ≤ t.buf.len →
      Exts d t.hshakeType ⟨t.buf.ptr + 2, num d t.buf.ptr 2⟩
  | .helExt => Exts d t.hshakeType t.buf
  | _ => True

/-- One of the calls on the input `d`. -/
def readStep (d : List UInt8) (t : Fftls) (_ : Unit) : Option Fftls :=
  (fftlsRead d t).toOption.map Prod.snd

/-! ### Numbers -/

section Numbers

variable {d : List UInt8} {data : Str}

theorem Str.shift_eq {k : ℕ} (h : k ≤ data.len) : data.shift k = ⟨data.ptr + k, data.len - k⟩ := by
  rw [Str.shift, if_pos h]

theorem Str.shift_len {k : ℕ} (h : k ≤ data.len) : (data.shift k).len = data.len - k := by
  rw [Str.shift_eq h]

theorem Str.Inside.shift {k : ℕ} (h : data.Inside d) (hk : k ≤ data.len) :
    (data.shift k).Inside d := by
  rw [Str.shift_eq hk]
  unfold Str.Inside at h ⊢
  dsimp only
  omega

theorem Str.Inside.ntoh {i k : ℕ} (h : data.Inside d) (hk : i + k ≤ data.len) :
    ntoh d (data.ptr + i) k = .ok (num d (data.ptr + i) k) := by
  unfold Str.Inside at h
  rw [Tls.ntoh, readBytes_eq (by omega)]
  rfl

theorem Str.Inside.readAt {i : ℕ} (h : data.Inside d) (hi : i < data.len) :
    ∃ b, readAt d (data.ptr + i) = .ok b ∧ d[data.ptr + i]? = some b ∧
      num d (data.ptr + i) 1 = b.toNat := by
  unfold Str.Inside at h
  have hlt : data.ptr + i < d.length := by omega
  refine ⟨d[data.ptr + i], readAt_eq hlt, List.getElem?_eq_getElem hlt, ?_⟩
  rw [num, List.drop_eq_getElem_cons hlt, List.take_succ_cons, List.take_zero]
  simp [beNat]

theorem num_lt (p n : ℕ) : num d p n < 256 ^ n := by
  have h := beNat_lt ((d.drop p).take n)
  exact Nat.lt_of_lt_of_le h (Nat.pow_le_pow_right (by omega) (List.length_take_le _ _))

/-- **A length in front of data** -/
theorem Str.Inside.datalen {k : ℕ} (h : data.Inside d) :
    datalen d k data = .ok (if k + num d data.ptr k ≤ data.len then
      some (num d data.ptr k, ⟨data.ptr + k, data.len - k⟩) else none) := by
  rw [Tls.datalen]
  by_cases hk : k > data.len
  · rw [if_pos hk, if_neg (by omega)]
    rfl
  have hn := h.ntoh (i := 0) (k := k) (by omega)
  rw [Nat.add_zero] at hn
  rw [if_neg hk, hn]
  by_cases hfit : k + num d data.ptr k > data.len
  · rw [if_neg (by omega)]
    exact if_pos hfit
  · rw [if_pos (by omega), ← Str.shift_eq (by omega)]
    exact if_neg hfit

theorem Str.Inside.datalen_cases {k : ℕ} (h : data.Inside d) :
    Tls.datalen d k data = .ok none ∨ ∃ n data', Tls.datalen d k data = .ok (some (n, data')) ∧
      data'.Inside d ∧ n ≤ data'.len ∧ k + n ≤ data.len := by
  rw [h.datalen]
  by_cases hfit : k + num d data.ptr k ≤ data.len
  · rw [if_pos hfit]
    refine .inr ⟨_, _, rfl, ?_, ?_, hfit⟩
    · have hin := h.shift (k := k) (by omega)
      rwa [Str.shift_eq (by omega)] at hin
    · dsimp only
      omega
  · rw [if_neg hfit]
    exact .inl rfl

/-- **A length of one byte in front of data** -/
theorem Str.Inside.datalen8 (h : data.Inside d) :
    ∃ r data', Tls.datalen8 d data = .ok (r, data') ∧ data'.Inside d ∧
      ((num d data.ptr 1 < 0x80 ∧ 1 + num d data.ptr 1 ≤ data.len) →
        r = some (num d data.ptr 1) ∧ data' = ⟨data.ptr + 1, data.len - 1⟩) ∧
      (¬(num d data.ptr 1 < 0x80 ∧ 1 + num d data.ptr 1 ≤ data.len) → r = none) := by
  rw [Tls.datalen8]
  by_cases h1 : 1 > data.len
  · rw [if_pos h1]
    exact ⟨none, data, rfl, h, fun hfit => absurd hfit.2 (by omega), fun _ => rfl⟩
  obtain ⟨b, hb, -, hnum⟩ := h.readAt (i := 0) (by omega)
  rw [Nat.add_zero] at hb hnum
  rw [if_neg h1, hb, hnum]
  by_cases hneg : b.toNat < 0x80
  · have huint : charUint b = b.toNat := if_pos (UInt8.lt_iff_toNat_lt.mpr hneg)
    by_cases hfit : 1 + b.toNat ≤ data.len
    · refine ⟨some b.toNat, data.shift 1, ?_, h.shift (by omega),
        fun _ => ⟨rfl, Str.shift_eq (by omega)⟩, fun hno => absurd ⟨hneg, hfit⟩ hno⟩
      show (if _ then _ else _ : Except _ _) = _
      rw [huint, if_neg (by omega), if_pos (by omega)]
      rfl
    · refine ⟨none, data, ?_, h, fun hyes => absurd hyes.2 hfit, fun _ => rfl⟩
      show (if _ then _ else _ : Except _ _) = _
      rw [huint, if_pos (by omega)]
      rfl
  have huint : charUint b = b.toNat + 0xffffff00 :=
    if_neg fun hh => hneg (UInt8.lt_iff_toNat_lt.mp hh)
  by_cases hfit : (1 + charUint b) % 2 ^ 32 > data.len
  · refine ⟨none, data, ?_, h, fun hyes => absurd hyes.1 hneg, fun _ => rfl⟩
    show (if _ then _ else _ : Except _ _) = _
    rw [if_pos hfit]
    rfl
  · refine ⟨none, data.shift 1, ?_, h.shift (by omega), fun hyes => absurd hyes.1 hneg,
      fun _ => rfl⟩
    show (if _ then _ else _ : Except _ _) = _
    rw [if_neg hfit, if_neg (by omega)]
    rfl

end Numbers

/-! ### The parts of a record -/

/-- A result with all ranges inside of the input -/
def Keeps {α : Type} (d : List UInt8) (x : Except MemStop (α × Fftls)) : Prop :=
  ∃ r t, x = .ok (r, t) ∧ Inside d t

theorem Keeps.ret {α : Type} {d : List UInt8} {r : α} {t : Fftls} (h : Inside d t) :
    Keeps d (.ok (r, t)) := ⟨r, t, rfl, h⟩

theorem Keeps.ite {α : Type} {d : List UInt8} {P : Prop} [Decidable P]
    {x y : Except MemStop (α × Fftls)} (hx : P → Keeps d x) (hy : ¬P → Keeps d y) :
    Keeps d (if P then x else y) := by
  split
  case isTrue h => exact hx h
  case isFalse h => exact hy h

theorem Keeps.bind {α β : Type} {d : List UInt8} {x : Except MemStop β} {b : β}
    {f : β → Except MemStop (α × Fftls)} (hx : x = .ok b) (h : Keeps d (f b)) :
    Keeps d (x >>= f) := by
  rw [hx]
  exact h

section Parts

variable {d : List UInt8} {t : Fftls}

theorem Str.Inside.head {data : Str} (h : data.Inside d) (hlen : 0 < data.len) :
    ∃ b, FF.readAt d data.ptr = .ok b ∧ d[data.ptr]? = some b := by
  obtain ⟨b, hb, hget, -⟩ := h.readAt (i := 0) hlen
  exact ⟨b, hb, hget⟩

theorem Str.Inside.ntoh_zero {data : Str} {k : ℕ} (h : data.Inside d) (hk : k ≤ data.len) :
    Tls.ntoh d data.ptr k = .ok (num d data.ptr k) := by
  have hn := h.ntoh (i := 0) (k := k) (by omega)
  rwa [Nat.add_zero] at hn

theorem tlsRecRead_inside (h : Inside d t) : Keeps d (tlsRecRead d t) := by
  have hin := h.inp
  refine .ite (fun _ => .ret h) fun h5 => .bind (hin.ntoh (by omega)) ?_
  refine .ite (fun _ => .ret { h with }) fun _ => .bind (hin.ntoh (by omega)) ?_
  refine .ite (fun _ => .ret { h with }) fun hfit => ?_
  obtain ⟨b, hb, -⟩ := hin.head (by omega)
  refine .bind hb (.ret { h with inp := hin.shift (by omega), buf := ?_ })
  unfold Str.Inside at hin ⊢
  dsimp only
  omega

theorem tlsHshakeRead_inside (h : Inside d t) : Keeps d (tlsHshakeRead d t) := by
  have hin := h.buf
  refine .ite (fun _ => .ret h) fun h4 => .bind (hin.ntoh (by omega)) ?_
  have hshift : (t.buf.shift 4).Inside d := hin.shift (by omega)
  refine .ite (fun _ => .ret { h with buf := hshift }) fun _ => ?_
  obtain ⟨b, hb, -⟩ := hin.head (by omega)
  exact .bind hb (.ret { h with buf := hshift })

theorem helloVersion_ok (h : Inside d t) (hlen : 2 ≤ t.buf.len) (t' : Fftls) :
    ∃ o, helloVersion d t' t.buf.ptr = .ok o := by
  rw [helloVersion, h.buf.ntoh_zero hlen]
  by_cases hver : num d t.buf.ptr 2 < t'.version ∨ num d t.buf.ptr 2 / 256 ≠ 3
  · exact ⟨none, if_pos hver⟩
  · exact ⟨some (num d t.buf.ptr 2), if_neg hver⟩

theorem HELLO_SIZE_eq : HELLO_SIZE = 35 := rfl

theorem Str.Inside.part {data : Str} {i k : ℕ} (h : data.Inside d) (hk : i + k ≤ data.len) :
    Str.Inside d ⟨data.ptr + i, k⟩ := by
  unfold Str.Inside at h ⊢
  dsimp only
  omega

theorem tlsClihelloRead_inside (h : Inside d t) : Keeps d (tlsClihelloRead d t) := by
  have hin := h.buf
  refine .ite (fun _ => .ret h) fun hsize => ?_
  rw [HELLO_SIZE_eq] at hsize
  have hshift : (t.buf.shift HELLO_SIZE).Inside d := hin.shift (by rw [HELLO_SIZE_eq]; omega)
  obtain ⟨o, ho⟩ := helloVersion_ok h (by omega) { t with buf := t.buf.shift HELLO_SIZE }
  refine .bind ho ?_
  cases o with
  | none => exact .ret { h with buf := hshift }
  | some ver =>
    obtain ⟨b, hb, -, -⟩ := hin.readAt (i := 34) (by omega)
    refine .bind hb (.ite (fun _ => .ret { h with buf := hshift }) fun hsid => ?_)
    have hsid' : ¬b.toNat > (t.buf.shift HELLO_SIZE).len := hsid
    have hlen : (t.buf.shift HELLO_SIZE).len = t.buf.len - 35 :=
      Str.shift_len (by rw [HELLO_SIZE_eq]; omega)
    have hbuf : ((t.buf.shift HELLO_SIZE).shift b.toNat).Inside d := hshift.shift (by omega)
    have hsess : Str.Inside d ⟨t.buf.ptr + HELLO_SIZE, b.toNat⟩ :=
      hin.part (by rw [HELLO_SIZE_eq]; omega)
    obtain hno | ⟨n, data, hlist, hdata, hn, -⟩ := hbuf.datalen_cases (k := 2)
    · exact .bind hno (.ret { h with buf := hbuf, sessionId := hsess })
    refine .bind hlist ?_
    have hrest : (data.shift n).Inside d := hdata.shift hn
    have hciph : Str.Inside d ⟨data.ptr, n⟩ := hdata.part (i := 0) (by omega)
    obtain ⟨r, data', hcomp, hdata', hyes, hno⟩ := hrest.datalen8
    refine .bind hcomp ?_
    cases r with
    | none => exact .ret { h with buf := hdata', sessionId := hsess, ciphers := hciph }
    | some n' =>
      have hn' : n' ≤ data'.len := by
        by_cases hfit : num d (data.shift n).ptr 1 < 0x80 ∧
            1 + num d (data.shift n).ptr 1 ≤ (data.shift n).len
        · obtain ⟨hr, rfl⟩ := hyes hfit
          have hn' := Option.some.inj hr
          dsimp only
          omega
        · cases hno hfit
      exact .ret
        { h with buf := hdata'.shift hn', sessionId := hsess, ciphers := hciph }

theorem tlsSrvhelloRead_inside (h : Inside d t) : Keeps d (tlsSrvhelloRead d t) := by
  have hin := h.buf
  refine .ite (fun _ => .ret h) fun hsize => ?_
  rw [HELLO_SIZE_eq] at hsize
  have hshift : (t.buf.shift HELLO_SIZE).Inside d := hin.shift (by rw [HELLO_SIZE_eq]; omega)
  obtain ⟨o, ho⟩ := helloVersion_ok h (by omega) t
  refine .bind ho ?_
  cases o with
  | none => exact .ret h
  | some ver =>
    obtain ⟨b, hb, -, -⟩ := hin.readAt (i := 34) (by omega)
    refine .bind hb (.ite (fun _ => .ret { h with }) fun hsid => ?_)
    have hlen : (t.buf.shift HELLO_SIZE).len = t.buf.len - 35 :=
      Str.shift_len (by rw [HELLO_SIZE_eq]; omega)
    have hsess : Str.Inside d ⟨t.buf.ptr + HELLO_SIZE, b.toNat⟩ :=
      hin.part (by rw [HELLO_SIZE_eq]; omega)
    have hdata := hshift.shift (k := b.toNat) (by omega)
    have hdlen := @Str.shift_len (t.buf.shift HELLO_SIZE) b.toNat (by omega)
    have hciph := hdata.part (i := 0) (k := 2) (by omega)
    have hrest := hdata.shift (k := 2) (by omega)
    have hrlen := @Str.shift_len ((t.buf.shift HELLO_SIZE).shift b.toNat) 2 (by omega)
    exact .ret { h with
      sessionId := hsess
      ciphers := hciph
      buf := hrest.shift (k := 1) (by omega) }

theorem tlsCertsRead_inside (h : Inside d t) : Keeps d (tlsCertsRead d t) := by
  obtain hno | ⟨n, data, hlist, hdata, hn, hfit⟩ := h.buf.datalen_cases (k := 3)
  · exact .bind hno (.ret h)
  · refine .bind hlist ?_
    have hbuf := h.buf.shift hfit
    obtain hno' | ⟨n', data', hcert, hdata', hn', -⟩ := hdata.datalen_cases (k := 3)
    · exact .bind hno' (.ret { h with buf := hbuf })
    · exact .bind hcert (.ret { h with buf := hbuf, cert := hdata'.part (i := 0) (by omega) })

end Parts

/-! ### Extensions -/

/-- An extension has been read: the ranges lie inside of the input, what is left of the extensions
is as before, and the call ends or goes on. -/
def ExtRead (d : List UInt8) (t : Fftls) (ends : Bool) (x : Except MemStop (Option Ret × Fftls)) :
    Prop :=
  ∃ r t', x = .ok (r, t') ∧ Inside d t' ∧ t'.buf = t.buf ∧ t'.hshakeType = t.hshakeType ∧
    t'.state = t.state ∧ (r = some .done ↔ ends = false)

section Extensions

variable {d : List UInt8} {t : Fftls}

theorem ExtRead.bind {β : Type} {ends : Bool} {x : Except MemStop β} {b : β}
    {f : β → Except MemStop (Option Ret × Fftls)} (hx : x = .ok b) (h : ExtRead d t ends (f b)) :
    ExtRead d t ends (x >>= f) := by
  rw [hx]
  exact h

theorem ExtRead.done (h : Inside d t) : ExtRead d t false (.ok (some .done, t)) :=
  ⟨_, _, rfl, h, rfl, rfl, rfl, by simp⟩

theorem ExtRead.error (h : Inside d t) : ExtRead d t true (.ok (none, t)) :=
  ⟨_, _, rfl, h, rfl, rfl, rfl, by simp⟩

/-- **The list of server names** -/
theorem servnameLoop_inside {data : Str} {ends : Bool} (hnames : Names d data ends) {n : ℕ}
    (hn : data.len < n) (hdata : data.Inside d) (h : Inside d t) :
    ExtRead d t ends (servnameLoop d n data t) := by
  induction hnames generalizing n with
  | short hlen =>
    obtain ⟨m, rfl⟩ := Nat.exists_eq_succ_of_ne_zero (Nat.ne_zero_of_lt hn)
    rw [servnameLoop, if_pos (by omega)]
    exact .done h
  | error h3 hlen =>
    obtain ⟨m, rfl⟩ := Nat.exists_eq_succ_of_ne_zero (Nat.ne_zero_of_lt hn)
    rw [servnameLoop, if_neg (by omega)]
    refine .bind (hdata.ntoh (by omega)) ?_
    rw [if_pos hlen]
    exact .error h
  | @host data hlen htype =>
    obtain ⟨m, rfl⟩ := Nat.exists_eq_succ_of_ne_zero (Nat.ne_zero_of_lt hn)
    rw [servnameLoop, if_neg (by omega)]
    refine .bind (hdata.ntoh (by omega)) ?_
    obtain ⟨b, hb, hget⟩ := hdata.head (by omega)
    rw [if_neg (by omega)]
    refine .bind hb ?_
    rw [if_pos (Option.some.inj (hget.symm.trans htype))]
    exact ⟨_, _, rfl, { h with hostname := hdata.part (by omega) }, rfl, rfl, rfl, by simp⟩
  | @next data ends hlen htype hnext ih =>
    obtain ⟨m, rfl⟩ := Nat.exists_eq_succ_of_ne_zero (Nat.ne_zero_of_lt hn)
    rw [servnameLoop, if_neg (by omega)]
    refine .bind (hdata.ntoh (by omega)) ?_
    obtain ⟨b, hb, hget⟩ := hdata.head (by omega)
    rw [if_neg (by omega)]
    refine .bind hb ?_
    rw [if_neg fun hhost => htype (hget.trans (congrArg some hhost)), Str.shift_eq hlen]
    have hrest := hdata.shift hlen
    rw [Str.shift_eq hlen] at hrest
    exact ih (by dsimp only; omega) hrest

theorem suppversLoop_ok {data : Str} (hdata : data.Inside d) (hlen : data.len < 2 ^ 32) {n i : ℕ}
    (hi : i ≤ data.len) (heven : (data.len - i) % 2 = 0) (hn : data.len - i < n) (version : ℕ) :
    ∃ v, suppversLoop d data n i version = .ok v := by
  induction n generalizing i version with
  | zero => omega
  | succ n ih =>
    rw [suppversLoop]
    by_cases hend : i = data.len
    · exact ⟨version, if_pos hend⟩
    · rw [if_neg hend, hdata.ntoh (by omega)]
      exact ih (by omega) (by omega) (by omega) _

/-- **An extension** -/
theorem extSwitch_inside {type : ℕ} {data : Str} {ends : Bool}
    (hext : Ext d t.hshakeType type data ends) (hdata : data.Inside d) (hlen : data.len < 2 ^ 16)
    (h : Inside d t) : ExtRead d t ends (extSwitch d type data t) := by
  cases hext with
  | nolist htype hno =>
    rw [extSwitch, if_pos htype]
    refine .bind hdata.datalen ?_
    rw [if_neg (by omega)]
    exact .error h
  | names htype hfit hnames =>
    rw [extSwitch, if_pos htype]
    refine .bind hdata.datalen ?_
    rw [if_pos hfit]
    have hrest := hdata.shift (k := 2) (by omega)
    rw [Str.shift_eq (by omega)] at hrest
    refine servnameLoop_inside hnames ?_ hrest h
    unfold Str.Inside at hdata
    dsimp only
    omega
  | alpn htype =>
    rw [extSwitch, if_neg (by rw [htype]; decide), if_pos htype]
    obtain hno | ⟨n, data', hlist, hdata', hn, -⟩ := hdata.datalen_cases (k := 2)
    · exact .bind hno (.error h)
    · refine .bind hlist ⟨_, _, rfl, { h with alpnProtos := hdata'.part (i := 0) (by omega) }, rfl,
        rfl, rfl, by simp⟩
  | noversions htype hsh hno =>
    rw [extSwitch, if_neg (by rw [htype]; decide), if_neg (by rw [htype]; decide), if_pos htype,
      if_pos hsh]
    obtain ⟨r, data', hr, -, -, hnone⟩ := hdata.datalen8
    obtain rfl := hnone hno
    exact .bind hr (.error h)
  | versions htype hsh hfit heven =>
    rw [extSwitch, if_neg (by rw [htype]; decide), if_neg (by rw [htype]; decide), if_pos htype,
      if_pos hsh]
    obtain ⟨r, data', hr, hdata', hsome, -⟩ := hdata.datalen8
    obtain ⟨rfl, rfl⟩ := hsome hfit
    obtain ⟨v, hv⟩ := suppversLoop_ok hdata' (i := 0) (n := d.length + 1) (by dsimp only; omega)
      (Nat.zero_le _) heven (by unfold Str.Inside at hdata'; dsimp only at hdata' ⊢; omega)
      t.version
    exact .bind hr (.bind hv ⟨_, _, rfl, { h with }, rfl, rfl, rfl, by simp⟩)
  | version htype hsh =>
    rw [extSwitch, if_neg (by rw [htype]; decide), if_neg (by rw [htype]; decide), if_pos htype,
      if_neg hsh, tlsextSrvhelSuppversRead]
    by_cases h2 : 2 > data.len
    · rw [if_pos h2, decide_eq_true h2]
      exact .error h
    · rw [if_neg h2, decide_eq_false h2]
      exact .bind (hdata.ntoh_zero (by omega)) ⟨_, _, rfl, { h with }, rfl, rfl, rfl, by simp⟩
  | other h1 h2 h3 =>
    rw [extSwitch, if_neg h1, if_neg h2, if_neg h3]
    exact .done h

end Extensions

/-! ### The calls -/

/-- A step leaves all ranges inside of the input, and goes on in a state with `after`. -/
def StepKeeps (d : List UInt8) (after : Fftls → Prop) (x : Except MemStop Step) : Prop :=
  ∃ s, x = .ok s ∧ match s with
    | .next t => Inside d t ∧ after t
    | .ret _ t => Inside d t

section Steps

variable {d : List UInt8} {after : Fftls → Prop} {t : Fftls}

theorem StepKeeps.ret {r : Ret} (h : Inside d t) : StepKeeps d after (.ok (.ret r t)) :=
  ⟨_, rfl, h⟩

theorem StepKeeps.next (h : Inside d t) (hafter : after t) : StepKeeps d after (.ok (.next t)) :=
  ⟨_, rfl, h, hafter⟩

theorem StepKeeps.ite {P : Prop} [Decidable P] {x y : Except MemStop Step}
    (hx : P → StepKeeps d after x) (hy : ¬P → StepKeeps d after y) :
    StepKeeps d after (if P then x else y) := by
  split
  case isTrue h => exact hx h
  case isFalse h => exact hy h

theorem StepKeeps.bind {β : Type} {x : Except MemStop β} {b : β} {f : β → Except MemStop Step}
    (hx : x = .ok b) (h : StepKeeps d after (f b)) : StepKeeps d after (x >>= f) := by
  rw [hx]
  exact h

theorem rRec_inside (h : Inside d t) : StepKeeps d (fun t => t.state = .hshake) (rRec d t) := by
  obtain ⟨r, t', hr, h'⟩ := tlsRecRead_inside h
  refine .bind hr (.ite (fun _ => .ret h') fun _ => .ite (fun _ => .ret { h' with }) fun _ => ?_)
  exact .ite (fun _ => .next { h' with } rfl) fun _ => .ret { h' with }

theorem rHshake_inside (h : Inside d t) :
    StepKeeps d (fun t => t.state = .clihel ∨ t.state = .srvhel ∨ t.state = .certs)
      (rHshake d t) := by
  obtain ⟨r, t', hr, h'⟩ := tlsHshakeRead_inside h
  refine .bind hr (.ite (fun _ => .ret { h' with }) fun _ => ?_)
  refine .ite (fun _ => .next { h' with } (.inl rfl)) fun _ => ?_
  refine .ite (fun _ => .next { h' with } (.inr (.inl rfl))) fun _ => ?_
  refine .ite (fun _ => .next { h' with } (.inr (.inr rfl))) fun _ => ?_
  refine .ite (fun _ => .ret { h' with }) fun _ => .ite (fun _ => .ret { h' with }) fun _ => ?_
  exact .ite (fun _ => .ret { h' with }) fun _ => .ret { h' with }

theorem rHello_inside {read : Fftls → Except MemStop (ℤ × Fftls)} (hread : Keeps d (read t))
    (ret : Ret) : StepKeeps d (fun _ => False) (rHello read ret t) := by
  obtain ⟨r, t', hr, h'⟩ := hread
  exact .bind hr (.ite (fun _ => .ret { h' with }) fun _ => .ret { h' with })

theorem rCerts_inside (h : Inside d t) : StepKeeps d (fun _ => False) (rCerts d t) := by
  obtain ⟨r, t', hr, h'⟩ := tlsCertsRead_inside h
  refine .bind hr ?_
  cases r with
  | none => exact .ret { h' with }
  | some r => exact .ret { h' with }

theorem rHelExts_inside (h : Inside d t)
    (hgood : 2 + num d t.buf.ptr 2 ≤ t.buf.len →
      Exts d t.hshakeType ⟨t.buf.ptr + 2, num d t.buf.ptr 2⟩) :
    StepKeeps d (fun t => t.state = .helExt ∧ Exts d t.hshakeType t.buf) (rHelExts d t) := by
  refine .bind h.buf.datalen ?_
  by_cases hfit : 2 + num d t.buf.ptr 2 ≤ t.buf.len
  · rw [if_pos hfit]
    exact .next { h with buf := h.buf.part hfit } ⟨rfl, hgood hfit⟩
  · rw [if_neg hfit]
    exact .ret { h with }

theorem readLoop_succ {n : ℕ} (hstep : StepKeeps d after (fftlsStep d t))
    (hnext : ∀ t', Inside d t' → after t' → Keeps d (readLoop d n t')) :
    Keeps d (readLoop d (n + 1) t) := by
  obtain ⟨s, hs, hk⟩ := hstep
  rw [readLoop]
  refine .bind hs ?_
  cases s with
  | next t' => exact hnext t' hk.1 hk.2
  | ret r t' => exact .ret hk

theorem tlsextRead_fits {ends : Bool} (h : Inside d t)
    (hfit : 4 + num d (t.buf.ptr + 2) 2 ≤ t.buf.len)
    (hext : Ext d t.hshakeType (num d t.buf.ptr 2) ⟨t.buf.ptr + 4, num d (t.buf.ptr + 2) 2⟩ ends) :
    ∃ r t', tlsextRead d t = .ok (r, t') ∧ Inside d t' ∧
      t'.buf = ⟨t.buf.ptr + (4 + num d (t.buf.ptr + 2) 2),
        t.buf.len - (4 + num d (t.buf.ptr + 2) 2)⟩ ∧
      t'.hshakeType = t.hshakeType ∧ t'.state = t.state ∧ (r = some .done ↔ ends = false) := by
  have hbuf : (t.buf.shift 4).shift (num d (t.buf.ptr + 2) 2) =
      ⟨t.buf.ptr + (4 + num d (t.buf.ptr + 2) 2),
        t.buf.len - (4 + num d (t.buf.ptr + 2) 2)⟩ := by
    rw [Str.shift_eq (k := 4) (by omega), Str.shift_eq (by dsimp only; omega), Nat.add_assoc,
      Nat.sub_sub]
  have hin : ((t.buf.shift 4).shift (num d (t.buf.ptr + 2) 2)).Inside d := by
    have hsh := h.buf.shift hfit
    rwa [Str.shift_eq hfit, ← hbuf] at hsh
  have hlen := @Str.shift_len t.buf 4 (by omega)
  have hnum := num_lt (d := d) (t.buf.ptr + 2) 2
  obtain ⟨r, t', hr, h', hbuf', hsh', hst', hends⟩ := extSwitch_inside
    (t := { t with buf := (t.buf.shift 4).shift (num d (t.buf.ptr + 2) 2) }) hext
    (h.buf.part hfit) (by dsimp only; omega) { h with buf := hin }
  refine ⟨r, t', ?_, h', hbuf'.trans hbuf, hsh', hst', hends⟩
  rw [tlsextRead, if_neg (by omega), h.buf.ntoh (by omega)]
  show (if _ then _ else _ : Except _ _) = _
  rw [if_neg (by rw [hlen]; omega), h.buf.ntoh_zero (by omega)]
  exact hr

theorem tlsextRead_fails (h : Inside d t) (hlen : t.buf.len < 4 + num d (t.buf.ptr + 2) 2) :
    ∃ t', tlsextRead d t = .ok (none, t') ∧ Inside d t' := by
  rw [tlsextRead]
  by_cases h4 : 4 > t.buf.len
  · rw [if_pos h4]
    exact ⟨t, rfl, h⟩
  rw [if_neg h4, h.buf.ntoh (by omega)]
  have hshift := @Str.shift_len t.buf 4 (by omega)
  refine ⟨{ t with buf := t.buf.shift 4 }, ?_, { h with buf := h.buf.shift (by omega) }⟩
  show (if _ then _ else _ : Except _ _) = _
  rw [if_pos (by rw [hshift]; omega)]
  rfl

/-- **The loop over the extensions** -/
theorem readLoop_exts {hshake : ℕ} {buf : Str} (hexts : Exts d hshake buf) {n : ℕ}
    (hn : buf.len < n) (hbuf : t.buf = buf) (hsh : t.hshakeType = hshake)
    (hst : t.state = .helExt) (h : Inside d t) : Keeps d (readLoop d n t) := by
  induction hexts generalizing n t with
  | error hlen =>
    obtain ⟨m, rfl⟩ := Nat.exists_eq_succ_of_ne_zero (Nat.ne_zero_of_lt hn)
    subst hbuf
    refine @readLoop_succ _ (fun _ => False) _ _ ?_ fun _ _ hno => hno.elim
    rw [fftlsStep, hst]
    obtain ⟨t', hr, h'⟩ := tlsextRead_fails h hlen
    exact .ite (fun _ => .ret { h with }) fun _ => .bind hr (.ret { h' with })
  | last hfit hext =>
    obtain ⟨m, rfl⟩ := Nat.exists_eq_succ_of_ne_zero (Nat.ne_zero_of_lt hn)
    subst hbuf hsh
    refine @readLoop_succ _ (fun _ => False) _ _ ?_ fun _ _ hno => hno.elim
    rw [fftlsStep, hst]
    obtain ⟨r, t', hr, h', -, -, -, hends⟩ := tlsextRead_fits h hfit hext
    refine .ite (fun _ => .ret { h with }) fun _ => .bind hr ?_
    cases r with
    | none => exact .ret { h' with }
    | some r =>
      have hne : r ≠ .done := fun he => by simp [he] at hends
      cases r <;> first | exact .ret h' | exact absurd rfl hne
  | next hfit hext hnext ih =>
    obtain ⟨m, rfl⟩ := Nat.exists_eq_succ_of_ne_zero (Nat.ne_zero_of_lt hn)
    subst hbuf hsh
    obtain ⟨r, t', hr, h', hbuf', hsh', hst', hends⟩ := tlsextRead_fits h hfit hext
    obtain rfl := hends.mpr rfl
    refine @readLoop_succ _ (fun t₁ => t₁ = t') _ _ ?_ fun t₁ _ ht₁ => ?_
    · rw [fftlsStep, hst]
      exact .ite (fun _ => .ret { h with }) fun _ => .bind hr (.next h' rfl)
    · subst ht₁
      exact ih (by dsimp only; omega) hbuf' hsh' (hst'.trans hst) h'

/-- **A call** keeps all ranges inside of the input. -/
theorem fftlsRead_inside (h : Inside d t) (hgood : GoodState d t) : Keeps d (fftlsRead d t) := by
  have hbuf := h.buf
  unfold Str.Inside at hbuf
  have hhello : ∀ (n : ℕ) (t : Fftls), Inside d t →
      (t.state = .clihel ∨ t.state = .srvhel ∨ t.state = .certs) →
      Keeps d (readLoop d (n + 1) t) := by
    intro n t h hst
    refine @readLoop_succ _ (fun _ => False) _ _ ?_ fun _ _ hno => hno.elim
    rcases hst with hst | hst | hst
    · rw [fftlsStep, hst]
      exact rHello_inside (tlsClihelloRead_inside h) _
    · rw [fftlsStep, hst]
      exact rHello_inside (tlsSrvhelloRead_inside h) _
    · rw [fftlsStep, hst]
      exact rCerts_inside h
  have hhshake : ∀ (n : ℕ) (t : Fftls), Inside d t → t.state = .hshake →
      Keeps d (readLoop d (n + 2) t) := by
    intro n t h hst
    refine readLoop_succ ?_ (hhello n)
    rw [fftlsStep, hst]
    exact rHshake_inside h
  rw [fftlsRead]
  cases hst : t.state with
  | record =>
    refine readLoop_succ ?_ (hhshake (d.length + 1))
    rw [fftlsStep, hst]
    exact rRec_inside h
  | hshake => exact hhshake (d.length + 2) t h hst
  | clihel => exact hhello (d.length + 3) t h (.inl hst)
  | srvhel => exact hhello (d.length + 3) t h (.inr (.inl hst))
  | certs => exact hhello (d.length + 3) t h (.inr (.inr hst))
  | helExts =>
    rw [GoodState, hst] at hgood
    refine @readLoop_succ _ (fun t => t.state = .helExt ∧ Exts d t.hshakeType t.buf) _ _ ?_
      fun t' h' hafter => ?_
    · rw [fftlsStep, hst]
      exact rHelExts_inside h hgood
    · have hbuf' := h'.buf
      unfold Str.Inside at hbuf'
      exact readLoop_exts hafter.2 (by omega) rfl rfl hafter.1 h'
  | helExt =>
    rw [GoodState, hst] at hgood
    exact readLoop_exts hgood (by omega) rfl rfl hst h

theorem readStep_preserves (d : List UInt8) :
    Preserves (readStep d) (fun t _ => GoodState d t) (Inside d) := by
  intro t _ h hgood
  obtain ⟨r, t', hr, h'⟩ := fftlsRead_inside h hgood
  exact ⟨t', by rw [readStep, hr]; rfl, h'⟩

theorem new_inside (d : List UInt8) : Inside d (.new d) := by
  constructor <;> simp [Fftls.new, Str.Inside]

/-- **Every run of calls** whose extensions do not have the two lengths ends, and all that it
reads and returns is inside of the input. -/
theorem reads_inside (d : List UInt8) (calls : List Unit)
    (hgood : GoodRun (readStep d) (fun t _ => GoodState d t) (.new d) calls) :
    ∃ t, run (readStep d) (.new d) calls = some t ∧ Inside d t :=
  (readStep_preserves d).run (new_inside d) hgood

/-- A record with a Client Hello that has these extensions. -/
def clihelloRecord (exts : List UInt8) : List UInt8 :=
  [0x16, 3, 1, 0, UInt8.ofNat (47 + exts.length)] ++
    [1, 0, 0, UInt8.ofNat (43 + exts.length)] ++
    [3, 3] ++ List.replicate 32 0 ++ [0] ++ [0, 2, 0x13, 1] ++ [1, 0] ++
    [0, UInt8.ofNat exts.length] ++ exts

/-- A server name that ends behind the input. -/
def longName : List UInt8 := clihelloRecord [0, 0, 0, 6, 0, 4, 0, 0, 4, 0x61]

/-- A list of versions with an odd number of bytes. -/
def oddVersions : List UInt8 := clihelloRecord [0, 43, 0, 2, 1, 3]

/-- **There are inputs on which a call returns a range that is not inside**, or does not get to
its end. -/
theorem reads_outside :
    ¬(∀ (d : List UInt8) (calls : List Unit),
      ∃ t, run (readStep d) (.new d) calls = some t ∧ Inside d t) ∧
    (∃ t, run (readStep longName) (.new longName) [(), ()] = some t ∧
      ¬t.hostname.Inside longName) ∧
    run (readStep oddVersions) (.new oddVersions) [(), ()] = none := by
  have hodd : run (readStep oddVersions) (.new oddVersions) [(), ()] = none := by decide
  refine ⟨?_, ?_, hodd⟩
  · intro h
    obtain ⟨t, ht, -⟩ := h oddVersions [(), ()]
    cases hodd.symm.trans ht
  · refine ⟨⟨.helExt, 0, 771, 1, ⟨62, 0⟩, ⟨62, 0⟩, ⟨44, 0⟩, ⟨46, 2⟩, ⟨61, 4⟩, ⟨0, 0⟩, ⟨0, 0⟩⟩, ?_, ?_⟩
    · decide
    · decide

/-- A Client Hello with a list of versions, and with a name of another type before the server
name. -/
def goodHello : List UInt8 :=
  clihelloRecord [0, 43, 0, 3, 2, 3, 4, 0, 0, 0, 11, 0, 9, 1, 0, 1, 0x62, 0, 0, 2, 0x61, 0x62]

theorem reads_inside_goodHello :
    ∃ t, run (readStep goodHello) (.new goodHello) [(), (), ()] = some t ∧ Inside goodHello t := by
  refine reads_inside goodHello [(), (), ()] ⟨trivial, fun t₁ h₁ => ?_⟩
  have hello : readStep goodHello (.new goodHello) () = some
      ⟨.helExts, 0, 771, 1, ⟨74, 0⟩, ⟨50, 24⟩, ⟨44, 0⟩, ⟨46, 2⟩, ⟨0, 0⟩, ⟨0, 0⟩, ⟨0, 0⟩⟩ := by decide
  obtain rfl := Option.some.inj (h₁.symm.trans hello)
  refine ⟨fun _ => ?_, fun t₂ h₂ => ?_⟩
  · refine .next (by decide) (.versions (by decide) (by decide) (by decide) (by decide)) ?_
    refine .last (by decide) (.names (by decide) (by decide) ?_)
    exact .next (by decide) (by decide) (.host (by decide) (by decide))
  · have sni : readStep goodHello
        ⟨.helExts, 0, 771, 1, ⟨74, 0⟩, ⟨50, 24⟩, ⟨44, 0⟩, ⟨46, 2⟩, ⟨0, 0⟩, ⟨0, 0⟩, ⟨0, 0⟩⟩ () = some
        ⟨.helExt, 0, 772, 1, ⟨74, 0⟩, ⟨74, 0⟩, ⟨44, 0⟩, ⟨46, 2⟩, ⟨72, 2⟩, ⟨0, 0⟩, ⟨0, 0⟩⟩ := by decide
    obtain rfl := Option.some.inj (h₂.symm.trans sni)
    exact ⟨.error (by decide), fun _ _ => trivial⟩

end Steps

end Tls

end FF
