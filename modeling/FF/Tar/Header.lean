import FF.Ffstring
import FF.Lib.Fields
import Mathlib.Data.List.TakeWhile

/-!
# TAR headers

A header is a block of 512 bytes with fields at fixed places. Numbers are octal text, and above the
limit of a field binary behind a first byte with the highest bit set.

The `mtime` of a file is the `time_t` that is converted from and to its `fftime`.
-/

namespace FF

namespace Tar

open List

/-- `TAR_BLOCK` -/
def TAR_BLOCK : ℕ := 512

/-- `TAR_MAXLONGNAME` -/
def TAR_MAXLONGNAME : ℕ := 4 * 1024

/-- `TAR_MAXUID` -/
def TAR_MAXUID : ℕ := 0o7777777

/-- `TAR_MAXSIZE` -/
def TAR_MAXSIZE : ℕ := 0o77777777777

/-- `FFUNIX_FILE_DIR` -/
def FFUNIX_FILE_DIR : ℕ := 0o40000

/-- `FFTAR_FILE` -/
def FFTAR_FILE : UInt8 := 0x30

/-- `FFTAR_HLINK` -/
def FFTAR_HLINK : UInt8 := 0x31

/-- `FFTAR_SLINK` -/
def FFTAR_SLINK : UInt8 := 0x32

/-- `FFTAR_DIR` -/
def FFTAR_DIR : UInt8 := 0x35

/-- `FFTAR_LONG`: the data is the name of the next file. -/
def FFTAR_LONG : UInt8 := 0x4c

/-- `FFTAR_EXTHDR`: a global extended header. -/
def FFTAR_EXTHDR : UInt8 := 0x67

/-- `FFTAR_NEXTHDR`: an extended header for the next file. -/
def FFTAR_NEXTHDR : UInt8 := 0x78

/-- `enum FFTAR_E` -/
inductive FftarE
  | sys
  | hdr
  | type
  | chksum
  | padding
  | notready
  | big
  | fname
  | longname
  | havedata
  deriving DecidableEq, Repr

/-- `fftar_file`. Strings are the bytes before the terminating zero byte. -/
structure FftarFile where
  name : List UInt8
  linkTo : Option (List UInt8)
  mode : ℕ
  uid : ℕ
  gid : ℕ
  type : UInt8
  size : ℕ
  mtime : ℕ
  uidStr : Option (List UInt8)
  gidStr : Option (List UInt8)
  deriving DecidableEq, Repr

/-! ### Fields -/

/-- The string in a field. -/
def cstr (l : List UInt8) : List UInt8 := l.takeWhile (· ≠ 0)

theorem cstr_append_zero (l s : List UInt8) : cstr (l ++ 0 :: s) = cstr l := by
  induction l with
  | nil => rfl
  | cons c l ih =>
    by_cases hc : c = 0
    · simp [cstr, hc]
    · simpa [cstr, hc] using ih

/-- The bytes that `_tar_num` skips: a space and zero. -/
def isPad (c : UInt8) : Bool := c == 0x20 || c == 0

/-- `_tar_num`: an octal number with `isPad` bytes around it, stored as a word of `size` bytes. A
field without a number leaves `dst`. -/
def tarNumText (d : List UInt8) (dst size : ℕ) : Option ℕ :=
  let p := d.dropWhile isPad
  match ffsToint p ⟨size, false, false, true⟩ with
  | none => if p = [] then some dst else none
  | some (n, v) =>
    let p := p.drop n
    let p2 := p.dropWhile isPad
    if p.length = p2.length ∨ p2 ≠ [] then none else some v

/-- `tar_num64` -/
def tarNum64 (d : List UInt8) (dst : ℕ) : Option ℕ :=
  if d.getD 0 0 &&& 0x80 ≠ 0 then some (beNat (field d 4 8)) else tarNumText d dst 8

/-- `tar_num` -/
def tarNum (d : List UInt8) (dst : ℕ) : Option ℕ :=
  if d.getD 0 0 &&& 0x80 ≠ 0 then some (beNat (field d 4 4)) else tarNumText d dst 4

/-- `_ffs_fromint_oct`: the octal digits in front of `ps`. The buffer has room for 64. -/
def ffsFromintOct : ℕ → List UInt8 → ℕ → List UInt8
  | 0, ps, _ => ps
  | n + 1, ps, i =>
    let ps := UInt8.ofNat (i % 8 + 0x30) :: ps
    if i / 8 ≠ 0 then ffsFromintOct n ps (i / 8) else ps

/-- `ffs_fromint` with `FFINT_OCTAL`, `FFINT_ZEROWIDTH` and a width, cut off at `cap` bytes. -/
def ffsFromintOctal (i cap width : ℕ) : List UInt8 :=
  let ps := ffsFromintOct 64 [] i
  let fill := if width > ps.length then List.replicate (min (width - ps.length) cap) 0x30 else []
  fill ++ ps.take (cap - fill.length)

/-- `tar_writenum`: the bytes written for a field of `cap` bytes. -/
def tarWritenum (n cap : ℕ) : List UInt8 :=
  if cap = 12 ∧ n > TAR_MAXSIZE then beBytes 4 0x80000000 ++ beBytes 8 n
  else if cap = 8 ∧ n > TAR_MAXUID then beBytes 4 0x80000000 ++ beBytes 4 n
  else ffsFromintOctal n cap (cap - 1)

/-- `tar_checksum` -/
def tarChecksum (d : List UInt8) (len : ℕ) : ℕ :=
  ((field d 0 148).map UInt8.toNat).sum + 0x20 * 8 + ((field d 156 (len - 156)).map UInt8.toNat).sum

/-! ### Numbers are read back -/

theorem ffcharTooct_digit {d : ℕ} (hd : d < 8) : ffcharTooct (UInt8.ofNat (d + 0x30)) = some d := by
  have h : ∀ d : Fin 8, ffcharTooct (UInt8.ofNat (d.val + 0x30)) = some d.val := by decide
  exact h ⟨d, hd⟩

theorem octal_digit {d : ℕ} (hd : d < 8) : isPad (UInt8.ofNat (d + 0x30)) = false ∧
    UInt8.ofNat (d + 0x30) &&& 0x80 = 0 := by
  have h : ∀ d : Fin 8, isPad (UInt8.ofNat (d.val + 0x30)) = false ∧
      UInt8.ofNat (d.val + 0x30) &&& 0x80 = 0 := by decide
  exact h ⟨d, hd⟩

theorem tointLoop_zeros {k digits : ℕ} (hk : digits + k ≤ 22) (s : List UInt8) :
    tointLoop ffcharTooct 8 22 (List.replicate k 0x30 ++ s) digits 0 =
      tointLoop ffcharTooct 8 22 s (digits + k) 0 := by
  induction k generalizing digits with
  | zero => rfl
  | succ k ih =>
    have hzero : ffcharTooct 0x30 = some 0 := by decide
    have hne : digits ≠ 22 := by omega
    rw [replicate_succ, cons_append, tointLoop, hzero]
    simp only [if_neg hne]
    have hrest := @ih (digits + 1) (by omega)
    rw [Nat.add_assoc, Nat.add_comm 1 k] at hrest
    exact hrest

/-- **The octal text of a number** and what the loop of `ffs_toint` makes of it. -/
theorem ffsFromintOctal_spec {n m cap width : ℕ} (hm : 1 ≤ m) (hw : width ≤ m) (hcap : m ≤ cap)
    (hmax : m ≤ 22) (hn : n < 8 ^ m) :
    ffsFromintOctal n cap width ≠ [] ∧ (ffsFromintOctal n cap width).length ≤ m ∧
      (∀ c ∈ ffsFromintOctal n cap width, ∃ d, d < 8 ∧ c = UInt8.ofNat (d + 0x30)) ∧
      ∀ ps, tointLoop ffcharTooct 8 22 (ffsFromintOctal n cap width ++ ps) 0 0 =
        tointLoop ffcharTooct 8 22 ps (ffsFromintOctal n cap width).length (n % 2 ^ 64) := by
  obtain ⟨ds, htext, hne, hlen, hdig, hloop⟩ := @digits_spec ffsFromintOct ffcharTooct 8 22
    (by omega) (fun _ _ _ => rfl) (fun d hd => ffcharTooct_digit hd) m 64 n hm (by omega) hn
  have hform : ffsFromintOctal n cap width = List.replicate (width - ds.length) 0x30 ++ ds := by
    rw [ffsFromintOctal, htext, append_nil]
    by_cases hfill : width > ds.length
    · simp only [if_pos hfill, length_replicate]
      rw [Nat.min_eq_left (by omega), take_of_length_le (by omega)]
    · simp only [if_neg hfill, length_nil, Nat.sub_zero]
      rw [take_of_length_le (by omega), Nat.sub_eq_zero_of_le (by omega)]
      rfl
  have hlen' : (ffsFromintOctal n cap width).length = width - ds.length + ds.length := by
    rw [hform, length_append, length_replicate]
  refine ⟨?_, by omega, ?_, ?_⟩
  · rw [hform]
    exact append_ne_nil_of_right_ne_nil _ hne
  · intro c hc
    rw [hform] at hc
    rcases mem_append.mp hc with hc | hc
    · exact ⟨0, by omega, eq_of_mem_replicate hc⟩
    · exact hdig c hc
  · intro ps
    rw [hlen', hform, append_assoc, tointLoop_zeros (by omega), hloop _ _ _ (by omega),
      Nat.zero_add, Nat.zero_mul, Nat.zero_add]

/-- **An octal number is read back from its field**, where it leaves a byte free. -/
theorem tarNumText_octal {n m cap width size w dst : ℕ} (hm : 1 ≤ m) (hw : width ≤ m)
    (hcap : m ≤ cap) (hmax : m ≤ 21) (hn : n < 8 ^ m) (hsize : size = 4 ∨ size = 8)
    (hfit : n < 2 ^ (size * 8)) (hfree : m < w) :
    tarNumText (padded w (ffsFromintOctal n cap width)) dst size = some n ∧
      (padded w (ffsFromintOctal n cap width)).getD 0 0 &&& 0x80 = 0 := by
  obtain ⟨hne, hlen, hdig, hloop⟩ := @ffsFromintOctal_spec n m cap width hm hw hcap (by omega) hn
  obtain ⟨ds, hds⟩ : ∃ ds, ds = ffsFromintOctal n cap width := ⟨_, rfl⟩
  rw [← hds] at hne hlen hdig hloop ⊢
  obtain ⟨k, hk⟩ : ∃ k, w - ds.length = k + 1 := ⟨w - ds.length - 1, by omega⟩
  obtain ⟨c, cs, rfl⟩ := exists_cons_of_ne_nil hne
  obtain ⟨d, hd, hc⟩ := hdig c mem_cons_self
  obtain ⟨hpad, hbin⟩ := octal_digit hd
  rw [← hc] at hpad hbin
  have hskip : (padded w (c :: cs)).dropWhile isPad = c :: cs ++ List.replicate (k + 1) 0 := by
    rw [padded, hk, cons_append, dropWhile_cons_of_neg (by simp [hpad])]
  have hrest : (List.replicate (k + 1) (0 : UInt8)).dropWhile isPad = [] := by
    refine dropWhile_eq_nil_iff.mpr fun x hx => ?_
    rw [eq_of_mem_replicate hx]
    rfl
  have h64 : n % 2 ^ 64 = n := by
    refine Nat.mod_eq_of_lt (Nat.lt_of_lt_of_le hn ?_)
    calc 8 ^ m ≤ 8 ^ 21 := Nat.pow_le_pow_right (by omega) hmax
      _ ≤ 2 ^ 64 := by decide
  have hstop : tointLoop ffcharTooct 8 22 (c :: cs ++ List.replicate (k + 1) 0) 0 0 =
      some ((c :: cs).length, n) := by
    have hzero : ffcharTooct 0 = none := by decide
    rw [hloop, h64, replicate_succ, tointLoop, hzero]
  have htoint : ffsToint (c :: cs ++ List.replicate (k + 1) 0) ⟨size, false, false, true⟩ =
      some ((c :: cs).length, n) := by
    have hover : n / 2 ^ (size * 8) = 0 := Nat.div_eq_of_lt hfit
    have hmod : n % 2 ^ (size * 8) = n := Nat.mod_eq_of_lt hfit
    have hok : size = 8 ∨ size = 4 ∨ size = 2 ∨ size = 1 := by omega
    simp only [ffsToint, Bool.false_and, Bool.false_eq_true, if_false, drop_zero, if_true,
      hstop, Option.bind_eq_bind, Option.bind_some, Nat.sub_zero, hover, hmod, if_pos hok,
      ne_eq, not_true_eq_false, and_false, Nat.zero_add]
    rw [if_neg (by simp)]
  constructor
  · simp only [tarNumText, hskip, htoint, drop_left, hrest]
    rw [if_neg]
    simp
  · rw [padded, cons_append]
    exact hbin

theorem binary_field {w k n : ℕ} (hw : w = 4 + k) :
    padded w (beBytes 4 0x80000000 ++ beBytes k n) = beBytes 4 0x80000000 ++ beBytes k n ∧
      (padded w (beBytes 4 0x80000000 ++ beBytes k n)).getD 0 0 &&& 0x80 ≠ 0 ∧
      field (beBytes 4 0x80000000 ++ beBytes k n) 4 k = beBytes k n := by
  have hlen : (beBytes 4 0x80000000 ++ beBytes k n).length = w := by
    rw [length_append, length_beBytes, length_beBytes, hw]
  have hpad : padded w (beBytes 4 0x80000000 ++ beBytes k n) =
      beBytes 4 0x80000000 ++ beBytes k n := by
    rw [padded, hlen, Nat.sub_self]
    exact append_nil _
  refine ⟨hpad, ?_, ?_⟩
  · rw [hpad]
    have hfirst : beBytes 4 0x80000000 = [0x80, 0, 0, 0] := by decide
    rw [hfirst]
    exact (by decide : (0x80 : UInt8) &&& 0x80 ≠ 0)
  · rw [field, drop_left' (length_beBytes 4 _), take_of_length_le (by rw [length_beBytes])]

/-- **A number that has been written is read back**, from a field of 12 bytes. -/
theorem tarNum64_writenum {n : ℕ} (hn : n < 2 ^ 64) (dst : ℕ) :
    tarNum64 (padded 12 (tarWritenum n 12)) dst = some n := by
  rw [tarWritenum]
  by_cases hbig : n > TAR_MAXSIZE
  · obtain ⟨hpad, hbin, hfield⟩ := @binary_field 12 8 n rfl
    rw [if_pos ⟨rfl, hbig⟩, tarNum64, if_pos hbin, hpad, hfield, beNat_beBytes (by simpa using hn)]
  have hlt : n < 8 ^ 11 := by
    rw [TAR_MAXSIZE] at hbig
    omega
  obtain ⟨hnum, hbin⟩ := @tarNumText_octal n 11 12 11 8 12 dst (by omega) (by omega) (by omega)
    (by omega) hlt (.inr rfl) hn (by omega)
  rw [if_neg (fun h => hbig h.2), if_neg (fun h => by omega), tarNum64, if_neg (not_not.mpr hbin),
    hnum]

theorem tarNum_writenum {n : ℕ} (hn : n < 2 ^ 32) (dst : ℕ) :
    tarNum (padded 8 (tarWritenum n 8)) dst = some n := by
  rw [tarWritenum, if_neg (fun h => by omega)]
  by_cases hbig : n > TAR_MAXUID
  · obtain ⟨hpad, hbin, hfield⟩ := @binary_field 8 4 n rfl
    rw [if_pos ⟨rfl, hbig⟩, tarNum, if_pos hbin, hpad, hfield, beNat_beBytes (by simpa using hn)]
  have hlt : n < 8 ^ 7 := by
    rw [TAR_MAXUID] at hbig
    omega
  obtain ⟨hnum, hbin⟩ := @tarNumText_octal n 7 8 7 4 8 dst (by omega) (by omega) (by omega)
    (by omega) hlt (.inl rfl) hn (by omega)
  rw [if_neg (fun h => hbig h.2), tarNum, if_neg (not_not.mpr hbin), hnum]

theorem tarNum_checksum {n : ℕ} (hn : n < 8 ^ 6) (dst : ℕ) :
    tarNum (padded 8 (tarWritenum n 6)) dst = some n := by
  obtain ⟨hnum, hbin⟩ := @tarNumText_octal n 6 6 5 4 8 dst (by omega) (by omega) (by omega)
    (by omega) hn (.inl rfl) (Nat.lt_trans hn (by decide)) (by omega)
  rw [tarWritenum, if_neg (fun h => by omega), if_neg (fun h => by omega), tarNum,
    if_neg (not_not.mpr hbin), hnum]

theorem length_tarWritenum {n cap : ℕ} (hcap : cap = 8 ∧ n < 2 ^ 32 ∨ cap = 12 ∧ n < 2 ^ 64 ∨
    cap = 6 ∧ n < 8 ^ 6) : (tarWritenum n cap).length ≤ cap := by
  have hbin : ∀ k, (beBytes 4 0x80000000 ++ beBytes k n).length = 4 + k := fun k => by
    rw [length_append, length_beBytes, length_beBytes]
  rw [tarWritenum]
  split
  · next h => rw [hbin, h.1]
  next h12 =>
    split
    · next h => rw [hbin, h.1]
    next h8 =>
      have hlt : n < 8 ^ cap ∧ 1 ≤ cap ∧ cap ≤ 22 := by
        rw [TAR_MAXSIZE] at h12
        rw [TAR_MAXUID] at h8
        obtain ⟨rfl, h⟩ | ⟨rfl, h⟩ | ⟨rfl, h⟩ := hcap <;> omega
      exact (ffsFromintOctal_spec hlt.2.1 (Nat.sub_le _ _) le_rfl hlt.2.2 hlt.1).2.1

/-! ### Reading -/

/-- `TAR_GNU_MAGIC` -/
def TAR_GNU_MAGIC : List UInt8 := [0x75, 0x73, 0x74, 0x61, 0x72, 0x20, 0x20, 0]

/-- `TAR_USTAR_MAGIC`, and the version. -/
def TAR_USTAR_MAGIC : List UInt8 := [0x75, 0x73, 0x74, 0x61, 0x72, 0, 0x30, 0x30]

/-- The variables `tt` and `hchk`, which are not set before a field is read into them. -/
structure Unset where
  tt : ℕ
  hchk : ℕ
  deriving DecidableEq, Repr

/-- The ustar header has a prefix for the name. -/
def hasPrefix (b : List UInt8) : Bool :=
  field b 257 8 == TAR_USTAR_MAGIC && b.getD 345 0 != 0

/-- The name that is written to `filename`. -/
def hdrName (b : List UInt8) : List UInt8 :=
  if hasPrefix b then cstr (field b 345 155) ++ 0x2f :: cstr (field b 0 100)
  else cstr (field b 0 100)

/-- `fftar_hdr_parse`. Where `filename` is `NULL`, the name is `name`. -/
def fftarHdrParse (un : Unset) (name : Option (List UInt8)) (b : List UInt8) :
    Except FftarE FftarFile := do
  let type := b.getD 156 0
  let islink := type = FFTAR_SLINK ∨ type = FFTAR_HLINK
  if islink ∧ (cstr (field b 157 100)).length = 100 then .error .longname
  else
    match tarNum (field b 100 8) 0, tarNum (field b 108 8) 0, tarNum (field b 116 8) 0,
      tarNum64 (field b 124 12) 0, tarNum64 (field b 136 12) un.tt with
    | some mode, some uid, some gid, some size, some tt =>
      if tarNum (field b 148 8) un.hchk ≠ some (tarChecksum b TAR_BLOCK) then .error .chksum
      else
        let owner := field b 257 8 == TAR_GNU_MAGIC || field b 257 8 == TAR_USTAR_MAGIC
        .ok {
          name := name.getD (hdrName b)
          linkTo := if islink then some (cstr (field b 157 100)) else none
          mode := mode &&& 0o777 ||| (if type = FFTAR_DIR then FFUNIX_FILE_DIR else 0)
          uid := uid
          gid := gid
          type := type
          size := size
          mtime := tt
          uidStr := if owner then some (cstr (b.drop 265)) else none
          gidStr := if owner then some (cstr (b.drop 297)) else none }
    | _, _, _, _, _ => .error .hdr

/-- The number of bytes that `fftar_hdr_parse` writes to `filename`: the name of the header, and
over it the one with the prefix where the header is good. -/
def hdrNameSize (un : Unset) (b : List UInt8) : ℕ :=
  match fftarHdrParse un none b with
  | .ok _ => (hdrName b).length + 1
  | .error _ => (cstr (field b 0 100)).length + 1

end Tar

end FF
