import FF.Net.Ip6
import FF.Str.Fromint

/-!
# The text of an IPv6 address

`ffip6_tostr` writes the groups of an address, and `::` for the longest run of groups that are 0.
-/

namespace FF

namespace Net

open List Option

/-! ### The functions -/

/-- `FFIP6_STRLEN` -/
def FFIP6_STRLEN : ℕ := 39

/-- The search for the zeros to cut off, from the byte `i` on: `nzr` bytes from `zrbegin` on are 0 in
front of it. The result is `cut_from`, where it is not -1, and `cut_len`. -/
def ip6Cut : List UInt8 → ℕ → Option ℕ → ℕ → ℕ → ℕ → Option ℕ × ℕ
  | x :: y :: a, i, cutFrom, cutLen, zrbegin, nzr =>
    if x = 0 ∧ y = 0 then
      ip6Cut a (i + 2) cutFrom cutLen (if nzr = 0 then i else zrbegin) (nzr + 2)
    else if nzr ≠ 0 then
      if nzr > cutLen then ip6Cut a (i + 2) (some zrbegin) nzr zrbegin 0
      else ip6Cut a (i + 2) cutFrom cutLen zrbegin 0
    else ip6Cut a (i + 2) cutFrom cutLen zrbegin nzr
  | _, _, cutFrom, cutLen, zrbegin, nzr =>
    if nzr > cutLen then (some zrbegin, nzr) else (cutFrom, cutLen)

/-- `ffint_ntoh16` of the bytes at `i`. -/
def ip6Group (a : List UInt8) (i : ℕ) : ℕ := (a.getD i 0).toNat * 256 + (a.getD (i + 1) 0).toNat

/-- The loop that writes, for at most `n` steps: `p` is what has been written. -/
def ip6Write (a : List UInt8) (cutFrom : Option ℕ) (cutLen cap : ℕ) :
    ℕ → ℕ → List UInt8 → List UInt8
  | 0, _, p => p
  | n + 1, i, p =>
    if 16 ≤ i then p
    else if cutFrom = some i then
      let p := p ++ [0x3a]
      let i := i + cutLen
      ip6Write a cutFrom cutLen cap n i (if i = 16 then p ++ [0x3a] else p)
    else
      let p := if i ≠ 0 then p ++ [0x3a] else p
      ip6Write a cutFrom cutLen cap n (i + 2)
        (p ++ ffsFromintHexlow (ip6Group a i) (cap - p.length))

/-- `ffip6_tostr` of 16 bytes; nothing is written where the buffer might be too small. A step writes
a group or the `::`, and there is one more at the end. -/
def ffip6Tostr (cap : ℕ) (a : List UInt8) : List UInt8 :=
  if cap < FFIP6_STRLEN then []
  else
    let (cutFrom, cutLen) := ip6Cut a 0 none 0 0 0
    ip6Write a cutFrom cutLen cap 10 0 []

/-! ### The groups of an address -/

/-- The bytes of groups, as numbers. -/
def wordBytes (ws : List ℕ) : List UInt8 := ws.flatMap ip6Chunk

theorem wordBytes_cons (w : ℕ) (ws : List ℕ) : wordBytes (w :: ws) = ip6Chunk w ++ wordBytes ws :=
  rfl

theorem wordBytes_append (ws vs : List ℕ) :
    wordBytes (ws ++ vs) = wordBytes ws ++ wordBytes vs := flatMap_append

@[simp] theorem length_wordBytes (ws : List ℕ) : (wordBytes ws).length = 2 * ws.length := by
  induction ws with
  | nil => rfl
  | cons w ws ih =>
    rw [wordBytes_cons, length_append, ih, length_ip6Chunk, length_cons]
    omega

theorem ip6Chunk_bytes (x y : UInt8) : ip6Chunk (x.toNat * 256 + y.toNat) = [x, y] := by
  have hy := y.toNat_lt
  have hhigh : (x.toNat * 256 + y.toNat) >>> 8 = x.toNat := by
    rw [Nat.shiftRight_eq_div_pow]
    omega
  have hlow : (x.toNat * 256 + y.toNat) &&& 0xff = y.toNat := by
    rw [Nat.and_two_pow_sub_one_eq_mod _ 8]
    omega
  rw [ip6Chunk, hhigh, hlow, UInt8.ofNat_toNat, UInt8.ofNat_toNat]

/-- **An address is made of groups.** -/
theorem exists_words {n : ℕ} {a : List UInt8} (ha : a.length = 2 * n) :
    ∃ ws : List ℕ, a = wordBytes ws ∧ ws.length = n ∧ ∀ w ∈ ws, w < 2 ^ 16 := by
  induction n generalizing a with
  | zero => exact ⟨[], length_eq_zero_iff.mp ha, rfl, nofun⟩
  | succ n ih =>
    match a, ha with
    | x :: y :: a, ha =>
      simp only [length_cons] at ha
      obtain ⟨ws, rfl, hlen, hws⟩ := @ih a (by omega)
      have hx := x.toNat_lt
      have hy := y.toNat_lt
      refine ⟨(x.toNat * 256 + y.toNat) :: ws, ?_, by rw [length_cons, hlen],
        forall_mem_cons.mpr ⟨by omega, hws⟩⟩
      rw [wordBytes_cons, ip6Chunk_bytes]
      rfl

theorem ip6Chunk_toNat {w : ℕ} (hw : w < 2 ^ 16) :
    ∃ x y : UInt8, ip6Chunk w = [x, y] ∧ x.toNat * 256 + y.toNat = w := by
  have hhigh : w >>> 8 = w / 256 := Nat.shiftRight_eq_div_pow w 8
  have hlow : w &&& 0xff = w % 256 := Nat.and_two_pow_sub_one_eq_mod w 8
  refine ⟨_, _, rfl, ?_⟩
  rw [hhigh, hlow, UInt8.toNat_ofNat', UInt8.toNat_ofNat']
  omega

theorem ip6Group_words {ps qs : List ℕ} {w : ℕ} (hw : w < 2 ^ 16) :
    ip6Group (wordBytes (ps ++ w :: qs)) (2 * ps.length) = w := by
  obtain ⟨x, y, hxy, hval⟩ := ip6Chunk_toNat hw
  have hlen := length_wordBytes ps
  rw [wordBytes_append, wordBytes_cons, hxy, ← hlen, ip6Group, getD_append_right _ _ _ _ le_rfl,
    getD_append_right _ _ _ _ (Nat.le_add_right _ 1), Nat.sub_self, Nat.add_sub_cancel_left, ← hval]
  rfl

/-! ### The zeros that are cut off -/

/-- `cut_from` and `cut_len` are those of groups that are 0, and the groups behind these have the
property `P`. -/
def CutOk (P : List ℕ → Prop) (ws : List ℕ) (cutFrom : Option ℕ) (cutLen : ℕ) : Prop :=
  ∀ f, cutFrom = some f → ∃ ps l qs, ws = ps ++ List.replicate l 0 ++ qs ∧ 0 < l ∧
    f = 2 * ps.length ∧ cutLen = 2 * l ∧ P qs

/-- The first group is there and is not 0. -/
def NonzeroFirst (qs : List ℕ) : Prop := ∃ q ∈ qs.head?, q ≠ 0

/-- The first group is not 0. -/
def NotZeroFirst (qs : List ℕ) : Prop := qs.head? ≠ some 0

/-- `zrbegin` and `nzr` are those of the groups that are 0 at the end of `ws`. -/
def RunOk (ws : List ℕ) (zrbegin nzr : ℕ) : Prop :=
  nzr ≠ 0 → ∃ ps l, ws = ps ++ List.replicate l 0 ∧ zrbegin = 2 * ps.length ∧ nzr = 2 * l

section Cut

variable {ws vs : List ℕ} {cutFrom : Option ℕ} {cutLen zrbegin nzr w : ℕ}

theorem CutOk.append (h : CutOk NonzeroFirst ws cutFrom cutLen) (vs : List ℕ) :
    CutOk NonzeroFirst (ws ++ vs) cutFrom cutLen := by
  intro f hf
  obtain ⟨ps, l, qs, rfl, hl, hf, hlen, q, hq, hne⟩ := h f hf
  refine ⟨ps, l, qs ++ vs, by rw [append_assoc _ qs vs], hl, hf, hlen, q, ?_, hne⟩
  rw [head?_append, Option.mem_def.mp hq]
  rfl

theorem CutOk.weaken (h : CutOk NonzeroFirst ws cutFrom cutLen) :
    CutOk NotZeroFirst ws cutFrom cutLen := by
  intro f hf
  obtain ⟨ps, l, qs, hws, hl, hf, hlen, q, hq, hne⟩ := h f hf
  refine ⟨ps, l, qs, hws, hl, hf, hlen, fun hzero => hne ?_⟩
  exact some.inj ((Option.mem_def.mp hq).symm.trans hzero)

theorem RunOk.cut (h : RunOk ws zrbegin nzr) (hnzr : nzr ≠ 0) :
    CutOk NotZeroFirst ws (some zrbegin) nzr := by
  intro f hf
  obtain ⟨ps, l, rfl, rfl, rfl⟩ := h hnzr
  cases hf
  exact ⟨ps, l, [], (append_nil _).symm, by omega, rfl, rfl, nofun⟩

theorem RunOk.cut_append (h : RunOk ws zrbegin nzr) (hnzr : nzr ≠ 0) (hw : w ≠ 0) :
    CutOk NonzeroFirst (ws ++ [w]) (some zrbegin) nzr := by
  intro f hf
  obtain ⟨ps, l, rfl, rfl, rfl⟩ := h hnzr
  cases hf
  exact ⟨ps, l, [w], rfl, by omega, rfl, rfl, w, rfl, hw⟩

theorem RunOk.zero (h : RunOk ws zrbegin nzr) :
    RunOk (ws ++ [0]) (if nzr = 0 then 2 * ws.length else zrbegin) (nzr + 2) := by
  intro _
  by_cases hnzr : nzr = 0
  · rw [if_pos hnzr]
    exact ⟨ws, 1, rfl, rfl, by omega⟩
  · obtain ⟨ps, l, rfl, hz, rfl⟩ := h hnzr
    rw [if_neg hnzr]
    exact ⟨ps, l + 1, by rw [append_assoc, ← replicate_succ'], hz, rfl⟩

theorem RunOk.none (ws : List ℕ) (zrbegin : ℕ) : RunOk ws zrbegin 0 := fun h => absurd rfl h

theorem ip6Chunk_zero (hw : w < 2 ^ 16) {x y : UInt8} (h : ip6Chunk w = [x, y]) :
    (x = 0 ∧ y = 0) ↔ w = 0 := by
  obtain ⟨x', y', hxy, hval⟩ := ip6Chunk_toNat hw
  rw [h] at hxy
  cases hxy
  constructor
  · rintro ⟨rfl, rfl⟩
    exact hval.symm
  · rintro rfl
    cases h
    exact ⟨rfl, rfl⟩

/-- **What is cut off is 0**, and the group behind it is not. -/
theorem ip6Cut_ok (hvs : ∀ v ∈ vs, v < 2 ^ 16) (hcut : CutOk NonzeroFirst ws cutFrom cutLen)
    (hrun : RunOk ws zrbegin nzr) :
    CutOk NotZeroFirst (ws ++ vs)
      (ip6Cut (wordBytes vs) (2 * ws.length) cutFrom cutLen zrbegin nzr).1
      (ip6Cut (wordBytes vs) (2 * ws.length) cutFrom cutLen zrbegin nzr).2 := by
  induction vs generalizing ws cutFrom cutLen zrbegin nzr with
  | nil =>
    rw [append_nil]
    change CutOk NotZeroFirst ws (if nzr > cutLen then (some zrbegin, nzr) else (cutFrom, cutLen)).1
      (if nzr > cutLen then (some zrbegin, nzr) else (cutFrom, cutLen)).2
    by_cases hgt : nzr > cutLen
    · rw [if_pos hgt]
      exact hrun.cut (by omega)
    · rw [if_neg hgt]
      exact hcut.weaken
  | cons v vs ih =>
    obtain ⟨hv, hrest⟩ := forall_mem_cons.mp hvs
    obtain ⟨x, y, hxy, -⟩ := ip6Chunk_toNat hv
    have hlen : 2 * ws.length + 2 = 2 * (ws ++ [v]).length := by
      rw [length_append, length_singleton]
      omega
    rw [append_cons, wordBytes_cons, hxy, cons_append, singleton_append, ip6Cut, hlen]
    by_cases hzero : x = 0 ∧ y = 0
    · obtain rfl := (ip6Chunk_zero hv hxy).mp hzero
      rw [if_pos hzero]
      exact ih hrest (hcut.append [0]) hrun.zero
    have hne : v ≠ 0 := fun h => hzero ((ip6Chunk_zero hv hxy).mpr h)
    rw [if_neg hzero]
    by_cases hnzr : nzr ≠ 0
    · rw [if_pos hnzr]
      by_cases hgt : nzr > cutLen
      · rw [if_pos hgt]
        exact ih hrest (hrun.cut_append hnzr hne) (.none _ _)
      · rw [if_neg hgt]
        exact ih hrest (hcut.append [v]) (.none _ _)
    · rw [if_neg hnzr]
      obtain rfl : nzr = 0 := not_not.mp hnzr
      exact ih hrest (hcut.append [v]) (.none _ _)

end Cut

/-! ### The text of a group -/

/-- The hexadecimal digits of a group. -/
def hexText (w : ℕ) : List UInt8 := ffsFromintHexlow w 4

theorem digitOf_ffhex {d : ℕ} (hd : d < 16) : digitOf 16 (ffhex.getD d 0) = some d := by
  have h : ∀ d : Fin 16, digitOf 16 (ffhex.getD d.val 0) = some d.val := by decide
  exact h ⟨d, hd⟩

/-- **The text of a group is one**, of the same value, and there is room for it in four bytes. -/
theorem hexText_spec {w : ℕ} (hw : w < 2 ^ 16) :
    IsGroup (digitOf 16) (hexText w) ∧ numVal (digitOf 16) 16 0 (hexText w) = w ∧
      ∀ cap, 4 ≤ cap → ffsFromintHexlow w cap = hexText w := by
  have hpow : w < 16 ^ 4 := hw
  obtain ⟨ds, htext, hlen, hdig, hval⟩ :=
    @fromintDigits_spec (fun d => ffhex.getD d 0) 16 (by decide) (fun d hd => digitOf_ffhex hd)
      4 64 w (by decide) (by decide) hpow
  have hcount := digitCount_le (by decide : 1 < 16) (by decide : 1 ≤ 4) hpow
  have hds : ffsFromintHex 64 [] w = ds := by
    rw [ffsFromintHex_eq, ffsFromintHexOf, htext, append_nil]
  have hcap : ∀ cap, 4 ≤ cap → ffsFromintHexlow w cap = ds := fun cap hcap => by
    rw [ffsFromintHexlow, hds, take_of_length_le (by omega)]
  rw [hexText, hcap 4 le_rfl]
  refine ⟨⟨?_, by omega, hdig⟩, hval, hcap⟩
  rintro rfl
  rw [length_nil, digitCount] at hlen
  omega

/-! ### The loop that writes -/

section Write

variable {ps qs ms : List ℕ} {cutFrom : Option ℕ} {cutLen cap n i w : ℕ} {p a : List UInt8}

theorem ip6Write_done (n : ℕ) (p : List UInt8) (hi : 16 ≤ i) :
    ip6Write a cutFrom cutLen cap n i p = p := by
  cases n with
  | zero => rfl
  | succ n => rw [ip6Write, if_pos hi]

theorem ip6Write_group (hlen : (ps ++ w :: qs).length = 8) (hw : w < 2 ^ 16)
    (hcut : cutFrom ≠ some (2 * ps.length)) (hcap : FFIP6_STRLEN ≤ cap)
    (hp : p.length ≤ 5 * ps.length - 1) :
    ip6Write (wordBytes (ps ++ w :: qs)) cutFrom cutLen cap (n + 1) (2 * ps.length) p =
      ip6Write (wordBytes (ps ++ w :: qs)) cutFrom cutLen cap n (2 * (ps.length + 1))
        ((if ps ≠ [] then p ++ [0x3a] else p) ++ hexText w) := by
  rw [length_append, length_cons] at hlen
  have hi : ¬16 ≤ 2 * ps.length := by omega
  have hne : 2 * ps.length ≠ 0 ↔ ps ≠ [] := by
    rw [← length_pos_iff]
    omega
  have hroom : 4 ≤ cap - (if ps ≠ [] then p ++ [0x3a] else p).length := by
    unfold FFIP6_STRLEN at hcap
    split
    · next h =>
        rw [length_append, length_singleton]
        omega
    · omega
  rw [ip6Write, if_neg hi, if_neg hcut, if_congr hne rfl rfl, ip6Group_words hw]
  dsimp only
  rw [(hexText_spec hw).2.2 _ hroom]
  rfl

theorem ip6Write_groups (hlen : (ps ++ ms ++ qs).length = 8) (hms : ∀ m ∈ ms, m < 2 ^ 16)
    (hps : ps ≠ []) (hcut : ∀ j, ps.length ≤ j → j < ps.length + ms.length →
      cutFrom ≠ some (2 * j)) (hcap : FFIP6_STRLEN ≤ cap) (hp : p.length ≤ 5 * ps.length - 1) :
    ip6Write (wordBytes (ps ++ ms ++ qs)) cutFrom cutLen cap (n + ms.length) (2 * ps.length) p =
      ip6Write (wordBytes (ps ++ ms ++ qs)) cutFrom cutLen cap n (2 * (ps.length + ms.length))
        (p ++ ms.flatMap fun m => 0x3a :: hexText m) := by
  induction ms generalizing ps p with
  | nil => simp
  | cons m ms ih =>
    obtain ⟨hm, hms⟩ := forall_mem_cons.mp hms
    have happ : ps ++ m :: ms ++ qs = ps ++ m :: (ms ++ qs) := by simp
    have happ' : ps ++ m :: (ms ++ qs) = ps ++ [m] ++ ms ++ qs := by simp
    have hfour := (hexText_spec hm).1.length_le
    have hpos := length_pos_iff.mpr hps
    rw [length_cons] at hcut ⊢
    rw [happ] at hlen ⊢
    rw [← Nat.add_assoc, ip6Write_group hlen hm (hcut _ le_rfl (by omega)) hcap hp, if_pos hps]
    rw [happ'] at hlen ⊢
    have hnext : ps.length + 1 = (ps ++ [m]).length := by simp
    have hroom : (p ++ [0x3a] ++ hexText m).length ≤ 5 * (ps ++ [m]).length - 1 := by
      simp only [length_append, length_singleton]
      omega
    rw [hnext, ih hlen hms (by simp) ?_ hroom]
    · congr 1
      · simp only [length_append, length_singleton]
        omega
      · simp
    · intro j hj hlt
      rw [← hnext] at hj hlt
      exact hcut j (by omega) (by omega)

theorem ip6Text_words (w : ℕ) (ws : List ℕ) :
    ip6Text ((w :: ws).map hexText) = hexText w ++ ws.flatMap fun m => 0x3a :: hexText m := by
  induction ws generalizing w with
  | nil => simp [ip6Text]
  | cons v ws ih =>
    rw [map_cons, ip6Text_cons (hexText w) (by simp), ih v]
    rfl

theorem ip6Write_first (hlen : (ms ++ qs).length = 8) (hms : ∀ m ∈ ms, m < 2 ^ 16)
    (hcut : ∀ j < ms.length, cutFrom ≠ some (2 * j)) (hcap : FFIP6_STRLEN ≤ cap) :
    ip6Write (wordBytes (ms ++ qs)) cutFrom cutLen cap (n + ms.length) 0 [] =
      ip6Write (wordBytes (ms ++ qs)) cutFrom cutLen cap n (2 * ms.length)
        (ip6Text (ms.map hexText)) := by
  cases ms with
  | nil => rfl
  | cons m ms =>
    obtain ⟨hm, hrest⟩ := forall_mem_cons.mp hms
    have hfour := (hexText_spec hm).1.length_le
    have hfirst := @ip6Write_group [] (ms ++ qs) cutFrom cutLen cap (n + ms.length) m [] hlen hm
      (hcut 0 (Nat.succ_pos _)) hcap (Nat.zero_le _)
    have hothers := @ip6Write_groups [m] qs ms cutFrom cutLen cap n (hexText m) hlen hrest
      (cons_ne_nil _ _)
      (fun j _ hj => hcut j (by simp only [length_cons, length_nil] at hj ⊢; omega)) hcap
      (by rw [length_singleton]; omega)
    rw [ip6Text_words, length_cons, ← Nat.add_assoc]
    refine hfirst.trans (hothers.trans ?_)
    rw [length_singleton, Nat.add_comm 1]
    rfl

end Write

/-! ### An address is read back -/

theorem hexText_groups {ws : List ℕ} (hws : ∀ w ∈ ws, w < 2 ^ 16) :
    (∀ g ∈ ws.map hexText, IsGroup (digitOf 16) g) ∧
      groupBytes (digitOf 16) (ws.map hexText) = wordBytes ws := by
  induction ws with
  | nil => exact ⟨nofun, rfl⟩
  | cons w ws ih =>
    obtain ⟨hw, hws⟩ := forall_mem_cons.mp hws
    obtain ⟨hg, hval, -⟩ := hexText_spec hw
    obtain ⟨hgs, hbytes⟩ := ih hws
    rw [map_cons, groupBytes_cons, wordBytes_cons, hval, hbytes]
    exact ⟨forall_mem_cons.mpr ⟨hg, hgs⟩, rfl⟩

theorem wordBytes_zeros (l : ℕ) : wordBytes (List.replicate l 0) = List.replicate (2 * l) 0 := by
  induction l with
  | zero => rfl
  | succ l ih => rw [replicate_succ, wordBytes_cons, ih]; rfl

theorem length_ip6Text_le {ws : List ℕ} (hws : ∀ w ∈ ws, w < 2 ^ 16) :
    (ip6Text (ws.map hexText)).length ≤ 5 * ws.length - 1 := by
  induction ws with
  | nil => rfl
  | cons w ws ih =>
    obtain ⟨hw, hws⟩ := forall_mem_cons.mp hws
    have hfour := (hexText_spec hw).1.length_le
    cases ws with
    | nil =>
      rw [map_singleton, ip6Text_singleton, length_singleton]
      omega
    | cons v ws =>
      have hrest := ih hws
      rw [map_cons, ip6Text_cons _ (by simp), length_append, length_cons]
      simp only [length_cons] at hrest ⊢
      omega

/-- The groups, the `::`, and the groups behind it. -/
theorem ip6Write_cut {ps qs : List ℕ} {l cap : ℕ} (hl : 0 < l)
    (hlen : (ps ++ List.replicate l 0 ++ qs).length = 8) (hps : ∀ m ∈ ps, m < 2 ^ 16)
    (hqs : ∀ m ∈ qs, m < 2 ^ 16) (hcap : FFIP6_STRLEN ≤ cap) :
    ip6Write (wordBytes (ps ++ List.replicate l 0 ++ qs)) (some (2 * ps.length)) (2 * l) cap 10 0
        [] =
      ip6Text (ps.map hexText) ++ 0x3a :: 0x3a :: ip6Text (qs.map hexText) := by
  have hlens := hlen
  simp only [length_append, length_replicate] at hlens
  obtain ⟨n, hn⟩ : ∃ n, 10 = n + qs.length + 1 + ps.length :=
    ⟨9 - qs.length - ps.length, by omega⟩
  have hfour : (ip6Text (ps.map hexText)).length ≤ 5 * ps.length - 1 := length_ip6Text_le hps
  have hi : ¬16 ≤ 2 * ps.length := by omega
  have hlen' : (ps ++ (List.replicate l 0 ++ qs)).length = 8 := by
    rw [← append_assoc, hlen]
  rw [append_assoc, hn, ip6Write_first hlen' hps
    (fun j hj h => by have := some.inj h; omega) hcap, ip6Write, if_neg hi, if_pos rfl]
  dsimp only
  cases qs with
  | nil =>
    rw [length_nil] at hlens
    rw [if_pos (by omega), ip6Write_done _ _ (by omega), append_assoc]
    rfl
  | cons w qs =>
    have hmid : (ps ++ List.replicate l 0).length = ps.length + l := by simp
    have hne : ps ++ List.replicate l 0 ≠ [] := by
      rw [← length_pos_iff, hmid]
      omega
    have hnot : ¬2 * ps.length + 2 * l = 16 := by
      rw [length_cons] at hlens
      omega
    have hothers := @ip6Write_groups (ps ++ List.replicate l 0) [] (w :: qs)
      (some (2 * ps.length)) (2 * l) cap n (ip6Text (ps.map hexText) ++ [0x3a])
      (by rw [append_nil, hlen]) hqs hne
      (fun j hj _ h => by have := some.inj h; omega) hcap
      (by rw [length_append, length_singleton]; omega)
    rw [append_nil, append_assoc, hmid, Nat.mul_add] at hothers
    rw [if_neg hnot, hothers, ip6Write_done _ _ (by omega), ip6Text_words, append_assoc,
      flatMap_cons]
    rfl

/-- **What is written**: eight groups, or groups with a `::` for some that are 0; the group behind
these is not 0. -/
theorem ffip6Tostr_text {a : List UInt8} {cap : ℕ} (ha : a.length = 16)
    (hcap : FFIP6_STRLEN ≤ cap) :
    (∃ ws : List ℕ, a = wordBytes ws ∧ ws.length = 8 ∧ (∀ w ∈ ws, w < 2 ^ 16) ∧
      ffip6Tostr cap a = ip6Text (ws.map hexText)) ∨
    ∃ (ps : List ℕ) (l : ℕ) (qs : List ℕ), a = wordBytes (ps ++ List.replicate l 0 ++ qs) ∧
      ps.length + l + qs.length = 8 ∧ 0 < l ∧ (∀ w ∈ ps, w < 2 ^ 16) ∧ (∀ w ∈ qs, w < 2 ^ 16) ∧
      NotZeroFirst qs ∧
      ffip6Tostr cap a = ip6Text (ps.map hexText) ++ 0x3a :: 0x3a :: ip6Text (qs.map hexText) := by
  obtain ⟨ws, rfl, hlen, hws⟩ := @exists_words 8 a ha
  have hok := @ip6Cut_ok [] ws none 0 0 0 hws nofun (.none _ _)
  rw [nil_append, length_nil, Nat.mul_zero] at hok
  rw [ffip6Tostr, if_neg (by omega)]
  generalize ip6Cut (wordBytes ws) 0 none 0 0 0 = r at hok ⊢
  obtain ⟨cutFrom, cutLen⟩ := r
  cases cutFrom with
  | none =>
    have hfirst := @ip6Write_first [] ws none cutLen cap 2 (by rw [append_nil, hlen]) hws
      nofun hcap
    rw [append_nil, hlen, ip6Write_done _ _ le_rfl] at hfirst
    exact .inl ⟨ws, rfl, hlen, hws, hfirst⟩
  | some f =>
    obtain ⟨ps, l, qs, rfl, hl, rfl, rfl, hq⟩ := hok f rfl
    have hps : ∀ m ∈ ps, m < 2 ^ 16 := fun m hm => hws m (by simp [hm])
    have hqs : ∀ m ∈ qs, m < 2 ^ 16 := fun m hm => hws m (by simp [hm])
    have htext := ip6Write_cut hl hlen hps hqs hcap
    simp only [length_append, length_replicate] at hlen
    exact .inr ⟨ps, l, qs, rfl, hlen, hl, hps, hqs, hq, htext⟩

/-- Groups, and a `::` for at least one of them, are a text of the address. -/
theorem ip6Form_words {ps qs : List ℕ} {l : ℕ} (hlen : ps.length + l + qs.length = 8) (hl : 0 < l)
    (hps : ∀ w ∈ ps, w < 2 ^ 16) (hqs : ∀ w ∈ qs, w < 2 ^ 16) :
    Ip6Form (digitOf 16) (ip6Text (ps.map hexText) ++ 0x3a :: 0x3a :: ip6Text (qs.map hexText))
      (wordBytes (ps ++ List.replicate l 0 ++ qs)) := by
  obtain ⟨hpre, hprebytes⟩ := hexText_groups hps
  obtain ⟨hpost, hpostbytes⟩ := hexText_groups hqs
  have hzeros : 2 * l = 16 - 2 * ((ps.map hexText).length + (qs.map hexText).length) := by
    rw [length_map, length_map]
    omega
  rw [wordBytes_append, wordBytes_append, wordBytes_zeros, ← hprebytes, ← hpostbytes, hzeros]
  exact .zeros hpre hpost (by rw [length_map, length_map]; omega)

/-- **What is written is a text of the address.** -/
theorem ffip6Tostr_form {a : List UInt8} {cap : ℕ} (ha : a.length = 16)
    (hcap : FFIP6_STRLEN ≤ cap) : Ip6Form (digitOf 16) (ffip6Tostr cap a) a := by
  rcases ffip6Tostr_text ha hcap with
    ⟨ws, rfl, hlen, hws, htext⟩ | ⟨ps, l, qs, rfl, hlen, hl, hps, hqs, -, htext⟩
  · obtain ⟨hgs, hbytes⟩ := hexText_groups hws
    rw [htext, ← hbytes]
    exact .full hgs (by rw [length_map, hlen])
  · rw [htext]
    exact ip6Form_words hlen hl hps hqs

/-! ### The texts that are read right -/

section Exact

variable {digit digit' : UInt8 → Option ℕ} {s a g : List UInt8} {gs : List (List UInt8)} {c : UInt8}

theorem mem_ip6Text (h : c ∈ ip6Text gs) : c = 0x3a ∨ ∃ g ∈ gs, c ∈ g := by
  induction gs with
  | nil => cases h
  | cons g gs ih =>
    cases gs with
    | nil =>
      rw [ip6Text_singleton] at h
      exact .inr ⟨g, mem_cons_self, h⟩
    | cons g' gs =>
      rw [ip6Text_cons g (cons_ne_nil _ _), mem_append, mem_cons] at h
      rcases h with h | h | h
      · exact .inr ⟨g, mem_cons_self, h⟩
      · exact .inl h
      · rcases ih h with h | ⟨f, hf, hcf⟩
        · exact .inl h
        · exact .inr ⟨f, mem_cons_of_mem g hf, hcf⟩

theorem mem_text_of_mem (hg : g ∈ gs) (hc : c ∈ g) : c ∈ ip6Text gs := by
  induction gs with
  | nil => cases hg
  | cons f gs ih =>
    cases gs with
    | nil => rwa [ip6Text_singleton, ← mem_singleton.mp hg]
    | cons f' gs =>
      rw [ip6Text_cons f (cons_ne_nil _ _), mem_append, mem_cons]
      rcases mem_cons.mp hg with rfl | hg
      · exact .inl hc
      · exact .inr (.inr (ih hg))

theorem groups_congr (hgs : ∀ g ∈ gs, IsGroup digit g) (h : ∀ c ∈ ip6Text gs, digit c = digit' c) :
    (∀ g ∈ gs, IsGroup digit' g) ∧ groupBytes digit gs = groupBytes digit' gs := by
  have hc : ∀ g ∈ gs, ∀ c ∈ g, digit c = digit' c := fun g hg c hc => h c (mem_text_of_mem hg hc)
  constructor
  · intro g hg
    refine ⟨(hgs g hg).ne_nil, (hgs g hg).length_le, fun c hcg => ?_⟩
    rw [← hc g hg c hcg]
    exact (hgs g hg).digits c hcg
  · refine flatMap_congr fun g hg => ?_
    rw [numVal_congr (hc g hg)]

theorem Ip6Form.congr (hform : Ip6Form digit s a) (h : ∀ c ∈ s, digit c = digit' c) :
    Ip6Form digit' s a := by
  cases hform with
  | @full gs hgs hlen =>
    obtain ⟨hgs', hbytes⟩ := groups_congr hgs h
    rw [hbytes]
    exact .full hgs' hlen
  | @zeros pre post hpre hpost hlen =>
    obtain ⟨hpre', hprebytes⟩ := groups_congr hpre fun c hc => h c (by simp [hc])
    obtain ⟨hpost', hpostbytes⟩ := groups_congr hpost fun c hc => h c (by simp [hc])
    rw [hprebytes, hpostbytes]
    exact .zeros hpre' hpost' hlen

theorem Ip6Form.mem (hform : Ip6Form digit s a) (hc : c ∈ s) :
    c = 0x3a ∨ (digit c).isSome = true := by
  have hgroup : ∀ gs, (∀ g ∈ gs, IsGroup digit g) → c ∈ ip6Text gs →
      c = 0x3a ∨ (digit c).isSome = true := by
    intro gs hgs hmem
    rcases mem_ip6Text hmem with h | ⟨g, hg, hcg⟩
    · exact .inl h
    · exact .inr ((hgs g hg).digits c hcg)
  cases hform with
  | @full gs hgs hlen => exact hgroup gs hgs hc
  | @zeros pre post hpre hpost hlen =>
    rw [mem_append, mem_cons, mem_cons] at hc
    rcases hc with hc | hc | hc | hc
    · exact hgroup pre hpre hc
    · exact .inl hc
    · exact .inl hc
    · exact hgroup post hpost hc

theorem Ip6Form.tohex (hform : Ip6Form (digitOf 16) s a) : Ip6Form ffcharTohex s a := by
  refine hform.congr fun c hc => ?_
  rcases hform.mem hc with rfl | hsome
  · rfl
  · obtain ⟨b, hb⟩ := isSome_iff_exists.mp hsome
    rw [hb, ffcharTohex_of_digitOf hb]

/-- The number of groups in a text. -/
def numGroups (s : List UInt8) : ℕ := ((s.splitOn 0x3a).filter fun f => f ≠ []).length

theorem numGroups_colon (s t : List UInt8) :
    numGroups (s ++ 0x3a :: t) = numGroups s + numGroups t := by
  rw [numGroups, splitOn_append_cons_self, filter_append, length_append]
  rfl

theorem numGroups_nil : numGroups [] = 0 := by
  rw [numGroups, splitOn_nil]
  rfl

theorem numGroups_text (hgs : ∀ g ∈ gs, IsGroup ffcharTohex g) :
    numGroups (ip6Text gs) = gs.length := by
  by_cases hne : gs = []
  · rw [hne]
    exact numGroups_nil
  · have hsplit := splitOn_intercalate (0x3a : UInt8) (fun g hg => (hgs g hg).not_mem) hne
    rw [numGroups, ip6Text, hsplit, filter_eq_self.mpr]
    intro g hg
    simpa using (hgs g hg).ne_nil

/-- A text of an address has eight groups and no more than seven `:`, or at most seven groups. -/
theorem Ip6Form.count (hform : Ip6Form ffcharTohex s a) : s.count 0x3a ≤ 7 ∨ numGroups s ≤ 7 := by
  cases hform with
  | @full gs hgs hlen =>
    left
    rw [ip6Text, count_intercalate fun g hg => (hgs g hg).not_mem, hlen]
  | @zeros pre post hpre hpost hlen =>
    right
    rw [numGroups_colon, ← nil_append (0x3a :: ip6Text post), numGroups_colon, numGroups_nil,
      numGroups_text hpre, numGroups_text hpost]
    omega

theorem Ip6Trailing.count (h : Ip6Trailing s a) : 8 ≤ s.count 0x3a ∧ numGroups s = 8 := by
  obtain ⟨gs, hgs, hlen, rfl, -⟩ := h
  constructor
  · rw [count_append, ip6Text, count_intercalate fun g hg => (hgs g hg).not_mem, hlen]
    rfl
  · rw [numGroups_colon, numGroups_nil, numGroups_text hgs, hlen]

theorem Ip6NoZeros.count (h : Ip6NoZeros s a) : 8 ≤ s.count 0x3a ∧ numGroups s = 8 := by
  obtain ⟨pre, post, hpre, hpost, hne, hlen, rfl, -⟩ := h
  constructor
  · rw [count_append, count_cons_self, count_cons_self, ip6Text, ip6Text,
      count_intercalate fun g hg => (hpre g hg).not_mem,
      count_intercalate fun g hg => (hpost g hg).not_mem]
    omega
  · rw [numGroups_colon, ← nil_append (0x3a :: ip6Text post), numGroups_colon, numGroups_nil,
      numGroups_text hpre, numGroups_text hpost]
    omega

/-- **A text is read right**: what is written is in the 16 bytes, the texts of addresses are
accepted and no others, and the address is the one of the text. -/
structure Ip6Exact (s : List UInt8) : Prop where
  inside : ∃ ret a, ffip6Parse s = some (ret, a) ∧ a.length ≤ 16
  accepts : ∀ a, ffip6Parse s = some (0, a) ↔ Ip6Form (digitOf 16) s a

/-- **The texts that are read right**: no `::` is between groups for which there is no room, no `:`
is behind eight groups, no `::` stands for no group, and where `ffchar_tohex` finds digits for a
text of an address, none of them is an `@` or a grave accent. -/
structure Ip6Ok (s : List UInt8) : Prop where
  overflow : ¬Ip6Overflow s
  trailing : ∀ a, ¬Ip6Trailing s a
  noZeros : ∀ a, ¬Ip6NoZeros s a
  digits : ∀ a, Ip6Form ffcharTohex s a → 0x40 ∉ s ∧ 0x60 ∉ s

theorem ip6Exact_iff (s : List UInt8) : Ip6Exact s ↔ Ip6Ok s := by
  constructor
  · intro h
    -- A text that is accepted is the text of an address.
    have hform : ∀ a, Ip6Trailing s a ∨ Ip6NoZeros s a → Ip6Form (digitOf 16) s a := fun a ha =>
      (h.accepts a).mp ((ffip6Parse_eq_some s a).mpr (.inr ha))
    have hno : ∀ a, ¬(Ip6Trailing s a ∨ Ip6NoZeros s a) := by
      intro a ha
      have hcount : 8 ≤ s.count 0x3a ∧ numGroups s = 8 := by
        rcases ha with ha | ha
        · exact ha.count
        · exact ha.count
      have hfew := (hform a ha).tohex.count
      omega
    refine ⟨?_, fun a ha => hno a (.inl ha), fun a ha => hno a (.inr ha), fun a ha => ?_⟩
    · intro hover
      obtain ⟨ret, a, hsome, -⟩ := h.inside
      rw [(ffip6Parse_eq_none s).mpr hover] at hsome
      cases hsome
    have hdigit := (h.accepts a).mp ((ffip6Parse_eq_some s a).mpr (.inl ha))
    constructor
    · intro hmem
      rcases hdigit.mem hmem with hc | hc
      · cases hc
      · cases hc
    · intro hmem
      rcases hdigit.mem hmem with hc | hc
      · cases hc
      · cases hc
  intro h
  refine ⟨?_, fun a => ?_⟩
  · cases hparse : ffip6Parse s with
    | none => exact absurd ((ffip6Parse_eq_none s).mp hparse) h.overflow
    | some r => exact ⟨r.1, r.2, rfl, ffip6Parse_inside hparse⟩
  rw [ffip6Parse_eq_some]
  constructor
  · rintro (hform | htrail | hzeros)
    · obtain ⟨hat, hgrave⟩ := h.digits a hform
      refine hform.congr fun c hc => ?_
      rw [ffcharTohex_eq, if_neg]
      rintro (rfl | rfl)
      · exact hat hc
      · exact hgrave hc
    · exact absurd htrail (h.trailing a)
    · exact absurd hzeros (h.noZeros a)
  · exact fun hform => .inl hform.tohex

/-- **An address is read back from its text.** -/
theorem ffip6Parse_tostr (ha : a.length = 16) {cap : ℕ} (hcap : FFIP6_STRLEN ≤ cap) :
    ffip6Parse (ffip6Tostr cap a) = some (0, a) :=
  (ffip6Parse_eq_some _ _).mpr (.inl (ffip6Tostr_form ha hcap).tohex)

end Exact

/-- **A text is read right exactly where there is room for what is behind `::`, and where it is the
text of an address if it is accepted**; and every address is read back from its text. -/
theorem ffip6_iff (s a : List UInt8) (ha : a.length = 16) (cap : ℕ) (hcap : FFIP6_STRLEN ≤ cap) :
    (Ip6Exact s ↔ Ip6Ok s) ∧ ffip6Parse (ffip6Tostr cap a) = some (0, a) :=
  ⟨ip6Exact_iff s, ffip6Parse_tostr ha hcap⟩

/-- The text `"::1"`, and its address. -/
theorem ffip6_iff_loopback :
    (Ip6Exact [0x3a, 0x3a, 0x31] ↔ Ip6Ok [0x3a, 0x3a, 0x31]) ∧
      ffip6Parse (ffip6Tostr 64 [0, 0, 0, 0, 0, 0, 0, 0, 0, 0, 0, 0, 0, 0, 0, 1]) =
        some (0, [0, 0, 0, 0, 0, 0, 0, 0, 0, 0, 0, 0, 0, 0, 0, 1]) :=
  ffip6_iff _ _ rfl _ (by decide)

/-- `"1:2:3:4:5:6:7::8:9"` is written behind the address; `"1:2:3:4:5:6:7:8:"`,
`"1:2:3:4:5:6:7::8"` and `"1:2:3:4:5:6:7:@"` are accepted. -/
theorem ffip6_overflow :
    ffip6Parse [0x31, 0x3a, 0x32, 0x3a, 0x33, 0x3a, 0x34, 0x3a, 0x35, 0x3a, 0x36, 0x3a, 0x37, 0x3a,
        0x3a, 0x38, 0x3a, 0x39] = none ∧
      ffip6Parse [0x31, 0x3a, 0x32, 0x3a, 0x33, 0x3a, 0x34, 0x3a, 0x35, 0x3a, 0x36, 0x3a, 0x37,
          0x3a, 0x38, 0x3a] = some (0, [0, 1, 0, 2, 0, 3, 0, 4, 0, 5, 0, 6, 0, 7, 0, 8]) ∧
      ffip6Parse [0x31, 0x3a, 0x32, 0x3a, 0x33, 0x3a, 0x34, 0x3a, 0x35, 0x3a, 0x36, 0x3a, 0x37,
          0x3a, 0x3a, 0x38] = some (0, [0, 1, 0, 2, 0, 3, 0, 4, 0, 5, 0, 6, 0, 7, 0, 8]) ∧
      ffip6Parse [0x31, 0x3a, 0x32, 0x3a, 0x33, 0x3a, 0x34, 0x3a, 0x35, 0x3a, 0x36, 0x3a, 0x37,
          0x3a, 0x40] = some (0, [0, 1, 0, 2, 0, 3, 0, 4, 0, 5, 0, 6, 0, 7, 0, 9]) ∧
      ¬Ip6Exact [0x31, 0x3a, 0x32, 0x3a, 0x33, 0x3a, 0x34, 0x3a, 0x35, 0x3a, 0x36, 0x3a, 0x37,
        0x3a, 0x3a, 0x38, 0x3a, 0x39] := by
  refine ⟨rfl, rfl, rfl, rfl, fun h => ?_⟩
  obtain ⟨ret, a, hsome, -⟩ := h.inside
  cases hsome

end Net

end FF
