import FF.Mtags.Vorbistag

/-!
# Writing Vorbis comments

What `ffvorbtag_add` and `ffvorbtag_fin` do to the memory. An entry is refused, or added, or written
behind the memory; which of them depends on the capacity alone (`vorbAdds_fits`).
-/

namespace FF

open List

/-! ### Writing within the memory -/

/-- The capacity behind a reservation; `none` where nothing is reserved. -/
def vorbCap (alloc : VorbAlloc) (nogrow : Bool) (len cap n : ℕ) : Option ℕ :=
  if nogrow then (if n > sizeSub cap len then none else some cap)
  else if cap ≥ len + n then some cap
  else if alloc.ok (len + max ((len + n) / 4) n) then some (len + max ((len + n) / 4) n)
  else none

/-- The number of bytes that are written for an entry. -/
def vorbNeed (cnt : ℕ) (c : List UInt8 × List UInt8) : ℕ :=
  if cnt = 0 then 4 + c.2.length else 4 + (c.1.length + 1 + c.2.length)

/-- The number of bytes of an entry; behind the vendor there are four more. -/
def vorbSize (cnt : ℕ) (c : List UInt8 × List UInt8) : ℕ :=
  if cnt = 0 then 4 + c.2.length + 4 else 4 + (c.1.length + 1 + c.2.length)

/-- **The entries fit**: each of them, up to the first one for which nothing is reserved, fits into
the capacity, and the capacity at the end is good for `P`. -/
def VorbFits (alloc : VorbAlloc) (nogrow : Bool) (P : ℕ → Prop) :
    ℕ → ℕ → ℕ → List (List UInt8 × List UInt8) → Prop
  | _, _, cap, [] => P cap
  | cnt, len, cap, c :: cs =>
    ∀ cap', vorbCap alloc nogrow len cap (vorbRoom cnt c.1 c.2) = some cap' →
      len + vorbNeed cnt c ≤ cap' ∧
        VorbFits alloc nogrow P ((cnt + 1) % 2 ^ 32) (len + vorbSize cnt c) cap' cs

section Writing

variable {alloc : VorbAlloc} {v v' : FfvorbtagCook} {mem mem' : List UInt8}

/-- What a reservation leaves: the bytes that are there, unless there are none to preserve. -/
theorem vorbReserve_spec (alloc : VorbAlloc) (v : FfvorbtagCook) (n : ℕ) :
    (vorbReserve alloc v n).map List.length = vorbCap alloc v.nogrow v.len v.mem.length n ∧
      ∀ mem, vorbReserve alloc v n = some mem → v.len ≠ 0 → ∃ post, mem = v.mem ++ post := by
  rw [vorbReserve, vorbCap]
  cases v.nogrow with
  | true =>
    rw [if_pos rfl, if_pos rfl]
    split
    · exact ⟨rfl, by rintro mem ⟨⟩⟩
    · refine ⟨rfl, ?_⟩
      rintro mem ⟨⟩ _
      exact ⟨[], (append_nil _).symm⟩
  | false =>
    rw [if_neg (by decide), if_neg (by decide), vorbGrow]
    by_cases hcap : v.mem.length ≥ v.len + n
    · rw [if_pos hcap, if_pos hcap]
      refine ⟨rfl, ?_⟩
      rintro mem ⟨⟩ _
      exact ⟨[], (append_nil _).symm⟩
    rw [if_neg hcap, if_neg hcap, VorbAlloc.realloc]
    split
    · constructor
      · rw [Option.map_some, length_append, length_map, length_range]
        split
        · rw [length_nil, Nat.zero_add, Nat.sub_zero]
        · rw [Nat.add_sub_cancel' (by omega)]
      · rintro mem ⟨⟩ hne
        rw [if_neg hne]
        exact ⟨_, rfl⟩
    · exact ⟨rfl, by rintro mem ⟨⟩⟩

theorem memWrite_append (mem : List UInt8) (off : ℕ) (x y : List UInt8) :
    (memWrite mem off x >>= fun mem => memWrite mem (off + x.length) y) =
      memWrite mem off (x ++ y) := by
  by_cases hx : off + x.length ≤ mem.length
  · have hlen := length_setBytes hx
    have hwrite : memWrite mem off x = .ok (setBytes mem off x) := if_pos hx
    rw [hwrite]
    change memWrite (setBytes mem off x) (off + x.length) y = _
    rw [memWrite, memWrite, hlen, length_append, ← Nat.add_assoc, setBytes_setBytes x y (by omega)]
  · have hwrite : memWrite mem off x = .error .overwrite := if_neg hx
    rw [hwrite, memWrite, if_neg (by rw [length_append]; omega)]
    rfl

theorem vorbAddVendor_eq (v : FfvorbtagCook) (mem val : List UInt8) :
    vorbAddVendor v mem val =
      (memWrite mem v.len (leBytes 4 val.length ++ val) >>= fun mem => .ok (some { v with
        mem := mem
        vendorOff := v.len % 2 ^ 32
        len := v.len + 4 + val.length + 4
        cnt := (v.cnt + 1) % 2 ^ 32 })) := by
  have happ := memWrite_append mem v.len (leBytes 4 val.length) val
  rw [length_leBytes] at happ
  rw [← happ, vorbAddVendor, bind_assoc]

theorem vorbAddText_eq (v : FfvorbtagCook) (mem up val : List UInt8) :
    vorbAddText v mem up val =
      (memWrite mem (v.len + 4) (up ++ 0x3d :: val) >>= fun mem => .ok (some { v with
        mem := mem
        len := v.len + 4 + up.length + 1 + val.length
        cnt := (v.cnt + 1) % 2 ^ 32 })) := by
  have hsep := memWrite_append mem (v.len + 4) up [0x3d]
  have hval := memWrite_append mem (v.len + 4) (up ++ [0x3d]) val
  rw [append_assoc, singleton_append, length_append, length_singleton,
    ← Nat.add_assoc, ← hsep] at hval
  rw [← hval, vorbAddText]
  simp only [bind_assoc]

theorem vorbAddCmt_fit {c : List UInt8 × List UInt8}
    (h : v.len + 4 + (c.1.length + 1 + c.2.length) ≤ mem.length) :
    vorbAddCmt v mem c.1 c.2 = .ok (some { v with
      mem := setBytes mem v.len (vorbCmtBytes c)
      len := v.len + 4 + (c.1.length + 1 + c.2.length)
      cnt := (v.cnt + 1) % 2 ^ 32 }) := by
  have hfirst : v.len + (leBytes 4 (c.1.length + 1 + c.2.length)).length ≤ mem.length := by
    rw [length_leBytes]
    omega
  have hwrite : memWrite mem v.len (leBytes 4 (c.1.length + 1 + c.2.length)) =
      .ok (setBytes mem v.len (leBytes 4 (c.1.length + 1 + c.2.length))) := if_pos hfirst
  obtain ⟨m, hm⟩ : ∃ m, m = setBytes mem v.len (leBytes 4 (c.1.length + 1 + c.2.length)) :=
    ⟨_, rfl⟩
  have hmlen : m.length = mem.length := by rw [hm, length_setBytes hfirst]
  have hup : (ffsUpper c.1).take (m.length - (v.len + 4)) = ffsUpper c.1 :=
    take_of_length_le (by rw [length_ffsUpper]; omega)
  have htext : memWrite m (v.len + 4) (ffsUpper c.1 ++ 0x3d :: c.2) =
      .ok (setBytes mem v.len (vorbCmtBytes c)) := by
    have hall := setBytes_setBytes (leBytes 4 (c.1.length + 1 + c.2.length))
      (ffsUpper c.1 ++ 0x3d :: c.2) (Nat.le_of_add_right_le hfirst)
    rw [length_leBytes, ← hm] at hall
    rw [memWrite, if_pos, hall, vorbCmtBytes]
    rw [hmlen, length_append, length_ffsUpper, length_cons]
    omega
  have hcmt : vorbAddCmt v mem c.1 c.2 =
      vorbAddText v m ((ffsUpper c.1).take (m.length - (v.len + 4))) c.2 := by
    rw [vorbAddCmt, hwrite, ← hm]
    rfl
  have hlen : v.len + 4 + (ffsUpper c.1).length + 1 + c.2.length =
      v.len + 4 + (c.1.length + 1 + c.2.length) := by
    rw [length_ffsUpper]
    omega
  rw [hcmt, hup, vorbAddText_eq, htext, hlen]
  rfl

theorem vorbAddCmt_unfit {c : List UInt8 × List UInt8}
    (h : ¬v.len + 4 + (c.1.length + 1 + c.2.length) ≤ mem.length) :
    vorbAddCmt v mem c.1 c.2 = .error .overwrite := by
  by_cases hfirst : v.len + (leBytes 4 (c.1.length + 1 + c.2.length)).length ≤ mem.length
  · have hwrite : memWrite mem v.len (leBytes 4 (c.1.length + 1 + c.2.length)) =
        .ok (setBytes mem v.len (leBytes 4 (c.1.length + 1 + c.2.length))) := if_pos hfirst
    obtain ⟨m, hm⟩ : ∃ m, m = setBytes mem v.len (leBytes 4 (c.1.length + 1 + c.2.length)) :=
      ⟨_, rfl⟩
    have hmlen : m.length = mem.length := by rw [hm, length_setBytes hfirst]
    have hcmt : vorbAddCmt v mem c.1 c.2 =
        vorbAddText v m ((ffsUpper c.1).take (m.length - (v.len + 4))) c.2 := by
      rw [vorbAddCmt, hwrite, ← hm]
      rfl
    rw [hcmt, vorbAddText_eq, memWrite, if_neg]
    · rfl
    · rw [length_append, length_take, length_ffsUpper, length_cons, hmlen]
      rw [length_leBytes] at hfirst
      omega
  · have hwrite : memWrite mem v.len (leBytes 4 (c.1.length + 1 + c.2.length)) =
        .error .overwrite := if_neg hfirst
    rw [vorbAddCmt, hwrite]
    rfl

/-- The bytes that are written for an entry. -/
def vorbEntryBytes (cnt : ℕ) (c : List UInt8 × List UInt8) : List UInt8 :=
  if cnt = 0 then leBytes 4 c.2.length ++ c.2 else vorbCmtBytes c

theorem length_vorbEntryBytes (cnt : ℕ) (c : List UInt8 × List UInt8) :
    (vorbEntryBytes cnt c).length = vorbNeed cnt c := by
  rw [vorbEntryBytes, vorbNeed]
  split
  · rw [length_append, length_leBytes]
  · exact length_vorbCmtBytes c

/-- **An entry was added.** -/
structure VorbAdded (v : FfvorbtagCook) (c : List UInt8 × List UInt8) (v' : FfvorbtagCook) :
    Prop where
  len : v'.len = v.len + vorbSize v.cnt c
  cnt : v'.cnt = (v.cnt + 1) % 2 ^ 32
  nogrow : v'.nogrow = v.nogrow
  vendorOff : v'.vendorOff = if v.cnt = 0 then v.len % 2 ^ 32 else v.vendorOff
  fits : v.len + vorbNeed v.cnt c ≤ v'.mem.length
  written : field v'.mem v.len (vorbNeed v.cnt c) = vorbEntryBytes v.cnt c
  keeps : ∀ o l, o + l ≤ v.len → o + l ≤ v.mem.length → field v'.mem o l = field v.mem o l

theorem vorbAdded_mem {bytes : List UInt8} {n : ℕ} (hres : vorbReserve alloc v n = some mem)
    (hfit : v.len + bytes.length ≤ mem.length) :
    field (setBytes mem v.len bytes) v.len bytes.length = bytes ∧
      ∀ o l, o + l ≤ v.len → o + l ≤ v.mem.length →
        field (setBytes mem v.len bytes) o l = field v.mem o l := by
  refine ⟨field_setBytes_self (by omega), ?_⟩
  intro o l hlen hmem
  rw [field_setBytes_of_le hlen (by omega)]
  by_cases hzero : v.len = 0
  · obtain rfl : l = 0 := by omega
    rw [field, field, take_zero, take_zero]
  · obtain ⟨post, rfl⟩ := (vorbReserve_spec alloc v n).2 mem hres hzero
    exact field_append hmem

/-- **One entry** is refused, or added, or written behind the memory. -/
theorem ffvorbtagAdd_spec (v : FfvorbtagCook) (c : List UInt8 × List UInt8) :
    (vorbCap alloc v.nogrow v.len v.mem.length (vorbRoom v.cnt c.1 c.2) = none ∧
        ffvorbtagAdd alloc v c.1 c.2 = .ok none) ∨
      ∃ cap', vorbCap alloc v.nogrow v.len v.mem.length (vorbRoom v.cnt c.1 c.2) = some cap' ∧
        ((v.len + vorbNeed v.cnt c ≤ cap' ∧
            ∃ v', ffvorbtagAdd alloc v c.1 c.2 = .ok (some v') ∧ VorbAdded v c v' ∧
              v'.mem.length = cap') ∨
          (¬v.len + vorbNeed v.cnt c ≤ cap' ∧
            ffvorbtagAdd alloc v c.1 c.2 = .error .overwrite)) := by
  have hcap := (vorbReserve_spec alloc v (vorbRoom v.cnt c.1 c.2)).1
  rw [ffvorbtagAdd]
  cases hres : vorbReserve alloc v (vorbRoom v.cnt c.1 c.2) with
  | none =>
    rw [hres] at hcap
    exact .inl ⟨hcap.symm, rfl⟩
  | some mem =>
    rw [hres, Option.map_some] at hcap
    refine .inr ⟨mem.length, hcap.symm, ?_⟩
    dsimp only
    have hneed := length_vorbEntryBytes v.cnt c
    by_cases hcnt : v.cnt = 0
    · have hbytes : vorbEntryBytes v.cnt c = leBytes 4 c.2.length ++ c.2 := if_pos hcnt
      have hsize : v.len + vorbSize v.cnt c = v.len + 4 + c.2.length + 4 := by
        rw [vorbSize, if_pos hcnt]
        omega
      rw [if_pos hcnt, vorbAddVendor_eq, ← hbytes, memWrite, hneed]
      by_cases hfit : v.len + vorbNeed v.cnt c ≤ mem.length
      · rw [if_pos hfit]
        rw [← hneed] at hfit
        obtain ⟨hself, hkeep⟩ := vorbAdded_mem hres hfit
        have hlen := length_setBytes hfit
        rw [hneed] at hfit hself
        refine .inl ⟨hfit, _, rfl, ?_, hlen⟩
        exact ⟨hsize.symm, rfl, rfl, (if_pos hcnt).symm, by dsimp only; rwa [hlen], hself, hkeep⟩
      · rw [if_neg hfit]
        exact .inr ⟨hfit, rfl⟩
    have hbytes : vorbEntryBytes v.cnt c = vorbCmtBytes c := if_neg hcnt
    have hneed' : vorbNeed v.cnt c = 4 + (c.1.length + 1 + c.2.length) := if_neg hcnt
    rw [if_neg hcnt]
    by_cases hfit : v.len + vorbNeed v.cnt c ≤ mem.length
    · have hcmt := vorbAddCmt_fit (v := v) (by rw [hneed'] at hfit; omega :
        v.len + 4 + (c.1.length + 1 + c.2.length) ≤ mem.length)
      have hsize : v.len + vorbSize v.cnt c = v.len + 4 + (c.1.length + 1 + c.2.length) := by
        rw [vorbSize, if_neg hcnt]
        omega
      rw [← hneed] at hfit
      obtain ⟨hself, hkeep⟩ := vorbAdded_mem hres hfit
      have hlen := length_setBytes hfit
      rw [hneed] at hfit hself
      rw [hbytes] at hself hkeep hlen
      refine .inl ⟨hfit, _, hcmt, ?_, hlen⟩
      exact ⟨hsize.symm, rfl, rfl, (if_neg hcnt).symm, by dsimp only; rwa [hlen],
        by rw [hbytes]; exact hself, hkeep⟩
    · refine .inr ⟨hfit, vorbAddCmt_unfit ?_⟩
      rw [hneed'] at hfit
      omega

/-- **All entries** are added, unless one is refused or does not fit. -/
theorem vorbAdds_fits (alloc : VorbAlloc) (P : ℕ → Prop) (v : FfvorbtagCook) (cs : List (List UInt8 × List UInt8)) :
    match vorbAdds alloc v cs with
    | .error _ => ¬VorbFits alloc v.nogrow P v.cnt v.len v.mem.length cs
    | .ok none => VorbFits alloc v.nogrow P v.cnt v.len v.mem.length cs
    | .ok (some v') => VorbFits alloc v.nogrow P v.cnt v.len v.mem.length cs ↔ P v'.mem.length := by
  induction cs generalizing v with
  | nil => exact Iff.rfl
  | cons c cs ih =>
    rcases ffvorbtagAdd_spec v c with ⟨hcap, hadd⟩ |
      ⟨cap', hcap, ⟨hfit, v', hadd, hv', hlen⟩ | ⟨hunfit, hadd⟩⟩
    · have hrun : vorbAdds alloc v (c :: cs) = .ok none := by
        rw [vorbAdds, hadd]
        rfl
      rw [hrun]
      intro cap' hcap'
      rw [hcap] at hcap'
      cases hcap'
    · have hrun : vorbAdds alloc v (c :: cs) = vorbAdds alloc v' cs := by
        rw [vorbAdds, hadd]
        rfl
      have hstep : VorbFits alloc v.nogrow P v.cnt v.len v.mem.length (c :: cs) ↔
          VorbFits alloc v'.nogrow P v'.cnt v'.len v'.mem.length cs := by
        rw [VorbFits, hv'.nogrow, hv'.cnt, hv'.len, hlen]
        constructor
        · intro h
          exact (h cap' hcap).2
        · intro h cap'' hcap''
          rw [hcap] at hcap''
          cases hcap''
          exact ⟨hfit, h⟩
      rw [hrun, hstep]
      exact ih v'
    have hrun : vorbAdds alloc v (c :: cs) = .error .overwrite := by
      rw [vorbAdds, hadd]
      rfl
    rw [hrun]
    intro hfits
    exact hunfit (hfits cap' hcap).1

/-- **Comments were added** behind `k` entries. -/
structure VorbTail (v : FfvorbtagCook) (k : ℕ) (cs : List (List UInt8 × List UInt8))
    (v' : FfvorbtagCook) : Prop where
  len : v'.len = v.len + (cs.map vorbCmtBytes).flatten.length
  cnt : v'.cnt = (k + cs.length) % 2 ^ 32
  vendorOff : v'.vendorOff = v.vendorOff
  within : cs ≠ [] → v'.len ≤ v'.mem.length
  written : field v'.mem v.len (cs.map vorbCmtBytes).flatten.length = (cs.map vorbCmtBytes).flatten
  keeps : ∀ o l, o + l ≤ v.len → o + l ≤ v.mem.length → field v'.mem o l = field v.mem o l

theorem vorbAdds_cmts {cs : List (List UInt8 × List UInt8)} {k : ℕ} (hk : 1 ≤ k)
    (hlen : k + cs.length ≤ 2 ^ 32) (hcnt : v.cnt = k % 2 ^ 32)
    (h : vorbAdds alloc v cs = .ok (some v')) : VorbTail v k cs v' := by
  induction cs generalizing v k with
  | nil =>
    cases h
    refine ⟨rfl, hcnt, rfl, fun hne => absurd rfl hne, ?_, fun _ _ _ _ => rfl⟩
    rw [field]
    exact take_zero
  | cons c cs ih =>
    rw [length_cons] at hlen
    have hne : v.cnt ≠ 0 := by omega
    rcases ffvorbtagAdd_spec v c with ⟨-, hadd⟩ |
      ⟨cap', hcap, ⟨hfit, v₁, hadd, hv₁, -⟩ | ⟨-, hadd⟩⟩
    · rw [vorbAdds, hadd] at h
      cases h
    · have hrun : vorbAdds alloc v (c :: cs) = vorbAdds alloc v₁ cs := by
        rw [vorbAdds, hadd]
        rfl
      rw [hrun] at h
      have hcnt₁ : v₁.cnt = (k + 1) % 2 ^ 32 := by
        rw [hv₁.cnt, hcnt, Nat.mod_add_mod]
      have ht := ih (Nat.le_add_left 1 k) (by omega) hcnt₁ h
      have hneed : vorbNeed v.cnt c = (vorbCmtBytes c).length := by
        rw [vorbNeed, if_neg hne, length_vorbCmtBytes]
      have hsize : v₁.len = v.len + (vorbCmtBytes c).length := by
        rw [hv₁.len, vorbSize, if_neg hne, length_vorbCmtBytes]
      have hfits := hv₁.fits
      have hwritten := hv₁.written
      rw [hneed] at hfits hwritten
      rw [vorbEntryBytes, if_neg hne] at hwritten
      refine ⟨?_, ?_, ?_, ?_, ?_, ?_⟩
      · rw [ht.len, hsize, map_cons, flatten_cons, length_append, Nat.add_assoc]
      · rw [ht.cnt, length_cons, Nat.add_assoc, Nat.add_comm 1]
      · rw [ht.vendorOff, hv₁.vendorOff, if_neg hne]
      · intro _
        cases cs with
        | nil =>
          cases h
          rwa [hsize]
        | cons c' cs => exact ht.within (cons_ne_nil _ _)
      · rw [map_cons, flatten_cons, length_append, field_add,
          ht.keeps _ _ (by rw [hsize]) hfits, hwritten, ← hsize, ht.written]
      · intro o l hol hmem
        rw [ht.keeps o l (by omega) (by omega), hv₁.keeps o l hol hmem]
    · rw [vorbAdds, hadd] at h
      cases h

/-- **The entries of a block** are written; there is room for the number of comments. -/
structure VorbHeld (off : ℕ) (vendor : List UInt8) (cs : List (List UInt8 × List UInt8))
    (v : FfvorbtagCook) : Prop where
  vendorOff : v.vendorOff = off
  cnt : v.cnt = (1 + cs.length) % 2 ^ 32
  len : v.len = off + 8 + vendor.length + (cs.map vorbCmtBytes).flatten.length
  room : off + 4 + vendor.length ≤ v.mem.length
  within : cs ≠ [] → v.len ≤ v.mem.length
  first : field v.mem off (4 + vendor.length) = leBytes 4 vendor.length ++ vendor
  cmts : field v.mem (off + 8 + vendor.length) (cs.map vorbCmtBytes).flatten.length =
    (cs.map vorbCmtBytes).flatten

theorem vorbAdds_held {vendor : List UInt8} {cs : List (List UInt8 × List UInt8)}
    (hcnt : v.cnt = 0) (hoff : v.len < 2 ^ 32) (hcs : cs.length < 2 ^ 32)
    (h : vorbAdds alloc v (([], vendor) :: cs) = .ok (some v')) :
    VorbHeld v.len vendor cs v' := by
  rcases ffvorbtagAdd_spec v ([], vendor) with ⟨-, hadd⟩ |
    ⟨cap', hcap, ⟨hfit, v₁, hadd, hv₁, -⟩ | ⟨-, hadd⟩⟩
  · rw [vorbAdds, hadd] at h
    cases h
  · have hrun : vorbAdds alloc v (([], vendor) :: cs) = vorbAdds alloc v₁ cs := by
      rw [vorbAdds, hadd]
      rfl
    rw [hrun] at h
    have hcnt₁ : v₁.cnt = 1 % 2 ^ 32 := by rw [hv₁.cnt, hcnt]
    have ht := vorbAdds_cmts (Nat.le_refl 1) (by omega) hcnt₁ h
    have hneed : vorbNeed v.cnt ([], vendor) = 4 + vendor.length := if_pos hcnt
    have hsize : v₁.len = v.len + 8 + vendor.length := by
      rw [hv₁.len, vorbSize, if_pos hcnt]
      dsimp only
      omega
    have hfits := hv₁.fits
    have hwritten := hv₁.written
    rw [hneed, ← Nat.add_assoc] at hfits
    rw [hneed, vorbEntryBytes, if_pos hcnt] at hwritten
    have hlen := ht.len
    have hcmts := ht.written
    rw [hsize] at hlen hcmts
    refine ⟨?_, ht.cnt, hlen, ?_, ht.within, ?_, hcmts⟩
    · rw [ht.vendorOff, hv₁.vendorOff, if_pos hcnt, Nat.mod_eq_of_lt hoff]
    · cases cs with
      | nil =>
        cases h
        exact hfits
      | cons c cs =>
        have hwithin := ht.within (cons_ne_nil _ _)
        omega
    · rw [ht.keeps _ _ (by omega) (by omega), hwritten]
  · rw [vorbAdds, hadd] at h
    cases h

/-- **The number of comments** is written behind the vendor. -/
theorem ffvorbtagFin_held {off : ℕ} {vendor : List UInt8} {cs : List (List UInt8 × List UInt8)}
    (h : VorbHeld off vendor cs v) (hvendor : vendor.length < 2 ^ 32) (hcs : cs.length < 2 ^ 32) :
    ffvorbtagFin v = memWrite v.mem (off + 4 + vendor.length) (leBytes 4 cs.length) := by
  have hroom := h.room
  have hread : readBytes v.mem v.vendorOff 4 = .ok (leBytes 4 vendor.length) := by
    have hv := h.first
    rw [field_add] at hv
    have hfirst : field v.mem off 4 = leBytes 4 vendor.length :=
      append_inj_left hv (by rw [length_field (by omega), length_leBytes])
    rw [h.vendorOff, readBytes_eq (by omega), ← hfirst]
    rfl
  have hcnt : (v.cnt + 2 ^ 32 - 1) % 2 ^ 32 = cs.length := by
    rw [h.cnt]
    omega
  have hlen : leNat (leBytes 4 vendor.length) = vendor.length := leNat_leBytes hvendor
  rw [ffvorbtagFin, hread, h.vendorOff, hcnt]
  change memWrite v.mem (off + 4 + leNat (leBytes 4 vendor.length)) (leBytes 4 cs.length) = _
  rw [hlen]

/-- **The block** that is written -/
theorem vorbBlock_held {off : ℕ} {vendor : List UInt8} {cs : List (List UInt8 × List UInt8)}
    (h : VorbHeld off vendor cs v) (hcap : off + 8 + vendor.length ≤ v.mem.length) :
    ((setBytes v.mem (off + 4 + vendor.length) (leBytes 4 cs.length)).take v.len).drop off =
      vorbBlock vendor cs := by
  obtain ⟨n, hn⟩ : ∃ n, n = (cs.map vorbCmtBytes).flatten.length := ⟨_, rfl⟩
  have hlen := h.len
  have hcmts := h.cmts
  rw [← hn] at hlen hcmts
  obtain ⟨m, hm⟩ : ∃ m, m = setBytes v.mem (off + 4 + vendor.length) (leBytes 4 cs.length) :=
    ⟨_, rfl⟩
  have hvendor : field m off (4 + vendor.length) = leBytes 4 vendor.length ++ vendor := by
    rw [hm, field_setBytes_of_le (by omega) (by omega), h.first]
  have hcount : field m (off + 4 + vendor.length) 4 = leBytes 4 cs.length := by
    have hself : field (setBytes v.mem (off + 4 + vendor.length) (leBytes 4 cs.length))
        (off + 4 + vendor.length) (leBytes 4 cs.length).length = leBytes 4 cs.length :=
      field_setBytes_self (by omega)
    rwa [length_leBytes, ← hm] at hself
  have hback : field m (off + 8 + vendor.length) n = (cs.map vorbCmtBytes).flatten := by
    rw [hm, field_setBytes_of_ge (by rw [length_leBytes]; omega) (by omega), hcmts]
  have hsum : v.len - off = 4 + vendor.length + (4 + n) := by omega
  have hplace : off + (4 + vendor.length) = off + 4 + vendor.length := by omega
  have hplace' : off + 4 + vendor.length + 4 = off + 8 + vendor.length := by omega
  rw [← hm, drop_take, ← field, hsum, field_add m off, hplace, field_add m _ 4 n, hplace',
    hvendor, hcount, hback, vorbBlock]
  simp only [append_assoc]

/-! ### When the block is good -/

/-- A new writer; there may be a header in front of the block. -/
structure FfvorbtagCook.Fresh (v : FfvorbtagCook) : Prop where
  cnt : v.cnt = 0
  len : v.len ≤ v.mem.length
  lt : v.len < 2 ^ 32

/-- **The vendor and the comments fit**: they are written within the capacity; and at the end there
is room for their number, lengths and numbers have 32 bits, and no name is the last one of the
table. -/
def VorbCond (alloc : VorbAlloc) (v : FfvorbtagCook) (vendor : List UInt8)
    (cs : List (List UInt8 × List UInt8)) : Prop :=
  VorbFits alloc v.nogrow
    (fun cap => v.len + 8 + vendor.length ≤ cap ∧ vendor.length < 2 ^ 32 ∧ cs.length < 2 ^ 32 ∧
      ∀ c ∈ cs, VorbOk c)
    0 v.len v.mem.length (([], vendor) :: cs)

/-- **What `vorbGood_iff` needs of the end**: the number of comments is written and the block is
read back. -/
theorem vorbFin_iff {off : ℕ} {vendor : List UInt8} {cs : List (List UInt8 × List UInt8)}
    (hnames : ∀ c ∈ cs, 0x3d ∉ c.1) (h : VorbHeld off vendor cs v)
    (hvendor : vendor.length < 2 ^ 32) (hcs : cs.length < 2 ^ 32) :
    (∃ m l, ffvorbtagFin v = .ok m ∧
      vorbtagRun ((m.take v.len).drop off) (((m.take v.len).drop off).length + 2) .init =
        .ok (l, .done) ∧
      l.map (Ffvorbtag.entry ((m.take v.len).drop off)) = vorbEntries vendor cs) ↔
      off + 8 + vendor.length ≤ v.mem.length ∧ ∀ c ∈ cs, VorbOk c := by
  rw [ffvorbtagFin_held h hvendor hcs, memWrite, length_leBytes]
  by_cases hcap : off + 8 + vendor.length ≤ v.mem.length
  · have hblock := vorbBlock_held h hcap
    rw [if_pos (by omega), ← vorbtagRun_block hnames hvendor hcs hblock]
    constructor
    · rintro ⟨m, l, hm, hrun⟩
      cases hm
      exact ⟨hcap, l, hrun⟩
    · rintro ⟨-, l, hrun⟩
      exact ⟨_, l, rfl, hrun⟩
  rw [if_neg (by omega)]
  constructor
  · rintro ⟨m, l, hm, -⟩
    cases hm
  · rintro ⟨hcap', -⟩
    exact absurd hcap' hcap

/-- **When a block is written within the memory and read back** -/
theorem vorbGood_iff {vendor : List UInt8} {cs : List (List UInt8 × List UInt8)} (hv : v.Fresh)
    (hnames : ∀ c ∈ cs, 0x3d ∉ c.1) :
    VorbGood alloc v vendor cs ↔ VorbCond alloc v vendor cs := by
  have hfits := vorbAdds_fits alloc
    (fun cap => v.len + 8 + vendor.length ≤ cap ∧ vendor.length < 2 ^ 32 ∧ cs.length < 2 ^ 32 ∧
      ∀ c ∈ cs, VorbOk c) v (([], vendor) :: cs)
  rw [hv.cnt] at hfits
  rw [VorbGood, VorbCond]
  cases hadds : vorbAdds alloc v (([], vendor) :: cs) with
  | error e =>
    rw [hadds] at hfits
    have hw : vorbWrite alloc v vendor cs = .error e := by
      rw [vorbWrite, hadds]
      rfl
    rw [hw]
    constructor
    · rintro (h | ⟨_, _, h, -⟩) <;> cases h
    · intro h
      exact absurd h hfits
  | ok r =>
    rw [hadds] at hfits
    cases r with
    | none =>
      have hw : vorbWrite alloc v vendor cs = .ok none := by
        rw [vorbWrite, hadds]
        rfl
      exact ⟨fun _ => hfits, fun _ => .inl hw⟩
    | some v' =>
      have hw : vorbWrite alloc v vendor cs =
          ffvorbtagFin v' >>= fun m => .ok (some (m.take v'.len)) := by
        rw [vorbWrite, hadds]
        rfl
      dsimp only at hfits
      rw [hfits, hw]
      constructor
      · rintro (h | ⟨out, l, hout, hrun, hmap⟩)
        · obtain ⟨m, -, h⟩ := bind_eq_ok.mp h
          cases h
        obtain ⟨hvendor, hcs⟩ := vorbtagRun_lt hrun hmap
        have hheld := vorbAdds_held hv.cnt hv.lt hcs hadds
        obtain ⟨m, hm, h⟩ := bind_eq_ok.mp hout
        cases h
        obtain ⟨hcap, hok⟩ := (vorbFin_iff hnames hheld hvendor hcs).mp ⟨m, l, hm, hrun, hmap⟩
        exact ⟨hcap, hvendor, hcs, hok⟩
      rintro ⟨hcap, hvendor, hcs, hok⟩
      have hheld := vorbAdds_held hv.cnt hv.lt hcs hadds
      obtain ⟨m, l, hm, hrun⟩ := (vorbFin_iff hnames hheld hvendor hcs).mpr ⟨hcap, hok⟩
      refine .inr ⟨m.take v'.len, l, ?_, hrun⟩
      rw [hm]
      rfl

end Writing

/-- **A block is written and read back** exactly if the vendor and the comments fit; and whatever
the data are, what is read lies within. -/
theorem vorbtag_iff {alloc : VorbAlloc} {v : FfvorbtagCook} {vendor : List UInt8}
    {cs : List (List UInt8 × List UInt8)} (hv : v.Fresh) (hnames : ∀ c ∈ cs, 0x3d ∉ c.1)
    (data : List UInt8) :
    (VorbGood alloc v vendor cs ↔ VorbCond alloc v vendor cs) ∧
    ∃ l r, vorbtagRun data (data.length + 2) .init = .ok (l, r) ∧ ∀ u ∈ l, u.In data := by
  constructor
  · exact vorbGood_iff hv hnames
  · exact vorbtagRun_spec data _ _ (by omega)

/-- A vendor and an album in memory of 64 bytes. -/
theorem vorbtag_iff_example :
    (VorbGood ⟨fun _ => true, fun _ => 0⟩ ⟨List.replicate 64 0, 0, 0, 0, true⟩ (ascii "ff")
        [(ascii "album", ascii "A")] ↔
      VorbCond ⟨fun _ => true, fun _ => 0⟩ ⟨List.replicate 64 0, 0, 0, 0, true⟩ (ascii "ff")
        [(ascii "album", ascii "A")]) ∧
    ∃ l r, vorbtagRun [2, 0] 4 .init = .ok (l, r) ∧ ∀ u ∈ l, u.In [2, 0] :=
  vorbtag_iff ⟨rfl, Nat.zero_le _, by decide⟩ (by decide) [2, 0]

/-- **The number of comments is written behind the memory**: a vendor of two bytes in an array
without memory, and no comments. And the kind of a name is not found. -/
theorem vorbtag_overwrite :
    vorbWrite ⟨fun _ => true, fun _ => 0⟩ ⟨[], 0, 0, 0, false⟩ (ascii "ff") [] =
      .error .overwrite ∧
    ¬VorbGood ⟨fun _ => true, fun _ => 0⟩ ⟨[], 0, 0, 0, false⟩ (ascii "ff") [] ∧
    vorbKind (ascii "TRACKTOTAL") = .ukn := by
  have hw : vorbWrite ⟨fun _ => true, fun _ => 0⟩ ⟨[], 0, 0, 0, false⟩ (ascii "ff") [] =
      .error .overwrite := by
    decide
  refine ⟨hw, ?_, by decide⟩
  rw [VorbGood, hw]
  rintro (h | ⟨_, _, h, -⟩) <;> cases h

end FF
