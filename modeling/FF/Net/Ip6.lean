import FF.Lib.Separated
import FF.Toint

/-!
# IPv6 addresses

`ffip6_parse` reads an address: groups of hexadecimal digits with `:` between them, and `::` for
groups that are 0.
-/

namespace FF

namespace Net

open List Option

/-! ### The functions -/

/-- What `ffip6_parse_wildcard` returns, the bytes of the address that are written, and `subnet`
where it is written. -/
structure Ip6Parsed where
  ret : ℤ
  a : List UInt8
  subnet : Option ℕ
  deriving DecidableEq, Repr

/-- The two bytes of a group. -/
def ip6Chunk (chunk : ℕ) : List UInt8 := [UInt8.ofNat (chunk >>> 8), UInt8.ofNat (chunk &&& 0xff)]

/-- The zeros for `::` where `s` is behind it: there is a group for each `:` in `s`, and one more
where `s` is not empty. `none` where more than 16 bytes would be needed: `dst` is behind `zr`
already, and the loop writes on. -/
def ip6Zeros (s a : List UInt8) : Option (List UInt8) :=
  let zr : ℤ := 16 - (if s ≠ [] then 2 else 0) - 2 * s.count 0x3a
  if zr < a.length then none else some (a ++ List.replicate (zr.toNat - a.length) 0)

/-- The loop of `ffip6_parse_wildcard`, where it is not a `:` at the beginning that is read: `a` are
the bytes that have been written, `chunk` is the number of `ndigs` digits, and `zr` is set behind
`::`. -/
@[grind =] def ip6Loop : List UInt8 → List UInt8 → ℕ → ℕ → Bool → Option Ip6Parsed
  | [], a, chunk, ndigs, _ =>
    let a := if ndigs ≠ 0 then a ++ ip6Chunk chunk else a
    some (if a.length ≠ 16 then ⟨-1, a, none⟩ else ⟨0, a, some 128⟩)
  | b :: s, a, chunk, ndigs, zr =>
    if a.length = 16 then some ⟨-1, a, none⟩
    else if b = 0x3a then
      if ndigs = 0 then
        if zr then some ⟨-1, a, none⟩
        else (ip6Zeros s a).bind fun a => ip6Loop s a chunk 0 true
      else ip6Loop s (a ++ ip6Chunk chunk) 0 0 zr
    else if ndigs = 0 ∧ b = 0x2a ∧ s = [] then
      some ⟨0, a ++ List.replicate (16 - a.length) 0, some (a.length * 8)⟩
    else if ndigs = 4 then some ⟨-1, a, none⟩
    else
      match ffcharTohex b with
      | none => some ⟨-1, a, none⟩
      | some hx => ip6Loop s a (chunk <<< 4 ||| hx) (ndigs + 1) zr

/-- `ffip6_parse_wildcard`: a `:` at the beginning is the first of two. `none` where it writes
behind the 16 bytes of the address. -/
def ffip6ParseWildcard (s : List UInt8) : Option Ip6Parsed :=
  match s with
  | [] => ip6Loop [] [] 0 0 false
  | b :: t =>
    if b = 0x3a then
      if t.head? = some 0x3a then ip6Loop t [] 0 0 false else some ⟨-1, [], none⟩
    else ip6Loop (b :: t) [] 0 0 false

/-- `ffip6_parse`: what is returned, and the bytes of the address that are written. -/
def ffip6Parse (s : List UInt8) : Option (ℤ × List UInt8) :=
  (ffip6ParseWildcard s).map fun r => if r.subnet ≠ some 128 then (-1, r.a) else (r.ret, r.a)

/-! ### The text of an address -/

/-- The fields with `:` between them. -/
def ip6Text (fs : List (List UInt8)) : List UInt8 := [0x3a].intercalate fs

/-- A group has one to four digits. -/
structure IsGroup (digit : UInt8 → Option ℕ) (g : List UInt8) : Prop where
  ne_nil : g ≠ []
  length_le : g.length ≤ 4
  digits : ∀ c ∈ g, (digit c).isSome = true

/-- The bytes of groups. -/
def groupBytes (digit : UInt8 → Option ℕ) (gs : List (List UInt8)) : List UInt8 :=
  gs.flatMap fun g => ip6Chunk (numVal digit 16 0 g)

/-- **The text of an address**: eight groups, or at most seven of them with one `::`, which stands
for the others. -/
inductive Ip6Form (digit : UInt8 → Option ℕ) : List UInt8 → List UInt8 → Prop
  | full {gs : List (List UInt8)} (hgs : ∀ g ∈ gs, IsGroup digit g) (hlen : gs.length = 8) :
      Ip6Form digit (ip6Text gs) (groupBytes digit gs)
  | zeros {pre post : List (List UInt8)} (hpre : ∀ g ∈ pre, IsGroup digit g)
      (hpost : ∀ g ∈ post, IsGroup digit g) (hlen : pre.length + post.length ≤ 7) :
      Ip6Form digit (ip6Text pre ++ 0x3a :: 0x3a :: ip6Text post)
        (groupBytes digit pre ++ List.replicate (16 - 2 * (pre.length + post.length)) 0 ++
          groupBytes digit post)

/-! ### Groups -/

@[simp] theorem length_ip6Chunk (n : ℕ) : (ip6Chunk n).length = 2 := rfl

@[simp] theorem groupBytes_nil (digit : UInt8 → Option ℕ) : groupBytes digit [] = [] := rfl

theorem groupBytes_cons (digit : UInt8 → Option ℕ) (g : List UInt8) (gs : List (List UInt8)) :
    groupBytes digit (g :: gs) = ip6Chunk (numVal digit 16 0 g) ++ groupBytes digit gs := rfl

@[simp] theorem length_groupBytes (digit : UInt8 → Option ℕ) (gs : List (List UInt8)) :
    (groupBytes digit gs).length = 2 * gs.length := by
  induction gs with
  | nil => rfl
  | cons g gs ih =>
    rw [groupBytes_cons, length_append, ih, length_ip6Chunk, length_cons]
    omega

theorem tohex_colon : ffcharTohex 0x3a = none := rfl

theorem tohex_star : ffcharTohex 0x2a = none := rfl

/-- A digit is no `:` and no `*`. -/
theorem ne_of_tohex {c : UInt8} (h : (ffcharTohex c).isSome = true) : c ≠ 0x3a ∧ c ≠ 0x2a := by
  constructor
  · rintro rfl
    cases h
  · rintro rfl
    cases h

theorem IsGroup.not_mem {g : List UInt8} (h : IsGroup ffcharTohex g) : 0x3a ∉ g :=
  fun hmem => (ne_of_tohex (h.digits _ hmem)).1 rfl

section Loop

variable {g s a : List UInt8} {chunk ndigs : ℕ} {zr : Bool} {gs fs pre post : List (List UInt8)}

theorem ip6Loop_digits (s : List UInt8) (chunk : ℕ) (zr : Bool) (ha : a.length ≠ 16)
    (hg : ∀ c ∈ g, (ffcharTohex c).isSome = true) (hlen : ndigs + g.length ≤ 4) :
    ip6Loop (g ++ s) a chunk ndigs zr =
      ip6Loop s a (numVal ffcharTohex 16 chunk g) (ndigs + g.length) zr := by
  induction g generalizing chunk ndigs with
  | nil => rfl
  | cons c g ih =>
    obtain ⟨hc, hg⟩ := forall_mem_cons.mp hg
    obtain ⟨hcolon, hstar⟩ := ne_of_tohex hc
    obtain ⟨hx, hhx⟩ := isSome_iff_exists.mp hc
    rw [length_cons] at hlen
    have hadd : chunk <<< 4 ||| hx = chunk * 16 + hx := by
      rw [← Nat.shiftLeft_add_eq_or_of_lt (ffcharTohex_lt hhx), Nat.shiftLeft_eq]
    rw [cons_append, ip6Loop, if_neg ha, if_neg hcolon, if_neg fun h => hstar h.2.1,
      if_neg (by omega), hhx]
    dsimp only
    rw [ih _ hg (by omega), numVal_cons, hhx, hadd, length_cons]
    congr 1
    omega

theorem IsGroup.four {digit : UInt8 → Option ℕ} (hg : IsGroup digit g) : 0 + g.length ≤ 4 := by
  rw [Nat.zero_add]
  exact hg.length_le

theorem IsGroup.pos {digit : UInt8 → Option ℕ} (hg : IsGroup digit g) : 0 + g.length ≠ 0 := by
  rw [Nat.zero_add]
  exact fun h => hg.ne_nil (length_eq_zero_iff.mp h)

theorem ip6Loop_sep (s : List UInt8) (zr : Bool) (ha : a.length ≠ 16)
    (hg : IsGroup ffcharTohex g) :
    ip6Loop (g ++ 0x3a :: s) a 0 0 zr =
      ip6Loop s (a ++ ip6Chunk (numVal ffcharTohex 16 0 g)) 0 0 zr := by
  rw [ip6Loop_digits _ _ _ ha hg.digits hg.four, ip6Loop, if_neg ha, if_pos rfl, if_neg hg.pos]

theorem ip6Loop_last (zr : Bool) (ha : a.length ≠ 16) (hg : IsGroup ffcharTohex g) :
    ip6Loop g a 0 0 zr =
      ip6Loop [] (a ++ ip6Chunk (numVal ffcharTohex 16 0 g)) 0 0 zr := by
  have hdig := ip6Loop_digits [] 0 zr ha hg.digits hg.four
  rw [append_nil] at hdig
  rw [hdig, ip6Loop, ip6Loop, if_pos hg.pos, if_neg (not_not.mpr rfl)]

theorem ip6Loop_bad (s : List UInt8) (zr : Bool) (ha : a.length ≠ 16) (hcolon : 0x3a ∉ g)
    (hndigs : ndigs ≤ 4)
    (hbad : ¬((∀ c ∈ g, (ffcharTohex c).isSome = true) ∧ ndigs + g.length ≤ 4)) :
    ∃ r, ip6Loop (g ++ s) a chunk ndigs zr = some r ∧ r.subnet ≠ some 128 := by
  induction g generalizing chunk ndigs with
  | nil => exact absurd ⟨fun c hc => absurd hc not_mem_nil, hndigs⟩ hbad
  | cons c g ih =>
    have hc : c ≠ 0x3a := fun h => hcolon (h ▸ mem_cons_self)
    rw [cons_append, ip6Loop, if_neg ha, if_neg hc]
    by_cases hstar : ndigs = 0 ∧ c = 0x2a ∧ g ++ s = []
    · rw [if_pos hstar]
      refine ⟨_, rfl, fun h => ha ?_⟩
      have hlen := some.inj h
      omega
    rw [if_neg hstar]
    by_cases hfour : ndigs = 4
    · rw [if_pos hfour]
      exact ⟨_, rfl, nofun⟩
    rw [if_neg hfour]
    cases hx : ffcharTohex c with
    | none => exact ⟨_, rfl, nofun⟩
    | some hx' =>
      refine ih (fun h => hcolon (mem_cons_of_mem c h)) (by omega) fun h => hbad ?_
      refine ⟨forall_mem_cons.mpr ⟨by rw [hx]; rfl, h.1⟩, ?_⟩
      rw [length_cons]
      omega

/-! ### The end of a text -/

/-- The fields behind `::`, or where there is none, and their bytes: a `:` at the end is taken. -/
inductive Ip6Tail : List (List UInt8) → List UInt8 → Prop
  | last {g : List UInt8} (hg : IsGroup ffcharTohex g) :
      Ip6Tail [g] (ip6Chunk (numVal ffcharTohex 16 0 g))
  | colon : Ip6Tail [[]] []
  | cons {g b : List UInt8} {fs : List (List UInt8)} (hg : IsGroup ffcharTohex g)
      (h : Ip6Tail fs b) : Ip6Tail (g :: fs) (ip6Chunk (numVal ffcharTohex 16 0 g) ++ b)

theorem Ip6Tail.ne_nil {b : List UInt8} (h : Ip6Tail fs b) : fs ≠ [] := by
  cases h <;> exact cons_ne_nil _ _

theorem Ip6Tail.of_groups (hne : gs ≠ []) (hgs : ∀ g ∈ gs, IsGroup ffcharTohex g) :
    Ip6Tail gs (groupBytes ffcharTohex gs) := by
  induction gs with
  | nil => exact absurd rfl hne
  | cons g gs ih =>
    obtain ⟨hg, hgs⟩ := forall_mem_cons.mp hgs
    cases gs with
    | nil => exact .last hg
    | cons g' gs => exact .cons hg (ih (cons_ne_nil _ _) hgs)

theorem Ip6Tail.of_colon (hgs : ∀ g ∈ gs, IsGroup ffcharTohex g) :
    Ip6Tail (gs ++ [[]]) (groupBytes ffcharTohex gs) := by
  induction gs with
  | nil => exact .colon
  | cons g gs ih =>
    obtain ⟨hg, hgs⟩ := forall_mem_cons.mp hgs
    exact .cons hg (ih hgs)

theorem Ip6Tail.cases_groups {b : List UInt8} (h : Ip6Tail fs b) :
    ∃ gs, (∀ g ∈ gs, IsGroup ffcharTohex g) ∧ b = groupBytes ffcharTohex gs ∧
      (fs = gs ∨ fs = gs ++ [[]]) := by
  induction h with
  | @last g hg => exact ⟨[g], by simpa using hg, rfl, .inl rfl⟩
  | colon => exact ⟨[], nofun, rfl, .inr rfl⟩
  | @cons g b fs hg _ ih =>
    obtain ⟨gs, hgs, rfl, hfs⟩ := ih
    refine ⟨g :: gs, forall_mem_cons.mpr ⟨hg, hgs⟩, rfl, ?_⟩
    rcases hfs with rfl | rfl
    · exact .inl rfl
    · exact .inr rfl

theorem ip6Text_cons (g : List UInt8) (hfs : fs ≠ []) :
    ip6Text (g :: fs) = g ++ 0x3a :: ip6Text fs := by
  rw [ip6Text, intercalate_cons_of_ne_nil hfs, append_assoc, singleton_append]
  rfl

theorem ip6Text_singleton (g : List UInt8) : ip6Text [g] = g := intercalate_singleton

theorem ip6Loop_tail {b : List UInt8} (zr : Bool) (h : Ip6Tail fs b)
    (hlen : a.length + b.length = 16) :
    ip6Loop (ip6Text fs) a 0 0 zr = some ⟨0, a ++ b, some 128⟩ := by
  induction h generalizing a with
  | @last g hg =>
    rw [length_ip6Chunk] at hlen
    have hok : ¬(a ++ ip6Chunk (numVal ffcharTohex 16 0 g)).length ≠ 16 := by
      rw [length_append, length_ip6Chunk]
      omega
    rw [ip6Text_singleton, ip6Loop_last zr (by omega) hg, ip6Loop, if_neg (not_not.mpr rfl),
      if_neg hok]
  | colon =>
    rw [length_nil, Nat.add_zero] at hlen
    rw [ip6Text_singleton, ip6Loop, if_neg (not_not.mpr rfl), if_neg (not_not.mpr hlen), append_nil]
  | @cons g b fs hg h ih =>
    rw [length_append, length_ip6Chunk] at hlen
    rw [ip6Text_cons g h.ne_nil, ip6Loop_sep _ _ (by omega) hg, ih, append_assoc]
    rw [length_append, length_ip6Chunk]
    omega

theorem ip6Loop_nil (a : List UInt8) (zr : Bool) :
    ip6Loop [] a 0 0 zr =
      some (if a.length ≠ 16 then ⟨-1, a, none⟩ else ⟨0, a, some 128⟩) := by
  rw [ip6Loop, if_neg (not_not.mpr rfl)]

theorem ip6Loop_full (zr : Bool) (ha : a.length = 16) (hs : s ≠ []) :
    ip6Loop s a 0 0 zr = some ⟨-1, a, none⟩ := by
  obtain ⟨b, s, rfl⟩ := exists_cons_of_ne_nil hs
  rw [ip6Loop, if_pos ha]

theorem ip6Loop_colon (s : List UInt8) (ha : a.length ≠ 16) (zr : Bool) :
    ip6Loop (0x3a :: s) a 0 0 zr =
      if zr then some ⟨-1, a, none⟩
      else (ip6Zeros s a).bind fun a => ip6Loop s a 0 0 true := by
  rw [ip6Loop, if_neg ha, if_pos rfl, if_pos rfl]

/-- There is a `::` behind groups, with less than 16 bytes in front of it. -/
def HasZeros (fs : List (List UInt8)) (k : ℕ) : Prop :=
  ∃ pre post, fs = pre ++ [] :: post ∧ post ≠ [] ∧ (∀ g ∈ pre, IsGroup ffcharTohex g) ∧
    k + pre.length < 8

/-- **The loop from a field on**: it comes to a `::`, or what is accepted are groups to the
end. -/
theorem ip6Loop_fields (zr : Bool) {k : ℕ} (hfs : fs ≠ []) (hsep : ∀ f ∈ fs, (0x3a : UInt8) ∉ f)
    (ha : a.length = 2 * k) (hk : k ≤ 8) :
    (zr = false ∧ HasZeros fs k) ∨
      ∃ r, ip6Loop (ip6Text fs) a 0 0 zr = some r ∧
        ∀ c, r = ⟨0, c, some 128⟩ → ∃ b, Ip6Tail fs b ∧ c = a ++ b ∧ c.length = 16 := by
  induction fs generalizing a k with
  | nil => exact absurd rfl hfs
  | cons f fs ih =>
    obtain ⟨hf, hsep⟩ := forall_mem_cons.mp hsep
    by_cases hfull : a.length = 16
    · -- Nothing may follow.
      refine .inr ?_
      by_cases htext : ip6Text (f :: fs) = []
      · rw [htext, ip6Loop_nil, if_neg (not_not.mpr hfull)]
        refine ⟨_, rfl, fun c hc => ?_⟩
        cases hc
        have hnil : f :: fs = [[]] := by
          cases fs with
          | nil => rw [← htext, ip6Text_singleton]
          | cons f' fs =>
            rw [ip6Text_cons f (cons_ne_nil _ _)] at htext
            cases (append_eq_nil_iff.mp htext).2
        rw [hnil]
        exact ⟨[], .colon, (append_nil a).symm, hfull⟩
      · exact ⟨_, ip6Loop_full zr hfull htext, nofun⟩
    by_cases hg : IsGroup ffcharTohex f
    · cases fs with
      | nil =>
        refine .inr ?_
        rw [ip6Text_singleton, ip6Loop_last zr hfull hg, ip6Loop_nil]
        refine ⟨_, rfl, fun c hc => ?_⟩
        split at hc
        · cases hc
        · next hlen =>
            cases hc
            exact ⟨_, .last hg, rfl, not_not.mp hlen⟩
      | cons f' fs =>
        rw [ip6Text_cons f (cons_ne_nil _ _), ip6Loop_sep _ zr hfull hg]
        have hlen : (a ++ ip6Chunk (numVal ffcharTohex 16 0 f)).length = 2 * (k + 1) := by
          rw [length_append, length_ip6Chunk, ha]
          rfl
        rcases ih (cons_ne_nil _ _) hsep hlen (by omega) with
          ⟨hzr, pre, post, hfs, hpost, hpre, hlt⟩ | ⟨r, hr, haccept⟩
        · refine .inl ⟨hzr, f :: pre, post, by rw [hfs]; rfl, hpost,
            forall_mem_cons.mpr ⟨hg, hpre⟩, ?_⟩
          rw [length_cons]
          omega
        · refine .inr ⟨r, hr, fun c hc => ?_⟩
          obtain ⟨b, hb, hcb, hlen⟩ := haccept c hc
          exact ⟨_, .cons hg hb, by rw [hcb, append_assoc], hlen⟩
    by_cases hnil : f = []
    · subst hnil
      cases fs with
      | nil =>
        refine .inr ?_
        rw [ip6Text_singleton, ip6Loop_nil, if_pos hfull]
        exact ⟨_, rfl, nofun⟩
      | cons f' fs =>
        cases zr with
        | false =>
          refine .inl ⟨rfl, [], f' :: fs, rfl, cons_ne_nil _ _, nofun, ?_⟩
          rw [length_nil]
          omega
        | true =>
          refine .inr ?_
          rw [ip6Text_cons [] (cons_ne_nil _ _), nil_append, ip6Loop_colon _ hfull, if_pos rfl]
          exact ⟨_, rfl, nofun⟩
    refine .inr ?_
    obtain ⟨s, hs⟩ : ∃ s, ip6Text (f :: fs) = f ++ s := by
      cases fs with
      | nil => exact ⟨[], by rw [ip6Text_singleton, append_nil]⟩
      | cons f' fs => exact ⟨_, ip6Text_cons f (cons_ne_nil _ _)⟩
    have hbad : ¬((∀ c ∈ f, (ffcharTohex c).isSome = true) ∧ 0 + f.length ≤ 4) :=
      fun h => hg ⟨hnil, by omega, h.1⟩
    obtain ⟨r, hr, hsubnet⟩ :=
      @ip6Loop_bad f a 0 0 s zr hfull hf (Nat.zero_le 4) hbad
    rw [hs]
    refine ⟨r, hr, fun c hc => absurd ?_ hsubnet⟩
    rw [hc]

/-! ### The zeros -/

theorem ip6Zeros_nil (ha : a.length ≤ 16) :
    ip6Zeros [] a = some (a ++ List.replicate (16 - a.length) 0) := by
  have hle : ¬(16 : ℤ) - 0 - 2 * ((0 : ℕ) : ℤ) < a.length := by omega
  unfold ip6Zeros
  rw [if_neg (not_not.mpr rfl), count_nil]
  exact if_neg hle

theorem ip6Zeros_cons (hs : s ≠ []) (a : List UInt8) :
    ip6Zeros s a =
      if 16 < a.length + 2 * (s.count 0x3a + 1) then none
      else some (a ++ List.replicate (16 - 2 * (s.count 0x3a + 1) - a.length) 0) := by
  unfold ip6Zeros
  rw [if_pos hs]
  by_cases hover : 16 < a.length + 2 * (s.count 0x3a + 1)
  · rw [if_pos hover, if_pos (by omega)]
  · rw [if_neg hover, if_neg (by omega)]
    congr 3
    omega

/-- What is behind `::`, up to 16 bytes. -/
theorem ip6Zeros_isSome {a' : List UInt8} (ha : a.length ≤ 16) (h : ip6Zeros s a = some a') :
    ∃ k ≤ 8, a'.length = 2 * k := by
  by_cases hs : s = []
  · rw [hs, ip6Zeros_nil ha] at h
    cases h
    refine ⟨8, le_rfl, ?_⟩
    rw [length_append, length_replicate]
    omega
  rw [ip6Zeros_cons hs] at h
  split at h
  · cases h
  · cases h
    refine ⟨8 - (s.count 0x3a + 1), by omega, ?_⟩
    rw [length_append, length_replicate]
    omega

/-- **What the loop writes is in the address**, where it does not go behind it for `::`. -/
theorem ip6Loop_inside {k : ℕ} {r : Ip6Parsed} (ha : a.length = 2 * k) (hk : k ≤ 8)
    (hndigs : ndigs ≠ 0 → k < 8) (h : ip6Loop s a chunk ndigs zr = some r) : r.a.length ≤ 16 := by
  induction s generalizing a k chunk ndigs zr with
  | nil =>
    rw [ip6Loop] at h
    obtain rfl := some.inj h
    by_cases hn : ndigs ≠ 0
    · have hlt := hndigs hn
      have hlen : (a ++ ip6Chunk chunk).length ≤ 16 := by
        rw [length_append, length_ip6Chunk]
        omega
      rw [if_pos hn]
      split <;> exact hlen
    · have hlen : a.length ≤ 16 := by omega
      rw [if_neg hn]
      split <;> exact hlen
  | cons b s ih =>
    have hlen : a.length ≤ 16 := by omega
    rw [ip6Loop] at h
    split at h
    · cases h
      exact hlen
    next hne =>
      split at h
      · split at h
        · split at h
          · cases h
            exact hlen
          · obtain ⟨a', ha', h⟩ := bind_eq_some_iff.mp h
            obtain ⟨k', hk', hlen'⟩ := ip6Zeros_isSome hlen ha'
            exact ih hlen' hk' nofun h
        · have hlen' : (a ++ ip6Chunk chunk).length = 2 * (k + 1) := by
            rw [length_append, length_ip6Chunk, ha]
            rfl
          exact ih hlen' (by omega) nofun h
      split at h
      · cases h
        rw [length_append, length_replicate]
        omega
      split at h
      · cases h
        exact hlen
      · split at h
        · cases h
          exact hlen
        · exact ih ha hk (fun _ => by omega) h

theorem ffip6Parse_inside {ret : ℤ} (h : ffip6Parse s = some (ret, a)) : a.length ≤ 16 := by
  obtain ⟨r, hr, h⟩ := map_eq_some_iff.mp h
  have hra : r.a = a := by
    split at h <;> exact (Prod.mk.inj h).2
  rw [← hra]
  have hloop : ∀ t, ip6Loop t [] 0 0 false = some r → r.a.length ≤ 16 := fun t ht =>
    @ip6Loop_inside t [] 0 0 false 0 r rfl (Nat.zero_le _) nofun ht
  cases s with
  | nil => exact hloop [] hr
  | cons b t =>
    rw [ffip6ParseWildcard] at hr
    split at hr
    · split at hr
      · exact hloop t hr
      · cases hr
        exact Nat.zero_le _
    · exact hloop _ hr

/-- The loop up to `::`. -/
theorem ip6Loop_zeros {k : ℕ} (hpre : ∀ g ∈ pre, IsGroup ffcharTohex g) (hpost : post ≠ [])
    (ha : a.length = 2 * k) (hk : k + pre.length < 8) :
    ip6Loop (ip6Text (pre ++ [] :: post)) a 0 0 false =
      (ip6Zeros (ip6Text post) (a ++ groupBytes ffcharTohex pre)).bind fun a =>
        ip6Loop (ip6Text post) a 0 0 true := by
  induction pre generalizing a k with
  | nil =>
    rw [length_nil] at hk
    rw [nil_append, ip6Text_cons [] hpost, nil_append, ip6Loop_colon _ (by omega),
      groupBytes_nil, append_nil]
    rfl
  | cons g pre ih =>
    obtain ⟨hg, hpre⟩ := forall_mem_cons.mp hpre
    rw [length_cons] at hk
    have hlen : (a ++ ip6Chunk (numVal ffcharTohex 16 0 g)).length = 2 * (k + 1) := by
      rw [length_append, length_ip6Chunk, ha]
      rfl
    rw [cons_append, ip6Text_cons g (by simp), ip6Loop_sep _ _ (by omega) hg,
      ih hpre hlen (by omega), groupBytes_cons, append_assoc]

/-! ### The beginning of a text -/

theorem ffip6ParseWildcard_text (hg : IsGroup ffcharTohex g) (fs : List (List UInt8)) :
    ffip6ParseWildcard (ip6Text (g :: fs)) = ip6Loop (ip6Text (g :: fs)) [] 0 0 false := by
  obtain ⟨c, t, rfl⟩ := exists_cons_of_ne_nil hg.ne_nil
  have hc := (ne_of_tohex (hg.digits c mem_cons_self)).1
  rw [ip6Text, intercalate_cons_cons_left, ffip6ParseWildcard, if_neg hc]

theorem ip6Text_zeros (pre : List (List UInt8)) (hpost : post ≠ []) (g : List UInt8) :
    ip6Text (g :: pre ++ [] :: post) = ip6Text (g :: pre) ++ 0x3a :: 0x3a :: ip6Text post := by
  rw [ip6Text, intercalate_append (cons_ne_nil _ _) (cons_ne_nil _ _),
    intercalate_cons_of_ne_nil hpost]
  rfl

/-- The groups in front of `::`, and what is behind it. -/
theorem ffip6ParseWildcard_zeros (hpre : ∀ g ∈ pre, IsGroup ffcharTohex g) (hlt : pre.length < 8)
    (rest : List UInt8) :
    ffip6ParseWildcard (ip6Text pre ++ 0x3a :: 0x3a :: rest) =
      (ip6Zeros rest (groupBytes ffcharTohex pre)).bind fun a => ip6Loop rest a 0 0 true := by
  obtain ⟨post, hpost, -, hrest⟩ := exists_fields (0x3a : UInt8) rest
  have htext : rest = ip6Text post := hrest
  have hloop := @ip6Loop_zeros [] pre post 0 hpre hpost rfl (by omega)
  rw [nil_append] at hloop
  rw [htext, ← hloop]
  cases pre with
  | nil =>
    rw [nil_append, ip6Text_cons [] hpost, ip6Text, intercalate_nil]
    rfl
  | cons g pre =>
    rw [← ip6Text_zeros pre hpost g, cons_append, ffip6ParseWildcard_text (hpre g mem_cons_self)]

/-- **The beginning of a text**: it has groups with a `::` behind them, or what is accepted are
groups to the end. -/
theorem ffip6ParseWildcard_start (s : List UInt8) :
    (∃ pre rest, (∀ g ∈ pre, IsGroup ffcharTohex g) ∧ pre.length < 8 ∧
      s = ip6Text pre ++ 0x3a :: 0x3a :: rest) ∨
      ∃ r, ffip6ParseWildcard s = some r ∧
        ∀ c, r = ⟨0, c, some 128⟩ → ∃ fs, s = ip6Text fs ∧ Ip6Tail fs c ∧ c.length = 16 := by
  cases s with
  | nil => exact .inr ⟨_, rfl, nofun⟩
  | cons b t =>
    by_cases hb : b = 0x3a
    · subst hb
      by_cases ht : t.head? = some 0x3a
      · obtain ⟨rest, rfl⟩ : ∃ rest, t = 0x3a :: rest := by
          cases t with
          | nil => cases ht
          | cons x rest => exact ⟨rest, by rw [some.inj ht]⟩
        exact .inl ⟨[], rest, nofun, by decide, rfl⟩
      · refine .inr ⟨⟨-1, [], none⟩, ?_, nofun⟩
        rw [ffip6ParseWildcard, if_pos rfl, if_neg ht]
    obtain ⟨fs, hfs, hsep, hs⟩ := exists_fields (0x3a : UInt8) (b :: t)
    have htext : b :: t = ip6Text fs := hs
    have hwild : ffip6ParseWildcard (b :: t) = ip6Loop (ip6Text fs) [] 0 0 false := by
      rw [ffip6ParseWildcard, if_neg hb, htext]
    rcases @ip6Loop_fields [] fs false 0 hfs hsep rfl (by decide)
      with ⟨-, pre, post, hfs, hpost, hpre, hlt⟩ | ⟨r, hr, haccept⟩
    · left
      cases pre with
      | nil =>
        rw [hfs, nil_append, ip6Text_cons [] hpost] at htext
        exact absurd (List.cons.inj htext).1 hb
      | cons g pre =>
        refine ⟨g :: pre, ip6Text post, hpre, by omega, ?_⟩
        rw [htext, hfs, ip6Text_zeros pre hpost g]
    · refine .inr ⟨r, hwild.trans hr, fun c hc => ?_⟩
      obtain ⟨b', hb', rfl, hlen⟩ := haccept c hc
      exact ⟨fs, htext, hb', hlen⟩

/-! ### What is accepted -/

theorem ip6Text_ne_nil (hg : IsGroup ffcharTohex g) (gs : List (List UInt8)) :
    ip6Text (g :: gs) ≠ [] := by
  obtain ⟨c, t, rfl⟩ := exists_cons_of_ne_nil hg.ne_nil
  rw [ip6Text, intercalate_cons_cons_left]
  exact cons_ne_nil _ _

/-- There is a group for each `:`, and one more. -/
theorem count_ip6Text (hpost : post ≠ []) (hsep : ∀ f ∈ post, (0x3a : UInt8) ∉ f) :
    (ip6Text post).count 0x3a + 1 = post.length := by
  have hlen := length_pos_iff.mpr hpost
  rw [ip6Text, count_intercalate hsep]
  omega

theorem wildcard_zeros_none (hpre : ∀ g ∈ pre, IsGroup ffcharTohex g) (hlt : pre.length < 8)
    (rest : List UInt8) :
    ffip6ParseWildcard (ip6Text pre ++ 0x3a :: 0x3a :: rest) = none ↔
      rest ≠ [] ∧ 8 ≤ pre.length + rest.count 0x3a := by
  have hpos : (groupBytes ffcharTohex pre).length ≤ 16 := by
    rw [length_groupBytes]
    omega
  rw [ffip6ParseWildcard_zeros hpre hlt rest, Option.bind_eq_none_iff]
  constructor
  · intro h
    by_cases hover : rest ≠ [] ∧ 8 ≤ pre.length + rest.count 0x3a
    · exact hover
    -- The zeros fit, and the loop behind them returns.
    obtain ⟨a', ha'⟩ : ∃ a', ip6Zeros rest (groupBytes ffcharTohex pre) = some a' := by
      by_cases hrest : rest = []
      · rw [hrest, ip6Zeros_nil hpos]
        exact ⟨_, rfl⟩
      · rw [ip6Zeros_cons hrest, if_neg]
        · exact ⟨_, rfl⟩
        · rw [length_groupBytes]
          intro hgt
          exact hover ⟨hrest, by omega⟩
    obtain ⟨k, hk, hlen⟩ := ip6Zeros_isSome hpos ha'
    obtain ⟨post, hpost, hsep, hrest⟩ := exists_fields (0x3a : UInt8) rest
    have htext : rest = ip6Text post := hrest
    rcases ip6Loop_fields true hpost hsep hlen hk with ⟨hzr, -⟩ | ⟨r, hr, -⟩
    · cases hzr
    · have hnone := h a' ha'
      rw [htext, hr] at hnone
      cases hnone
  · rintro ⟨hrest, hover⟩ a' ha'
    rw [ip6Zeros_cons hrest, if_pos] at ha'
    · cases ha'
    · rw [length_groupBytes]
      omega

/-- The groups behind `::` are accepted, and no `:` behind these. -/
theorem wildcard_zeros_some (hpre : ∀ g ∈ pre, IsGroup ffcharTohex g) (hlt : pre.length < 8)
    (rest a : List UInt8) :
    ffip6ParseWildcard (ip6Text pre ++ 0x3a :: 0x3a :: rest) = some ⟨0, a, some 128⟩ ↔
      ∃ post, (∀ g ∈ post, IsGroup ffcharTohex g) ∧ rest = ip6Text post ∧
        pre.length + post.length ≤ 8 ∧
        a = groupBytes ffcharTohex pre ++ List.replicate (16 - 2 * (pre.length + post.length)) 0 ++
          groupBytes ffcharTohex post := by
  have hpos : (groupBytes ffcharTohex pre).length ≤ 16 := by
    rw [length_groupBytes]
    omega
  rw [ffip6ParseWildcard_zeros hpre hlt rest, bind_eq_some_iff]
  constructor
  · rintro ⟨a', ha', hloop⟩
    by_cases hrest : rest = []
    · subst hrest
      rw [ip6Zeros_nil hpos] at ha'
      cases ha'
      rw [ip6Loop_nil] at hloop
      split at hloop
      · cases hloop
      · cases hloop
        refine ⟨[], nofun, rfl, hlt.le, ?_⟩
        rw [groupBytes_nil, append_nil, length_groupBytes, length_nil, Nat.add_zero]
    obtain ⟨post, hpost, hsep, hfields⟩ := exists_fields (0x3a : UInt8) rest
    have htext : rest = ip6Text post := hfields
    obtain ⟨k, hk, hlen⟩ := ip6Zeros_isSome hpos ha'
    have hcount := count_ip6Text hpost hsep
    rw [ip6Zeros_cons hrest, htext, hcount, length_groupBytes] at ha'
    split at ha'
    · cases ha'
    next hle =>
      rcases ip6Loop_fields true hpost hsep hlen hk with ⟨hzr, -⟩ | ⟨r, hr, haccept⟩
      · cases hzr
      rw [htext, hr] at hloop
      obtain ⟨b, hb, rfl, hlen16⟩ := haccept a (some.inj hloop)
      obtain ⟨gs, hgs, rfl, hfs⟩ := hb.cases_groups
      cases ha'
      simp only [length_append, length_groupBytes, length_replicate] at hlen16
      rcases hfs with rfl | rfl
      · refine ⟨post, hgs, htext, by omega, ?_⟩
        congr 3
        omega
      · rw [length_append, length_singleton] at hlen16 hle
        omega
  · rintro ⟨post, hpostg, rfl, hle, rfl⟩
    cases post with
    | nil =>
      refine ⟨_, ip6Zeros_nil hpos, ?_⟩
      rw [ip6Text, intercalate_nil, ip6Loop_nil, if_neg]
      · rw [groupBytes_nil, append_nil, length_groupBytes, length_nil, Nat.add_zero]
      · rw [length_append, length_replicate, length_groupBytes]
        omega
    | cons g post =>
      have hcount := count_ip6Text (cons_ne_nil g post) fun f hf => (hpostg f hf).not_mem
      have htail := Ip6Tail.of_groups (cons_ne_nil g post) hpostg
      refine ⟨groupBytes ffcharTohex pre ++
        List.replicate (16 - 2 * (pre.length + (g :: post).length)) 0, ?_, ?_⟩
      · rw [ip6Zeros_cons (ip6Text_ne_nil (hpostg g mem_cons_self) post), hcount, if_neg]
        · rw [length_groupBytes]
          congr 3
          omega
        · rw [length_groupBytes]
          omega
      · refine ip6Loop_tail true htail ?_
        simp only [length_append, length_groupBytes, length_replicate]
        omega

theorem ffip6Parse_some_iff (s a : List UInt8) :
    ffip6Parse s = some (0, a) ↔ ffip6ParseWildcard s = some ⟨0, a, some 128⟩ := by
  unfold ffip6Parse
  constructor
  · intro h
    obtain ⟨⟨ret, a', subnet⟩, hr, h⟩ := map_eq_some_iff.mp h
    rw [hr]
    split at h
    · cases h
    · next hsubnet =>
        obtain rfl : subnet = some 128 := not_not.mp hsubnet
        cases h
        rfl
  · intro h
    rw [h]
    rfl

/-- **It is written behind the address**: groups, a `::` and what is behind it would take more than
16 bytes. -/
def Ip6Overflow (s : List UInt8) : Prop :=
  ∃ pre rest, (∀ g ∈ pre, IsGroup ffcharTohex g) ∧ pre.length < 8 ∧
    s = ip6Text pre ++ 0x3a :: 0x3a :: rest ∧ rest ≠ [] ∧ 8 ≤ pre.length + rest.count 0x3a

/-- There is a `:` behind eight groups. -/
def Ip6Trailing (s a : List UInt8) : Prop :=
  ∃ gs, (∀ g ∈ gs, IsGroup ffcharTohex g) ∧ gs.length = 8 ∧ s = ip6Text gs ++ [0x3a] ∧
    a = groupBytes ffcharTohex gs

/-- There is a `::` between eight groups, or in front of these. -/
def Ip6NoZeros (s a : List UInt8) : Prop :=
  ∃ pre post, (∀ g ∈ pre, IsGroup ffcharTohex g) ∧ (∀ g ∈ post, IsGroup ffcharTohex g) ∧
    post ≠ [] ∧ pre.length + post.length = 8 ∧
    s = ip6Text pre ++ 0x3a :: 0x3a :: ip6Text post ∧
    a = groupBytes ffcharTohex pre ++ groupBytes ffcharTohex post

/-- **Exactly when it is written behind the address.** -/
theorem ffip6Parse_eq_none (s : List UInt8) : ffip6Parse s = none ↔ Ip6Overflow s := by
  rw [ffip6Parse, map_eq_none_iff]
  constructor
  · intro h
    rcases ffip6ParseWildcard_start s with ⟨pre, rest, hpre, hlt, rfl⟩ | ⟨r, hr, -⟩
    · obtain ⟨hrest, hover⟩ := (wildcard_zeros_none hpre hlt rest).mp h
      exact ⟨pre, rest, hpre, hlt, rfl, hrest, hover⟩
    · rw [h] at hr
      cases hr
  · rintro ⟨pre, rest, hpre, hlt, rfl, hrest, hover⟩
    exact (wildcard_zeros_none hpre hlt rest).mpr ⟨hrest, hover⟩

/-- **Exactly what is accepted.** -/
theorem ffip6Parse_eq_some (s a : List UInt8) :
    ffip6Parse s = some (0, a) ↔
      Ip6Form ffcharTohex s a ∨ Ip6Trailing s a ∨ Ip6NoZeros s a := by
  rw [ffip6Parse_some_iff]
  constructor
  · intro h
    rcases ffip6ParseWildcard_start s with ⟨pre, rest, hpre, hlt, rfl⟩ | ⟨r, hr, haccept⟩
    · obtain ⟨post, hpost, rfl, hle, rfl⟩ := (wildcard_zeros_some hpre hlt rest a).mp h
      rcases Nat.lt_or_eq_of_le hle with hlt8 | heq
      · exact .inl (.zeros hpre hpost (Nat.le_of_lt_succ hlt8))
      · refine .inr (.inr ⟨pre, post, hpre, hpost, ?_, heq, rfl, ?_⟩)
        · rintro rfl
          rw [length_nil] at heq
          omega
        · rw [heq, Nat.sub_self, replicate_zero, append_nil]
    obtain ⟨fs, rfl, htail, hlen⟩ := haccept a (some.inj (hr.symm.trans h))
    obtain ⟨gs, hgs, rfl, hfs⟩ := htail.cases_groups
    rw [length_groupBytes] at hlen
    rcases hfs with rfl | rfl
    · exact .inl (.full hgs (by omega))
    refine .inr (.inl ⟨gs, hgs, by omega, ?_, rfl⟩)
    have hne : gs ≠ [] := by
      rintro rfl
      cases hlen
    rw [ip6Text, intercalate_append hne (cons_ne_nil _ _), intercalate_singleton]
    rfl
  rintro (h | ⟨gs, hgs, hlen, rfl, rfl⟩ | ⟨pre, post, hpre, hpost, hne, hlen, rfl, rfl⟩)
  · cases h with
    | @full gs hgs hlen =>
      cases gs with
      | nil => cases hlen
      | cons g gs =>
        have hlen16 : ([] : List UInt8).length +
            (groupBytes ffcharTohex (g :: gs)).length = 16 := by
          rw [length_groupBytes, hlen]
          rfl
        rw [ffip6ParseWildcard_text (hgs g mem_cons_self),
          ip6Loop_tail false (.of_groups (cons_ne_nil _ _) hgs) hlen16, nil_append]
    | @zeros pre post hpre hpost hlen =>
      exact (wildcard_zeros_some hpre (by omega) _ _).mpr ⟨post, hpost, rfl, by omega, rfl⟩
  · cases gs with
    | nil => cases hlen
    | cons g gs =>
      have htext : ip6Text (g :: gs) ++ [0x3a] = ip6Text (g :: (gs ++ [[]])) := by
        rw [← cons_append, ip6Text, ip6Text,
          intercalate_append (cons_ne_nil _ _) (cons_ne_nil _ _), intercalate_singleton]
      have hlen16 : ([] : List UInt8).length +
          (groupBytes ffcharTohex (g :: gs)).length = 16 := by
        rw [length_groupBytes, hlen]
        rfl
      have hloop := ip6Loop_tail false (.of_colon hgs) hlen16
      rw [htext, ffip6ParseWildcard_text (hgs g mem_cons_self), ← cons_append, hloop, nil_append]
  · have hpos := length_pos_iff.mpr hne
    refine (wildcard_zeros_some hpre (by omega) _ _).mpr ⟨post, hpost, rfl, by omega, ?_⟩
    rw [hlen, Nat.sub_self, replicate_zero, append_nil]

end Loop

end Net

end FF
