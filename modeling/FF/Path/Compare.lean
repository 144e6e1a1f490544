import FF.Path.Norm
import FF.Str.Nextval
import Mathlib.Data.List.Induction
import Mathlib.Data.List.Lex

/-!
# Paths in order, and the directory that they share

`ffpath_cmp` compares two paths byte by byte, and `ffpath_parent` finds the directory that two paths
share, on Unix.

## Conventions

* The order of paths is the lexicographic one of `key`, in which the slash is the least byte.
* A directory is written without the last slash; the root is the empty string.
-/

namespace FF

namespace Path

open List

/-! ### The functions -/

/-- `enum FFPATH_CASE` -/
inductive PathCase
  | dflt
  | sens
  | isens
  deriving DecidableEq, Repr

/-- The case that `FFPATH_CASE_DEF` stands for on Unix. -/
def PathCase.orDefault : PathCase → PathCase
  | .dflt => .sens
  | c => c

/-- The body of the loop of `ffpath_cmp`: 0 where it goes on. -/
def cmpByte (flags : PathCase) (l r : UInt8) : ℤ :=
  if l = r then 0
  else if l = SLASH then -1
  else if r = SLASH then 1
  else
    let ll := lowerUp l
    let lr := lowerUp r
    if flags = .isens ∧ ll = lr then 0
    else if flags = .sens ∧ ll = lr then (if l > r then -1 else 1)
    else if ll < lr then -1
    else 1

/-- The loop of `ffpath_cmp` over `n` bytes. -/
def cmpBytes (flags : PathCase) : ℕ → List UInt8 → List UInt8 → ℤ
  | n + 1, l :: left, r :: right =>
    let res := cmpByte flags l r
    if res = 0 then cmpBytes flags n left right else res
  | _, _, _ => 0

/-- `ffpath_cmp`: the bytes are counted in a `uint`, and the difference of the lengths becomes an
`int`. -/
def ffpathCmp (p1 p2 : List UInt8) (flags : PathCase) : ℤ :=
  let n := uint (min p1.length p2.length : ℕ)
  let res := cmpBytes flags.orDefault n p1 p2
  if res = 0 then int32 (uint ((p1.length : ℤ) - p2.length)) else res

/-- `ffs_cmpn` from the byte `i` on; a `char` has a sign. -/
def ffsCmpnAt (i : ℕ) : List UInt8 → List UInt8 → ℤ
  | c1 :: s1, c2 :: s2 =>
    if c1 = c2 then ffsCmpnAt (i + 1) s1 s2
    else if c1.toInt8 < c2.toInt8 then -(i : ℤ) - 1
    else i + 1
  | _, _ => 0

/-- `ffpath_parent`: `dir`, or `none` for -1. -/
def ffpathParent (p1 p2 : List UInt8) : Option (List UInt8) :=
  let n := min p1.length p2.length
  let i := ffsCmpnAt 0 (p1.take n) (p2.take n)
  if i = 0 then some (p1.take n)
  else
    let i := i.natAbs - 1
    let sl := ffsRfind (fun c => c == SLASH) (p1.take i)
    if sl = i then none else some (p1.take sl)

/-! ### The directory -/

/-- The directory of a path, or one further up; a path is taken for its own directory. -/
def Ancestor (d p : List UInt8) : Prop := p = d ∨ d ++ [SLASH] <+: p

/-- **The longest directory** that the paths share, or none. -/
def ParentIs (ps : List (List UInt8)) : Option (List UInt8) → Prop
  | some d => (∀ p ∈ ps, Ancestor d p) ∧
      ∀ e, (∀ p ∈ ps, Ancestor e p) → e.length ≤ d.length
  | none => ∀ d, ¬∀ p ∈ ps, Ancestor d p

/-- Where a path goes on behind the other one, it goes on with a slash. -/
def ParentFits (p q : List UInt8) : Prop :=
  (∀ a x, p = q ++ a :: x → a = SLASH) ∧ ∀ a x, q = p ++ a :: x → a = SLASH

section Parent

variable {p q d e s z c : List UInt8}

theorem Ancestor.prefix (h : Ancestor d p) : d <+: p := by
  rcases h with rfl | h
  · exact prefix_rfl
  · exact (prefix_append d _).trans h

theorem Ancestor.trans (h : Ancestor e d) (h' : Ancestor d p) : Ancestor e p := by
  rcases h with rfl | h
  · exact h'
  · exact .inr (h.trans h'.prefix)

theorem Ancestor.chain (h : Ancestor e p) (h' : Ancestor d p) (hle : e.length ≤ d.length) :
    Ancestor e d := by
  rcases h with rfl | h
  · exact .inl ( h'.prefix.eq_of_length (le_antisymm h'.prefix.length_le hle))
  rcases Nat.lt_or_eq_of_le hle with hlt | heq
  · refine .inr (prefix_of_prefix_length_le h h'.prefix ?_)
    rw [length_append, length_singleton]
    exact hlt
  · have hpre := (prefix_append e [SLASH]).trans h
    exact .inl ((prefix_of_prefix_length_le h'.prefix hpre heq.ge).eq_of_length heq.symm)

theorem prefix_of_difference {a b : UInt8} {x y : List UInt8} (hab : a ≠ b)
    (h : z <+: c ++ a :: x) (h' : z <+: c ++ b :: y) : z <+: c := by
  induction c generalizing z with
  | nil =>
    cases z with
    | nil => exact prefix_rfl
    | cons k z =>
      exact absurd ((cons_prefix_cons.mp h).1.symm.trans (cons_prefix_cons.mp h').1) hab
  | cons k c ih =>
    cases z with
    | nil => exact nil_prefix
    | cons l z =>
      rw [cons_append, cons_prefix_cons] at h h'
      exact cons_prefix_cons.mpr ⟨h.1, ih h.2 h'.2⟩

/-- **The comparison of two strings** finds their first difference, or one starts with the
other. -/
theorem ffsCmpnAt_cases (i : ℕ) (p q : List UInt8) :
    (ffsCmpnAt i p q = 0 ∧ (p <+: q ∨ q <+: p)) ∨
    ∃ c a b x y, p = c ++ a :: x ∧ q = c ++ b :: y ∧ a ≠ b ∧
      (ffsCmpnAt i p q).natAbs = i + c.length + 1 := by
  induction p generalizing i q with
  | nil => exact .inl ⟨by cases q <;> rfl, .inl nil_prefix⟩
  | cons a p ih =>
    cases q with
    | nil => exact .inl ⟨rfl, .inr nil_prefix⟩
    | cons b q =>
      rw [ffsCmpnAt]
      by_cases hab : a = b
      · subst hab
        rw [if_pos rfl]
        rcases ih (i + 1) q with ⟨h0, hpre⟩ | ⟨c, k, l, x, y, rfl, rfl, hkl, habs⟩
        · exact .inl ⟨h0, hpre.imp (cons_prefix_cons.mpr ⟨rfl, ·⟩)
            (cons_prefix_cons.mpr ⟨rfl, ·⟩)⟩
        · refine .inr ⟨a :: c, k, l, x, y, rfl, rfl, hkl, ?_⟩
          rw [habs, length_cons]
          omega
      right
      refine ⟨[], a, b, p, q, rfl, rfl, hab, ?_⟩
      rw [if_neg hab]
      split
      · rw [length_nil]
        omega
      · rw [length_nil]
        omega

theorem ffsRfind_cases (f : UInt8 → Bool) (s : List UInt8) :
    (ffsRfind f s = s.length ∧ ∀ c ∈ s, f c = false) ∨
    ∃ x c y, s = x ++ c :: y ∧ f c = true ∧ (∀ b ∈ y, f b = false) ∧ ffsRfind f s = x.length := by
  induction s using List.reverseRecOn with
  | nil => exact .inl ⟨rfl, fun c hc => absurd hc not_mem_nil⟩
  | append_singleton t c ih =>
    cases hc : f c with
    | true =>
      refine .inr ⟨t, c, [], rfl, hc, fun b hb => absurd hb not_mem_nil, ?_⟩
      rw [ffsRfind, if_pos (by simp [hc])]
      simp [findIdx_cons, hc]
    | false =>
      have hany : (t ++ [c]).any f = t.any f := by simp [hc]
      rcases ih with ⟨-, hno⟩ | ⟨x, k, y, rfl, hk, hy, hpos⟩
      · refine .inl ⟨?_, fun b hb => ?_⟩
        · rw [ffsRfind, hany, if_neg]
          simpa using hno
        · rcases mem_append.mp hb with hb | hb
          · exact hno b hb
          · rw [mem_singleton.mp hb]
            exact hc
      refine .inr ⟨x, k, y ++ [c], by simp, hk, fun b hb => ?_, ?_⟩
      · rcases mem_append.mp hb with hb | hb
        · exact hy b hb
        · rw [mem_singleton.mp hb]
          exact hc
      · have hsome : (x ++ k :: y).any f = true := by simp [hk]
        rw [ffsRfind, if_pos hsome] at hpos
        rw [ffsRfind, hany, if_pos hsome, reverse_append, reverse_singleton, singleton_append,
          findIdx_cons, hc, cond_false, length_append, length_singleton, ← hpos]
        omega

theorem parentIs_difference {a b : UInt8} {x y : List UInt8} (hab : a ≠ b) :
    ParentIs [c ++ a :: x, c ++ b :: y]
      (if ffsRfind (fun k => k == SLASH) c = c.length then none
        else some (c.take (ffsRfind (fun k => k == SLASH) c))) := by
  have hshared : ∀ {e}, (∀ p ∈ [c ++ a :: x, c ++ b :: y], Ancestor e p) → e ++ [SLASH] <+: c := by
    intro e he
    have hp := he _ mem_cons_self
    have hq := he _ (mem_cons_of_mem _ mem_cons_self)
    have hpq : ¬c ++ a :: x <+: c ++ b :: y := fun h =>
      hab (cons_prefix_cons.mp ((prefix_append_right_inj c).mp h)).1
    have hqp : ¬c ++ b :: y <+: c ++ a :: x := fun h =>
      hab (cons_prefix_cons.mp ((prefix_append_right_inj c).mp h)).1.symm
    rcases hp with rfl | hp
    · exact absurd hq.prefix hpq
    · rcases hq with rfl | hq
      · exact absurd ((prefix_append _ _).trans hp) hqp
      · exact prefix_of_difference hab hp hq
  rcases ffsRfind_cases (fun k => k == SLASH) c with ⟨hend, hno⟩ | ⟨u, k, v, rfl, hk, hv, hpos⟩
  · rw [if_pos hend]
    intro e he
    have hmem : SLASH ∈ c := (hshared he).subset (mem_append_right e mem_cons_self)
    exact absurd (hno _ hmem) (by decide)
  obtain rfl : k = SLASH := eq_of_beq hk
  rw [hpos, if_neg (by rw [length_append, length_cons]; omega), take_left]
  refine ⟨fun p hp => ?_, fun e he => ?_⟩
  · have hpre : ∀ z : List UInt8, Ancestor u ((u ++ SLASH :: v) ++ z) := fun z =>
      .inr ⟨v ++ z, by simp⟩
    rcases mem_cons.mp hp with rfl | hp
    · exact hpre _
    · rw [mem_singleton.mp hp]
      exact hpre _
  -- A longer one would have a slash behind the last one.
  by_contra hlong
  obtain ⟨t, ht⟩ := hshared he
  have hsplit := congrArg (List.drop (u.length + 1)) ht
  rw [drop_append_of_le_length (by simp; omega), drop_append_of_le_length (by omega),
    drop_sep] at hsplit
  have hmem : SLASH ∈ v := by
    rw [← hsplit]
    simp
  exact absurd (hv _ hmem) (by decide)

theorem parentIs_prefix (h : p <+: q) : ParentIs [p, q] (some p) ↔ ParentFits p q := by
  obtain ⟨t, rfl⟩ := h
  have hanc : Ancestor p (p ++ t) ↔ ∀ a x, t = a :: x → a = SLASH := by
    cases t with
    | nil =>
      rw [append_nil]
      exact iff_of_true (.inl rfl) fun a x h => by cases h
    | cons k t =>
      constructor
      · rintro (h | h) a x hax
        · exact absurd (append_right_eq_self.mp h) (cons_ne_nil k t)
        · have hk := (cons_prefix_cons.mp ((prefix_append_right_inj p).mp h)).1
          exact (List.cons.inj hax).1.symm.trans hk.symm
      · intro h
        rw [h k t rfl]
        exact .inr ⟨t, by simp⟩
  have hfits : ParentFits p (p ++ t) ↔ ∀ a x, t = a :: x → a = SLASH := by
    constructor
    · exact fun h a x hax => h.2 a x (by rw [hax])
    · refine fun h => ⟨fun a x hax => ?_, fun a x hax => h a x (append_cancel_left hax)⟩
      have hlen := congrArg List.length hax
      simp only [length_append, length_cons] at hlen
      omega
  rw [hfits, ← hanc]
  constructor
  · exact fun h => h.1 _ (mem_cons_of_mem _ mem_cons_self)
  · intro h
    refine ⟨fun r hr => ?_, fun e he => ( Ancestor.prefix (he p mem_cons_self)).length_le⟩
    rcases mem_cons.mp hr with rfl | hr
    · exact .inl rfl
    · rwa [mem_singleton.mp hr]

theorem parentIs_swap {r : Option (List UInt8)} (h : ParentIs [q, p] r) : ParentIs [p, q] r := by
  have hmem : ∀ {P : List UInt8 → Prop}, (∀ r ∈ [q, p], P r) ↔ ∀ r ∈ [p, q], P r := by
    intro P
    simp [and_comm]
  cases r with
  | none => exact fun d hd => h d (hmem.mpr hd)
  | some d => exact ⟨hmem.mp h.1, fun e he => h.2 e (hmem.mpr he)⟩

/-- **The directory that two paths share** is found if and only if a path that starts with the
other one goes on with a slash. -/
theorem ffpathParent_iff (p q : List UInt8) :
    ParentIs [p, q] (ffpathParent p q) ↔ ParentFits p q := by
  obtain ⟨n, hn⟩ : ∃ n, n = min p.length q.length := ⟨_, rfl⟩
  have hlenp : (p.take n).length = n := by
    rw [length_take]
    omega
  have hlenq : (q.take n).length = n := by
    rw [length_take]
    omega
  rcases ffsCmpnAt_cases 0 (p.take n) (q.take n) with ⟨h0, hpre⟩ | ⟨c, a, b, x, y, hp, hq, hab, habs⟩
  · have htake : p.take n = q.take n := by
      rcases hpre with hpre | hpre
      · exact hpre.eq_of_length (hlenp.trans hlenq.symm)
      · exact (hpre.eq_of_length (hlenq.trans hlenp.symm)).symm
    have hres : ffpathParent p q = some (p.take n) := by
      rw [ffpathParent, ← hn]
      exact if_pos h0
    rw [hres]
    rcases Nat.le_total p.length q.length with hle | hle
    · have hself : p.take n = p := take_of_length_le (by omega)
      rw [hself]
      exact parentIs_prefix (hself ▸ htake ▸ take_prefix n q)
    · have hself : q.take n = q := take_of_length_le (by omega)
      rw [htake, hself, ParentFits, and_comm]
      have hiff := parentIs_prefix (hself ▸ htake.symm ▸ take_prefix n p : q <+: p)
      exact ⟨fun h => hiff.mp (parentIs_swap h), fun h => parentIs_swap (hiff.mpr h)⟩
  have hp' : p = c ++ a :: (x ++ p.drop n) := by
    conv_lhs => rw [← take_append_drop n p, hp]
    simp
  have hq' : q = c ++ b :: (y ++ q.drop n) := by
    conv_lhs => rw [← take_append_drop n q, hq]
    simp
  have hres : ffpathParent p q =
      if ffsRfind (fun k => k == SLASH) c = c.length then none
      else some (c.take (ffsRfind (fun k => k == SLASH) c)) := by
    have hi : (ffsCmpnAt 0 (p.take n) (q.take n)).natAbs - 1 = c.length := by omega
    have hc : p.take c.length = c := by
      rw [hp', take_left]
    rw [ffpathParent, ← hn]
    dsimp only
    rw [if_neg (by omega), hi, hc]
    have hle : ffsRfind (fun k => k == SLASH) c ≤ c.length := by
      rcases ffsRfind_cases (fun k => k == SLASH) c with ⟨hend, -⟩ | ⟨u, k, v, hc, -, -, hpos⟩
      · exact hend.le
      · have hlen := congrArg List.length hc
        rw [length_append] at hlen
        omega
    rw [hp', take_append_of_le_length hle]
  rw [hres, hp', hq']
  refine iff_of_true (parentIs_difference hab) ⟨fun k z hz => ?_, fun k z hz => ?_⟩
  · rw [append_assoc, append_cancel_left_eq] at hz
    exact absurd (List.cons.inj hz).1 hab
  · rw [append_assoc, append_cancel_left_eq] at hz
    exact absurd (List.cons.inj hz).1.symm hab

/-- `ffpath_parent` for path after path. -/
def parentList : List UInt8 → List (List UInt8) → Option (List UInt8)
  | p, [] => some p
  | p, q :: ps => (ffpathParent p q).bind fun d => parentList d ps

/-- Each path, and the directory that the paths in front of it share. -/
def ListFits : List UInt8 → List (List UInt8) → Prop
  | _, [] => True
  | p, q :: ps => ParentFits p q ∧ ∀ d, ffpathParent p q = some d → ListFits d ps

/-- **The directory that the paths of a list share.** -/
theorem parentList_spec {ps : List (List UInt8)} (h : ListFits p ps) :
    ParentIs (p :: ps) (parentList p ps) := by
  induction ps generalizing p with
  | nil =>
    refine ⟨fun q hq => ?_, fun e he => ( Ancestor.prefix (he p mem_cons_self)).length_le⟩
    rw [mem_singleton.mp hq]
    exact .inl rfl
  | cons q ps ih =>
    obtain ⟨hfits, hrest⟩ := h
    have hpair := (ffpathParent_iff p q).mpr hfits
    rw [parentList]
    cases hd : ffpathParent p q with
    | none =>
      rw [hd] at hpair
      refine fun e he => hpair e fun r hr => he r ?_
      rcases mem_cons.mp hr with rfl | hr
      · exact mem_cons_self
      · rw [mem_singleton.mp hr]
        exact mem_cons_of_mem _ mem_cons_self
    | some d =>
      rw [hd] at hpair
      obtain ⟨hanc, hlongest⟩ := hpair
      -- What `p` and `q` share, `d` has too, and the other way round.
      have hshare : ∀ e, (∀ r ∈ p :: q :: ps, Ancestor e r) ↔ ∀ r ∈ d :: ps, Ancestor e r := by
        intro e
        simp only [forall_mem_cons]
        constructor
        · rintro ⟨hp, hq, hps⟩
          refine ⟨hp.chain (hanc p mem_cons_self) (hlongest e ?_), hps⟩
          simp [hp, hq]
        · rintro ⟨hd, hps⟩
          exact ⟨hd.trans (hanc p mem_cons_self),
            hd.trans (hanc q (mem_cons_of_mem _ mem_cons_self)), hps⟩
      have hall := ih (hrest d hd)
      rw [Option.bind_some]
      cases hres : parentList d ps with
      | none =>
        rw [hres] at hall
        exact fun e he => hall e ((hshare e).mp he)
      | some e =>
        rw [hres] at hall
        exact ⟨(hshare e).mpr hall.1, fun k hk => hall.2 k ((hshare k).mp hk)⟩

end Parent

/-! ### The order -/

/-- The rank of a byte. A letter in lower case is in front of the same one in upper case. -/
def rank (flags : PathCase) (c : UInt8) : ℕ :=
  if c = SLASH then 0
  else if flags = .isens then (lowerUp c).toNat + 1
  else 2 * (lowerUp c).toNat + (if ffcharIsup c then 2 else 1)

/-- A path as the ranks of its bytes. -/
def key (flags : PathCase) (p : List UInt8) : List ℕ := p.map (rank flags.orDefault)

theorem ffcharIsup_iff (c : UInt8) : ffcharIsup c = true ↔ 0x41 ≤ c.toNat ∧ c.toNat ≤ 0x5a := by
  rw [ffcharIsup, Bool.and_eq_true, decide_eq_true_iff, decide_eq_true_iff]
  exact Iff.rfl

theorem lowerUp_toNat (c : UInt8) :
    (lowerUp c).toNat = if ffcharIsup c then c.toNat + 32 else c.toNat := by
  rw [lowerUp]
  by_cases hup : ffcharIsup c = true
  · rw [if_pos hup, if_pos hup]
    obtain ⟨hlow, hhigh⟩ := (ffcharIsup_iff c).mp hup
    have hall : ((List.range 26).all fun n =>
        (ffcharLower (UInt8.ofNat (n + 0x41))).toNat == n + 0x41 + 32) = true := rfl
    have hc := all_eq_true.mp hall (c.toNat - 0x41) (mem_range.mpr (by omega))
    rw [show c.toNat - 0x41 + 0x41 = c.toNat by omega, UInt8.ofNat_toNat] at hc
    exact eq_of_beq hc
  · rw [if_neg hup, if_neg hup]

theorem cmpByte_case {l r : UInt8} (hne : l ≠ r) (h : lowerUp l = lowerUp r) :
    ((if l > r then -1 else 1 : ℤ) = 0 ↔
      2 * (lowerUp l).toNat + (if ffcharIsup l then 2 else 1) =
        2 * (lowerUp r).toNat + (if ffcharIsup r then 2 else 1)) ∧
    ((if l > r then -1 else 1 : ℤ) < 0 ↔
      2 * (lowerUp l).toNat + (if ffcharIsup l then 2 else 1) <
        2 * (lowerUp r).toNat + (if ffcharIsup r then 2 else 1)) := by
  have hgt : l > r ↔ r.toNat < l.toNat := Iff.rfl
  have hval : (lowerUp l).toNat = (lowerUp r).toNat := congrArg UInt8.toNat h
  have hnat : l.toNat ≠ r.toNat := fun h => hne (UInt8.toNat_inj.mp h)
  rw [hval, if_congr hgt rfl rfl]
  rw [lowerUp_toNat, lowerUp_toNat] at hval
  by_cases hl : ffcharIsup l = true
  · by_cases hr : ffcharIsup r = true
    · rw [if_pos hl, if_pos hr] at hval
      omega
    · rw [if_pos hl, if_neg hr] at hval
      rw [if_pos hl, if_neg hr, if_neg (by omega)]
      omega
  by_cases hr : ffcharIsup r = true
  · rw [if_neg hl, if_pos hr] at hval
    rw [if_neg hl, if_pos hr, if_pos (by omega)]
    omega
  · rw [if_neg hl, if_neg hr] at hval
    omega

/-- **One byte**: the order of the ranks. -/
theorem cmpByte_sign {flags : PathCase} (hflags : flags ≠ .dflt) (l r : UInt8) :
    (cmpByte flags l r = 0 ↔ rank flags l = rank flags r) ∧
    (cmpByte flags l r < 0 ↔ rank flags l < rank flags r) := by
  have hslash : ∀ c : UInt8, c ≠ SLASH → 0 < rank flags c := fun c hc => by
    rw [rank, if_neg hc]
    split
    · exact Nat.succ_pos _
    · split <;> omega
  have h0 : rank flags SLASH = 0 := if_pos rfl
  rw [cmpByte]
  by_cases hlr : l = r
  · rw [if_pos hlr, hlr]
    exact ⟨iff_of_true rfl rfl, iff_of_false (lt_irrefl _) (lt_irrefl _)⟩
  rw [if_neg hlr]
  by_cases hl : l = SLASH
  · have hr := hslash r fun h => hlr (hl.trans h.symm)
    rw [if_pos hl, hl, h0]
    omega
  rw [if_neg hl]
  by_cases hr : r = SLASH
  · have hl := hslash l hl
    rw [if_pos hr, hr, h0]
    omega
  rw [if_neg hr, rank, rank, if_neg hl, if_neg hr]
  have heq : lowerUp l = lowerUp r ↔ (lowerUp l).toNat = (lowerUp r).toNat := UInt8.toNat_inj.symm
  have hlt : lowerUp l < lowerUp r ↔ (lowerUp l).toNat < (lowerUp r).toNat := Iff.rfl
  by_cases hi : flags = .isens
  · rw [if_pos hi, if_pos hi]
    by_cases he : lowerUp l = lowerUp r
    · rw [if_pos ⟨hi, he⟩, he]
      exact ⟨iff_of_true rfl rfl, iff_of_false (lt_irrefl _) (lt_irrefl _)⟩
    · rw [if_neg fun h => he h.2, if_neg fun h => he h.2, if_congr hlt rfl rfl]
      rw [heq] at he
      split <;> omega
  have hs : flags = .sens := by
    cases flags with
    | dflt => exact absurd rfl hflags
    | sens => rfl
    | isens => exact absurd rfl hi
  rw [if_neg hi, if_neg hi, if_neg fun h => hi h.1]
  by_cases he : lowerUp l = lowerUp r
  · rw [if_pos ⟨hs, he⟩]
    exact cmpByte_case hlr he
  · rw [if_neg fun h => he h.2, if_congr hlt rfl rfl]
    rw [heq] at he
    split <;> split <;> split <;> omega

section Lex

variable {a y t : List ℕ}

theorem not_lt_of_prefix (h : a <+: y) : ¬y < a := by
  induction a generalizing y with
  | nil => exact not_lt_nil y
  | cons k a ih =>
    obtain ⟨z, rfl⟩ := h
    rw [cons_append, cons_lt_cons_iff]
    rintro (hlt | ⟨-, hlt⟩)
    · exact lt_irrefl k hlt
    · exact ih (prefix_append a z) hlt

theorem lt_of_prefix (h : a <+: y) (hne : a ≠ y) : a < y :=
  lt_of_le_of_ne (not_lt.mp ( not_lt_of_prefix h)) hne

theorem prefix_of_between (h : a ≤ y) (h' : y < a ++ t) : a <+: y := by
  induction a generalizing y with
  | nil => exact nil_prefix
  | cons k a ih =>
    cases y with
    | nil => exact absurd (nil_lt_cons k a) (not_lt.mpr h)
    | cons l y =>
      rw [cons_append, cons_lt_cons_iff] at h'
      have hlow : ¬(l < k ∨ l = k ∧ y < a) := fun hlt =>
        not_lt.mpr h (cons_lt_cons_iff.mpr hlt)
      rcases h' with hlt | ⟨rfl, hlt⟩
      · exact absurd (.inl hlt) hlow
      · exact cons_prefix_cons.mpr
          ⟨rfl, ih (not_lt.mp fun hlt => hlow (.inr ⟨rfl, hlt⟩)) hlt⟩

theorem prefix_of_between_zero (h : a < y) (h' : y < a ++ 0 :: t) : a ++ [0] <+: y := by
  obtain ⟨z, rfl⟩ := prefix_of_between (le_of_lt h) h'
  cases z with
  | nil => exact absurd h (by rw [append_nil]; exact lt_irrefl a)
  | cons k z =>
    have hlt : k :: z < 0 :: t := by
      induction a with
      | nil => exact h'
      | cons l a ih =>
        simp only [cons_append, cons_lt_cons_iff, lt_irrefl, true_and, false_or] at h h'
        exact ih h h'
    rw [cons_lt_cons_iff] at hlt
    obtain rfl : k = 0 := by
      rcases hlt with hlt | hlt
      · exact absurd hlt (Nat.not_lt_zero k)
      · exact hlt.1
    exact ⟨z, by simp⟩

end Lex

section Order

variable {flags : PathCase} {p q d x y : List UInt8}

theorem orDefault_ne (flags : PathCase) : flags.orDefault ≠ .dflt := by
  cases flags <;> exact nofun

/-- **The bytes that are compared** decide, or they are equal. -/
theorem cmpBytes_sign (flags : PathCase) {n : ℕ} (hp : n ≤ p.length) (hq : n ≤ q.length) :
    (cmpBytes flags.orDefault n p q = 0 ↔ (key flags p).take n = (key flags q).take n) ∧
    (cmpBytes flags.orDefault n p q ≠ 0 →
      (cmpBytes flags.orDefault n p q < 0 ↔ key flags p < key flags q)) := by
  induction n generalizing p q with
  | zero =>
    have h0 : cmpBytes flags.orDefault 0 p q = 0 := by
      rw [cmpBytes]
      exact nofun
    exact ⟨iff_of_true h0 rfl, fun hne => absurd h0 hne⟩
  | succ n ih =>
    cases p with
    | nil => exact absurd hp (Nat.not_succ_le_zero n)
    | cons l p =>
      cases q with
      | nil => exact absurd hq (Nat.not_succ_le_zero n)
      | cons r q =>
        have hkey : ∀ (b : UInt8) s, key flags (b :: s) = rank flags.orDefault b :: key flags s :=
          fun _ _ => rfl
        obtain ⟨heq, hlt⟩ := cmpByte_sign (orDefault_ne flags) l r
        obtain ⟨ih0, ihlt⟩ := ih (Nat.le_of_succ_le_succ hp) (Nat.le_of_succ_le_succ hq)
        rw [cmpBytes, hkey, hkey, take_succ_cons, take_succ_cons, List.cons.injEq, cons_lt_cons_iff]
        by_cases h0 : cmpByte flags.orDefault l r = 0
        · have hrank := heq.mp h0
          rw [if_pos h0, ih0]
          refine ⟨(and_iff_right hrank).symm, fun hne => ?_⟩
          rw [ihlt hne, hrank]
          simp
        · have hrank : rank flags.orDefault l ≠ rank flags.orDefault r := fun h => h0 (heq.mpr h)
          rw [if_neg h0]
          refine ⟨iff_of_false h0 fun h => hrank h.1, fun _ => ?_⟩
          rw [hlt]
          exact ⟨.inl, fun h => h.resolve_right fun h => hrank h.1⟩

/-- **The comparison is the order of the paths.** -/
def CmpRight (flags : PathCase) (p q : List UInt8) : Prop :=
  (ffpathCmp p q flags = 0 ↔ key flags p = key flags q) ∧
  (ffpathCmp p q flags < 0 ↔ key flags p < key flags q)

/-- The paths differ in the bytes that are counted, or the difference of their lengths is on the
right side in 32 bits. -/
def CmpFits (flags : PathCase) (p q : List UInt8) : Prop :=
  (key flags p).take (min p.length q.length % 2 ^ 32) ≠
      (key flags q).take (min p.length q.length % 2 ^ 32) ∨
    (key flags p < key flags q → 2 ^ 31 ≤ ((p.length : ℤ) - q.length) % 2 ^ 32) ∧
    (key flags q < key flags p → 0 < ((p.length : ℤ) - q.length) % 2 ^ 32 ∧
      ((p.length : ℤ) - q.length) % 2 ^ 32 < 2 ^ 31)

theorem length_key (flags : PathCase) (p : List UInt8) : (key flags p).length = p.length :=
  length_map _

/-- **Exactly when the comparison is the order.** -/
theorem ffpathCmp_iff (flags : PathCase) (p q : List UInt8) :
    CmpRight flags p q ↔ CmpFits flags p q := by
  obtain ⟨n, hn⟩ : ∃ n, n = min p.length q.length % 2 ^ 32 := ⟨_, rfl⟩
  have hcount : uint (min p.length q.length : ℕ) = n := by
    rw [uint, hn]
    omega
  obtain ⟨h0, hsign⟩ := @cmpBytes_sign p q flags n (by omega) (by omega)
  rw [CmpRight, CmpFits, ffpathCmp, hcount, ← hn]
  by_cases hres : cmpBytes flags.orDefault n p q = 0
  · obtain ⟨D, hD⟩ : ∃ D : ℤ, D = ((p.length : ℤ) - q.length) % 2 ^ 32 := ⟨_, rfl⟩
    have hint : (int32 (uint ((p.length : ℤ) - q.length)) = 0 ↔ D = 0) ∧
        (int32 (uint ((p.length : ℤ) - q.length)) < 0 ↔ 2 ^ 31 ≤ D) := by
      rw [int32, uint, ← hD]
      split <;> omega
    have hlen : key flags p = key flags q → D = 0 := fun h => by
      have := congrArg List.length h
      rw [length_key, length_key] at this
      rw [hD, this, sub_self]
      rfl
    rw [if_pos hres, hint.1, hint.2, ← hD, or_iff_right (not_not.mpr (h0.mp hres))]
    rcases lt_trichotomy (key flags p) (key flags q) with hlt | heq | hgt
    · have hne := ne_of_lt hlt
      have hno := lt_asymm hlt
      simp only [hlt, hne, hno, iff_false, iff_true, true_implies, false_implies, and_true]
      omega
    · have hD0 := hlen heq
      simp only [heq, lt_irrefl, iff_false, iff_true, false_implies, and_true]
      omega
    · have hne := ne_of_gt hgt
      have hno := lt_asymm hgt
      simp only [hgt, hne, hno, iff_false, true_implies, false_implies, true_and]
      omega
  · have hdiff : (key flags p).take n ≠ (key flags q).take n := fun h => hres (h0.mpr h)
    rw [if_neg hres]
    exact iff_of_true ⟨iff_of_false hres fun h => hdiff (by rw [h]), hsign hres⟩ (.inl hdiff)

/-! ### Directories in the order -/

/-- A directory with its last slash -/
def withSlash (d : List UInt8) : List UInt8 := if d.getLast? = some SLASH then d else d ++ [SLASH]

/-- The path is below the directory. -/
def Below (flags : PathCase) (d x : List UInt8) : Prop :=
  key flags (withSlash d) <+: key flags x ∧ key flags x ≠ key flags d

theorem key_withSlash (flags : PathCase) (d : List UInt8) :
    key flags (withSlash d) = key flags d ∨ key flags (withSlash d) = key flags d ++ [0] := by
  rw [withSlash]
  split
  · exact .inl rfl
  · right
    rw [key, map_append]
    rfl

/-- **A directory is in front of what is below it, and what is between them is below it too.** -/
theorem below_between (hx : Below flags d x) :
    key flags d < key flags x ∧
      (key flags d < key flags y → key flags y < key flags x → Below flags d y) := by
  obtain ⟨hpre, hne⟩ := hx
  have hd : key flags d <+: key flags (withSlash d) := by
    rcases key_withSlash flags d with h | h
    · exact ⟨[], by rw [append_nil, h]⟩
    · rw [h]
      exact prefix_append _ _
  refine ⟨ lt_of_prefix (hd.trans hpre) hne.symm, fun hdy hyx => ⟨?_, ne_of_gt hdy⟩⟩
  obtain ⟨t, ht⟩ := hpre
  rw [← ht] at hyx
  rcases key_withSlash flags d with h | h
  · rw [h] at hyx ⊢
    exact prefix_of_between (le_of_lt hdy) hyx
  · rw [h] at hyx ⊢
    exact prefix_of_between_zero hdy (by simpa using hyx)

end Order

/-- **The directory that paths share, and their order.** For two paths, the directory is right and
the comparison is the order exactly under the two conditions; for a list, the directory is right
where each step meets its condition; in the order a directory stands in front of what is below it,
with nothing else between them. -/
theorem ffpath_iff (flags : PathCase) (p q : List UInt8) (ps : List (List UInt8)) :
    (ParentIs [p, q] (ffpathParent p q) ∧ CmpRight flags p q ↔
      ParentFits p q ∧ CmpFits flags p q) ∧
    (ListFits p ps → ParentIs (p :: ps) (parentList p ps)) ∧
    ∀ d x y, Below flags d x → key flags d < key flags x ∧
      (key flags d < key flags y → key flags y < key flags x → Below flags d y) := by
  refine ⟨?_, parentList_spec, fun d x y hx => below_between hx⟩
  rw [ffpathParent_iff, ffpathCmp_iff]

/-- `/a/b` is taken for a directory of `/a/bc`. -/
theorem ffpathParent_name :
    ffpathParent (ascii "/a/b") (ascii "/a/bc") = some (ascii "/a/b") ∧
      ¬∀ p q, ParentIs [p, q] (ffpathParent p q) := by
  refine ⟨rfl, fun h => ?_⟩
  have hall : ParentIs [ascii "/a/b", ascii "/a/bc"] (some (ascii "/a/b")) :=
    h (ascii "/a/b") (ascii "/a/bc")
  rcases hall.1 _ (mem_cons_of_mem _ mem_cons_self) with heq | ⟨t, ht⟩
  · cases heq
  · cases ht

end Path

end FF
