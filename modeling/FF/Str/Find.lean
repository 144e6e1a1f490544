import FF.Ffstring
import FF.Lib.Windows

/-!
# A string within another one

`ffs_ifinds` looks for a string without regard to the case of letters. It compares the first bytes
with the bit of the case set in both, which also takes characters together that are no letters, such
as `@` and the grave accent, and the other bytes as `ffs_icmp` does.
-/

namespace FF

open List Option

/-! ### The functions -/

/-- `ffs_icmp` on strings of one length. -/
def ffsIcmp : List UInt8 → List UInt8 → ℤ
  | ch1 :: s1, ch2 :: s2 =>
    if ch1 = ch2 then ffsIcmp s1 s2
    else if lowerUp ch1 = lowerUp ch2 then ffsIcmp s1 s2
    else if lowerUp ch1 < lowerUp ch2 then -1
    else 1
  | _, _ => 0

/-- The loop of `ffs_ifinds` with `n` positions to go. -/
def ifindsLoop (sch0 : UInt8) (search : List UInt8) : ℕ → List UInt8 → Option ℕ
  | 0, _ => none
  | _ + 1, [] => none
  | n + 1, c :: s =>
    if sch0 = ffcharLower c ∧ ffsIcmp (s.take search.length) search = 0 then some 0
    else (ifindsLoop sch0 search n s).map (· + 1)

/-- `ffs_ifinds`: the position. -/
def ffsIfinds (s search : List UInt8) : ℕ :=
  match search with
  | [] => 0
  | c :: search =>
    if s.length < search.length + 1 then s.length
    else (ifindsLoop (ffcharLower c) search (s.length - search.length) s).getD s.length

/-! ### What is taken as equal -/

theorem ffsIcmp_eq_zero {s1 s2 : List UInt8} (h : s1.length = s2.length) :
    ffsIcmp s1 s2 = 0 ↔ s1.map lowerUp = s2.map lowerUp := by
  induction s1, s2 using ffsIcmp.induct with
  | case1 s1 s2 c ih =>
    rw [ffsIcmp, if_pos rfl, ih (Nat.succ.inj h), map_cons, map_cons, cons_inj_right]
  | case2 c1 s1 c2 s2 hne heq ih =>
    rw [ffsIcmp, if_neg hne, if_pos heq, ih (Nat.succ.inj h), map_cons, map_cons, heq,
      cons_inj_right]
  | case3 c1 s1 c2 s2 hne hno hlt =>
    rw [ffsIcmp, if_neg hne, if_neg hno, if_pos hlt]
    simp [hno]
  | case4 c1 s1 c2 s2 hne hno hlt =>
    rw [ffsIcmp, if_neg hne, if_neg hno, if_neg hlt]
    simp [hno]
  | case5 s1 s2 hno =>
    cases s1 with
    | nil =>
      cases s2 with
      | nil => simp [ffsIcmp]
      | cons c s2 => simp at h
    | cons c s1 =>
      cases s2 with
      | nil => simp at h
      | cons c' s2 => exact absurd rfl (hno c s1 c' s2 rfl)

theorem ffcharLower_lowerUp (c : UInt8) : ffcharLower (lowerUp c) = ffcharLower c := by
  rw [lowerUp]
  split
  · rw [ffcharLower, ffcharLower, UInt8.or_assoc, UInt8.or_self]
  · rfl

/-- The window that `ffs_ifinds` accepts. -/
def ifindsWindow (search w : List UInt8) : Bool :=
  w.head?.map ffcharLower == search.head?.map ffcharLower &&
    w.tail.map lowerUp == search.tail.map lowerUp

/-- The window that is equal. -/
def icmpWindow (search w : List UInt8) : Bool := w.map lowerUp == search.map lowerUp

theorem ifindsWindow_of_icmp {search w : List UInt8} (h : icmpWindow search w = true) :
    ifindsWindow search w = true := by
  have heq : w.map lowerUp = search.map lowerUp := eq_of_beq h
  cases w with
  | nil =>
    cases search with
    | nil => rfl
    | cons c search => simp at heq
  | cons a w =>
    cases search with
    | nil => simp at heq
    | cons c search =>
      obtain ⟨hhead, htail⟩ := List.cons.inj heq
      have hlow : ffcharLower a = ffcharLower c := by
        rw [← ffcharLower_lowerUp, hhead, ffcharLower_lowerUp]
      simp [ifindsWindow, hlow, htail]

/-! ### The first window -/

theorem ifindsLoop_eq (c : UInt8) (search : List UInt8) (n : ℕ) (s : List UInt8)
    (h : n + search.length = s.length) :
    ifindsLoop (ffcharLower c) search n s =
      findWindow (ifindsWindow (c :: search)) (search.length + 1) s := by
  induction s generalizing n with
  | nil =>
    obtain rfl : n = 0 := by simp at h; omega
    rw [ifindsLoop]
    exact (findWindow_eq_none fun k hk => by simp at hk).symm
  | cons a s ih =>
    cases n with
    | zero =>
      rw [ifindsLoop]
      refine (findWindow_eq_none fun k hk => ?_).symm
      omega
    | succ n =>
      rw [length_cons] at h
      have hlen : (s.take search.length).length = search.length := by
        rw [length_take]
        omega
      rw [findWindow_cons _ _ (by omega), ifindsLoop, ih n (by omega)]
      congr 1
      rw [take_succ_cons, ffsIcmp_eq_zero hlen]
      simp only [ifindsWindow, head?_cons, tail_cons, map_some, Bool.and_eq_true,
        beq_iff_eq, some.injEq]
      rw [eq_comm (a := ffcharLower c)]

/-- **What is found**: the first window that is accepted. -/
theorem ffsIfinds_eq (s search : List UInt8) :
    ffsIfinds s search = (findWindow (ifindsWindow search) search.length s).getD s.length := by
  cases search with
  | nil =>
    have h0 : findWindow (ifindsWindow []) 0 s = some 0 :=
      findWindow_of_first (Nat.zero_le _) (by rw [piece_zero]; rfl) fun j hj => by omega
    rw [length_nil, h0]
    rfl
  | cons c search =>
    rw [ffsIfinds, length_cons]
    split
    · next hshort =>
        rw [findWindow_eq_none fun k hk => by omega]
        rfl
    · next hlong => rw [ifindsLoop_eq c search _ s (by omega)]

/-! ### The first position -/

/-- `ffs_icmp` of the string and the bytes at `p` is 0. -/
def IcmpAt (s search : List UInt8) (p : ℕ) : Prop :=
  p + search.length ≤ s.length ∧ ffsIcmp search (piece s p search.length) = 0

/-- **The first position** is the one that is found; the end stands for no position in front of
it. -/
structure FindsFirst (s search : List UInt8) : Prop where
  first : ∀ p, IcmpAt s search p → (∀ j < p, ¬ IcmpAt s search j) → ffsIfinds s search = p
  none : ffsIfinds s search = s.length ↔ ∀ p < s.length, ¬ IcmpAt s search p

/-- The first bytes differ, but not when the bit of the case is set in both, and the other bytes
are equal. -/
def LooseAt (s search : List UInt8) (p : ℕ) : Prop :=
  ∃ a c w rest, search = c :: rest ∧ piece s p search.length = a :: w ∧
    lowerUp a ≠ lowerUp c ∧ ffcharLower a = ffcharLower c ∧ w.map lowerUp = rest.map lowerUp

theorem icmpAt_iff {s search : List UInt8} {p : ℕ} (hp : p + search.length ≤ s.length) :
    IcmpAt s search p ↔ icmpWindow search (piece s p search.length) = true := by
  have hlen := length_piece hp
  rw [IcmpAt, ffsIcmp_eq_zero hlen.symm, icmpWindow, beq_iff_eq]
  exact ⟨fun h => h.2.symm, fun h => ⟨hp, h.symm⟩⟩

theorem ifindsWindow_iff {s search : List UInt8} {p : ℕ} (hp : p + search.length ≤ s.length) :
    ifindsWindow search (piece s p search.length) = true ↔ IcmpAt s search p ∨ LooseAt s search p := by
  rw [icmpAt_iff hp]
  constructor
  · intro h
    cases hs : search with
    | nil =>
      left
      rw [length_nil, piece_zero]
      rfl
    | cons c rest =>
      rw [← hs]
      cases hw : piece s p search.length with
      | nil =>
        have hlen := length_piece hp
        rw [hw, hs, length_nil, length_cons] at hlen
        omega
      | cons a w =>
        rw [hw] at h
        have hboth : ffcharLower a = ffcharLower c ∧ w.map lowerUp = rest.map lowerUp := by
          simpa [ifindsWindow, hs] using h
        by_cases heq : lowerUp a = lowerUp c
        · left
          simp [icmpWindow, hs, heq, hboth.2]
        · exact Or.inr ⟨a, c, w, rest, hs, hw, heq, hboth⟩
  · rintro (h | ⟨a, c, w, rest, rfl, hw, -, hlow, htail⟩)
    · exact ifindsWindow_of_icmp h
    · rw [hw]
      simp [ifindsWindow, hlow, htail]

theorem LooseAt.not_icmpAt {s search : List UInt8} {p : ℕ} (h : LooseAt s search p) :
    ¬ IcmpAt s search p := by
  obtain ⟨a, c, w, rest, rfl, hw, hne, -⟩ := h
  intro hat
  have hwin := (icmpAt_iff hat.1).mp hat
  rw [hw] at hwin
  exact hne (List.cons.inj (eq_of_beq hwin)).1

theorem findsFirst_iff_eq (s search : List UInt8) :
    FindsFirst s search ↔
      ffsIfinds s search = (findWindow (icmpWindow search) search.length s).getD s.length := by
  have hat : ∀ p, IcmpAt s search p ↔
      p + search.length ≤ s.length ∧ icmpWindow search (piece s p search.length) = true :=
    fun p => ⟨fun h => ⟨h.1, (icmpAt_iff h.1).mp h⟩, fun h => (icmpAt_iff h.1).mpr h.2⟩
  cases hf : findWindow (icmpWindow search) search.length s with
  | none =>
    have hno : ∀ p, ¬ IcmpAt s search p := fun p hp => by
      have htrue := ((hat p).mp hp).2
      rw [findWindow_none hf hp.1] at htrue
      cases htrue
    rw [getD_none]
    exact ⟨fun h => h.none.mpr fun p _ => hno p,
      fun h => ⟨fun p hp _ => absurd hp (hno p), ⟨fun _ p _ => hno p, fun _ => h⟩⟩⟩
  | some i =>
    obtain ⟨hi, hp, hfirst⟩ := findWindow_some hf
    have hiat : IcmpAt s search i := (hat i).mpr ⟨hi, hp⟩
    have hbefore : ∀ j < i, ¬ IcmpAt s search j := fun j hj hjat => by
      have htrue := ((hat j).mp hjat).2
      rw [hfirst j hj] at htrue
      cases htrue
    rw [getD_some]
    refine ⟨fun h => h.first i hiat hbefore, fun h => ⟨fun p hpat hpfirst => ?_, ?_⟩⟩
    · rcases Nat.lt_trichotomy p i with hlt | rfl | hgt
      · exact absurd hpat (hbefore p hlt)
      · exact h
      · exact absurd hiat (hpfirst i hgt)
    rw [h]
    constructor
    · rintro rfl p hp
      exact hbefore p hp
    · intro hnone
      by_contra hne
      exact hnone i (by omega) hiat

theorem findWindow_getD_inj {p q : List UInt8 → Bool} {s : List UInt8} {c : ℕ} (hc : 0 < c) :
    (findWindow q c s).getD s.length = (findWindow p c s).getD s.length ↔
      findWindow q c s = findWindow p c s := by
  have hlt : ∀ {f : List UInt8 → Bool} {i : ℕ}, findWindow f c s = some i → i < s.length :=
    fun h => by
      have := (findWindow_some h).1
      omega
  refine ⟨fun h => ?_, fun h => by rw [h]⟩
  cases hq : findWindow q c s with
  | none =>
    cases hp : findWindow p c s with
    | none => rfl
    | some i =>
      rw [hq, hp, getD_none, getD_some] at h
      have := hlt hp
      omega
  | some i =>
    cases hp : findWindow p c s with
    | none =>
      rw [hq, hp, getD_none, getD_some] at h
      have := hlt hq
      omega
    | some j =>
      rw [hq, hp, getD_some, getD_some] at h
      rw [h]

/-- **The first position is found** if and only if every position at which only the first bytes
are taken together stands behind one at which the string is equal. -/
theorem ffsIfinds_iff (s search : List UInt8) :
    FindsFirst s search ↔
      ∀ p, p + search.length ≤ s.length → LooseAt s search p → ∃ j < p, IcmpAt s search j := by
  cases search with
  | nil =>
    have hat : IcmpAt s [] 0 := ⟨Nat.zero_le _, rfl⟩
    refine iff_of_true ⟨fun p _ hfirst => ?_, ?_⟩ fun p _ hloose => ?_
    · by_contra hne
      exact hfirst 0 (Nat.pos_of_ne_zero fun h0 => hne h0.symm) hat
    · rw [show ffsIfinds s [] = 0 from rfl]
      refine ⟨fun h p hp => absurd hp (by omega), fun h => ?_⟩
      by_contra hne
      exact h 0 (by omega) hat
    · obtain ⟨a, c, w, rest, hnil, -⟩ := hloose
      cases hnil
  | cons c rest =>
    rw [findsFirst_iff_eq, ffsIfinds_eq, findWindow_getD_inj (length_pos_of_ne_nil (cons_ne_nil c rest)),
      findWindow_eq_iff fun w h => ifindsWindow_of_icmp h]
    constructor
    · intro h p hp hloose
      obtain ⟨j, hj, hpj⟩ := h p hp ((ifindsWindow_iff hp).mpr (Or.inr hloose))
      have hat := (icmpAt_iff (by omega)).mpr hpj
      refine ⟨j, lt_of_le_of_ne hj ?_, hat⟩
      rintro rfl
      exact hloose.not_icmpAt hat
    · intro h p hp hq
      rcases (ifindsWindow_iff hp).mp hq with hat | hloose
      · exact ⟨p, le_rfl, (icmpAt_iff hp).mp hat⟩
      · obtain ⟨j, hj, hat⟩ := h p hp hloose
        exact ⟨j, hj.le, (icmpAt_iff hat.1).mp hat⟩

/-- The grave accent is taken for `@`. -/
theorem ffsIfinds_accent :
    ffsIfinds (ascii "@x`x") (ascii "`x") = 0 ∧ ¬ FindsFirst (ascii "@x`x") (ascii "`x") := by
  refine ⟨rfl, fun h => ?_⟩
  have hfirst := h.first 2 ⟨le_refl _, rfl⟩ fun j hj hat => ?_
  · cases hfirst
  · obtain rfl | rfl : j = 0 ∨ j = 1 := by omega
    · cases hat.2
    · cases hat.2

end FF
