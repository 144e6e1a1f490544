import FF.Ffstring
import FF.Lib.Glob
import FF.Lib.Runs

/-!
# Wildcards

`ffs_wildcard` reads the pattern once. Where a byte does not fit, it goes back to the place behind
the last `*`; where the pattern ends before the string, it does not.
-/

namespace FF

open List Option

/-! ### The loop -/

/-- The variables of `ffs_wildcard`: the rest of the pattern and of the string, and, behind a `*`,
the pattern behind it and the string behind the place where this pattern has been tried. -/
structure Wildcard where
  pattern : List UInt8
  s : List UInt8
  astk : Option (List UInt8 × List UInt8)
  deriving DecidableEq, Repr

/-- A character as it is compared; `icase` is the flag `FFS_WC_ICASE`. -/
def wcChar (icase : Bool) (ch : UInt8) : UInt8 := if icase then lowerUp ch else ch

/-- A pass of the loop: what is returned, or the variables behind it. -/
def wildcardMove (icase : Bool) (w : Wildcard) : List ℕ × Option Wildcard :=
  match w.pattern with
  | [] => ([if w.s = [] then 0 else 1], none)
  | ch :: pattern =>
    if ch = 0x2a then
      if pattern = [] then ([0], none)
      else ([], some ⟨pattern, w.s, some (pattern, w.s.tail)⟩)
    else
      match w.s with
      | [] => ([1], none)
      | ch2 :: s =>
        if ch = 0x3f ∨ wcChar icase ch = wcChar icase ch2 then ([], some ⟨pattern, s, w.astk⟩)
        else
          match w.astk with
          | none => ([1], none)
          | some (astk, astkS) => ([], some ⟨astk, astkS, some (astk, astkS.tail)⟩)

/-- **`ffs_wildcard` returns `r`.** -/
def FfsWildcard (icase : Bool) (pattern s : List UInt8) (r : ℕ) : Prop :=
  RunEnds (wildcardMove icase) ⟨pattern, s, none⟩ [r]

/-! ### What it is for -/

/-- A `*` stands for any string. -/
def WcStar (ch : UInt8) : Prop := ch = 0x2a

/-- What another character of the pattern stands for. -/
def WcFits (icase : Bool) (ch ch2 : UInt8) : Prop :=
  ch = 0x3f ∨ wcChar icase ch = wcChar icase ch2

/-- **The pattern matches the string**: each `*` is replaced by a string, each `?` by a byte. -/
def WcMatches (icase : Bool) (pattern s : List UInt8) : Prop :=
  GlobMatches WcStar (WcFits icase) pattern s

/-- What the loop has read since the last `*`: `prev` is the string from the place on where the
pattern behind it is tried. -/
def Wildcard.Inv (w : Wildcard) (prev : List UInt8) : Prop :=
  w.astk = none ∨ ∃ u, (∀ ch ∈ u, ¬WcStar ch) ∧ w.astk = some (u ++ w.pattern, prev.tail) ∧
    prev.drop u.length = w.s ∧ u.length ≤ prev.length

/-- What the loop finds out: the pattern is right here, or at a place behind. -/
def Wildcard.Finds (icase : Bool) (w : Wildcard) : Prop :=
  GlobShortest WcStar (WcFits icase) w.pattern w.s ∨
    ∃ astk astkS, w.astk = some (astk, astkS) ∧ ¬GlobStarts WcStar (WcFits icase) w.pattern w.s ∧
      GlobShortest WcStar (WcFits icase) (0x2a :: astk) astkS

section Loop

variable {icase : Bool} {pattern pattern' s s' prev u : List UInt8}
  {astk : Option (List UInt8 × List UInt8)}
  {ch ch2 : UInt8} {w : Wildcard}

theorem wcStar_star : WcStar 0x2a := rfl

theorem finds_nil (hinv : (⟨[], s, astk⟩ : Wildcard).Inv prev) :
    (⟨[], s, astk⟩ : Wildcard).Finds icase ↔ s = [] := by
  have hstarts : GlobStarts WcStar (WcFits icase) [] s := ⟨[], s, rfl, rfl⟩
  constructor
  · rintro (⟨hmatch, -⟩ | ⟨-, -, -, hno, -⟩)
    · exact hmatch
    · exact absurd hstarts hno
  · rintro rfl
    refine .inl ⟨rfl, .inr fun x y heq _ => ?_⟩
    exact (append_eq_nil_iff.mp heq.symm).2

/-- A `*` at the end takes the rest. -/
theorem finds_last : (⟨[0x2a], s, astk⟩ : Wildcard).Finds icase := by
  refine .inl ⟨?_, .inl ⟨0x2a, rfl, rfl⟩⟩
  exact (globMatches_gap wcStar_star).mpr ⟨s, [], (append_nil s).symm, rfl⟩

/-- Behind what has been read, the pattern does not match from a place behind if it does not match
anything there. -/
theorem finds_later (hinv : (⟨pattern, s, astk⟩ : Wildcard).Inv prev)
    (hno : ∀ e b, s = e ++ b → ¬GlobMatches WcStar (WcFits icase) pattern b) :
    ¬(⟨pattern, s, astk⟩ : Wildcard).Finds icase := by
  rintro (⟨hmatch, -⟩ | ⟨astk', astkS, heq, -, hmatch, -⟩)
  · exact hno [] s rfl hmatch
  · rcases hinv with hnone | ⟨u, hu, hastk, hs, -⟩
    · cases hnone.symm.trans heq
    · obtain ⟨rfl, rfl⟩ := Prod.mk.inj (some.inj (hastk.symm.trans heq))
      obtain ⟨e, b, hdrop, hb⟩ := globMatches_later wcStar_star hu hmatch
      exact hno e b (hs.symm.trans hdrop) hb

theorem finds_place (hne : pattern ≠ []) :
    (⟨pattern, s, some (pattern, s.tail)⟩ : Wildcard).Finds icase ↔
      GlobShortest WcStar (WcFits icase) (0x2a :: pattern) s := by
  rw [globShortest_gap wcStar_star hne]
  constructor
  · rintro (h | ⟨_, _, heq, h⟩)
    · exact .inl h
    · obtain ⟨rfl, rfl⟩ := Prod.mk.inj (some.inj heq)
      exact .inr h
  · rintro (h | h)
    · exact .inl h
    · exact .inr ⟨_, _, rfl, h⟩

/-- **A `*`** -/
theorem finds_star (hinv : (⟨0x2a :: pattern, s, astk⟩ : Wildcard).Inv prev)
    (hne : pattern ≠ []) :
    (⟨0x2a :: pattern, s, astk⟩ : Wildcard).Finds icase ↔
      (⟨pattern, s, some (pattern, s.tail)⟩ : Wildcard).Finds icase := by
  rw [finds_place hne]
  constructor
  · rintro (h | ⟨astk', astkS, heq, hno, hmatch, -⟩)
    · exact h
    rcases hinv with hnone | ⟨u, hu, hastk, hs, -⟩
    · cases hnone.symm.trans heq
    · obtain ⟨rfl, rfl⟩ := Prod.mk.inj (some.inj (hastk.symm.trans heq))
      obtain ⟨e, b, hdrop, hb⟩ := globMatches_later wcStar_star hu hmatch
      have hall : s = (e ++ b) ++ [] := by rw [append_nil, ← hdrop, hs]
      exact absurd ⟨_, _, hall, hb.gap_append wcStar_star e⟩ hno
  · exact .inl

/-- **A byte that fits** -/
theorem finds_fits (hch : ¬WcStar ch) (hfit : WcFits icase ch ch2) :
    (⟨ch :: pattern, ch2 :: s, astk⟩ : Wildcard).Finds icase ↔
      (⟨pattern, s, astk⟩ : Wildcard).Finds icase := by
  rw [Wildcard.Finds, Wildcard.Finds, globShortest_cons hch hfit, globStarts_cons hch,
    and_iff_right hfit]

/-- **A byte that does not fit**: the next place is tried. -/
theorem finds_back (hch : ¬WcStar ch) (hfit : ¬WcFits icase ch ch2)
    (hinv : (⟨ch :: pattern, ch2 :: s, some (pattern', s')⟩ : Wildcard).Inv prev) :
    (⟨ch :: pattern, ch2 :: s, some (pattern', s')⟩ : Wildcard).Finds icase ↔
      (⟨pattern', s', some (pattern', s'.tail)⟩ : Wildcard).Finds icase := by
  have hno : ¬GlobStarts WcStar (WcFits icase) (ch :: pattern) (ch2 :: s) := by
    rw [globStarts_cons hch]
    exact fun h => hfit h.1
  have hne : pattern' ≠ [] := by
    rcases hinv with hnone | ⟨u, -, hastk, -, -⟩
    · cases hnone
    · rw [(Prod.mk.inj (some.inj hastk)).1]
      exact append_ne_nil_of_right_ne_nil u (cons_ne_nil ch pattern)
  rw [finds_place hne]
  constructor
  · rintro (⟨hmatch, -⟩ | ⟨_, _, heq, -, h⟩)
    · exact absurd ⟨_, [], (append_nil _).symm, hmatch⟩ hno
    · obtain ⟨rfl, rfl⟩ := Prod.mk.inj (some.inj heq)
      exact h
  · exact fun h => .inr ⟨_, _, rfl, hno, h⟩

/-- How much is left of the string behind the last `*`. -/
def Wildcard.left (w : Wildcard) (prev : List UInt8) : ℕ :=
  if w.astk = none then w.s.length + 1 else prev.length

theorem inv_next (hch : ¬WcStar ch) (hinv : (⟨ch :: pattern, ch2 :: s, astk⟩ : Wildcard).Inv prev) :
    (⟨pattern, s, astk⟩ : Wildcard).Inv prev ∧
      (⟨pattern, s, astk⟩ : Wildcard).left prev ≤
        (⟨ch :: pattern, ch2 :: s, astk⟩ : Wildcard).left prev := by
  rcases hinv with hnone | ⟨u, hu, hastk, hs, hlen⟩
  · refine ⟨.inl hnone, ?_⟩
    rw [Wildcard.left, Wildcard.left, if_pos hnone, if_pos hnone]
    exact Nat.le_succ _
  refine ⟨.inr ⟨u ++ [ch], ?_, ?_, ?_, ?_⟩, ?_⟩
  · intro c hc
    rcases mem_append.mp hc with hc | hc
    · exact hu c hc
    · rwa [mem_singleton.mp hc]
  · rw [append_assoc, singleton_append]
    exact hastk
  · rw [length_append, length_singleton, ← drop_drop, hs]
    rfl
  · rw [length_append, length_singleton]
    have hpos := congrArg List.length hs
    rw [length_drop, length_cons] at hpos
    omega
  · have hsome : ¬astk = none := by
      rintro rfl
      cases hastk
    rw [Wildcard.left, Wildcard.left, if_neg hsome, if_neg hsome]

theorem inv_place (pattern s : List UInt8) :
    (⟨pattern, s, some (pattern, s.tail)⟩ : Wildcard).Inv s ∧
      (⟨pattern, s, some (pattern, s.tail)⟩ : Wildcard).left s = s.length := by
  refine ⟨.inr ⟨[], ?_, rfl, rfl, Nat.zero_le _⟩, if_neg ?_⟩
  · simp
  · exact some_ne_none _

/-- Less is left behind a `*`. -/
theorem left_star (hinv : (⟨ch :: pattern, s, astk⟩ : Wildcard).Inv prev) :
    s.length ≤ (⟨ch :: pattern, s, astk⟩ : Wildcard).left prev := by
  rcases hinv with hnone | ⟨u, -, hastk, hs, -⟩
  · rw [Wildcard.left, if_pos hnone]
    exact Nat.le_succ _
  have hsome : ¬astk = none := by
    rintro rfl
    cases hastk
  have hlen : s.length = prev.length - u.length := by
    rw [← length_drop]
    exact congrArg List.length hs.symm
  rw [Wildcard.left, if_neg hsome]
  omega

theorem left_back
    (hinv : (⟨ch :: pattern, ch2 :: s, some (pattern', s')⟩ : Wildcard).Inv prev) :
    s'.length < (⟨ch :: pattern, ch2 :: s, some (pattern', s')⟩ : Wildcard).left prev := by
  rcases hinv with hnone | ⟨u, -, hastk, hs, -⟩
  · cases hnone
  obtain ⟨-, rfl⟩ := Prod.mk.inj (some.inj hastk)
  have hlen : prev.length - u.length = s.length + 1 := by
    rw [← length_drop]
    exact congrArg List.length hs
  rw [Wildcard.left, if_neg (some_ne_none _), length_tail]
  omega

/-- **What `ffs_wildcard` returns** from a place that it comes to. First, what is left behind the
last `*` becomes less, then the pattern. -/
theorem wildcard_run (icase : Bool) (n : ℕ) : ∀ w prev, w.Inv prev → w.left prev ≤ n →
    ∃ r, RunEnds (wildcardMove icase) w [r] ∧ (r = 0 ↔ w.Finds icase) := by
  induction n using Nat.strong_induction_on with
  | _ n ihn =>
    rintro ⟨pattern, s, astk⟩ prev hinv hleft
    induction pattern generalizing s astk prev with
    | nil =>
      refine ⟨_, RunEnds.last rfl, ?_⟩
      rw [finds_nil hinv]
      by_cases hs : s = []
      · simp [hs]
      · simp [hs]
    | cons ch pattern ih =>
      by_cases hch : ch = 0x2a
      · subst hch
        by_cases hne : pattern = []
        · subst hne
          exact ⟨0, RunEnds.last rfl, iff_of_true rfl finds_last⟩
        have hmove : wildcardMove icase ⟨0x2a :: pattern, s, astk⟩ =
            ([], some ⟨pattern, s, some (pattern, s.tail)⟩) := by
          simp only [wildcardMove, if_true, if_neg hne]
        obtain ⟨hinv', hleft'⟩ := inv_place pattern s
        obtain ⟨r, hrun, hr⟩ := ih s (some (pattern, s.tail)) s hinv'
          (hleft'.trans_le (le_trans (left_star hinv) hleft))
        exact ⟨r, hrun.silent hmove, hr.trans (finds_star hinv hne).symm⟩
      have hstar : ¬WcStar ch := hch
      cases s with
      | nil =>
        refine ⟨1, RunEnds.last ?_, iff_of_false (by decide) (finds_later hinv ?_)⟩
        · simp only [wildcardMove, if_neg hch]
        · intro e b heq
          rw [(append_eq_nil_iff.mp heq.symm).2]
          exact not_globMatches_nil hstar
      | cons ch2 s =>
        by_cases hfit : WcFits icase ch ch2
        · have hmove : wildcardMove icase ⟨ch :: pattern, ch2 :: s, astk⟩ =
              ([], some ⟨pattern, s, astk⟩) := by
            simp only [wildcardMove, if_neg hch]
            exact if_pos hfit
          obtain ⟨hinv', hless⟩ := inv_next hch hinv
          obtain ⟨r, hrun, hr⟩ := ih s astk prev hinv' (le_trans hless hleft)
          exact ⟨r, hrun.silent hmove, hr.trans (finds_fits hch hfit).symm⟩
        cases astk with
        | none =>
          refine ⟨1, RunEnds.last ?_, iff_of_false (by decide) ?_⟩
          · simp only [wildcardMove, if_neg hch]
            exact if_neg hfit
          · rintro (⟨hmatch, -⟩ | ⟨_, _, heq, -⟩)
            · exact hfit ((globMatches_cons hstar).mp hmatch).1
            · cases heq
        | some place =>
          obtain ⟨pattern', s'⟩ := place
          have hmove : wildcardMove icase
              ⟨ch :: pattern, ch2 :: s, some (pattern', s')⟩ =
              ([], some ⟨pattern', s', some (pattern', s'.tail)⟩) := by
            simp only [wildcardMove, if_neg hch]
            exact if_neg hfit
          obtain ⟨hinv', hleft'⟩ := inv_place pattern' s'
          obtain ⟨r, hrun, hr⟩ := ihn s'.length (lt_of_lt_of_le (left_back hinv) hleft)
            _ s' hinv' (le_of_eq hleft')
          exact ⟨r, hrun.silent hmove, hr.trans (finds_back hch hfit hinv).symm⟩

end Loop

/-! ### Results -/

/-- A beginning of the string that is not the whole of it is matched as well. -/
def WcEarly (icase : Bool) (pattern s : List UInt8) : Prop :=
  ∃ x y, s = x ++ y ∧ y ≠ [] ∧ WcMatches icase pattern x

/-- **When `ffs_wildcard` is right**: unless the pattern, without a `*` at its end, matches the
string and a shorter beginning of it. -/
theorem ffsWildcard_iff (icase : Bool) (pattern s : List UInt8) :
    ∃ r, FfsWildcard icase pattern s r ∧
      ((r = 0 ↔ WcMatches icase pattern s) ↔
        (pattern.getLast? = some 0x2a ∨
          ¬(WcMatches icase pattern s ∧ WcEarly icase pattern s))) := by
  obtain ⟨r, hrun, hr⟩ := wildcard_run icase (s.length + 1) ⟨pattern, s, none⟩ [] (.inl rfl)
    (le_refl _)
  refine ⟨r, hrun, ?_⟩
  have hfinds : (⟨pattern, s, none⟩ : Wildcard).Finds icase ↔
      GlobShortest WcStar (WcFits icase) pattern s := by
    constructor
    · rintro (h | ⟨_, _, heq, -⟩)
      · exact h
      · cases heq
    · exact .inl
  have hend : EndsGap WcStar pattern ↔ pattern.getLast? = some 0x2a := by
    rw [EndsGap]
    constructor
    · rintro ⟨t, ht, rfl⟩
      exact ht
    · exact fun h => ⟨0x2a, h, rfl⟩
  have hearly : (∀ x y, s = x ++ y → GlobMatches WcStar (WcFits icase) pattern x → y = []) ↔
      ¬WcEarly icase pattern s := by
    constructor
    · rintro h ⟨x, y, heq, hne, hx⟩
      exact hne (h x y heq hx)
    · intro h x y heq hx
      by_contra hne
      exact h ⟨x, y, heq, hne, hx⟩
  rw [hr, hfinds, GlobShortest, hend, hearly]
  tauto

/-- The first place of `a` is not the end of the string. -/
theorem ffsWildcard_early :
    ¬∀ (icase : Bool) (pattern s : List UInt8) (r : ℕ), FfsWildcard icase pattern s r →
      (r = 0 ↔ WcMatches icase pattern s) := by
  intro h
  have hrun : FfsWildcard false (ascii "*a") (ascii "aba") 1 := by
    refine ⟨8, fun fuel hfuel => ?_⟩
    obtain ⟨k, rfl⟩ := Nat.exists_eq_add_of_le hfuel
    rw [Nat.add_comm]
    rfl
  have hlast : GlobMatches WcStar (WcFits false) [0x61] [0x61] :=
    (globMatches_cons (show ¬WcStar 0x61 by rw [WcStar]; decide)).mpr ⟨.inr rfl, rfl⟩
  have hmatch : WcMatches false (ascii "*a") (ascii "aba") :=
    (globMatches_gap wcStar_star).mpr ⟨[0x61, 0x62], [0x61], rfl, hlast⟩
  exact absurd ((h false _ _ 1 hrun).mpr hmatch) (by decide)

end FF
