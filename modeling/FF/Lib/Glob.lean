import Mathlib.Data.List.Basic

/-!
# Patterns with gaps

A pattern is a list of marks. Some marks stand for any string, the others for one element that fits.
A search that takes the first place where the marks behind a gap fit, and never comes back to a gap
in front of the last one, finds the shortest beginning of a string that the pattern matches.

## Main results

* `GlobStarts.shorter`: the first place gives the shortest beginning.
* `globShortest_gap`: how such a search goes on behind a gap.
* `globMatches_later`: a later place is behind the marks that have been read.
-/

namespace FF

open List

variable {τ α : Type} (gap : τ → Prop) (fits : τ → α → Prop)

/-- **The pattern matches the string.** -/
def GlobMatches : List τ → List α → Prop
  | [], s => s = []
  | t :: p, s =>
    (gap t ∧ ∃ x y, s = x ++ y ∧ GlobMatches p y) ∨
      (¬gap t ∧ ∃ c y, s = c :: y ∧ fits t c ∧ GlobMatches p y)

/-- A beginning of the string is matched. -/
def GlobStarts (p : List τ) (s : List α) : Prop := ∃ x y, s = x ++ y ∧ GlobMatches gap fits p x

/-- The pattern ends with a gap. -/
def EndsGap (p : List τ) : Prop := ∃ t ∈ p.getLast?, gap t

/-- **The string is the shortest beginning of itself that is matched**, if there is no gap at the
end. -/
def GlobShortest (p : List τ) (s : List α) : Prop :=
  GlobMatches gap fits p s ∧
    (EndsGap gap p ∨ ∀ x y, s = x ++ y → GlobMatches gap fits p x → y = [])

variable {gap fits} {t : τ} {p u : List τ} {s x y v : List α} {c : α}

/-! ### Single marks -/

theorem globMatches_gap (ht : gap t) :
    GlobMatches gap fits (t :: p) s ↔ ∃ x y, s = x ++ y ∧ GlobMatches gap fits p y := by
  rw [GlobMatches]
  exact ⟨fun h => h.resolve_right (fun h' => h'.1 ht) |>.2, fun h => .inl ⟨ht, h⟩⟩

theorem globMatches_one (ht : ¬gap t) :
    GlobMatches gap fits (t :: p) s ↔ ∃ c y, s = c :: y ∧ fits t c ∧ GlobMatches gap fits p y := by
  rw [GlobMatches]
  exact ⟨fun h => h.resolve_left (fun h' => ht h'.1) |>.2, fun h => .inr ⟨ht, h⟩⟩

theorem globMatches_cons (ht : ¬gap t) :
    GlobMatches gap fits (t :: p) (c :: s) ↔ fits t c ∧ GlobMatches gap fits p s := by
  rw [globMatches_one ht]
  constructor
  · rintro ⟨c', y, heq, hfit, hp⟩
    obtain ⟨rfl, rfl⟩ := List.cons.inj heq
    exact ⟨hfit, hp⟩
  · exact fun h => ⟨c, s, rfl, h⟩

theorem not_globMatches_nil (ht : ¬gap t) : ¬GlobMatches gap fits (t :: p) ([] : List α) := by
  rw [globMatches_one ht]
  rintro ⟨c, y, heq, -⟩
  cases heq

/-- A gap takes what lies in front, too. -/
theorem GlobMatches.gap_append (ht : gap t) (h : GlobMatches gap fits (t :: p) s) (x : List α) :
    GlobMatches gap fits (t :: p) (x ++ s) := by
  rw [globMatches_gap ht] at h ⊢
  obtain ⟨a, y, rfl, hp⟩ := h
  exact ⟨x ++ a, y, (append_assoc x a y).symm, hp⟩

theorem GlobMatches.gap_cons (ht : gap t) (h : GlobMatches gap fits (t :: p) s) (c : α) :
    GlobMatches gap fits (t :: p) (c :: s) := h.gap_append ht [c]

/-- A gap may be empty. -/
theorem GlobMatches.gap_nil (ht : gap t) (h : GlobMatches gap fits p s) :
    GlobMatches gap fits (t :: p) s := (globMatches_gap ht).mpr ⟨[], s, rfl, h⟩

theorem endsGap_cons (t : τ) (hp : p ≠ []) : EndsGap gap (t :: p) ↔ EndsGap gap p := by
  obtain ⟨a, q, rfl⟩ := exists_cons_of_ne_nil hp
  rw [EndsGap, EndsGap, getLast?_cons_cons]

/-- A gap at the end takes the rest of the string. -/
theorem GlobStarts.of_endsGap (hend : EndsGap gap p) (h : GlobStarts gap fits p s) :
    GlobMatches gap fits p s := by
  obtain ⟨x, y, rfl, hp⟩ := h
  induction p generalizing x with
  | nil =>
    obtain ⟨t, ht, -⟩ := hend
    cases ht
  | cons t p ih =>
    by_cases hnil : p = []
    · subst hnil
      obtain ⟨t', ht', hgap⟩ := hend
      obtain rfl : t = t' := Option.some.inj ht'
      exact (globMatches_gap hgap).mpr ⟨x ++ y, [], (append_nil _).symm, rfl⟩
    rw [endsGap_cons t hnil] at hend
    by_cases ht : gap t
    · obtain ⟨a, b, rfl, hb⟩ := (globMatches_gap ht).mp hp
      rw [append_assoc]
      exact (GlobMatches.gap_nil ht (ih hend b hb)).gap_append ht a
    · obtain ⟨c, b, rfl, hfit, hb⟩ := (globMatches_one ht).mp hp
      rw [cons_append]
      exact (globMatches_cons ht).mpr ⟨hfit, ih hend b hb⟩

/-! ### The first place -/

/-- **The first place gives the shortest beginning**: what is matched from a later place on does not
end in front of it. -/
theorem GlobStarts.shorter (h : GlobStarts gap fits p (x ++ (y ++ v)))
    (hy : GlobMatches gap fits p y) :
    ∃ a b, x ++ (y ++ v) = a ++ b ∧ GlobMatches gap fits p a ∧ v.length ≤ b.length := by
  induction p generalizing x y with
  | nil =>
    refine ⟨[], x ++ (y ++ v), rfl, rfl, ?_⟩
    rw [length_append, length_append]
    omega
  | cons t p ih =>
    by_cases ht : gap t
    · exact ⟨x ++ y, v, (append_assoc x y v).symm, hy.gap_append ht x, Nat.le_refl _⟩
    obtain ⟨a, b, heq, ha⟩ := h
    obtain ⟨c, a, rfl, hfit, ha'⟩ := (globMatches_one ht).mp ha
    obtain ⟨d, y, rfl, -, hy'⟩ := (globMatches_one ht).mp hy
    have hnext : ∃ x', x ++ (d :: y ++ v) = c :: (x' ++ (y ++ v)) ∧
        a ++ b = x' ++ (y ++ v) := by
      cases x with
      | nil =>
        obtain ⟨rfl, htail⟩ := List.cons.inj heq
        exact ⟨[], rfl, htail.symm⟩
      | cons c' x =>
        obtain ⟨rfl, htail⟩ := List.cons.inj heq
        refine ⟨x ++ [d], ?_, ?_⟩
        · simp
        · have hsame : x ++ (d :: y ++ v) = a ++ b := htail
          rw [← hsame]
          simp
    obtain ⟨x', hsplit, hrest⟩ := hnext
    obtain ⟨a', b', heq', ha'', hlen⟩ := @ih x' y ⟨a, b, hrest.symm, ha'⟩ hy'
    refine ⟨c :: a', b', ?_, (globMatches_cons ht).mpr ⟨hfit, ha''⟩, hlen⟩
    rw [hsplit, heq', cons_append]

/-- **How the search goes on behind a gap**: the place is right if the pattern behind the gap
matches there; else the next place is tried. -/
theorem globShortest_gap (ht : gap t) (hp : p ≠ []) :
    GlobShortest gap fits (t :: p) s ↔ GlobShortest gap fits p s ∨
      (¬GlobStarts gap fits p s ∧ GlobShortest gap fits (t :: p) s.tail) := by
  rw [GlobShortest, GlobShortest, GlobShortest, endsGap_cons t hp]
  constructor
  · rintro ⟨hmatch, hshort⟩
    by_cases hstarts : GlobStarts gap fits p s
    · left
      rcases hshort with hend | hshort
      · exact ⟨hstarts.of_endsGap hend, .inl hend⟩
      · obtain ⟨x, y, rfl, hx⟩ := hstarts
        obtain rfl := hshort x y rfl (hx.gap_nil ht)
        rw [append_nil] at hshort ⊢
        exact ⟨hx, .inr fun a b heq ha => hshort a b heq (ha.gap_nil ht)⟩
    right
    refine ⟨hstarts, ?_⟩
    obtain ⟨x, y, rfl, hy⟩ := (globMatches_gap ht).mp hmatch
    cases x with
    | nil => exact absurd ⟨y, [], (append_nil y).symm, hy⟩ hstarts
    | cons c x =>
      refine ⟨(hy.gap_nil ht).gap_append ht x, hshort.imp_right ?_⟩
      intro hshort a b heq ha
      refine hshort (c :: a) b ?_ (ha.gap_cons ht c)
      rw [cons_append, cons_append]
      exact congrArg (c :: ·) heq
  rintro (⟨hmatch, hshort⟩ | ⟨hno, hmatch, hshort⟩)
  · refine ⟨hmatch.gap_nil ht, hshort.imp_right ?_⟩
    intro hshort a b heq ha
    obtain ⟨x, y, rfl, hy⟩ := (globMatches_gap ht).mp ha
    rw [append_assoc] at heq
    obtain ⟨a', b', heq', ha', hlen⟩ := GlobStarts.shorter
      (⟨s, [], heq.symm.trans (append_nil s).symm, hmatch⟩ :
        GlobStarts gap fits p (x ++ (y ++ b))) hy
    obtain rfl := hshort a' b' (heq.trans heq') ha'
    exact length_eq_zero_iff.mp (Nat.le_zero.mp hlen)
  cases s with
  | nil => exact ⟨hmatch, hshort⟩
  | cons c s =>
    refine ⟨hmatch.gap_cons ht c, hshort.imp_right ?_⟩
    intro hshort a b heq ha
    obtain ⟨x, y, rfl, hy⟩ := (globMatches_gap ht).mp ha
    cases x with
    | nil => exact absurd ⟨y, b, heq, hy⟩ hno
    | cons c' x =>
      rw [cons_append, cons_append] at heq
      exact hshort (x ++ y) b (List.cons.inj heq).2 ((hy.gap_nil ht).gap_append ht x)

theorem globStarts_cons (ht : ¬gap t) :
    GlobStarts gap fits (t :: p) (c :: s) ↔ fits t c ∧ GlobStarts gap fits p s := by
  constructor
  · rintro ⟨x, y, heq, hx⟩
    obtain ⟨d, x, rfl, hfit, hx'⟩ := (globMatches_one ht).mp hx
    obtain ⟨rfl, rfl⟩ := List.cons.inj heq
    exact ⟨hfit, x, y, rfl, hx'⟩
  · rintro ⟨hfit, x, y, rfl, hx⟩
    exact ⟨c :: x, y, rfl, (globMatches_cons ht).mpr ⟨hfit, hx⟩⟩

/-- **A mark that fits** is read. -/
theorem globShortest_cons (ht : ¬gap t) (hfit : fits t c) :
    GlobShortest gap fits (t :: p) (c :: s) ↔ GlobShortest gap fits p s := by
  have hend : EndsGap gap (t :: p) ↔ EndsGap gap p := by
    by_cases hp : p = []
    · subst hp
      refine iff_of_false ?_ ?_
      · rintro ⟨t', ht', hgap⟩
        obtain rfl : t = t' := Option.some.inj ht'
        exact ht hgap
      · rintro ⟨t', ht', -⟩
        cases ht'
    · exact endsGap_cons t hp
  rw [GlobShortest, GlobShortest, globMatches_cons ht, hend, and_iff_right hfit]
  refine and_congr_right fun _ => or_congr_right ⟨?_, ?_⟩
  · intro h x y heq hx
    exact h (c :: x) y (congrArg (c :: ·) heq) ((globMatches_cons ht).mpr ⟨hfit, hx⟩)
  · intro h x y heq hx
    obtain ⟨d, x, rfl, -, hx'⟩ := (globMatches_one ht).mp hx
    exact h x y (List.cons.inj heq).2 hx'

/-- The marks in front of the last gap take as many elements as they are. -/
theorem globMatches_ones (hu : ∀ t ∈ u, ¬gap t) (h : GlobMatches gap fits (u ++ p) s) :
    ∃ a b, s = a ++ b ∧ a.length = u.length ∧ GlobMatches gap fits p b := by
  induction u generalizing s with
  | nil => exact ⟨[], s, rfl, rfl, h⟩
  | cons t u ih =>
    rw [forall_mem_cons] at hu
    obtain ⟨c, y, rfl, -, hy⟩ := (globMatches_one hu.1).mp h
    obtain ⟨a, b, rfl, hlen, hb⟩ := ih hu.2 hy
    exact ⟨c :: a, b, rfl, congrArg Nat.succ hlen, hb⟩

/-- **A later place**: where marks without a gap have been read from a place on, what the pattern
matches from a later place on lies behind what has been read. -/
theorem globMatches_later (ht : gap t) (hu : ∀ t ∈ u, ¬gap t) {prev : List α}
    (h : GlobMatches gap fits (t :: (u ++ p)) prev.tail) :
    ∃ e b, prev.drop u.length = e ++ b ∧ GlobMatches gap fits p b := by
  obtain ⟨x, y, hxy, hy⟩ := (globMatches_gap ht).mp h
  obtain ⟨a, b, rfl, hlen, hb⟩ := globMatches_ones hu hy
  cases prev with
  | nil =>
    have hnil : x ++ (a ++ b) = [] := hxy.symm
    rw [append_eq_nil_iff, append_eq_nil_iff] at hnil
    rw [hnil.2.2] at hb
    exact ⟨[], [], drop_nil, hb⟩
  | cons c prev =>
    have hprev : c :: prev = (c :: (x ++ a)) ++ b := by
      rw [cons_append, append_assoc]
      exact congrArg (c :: ·) hxy
    refine ⟨(c :: (x ++ a)).drop u.length, b, ?_, hb⟩
    rw [hprev, drop_append_of_le_length]
    rw [length_cons, length_append]
    omega

end FF
