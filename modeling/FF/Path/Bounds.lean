import FF.Path.Norm

/-!
# Paths within bounds

With `FFPATH_STRICT_BOUNDS` a path must not go above the place where it starts, not even for a
moment: `ffpath_norm` counts the names, `..` backwards, and fails when the count is below zero. The
slash at the beginning, slashes in a row and the names `.` do not count.
-/

namespace FF

namespace Path

open List

/-! ### The height of a path -/

/-- The names of a path. -/
def namesOf (path : List UInt8) : List (List UInt8) :=
  (Split.parts (· == SLASH) [] path).map Prod.fst

/-- A name that goes down. -/
def isOrdinary (name : List UInt8) : Bool :=
  name != [] && name != [DOT] && name != [DOT, DOT]

/-- Behind some of the names, from the height `lev` on, there were more `..` than ordinary ones. -/
def ClimbsFrom (lev : ℤ) (names : List (List UInt8)) : Prop :=
  ∃ pre, pre <+: names ∧ lev + pre.countP isOrdinary < pre.count [DOT, DOT]

/-- **The path goes above its start.** -/
def Climbs (path : List UInt8) : Prop :=
  ∃ pre, pre <+: namesOf path ∧ pre.countP isOrdinary < pre.count [DOT, DOT]

/-- What a name adds to the height. -/
def nameHeight (name : List UInt8) : ℤ :=
  if isOrdinary name then 1 else if name = [DOT, DOT] then -1 else 0

theorem climbs_iff (path : List UInt8) : Climbs path ↔ ClimbsFrom 0 (namesOf path) := by
  constructor
  · rintro ⟨pre, hpre, hlt⟩
    exact ⟨pre, hpre, by omega⟩
  · rintro ⟨pre, hpre, hlt⟩
    exact ⟨pre, hpre, by omega⟩

theorem climbsFrom_nil {lev : ℤ} (hlev : 0 ≤ lev) : ¬ClimbsFrom lev [] := by
  rintro ⟨pre, hpre, hlt⟩
  rw [prefix_nil.mp hpre, countP_nil, count_nil] at hlt
  omega

theorem count_nameHeight (lev : ℤ) (name : List UInt8) (pre : List (List UInt8)) :
    lev + (name :: pre).countP isOrdinary < (name :: pre).count [DOT, DOT] ↔
      lev + nameHeight name + pre.countP isOrdinary < pre.count [DOT, DOT] := by
  rw [nameHeight]
  cases hord : isOrdinary name with
  | true =>
    have hne : (name == [DOT, DOT]) = false := by
      rw [isOrdinary, Bool.and_eq_true, bne_iff_ne] at hord
      exact beq_eq_false_iff_ne.mpr hord.2
    rw [countP_cons_of_pos hord, count_cons, hne, if_neg Bool.false_ne_true, if_pos rfl]
    omega
  | false =>
    rw [countP_cons_of_neg (by rw [hord]; exact Bool.false_ne_true), count_cons,
      if_neg Bool.false_ne_true]
    by_cases hdd : name = [DOT, DOT]
    · rw [if_pos hdd, if_pos (beq_iff_eq.mpr hdd)]
      omega
    · rw [if_neg hdd, if_neg (by simpa using hdd)]
      omega

/-- **A name more**: the path is below its start behind it, and it does not climb from there. -/
theorem climbsFrom_cons {lev : ℤ} (hlev : 0 ≤ lev) (name : List UInt8)
    (names : List (List UInt8)) :
    ClimbsFrom lev (name :: names) ↔
      lev + nameHeight name < 0 ∨ ClimbsFrom (lev + nameHeight name) names := by
  constructor
  · rintro ⟨pre, hpre, hlt⟩
    cases pre with
    | nil =>
      rw [countP_nil, count_nil] at hlt
      omega
    | cons name' pre =>
      obtain ⟨rfl, hpre'⟩ := cons_prefix_cons.mp hpre
      exact .inr ⟨pre, hpre', (count_nameHeight lev name' pre).mp hlt⟩
  rintro (hlt | ⟨pre, hpre, hlt⟩)
  · refine ⟨[name], ?_, (count_nameHeight lev name []).mpr ?_⟩
    · exact cons_prefix_cons.mpr ⟨rfl, nil_prefix⟩
    · rw [countP_nil, count_nil]
      omega
  · exact ⟨name :: pre, cons_prefix_cons.mpr ⟨rfl, hpre⟩,
      (count_nameHeight lev name pre).mpr hlt⟩

/-! ### The loop -/

/-- `FFPATH_STRICT_BOUNDS`, without `FFPATH_WINDOWS` and `FFPATH_TOREL`. -/
structure StrictFlags (flags : PathFlags) : Prop where
  strictBounds : flags.strictBounds = true
  mergeslash : flags.mergeslash = true
  windows : flags.windows = false
  torel : flags.torel = false

section Loop

variable {flags : PathFlags} {cap : ℕ} {abs : Bool} {v : NormVars} {name : List UInt8}
  {slash : Option UInt8}

theorem StrictFlags.isSlash (hf : StrictFlags flags) : isSlash flags = (· == SLASH) := by
  funext ch
  rw [Path.isSlash, hf.windows, Bool.false_and, Bool.or_false]

theorem StrictFlags.orDefault (hf : StrictFlags flags) : flags.orDefault = flags := by
  have hne : flags ≠ {} := by
    rintro rfl
    cases hf.strictBounds
  exact if_neg hne

theorem copyName_lev (h : v.dst.length + (name ++ slash.toList).length ≤ cap) :
    ∃ v', copyName flags cap v name slash = .ok v' ∧ v'.lev = v.lev ∧ v'.root = v.root := by
  rw [length_append, ← Nat.add_assoc] at h
  exact ⟨_, copyName_of_le h, rfl, rfl⟩

/-- The name `..` -/
theorem caseDotdot_strict (hf : StrictFlags flags) (hroot : v.root = false)
    (hcap : v.dst.length + (name ++ slash.toList).length ≤ cap) :
    if v.lev - 1 < 0 then caseDotdot flags cap abs v name slash = .error .zero
    else ∃ v', caseDotdot flags cap abs v name slash = .ok v' ∧ v'.lev = v.lev - 1 ∧
      v'.root = false := by
  rw [caseDotdot]
  simp only [hf.strictBounds, hf.torel, true_and, Bool.false_eq_true, if_false]
  by_cases hlt : v.lev - 1 < 0
  · simp only [if_pos hlt]
  simp only [if_neg hlt]
  cases flags.mergedots with
  | true => exact ⟨_, rfl, rfl, hroot⟩
  | false =>
    obtain ⟨v', hcopy, hlev', hroot'⟩ :=
      @copyName_lev flags cap { v with lev := v.lev - 1 } name slash hcap
    exact ⟨v', hcopy, hlev', hroot'.trans hroot⟩

/-- **A name** fails when the path is above its start behind it, and else it is counted. -/
theorem normName_strict (hf : StrictFlags flags) (hroot : v.root = false) (hlev : 0 ≤ v.lev)
    (hnul : (0 : UInt8) ∉ name) (hcap : v.dst.length + (name ++ slash.toList).length ≤ cap) :
    if v.lev + nameHeight name < 0 then normName flags cap abs false v name slash = .error .zero
    else ∃ v', normName flags cap abs false v name slash = .ok v' ∧
      v'.lev = v.lev + nameHeight name ∧ v'.root = false := by
  rw [normName]
  by_cases hnil : name = []
  · have hheight : nameHeight name = 0 := by
      rw [hnil]
      rfl
    rw [hheight, Int.add_zero, if_neg (Int.not_lt.mpr hlev), if_pos ⟨hf.mergeslash, hnil, rfl⟩]
    exact ⟨v, rfl, rfl, hroot⟩
  have hskip : ¬(flags.mergeslash = true ∧ name = [] ∧ (!false) = true) := fun h => hnil h.2.1
  rw [if_neg hskip]
  by_cases hdot : name = [DOT]
  · have hheight : nameHeight name = 0 := by
      rw [hdot]
      rfl
    rw [hheight, Int.add_zero, if_neg (Int.not_lt.mpr hlev), if_pos hdot]
    split_ifs
    · exact ⟨v, rfl, rfl, hroot⟩
    · obtain ⟨v', hcopy, hlev', hroot'⟩ := copyName_lev hcap
      exact ⟨v', hcopy, hlev', hroot'.trans hroot⟩
  rw [if_neg hdot]
  by_cases hdd : name = [DOT, DOT]
  · have hheight : nameHeight name = -1 := by
      rw [hdd]
      rfl
    rw [hheight, if_pos hdd]
    exact caseDotdot_strict hf hroot hcap
  have hheight : nameHeight name = 1 := by
    have hord : isOrdinary name = true := by
      rw [isOrdinary, bne_iff_ne.mpr hnil, bne_iff_ne.mpr hdot, bne_iff_ne.mpr hdd]
      rfl
    rw [nameHeight, if_pos hord]
  have hbad : badName flags name = false := by
    rw [badName, hf.windows, if_neg Bool.false_ne_true, contains_eq_mem]
    exact decide_eq_false hnul
  rw [hheight, if_neg (by omega), if_neg hdd, hroot, if_neg Bool.false_ne_true, hbad,
    if_neg Bool.false_ne_true]
  obtain ⟨v', hcopy, hlev', hroot'⟩ :=
    @copyName_lev flags cap ⟨v.dst, v.lev + 1, false⟩ name slash hcap
  exact ⟨v', hcopy, hlev', hroot'⟩

/-- **The loop** fails just when the path goes above its start. -/
theorem normLoop_strict (hf : StrictFlags flags) {ps : List (List UInt8 × Option UInt8)}
    (hroot : v.root = false) (hlev : 0 ≤ v.lev) (hnul : (0 : UInt8) ∉ Split.join ps)
    (hcap : v.dst.length + (Split.join ps).length ≤ cap) :
    (normLoop flags cap abs false v ps = .error .zero ∧ ClimbsFrom v.lev (ps.map Prod.fst)) ∨
      ((∃ v', normLoop flags cap abs false v ps = .ok v') ∧
        ¬ClimbsFrom v.lev (ps.map Prod.fst)) := by
  induction ps generalizing v with
  | nil => exact .inr ⟨⟨v, rfl⟩, climbsFrom_nil hlev⟩
  | cons p ps ih =>
    obtain ⟨name, slash⟩ := p
    rw [Split.join_cons] at hnul hcap
    rw [length_append] at hcap
    simp only [mem_append, not_or] at hnul
    have hroom : v.dst.length + (name ++ slash.toList).length ≤ cap := by
      dsimp only at hcap
      omega
    have hname := @normName_strict flags cap abs v name slash hf hroot hlev hnul.1.1 hroom
    rw [map_cons, climbsFrom_cons hlev, normLoop]
    dsimp only at hcap ⊢
    by_cases hlt : v.lev + nameHeight name < 0
    · rw [if_pos hlt] at hname
      rw [hname]
      exact .inl ⟨rfl, .inl hlt⟩
    rw [if_neg hlt] at hname
    obtain ⟨v', hv', hlev', hroot'⟩ := hname
    have hlen := normName_length hv'
    have hrest := ih hroot' (by rw [hlev']; omega) hnul.2 (by omega)
    rw [hlev'] at hrest
    rw [hv']
    rcases hrest with ⟨hloop, hclimbs⟩ | ⟨hloop, hclimbs⟩
    · exact .inl ⟨hloop, .inr hclimbs⟩
    · exact .inr ⟨hloop, fun h => h.elim hlt hclimbs⟩

theorem normName_firstSlash (hf : StrictFlags flags) (hcap : 1 ≤ cap) (ch : UInt8) :
    normName flags cap true true ⟨[], 0, true⟩ [] (some ch) =
      .ok ⟨[slashByte flags ch], 0, false⟩ := by
  have hskip : ¬(flags.mergeslash = true ∧ ([] : List UInt8) = [] ∧ (!true) = true) :=
    fun h => Bool.false_ne_true h.2.2
  rw [normName, if_neg hskip, if_neg (by decide), if_neg (by decide), if_pos rfl, hf.torel,
    if_neg Bool.false_ne_true]
  exact copyName_of_le hcap

end Loop

/-! ### Main result -/

/-- What `ffpath_norm` returns; `none` where it writes outside of the destination. -/
def normReturn : Except NormStop (List UInt8) → Option ℕ
  | .ok dst => some dst.length
  | .error .zero => some 0
  | .error .fault => none

/-- **A path is refused** just when it goes above its start. -/
theorem ffpathNorm_strict {flags : PathFlags} (hf : StrictFlags flags) {path : List UInt8}
    (hpath : path ≠ []) (hnul : (0 : UInt8) ∉ path) {cap : ℕ} (hcap : path.length ≤ cap) :
    ∃ n, normReturn (ffpathNorm cap path flags) = some n ∧ (n = 0 ↔ Climbs path) := by
  have hloop : (normLoop flags cap (isAbs flags path) true ⟨[], 0, isAbs flags path⟩
        (Split.parts (isSlash flags) [] path) = .error .zero ∧ Climbs path) ∨
      ((∃ v', normLoop flags cap (isAbs flags path) true ⟨[], 0, isAbs flags path⟩
        (Split.parts (isSlash flags) [] path) = .ok v') ∧ ¬Climbs path) := by
    rw [climbs_iff, namesOf]
    cases habs : isAbs flags path with
    | false =>
      rw [normLoop_first (head_parts_of_not_isAbs habs), hf.isSlash]
      refine @normLoop_strict flags cap false ⟨[], 0, false⟩ hf _ rfl le_rfl ?_ ?_
      · rwa [Split.join_parts]
      · rw [Split.join_parts, length_nil, Nat.zero_add]
        exact hcap
    | true =>
      obtain ⟨rest, rfl⟩ : ∃ rest, path = SLASH :: rest := by
        rw [isAbs, hf.windows, Bool.false_and, Bool.or_false, beq_iff_eq] at habs
        cases path with
        | nil => cases habs
        | cons c rest => exact ⟨rest, by rw [Option.some.inj habs]⟩
      rw [length_cons] at hcap
      have hroot := normName_firstSlash hf ((Nat.le_add_left 1 _).trans hcap) SLASH
      have hparts : Split.parts (fun ch => ch == SLASH) [] (SLASH :: rest) =
          ([], some SLASH) :: Split.parts (fun ch => ch == SLASH) [] rest :=
        @Split.parts_cons_sep _ (fun ch => ch == SLASH) SLASH rfl [] rest
      rw [hf.isSlash, hparts, normLoop, hroot, map_cons, climbsFrom_cons le_rfl]
      have hheight : nameHeight [] = 0 := rfl
      have hrest := @normLoop_strict flags cap true ⟨[slashByte flags SLASH], 0, false⟩ hf
        (Split.parts (· == SLASH) [] rest) rfl le_rfl
        (by rw [Split.join_parts]; exact fun h => hnul (mem_cons_of_mem _ h))
        (by rw [Split.join_parts, length_singleton, nil_append]; omega)
      rw [hheight]
      rcases hrest with ⟨hloop, hclimbs⟩ | ⟨hloop, hclimbs⟩
      · exact .inl ⟨hloop, .inr hclimbs⟩
      · exact .inr ⟨hloop, fun h => h.elim (lt_irrefl 0) hclimbs⟩
  rw [ffpathNorm, hf.orDefault]
  rcases hloop with ⟨hzero, hclimbs⟩ | ⟨⟨v, hv⟩, hclimbs⟩
  · rw [hzero]
    exact ⟨0, rfl, iff_of_true rfl hclimbs⟩
  rw [hv]
  by_cases hempty : v.dst = []
  · have hroom : ([] : List UInt8).length + [DOT].length ≤ cap :=
      (length_pos_of_ne_nil hpath).trans_le hcap
    refine ⟨1, ?_, iff_of_false Nat.one_ne_zero hclimbs⟩
    show normReturn (if v.dst = [] ∧ path ≠ [] then _ else _) = _
    rw [if_pos ⟨hempty, hpath⟩, hempty, writeDst, if_pos hroom]
    rfl
  · refine ⟨v.dst.length, ?_, iff_of_false (length_pos_of_ne_nil hempty).ne' hclimbs⟩
    show normReturn (if v.dst = [] ∧ path ≠ [] then _ else _) = _
    rw [if_neg fun h => hempty h.1]
    rfl

/-- A path that comes back below its start. -/
theorem ffpathNorm_strict_dotdot :
    ∃ n, normReturn (ffpathNorm 13 (ascii "/./a//../../b")
        { strictBounds := true, mergeslash := true }) = some n ∧
      (n = 0 ↔ Climbs (ascii "/./a//../../b")) :=
  ffpathNorm_strict ⟨rfl, rfl, rfl, rfl⟩ (by decide) (by decide) (by decide)

end Path

end FF
