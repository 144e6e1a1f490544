import FF.Path.Norm

/-!
# Relative paths

With `FFPATH_TOREL` the root of a path is left out, and a name `..` throws away what has been
written so far. The names behind the last `..` make the output.
-/

namespace FF

namespace Path

/-- A slash in the output: the backslash is one where slashes are written so. -/
def isOutSlash (flags : PathFlags) (ch : UInt8) : Bool :=
  isSlash flags ch || (flags.forcebkslash && !flags.forceslash && ch == BKSLASH)

/-- The path does not begin with a slash and has no `..` between slashes. -/
def StaysBelow (flags : PathFlags) (dst : List UInt8) : Prop :=
  (∀ ch, dst.head? = some ch → isOutSlash flags ch = false) ∧
    [DOT, DOT] ∉ (Split.parts (isOutSlash flags) [] dst).map Prod.fst

/-- The names behind the last `..`. -/
def behindDotdot : List (List UInt8 × Option UInt8) → List (List UInt8 × Option UInt8)
  | [] => []
  | p :: ps => if [DOT, DOT] ∈ (p :: ps).map Prod.fst then behindDotdot ps else p :: ps

/-- A name that is not merged. -/
def keepName (flags : PathFlags) (p : List UInt8 × Option UInt8) : Bool :=
  !(flags.mergeslash && p.1 == []) && !(flags.mergedots && p.1 == [DOT])

/-- The names that make the output. -/
def keptNames (flags : PathFlags) (path : List UInt8) : List (List UInt8 × Option UInt8) :=
  (behindDotdot (namesBelowRoot flags path)).filter (keepName flags)

/-- The first of the names is not empty and does not begin with a slash of the output, and no name
has a `..` between slashes of the output. -/
def NamesBelow (flags : PathFlags) (names : List (List UInt8)) : Prop :=
  (∀ name, names.head? = some name →
    name ≠ [] ∧ ∀ ch, name.head? = some ch → isOutSlash flags ch = false) ∧
  ∀ name ∈ names, [DOT, DOT] ∉ (Split.parts (isOutSlash flags) [] name).map Prod.fst

/-- What is written for the names. -/
def render (flags : PathFlags) (ps : List (List UInt8 × Option UInt8)) : List UInt8 :=
  Split.join (ps.map fun p => (p.1, p.2.map (slashByte flags)))

theorem render_append (flags : PathFlags) (ps qs : List (List UInt8 × Option UInt8)) :
    render flags (ps ++ qs) = render flags ps ++ render flags qs := by
  simp [render]

theorem behindDotdot_of_notMem {ps : List (List UInt8 × Option UInt8)}
    (h : [DOT, DOT] ∉ ps.map Prod.fst) : behindDotdot ps = ps := by
  cases ps with
  | nil => rfl
  | cons p ps => rw [behindDotdot, if_neg h]

variable {flags : PathFlags} {cap : ℕ} {abs : Bool}

theorem isOutSlash_slashByte {ch : UInt8} (h : isSlash flags ch = true) :
    isOutSlash flags (slashByte flags ch) = true := by
  unfold slashByte
  split
  · simp [isOutSlash, isSlash]
  · split
    · simp_all [isOutSlash]
    · simp [isOutSlash, h]

/-! ### What the loop writes -/

theorem copyName_render {v v' : NormVars} {name : List UInt8} {slash : Option UInt8}
    (h : copyName flags cap v name slash = .ok v') :
    v' = { v with dst := v.dst ++ render flags [(name, slash)] } := by
  rw [copyName_ok h]
  simp [render]

section Torel

variable (htorel : flags.torel = true)
include htorel

/-- One name behind the root: `..` empties the output, and a name that is kept is appended. -/
theorem normName_torel {v v' : NormVars} {p : List UInt8 × Option UInt8} (hroot : v.root = false)
    (h : normName flags cap abs false v p.1 p.2 = .ok v') :
    v'.root = false ∧
      v'.dst = if p.1 = [DOT, DOT] then [] else
        v.dst ++ if keepName flags p then render flags [p] else [] := by
  obtain ⟨name, slash⟩ := p
  simp only [normName, Bool.not_false, and_true] at h
  split at h
  · rename_i hskip
    obtain ⟨hm, rfl⟩ := hskip
    cases h
    simp [keepName, hm, hroot]
  rename_i hslash
  split at h
  · rename_i hdot
    obtain rfl : name = [DOT] := hdot
    split at h
    · rename_i hm
      cases h
      simp [keepName, hm, hroot]
    · rename_i hm
      obtain rfl := copyName_render h
      simp [keepName, hm, hroot]
  rename_i hdot
  split at h
  · rename_i hdd
    obtain rfl : name = [DOT, DOT] := hdd
    simp only [caseDotdot, htorel, if_true] at h
    split at h
    · cases h
    · cases h
      simp [hroot]
  rename_i hdd
  rw [hroot, if_neg Bool.false_ne_true] at h
  split at h
  · cases h
  obtain rfl := copyName_render h
  have hkeep : keepName flags (name, slash) = true := by
    cases hm : flags.mergeslash with
    | true => simpa [keepName, hdot, hm] using hslash
    | false => simp [keepName, hdot, hm]
  simp [hdd, hkeep]

/-- **The loop behind the root** writes the names that are kept. -/
theorem normLoop_torel {ps : List (List UInt8 × Option UInt8)} {v v' : NormVars}
    (hroot : v.root = false) (h : normLoop flags cap abs false v ps = .ok v') :
    v'.dst = (if [DOT, DOT] ∈ ps.map Prod.fst then [] else v.dst) ++
      render flags ((behindDotdot ps).filter (keepName flags)) := by
  induction ps generalizing v with
  | nil =>
    cases h
    simp [behindDotdot, render]
  | cons p ps ih =>
    obtain ⟨v₁, h1, h2⟩ : ∃ v₁, normName flags cap abs false v p.1 p.2 = .ok v₁ ∧
        normLoop flags cap abs false v₁ ps = .ok v' := by
      simp only [normLoop, bind, Except.bind] at h
      split at h
      · cases h
      · rename_i v₁ h1
        exact ⟨v₁, h1, h⟩
    obtain ⟨hroot1, hdst1⟩ := normName_torel htorel hroot h1
    rw [ih hroot1 h2]
    by_cases hin : [DOT, DOT] ∈ ps.map Prod.fst
    · have hin' : [DOT, DOT] ∈ (p :: ps).map Prod.fst := by simp [hin]
      rw [if_pos hin, if_pos hin', behindDotdot, if_pos hin']
    rw [if_neg hin, hdst1]
    by_cases hp : p.1 = [DOT, DOT]
    · have hin' : [DOT, DOT] ∈ (p :: ps).map Prod.fst := by simp [hp]
      rw [if_pos hp, if_pos hin', behindDotdot, if_pos hin']
    have hin' : [DOT, DOT] ∉ (p :: ps).map Prod.fst := by
      simpa [eq_comm, hp] using hin
    rw [if_neg hp, if_neg hin', behindDotdot_of_notMem hin, behindDotdot_of_notMem hin',
      List.filter_cons]
    split
    · rw [List.append_assoc, ← render_append, List.singleton_append]
    · simp

theorem normName_root {v : NormVars} {name : List UInt8} {slash : Option UInt8}
    (hroot : v.root = true) (hdot : name ≠ [DOT]) (hdd : name ≠ [DOT, DOT]) :
    normName flags cap abs true v name slash = .ok { v with root := false } := by
  simp [normName, hdot, hdd, hroot, htorel]

end Torel

theorem normLoop_path (htorel : flags.torel = true) {path : List UInt8} {v' : NormVars}
    (h : normLoop flags cap (isAbs flags path) true ⟨[], 0, isAbs flags path⟩
      (Split.parts (isSlash flags) [] path) = .ok v') :
    v'.dst = render flags (keptNames flags path) := by
  unfold keptNames namesBelowRoot
  cases habs : isAbs flags path with
  | false =>
    rw [habs, normLoop_first (head_parts_of_not_isAbs habs)] at h
    rw [normLoop_torel htorel rfl h]
    simp
  | true =>
    obtain ⟨name, o, ps, hps, hdot, hdd⟩ := parts_of_isAbs habs
    rw [habs, hps, normLoop, normName_root htorel rfl hdot hdd] at h
    rw [hps, normLoop_torel htorel rfl h]
    simp

/-! ### What the output is -/

theorem isParts_behindDotdot {sep : UInt8 → Bool} {ps : List (List UInt8 × Option UInt8)}
    (h : Split.IsParts sep ps) : Split.IsParts sep (behindDotdot ps) := by
  induction ps with
  | nil => exact .nil
  | cons p ps ih =>
    rw [behindDotdot]
    split
    · exact ih h.tail
    · exact h

theorem isParts_keptNames (flags : PathFlags) (path : List UInt8) :
    Split.IsParts (isSlash flags) (keptNames flags path) := by
  have h : Split.IsParts (isSlash flags) (Split.parts (isSlash flags) [] path) :=
    Split.isParts_parts (by simp) path
  refine Split.IsParts.filter _ (isParts_behindDotdot ?_)
  unfold namesBelowRoot
  split
  · rw [List.drop_one]
    exact h.tail
  · exact h

theorem head_render {ps : List (List UInt8 × Option UInt8)}
    (h : Split.IsParts (isSlash flags) ps) :
    (∀ ch, (render flags ps).head? = some ch → isOutSlash flags ch = false) ↔
      ∀ name, (ps.map Prod.fst).head? = some name →
        name ≠ [] ∧ ∀ ch, name.head? = some ch → isOutSlash flags ch = false := by
  have hcons : ∀ (x : UInt8) (n : List UInt8) (o : Option UInt8)
      (qs : List (List UInt8 × Option UInt8)), render flags ((x :: n, o) :: qs) =
        x :: render flags ((n, o) :: qs) := by
    intro x n o qs
    simp [render]
  cases h with
  | nil => simp [render]
  | @last n hne hn =>
    obtain ⟨x, n, rfl⟩ := List.exists_cons_of_ne_nil hne
    rw [hcons]
    simp
  | @cons n s ps hn hs h =>
    cases n with
    | nil => simp [render, isOutSlash_slashByte hs]
    | cons x n =>
      rw [hcons]
      simp

/-- A `..` between the slashes that are written lies in one of the names. -/
theorem dotdot_mem_render {ps : List (List UInt8 × Option UInt8)}
    (h : Split.IsParts (isSlash flags) ps) :
    [DOT, DOT] ∈ (Split.parts (isOutSlash flags) [] (render flags ps)).map Prod.fst ↔
      ∃ name ∈ ps.map Prod.fst,
        [DOT, DOT] ∈ (Split.parts (isOutSlash flags) [] name).map Prod.fst := by
  induction h with
  | nil => simp [render, Split.parts]
  | @last n hne hn => simp [render]
  | @cons n s ps hn hs h ih =>
    have hrender : render flags ((n, some s) :: ps) =
        n ++ slashByte flags s :: render flags ps := by simp [render]
    rw [hrender, Split.mem_parts_append (by simp) (isOutSlash_slashByte hs), ih]
    simp

theorem staysBelow_render {ps : List (List UInt8 × Option UInt8)}
    (h : Split.IsParts (isSlash flags) ps) :
    StaysBelow flags (render flags ps) ↔ NamesBelow flags (ps.map Prod.fst) := by
  unfold StaysBelow NamesBelow
  rw [head_render h, dotdot_mem_render h]
  simp only [not_exists, not_and]

/-- **Normalization to a relative path**: what it makes of a path stays below a directory that it
is appended to if and only if the first name that is kept is not empty, and neither that name
begins with a slash of the output nor any name has a `..` between such slashes. -/
theorem ffpathNorm_torel (htorel : flags.torel = true) {path dst : List UInt8}
    (h : ffpathNorm cap path flags = .ok dst) :
    StaysBelow flags dst ↔ NamesBelow flags ((keptNames flags path).map Prod.fst) := by
  have hflags : flags.orDefault = flags := by
    rw [PathFlags.orDefault, if_neg]
    rintro rfl
    exact Bool.false_ne_true htorel
  simp only [ffpathNorm, hflags, bind, Except.bind] at h
  split at h
  · cases h
  rename_i v hloop
  have hdst := normLoop_path htorel hloop
  rw [← staysBelow_render (isParts_keptNames flags path), ← hdst]
  split at h
  · rename_i hempty
    rw [hempty.1, writeDst] at h
    split at h
    · cases h
      rw [hempty.1]
      simp [StaysBelow, Split.parts, isOutSlash, isSlash, DOT, SLASH, BKSLASH]
    · cases h
  · cases h
    rfl

/-- A path with flags that are usual keeps below the directory. -/
theorem ffpathNorm_torel_up :
    StaysBelow { torel := true, mergeslash := true } (ascii "etc/passwd") ↔
      NamesBelow { torel := true, mergeslash := true }
        ((keptNames { torel := true, mergeslash := true } (ascii "/a//../etc/passwd")).map
          Prod.fst) :=
  @ffpathNorm_torel _ 64 rfl _ _ (by decide)

/-- Without `FFPATH_MERGESLASH` an absolute path may stay one. -/
theorem ffpathNorm_torel_absolute :
    ¬∀ (flags : PathFlags) (cap : ℕ) (path dst : List UInt8), flags.torel = true →
      ffpathNorm cap path flags = .ok dst → dst ≠ [] → StaysBelow flags dst := by
  intro h
  have hbelow := h { torel := true } 64 (ascii "//etc") (ascii "/etc") rfl (by decide) (by decide)
  exact absurd (hbelow.1 SLASH (by decide)) (by decide)

end Path

end FF
