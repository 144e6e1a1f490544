import FF.Lib.Split
import FF.Ffstring

/-!
# Path normalization

`ffpath_norm` on Unix: one pass over the names of a path copies them into the destination and
backs up in it where a name is `..`. A write outside of the destination is an error of its own in
the model, apart from the result 0 of the function.

The pointer `dst` is the list of the bytes before it. A path has fewer names than an `int` can
count.
-/

namespace FF

namespace Path

open List

/-- `enum FFPATH_FLAGS` -/
structure PathFlags where
  mergeslash : Bool := false
  mergedots : Bool := false
  strictBounds : Bool := false
  nowindows : Bool := false
  windows : Bool := false
  forceslash : Bool := false
  forcebkslash : Bool := false
  torel : Bool := false
  deriving DecidableEq, Repr

/-- `FFPATH_MERGEDOTS` -/
def FFPATH_MERGEDOTS : PathFlags := { mergedots := true, mergeslash := true }

/-- The flag 0 stands for the default flags. -/
def PathFlags.orDefault (flags : PathFlags) : PathFlags :=
  if flags = {} then FFPATH_MERGEDOTS else flags

/-- `/` -/
def SLASH : UInt8 := 0x2f

/-- `\` -/
def BKSLASH : UInt8 := 0x5c

/-- `.` -/
def DOT : UInt8 := 0x2e

/-- What `slash` is searched for. -/
def isSlash (flags : PathFlags) (ch : UInt8) : Bool :=
  ch == SLASH || (flags.windows && ch == BKSLASH)

/-- The slash that is written for `*slash`. -/
def slashByte (flags : PathFlags) (slash : UInt8) : UInt8 :=
  if flags.forceslash then SLASH else if flags.forcebkslash then BKSLASH else slash

/-- Why there is no next step: `return 0`, or a write behind `dstend`. -/
inductive NormStop
  | zero
  | fault
  deriving DecidableEq, Repr

/-- The variables of the loop. -/
structure NormVars where
  dst : List UInt8
  lev : ℤ
  root : Bool
  deriving DecidableEq, Repr

/-- Write bytes to `dst`. -/
def writeDst (cap : ℕ) (dst bytes : List UInt8) : Except NormStop (List UInt8) :=
  if dst.length + bytes.length ≤ cap then .ok (dst ++ bytes) else .error .fault

/-- The end of the loop body: copy the name and the slash. -/
def copyName (flags : PathFlags) (cap : ℕ) (v : NormVars) (name : List UInt8)
    (slash : Option UInt8) : Except NormStop NormVars := do
  if v.dst.length + name.length + (if slash.isSome then 1 else 0) > cap then .error .zero
  else
    let dst ← writeDst cap v.dst name
    match slash with
    | none => .ok { v with dst := dst }
    | some ch =>
      let dst ← writeDst cap dst [slashByte flags ch]
      .ok { v with dst := dst }

/-- `dst` goes back to what is behind the slash before the last name. -/
def parentDst (flags : PathFlags) (dst : List UInt8) : List UInt8 :=
  (dst.dropLast.reverse.dropWhile fun c => !isSlash flags c).reverse

/-- The branch for the name `..` -/
def caseDotdot (flags : PathFlags) (cap : ℕ) (abs : Bool) (v : NormVars) (name : List UInt8)
    (slash : Option UInt8) : Except NormStop NormVars :=
  let v := { v with lev := v.lev - 1 }
  if flags.strictBounds ∧ v.lev < 0 then .error .zero
  else if flags.torel then .ok { v with dst := [] }
  else if flags.mergedots then
    if v.lev < 0 then
      if abs then .ok { v with lev := 0 } else copyName flags cap v name slash
    else .ok { v with dst := parentDst flags v.dst }
  else copyName flags cap v name slash

/-- A name with a character that is not allowed in one. -/
def badName (flags : PathFlags) (name : List UInt8) : Bool :=
  if flags.windows then name.any fun c => [0x2a, 0x3f, 0x3a, 0x22, 0].contains c
  else name.contains 0

/-- The loop body, for a name and the slash behind it; `first` where the name begins at `path`. -/
def normName (flags : PathFlags) (cap : ℕ) (abs first : Bool) (v : NormVars) (name : List UInt8)
    (slash : Option UInt8) : Except NormStop NormVars :=
  if flags.mergeslash ∧ name = [] ∧ !first then .ok v
  else if name = [DOT] then
    if flags.mergedots then .ok v else copyName flags cap v name slash
  else if name = [DOT, DOT] then caseDotdot flags cap abs v name slash
  else if v.root then
    let v := { v with root := false }
    if flags.torel then .ok v else copyName flags cap v name slash
  else if badName flags name then .error .zero
  else copyName flags cap { v with lev := v.lev + 1 } name slash

/-- The loop over the names. -/
def normLoop (flags : PathFlags) (cap : ℕ) (abs : Bool) :
    Bool → NormVars → List (List UInt8 × Option UInt8) → Except NormStop NormVars
  | _, v, [] => .ok v
  | first, v, (name, slash) :: ns => do
      let v ← normName flags cap abs first v name slash
      normLoop flags cap abs false v ns

/-- Whether a path is absolute. -/
def isAbs (flags : PathFlags) (path : List UInt8) : Bool :=
  path.head? == some SLASH ||
    (flags.windows &&
      ((decide (2 ≤ path.length) && path.getD 1 0 == 0x3a && ffcharIsletter (path.getD 0 0)) ||
        path.head? == some BKSLASH))

/-- `ffpath_norm`: what is in the destination in the end. The function returns its length. -/
def ffpathNorm (cap : ℕ) (path : List UInt8) (flags : PathFlags) :
    Except NormStop (List UInt8) := do
  let flags := flags.orDefault
  let abs := isAbs flags path
  let v ← normLoop flags cap abs true ⟨[], 0, abs⟩ (Split.parts (isSlash flags) [] path)
  if v.dst = [] ∧ path ≠ [] then writeDst cap v.dst [DOT] else .ok v.dst

/-- The names of the path, without its root. -/
def namesBelowRoot (flags : PathFlags) (path : List UInt8) : List (List UInt8 × Option UInt8) :=
  (Split.parts (isSlash flags) [] path).drop (if isAbs flags path then 1 else 0)

section Bounds

variable {flags : PathFlags} {cap : ℕ} {abs first : Bool}

theorem copyName_of_le {v : NormVars} {name : List UInt8} {slash : Option UInt8}
    (h : v.dst.length + name.length + slash.toList.length ≤ cap) :
    copyName flags cap v name slash =
      .ok { v with dst := v.dst ++ (name ++ (slash.map (slashByte flags)).toList) } := by
  cases slash with
  | none =>
    have hle : v.dst.length + name.length ≤ cap := by simpa using h
    simp [copyName, writeDst, Nat.not_lt.mpr hle, hle, bind, Except.bind]
  | some ch =>
    have hle : v.dst.length + name.length + 1 ≤ cap := by simpa using h
    have hle' : v.dst.length + name.length ≤ cap := by omega
    simp [copyName, writeDst, Nat.not_lt.mpr hle, hle, hle', bind, Except.bind]

theorem copyName_of_lt {v : NormVars} {name : List UInt8} {slash : Option UInt8}
    (h : cap < v.dst.length + name.length + slash.toList.length) :
    copyName flags cap v name slash = .error .zero := by
  cases slash with
  | none =>
    have hlt : cap < v.dst.length + name.length := by simpa using h
    simp [copyName, hlt]
  | some ch =>
    have hlt : cap < v.dst.length + name.length + 1 := by simpa using h
    simp [copyName, hlt]

theorem copyName_ok {v v' : NormVars} {name : List UInt8} {slash : Option UInt8}
    (h : copyName flags cap v name slash = .ok v') :
    v' = { v with dst := v.dst ++ (name ++ (slash.map (slashByte flags)).toList) } := by
  rcases Nat.lt_or_ge cap (v.dst.length + name.length + slash.toList.length) with hlt | hle
  · rw [copyName_of_lt hlt] at h
    cases h
  · rw [copyName_of_le hle] at h
    exact (Except.ok.inj h).symm

theorem copyName_le_cap {v v' : NormVars} {name : List UInt8} {slash : Option UInt8}
    (h : copyName flags cap v name slash = .ok v') : v'.dst.length ≤ cap := by
  rcases Nat.lt_or_ge cap (v.dst.length + name.length + slash.toList.length) with hlt | hle
  · rw [copyName_of_lt hlt] at h
    cases h
  · rw [copyName_ok h]
    cases slash <;> simpa [Nat.add_assoc] using hle

theorem copyName_ne_fault (v : NormVars) (name : List UInt8) (slash : Option UInt8) :
    copyName flags cap v name slash ≠ .error .fault := by
  rcases Nat.lt_or_ge cap (v.dst.length + name.length + slash.toList.length) with hlt | hle
  · simp [copyName_of_lt hlt]
  · simp [copyName_of_le hle]

theorem normName_cases (v : NormVars) (name : List UInt8) (slash : Option UInt8) :
    normName flags cap abs first v name slash = .error .zero ∨
      (∃ v₁, v₁.dst = v.dst ∧ normName flags cap abs first v name slash =
        copyName flags cap v₁ name slash) ∨
      ∃ v₁, normName flags cap abs first v name slash = .ok v₁ ∧
        (v₁.dst = v.dst ∨ v₁.dst = [] ∨ v₁.dst = parentDst flags v.dst) := by
  unfold normName caseDotdot
  split
  · exact .inr (.inr ⟨v, rfl, .inl rfl⟩)
  split
  · split
    · exact .inr (.inr ⟨v, rfl, .inl rfl⟩)
    · exact .inr (.inl ⟨v, rfl, rfl⟩)
  split
  · dsimp only
    split
    · exact .inl rfl
    split
    · exact .inr (.inr ⟨_, rfl, .inr (.inl rfl)⟩)
    split
    · split
      · split
        · exact .inr (.inr ⟨_, rfl, .inl rfl⟩)
        · exact .inr (.inl ⟨{ v with lev := v.lev - 1 }, rfl, rfl⟩)
      · exact .inr (.inr ⟨_, rfl, .inr (.inr rfl)⟩)
    · exact .inr (.inl ⟨{ v with lev := v.lev - 1 }, rfl, rfl⟩)
  split
  · dsimp only
    split
    · exact .inr (.inr ⟨_, rfl, .inl rfl⟩)
    · exact .inr (.inl ⟨{ v with root := false }, rfl, rfl⟩)
  · split
    · exact .inl rfl
    · exact .inr (.inl ⟨{ v with lev := v.lev + 1 }, rfl, rfl⟩)

theorem length_parentDst (flags : PathFlags) (dst : List UInt8) :
    (parentDst flags dst).length ≤ dst.length := by
  have h : (dst.dropLast.reverse.dropWhile fun c => !isSlash flags c).length ≤
      dst.dropLast.reverse.length := (dropWhile_suffix _).length_le
  rw [length_reverse, length_dropLast] at h
  rw [parentDst, length_reverse]
  omega

theorem normName_length {v v' : NormVars} {name : List UInt8} {slash : Option UInt8}
    (h : normName flags cap abs first v name slash = .ok v') :
    v'.dst.length ≤ v.dst.length + (name ++ slash.toList).length := by
  rcases @normName_cases flags cap abs first v name slash with
    h0 | ⟨v₁, hdst, heq⟩ | ⟨v₁, heq, hdst⟩
  · rw [h0] at h
    cases h
  · rw [heq] at h
    rw [copyName_ok h, hdst]
    cases slash <;> simp
  rw [heq] at h
  obtain rfl := Except.ok.inj h
  have hparent := length_parentDst flags v.dst
  rcases hdst with hdst | hdst | hdst
  · rw [hdst]
    exact Nat.le_add_right _ _
  · rw [hdst]
    exact Nat.zero_le _
  · rw [hdst]
    omega

/-- **No more is written than has been read.** -/
theorem normLoop_length {ps : List (List UInt8 × Option UInt8)} {v v' : NormVars}
    (h : normLoop flags cap abs first v ps = .ok v') :
    v'.dst.length ≤ v.dst.length + (Split.join ps).length := by
  induction ps generalizing v first with
  | nil =>
    cases h
    simp
  | cons p ps ih =>
    simp only [normLoop, bind, Except.bind] at h
    split at h
    · cases h
    · rename_i v₁ h1
      have hlen1 := normName_length h1
      have hlen := ih h
      rw [Split.join_cons, length_append]
      omega

theorem normLoop_le_cap {ps : List (List UInt8 × Option UInt8)} {v v' : NormVars}
    (hv : v.dst.length ≤ cap) (h : normLoop flags cap abs first v ps = .ok v') :
    v'.dst.length ≤ cap := by
  induction ps generalizing v first with
  | nil =>
    cases h
    exact hv
  | cons p ps ih =>
    simp only [normLoop, bind, Except.bind] at h
    split at h
    · cases h
    rename_i v₁ h1
    refine ih ?_ h
    rcases @normName_cases flags cap abs first v p.1 p.2 with
      h0 | ⟨v₂, hdst, heq⟩ | ⟨v₂, heq, hdst⟩
    · rw [h0] at h1
      cases h1
    · exact copyName_le_cap (heq.symm.trans h1)
    obtain rfl := Except.ok.inj (heq.symm.trans h1)
    have hparent := length_parentDst flags v.dst
    rcases hdst with hdst | hdst | hdst
    · rw [hdst]
      exact hv
    · rw [hdst]
      exact Nat.zero_le _
    · rw [hdst]
      omega

theorem length_ffpathNorm {path out : List UInt8} {flags : PathFlags}
    (h : ffpathNorm cap path flags = .ok out) : out.length ≤ path.length := by
  simp only [ffpathNorm, bind, Except.bind] at h
  split at h
  · cases h
  rename_i v hv
  have hlen := normLoop_length hv
  rw [Split.join_parts, nil_append, length_nil, Nat.zero_add] at hlen
  split at h
  · rename_i hempty
    have hpath := length_pos_of_ne_nil hempty.2
    simp only [writeDst] at h
    split at h
    · rw [← Except.ok.inj h, hempty.1]
      exact hpath
    · cases h
  · rw [← Except.ok.inj h]
    exact hlen

theorem mem_parentDst {dst : List UInt8} {c : UInt8} (h : c ∈ parentDst flags dst) : c ∈ dst := by
  rw [parentDst, mem_reverse] at h
  exact dropLast_subset dst (mem_reverse.mp ((dropWhile_suffix _).subset h))

/-- What holds for the bytes of the names, and for slashes, holds for those that are written. -/
theorem normLoop_forall {P : UInt8 → Prop} (hslash : ∀ c, P c → P (slashByte flags c))
    {ps : List (List UInt8 × Option UInt8)} {v v' : NormVars} (hv : ∀ c ∈ v.dst, P c)
    (hps : ∀ c ∈ Split.join ps, P c) (h : normLoop flags cap abs first v ps = .ok v') :
    ∀ c ∈ v'.dst, P c := by
  induction ps generalizing v first with
  | nil =>
    cases h
    exact hv
  | cons p ps ih =>
    simp only [normLoop, bind, Except.bind] at h
    split at h
    · cases h
    rename_i v₁ h1
    rw [Split.join_cons] at hps
    have hrest := fun c hc => hps c (mem_append_right _ hc)
    refine ih ?_ hrest h
    rcases @normName_cases flags cap abs first v p.1 p.2 with
      h0 | ⟨v₂, hdst, heq⟩ | ⟨v₂, heq, hdst⟩
    · rw [h0] at h1
      cases h1
    · rw [copyName_ok (heq.symm.trans h1), hdst]
      intro c hc
      rcases mem_append.mp hc with hc | hc
      · exact hv c hc
      · rcases mem_append.mp hc with hc | hc
        · exact hps c (mem_append_left _ (mem_append_left _ hc))
        · obtain ⟨ch, hch, rfl⟩ := Option.map_eq_some_iff.mp (Option.mem_toList.mp hc)
          exact hslash ch (hps ch (mem_append_left _
            (mem_append_right _ (Option.mem_toList.mpr hch))))
    obtain rfl := Except.ok.inj (heq.symm.trans h1)
    intro c hc
    rcases hdst with hdst | hdst | hdst
    · exact hv c (hdst ▸ hc)
    · rw [hdst] at hc
      cases hc
    · exact hv c (mem_parentDst (hdst ▸ hc))

/-- **What holds for the bytes of a path**, for slashes and for dots, holds for those of the
normalized path. -/
theorem ffpathNorm_forall {P : UInt8 → Prop} {path out : List UInt8} {flags : PathFlags}
    (hslash : ∀ c, P c → P (slashByte flags.orDefault c)) (hdot : P DOT) (hpath : ∀ c ∈ path, P c)
    (h : ffpathNorm cap path flags = .ok out) : ∀ c ∈ out, P c := by
  simp only [ffpathNorm, bind, Except.bind] at h
  split at h
  · cases h
  rename_i v hv
  have hall : ∀ c ∈ v.dst, P c := by
    refine normLoop_forall hslash (fun c hc => by cases hc) (fun c hc => ?_) hv
    rw [Split.join_parts, nil_append] at hc
    exact hpath c hc
  split at h
  · rename_i hempty
    simp only [writeDst] at h
    split at h
    · rw [← Except.ok.inj h, hempty.1]
      intro c hc
      rw [mem_singleton.mp hc]
      exact hdot
    · cases h
  · rw [← Except.ok.inj h]
    exact hall

theorem normLoop_ne_fault (v : NormVars) (ps : List (List UInt8 × Option UInt8)) :
    normLoop flags cap abs first v ps ≠ .error .fault := by
  induction ps generalizing v first with
  | nil => simp [normLoop]
  | cons p ps ih =>
    intro h
    simp only [normLoop, bind, Except.bind] at h
    split at h
    · rename_i hstop
      rw [Except.error.inj h] at hstop
      rcases @normName_cases flags cap abs first v p.1 p.2 with
        h0 | ⟨v₁, hdst, heq⟩ | ⟨v₁, heq, hdst⟩
      · rw [h0] at hstop
        cases hstop
      · exact copyName_ne_fault _ _ _ (heq.symm.trans hstop)
      · rw [heq] at hstop
        cases hstop
    · exact ih _ h

/-- **Nothing is written outside of a destination** that is not empty. -/
theorem ffpathNorm_ne_fault (hcap : 1 ≤ cap) (path : List UInt8) (flags : PathFlags) :
    ffpathNorm cap path flags ≠ .error .fault := by
  intro h
  simp only [ffpathNorm, bind, Except.bind] at h
  split at h
  · rename_i hstop
    rw [Except.error.inj h] at hstop
    exact normLoop_ne_fault _ _ hstop
  · split at h
    · rename_i hempty
      rw [hempty.1, writeDst, if_pos (by simpa using hcap)] at h
      cases h
    · cases h

/-! ### The beginning of the path -/

theorem normLoop_first {ps : List (List UInt8 × Option UInt8)} {v : NormVars}
    (h : ∀ p, ps.head? = some p → p.1 ≠ []) :
    normLoop flags cap abs true v ps = normLoop flags cap abs false v ps := by
  cases ps with
  | nil => rfl
  | cons p ps =>
    have hname : p.1 ≠ [] := h p rfl
    simp [normLoop, normName, hname]

theorem head_parts_of_not_isAbs {path : List UInt8} (h : isAbs flags path = false)
    (p : List UInt8 × Option UInt8)
    (hp : (Split.parts (isSlash flags) [] path).head? = some p) : p.1 ≠ [] := by
  cases path with
  | nil => simp [Split.parts] at hp
  | cons x l =>
    have hx : isSlash flags x = false := by
      simp only [isAbs, head?_cons, Bool.or_eq_false_iff, Bool.and_eq_false_iff] at h
      simp only [isSlash, Bool.or_eq_false_iff, Bool.and_eq_false_iff]
      refine ⟨by simpa using h.1, ?_⟩
      rcases h.2 with hw | hw
      · exact .inl hw
      · exact .inr (by simpa using hw.2)
    obtain ⟨t, o, ps, hps⟩ := @Split.exists_parts_cons _ (isSlash flags) _
      (cons_ne_nil x []) l
    rw [Split.parts_cons_other hx, nil_append, hps] at hp
    obtain rfl : (([x] ++ t, o) : List UInt8 × Option UInt8) = p := by simpa using hp
    simp

theorem parts_of_isAbs {path : List UInt8} (h : isAbs flags path = true) :
    ∃ name o ps, Split.parts (isSlash flags) [] path = (name, o) :: ps ∧ name ≠ [DOT] ∧
      name ≠ [DOT, DOT] := by
  cases path with
  | nil => simp [isAbs] at h
  | cons x l =>
    cases hx : isSlash flags x with
    | true => exact ⟨[], some x, _, Split.parts_cons_sep hx [] l, by simp, by simp⟩
    | false =>
      have hdrive : l.head? = some 0x3a ∧ ffcharIsletter x = true := by
        simp only [isSlash, Bool.or_eq_false_iff, beq_eq_false_iff_ne, ne_eq] at hx
        cases l with
        | nil => simp_all [isAbs]
        | cons y l => simp_all [isAbs]
      obtain ⟨hy, hletter⟩ := hdrive
      obtain ⟨t, o, ps, hps⟩ := @Split.exists_parts_cons _ (isSlash flags) _
        (cons_ne_nil x []) l
      refine ⟨[x] ++ t, o, ps, by rw [Split.parts_cons_other hx, nil_append, hps], ?_, ?_⟩
      all_goals
        rintro heq
        obtain rfl : x = DOT := by simpa using (List.cons.inj heq).1
        exact absurd hletter (by decide)

end Bounds

end Path

end FF
