import FF.Path.Norm
import Mathlib.Algebra.Order.Ring.Int
import Mathlib.Algebra.BigOperators.Group.List.Basic

/-!
# The location of a path

A path names a location: it starts at the root or where the path is used, and each name stays,
goes up or goes down. Normalization with the default flags keeps the location and leaves no more
names than are needed to go there, but for names that come behind more `..` than there are
directories to leave.
-/

namespace FF

namespace Path

open List

/-! ### Locations -/

/-- A location: from the root or from the start, `ups` directories up and then down. -/
structure Location where
  abs : Bool
  ups : ℕ
  dirs : List (List UInt8)
  deriving DecidableEq, Repr

/-- Where a name leads to. There is nothing above the root. -/
def Location.walk (l : Location) (name : List UInt8) : Location :=
  if name = [] ∨ name = [DOT] then l
  else if name = [DOT, DOT] then
    if l.dirs = [] then if l.abs then l else { l with ups := l.ups + 1 }
    else { l with dirs := l.dirs.dropLast }
  else { l with dirs := l.dirs ++ [name] }

/-- Where a path starts. -/
def startOf (path : List UInt8) : Location := ⟨path.head? == some SLASH, 0, []⟩

/-- **The location of a path** -/
def locate (path : List UInt8) : Location :=
  ((Split.parts (· == SLASH) [] path).map Prod.fst).foldl Location.walk (startOf path)

/-- A name that goes up or down and may be written. -/
structure Plain (name : List UInt8) : Prop where
  ne_nil : name ≠ []
  ne_dot : name ≠ [DOT]
  noSlash : ∀ x ∈ name, (x == SLASH) = false
  noNul : name.contains 0 = false

theorem plain_dotdot : Plain [DOT, DOT] where
  ne_nil := by decide
  ne_dot := by decide
  noSlash x hx := by
    obtain rfl : x = DOT := by simpa using hx
    decide
  noNul := by decide

theorem Location.walk_abs (l : Location) (name : List UInt8) : (l.walk name).abs = l.abs := by
  unfold Location.walk
  split
  · rfl
  · split
    · split
      · split <;> rfl
      · rfl
    · rfl

theorem Location.le_ups_walk (l : Location) (name : List UInt8) : l.ups ≤ (l.walk name).ups := by
  unfold Location.walk
  split
  · exact le_rfl
  split
  · split
    · split
      · exact le_rfl
      · exact Nat.le_succ _
    · exact le_rfl
  · exact le_rfl

theorem foldl_walk_abs (names : List (List UInt8)) (l : Location) :
    (names.foldl Location.walk l).abs = l.abs := by
  induction names generalizing l with
  | nil => rfl
  | cons name names ih => rw [foldl_cons, ih, Location.walk_abs]

theorem le_ups_foldl_walk (names : List (List UInt8)) (l : Location) :
    l.ups ≤ (names.foldl Location.walk l).ups := by
  induction names generalizing l with
  | nil => exact le_rfl
  | cons name names ih =>
    rw [foldl_cons]
    exact le_trans (l.le_ups_walk name) (ih _)

theorem Location.walk_walk_dotdot (l : Location) {name : List UInt8} (h : Plain name)
    (hne : name ≠ [DOT, DOT]) : (l.walk name).walk [DOT, DOT] = l := by
  have hwalk : l.walk name = { l with dirs := l.dirs ++ [name] } := by
    rw [Location.walk, if_neg (not_or.mpr ⟨h.ne_nil, h.ne_dot⟩), if_neg hne]
  rw [hwalk, Location.walk]
  simp [DOT]

/-! ### The names in the destination -/

/-- The level behind the names. -/
def levOf (out : List (List UInt8)) : ℤ :=
  (out.map fun name => if name = [DOT, DOT] then (-1 : ℤ) else 1).sum

/-- A name `..` is kept only where the level is not above 0. -/
def Kept (out : List (List UInt8)) : Prop :=
  ∀ o r, out = o ++ [DOT, DOT] :: r → levOf o ≤ 0

@[simp] theorem levOf_nil : levOf [] = 0 := rfl

theorem levOf_append (out : List (List UInt8)) (name : List UInt8) :
    levOf (out ++ [name]) = levOf out + if name = [DOT, DOT] then -1 else 1 := by
  simp [levOf]

theorem kept_nil : Kept [] := by
  intro o r h
  simp at h

theorem Kept.append {out : List (List UInt8)} (h : Kept out) {name : List UInt8}
    (hname : name = [DOT, DOT] → levOf out ≤ 0) : Kept (out ++ [name]) := by
  intro o r heq
  rcases eq_nil_or_concat r with rfl | ⟨r, x, rfl⟩
  · obtain ⟨rfl, hx⟩ := append_inj' heq rfl
    exact hname (List.cons.inj hx).1
  · rw [concat_eq_append, ← cons_append, ← append_assoc] at heq
    exact h o r (append_inj' heq rfl).1

theorem Kept.of_append {out : List (List UInt8)} {name : List UInt8}
    (h : Kept (out ++ [name])) : Kept out := by
  rintro o r rfl
  exact h o (r ++ [name]) (by simp)

theorem Kept.exists_last {out : List (List UInt8)} (h : Kept out) (hlev : 1 ≤ levOf out) :
    ∃ o name, out = o ++ [name] ∧ name ≠ [DOT, DOT] ∧ levOf o = levOf out - 1 := by
  rcases eq_nil_or_concat out with rfl | ⟨o, name, rfl⟩
  · simp at hlev
  rw [concat_eq_append] at h hlev ⊢
  have hne : name ≠ [DOT, DOT] := by
    rintro rfl
    have hle := h o [] rfl
    rw [levOf_append, if_pos rfl] at hlev
    omega
  refine ⟨o, name, rfl, hne, ?_⟩
  rw [levOf_append, if_neg hne]
  omega

theorem levOf_of_notMem {out : List (List UInt8)} (h : [DOT, DOT] ∉ out) :
    levOf out = out.length := by
  induction out with
  | nil => rfl
  | cons name out ih =>
    have hne : name ≠ [DOT, DOT] := fun heq => h (by simp [heq])
    have hcons : levOf (name :: out) = 1 + levOf out := by
      simp [levOf, hne]
    rw [hcons, ih fun hmem => h (mem_cons_of_mem _ hmem), length_cons]
    push_cast
    omega

/-- Where a name `..` is kept, the first name is one. -/
theorem Kept.head {out : List (List UInt8)} (h : Kept out) (hmem : [DOT, DOT] ∈ out) :
    ∃ r, out = [DOT, DOT] :: r := by
  obtain ⟨o, r, rfl, hfirst⟩ := eq_append_cons_of_mem hmem
  have hle := h o r rfl
  rw [levOf_of_notMem hfirst] at hle
  obtain rfl : o = [] := eq_nil_of_length_eq_zero (by omega)
  exact ⟨r, rfl⟩

/-! ### The form of the destination -/

/-- The root, as it is written. -/
def rootBytes (abs : Bool) : List UInt8 := if abs then [SLASH] else []

/-- The names with a slash behind each one. -/
def slashed (out : List (List UInt8)) : List UInt8 := out.flatMap fun name => name ++ [SLASH]

/-- The names that stand in the destination, with what they say of the path so far. -/
structure Normal (abs : Bool) (out : List (List UInt8)) : Prop where
  plain : ∀ name ∈ out, Plain name
  kept : Kept out
  noUp : abs = true → [DOT, DOT] ∉ out

theorem Normal.append {abs : Bool} {out : List (List UInt8)} (h : Normal abs out)
    {name : List UInt8} (hp : Plain name)
    (hdd : name = [DOT, DOT] → abs = false ∧ levOf out ≤ 0) : Normal abs (out ++ [name]) where
  plain := by
    intro n hn
    rcases mem_append.mp hn with hn | hn
    · exact h.plain n hn
    · rw [mem_singleton.mp hn]
      exact hp
  kept := h.kept.append fun heq => (hdd heq).2
  noUp := by
    intro habs hmem
    rcases mem_append.mp hmem with hmem | hmem
    · exact h.noUp habs hmem
    · have hfalse := (hdd (mem_singleton.mp hmem).symm).1
      rw [habs] at hfalse
      exact Bool.noConfusion hfalse

theorem Normal.of_append {abs : Bool} {out : List (List UInt8)} {name : List UInt8}
    (h : Normal abs (out ++ [name])) : Normal abs out where
  plain := fun n hn => h.plain n (mem_append_left _ hn)
  kept := h.kept.of_append
  noUp := fun habs hmem => h.noUp habs (mem_append_left _ hmem)

@[simp] theorem slashed_append (out : List (List UInt8)) (name : List UInt8) :
    slashed (out ++ [name]) = slashed out ++ (name ++ [SLASH]) := by
  simp [slashed]

/-! ### One name -/

section Step

variable {cap : ℕ} {abs : Bool} {v : NormVars} {name : List UInt8} {slash : Option UInt8}

theorem normName_stay (h : name = [] ∨ name = [DOT]) :
    normName FFPATH_MERGEDOTS cap abs false v name slash = .ok v := by
  rcases h with rfl | rfl
  · simp [normName, FFPATH_MERGEDOTS]
  · simp [normName, FFPATH_MERGEDOTS]

theorem normName_top (habs : abs = true) (hlev : v.lev ≤ 0) :
    normName FFPATH_MERGEDOTS cap abs false v [DOT, DOT] slash = .ok { v with lev := 0 } := by
  have hlt : v.lev - 1 < 0 := by omega
  simp [normName, caseDotdot, FFPATH_MERGEDOTS, habs, hlt]

theorem normName_up (hlev : 1 ≤ v.lev) :
    normName FFPATH_MERGEDOTS cap abs false v [DOT, DOT] slash =
      .ok { v with lev := v.lev - 1, dst := parentDst FFPATH_MERGEDOTS v.dst } := by
  have hlt : ¬v.lev - 1 < 0 := by omega
  simp [normName, caseDotdot, FFPATH_MERGEDOTS, hlt]

theorem normName_copy (hroot : v.root = false) (hp : Plain name)
    (hdd : name = [DOT, DOT] → abs = false ∧ v.lev ≤ 0) :
    normName FFPATH_MERGEDOTS cap abs false v name slash =
      copyName FFPATH_MERGEDOTS cap
        { v with lev := v.lev + if name = [DOT, DOT] then -1 else 1 } name slash := by
  have hne := hp.ne_nil
  have hdot := hp.ne_dot
  by_cases hname : name = [DOT, DOT]
  · obtain ⟨rfl, hlev⟩ := hdd hname
    subst hname
    have hlt : v.lev - 1 < 0 := by omega
    simp [normName, caseDotdot, FFPATH_MERGEDOTS, hlt, DOT, ← Int.sub_eq_add_neg]
  have hbad : badName FFPATH_MERGEDOTS name = false := by
    simpa [badName, FFPATH_MERGEDOTS] using hp.noNul
  have hskip : ¬(FFPATH_MERGEDOTS.mergeslash = true ∧ name = [] ∧ (!false) = true) := by
    simp [hne]
  rw [normName, if_neg hskip, if_neg hdot, if_neg hname, hroot, if_neg Bool.false_ne_true, hbad,
    if_neg Bool.false_ne_true, if_neg hname]

theorem normName_bad (hroot : v.root = false) (hne : name ≠ []) (hdot : name ≠ [DOT])
    (hdd : name ≠ [DOT, DOT]) (hnul : name.contains 0 = true) :
    normName FFPATH_MERGEDOTS cap abs false v name slash = .error .zero := by
  simp only [normName, hne, hdot, hdd, hroot, FFPATH_MERGEDOTS, badName, hnul]
  simp

/-- The names `out` stand in the destination, and the path so far leads to the location `l`. -/
structure Stands (abs : Bool) (out : List (List UInt8)) (l : Location) (v : NormVars) : Prop where
  dst : v.dst = rootBytes abs ++ slashed out
  lev : v.lev = levOf out
  root : v.root = false
  normal : Normal abs out
  loc : out.foldl Location.walk ⟨abs, 0, []⟩ = l

theorem parentDst_slashed {out : List (List UInt8)} {name : List UInt8}
    (hname : ∀ x ∈ name, (x == SLASH) = false) :
    parentDst FFPATH_MERGEDOTS (rootBytes abs ++ slashed (out ++ [name])) =
      rootBytes abs ++ slashed out := by
  have hsl : (fun c => !isSlash FFPATH_MERGEDOTS c) = fun c => !(c == SLASH) := by
    funext c
    simp [isSlash, FFPATH_MERGEDOTS]
  have hend : ∀ l : List UInt8, l = rootBytes abs ++ slashed out →
      l.reverse.dropWhile (fun c => !(c == SLASH)) = l.reverse := by
    rintro l rfl
    rcases eq_nil_or_concat out with rfl | ⟨o, n, rfl⟩
    · cases abs <;> simp [rootBytes, slashed]
    · simp [concat_eq_append]
  have hskip : ∀ r : List UInt8, (name.reverse ++ r).dropWhile (fun c => !(c == SLASH)) =
      r.dropWhile fun c => !(c == SLASH) := by
    intro r
    rw [dropWhile_append_of_pos]
    intro x hx
    rw [hname x (mem_reverse.mp hx)]
    rfl
  rw [parentDst, hsl, slashed_append, ← append_assoc, ← append_assoc,
    dropLast_concat, reverse_append, hskip, hend _ rfl, reverse_reverse]

/-- **One name** either leaves only names with a slash behind them, or is appended. -/
theorem Stands.normName {out : List (List UInt8)} {l : Location} {v' : NormVars}
    (hs : Stands abs out l v) (hname : ∀ x ∈ name, (x == SLASH) = false)
    (h : normName FFPATH_MERGEDOTS cap abs false v name slash = .ok v') :
    (∃ out', Stands abs out' (l.walk name) v') ∨
      (Normal abs (out ++ [name]) ∧
        (out ++ [name]).foldl Location.walk ⟨abs, 0, []⟩ = l.walk name ∧
        v' = ⟨v.dst ++ (name ++ (slash.map (slashByte FFPATH_MERGEDOTS)).toList),
          levOf (out ++ [name]), false⟩) := by
  by_cases hstay : name = [] ∨ name = [DOT]
  · rw [normName_stay hstay] at h
    obtain rfl := Except.ok.inj h
    refine .inl ⟨out, ?_⟩
    rw [Location.walk, if_pos hstay]
    exact hs
  obtain ⟨hne, hdot⟩ := not_or.mp hstay
  have hcopy : Plain name → (name = [DOT, DOT] → abs = false ∧ v.lev ≤ 0) →
      Normal abs (out ++ [name]) ∧
        (out ++ [name]).foldl Location.walk ⟨abs, 0, []⟩ = l.walk name ∧
        v' = ⟨v.dst ++ (name ++ (slash.map (slashByte FFPATH_MERGEDOTS)).toList),
          levOf (out ++ [name]), false⟩ := by
    intro hp hdd
    rw [normName_copy hs.root hp hdd] at h
    refine ⟨hs.normal.append hp fun heq => ?_, ?_, ?_⟩
    · rw [← hs.lev]
      exact hdd heq
    · rw [foldl_append, hs.loc]
      rfl
    · rw [copyName_ok h, levOf_append, ← hs.lev, hs.root]
  by_cases hdd : name = [DOT, DOT]
  · subst hdd
    rcases lt_or_ge 0 v.lev with hpos | hneg
    · rw [normName_up (by omega)] at h
      obtain rfl := Except.ok.inj h
      obtain ⟨o, n, rfl, hn, hlevo⟩ := hs.normal.kept.exists_last (by rw [← hs.lev]; omega)
      have hplain := hs.normal.plain n (by simp)
      refine .inl ⟨o, ⟨?_, ?_, hs.root, hs.normal.of_append, ?_⟩⟩
      · rw [hs.dst, parentDst_slashed hplain.noSlash]
      · rw [hlevo, ← hs.lev]
      · have hloc := hs.loc
        rw [foldl_append, foldl_cons, foldl_nil] at hloc
        rw [← hloc, Location.walk_walk_dotdot _ hplain hn]
    cases habs : abs with
    | false => exact .inr (habs ▸ hcopy plain_dotdot fun _ => ⟨habs, hneg⟩)
    | true =>
      rw [normName_top habs hneg] at h
      obtain rfl := Except.ok.inj h
      have hlen := levOf_of_notMem (hs.normal.noUp habs)
      rw [← hs.lev] at hlen
      obtain rfl : out = [] := eq_nil_of_length_eq_zero (by omega)
      refine .inl ⟨[], ⟨habs ▸ hs.dst, rfl, hs.root, habs ▸ hs.normal, ?_⟩⟩
      rw [← hs.loc, habs]
      simp [Location.walk]
  · cases hnul : name.contains 0 with
    | true =>
      rw [normName_bad hs.root hne hdot hdd hnul] at h
      cases h
    | false => exact .inr (hcopy ⟨hne, hdot, hname, hnul⟩ fun heq => absurd heq hdd)

end Step

/-! ### The whole path -/

section Whole

variable {cap : ℕ} {abs : Bool}

/-- What stands in the destination in the end: names with a slash behind each of them, or behind
all but the last one. -/
inductive Written (abs : Bool) : List (List UInt8) → List UInt8 → Prop
  | all (out : List (List UInt8)) : Written abs out (rootBytes abs ++ slashed out)
  | butLast (out : List (List UInt8)) (name : List UInt8) :
      Written abs (out ++ [name]) (rootBytes abs ++ (slashed out ++ name))

theorem isSlash_default : isSlash FFPATH_MERGEDOTS = fun ch => ch == SLASH := by
  funext ch
  simp [isSlash, FFPATH_MERGEDOTS]

theorem slashByte_default (ch : UInt8) : slashByte FFPATH_MERGEDOTS ch = ch := rfl

theorem isAbs_default (path : List UInt8) :
    isAbs FFPATH_MERGEDOTS path = (path.head? == some SLASH) := by
  simp [isAbs, FFPATH_MERGEDOTS]

/-- **The loop behind the root** -/
theorem normLoop_default {ps : List (List UInt8 × Option UInt8)} {out : List (List UInt8)}
    {l : Location} {v v' : NormVars} (hps : Split.IsParts (· == SLASH) ps)
    (hs : Stands abs out l v)
    (h : normLoop FFPATH_MERGEDOTS cap abs false v ps = .ok v') :
    ∃ out', Normal abs out' ∧ Written abs out' v'.dst ∧
      out'.foldl Location.walk ⟨abs, 0, []⟩ = (ps.map Prod.fst).foldl Location.walk l := by
  induction hps generalizing out l v with
  | nil =>
    obtain rfl := Except.ok.inj h
    rw [hs.dst]
    exact ⟨out, hs.normal, .all out, hs.loc⟩
  | @last n hne hn =>
    simp only [normLoop, bind, Except.bind] at h
    split at h
    · cases h
    rename_i v₁ h1
    obtain rfl := Except.ok.inj h
    rcases hs.normName hn h1 with ⟨out', hs'⟩ | ⟨hnormal, hloc, rfl⟩
    · rw [hs'.dst]
      exact ⟨out', hs'.normal, .all out', hs'.loc⟩
    · refine ⟨out ++ [n], hnormal, ?_, hloc⟩
      have hlast := @Written.butLast abs out n
      rw [hs.dst]
      simpa using hlast
  | @cons n s ps hn hsl hps ih =>
    obtain rfl : s = SLASH := by simpa using hsl
    simp only [normLoop, bind, Except.bind] at h
    split at h
    · cases h
    rename_i v₁ h1
    rcases hs.normName hn h1 with ⟨out', hs'⟩ | ⟨hnormal, hloc, rfl⟩
    · exact ih hs' h
    · refine ih ⟨?_, rfl, rfl, hnormal, hloc⟩ h
      rw [hs.dst, slashed_append]
      simp [slashByte_default]

theorem normLoop_default_path {path : List UInt8} {v' : NormVars}
    (h : normLoop FFPATH_MERGEDOTS cap (isAbs FFPATH_MERGEDOTS path) true
      ⟨[], 0, isAbs FFPATH_MERGEDOTS path⟩
      (Split.parts (isSlash FFPATH_MERGEDOTS) [] path) = .ok v') :
    ∃ out, Normal (startOf path).abs out ∧ Written (startOf path).abs out v'.dst ∧
      out.foldl Location.walk (startOf path) = locate path := by
  have hparts : ∀ l, Split.IsParts (· == SLASH) (Split.parts (· == SLASH) [] l) :=
    fun l => Split.isParts_parts (by simp) l
  have hnormal : ∀ abs, Normal abs [] :=
    fun abs => ⟨by simp, kept_nil, by simp⟩
  cases habs : isAbs FFPATH_MERGEDOTS path with
  | false =>
    have hstart : startOf path = ⟨false, 0, []⟩ := by
      rw [startOf, ← isAbs_default, habs]
    rw [habs, normLoop_first (head_parts_of_not_isAbs habs), isSlash_default] at h
    rw [locate, hstart]
    exact normLoop_default (hparts path) ⟨rfl, rfl, rfl, hnormal _, rfl⟩ h
  | true =>
    have hstart : startOf path = ⟨true, 0, []⟩ := by
      rw [startOf, ← isAbs_default, habs]
    obtain ⟨l, rfl⟩ : ∃ l, path = SLASH :: l := by
      rw [isAbs_default] at habs
      cases path with
      | nil => simp at habs
      | cons x l => exact ⟨l, by simpa using habs⟩
    rw [habs, isSlash_default, Split.parts_cons_sep (by simp)] at h
    simp only [normLoop, bind, Except.bind] at h
    split at h
    · cases h
    rename_i v₁ h1
    have hcopy : normName FFPATH_MERGEDOTS cap true true ⟨[], 0, true⟩ [] (some SLASH) =
        copyName FFPATH_MERGEDOTS cap ⟨[], 0, false⟩ [] (some SLASH) := by
      simp [normName, FFPATH_MERGEDOTS]
    rw [hcopy] at h1
    obtain rfl := copyName_ok h1
    have hwalk : Location.walk ⟨true, 0, []⟩ [] = ⟨true, 0, []⟩ := by simp [Location.walk]
    rw [locate, hstart, Split.parts_cons_sep (by simp), map_cons, foldl_cons, hwalk]
    refine normLoop_default (hparts l) ⟨?_, rfl, rfl, hnormal _, rfl⟩ h
    simp [slashByte_default, rootBytes, slashed]

theorem Written.parts {out : List (List UInt8)} {dst : List UInt8} (h : Written abs out dst)
    (hn : Normal abs out) :
    ∃ ps, ps.map Prod.fst = out ∧ (∀ p ∈ ps, p.2 = none ∨ p.2 = some SLASH) ∧
      dst = rootBytes abs ++ Split.join ps ∧
      Split.parts (· == SLASH) [] dst =
        (if abs then [([], some SLASH)] else []) ++ ps := by
  have hslashed : ∀ o : List (List UInt8),
      Split.join (o.map fun n => (n, some SLASH)) = slashed o := by
    intro o
    simp [Split.join, slashed, flatMap_map]
  have hroot : Split.join (if abs then [([], some SLASH)] else []) = rootBytes abs := by
    cases abs <;> rfl
  have hplain : ∀ o : List (List UInt8), (∀ n ∈ o, Plain n) →
      ∀ p ∈ (if abs then [(([] : List UInt8), some SLASH)] else []) ++ o.map fun n => (n, some SLASH),
        (∀ x ∈ p.1, (x == SLASH) = false) ∧ ∃ s, p.2 = some s ∧ (s == SLASH) = true := by
    intro o ho p hp
    rcases mem_append.mp hp with hp | hp
    · cases abs with
      | false => simp at hp
      | true =>
        obtain rfl := mem_singleton.mp hp
        exact ⟨by simp, SLASH, rfl, by simp⟩
    · obtain ⟨n, hno, rfl⟩ := mem_map.mp hp
      exact ⟨(ho n hno).noSlash, SLASH, rfl, by simp⟩
  cases h with
  | all =>
    have hparts := Split.parts_join (Split.IsParts.append (hplain out hn.plain) .nil)
    rw [append_nil, Split.join_append, hslashed, hroot] at hparts
    refine ⟨out.map fun n => (n, some SLASH), by simp [Function.comp_def], ?_, ?_, hparts⟩
    · intro p hp
      obtain ⟨n, -, rfl⟩ := mem_map.mp hp
      exact .inr rfl
    · rw [hslashed]
  | butLast o n =>
    have hpn := hn.plain n (by simp)
    have hparts := Split.parts_join (Split.IsParts.append
      (hplain o fun m hm => hn.plain m (mem_append_left _ hm))
      (.last hpn.ne_nil hpn.noSlash))
    rw [Split.join_append, Split.join_append, hslashed, hroot] at hparts
    refine ⟨(o.map fun n => (n, some SLASH)) ++ [(n, none)], by simp [Function.comp_def], ?_, ?_,
      ?_⟩
    · intro p hp
      rcases mem_append.mp hp with hp | hp
      · obtain ⟨n, -, rfl⟩ := mem_map.mp hp
        exact .inr rfl
      · obtain rfl := mem_singleton.mp hp
        exact .inl rfl
    · rw [Split.join_append, hslashed]
      simp
    · rw [← append_assoc, ← append_assoc, ← hparts]
      simp

theorem normLoop_again {ps : List (List UInt8 × Option UInt8)} {pre : List (List UInt8)}
    {D : List UInt8} (hn : Normal abs (pre ++ ps.map Prod.fst))
    (hps : ∀ p ∈ ps, p.2 = none ∨ p.2 = some SLASH)
    (hcap : D.length + (Split.join ps).length ≤ cap) :
    normLoop FFPATH_MERGEDOTS cap abs false ⟨D, levOf pre, false⟩ ps =
      .ok ⟨D ++ Split.join ps, levOf (pre ++ ps.map Prod.fst), false⟩ := by
  induction ps generalizing pre D with
  | nil => simp [normLoop]
  | cons p ps ih =>
    obtain ⟨name, slash⟩ := p
    rw [map_cons] at hn
    have hp : Plain name := hn.plain name (by simp)
    have hdd : name = [DOT, DOT] → abs = false ∧ levOf pre ≤ 0 := by
      rintro rfl
      refine ⟨?_, hn.kept pre _ rfl⟩
      by_contra habs
      exact hn.noUp (by simpa using habs) (by simp)
    have hslash : slash.map (slashByte FFPATH_MERGEDOTS) = slash := by
      cases slash <;> rfl
    rw [Split.join_cons, length_append, length_append] at hcap
    simp only at hcap
    have hroom : D.length + name.length + slash.toList.length ≤ cap := by omega
    have hstep : normName FFPATH_MERGEDOTS cap abs false ⟨D, levOf pre, false⟩ name slash =
        .ok ⟨D ++ (name ++ slash.toList), levOf (pre ++ [name]), false⟩ := by
      rw [normName_copy rfl hp hdd, copyName_of_le hroom, hslash, levOf_append]
    have hrest := @ih (pre ++ [name]) (D ++ (name ++ slash.toList)) (by simpa using hn)
      (fun p h => hps p (mem_cons_of_mem _ h))
      (by
        rw [length_append, length_append]
        omega)
    simp only [normLoop, bind, Except.bind, hstep]
    rw [hrest]
    simp

/-- A name `..` is left only in a relative path that goes above its start. -/
theorem ups_ne_zero {out : List (List UInt8)} (hn : Normal abs out) (hmem : [DOT, DOT] ∈ out) :
    abs = false ∧ (out.foldl Location.walk ⟨abs, 0, []⟩).ups ≠ 0 := by
  have habs : abs = false := by
    by_contra h
    exact hn.noUp (by simpa using h) hmem
  obtain ⟨r, rfl⟩ := hn.kept.head hmem
  have hle := le_ups_foldl_walk r ⟨false, 1, []⟩
  refine ⟨habs, ?_⟩
  have hwalk : Location.walk ⟨abs, 0, []⟩ [DOT, DOT] = ⟨false, 1, []⟩ := by
    rw [habs]
    decide
  rw [foldl_cons, hwalk]
  exact Nat.one_le_iff_ne_zero.mp hle

theorem Written.of_nil {out : List (List UInt8)} {dst : List UInt8} (h : Written abs out dst)
    (hn : Normal abs out) (hnil : dst = []) : abs = false ∧ out = [] := by
  obtain ⟨ps, hout, -, hdst, -⟩ := h.parts hn
  rw [hnil] at hdst
  cases abs with
  | true => cases hdst
  | false =>
    refine ⟨rfl, ?_⟩
    cases ps with
    | nil => exact hout.symm
    | cons p ps =>
      have hp := hn.plain p.1 (by simp [← hout])
      simp [rootBytes, hp.ne_nil] at hdst

/-- What stands in the destination has the location of its names, and is copied again. -/
theorem Written.again {out : List (List UInt8)} {dst : List UInt8} (h : Written abs out dst)
    (hn : Normal abs out) (hne : dst ≠ []) (hcap : dst.length ≤ cap) :
    startOf dst = ⟨abs, 0, []⟩ ∧ locate dst = out.foldl Location.walk ⟨abs, 0, []⟩ ∧
      (namesBelowRoot {} dst).map Prod.fst = out ∧ ffpathNorm cap dst {} = .ok dst := by
  obtain ⟨ps, hout, hslash, hdst, hparts⟩ := h.parts hn
  have hhead : (dst.head? == some SLASH) = abs := by
    cases abs with
    | true =>
      rw [hdst]
      rfl
    | false =>
      rw [hdst]
      cases ps with
      | nil => exact absurd hdst hne
      | cons p ps =>
        have hp := hn.plain p.1 (by simp [← hout])
        obtain ⟨x, n, hpx⟩ := exists_cons_of_ne_nil hp.ne_nil
        have hx := hp.noSlash x (by simp [hpx])
        simpa [rootBytes, hpx] using hx
  have hstart : startOf dst = ⟨abs, 0, []⟩ := by rw [startOf, hhead]
  have habs : isAbs FFPATH_MERGEDOTS dst = abs := by rw [isAbs_default, hhead]
  have hzero : isSlash {} = isSlash FFPATH_MERGEDOTS := rfl
  refine ⟨hstart, ?_, ?_, ?_⟩
  · rw [locate, hstart, hparts, map_append, hout, foldl_append]
    cases abs with
    | false => rfl
    | true =>
      congr 1
  · have habs0 : isAbs {} dst = abs := habs
    rw [namesBelowRoot, hzero, isSlash_default, hparts, habs0, ← hout]
    cases abs <;> simp
  have hrun : normLoop FFPATH_MERGEDOTS cap abs true ⟨[], 0, abs⟩
      (Split.parts (isSlash FFPATH_MERGEDOTS) [] dst) = .ok ⟨dst, levOf out, false⟩ := by
    have hout' : Normal abs ([] ++ ps.map Prod.fst) := by simpa [hout] using hn
    cases abs with
    | false =>
      have hD : dst = [] ++ Split.join ps := hdst
      rw [hD] at hcap
      rw [normLoop_first (head_parts_of_not_isAbs habs), isSlash_default, hparts, ← hout]
      have hrun := @normLoop_again _ _ _ [] [] hout' hslash (by simpa using hcap)
      rw [← hD] at hrun
      simpa using hrun
    | true =>
      have hD : dst = [SLASH] ++ Split.join ps := hdst
      rw [hD, length_append] at hcap
      have hroom : 1 ≤ cap := by
        rw [length_singleton] at hcap
        omega
      have hroot : normName FFPATH_MERGEDOTS cap true true ⟨[], 0, true⟩ [] (some SLASH) =
          .ok ⟨[SLASH], 0, false⟩ := by
        simp [normName, FFPATH_MERGEDOTS, copyName_of_le, hroom, slashByte]
      have hrun := @normLoop_again _ _ _ [] [SLASH] hout' hslash hcap
      rw [← hD] at hrun
      rw [isSlash_default, hparts, ← hout]
      simp only [if_true, singleton_append, normLoop, bind, Except.bind, hroot]
      simpa using hrun
  have hdefault : PathFlags.orDefault {} = FFPATH_MERGEDOTS := rfl
  simp only [ffpathNorm, hdefault, habs, hrun, bind, Except.bind]
  rw [if_neg fun h => hne h.1]

/-- **Normalization with the default flags** writes only inside of the destination. Its output has
the location of the path, none but the needed names, is not longer than the path and is not changed
by another normalization. -/
theorem ffpathNorm_default {path : List UInt8} (hpath : path ≠ []) (hcap : 1 ≤ cap) :
    ffpathNorm cap path {} ≠ .error .fault ∧
      ∀ dst, ffpathNorm cap path {} = .ok dst →
        locate dst = locate path ∧
        (∀ p ∈ namesBelowRoot {} dst, p.1 ≠ [] ∧ (p.1 = [DOT] → dst = [DOT]) ∧
          (p.1 = [DOT, DOT] → (locate path).abs = false ∧ (locate path).ups ≠ 0)) ∧
        dst.length ≤ path.length ∧ ffpathNorm cap dst {} = .ok dst := by
  refine ⟨ffpathNorm_ne_fault hcap path {}, fun dst h => ?_⟩
  have hdefault : PathFlags.orDefault {} = FFPATH_MERGEDOTS := rfl
  simp only [ffpathNorm, hdefault, bind, Except.bind] at h
  split at h
  · cases h
  rename_i v hloop
  have hlen := normLoop_length hloop
  rw [Split.join_parts, nil_append, length_nil, Nat.zero_add] at hlen
  have hlecap := normLoop_le_cap (by simp) hloop
  obtain ⟨out, hnormal, hwritten, hloc⟩ := normLoop_default_path hloop
  split at h
  · rename_i hempty
    obtain ⟨habs, rfl⟩ := hwritten.of_nil hnormal hempty.1
    have hdst : dst = [DOT] := by
      rw [hempty.1, writeDst] at h
      split at h
      · exact (Except.ok.inj h).symm
      · cases h
    have hstart : locate path = ⟨false, 0, []⟩ := by
      rw [← hloc, foldl_nil, startOf, ← habs]
      rfl
    have hnames : namesBelowRoot {} [DOT] = [([DOT], none)] := by decide
    have hloop' : normLoop FFPATH_MERGEDOTS cap false true ⟨[], 0, false⟩
        (Split.parts (isSlash FFPATH_MERGEDOTS) [] [DOT]) = .ok ⟨[], 0, false⟩ := by rfl
    have habs' : isAbs FFPATH_MERGEDOTS [DOT] = false := by decide
    rw [hdst, hstart, hnames]
    refine ⟨by decide, by simp [DOT], ?_, ?_⟩
    · exact Nat.one_le_iff_ne_zero.mpr fun h0 => hpath (eq_nil_of_length_eq_zero h0)
    · simp [ffpathNorm, hdefault, habs', hloop', writeDst, hcap, bind, Except.bind]
  rename_i hne
  obtain rfl := Except.ok.inj h
  have hne' : v.dst ≠ [] := fun h0 => hne ⟨h0, hpath⟩
  obtain ⟨-, hlocate, hnames, hagain⟩ := hwritten.again hnormal hne' hlecap
  have hstart : startOf path = ⟨(startOf path).abs, 0, []⟩ := rfl
  rw [← hstart, hloc] at hlocate
  refine ⟨hlocate, fun p hp => ?_, hlen, hagain⟩
  have hmem : p.1 ∈ out := by
    rw [← hnames]
    exact mem_map_of_mem hp
  have hplain := hnormal.plain p.1 hmem
  refine ⟨hplain.ne_nil, fun hdot => absurd hdot hplain.ne_dot, fun hdd => ?_⟩
  obtain ⟨habs, hups⟩ := ups_ne_zero hnormal (hdd ▸ hmem)
  rw [← hstart, hloc] at hups
  refine ⟨?_, hups⟩
  rw [← hloc, foldl_walk_abs, habs]

/-- A path with superfluous names. -/
theorem ffpathNorm_default_superfluous :
    locate (ascii "/a/c") = locate (ascii "/a/./b//../c") ∧
      ffpathNorm 12 (ascii "/a/c") {} = .ok (ascii "/a/c") := by
  have h := @ffpathNorm_default 12 (ascii "/a/./b//../c") (by decide) (by decide)
  obtain ⟨hlocate, -, -, hagain⟩ := h.2 (ascii "/a/c") (by decide)
  exact ⟨hlocate, hagain⟩

end Whole

end Path

end FF
