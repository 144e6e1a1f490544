import Mathlib.Tactic.TypeStar

/-!
# Runs and refinement

A program that is called again and again is a step function on a state: a call may fail
(`none`: a fault, a failed assertion, a loop that does not end) or give a new state and a
result. Its purpose is stated by an abstract machine, whose calls never fail, together with
the calls that a user may make (`legal`, which may look at both states).

`Simulates` is the proof obligation for one call. `Simulates.runs` is what it gives for runs:
every legal run of calls succeeds, with the results of the abstract machine.

Where only an invariant is wanted, the obligation is `Preserves`: every step that is allowed
succeeds and keeps the invariant (`Preserves.run`).

Where the abstract machine leaves a choice (`SpecRun`), the obligation is `Refines`, and
`Refines.runs` says that the results of a run are among those it allows.
-/

namespace FF

section Runs

variable {S O R : Type*}

/-- The calls one after another: the last state and the results. -/
def runs (step : S → O → Option (S × R)) : S → List O → Option (S × List R)
  | s, [] => some (s, [])
  | s, o :: os => do
      let (s, r) ← step s o
      let (s, rs) ← runs step s os
      some (s, r :: rs)

/-- The same for an abstract machine. -/
def specRuns {G : Type*} (next : G → O → G × R) : G → List O → G × List R
  | g, [] => (g, [])
  | g, o :: os =>
    let (g, r) := next g o
    let (g, rs) := specRuns next g os
    (g, r :: rs)

/-- Every call of the run is legal where it is made. -/
def LegalRun {G : Type*} (next : G → O → G × R) (step : S → O → Option (S × R))
    (legal : G → S → O → Prop) : G → S → List O → Prop
  | _, _, [] => True
  | g, s, o :: os =>
    legal g s o ∧ ∀ s' r, step s o = some (s', r) →
      LegalRun next step legal (next g o).1 s' os

/-- A legal call in front of a legal run. -/
theorem LegalRun.cons {G : Type*} {next : G → O → G × R} {step : S → O → Option (S × R)}
    {legal : G → S → O → Prop} {g : G} {s s' : S} {o : O} {r : R} {os : List O}
    (hs : step s o = some (s', r)) (hl : legal g s o)
    (h : LegalRun next step legal (next g o).1 s' os) :
    LegalRun next step legal g s (o :: os) := by
  refine ⟨hl, fun s'' r' he => ?_⟩
  obtain ⟨rfl, -⟩ := Prod.mk.inj (Option.some.inj (hs.symm.trans he))
  exact h

/-- A run can be checked by making it. -/
instance LegalRun.decidable {G : Type*} (next : G → O → G × R) (step : S → O → Option (S × R))
    (legal : G → S → O → Prop) [∀ g s o, Decidable (legal g s o)] :
    ∀ g s os, Decidable (LegalRun next step legal g s os)
  | _, _, [] => isTrue trivial
  | g, s, o :: os =>
    match h : step s o with
    | none => decidable_of_iff (legal g s o) (by simp [LegalRun, h])
    | some (s', _) =>
      have := LegalRun.decidable next step legal (next g o).1 s' os
      decidable_of_iff (legal g s o ∧ LegalRun next step legal (next g o).1 s' os) (by
        simp [LegalRun, h])

theorem specRuns_append {G : Type*} (next : G → O → G × R) (g : G) (os os' : List O) :
    specRuns next g (os ++ os') = ((specRuns next (specRuns next g os).1 os').1,
      (specRuns next g os).2 ++ (specRuns next (specRuns next g os).1 os').2) := by
  induction os generalizing g with
  | nil => rfl
  | cons o os ih => simp [specRuns, ih]

/-- A legal call succeeds with the result of the abstract machine and keeps the relation
between the states. -/
def Simulates {G : Type*} (next : G → O → G × R) (step : S → O → Option (S × R))
    (legal : G → S → O → Prop) (inv : G → S → Prop) : Prop :=
  ∀ g s o, inv g s → legal g s o →
    ∃ s', step s o = some (s', (next g o).2) ∧ inv (next g o).1 s'

/-- **A legal run succeeds**, with the results of the abstract machine. -/
theorem Simulates.runs {G : Type*} {next : G → O → G × R} {step : S → O → Option (S × R)}
    {legal : G → S → O → Prop} {inv : G → S → Prop} (hsim : Simulates next step legal inv)
    {g : G} {s : S} {os : List O} (hinv : inv g s) (hlegal : LegalRun next step legal g s os) :
    ∃ s', runs step s os = some (s', (specRuns next g os).2) ∧
      inv (specRuns next g os).1 s' := by
  induction os generalizing g s with
  | nil => exact ⟨s, rfl, hinv⟩
  | cons o os ih =>
    obtain ⟨hl, hrest⟩ := hlegal
    obtain ⟨s₁, hs₁, hinv₁⟩ := hsim g s o hinv hl
    obtain ⟨s₂, hs₂, hinv₂⟩ := ih hinv₁ (hrest s₁ _ hs₁)
    exact ⟨s₂, by simp [FF.runs, hs₁, hs₂, specRuns], hinv₂⟩

/-- The second part of a legal run is legal where the first one ended. -/
theorem Simulates.legalRun_append {G : Type*} {next : G → O → G × R}
    {step : S → O → Option (S × R)} {legal : G → S → O → Prop} {inv : G → S → Prop}
    (hsim : Simulates next step legal inv) {g : G} {s : S} {os os' : List O} (hinv : inv g s)
    (h : LegalRun next step legal g s (os ++ os')) :
    ∃ s', inv (specRuns next g os).1 s' ∧
      LegalRun next step legal (specRuns next g os).1 s' os' := by
  induction os generalizing g s with
  | nil => exact ⟨s, hinv, h⟩
  | cons o os ih =>
    obtain ⟨hl, hrest⟩ := h
    obtain ⟨s₁, hs₁, hinv₁⟩ := hsim g s o hinv hl
    exact ih hinv₁ (hrest s₁ _ hs₁)

/-- A run of an abstract machine that leaves a choice: the results are allowed ones. -/
inductive SpecRun {G : Type*} (spec : G → O → R → G → Prop) : G → List O → List R → G → Prop
  | nil (g : G) : SpecRun spec g [] [] g
  | cons {g g' g'' : G} {o : O} {r : R} {os : List O} {rs : List R} (h : spec g o r g')
      (hs : SpecRun spec g' os rs g'') : SpecRun spec g (o :: os) (r :: rs) g''

/-- Every call succeeds with a result that the abstract machine allows and keeps the relation
between the states. -/
def Refines {G : Type*} (spec : G → O → R → G → Prop) (step : S → O → Option (S × R))
    (inv : G → S → Prop) : Prop :=
  ∀ g s o, inv g s → ∃ s' r g', step s o = some (s', r) ∧ spec g o r g' ∧ inv g' s'

/-- **Every run succeeds**, with results that the abstract machine allows. -/
theorem Refines.runs {G : Type*} {spec : G → O → R → G → Prop} {step : S → O → Option (S × R)}
    {inv : G → S → Prop} (href : Refines spec step inv) {g : G} {s : S} (os : List O)
    (hinv : inv g s) :
    ∃ s' rs g', runs step s os = some (s', rs) ∧ SpecRun spec g os rs g' ∧ inv g' s' := by
  induction os generalizing g s with
  | nil => exact ⟨s, [], g, rfl, .nil g, hinv⟩
  | cons o os ih =>
    obtain ⟨s₁, r, g₁, hs₁, hspec, hinv₁⟩ := href g s o hinv
    obtain ⟨s₂, rs, g₂, hs₂, hrun, hinv₂⟩ := ih hinv₁
    exact ⟨s₂, r :: rs, g₂, by simp [FF.runs, hs₁, hs₂], .cons hspec hrun, hinv₂⟩

end Runs

section Invariants

variable {S O : Type*}

/-- The steps one after another. -/
def run (step : S → O → Option S) : S → List O → Option S
  | s, [] => some s
  | s, o :: os => (step s o).bind fun s => run step s os

/-- Every step of the run is allowed where it is made. -/
def GoodRun (step : S → O → Option S) (good : S → O → Prop) : S → List O → Prop
  | _, [] => True
  | s, o :: os => good s o ∧ ∀ s', step s o = some s' → GoodRun step good s' os

/-- A run can be checked by making it. -/
instance GoodRun.decidable (step : S → O → Option S) (good : S → O → Prop)
    [∀ s o, Decidable (good s o)] : ∀ s os, Decidable (GoodRun step good s os)
  | _, [] => isTrue trivial
  | s, o :: os =>
    match h : step s o with
    | none => decidable_of_iff (good s o) (by simp [GoodRun, h])
    | some s' =>
      have := GoodRun.decidable step good s' os
      decidable_of_iff (good s o ∧ GoodRun step good s' os) (by simp [GoodRun, h])

theorem GoodRun.of_forall {step : S → O → Option S} {good : S → O → Prop}
    (h : ∀ s o, good s o) (s : S) (os : List O) : GoodRun step good s os := by
  induction os generalizing s with
  | nil => trivial
  | cons o os ih => exact ⟨h s o, fun s' _ => ih s'⟩

/-- A good run is good in its first part, and behind it. -/
theorem GoodRun.of_append {step : S → O → Option S} {good : S → O → Prop} {s : S}
    {os os' : List O} (h : GoodRun step good s (os ++ os')) :
    GoodRun step good s os ∧ ∀ s', run step s os = some s' → GoodRun step good s' os' := by
  induction os generalizing s with
  | nil =>
    refine ⟨trivial, fun s' he => ?_⟩
    obtain rfl := Option.some.inj he
    exact h
  | cons o os ih =>
    obtain ⟨hg, hrest⟩ := h
    refine ⟨⟨hg, fun s' hs' => (ih (hrest s' hs')).1⟩, fun s' he => ?_⟩
    obtain ⟨s₁, hs₁, he⟩ := Option.bind_eq_some_iff.mp he
    exact (ih (hrest s₁ hs₁)).2 s' he

/-- An allowed step succeeds and keeps the invariant. -/
def Preserves (step : S → O → Option S) (good : S → O → Prop) (inv : S → Prop) : Prop :=
  ∀ s o, inv s → good s o → ∃ s', step s o = some s' ∧ inv s'

/-- **A run of allowed steps succeeds** and keeps the invariant. -/
theorem Preserves.run {step : S → O → Option S} {good : S → O → Prop} {inv : S → Prop}
    (hpres : Preserves step good inv) {s : S} {os : List O} (hinv : inv s)
    (hgood : GoodRun step good s os) : ∃ s', run step s os = some s' ∧ inv s' := by
  induction os generalizing s with
  | nil => exact ⟨s, rfl, hinv⟩
  | cons o os ih =>
    obtain ⟨hg, hrest⟩ := hgood
    obtain ⟨s₁, hs₁, hinv₁⟩ := hpres s o hinv hg
    obtain ⟨s₂, hs₂, hinv₂⟩ := ih hinv₁ (hrest s₁ hs₁)
    exact ⟨s₂, by simp [FF.run, hs₁, hs₂], hinv₂⟩

/-- **The allowed runs are those that stay right**, where a step that is not allowed shows: the
invariant implies `P`, and what a step gives that is not allowed is not `P`. -/
theorem Preserves.goodRun_iff {step : S → O → Option S} {good : S → O → Prop} {inv P : S → Prop}
    (hpres : Preserves step good inv) (hP : ∀ s, inv s → P s)
    (hbad : ∀ s o, inv s → ¬good s o → ∀ s', step s o = some s' → ¬P s') {s : S} {os : List O}
    (hinv : inv s) :
    GoodRun step good s os ↔ ∀ os', os' <+: os → ∃ s', FF.run step s os' = some s' ∧ P s' := by
  constructor
  · rintro hgood os' ⟨rest, rfl⟩
    obtain ⟨s', hrun, hinv'⟩ := hpres.run hinv hgood.of_append.1
    exact ⟨s', hrun, hP s' hinv'⟩
  intro hall
  induction os generalizing s with
  | nil => trivial
  | cons o os ih =>
    obtain ⟨s₁, hrun₁, hP₁⟩ := hall [o] (List.prefix_append [o] os)
    rw [FF.run, Option.bind_eq_some_iff] at hrun₁
    obtain ⟨s₂, hs₂, hrun₂⟩ := hrun₁
    obtain rfl := Option.some.inj hrun₂
    have hgood : good s o :=
      Classical.not_not.mp fun hno => hbad s o hinv hno _ hs₂ hP₁
    obtain ⟨s₃, hs₃, hinv₃⟩ := hpres s o hinv hgood
    refine ⟨hgood, fun s' hs' => ?_⟩
    obtain rfl := Option.some.inj (hs₃.symm.trans hs')
    refine ih hinv₃ fun os' hos' => ?_
    obtain ⟨s'', hrun', hP'⟩ := hall (o :: os') (List.cons_prefix_cons.mpr ⟨rfl, hos'⟩)
    rw [FF.run, hs', Option.bind_some] at hrun'
    exact ⟨s'', hrun', hP'⟩

/-- What allowed steps keep holds behind a run of them, where the run does not fail. -/
theorem GoodRun.inv {step : S → O → Option S} {good : S → O → Prop} {inv : S → Prop}
    (hstep : ∀ {s o s'}, inv s → good s o → step s o = some s' → inv s') {s s' : S} {os : List O}
    (hinv : inv s) (hgood : GoodRun step good s os) (h : run step s os = some s') : inv s' := by
  induction os generalizing s with
  | nil =>
    cases h
    exact hinv
  | cons o os ih =>
    obtain ⟨hg, hrest⟩ := hgood
    obtain ⟨s₁, hs₁, h⟩ := Option.bind_eq_some_iff.mp h
    exact ih (hstep hinv hg hs₁) (hrest s₁ hs₁) h

end Invariants

end FF
