import FF.Lib.Incremental
import Mathlib.Algebra.Order.Group.Nat
import Mathlib.Data.List.Basic

/-!
# Readers that gather units

The input of a reader comes in chunks. The reader collects the bytes of a unit (a header, a
block, a name up to its end) until it is complete, and only then acts on it. What the input means
is given by a function that takes a complete unit off the front of it (`units`), and does not
depend on how the input has been divided.

A reader is a pass over its chunk, made again and again: a pass gives a code or goes on with the
next pass, and a call ends with the first code. `Follows` says that each pass keeps what the bytes
that have been collected and the rest of the chunk mean together.
-/

namespace FF

open List Option

/-! ### Units -/

section Definitions

variable {A β E : Type}

/-- The units at the front of the input: what they mean, and then the state and the bytes that are
not a whole unit, or nothing where a unit has ended the reading. -/
@[grind =] def unitRun (unit : A → List β → Option (List E × Option A × List β)) :
    ℕ → A → List β → List E × Option (A × List β)
  | 0, a, s => ([], some (a, s))
  | n + 1, a, s =>
    match unit a s with
    | none => ([], some (a, s))
    | some (es, none, _) => (es, none)
    | some (es, some a', r) => (es ++ (unitRun unit n a' r).1, (unitRun unit n a' r).2)

/-- **What the input means** -/
def units (unit : A → List β → Option (List E × Option A × List β)) (a : A) (s : List β) :
    List E × Option (A × List β) :=
  unitRun unit s.length a s

/-- Every unit that is taken is allowed. -/
@[grind =] def unitsGood (unit : A → List β → Option (List E × Option A × List β))
    (good : A → List β → Prop) : ℕ → A → List β → Prop
  | 0, _, _ => True
  | n + 1, a, s =>
    match unit a s with
    | none => True
    | some (_, none, _) => good a s
    | some (_, some a', r) => good a s ∧ unitsGood unit good n a' r

/-- **Every unit of the input is allowed.** -/
def UnitsGood (unit : A → List β → Option (List E × Option A × List β))
    (good : A → List β → Prop) (a : A) (s : List β) : Prop :=
  unitsGood unit good s.length a s

/-- Allowed units can be checked by taking them. -/
instance unitsGood.decidable (unit : A → List β → Option (List E × Option A × List β))
    (good : A → List β → Prop) [∀ a s, Decidable (good a s)] :
    ∀ n a s, Decidable (unitsGood unit good n a s)
  | 0, _, _ => isTrue trivial
  | n + 1, a, s =>
    match h : unit a s with
    | none => isTrue (by simp [unitsGood, h])
    | some (_, none, _) => decidable_of_iff (good a s) (by simp [unitsGood, h])
    | some (_, some a', r) =>
      have := unitsGood.decidable unit good n a' r
      decidable_of_iff (good a s ∧ unitsGood unit good n a' r) (by simp [unitsGood, h])

instance UnitsGood.decidable (unit : A → List β → Option (List E × Option A × List β))
    (good : A → List β → Prop) [∀ a s, Decidable (good a s)] (a : A) (s : List β) :
    Decidable (UnitsGood unit good a s) :=
  unitsGood.decidable unit good s.length a s

/-- A unit takes bytes, and the bytes behind it do not matter. -/
structure IsUnit (unit : A → List β → Option (List E × Option A × List β)) : Prop where
  shorter : ∀ {a s es a' r}, unit a s = some (es, a', r) → r.length < s.length
  append : ∀ {a s es a' r}, unit a s = some (es, a', r) → ∀ t, unit a (s ++ t) = some (es, a', r ++ t)

end Definitions

section Units

variable {A β E : Type} {unit : A → List β → Option (List E × Option A × List β)}
  {good : A → List β → Prop}

/-- As many steps as there are bytes are enough. -/
theorem unitRun_of_le (hu : IsUnit unit) {n m : ℕ} {a : A} {s : List β} (hn : s.length ≤ n)
    (hm : s.length ≤ m) : unitRun unit n a s = unitRun unit m a s := by
  induction n generalizing m a s with
  | zero =>
    obtain rfl : s = [] := length_eq_zero_iff.mp (by omega)
    cases m with
    | zero => rfl
    | succ m =>
      cases h : unit a [] with
      | none => simp [unitRun, h]
      | some p => exact absurd (hu.shorter h) (Nat.not_lt_zero _)
  | succ n ih =>
    cases m with
    | zero =>
      obtain rfl : s = [] := length_eq_zero_iff.mp (by omega)
      cases h : unit a [] with
      | none => simp [unitRun, h]
      | some p => exact absurd (hu.shorter h) (Nat.not_lt_zero _)
    | succ m =>
      rw [unitRun, unitRun]
      cases h : unit a s with
      | none => rfl
      | some p =>
        obtain ⟨es, a', r⟩ := p
        have hr := hu.shorter h
        cases a' with
        | none => rfl
        | some a' =>
          have heq := @ih m a' r (by omega) (by omega)
          simp only [heq]

/-- Bytes that are not a whole unit mean nothing yet. -/
theorem units_none {a : A} {s : List β} (h : unit a s = none) : units unit a s = ([], some (a, s)) := by
  rw [units]
  cases s.length with
  | zero => rfl
  | succ n => rw [unitRun, h]

/-- A unit that ends the reading. -/
theorem units_last (hu : IsUnit unit) {a : A} {s r : List β} {es : List E}
    (h : unit a s = some (es, none, r)) : units unit a s = (es, none) := by
  obtain ⟨n, hn⟩ := Nat.exists_eq_succ_of_ne_zero (Nat.ne_zero_of_lt (hu.shorter h))
  rw [units, hn, unitRun, h]

/-- A unit, and then the others. -/
theorem units_some (hu : IsUnit unit) {a a' : A} {s r : List β} {es : List E}
    (h : unit a s = some (es, some a', r)) :
    units unit a s = (es ++ (units unit a' r).1, (units unit a' r).2) := by
  have hr := hu.shorter h
  obtain ⟨n, hn⟩ := Nat.exists_eq_succ_of_ne_zero (Nat.ne_zero_of_lt hr)
  have heq : unitRun unit n a' r = units unit a' r := unitRun_of_le hu (by omega) le_rfl
  rw [units, hn, unitRun, h]
  simp only [heq]

/-- As many steps as there are bytes are enough. -/
theorem unitsGood_of_le (hu : IsUnit unit) {n m : ℕ} {a : A} {s : List β} (hn : s.length ≤ n)
    (hm : s.length ≤ m) : unitsGood unit good n a s ↔ unitsGood unit good m a s := by
  induction n generalizing m a s with
  | zero =>
    obtain rfl : s = [] := length_eq_zero_iff.mp (by omega)
    cases m with
    | zero => exact Iff.rfl
    | succ m =>
      cases h : unit a [] with
      | none => simp [unitsGood, h]
      | some p => exact absurd (hu.shorter h) (Nat.not_lt_zero _)
  | succ n ih =>
    cases m with
    | zero =>
      obtain rfl : s = [] := length_eq_zero_iff.mp (by omega)
      cases h : unit a [] with
      | none => simp [unitsGood, h]
      | some p => exact absurd (hu.shorter h) (Nat.not_lt_zero _)
    | succ m =>
      rw [unitsGood, unitsGood]
      cases h : unit a s with
      | none => exact Iff.rfl
      | some p =>
        obtain ⟨es, a', r⟩ := p
        have hr := hu.shorter h
        cases a' with
        | none => exact Iff.rfl
        | some a' => exact and_congr_right fun _ => ih (by omega) (by omega)

theorem unitsGood_none {a : A} {s : List β} (h : unit a s = none) : UnitsGood unit good a s := by
  rw [UnitsGood]
  cases s.length with
  | zero => exact trivial
  | succ n =>
    rw [unitsGood, h]
    exact trivial

theorem unitsGood_last (hu : IsUnit unit) {a : A} {s r : List β} {es : List E}
    (h : unit a s = some (es, none, r)) : UnitsGood unit good a s ↔ good a s := by
  obtain ⟨n, hn⟩ := Nat.exists_eq_succ_of_ne_zero (Nat.ne_zero_of_lt (hu.shorter h))
  rw [UnitsGood, hn, unitsGood, h]

/-- Allowed units: the first and then the others. -/
theorem unitsGood_some (hu : IsUnit unit) {a a' : A} {s r : List β} {es : List E}
    (h : unit a s = some (es, some a', r)) :
    UnitsGood unit good a s ↔ good a s ∧ UnitsGood unit good a' r := by
  have hr := hu.shorter h
  obtain ⟨n, hn⟩ := Nat.exists_eq_succ_of_ne_zero (Nat.ne_zero_of_lt hr)
  rw [UnitsGood, hn, unitsGood, h]
  exact and_congr_right fun _ => unitsGood_of_le hu (by omega) le_rfl

theorem unitsGood_head (hu : IsUnit unit) {a : A} {s : List β} {p : List E × Option A × List β}
    (h : unit a s = some p) (hgood : UnitsGood unit good a s) : good a s := by
  obtain ⟨es, b, r⟩ := p
  cases b with
  | none => exact (unitsGood_last hu h).mp hgood
  | some b => exact ((unitsGood_some hu h).mp hgood).1

/-- Allowed units in front of other bytes, where these do not matter for a whole unit. -/
theorem unitsGood_front (hu : IsUnit unit)
    (hgood : ∀ {a s p}, unit a s = some p → ∀ t, good a (s ++ t) → good a s) {a : A}
    {s t : List β} (h : UnitsGood unit good a (s ++ t)) : UnitsGood unit good a s := by
  obtain ⟨n, hn⟩ : ∃ n, s.length ≤ n := ⟨_, le_rfl⟩
  induction n generalizing a s with
  | zero =>
    obtain rfl : s = [] := length_eq_zero_iff.mp (by omega)
    exact trivial
  | succ n ih =>
    cases hp : unit a s with
    | none => exact unitsGood_none hp
    | some p =>
      obtain ⟨es, b, r⟩ := p
      have hr := hu.shorter hp
      cases b with
      | none =>
        have h' := (unitsGood_last hu (hu.append hp t)).mp h
        exact (unitsGood_last hu hp).mpr (hgood hp t h')
      | some b =>
        obtain ⟨hg, hrest⟩ := (unitsGood_some hu (hu.append hp t)).mp h
        exact (unitsGood_some hu hp).mpr ⟨hgood hp t hg, ih hrest (by omega)⟩

end Units

/-! ### Some units, one after the other -/

/-- Units have been taken: the state and the bytes before them, what they mean, and the state and
the bytes behind them. -/
inductive Takes {A β E : Type} (unit : A → List β → Option (List E × Option A × List β)) :
    A → List β → List E → A → List β → Prop
  | refl {a : A} {s : List β} : Takes unit a s [] a s
  | cons {a a' a'' : A} {s s' s'' : List β} {es es' : List E}
      (h : unit a s = some (es, some a', s')) (hrest : Takes unit a' s' es' a'' s'') :
      Takes unit a s (es ++ es') a'' s''

namespace Takes

variable {A β E : Type} {unit : A → List β → Option (List E × Option A × List β)}
  {good : A → List β → Prop} {a a' a'' : A} {s s' s'' : List β} {es es' : List E}

theorem one (h : unit a s = some (es, some a', s')) : Takes unit a s es a' s' := by
  have h' := cons h refl
  rwa [append_nil] at h'

theorem trans (h : Takes unit a s es a' s') (h' : Takes unit a' s' es' a'' s'') :
    Takes unit a s (es ++ es') a'' s'' := by
  induction h with
  | refl => exact h'
  | cons hu _ ih =>
    rw [append_assoc]
    exact cons hu (ih h')

/-- **Units that have been taken do not depend on what comes behind them.** -/
theorem append (hu : IsUnit unit) (h : Takes unit a s es a' s') (t : List β) :
    Takes unit a (s ++ t) es a' (s' ++ t) := by
  induction h with
  | refl => exact refl
  | cons hp _ ih => exact cons (hu.append hp t) ih

/-- What is behind the units is what they leave. -/
theorem units (hu : IsUnit unit) (h : Takes unit a s es a' s') :
    FF.units unit a s = (es ++ (FF.units unit a' s').1, (FF.units unit a' s').2) := by
  induction h with
  | refl => rfl
  | cons hp _ ih =>
    rw [units_some hu hp, ih]
    simp only [append_assoc]

theorem unitsGood (hu : IsUnit unit) (h : Takes unit a s es a' s')
    (hgood : UnitsGood unit good a s) : UnitsGood unit good a' s' := by
  induction h with
  | refl => exact hgood
  | cons hp _ ih => exact ih ((unitsGood_some hu hp).mp hgood).2

end Takes

/-! ### Readers -/

/-- A pass of the loop of a reader: memory is accessed outside of an object or an assertion fails,
the loop goes on, or the reader returns a code. -/
inductive Pass (P β R : Type)
  | fault
  | again (p : P) (d : List β)
  | ret (p : P) (d : List β) (r : R)

/-- A call has returned: the code, the input that is left, and the reader. -/
structure Return (P β R : Type) where
  code : R
  left : List β
  state : P

section Readers

variable {P β R : Type}

/-- A call of the reader: passes until one gives a code. -/
@[grind =] def call (pass : P → List β → Pass P β R) : ℕ → P → List β → Option (Return P β R)
  | 0, _, _ => none
  | n + 1, p, d =>
    match pass p d with
    | .fault => none
    | .again p d => call pass n p d
    | .ret p d r => some ⟨r, d, p⟩

/-- The caller with a chunk: calls until the reader wants more input or has stopped. -/
@[grind =] def drain (pass : P → List β → Pass P β R) (verdict : R → Verdict) (fuel : List β → ℕ) :
    ℕ → P → List β → Option (List (Return P β R) × Return P β R)
  | 0, _, _ => none
  | n + 1, p, d => do
      let r ← call pass (fuel d) p d
      match verdict r.code with
      | .event => do
          let (rs, last) ← drain pass verdict fuel n r.state r.left
          some (r :: rs, last)
      | _ => some ([], r)

/-- The caller with chunks one after another, the last of which it announces: all returns. -/
@[grind =] def drains (pass : P → List β → Pass P β R) (verdict : R → Verdict) (fuel : List β → ℕ)
    (announce : P → P) : P → List (List β) → Option (List (Return P β R))
  | _, [] => some []
  | p, [d] => do
      let (rs, last) ← drain pass verdict fuel (fuel d) (announce p) d
      some (rs ++ [last])
  | p, d :: ds => do
      let (rs, last) ← drain pass verdict fuel (fuel d) p d
      if verdict last.code = .stop then some (rs ++ [last])
      else
        let rest ← drains pass verdict fuel announce last.state ds
        some (rs ++ last :: rest)

end Readers

/-! ### Passes that meet a condition -/

section Meets

variable {P β R : Type} (ok : P → List β → Prop) (pass : P → List β → Pass P β R)
  (verdict : R → Verdict) (fuel : List β → ℕ) (announce : P → P)

/-- All passes of a call meet the condition. -/
@[grind =] def CallMeets : ℕ → P → List β → Prop
  | 0, _, _ => True
  | n + 1, p, d =>
    ok p d ∧
      match pass p d with
      | .again p d => CallMeets n p d
      | _ => True

/-- All passes of the calls with a chunk meet the condition. -/
@[grind =] def DrainMeets : ℕ → P → List β → Prop
  | 0, _, _ => True
  | n + 1, p, d =>
    CallMeets ok pass (fuel d) p d ∧
      match call pass (fuel d) p d with
      | some r => verdict r.code = .event → DrainMeets n r.state r.left
      | none => True

/-- **All passes of the calls with chunks one after another meet the condition.** -/
@[grind =] def DrainsMeet : P → List (List β) → Prop
  | _, [] => True
  | p, [d] => DrainMeets ok pass verdict fuel (fuel d) (announce p) d
  | p, d :: ds =>
    DrainMeets ok pass verdict fuel (fuel d) p d ∧
      match drain pass verdict fuel (fuel d) p d with
      | some (_, last) => verdict last.code = .more → DrainsMeet last.state ds
      | none => True

end Meets

section MeetsInstances

variable {P β R : Type} {ok : P → List β → Prop} {pass : P → List β → Pass P β R}
  {verdict : R → Verdict} {fuel : List β → ℕ} {announce : P → P}

/-- A condition on passes can be checked by running them. -/
instance CallMeets.decidable [∀ p d, Decidable (ok p d)] :
    ∀ n p d, Decidable (CallMeets ok pass n p d)
  | 0, _, _ => isTrue trivial
  | n + 1, p, d =>
    match h : pass p d with
    | .fault => decidable_of_iff (ok p d) (by simp [CallMeets, h])
    | .ret _ _ _ => decidable_of_iff (ok p d) (by simp [CallMeets, h])
    | .again p' d' =>
      have := CallMeets.decidable n p' d'
      decidable_of_iff (ok p d ∧ CallMeets ok pass n p' d') (by simp [CallMeets, h])

instance DrainMeets.decidable [∀ p d, Decidable (ok p d)] :
    ∀ n p d, Decidable (DrainMeets ok pass verdict fuel n p d)
  | 0, _, _ => isTrue trivial
  | n + 1, p, d =>
    match h : call pass (fuel d) p d with
    | none => decidable_of_iff (CallMeets ok pass (fuel d) p d) (by simp [DrainMeets, h])
    | some r =>
      have := DrainMeets.decidable n r.state r.left
      decidable_of_iff (CallMeets ok pass (fuel d) p d ∧ (verdict r.code = .event →
        DrainMeets ok pass verdict fuel n r.state r.left)) (by simp [DrainMeets, h])

instance DrainsMeet.decidable [∀ p d, Decidable (ok p d)] :
    ∀ p cs, Decidable (DrainsMeet ok pass verdict fuel announce p cs)
  | _, [] => isTrue trivial
  | p, [d] =>
    inferInstanceAs (Decidable (DrainMeets ok pass verdict fuel (fuel d) (announce p) d))
  | p, d :: d' :: ds =>
    match h : drain pass verdict fuel (fuel d) p d with
    | none =>
      decidable_of_iff (DrainMeets ok pass verdict fuel (fuel d) p d) (by simp [DrainsMeet, h])
    | some (rs, last) =>
      have := DrainsMeet.decidable last.state (d' :: ds)
      decidable_of_iff (DrainMeets ok pass verdict fuel (fuel d) p d ∧
        (verdict last.code = .more →
          DrainsMeet ok pass verdict fuel announce last.state (d' :: ds)))
        (by simp [DrainsMeet, h])

/-- Where there is no condition, all passes meet it. -/
theorem callMeets_true (n : ℕ) (p : P) (d : List β) : CallMeets (fun _ _ => True) pass n p d := by
  induction n generalizing p d with
  | zero => exact trivial
  | succ n ih =>
    rw [CallMeets]
    refine ⟨trivial, ?_⟩
    cases pass p d with
    | fault => exact trivial
    | again p' d' => exact ih p' d'
    | ret p' d' r => exact trivial

theorem drainMeets_true (n : ℕ) (p : P) (d : List β) :
    DrainMeets (fun _ _ => True) pass verdict fuel n p d := by
  induction n generalizing p d with
  | zero => exact trivial
  | succ n ih =>
    rw [DrainMeets]
    refine ⟨callMeets_true (fuel d) p d, ?_⟩
    cases call pass (fuel d) p d with
    | none => exact trivial
    | some r => exact fun _ => ih r.state r.left

theorem drainsMeet_true (p : P) (cs : List (List β)) :
    DrainsMeet (fun _ _ => True) pass verdict fuel announce p cs := by
  induction cs generalizing p with
  | nil => exact trivial
  | cons d cs ih =>
    cases cs with
    | nil => exact drainMeets_true (fuel d) (announce p) d
    | cons d' cs =>
      rw [DrainsMeet]
      refine ⟨drainMeets_true (fuel d) p d, ?_⟩
      cases drain pass verdict fuel (fuel d) p d with
      | none => exact trivial
      | some q => exact fun _ => ih q.2.state
      · exact fun h => cons_ne_nil d' cs h

end MeetsInstances

/-! ### Readers that gather units -/

section Follows

variable {P A β R E : Type}

/-- The calls have come to an end of the chunk: more input is wanted, or the reader has stopped. -/
def EndKeeps (verdict : R → Verdict) (ev : R → List E)
    (unit : A → List β → Option (List E × Option A × List β)) (atEnd : A → List β → List E)
    (rel : P → A → Prop) (held : P → List β) (owed : P → List E) (a : A) (s : List β)
    (r : Return P β R) : Prop :=
  (verdict r.code = .more ∧ rel r.state a ∧ held r.state = s ∧ owed r.state = [] ∧
    unit a s = none ∧ atEnd a s = [] ∧ r.left <:+ s) ∨
  (verdict r.code = .stop ∧ ((∃ s', unit a s = some (ev r.code, none, s')) ∨
    unit a s = none ∧ atEnd a s = ev r.code))

/-- What a pass has to keep, for a reader that is where `a` is: `s` is what the bytes that have
been collected (`held`) and the rest of the chunk are together, `o` the events that are still to be
given (`owed`), and `k` a bound for the passes of the call (`rank`). -/
def PassKeeps (verdict : R → Verdict) (ev : R → List E)
    (unit : A → List β → Option (List E × Option A × List β)) (atEnd : A → List β → List E)
    (rel : P → A → Prop) (held : P → List β) (owed : P → List E) (rank : P → List β → ℕ) (a : A)
    (s : List β) (o : List E) (k : ℕ) : Pass P β R → Prop
  | .fault => False
  | .again p' d' =>
    rank p' d' < k ∧ ∃ es a', o ++ es = owed p' ∧ Takes unit a s es a' (held p' ++ d') ∧ rel p' a'
  | .ret p' d' r =>
    (verdict r = .event ∧ rank p' d' < k ∧ ∃ es a', o ++ es = ev r ++ owed p' ∧
      Takes unit a s es a' (held p' ++ d') ∧ rel p' a') ∨
    ∃ es a' s', o ++ es = [] ∧ Takes unit a s es a' s' ∧
      EndKeeps verdict ev unit atEnd rel held owed a' s' ⟨r, d', p'⟩

/-- Units in front of what a pass keeps. -/
theorem PassKeeps.prepend {verdict : R → Verdict} {ev : R → List E}
    {unit : A → List β → Option (List E × Option A × List β)} {atEnd : A → List β → List E}
    {rel : P → A → Prop} {held : P → List β} {owed : P → List E} {rank : P → List β → ℕ} {a a' : A}
    {s s' : List β} {o es : List E} {k : ℕ} {ps : Pass P β R} (ht : Takes unit a s es a' s')
    (h : PassKeeps verdict ev unit atEnd rel held owed rank a' s' (o ++ es) k ps) :
    PassKeeps verdict ev unit atEnd rel held owed rank a s o k ps := by
  cases ps with
  | fault => exact h
  | again p' d' =>
    obtain ⟨hk, es', b, hes, ht', hrel⟩ := h
    exact ⟨hk, es ++ es', b, by rw [← append_assoc, hes], ht.trans ht', hrel⟩
  | ret p' d' r =>
    obtain ⟨hv, hk, es', b, hes, ht', hrel⟩ | ⟨es', b, t, hes, ht', hend⟩ := h
    · exact .inl ⟨hv, hk, es ++ es', b, by rw [← append_assoc, hes], ht.trans ht', hrel⟩
    · exact .inr ⟨es ++ es', b, t, by rw [← append_assoc, hes], ht.trans ht', hend⟩

/-- **The passes of a reader follow the units of the input**, where these are allowed. -/
structure Follows (pass : P → List β → Pass P β R) (verdict : R → Verdict) (ev : R → List E)
    (unit : A → List β → Option (List E × Option A × List β)) (good : A → List β → Prop)
    (atEnd : A → List β → List E) (rel : P → A → Prop) (held : P → List β) (owed : P → List E)
    (rank : P → List β → ℕ) : Prop where
  isUnit : IsUnit unit
  more : ∀ r, verdict r = .more → ev r = []
  keeps : ∀ {p a d}, rel p a → UnitsGood unit good a (held p ++ d) →
    PassKeeps verdict ev unit atEnd rel held owed rank a (held p ++ d) (owed p) (rank p d) (pass p d)

/-- **The passes of a reader that meet the condition `ok` follow the units of the input.** -/
structure FollowsWhere (ok : P → List β → Prop) (pass : P → List β → Pass P β R)
    (verdict : R → Verdict) (ev : R → List E)
    (unit : A → List β → Option (List E × Option A × List β)) (good : A → List β → Prop)
    (atEnd : A → List β → List E) (rel : P → A → Prop) (held : P → List β) (owed : P → List E)
    (rank : P → List β → ℕ) : Prop where
  isUnit : IsUnit unit
  more : ∀ r, verdict r = .more → ev r = []
  keeps : ∀ {p a d}, rel p a → UnitsGood unit good a (held p ++ d) → ok p d →
    PassKeeps verdict ev unit atEnd rel held owed rank a (held p ++ d) (owed p) (rank p d) (pass p d)

/-- What the input means, and what its end adds. -/
def meaning (unit : A → List β → Option (List E × Option A × List β))
    (atEnd : A → List β → List E) (a : A) (s : List β) : List E :=
  (units unit a s).1 ++
    match (units unit a s).2 with
    | none => []
    | some (a', r) => atEnd a' r

/-- What the events of some units are in front of. -/
theorem meaning_takes {unit : A → List β → Option (List E × Option A × List β)} (hu : IsUnit unit)
    {atEnd : A → List β → List E} {a a' : A} {s s' : List β} {es : List E}
    (h : Takes unit a s es a' s') :
    meaning unit atEnd a s = es ++ meaning unit atEnd a' s' := by
  rw [meaning, meaning, h.units hu, append_assoc]

theorem meaning_none {unit : A → List β → Option (List E × Option A × List β)}
    {atEnd : A → List β → List E} {a : A} {s : List β} (h : unit a s = none) :
    meaning unit atEnd a s = atEnd a s := by
  rw [meaning, units_none h, nil_append]

theorem meaning_last {unit : A → List β → Option (List E × Option A × List β)} (hu : IsUnit unit)
    {atEnd : A → List β → List E} {a : A} {s s' : List β} {es : List E}
    (h : unit a s = some (es, none, s')) : meaning unit atEnd a s = es := by
  rw [meaning, units_last hu h, append_nil]

variable {ok : P → List β → Prop} {pass : P → List β → Pass P β R} {verdict : R → Verdict}
  {ev : R → List E} {unit : A → List β → Option (List E × Option A × List β)} {good : A → List β → Prop}
  {atEnd atEnd' : A → List β → List E} {rel rel' : P → A → Prop} {held : P → List β}
  {owed : P → List E} {rank : P → List β → ℕ}

/-- **A call** ends. Its code is an event, behind which the reader goes on, or the end of the
chunk. -/
theorem FollowsWhere.call
    (h : FollowsWhere ok pass verdict ev unit good atEnd rel held owed rank) {n : ℕ} {p : P} {a : A}
    {d : List β} (hrel : rel p a) (hgood : UnitsGood unit good a (held p ++ d))
    (hok : CallMeets ok pass n p d) (hn : rank p d < n) :
    ∃ r es a', FF.call pass n p d = some r ∧
      ((verdict r.code = .event ∧ rank r.state r.left < rank p d ∧ rel r.state a' ∧
          owed p ++ es = ev r.code ++ owed r.state ∧
          Takes unit a (held p ++ d) es a' (held r.state ++ r.left)) ∨
        ∃ s', owed p ++ es = [] ∧ Takes unit a (held p ++ d) es a' s' ∧
          EndKeeps verdict ev unit atEnd rel held owed a' s' r) := by
  induction n generalizing p a d with
  | zero => omega
  | succ n ih =>
    obtain ⟨hpok, hrest⟩ := hok
    have hkeeps := h.keeps hrel hgood hpok
    rw [FF.call]
    cases hpass : pass p d with
    | fault =>
      rw [hpass] at hkeeps
      exact hkeeps.elim
    | again p' d' =>
      rw [hpass] at hkeeps hrest
      obtain ⟨hrank, es, a', hes, ht, hrel'⟩ := hkeeps
      obtain ⟨r, es', b, hr, hres⟩ := ih hrel' (ht.unitsGood h.isUnit hgood) hrest (by omega)
      refine ⟨r, es ++ es', b, hr, ?_⟩
      rw [← append_assoc, hes]
      obtain ⟨hv, hrk, hrl, howe, hts⟩ | ⟨s', howe, hts, hend⟩ := hres
      · exact .inl ⟨hv, by omega, hrl, howe, ht.trans hts⟩
      · exact .inr ⟨s', howe, ht.trans hts, hend⟩
    | ret p' d' r =>
      rw [hpass] at hkeeps
      obtain ⟨hv, hrk, es, a', hes, ht, hrel'⟩ | ⟨es, a', s', hes, ht, hend⟩ := hkeeps
      · exact ⟨⟨r, d', p'⟩, es, a', rfl, .inl ⟨hv, hrk, hrel', hes, ht⟩⟩
      · exact ⟨⟨r, d', p'⟩, es, a', rfl, .inr ⟨s', hes, ht, hend⟩⟩

/-- **The calls with a chunk** -/
theorem FollowsWhere.drain (h : FollowsWhere ok pass verdict ev unit good atEnd rel held owed rank)
    {fuel : List β → ℕ} (hfuel : ∀ {p a d}, rel p a → rank p d < fuel d) {n : ℕ} {p : P} {a : A}
    {d : List β} (hrel : rel p a) (hgood : UnitsGood unit good a (held p ++ d))
    (hok : DrainMeets ok pass verdict fuel n p d) (hn : rank p d < n) :
    ∃ rs last es a' s', FF.drain pass verdict fuel n p d = some (rs, last) ∧
      (∀ x ∈ rs, verdict x.code = .event) ∧ owed p ++ es = (rs.flatMap fun x => ev x.code) ∧
      Takes unit a (held p ++ d) es a' s' ∧
      EndKeeps verdict ev unit atEnd rel held owed a' s' last := by
  induction n generalizing p a d with
  | zero => omega
  | succ n ih =>
    obtain ⟨hcall, hrest⟩ := hok
    obtain ⟨r, es, a', hr, hres⟩ := h.call hrel hgood hcall (hfuel hrel)
    rw [hr] at hrest
    simp only [FF.drain, hr, bind_eq_bind, bind_some]
    obtain ⟨hv, hrk, hrl, howe, ht⟩ | ⟨s', howe, ht, hend⟩ := hres
    · obtain ⟨rs, last, es', b, s', hrs, hevents, howe', ht', hlast⟩ :=
        ih hrl (ht.unitsGood h.isUnit hgood) (hrest hv) (by omega)
      refine ⟨r :: rs, last, es ++ es', b, s', by simp only [hv, hrs, bind_some], ?_, ?_,
        ht.trans ht', hlast⟩
      · exact forall_mem_cons.mpr ⟨hv, hevents⟩
      · rw [flatMap_cons, ← howe', ← append_assoc, howe, append_assoc]
    · refine ⟨[], r, es, a', s', ?_, by simp, howe, ht, hend⟩
      obtain ⟨hv, -⟩ | ⟨hv, -⟩ := hend <;> simp only [hv]

/-- The end of the last chunk. -/
theorem EndKeeps.meaning (hu : IsUnit unit) (hmore : ∀ r, verdict r = .more → ev r = []) {a : A}
    {s : List β} {r : Return P β R}
    (h : EndKeeps verdict ev unit atEnd rel held owed a s r) :
    ev r.code = FF.meaning unit atEnd a s := by
  obtain ⟨hv, -, -, -, hnone, hend, -⟩ | ⟨hv, ⟨s', hlast⟩ | ⟨hnone, hend⟩⟩ := h
  · rw [meaning_none hnone, hend, hmore r.code hv]
  · rw [meaning_last hu hlast]
  · rw [meaning_none hnone, hend]

/-- Where more input is wanted, the rest of the chunk has been collected. -/
theorem EndKeeps.left (h : EndKeeps verdict ev unit atEnd rel held owed a s r)
    {rs : List (Return P β R)} (hevents : ∀ x ∈ rs, verdict x.code = .event) :
    ∀ x ∈ rs ++ [r], verdict x.code = .more → x.left <:+ held x.state := by
  intro x hx hv
  rcases mem_append.mp hx with hx | hx
  · rw [hevents x hx] at hv
    cases hv
  obtain rfl := mem_singleton.mp hx
  obtain ⟨-, -, hheld, -, -, -, hleft⟩ | ⟨hs, -⟩ := h
  · rw [hheld]
    exact hleft
  · rw [hs] at hv
    cases hv

/-- **A reader gives what the whole input means** where its passes meet the condition, however the
input was divided. Where it wants more input, it has collected all that was left. -/
theorem FollowsWhere.drains_eq
    (h : FollowsWhere ok pass verdict ev unit good (fun _ _ => []) rel held owed rank)
    (h' : FollowsWhere ok pass verdict ev unit good atEnd' rel' held owed rank)
    (hstop : ∀ r, verdict r = .stop → ev r ≠ [])
    (hlocal : ∀ {a s p}, unit a s = some p → ∀ t, good a (s ++ t) → good a s)
    {announce : P → P} (hannounce : ∀ {p a}, rel p a →
      rel' (announce p) a ∧ held (announce p) = held p ∧ owed (announce p) = owed p)
    {fuel : List β → ℕ} (hfuel : ∀ {p a d}, rel p a ∨ rel' p a → rank p d < fuel d) {p : P} {a : A}
    {cs : List (List β)} (hcs : cs ≠ []) (hrel : rel p a)
    (hgood : UnitsGood unit good a (held p ++ cs.flatten))
    (hok : DrainsMeet ok pass verdict fuel announce p cs) :
    ∃ rs, FF.drains pass verdict fuel announce p cs = some rs ∧
      (rs.flatMap fun x => ev x.code) =
        owed p ++ FF.meaning unit atEnd' a (held p ++ cs.flatten) ∧
      ∀ x ∈ rs, verdict x.code = .more → x.left <:+ held x.state := by
  induction cs generalizing p a with
  | nil => exact absurd rfl hcs
  | cons d cs ih =>
    cases cs with
    | nil =>
      obtain ⟨hrel', hheld, howe⟩ := hannounce hrel
      rw [flatten_cons, flatten_nil, append_nil, ← hheld] at hgood ⊢
      obtain ⟨rs, last, es, a', s', hrs, hevents, hes, ht, hlast⟩ :=
        h'.drain (fun hp => hfuel (.inr hp)) hrel' hgood hok (hfuel (.inr hrel'))
      rw [howe] at hes
      refine ⟨rs ++ [last], by simp [FF.drains, hrs], ?_, hlast.left hevents⟩
      rw [flatMap_append, flatMap_singleton, ← hes,
        hlast.meaning h.isUnit h'.more, meaning_takes h.isUnit ht, append_assoc]
    | cons d' cs =>
      rw [flatten_cons, ← append_assoc] at hgood ⊢
      obtain ⟨hchunk, hrest⟩ := hok
      have hfront := unitsGood_front h.isUnit hlocal hgood
      obtain ⟨rs, last, es, a', s', hrs, hevents, hes, ht, hlast⟩ :=
        h.drain (fun hp => hfuel (.inl hp)) hrel hfront hchunk (hfuel (.inl hrel))
      rw [hrs] at hrest
      have hmore := hlast.left hevents
      have htake := ht.append h.isUnit (d' :: cs).flatten
      obtain ⟨hv, hrel', hheld, howe, -⟩ | ⟨hv, ⟨s'', hend⟩ | ⟨-, hend⟩⟩ := hlast
      · rw [← hheld] at htake
        obtain ⟨rs', hrs', hmeans, hmore'⟩ :=
          ih (by simp) hrel' (htake.unitsGood h.isUnit hgood) (hrest hv)
        refine ⟨rs ++ last :: rs', ?_, ?_, ?_⟩
        · simp [FF.drains, hrs, hv, hrs']
        · rw [flatMap_append, flatMap_cons, hmeans, h.more _ hv, nil_append,
            howe, nil_append, meaning_takes h.isUnit htake, ← hes, append_assoc]
        · intro x hx
          rw [append_cons] at hx
          exact (mem_append.mp hx).elim (hmore x) (hmore' x)
      · refine ⟨rs ++ [last], by simp [FF.drains, hrs, hv], ?_, hmore⟩
        rw [flatMap_append, flatMap_singleton, ← hes, meaning_takes h.isUnit htake,
          meaning_last h.isUnit (h.isUnit.append hend _), append_assoc]
      · exact absurd hend.symm (hstop _ hv)

/-- A reader without a condition. -/
theorem Follows.toWhere (h : Follows pass verdict ev unit good atEnd rel held owed rank) :
    FollowsWhere (fun _ _ => True) pass verdict ev unit good atEnd rel held owed rank :=
  ⟨h.isUnit, h.more, fun hrel hgood _ => h.keeps hrel hgood⟩

/-- **A reader gives what the whole input means**, however it was divided. Where it wants more
input, it has collected all that was left. -/
theorem Follows.drains_eq
    (h : Follows pass verdict ev unit good (fun _ _ => []) rel held owed rank)
    (h' : Follows pass verdict ev unit good atEnd' rel' held owed rank)
    (hstop : ∀ r, verdict r = .stop → ev r ≠ [])
    (hlocal : ∀ {a s p}, unit a s = some p → ∀ t, good a (s ++ t) → good a s)
    {announce : P → P} (hannounce : ∀ {p a}, rel p a →
      rel' (announce p) a ∧ held (announce p) = held p ∧ owed (announce p) = owed p)
    {fuel : List β → ℕ} (hfuel : ∀ {p a d}, rel p a ∨ rel' p a → rank p d < fuel d) {p : P} {a : A}
    {cs : List (List β)} (hcs : cs ≠ []) (hrel : rel p a) (howed : owed p = [])
    (hgood : UnitsGood unit good a (held p ++ cs.flatten)) :
    ∃ rs, FF.drains pass verdict fuel announce p cs = some rs ∧
      (rs.flatMap fun x => ev x.code) = FF.meaning unit atEnd' a (held p ++ cs.flatten) ∧
      ∀ x ∈ rs, verdict x.code = .more → x.left <:+ held x.state := by
  obtain ⟨rs, hrs, hmeans, hmore⟩ := h.toWhere.drains_eq h'.toWhere hstop hlocal hannounce hfuel hcs
    hrel hgood (drainsMeet_true p cs)
  exact ⟨rs, hrs, by rw [hmeans, howed, nil_append], hmore⟩

end Follows

/-! ### Units of a known length -/

section Gathered

variable {A β E : Type} {need : A → ℕ} {act : A → List β → List E × Option A}

/-- A unit of as many bytes as the state asks for. -/
def gathered (need : A → ℕ) (act : A → List β → List E × Option A) (a : A) (s : List β) :
    Option (List E × Option A × List β) :=
  if s.length < need a then none
  else some ((act a (s.take (need a))).1, (act a (s.take (need a))).2, s.drop (need a))

theorem gathered_none {a : A} {s : List β} : gathered need act a s = none ↔ s.length < need a := by
  rw [gathered]
  split <;> simp [*]

/-- A whole unit in front of other bytes. -/
theorem gathered_some {a : A} {b s : List β} (hb : b.length = need a) :
    gathered need act a (b ++ s) = some ((act a b).1, (act a b).2, s) := by
  have hlen : ¬(b ++ s).length < need a := by
    rw [length_append]
    omega
  rw [gathered, if_neg hlen, take_left' hb, drop_left' hb]

theorem isUnit_gathered (hneed : ∀ a, 0 < need a) : IsUnit (gathered need act) where
  shorter {a s es a' r} h := by
    have hpos := hneed a
    by_cases hlen : s.length < need a
    · rw [gathered_none.mpr hlen] at h
      cases h
    · rw [gathered, if_neg hlen, some.injEq, Prod.mk.injEq, Prod.mk.injEq] at h
      rw [← h.2.2, length_drop]
      omega
  append {a s es a' r} h t := by
    by_cases hlen : s.length < need a
    · rw [gathered_none.mpr hlen] at h
      cases h
    · have hsplit : s = s.take (need a) ++ s.drop (need a) := (take_append_drop _ s).symm
      have htake : (s.take (need a)).length = need a := length_take_of_le (by omega)
      rw [hsplit, gathered_some htake, some.injEq, Prod.mk.injEq, Prod.mk.injEq] at h
      rw [hsplit, append_assoc, gathered_some htake, h.1, h.2.1, h.2.2]

end Gathered

end FF
