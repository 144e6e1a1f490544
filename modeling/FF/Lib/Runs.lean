import Mathlib.Data.Nat.Notation
import Mathlib.Order.Defs.LinearOrder

/-!
# Runs that end

A machine makes steps; a step gives events, and a state or the end. A run is computed with a bound
for the number of steps; `RunEnds` says that it ends, whatever the bound, if it is large enough.

## Main results

* `RunEnds.last`, `RunEnds.cons`: a run ends with its last step, and with a step in front.
* `RunEnds.unique`: a run has one list of events.
* `RunsTo`: the begin of a run.
-/

namespace FF

variable {S E : Type}

/-- The events of a run of at most `n` steps; `none` if it does not end. -/
@[grind =] def runFor (move : S → List E × Option S) : ℕ → S → Option (List E)
  | 0, _ => none
  | n + 1, s =>
    match move s with
    | (es, none) => some es
    | (es, some s') => (runFor move n s').map (es ++ ·)

/-- **The run ends** with these events. -/
def RunEnds (move : S → List E × Option S) (s : S) (es : List E) : Prop :=
  ∃ n, ∀ fuel, n ≤ fuel → runFor move fuel s = some es

variable {move : S → List E × Option S} {s s' : S} {es es' : List E}

/-- The last step -/
theorem RunEnds.last (h : move s = (es, none)) : RunEnds move s es := by
  refine ⟨1, ?_⟩
  intro fuel hfuel
  cases fuel with
  | zero => exact absurd hfuel (Nat.not_succ_le_zero 0)
  | succ fuel => rw [runFor, h]

/-- A step in front -/
theorem RunEnds.cons (h : move s = (es, some s')) (hrun : RunEnds move s' es') :
    RunEnds move s (es ++ es') := by
  obtain ⟨n, hn⟩ := hrun
  refine ⟨n + 1, ?_⟩
  intro fuel hfuel
  cases fuel with
  | zero => exact absurd hfuel (Nat.not_succ_le_zero n)
  | succ fuel =>
    rw [runFor, h]
    dsimp only
    rw [hn fuel (Nat.le_of_succ_le_succ hfuel), Option.map_some]

/-- A step without events in front -/
theorem RunEnds.silent (h : move s = ([], some s')) (hrun : RunEnds move s' es) :
    RunEnds move s es :=
  RunEnds.cons h hrun

/-- **Another machine makes the same steps**: it has the same runs, in its own terms. -/
theorem RunEnds.map {S' E' : Type} {move' : S' → List E' × Option S'} {f : S → S'} {g : E → E'}
    (h : ∀ s, move' (f s) = ((move s).1.map g, (move s).2.map f)) (hrun : RunEnds move s es) :
    RunEnds move' (f s) (es.map g) := by
  have hfor : ∀ n s, runFor move' n (f s) = (runFor move n s).map (List.map g) := by
    intro n
    induction n with
    | zero => exact fun _ => rfl
    | succ n ih =>
      intro s
      rw [runFor, runFor, h s]
      obtain ⟨es', next⟩ := move s
      cases next with
      | none => rfl
      | some s' =>
        change (runFor move' n (f s')).map _ = ((runFor move n s').map _).map _
        rw [ih, Option.map_map, Option.map_map]
        congr 1
        funext es''
        exact List.map_append.symm
  obtain ⟨n, hn⟩ := hrun
  refine ⟨n, fun fuel hfuel => ?_⟩
  rw [hfor, hn fuel hfuel, Option.map_some]

/-- A run that has been computed. -/
theorem RunEnds.of_runFor {n : ℕ} (h : runFor move n s = some es) : RunEnds move s es := by
  induction n generalizing s es with
  | zero => cases h
  | succ n ih =>
    rw [runFor] at h
    cases hmove : move s with
    | mk es₁ next =>
      rw [hmove] at h
      cases next with
      | none =>
        obtain rfl := Option.some.inj h
        exact RunEnds.last hmove
      | some s' =>
        obtain ⟨es₂, hrest, rfl⟩ := Option.map_eq_some_iff.mp h
        exact RunEnds.cons hmove (ih hrest)

/-- **A run has one list of events.** -/
theorem RunEnds.unique (h : RunEnds move s es) (h' : RunEnds move s es') : es = es' := by
  obtain ⟨n, hn⟩ := h
  obtain ⟨n', hn'⟩ := h'
  have heq := hn (max n n') (Nat.le_max_left n n')
  rw [hn' (max n n') (Nat.le_max_right n n')] at heq
  exact (Option.some.inj heq).symm

/-- **The run comes to another state** with these events. -/
def RunsTo (move : S → List E × Option S) (s : S) (es : List E) (s' : S) : Prop :=
  ∀ es', RunEnds move s' es' → RunEnds move s (es ++ es')

/-- A step and what comes then -/
theorem RunsTo.cons {s'' : S} (h : move s = (es, some s')) (hrun : RunsTo move s' es' s'') :
    RunsTo move s (es ++ es') s'' := by
  intro es'' hend
  rw [List.append_assoc]
  exact RunEnds.cons h (hrun es'' hend)

/-- A step without events -/
theorem RunsTo.silent {s'' : S} (hrun : RunsTo move s' es s'') (h : move s = ([], some s')) :
    RunsTo move s es s'' :=
  RunsTo.cons h hrun

/-- One step -/
theorem RunsTo.one (h : move s = (es, some s')) : RunsTo move s es s' :=
  fun _ hend => RunEnds.cons h hend

theorem RunsTo.trans {s'' : S} (h : RunsTo move s es s') (h' : RunsTo move s' es' s'') :
    RunsTo move s (es ++ es') s'' := by
  intro es'' hend
  rw [List.append_assoc]
  exact h _ (h' es'' hend)

end FF
