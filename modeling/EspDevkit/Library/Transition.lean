import Mathlib.Logic.Relation

/-!
# Reachable states and invariants

A transition system is given by its initial states and its step relation.
What holds of every initial state and is kept by every step holds of every
reachable state, and a system with fewer steps reaches fewer states.  A system
driven by actions reaches what a list of them comes to.
-/

namespace Transition

variable {State : Type*}

inductive Reachable (initial : State → Prop) (step : State → State → Prop) :
    State → Prop
  | start {state : State} : initial state → Reachable initial step state
  | next {before after : State} :
      Reachable initial step before → step before after →
        Reachable initial step after

namespace Reachable

variable {initial : State → Prop} {step : State → State → Prop}

/-- The invariant rule, with reachability of the state before at hand. -/
theorem invariant_of {holds : State → Prop}
    (start : ∀ state, initial state → holds state)
    (kept : ∀ before after, Reachable initial step before → holds before →
      step before after → holds after)
    {state : State} (reachable : Reachable initial step state) :
    holds state := by
  induction reachable with
  | start begins => exact start _ begins
  | next reached stepTo ih => exact kept _ _ reached ih stepTo

theorem invariant {holds : State → Prop}
    (start : ∀ state, initial state → holds state)
    (kept : ∀ before after, holds before → step before after → holds after)
    {state : State} (reachable : Reachable initial step state) :
    holds state :=
  reachable.invariant_of start fun before after _ => kept before after

end Reachable

section Actions

variable {Action : Type*} {step : State → Action → Option State}

def Allowed (step : State → Action → Option State) (allows : State → Action → Prop)
    (before after : State) : Prop :=
  ∃ action, step before action = some after ∧ allows before action

def run (step : State → Action → Option State) (permits : State → Action → Bool) :
    State → List Action → Option State
  | state, [] => some state
  | state, action :: actions =>
    if permits state action then (step state action).bind (run step permits · actions) else none

theorem reachable_of_run {initial : State → Prop} {permits : State → Action → Bool}
    {allows : State → Action → Prop}
    (sound : ∀ state action, permits state action = true → allows state action)
    {state after : State} {actions : List Action}
    (reachable : Reachable initial (Allowed step allows) state)
    (runs : run step permits state actions = some after) :
    Reachable initial (Allowed step allows) after := by
  induction actions generalizing state with
  | nil =>
    cases runs
    exact reachable
  | cons action actions ih =>
    rw [run] at runs
    split at runs
    · rename_i permitted
      obtain ⟨next, goes, runs⟩ := Option.bind_eq_some_iff.mp runs
      exact ih (reachable.next ⟨action, goes, sound _ _ permitted⟩) runs
    · cases runs

end Actions

inductive Trace {Label : Type*} (step : State → List Label → State → Prop) :
    State → List Label → State → Prop
  | refl (state : State) : Trace step state [] state
  | cons {before between after : State} {labels later : List Label} :
      step before labels between → Trace step between later after →
        Trace step before (labels ++ later) after

namespace Trace

variable {Label : Type*} {step : State → List Label → State → Prop}

theorem single {before after : State} {labels : List Label}
    (stepTo : step before labels after) : Trace step before labels after := by
  simpa using Trace.cons stepTo (.refl after)

theorem trans {before between after : State} {labels later : List Label}
    (first : Trace step before labels between) (second : Trace step between later after) :
    Trace step before (labels ++ later) after := by
  induction first with
  | refl => exact second
  | cons stepTo _ ih =>
    rw [List.append_assoc]
    exact .cons stepTo (ih second)

/-- The invariant rule for traces: the invariant speaks of a state and of all
labels emitted up to it. -/
theorem invariant {holds : State → List Label → Prop}
    (kept : ∀ before history labels after, holds before history →
      step before labels after → holds after (history ++ labels))
    {before after : State} {history labels : List Label}
    (trace : Trace step before labels after) (start : holds before history) :
    holds after (history ++ labels) := by
  induction trace generalizing history with
  | refl => simpa using start
  | cons stepTo _ ih =>
    rw [← List.append_assoc]
    exact ih (kept _ _ _ _ start stepTo)

end Trace

end Transition
