import Mathlib.Data.List.Basic

/-!
# Runs of a deterministic transition system

A system is a function that executes one action when it is possible. A run is any sequence
of executed actions of which each met a side condition on the state it was taken in, so a
property of every run of a condition is a property of every interleaving the condition
admits.
-/

namespace Icegres

variable {State Action : Type}

/-- `last` is reached from `first` by actions that were possible and met `Allowed`. -/
inductive Run (step : State → Action → Option State) (Allowed : State → Action → Prop) :
    State → State → Prop where
  | refl {state} : Run step Allowed state state
  | step {first middle last action} (prior : Run step Allowed first middle)
      (allowed : Allowed middle action) (taken : step middle action = some last) :
      Run step Allowed first last

/-- Every action is allowed. -/
def Unrestricted (_ : State) (_ : Action) : Prop := True

namespace Run

variable {step : State → Action → Option State} {Allowed Weaker : State → Action → Prop}

theorem trans {first middle last : State} (front : Run step Allowed first middle)
    (rest : Run step Allowed middle last) : Run step Allowed first last := by
  induction rest with
  | refl => exact front
  | step _ allowed taken ih => exact .step ih allowed taken

/-- A run of a stronger condition is a run of a weaker one. -/
theorem weaken (weaker : ∀ state action, Allowed state action → Weaker state action)
    {first last : State} (run : Run step Allowed first last) : Run step Weaker first last := by
  induction run with
  | refl => exact .refl
  | step _ allowed taken ih => exact .step ih (weaker _ _ allowed) taken

/-- What holds at the start and is kept by every allowed action holds along the run. -/
theorem invariant {Inv : State → Prop}
    (kept : ∀ state action next, Inv state → Allowed state action →
      step state action = some next → Inv next)
    {first last : State} (holds : Inv first) (run : Run step Allowed first last) : Inv last := by
  induction run with
  | refl => exact holds
  | step _ allowed taken ih => exact kept _ _ _ ih allowed taken

end Run

/-- Execute a list of actions, skipping those that are not possible or fail the check. -/
def execute (step : State → Action → Option State) (check : State → Action → Bool) :
    State → List Action → State
  | state, [] => state
  | state, action :: rest =>
    let next := if check state action then (step state action).getD state else state
    execute step check next rest

/-- An executed list is a run of every condition its check implies. -/
theorem run_execute {step : State → Action → Option State}
    {check : State → Action → Bool} {Allowed : State → Action → Prop}
    (checks : ∀ state action, check state action = true → Allowed state action)
    (first : State) (actions : List Action) :
    Run step Allowed first (execute step check first actions) := by
  induction actions generalizing first with
  | nil => exact .refl
  | cons action rest ih =>
      refine Run.trans ?_ (ih _)
      split
      · rename_i passes
        cases taken : step first action with
        | none => exact .refl
        | some next => exact Run.refl.step (checks _ _ passes) taken
      · exact .refl

end Icegres
