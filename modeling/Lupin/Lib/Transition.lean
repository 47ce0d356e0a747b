import Mathlib.Logic.Basic

/-!
# Executable transition machines and guarded runs

A machine takes one atomic step at a time, each named by an action. Runs are
lists of actions, so that a concrete interleaving can be evaluated, and the
invariant rule is stated over the inductive view of the same runs. The guard of
a run restricts which steps it may take; `fun _ _ _ => True` is the unguarded
run.
-/

namespace Lupin.Transition

universe u v

/-- An initial state and a partial step function, `none` where the action is not
enabled. -/
structure Machine (State : Type u) (Action : Type v) where
  initial : State
  step : State → Action → Option State

/-- A condition on one step: the state before it, its action, the state after. -/
abbrev Guard (State : Type u) (Action : Type v) := State → Action → State → Prop

namespace Machine

variable {State : Type u} {Action : Type v}

/-- States reached from the initial one by steps that all meet the guard. -/
inductive Reachable (machine : Machine State Action) (guard : Guard State Action) :
    State → Prop where
  | initial : Reachable machine guard machine.initial
  | step {state next : State} {action : Action}
      (prior : Reachable machine guard state)
      (transition : machine.step state action = some next)
      (allowed : guard state action next) : Reachable machine guard next

/-- Execute a list of actions from a given state. -/
def runFrom (machine : Machine State Action) : State → List Action → Option State
  | state, [] => some state
  | state, action :: rest =>
      match machine.step state action with
      | none => none
      | some next => machine.runFrom next rest

/-- Every step of an executed action list meets a decidable guard. -/
def runMeets (machine : Machine State Action) (guard : State → Action → State → Bool) :
    State → List Action → Bool
  | _, [] => true
  | state, action :: rest =>
      match machine.step state action with
      | none => false
      | some next => guard state action next && machine.runMeets guard next rest

variable {machine : Machine State Action} {guard : Guard State Action}

/-- The invariant rule: what holds initially and along every allowed step holds
in every reached state. -/
theorem Reachable.invariant {property : State → Prop}
    (holdsInitially : property machine.initial)
    (preserved : ∀ {state action next}, property state →
      machine.step state action = some next → guard state action next → property next)
    {state : State} (reached : machine.Reachable guard state) : property state := by
  induction reached with
  | initial => exact holdsInitially
  | step _ transition allowed inductionHypothesis =>
      exact preserved inductionHypothesis transition allowed

/-- A weaker guard reaches the same states. -/
theorem Reachable.mono {weaker : Guard State Action}
    (implied : ∀ {state action next}, guard state action next → weaker state action next)
    {state : State} (reached : machine.Reachable guard state) : machine.Reachable weaker state := by
  induction reached with
  | initial => exact .initial
  | step _ transition allowed inductionHypothesis =>
      exact .step inductionHypothesis transition (implied allowed)

/-- The state an executable list of actions ends in. -/
def final (machine : Machine State Action) (actions : List Action) : State :=
  (machine.runFrom machine.initial actions).getD machine.initial

private theorem reachable_of_runFrom {decided : State → Action → State → Bool}
    (decides : ∀ state action next, decided state action next = true → guard state action next)
    {start : State} (started : machine.Reachable guard start) (actions : List Action)
    (meets : machine.runMeets decided start actions = true) :
    ∃ reached, machine.runFrom start actions = some reached ∧
      machine.Reachable guard reached := by
  induction actions generalizing start with
  | nil => exact ⟨start, rfl, started⟩
  | cons action rest inductionHypothesis =>
      unfold runMeets at meets
      cases taken : machine.step start action with
      | none => simp [taken] at meets
      | some next =>
          simp only [taken] at meets
          rw [Bool.and_eq_true] at meets
          obtain ⟨reached, executed, follows⟩ := inductionHypothesis
            (.step started taken (decides _ _ _ meets.1)) meets.2
          exact ⟨reached, by simp only [runFrom, taken, executed], follows⟩

/-- One more action. -/
theorem runFrom_concat {start state : State} {actions : List Action}
    (ran : machine.runFrom start actions = some state) (action : Action) :
    machine.runFrom start (actions ++ [action]) = machine.step state action := by
  induction actions generalizing start with
  | nil =>
      obtain rfl := Option.some.inj ran
      rw [List.nil_append, Machine.runFrom]
      cases machine.step start action <;> rfl
  | cons first rest inductionHypothesis =>
      unfold Machine.runFrom at ran
      rw [List.cons_append, Machine.runFrom]
      cases taken : machine.step start first with
      | none => simp [taken] at ran
      | some next =>
          rw [taken] at ran
          exact inductionHypothesis ran

/-- A list of actions that every state may take reaches where it executes to. -/
theorem Reachable.runFrom {start final : State} (started : machine.Reachable guard start)
    {actions : List Action}
    (allowed : ∀ action ∈ actions, ∀ state next, guard state action next)
    (ran : machine.runFrom start actions = some final) : machine.Reachable guard final := by
  induction actions generalizing start with
  | nil => exact Option.some.inj ran ▸ started
  | cons action rest inductionHypothesis =>
      obtain ⟨first, others⟩ := List.forall_mem_cons.mp allowed
      unfold Machine.runFrom at ran
      cases taken : machine.step start action with
      | none => simp [taken] at ran
      | some next =>
          rw [taken] at ran
          exact inductionHypothesis (.step started taken (first _ _)) others ran

/-- A list of actions that executes with every step meeting the guard reaches
its final state. -/
theorem reachable_final (decided : State → Action → State → Bool)
    (decides : ∀ state action next, decided state action next = true → guard state action next)
    (actions : List Action)
    (meets : machine.runMeets decided machine.initial actions = true) :
    machine.Reachable guard (machine.final actions) := by
  obtain ⟨reached, executed, follows⟩ := reachable_of_runFrom decides .initial actions meets
  simpa [final, executed] using follows

end Machine
end Lupin.Transition
