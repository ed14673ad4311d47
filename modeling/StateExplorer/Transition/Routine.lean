import StateExplorer.Journal
import StateExplorer.Transition.Basic

/-!
# Routines

A routine is a transition system that never has a choice: at most one initial configuration, at most
one enabled action, at most one configuration to which an action leads. So it can be carried out,
which `Routine.walk` does until no action is enabled, an action leads nowhere, or a poll says to
stop.
-/

namespace StateExplorer

/-- A system without choices, with configurations of type `C` and actions of type `A`. -/
structure Routine (m : Type → Type) (C A : Type) where
  /-- The configuration in which the routine starts. -/
  initial : m (Option C)
  /-- The action that is enabled in a configuration. -/
  action : C → m (Option A)
  /-- The configuration to which an action leads, or the one that it was given if it leads
  nowhere. -/
  execute : A → C → m (Except C C)

namespace Routine

variable {m : Type → Type} {C A σ : Type} [Monad m]

/-- The routine as a transition system with at most one of each. -/
def toSystem (routine : Routine m C A) : TransitionSystem m C A where
  initial := return (← routine.initial).toList
  actions configuration := return (← routine.action configuration).toList
  execute action configuration := return (← routine.execute action configuration).toOption.toList

variable [Journal m] [MonadExceptOf Fault m]

/-- Carries out a routine from a configuration that it reached after `steps` steps. -/
def walkFrom (routine : Routine m C A) (poll : m Bool) (observe : C → A → σ → m σ) :
    Nat → Nat → C → σ → m (C × σ)
  | 0, _, _, _ => throw Fault.stepLimit
  | fuel + 1, steps, configuration, state => do
    if ← poll then
      Journal.debug fun _ => s!"sequencer cancelled after {render steps} steps"
      return (configuration, state)
    match ← routine.action configuration with
    | none =>
      Journal.debug fun _ => s!"sequencer reached a fixpoint after {render steps} steps"
      return (configuration, state)
    | some action =>
      let state ← observe configuration action state
      match ← routine.execute action configuration with
      | .error configuration =>
        Journal.debug fun _ => s!"sequencer got stuck after {render steps} steps"
        return (configuration, state)
      | .ok next => walkFrom routine poll observe fuel (steps + 1) next state

/-- Carries out a routine and gives the configuration reached last, if there was one to start in.
The observer is told every configuration and the action about to be executed on it. -/
def walk (fuel : Nat) (poll : m Bool) (observe : C → A → σ → m σ) (routine : Routine m C A)
    (state : σ) : m (Option C × σ) := do
  match ← routine.initial with
  | none => return (none, state)
  | some configuration =>
    let (last, state) ← routine.walkFrom poll observe fuel 0 configuration state
    return (some last, state)

end Routine

end StateExplorer
