import StateExplorer.Journal
import StateExplorer.Transition.Basic

/-!
# Observers

An observer is a system whose actions depend on an input, which usually is a step of another system.
`TransitionSystem.observedBy` lets an observer react to every step of a system. Where the system has
no step, the observer reacts to the stutter step instead, and so still sees that nothing happens.
-/

namespace StateExplorer

/-- A system that reacts to inputs of type `I`. -/
structure Observer (m : Type → Type) (I C A : Type) where
  /-- The configurations in which the observer can start. -/
  initial : m (List C)
  /-- The reactions to an input that are enabled in a configuration. -/
  actions : I → C → m (List A)
  /-- The configurations to which a reaction can lead. -/
  execute : I → A → C → m (List C)

namespace TransitionSystem

variable {m : Type → Type} {C A D B : Type} [Monad m] [Journal m] [Render C]

/-- The steps to which an observer reacts. -/
def observableSteps (system : TransitionSystem m C A) (source : C) : m (List (Step C A)) := do
  match ← system.steps source with
  | [] =>
    Journal.trace fun _ => s!"{render source} is deadlocked, stuttering"
    return [Step.stutter source]
  | steps => return steps

/-- The system together with an observer of its steps. An action is a step of the system with a
reaction to it. -/
def observedBy (system : TransitionSystem m C A) (observer : Observer m (Step C A) D B) :
    TransitionSystem m (C × D) (Step C A × B) where
  initial := do
    let left ← system.initial
    let right ← observer.initial
    return left.flatMap fun l => right.map fun r => (l, r)
  actions configuration := do
    let perStep ← (← system.observableSteps configuration.1).mapM fun step => do
      return (← observer.actions step configuration.2).map fun reaction => (step, reaction)
    return perStep.flatten
  execute action configuration := do
    let right ← observer.execute action.1 action.2 configuration.2
    return right.map fun r => (action.1.target, r)

end TransitionSystem

end StateExplorer
