import StateExplorer.Graph.Basic

/-!
# Transition systems

A transition system has initial configurations, and in each configuration a list of enabled actions,
each of which leads to a list of configurations. Everything is asked for in a monad. The order of
the lists is the order in which the graph of the system lists the neighbours of a configuration.
-/

namespace StateExplorer

/-- A system with configurations of type `C` and actions of type `A`. -/
structure TransitionSystem (m : Type → Type) (C A : Type) where
  /-- The configurations in which the system can start. -/
  initial : m (List C)
  /-- The actions that are enabled in a configuration. -/
  actions : C → m (List A)
  /-- The configurations to which an action can lead. -/
  execute : A → C → m (List C)

/-- A step of a transition system. A step without an action is a stutter step. -/
structure Step (C A : Type) where
  /-- Where the step starts. -/
  source : C
  /-- The executed action. -/
  action : Option A
  /-- Where the step ends. -/
  target : C
  deriving DecidableEq, Repr

namespace Step

variable {C A : Type}

/-- The step on which nothing happens. -/
def stutter (configuration : C) : Step C A :=
  { source := configuration, action := none, target := configuration }

/-- Whether no action was executed. -/
def isStutter (step : Step C A) : Bool := step.action.isNone

end Step

namespace TransitionSystem

variable {m : Type → Type} {C A : Type} [Monad m]

/-- All steps from a configuration, by action and target. -/
def steps (system : TransitionSystem m C A) (source : C) : m (List (Step C A)) := do
  let perAction ← (← system.actions source).mapM fun action => do
    return (← system.execute action source).map fun target =>
      { source, action := some action, target }
  return perAction.flatten

/-- The configurations one step away, by action and target. -/
def successors (system : TransitionSystem m C A) (source : C) : m (List C) := do
  let perAction ← (← system.actions source).mapM fun action => system.execute action source
  return perAction.flatten

/-- The graph of a system: its roots are the initial configurations, and its edges lead to the
configurations one step away. -/
def toStateGraph (system : TransitionSystem m C A) : StateGraph m C where
  roots := return .finite (← system.initial)
  neighbours source := return .finite (← system.successors source)

end TransitionSystem

end StateExplorer
