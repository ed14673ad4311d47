import StateExplorer.Model.Predicate
import StateExplorer.Transition.Automaton
import StateExplorer.Transition.Routine

/-!
# Systems given by rules

Transition systems, routines and observers over plain values that are given by lists of rules.
Observers see a step as the list of its source, its action and its target.
-/

namespace StateExplorer

variable {m : Type → Type} [Monad m]

/-- A rule of a transition system. -/
structure Rule where
  /-- Where the rule applies. -/
  source : Value
  /-- The action that it enables. -/
  action : Value
  /-- Where the action leads. -/
  targets : List Value

/-- The system with the given initial values and rules. An action is enabled once for every rule. -/
def TransitionSystem.ofRules (initial : List Value) (rules : List Rule) :
    TransitionSystem m Value Value where
  initial := return initial
  actions source := return (rules.filter (·.source == source)).map Rule.action
  execute action source :=
    let applicable := rules.filter fun rule => rule.source == source && rule.action == action
    return applicable.flatMap Rule.targets

/-- A change of an integer. -/
structure Update where
  /-- The action that makes the change. -/
  action : Value
  /-- What the integer is multiplied with. -/
  factor : Int
  /-- What is added then. -/
  offset : Int
  /-- Where the action is enabled. -/
  guard : Predicate

/-- The system of integers, taken modulo `modulus` if it is given, that change by updates. Executing
an action does not ask whether it is enabled. -/
def TransitionSystem.ofUpdates [MonadExceptOf Fault m] (initial : List Value)
    (modulus : Option Int) (updates : List Update) : TransitionSystem m Value Value where
  initial := return initial
  actions source := return (← updates.filterM (·.guard.holds source)).map Update.action
  execute action source := return match source with
    | .int n => (updates.filter (·.action == action)).map fun update =>
      let next := update.factor * n + update.offset
      match modulus with
      | some k => .int (next % k)
      | none => .int next
    | _ => []

/-- The routine that ticks from a value down to zero. -/
def Routine.countdown (start : Value) : Routine m Value Value where
  initial := return some start
  action
    | .int n => return if 0 < n then some (.str "tick") else none
    | _ => return none
  execute
    | _, .int n => return .ok (.int (n - 1))
    | _, configuration => return .ok configuration

/-- The routine that never starts. -/
def Routine.nothing : Routine m Value Value where
  initial := return none
  action _ := return some .null
  execute _ configuration := return .ok configuration

/-- A step as the list of its source, its action and its target. -/
def Step.toValue (step : Step Value Value) : Value :=
  .arr [step.source, .ofOption step.action, step.target]

/-- The step that a list of a source, an action and a target stands for. -/
def Step.ofValue? : Value → Option (Step Value Value)
  | .arr [source, action, target] => some { source, action := action.toOption, target }
  | _ => none

/-- A rule of an observer. -/
structure ReactionRule where
  /-- Where the rule applies. -/
  source : Value
  /-- On which inputs it applies. -/
  guard : Predicate
  /-- The reaction that it enables. -/
  action : Value
  /-- Where the reaction leads. -/
  targets : List Value

/-- The observer of steps with the given initial values and rules. -/
def Observer.ofRules [MonadExceptOf Fault m] (initial : List Value) (rules : List ReactionRule) :
    Observer m (Step Value Value) Value Value where
  initial := return initial
  actions input source := do
    let rules := rules.filter (·.source == source)
    return (← rules.filterM (·.guard.holds input.toValue)).map ReactionRule.action
  execute input action source := do
    let rules := rules.filter fun rule => rule.source == source && rule.action == action
    return (← rules.filterM (·.guard.holds input.toValue)).flatMap ReactionRule.targets

/-- An observer with values in place of numbers. A value that is no number is out of range. -/
def Observer.overValues {I : Type} (observer : Observer m I Nat Nat) :
    Observer m I Value Value where
  initial := return (← observer.initial).map .nat
  actions input source :=
    match source.nat? with
    | some source => return (← observer.actions input source).map .nat
    | none => return []
  execute input action source :=
    match action.nat?, source.nat? with
    | some action, some source => return (← observer.execute input action source).map .nat
    | _, _ => return []

/-- A system of values together with an observer of its steps, with lists of two in place of
pairs. -/
def TransitionSystem.observedOverValues [Journal m] (system : TransitionSystem m Value Value)
    (observer : Observer m (Step Value Value) Value Value) : TransitionSystem m Value Value where
  initial := return (← product.initial).map fun (left, right) => .arr [left, right]
  actions
    | .arr [left, right] =>
      return (← product.actions (left, right)).map fun (step, reaction) =>
        .arr [step.toValue, reaction]
    | _ => return []
  execute
    | .arr [step, reaction], .arr [left, right] =>
      match Step.ofValue? step with
      | some step =>
        return (← product.execute (step, reaction) (left, right)).map fun (left, right) =>
          .arr [left, right]
      | none => return []
    | _, _ => return []
where
  /-- The system and its observer. -/
  product : TransitionSystem m (Value × Value) (Step Value Value × Value) :=
    system.observedBy observer

end StateExplorer
