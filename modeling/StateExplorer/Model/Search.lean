import StateExplorer.Model.Value
import StateExplorer.Search.Routine
import StateExplorer.Transition.Automaton

/-!
# Searches seen through plain values

Predicates speak about the actions of a search through plain values: the list of the kind of an
action and what it is about. A search that is itself explored is told apart by its progress only,
which is again a plain value.
-/

namespace StateExplorer

/-- The action as a value. -/
def DepthAction.toValue : DepthAction Value → Value
  | unknown source target => .arr [.str "unknown", .arr [.ofOption source, target]]
  | known source target => .arr [.str "known", .arr [.ofOption source, target]]
  | backtrack vertex => .arr [.str "backtrack", vertex]
  | finish => .arr [.str "end"]

/-- The action that a value stands for. -/
def DepthAction.ofValue? : Value → Option (DepthAction Value)
  | .arr [.str "unknown", .arr [source, target]] => some (.unknown source.toOption target)
  | .arr [.str "known", .arr [source, target]] => some (.known source.toOption target)
  | .arr [.str "backtrack", vertex] => some (.backtrack vertex)
  | .arr [.str "end"] => some .finish
  | _ => none

/-- The action as a value. -/
def BreadthAction.toValue : BreadthAction Value → Value
  | unknown source target => .arr [.str "unknown", .arr [.ofOption source, target]]
  | known source target => .arr [.str "known", .arr [.ofOption source, target]]
  | expand vertex => .arr [.str "expand", vertex]
  | finish => .arr [.str "end"]

/-- The action that a value stands for. -/
def BreadthAction.ofValue? : Value → Option (BreadthAction Value)
  | .arr [.str "unknown", .arr [source, target]] => some (.unknown source.toOption target)
  | .arr [.str "known", .arr [source, target]] => some (.known source.toOption target)
  | .arr [.str "expand", vertex] => some (.expand vertex)
  | .arr [.str "end"] => some .finish
  | _ => none

variable {m : Type → Type} {K κ : Type} [Monad m] [Store κ K]

/-- How far a depth-first search has come: its discoveries, the neighbours that its frames look at
next, and its path. -/
def DepthSearch.progress (search : DepthSearch Value κ) : List Value :=
  [.nat search.discovered, .arr (search.stack.items.reverse.map fun frame => .ofOption frame.peek),
    .arr search.path]

/-- How far a breadth-first search has come: its discoveries, its current vertex, the action that
comes next, and its frontier. -/
def BreadthSearch.progress (space : StateSpace m Value K) (search : BreadthSearch Value κ) :
    m (List Value) := do
  let action ← search.action space
  return [.nat search.discovered, .ofOption search.current,
    .ofOption (action.map BreadthAction.toValue), .arr search.frontier.toList]

/-- A routine with an automaton that watches its steps, where configurations are told apart by their
progress and the state of the automaton. -/
def Routine.monitored {C A : Type} [Journal m] [Render C] (routine : Routine m C A)
    (monitor : Automaton m (Step C A)) (progress : C → m (List Value)) :
    StateSpace m (C × Nat) Value where
  graph := (routine.toSystem.observedBy monitor.toObserver).toStateGraph
  key := fun (configuration, state) => return .arr ((← progress configuration) ++ [.nat state])

end StateExplorer
