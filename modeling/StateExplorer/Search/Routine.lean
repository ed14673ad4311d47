import StateExplorer.Search.Breadth
import StateExplorer.Search.Depth
import StateExplorer.Transition.Routine

/-!
# Searches as routines

A search that goes by way of actions is a routine whose configurations are the states of the search.
Carried out by `Routine.walk`, it goes through the same states as when it is run as a machine with a
silent visitor. As a routine it can itself be observed and explored.
-/

namespace StateExplorer

variable {m : Type → Type} {V K : Type} [BEq K] [Hashable K] [Monad m] [Journal m] [Render V]

/-- Depth-first search as a routine. -/
def DepthSearch.routine (space : StateSpace m V K) (bound : Option Nat) :
    Routine m (DepthSearch V (Memory K)) (DepthAction V) where
  initial := return some (← DepthSearch.start space (Memory.forGraph space.graph) bound)
  action search := search.action space
  execute action search := do
    let (_, t) ← DepthSearch.execute space Visitor.silent action { search, state := () }
    return .ok t.search

/-- Breadth-first search as a routine. -/
def BreadthSearch.routine (space : StateSpace m V K) :
    Routine m (BreadthSearch V (Memory K)) (BreadthAction V) where
  initial := return some (← BreadthSearch.start space (Memory.forGraph space.graph))
  action search := search.action space
  execute action search := do
    let (_, t) ← BreadthSearch.execute space Visitor.silent action { search, state := () }
    return .ok t.search

end StateExplorer
