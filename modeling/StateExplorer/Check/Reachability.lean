import StateExplorer.Search.Breadth
import StateExplorer.Search.Depth

/-!
# Reachable vertices

Collects the vertices of a state space in the order of their discovery, depth first or breadth
first.
-/

namespace StateExplorer

/-- The vertices that a search discovered. -/
structure Reached (V : Type) where
  /-- The discovered vertices in the order of their discovery. -/
  vertices : List V
  /-- Whether the search came to its end. -/
  complete : Bool
  deriving DecidableEq, Repr

namespace Reached

variable {m : Type → Type} {V K C : Type}

/-- Collects every vertex that is entered. -/
def collector [Monad m] : Visitor m V C (Array V) :=
  { Visitor.silent with enter := fun _ target _ vertices =>
    return (.proceed, vertices.push target) }

/-- Notes down and returns what a search collected. -/
def conclude [Monad m] [Journal m] (outcome : Outcome) (vertices : Array V) : m (Reached V) := do
  Journal.debug fun _ =>
    s!"reachability found {render vertices.size} vertices, {render outcome}"
  return { vertices := vertices.toList, complete := outcome == .exhausted }

variable [BEq K] [Hashable K] [Monad m] [MonadExceptOf Fault m] [Journal m] [Render V]

/-- Collects the reachable vertices depth first, within a bound on the length of paths. -/
def depthFirst (fuel : Nat) (poll : m Bool) (space : StateSpace m V K) (bound : Option Nat) :
    m (Reached V) := do
  let search ← DepthSearch.start space (Memory.forGraph space.graph : Memory K) bound
  let (outcome, t) ← (DepthSearch.machine space collector).run poll fuel { search, state := #[] }
  conclude outcome t.state

/-- Collects the reachable vertices breadth first. -/
def breadthFirst (fuel : Nat) (poll : m Bool) (space : StateSpace m V K) : m (Reached V) := do
  let search ← BreadthSearch.start space (Memory.forGraph space.graph : Memory K)
  let (outcome, t) ← (BreadthSearch.machine space collector).run poll fuel { search, state := #[] }
  conclude outcome t.state

end Reached

end StateExplorer
