import StateExplorer.Render
import StateExplorer.Sequence

/-!
# State graphs

A state graph has roots and gives the neighbours of each vertex, both as sequences that may never
end. Both are asked for in a monad, because a graph may be computed: asking may fail, or may change
what the graph answers later.

A graph also says whether it may have cycles, and whether a vertex may be reached in more than one
way. Searches believe it and do without memory where they can.
-/

namespace StateExplorer

/-- A graph that is explored from its roots. -/
structure StateGraph (m : Type → Type) (V : Type) where
  /-- The vertices at which an exploration starts. -/
  roots : m (Sequence V)
  /-- The vertices to which a vertex has an edge. -/
  neighbours : V → m (Sequence V)
  /-- Whether a reachable vertex may lie on a cycle. -/
  hasCycles : Bool := true
  /-- Whether a vertex may be reached along two paths. -/
  hasSharing : Bool := true

namespace StateGraph

variable {m : Type → Type} {V W : Type}

/-- Changes what the graph says about cycles and sharing. -/
def withHints (graph : StateGraph m V) (cycles sharing : Bool) : StateGraph m V :=
  { graph with hasCycles := cycles, hasSharing := sharing }

/-- The same graph with `seed` as its only root. -/
def rootedAt [Pure m] (graph : StateGraph m V) (seed : V) : StateGraph m V :=
  { graph with roots := pure (.finite [seed]) }

/-- The same graph with the neighbours of `seed` as its roots, so that `seed` itself is reached
only if it lies on a cycle. -/
def rootedAfter (graph : StateGraph m V) (seed : V) : StateGraph m V :=
  { graph with roots := graph.neighbours seed }

/-- The graph on other names for its vertices. A name that stands for no vertex has no
neighbours. -/
def rename [Monad m] (graph : StateGraph m V) (name : V → W) (vertex? : W → Option V) :
    StateGraph m W where
  roots := return (← graph.roots).map name
  neighbours w :=
    match vertex? w with
    | some v => return (← graph.neighbours v).map name
    | none => return .empty
  hasCycles := graph.hasCycles
  hasSharing := graph.hasSharing

/-- Says of a graph given by functions what it says of itself. -/
instance : Render (StateGraph m V) where
  render graph :=
    "FnGraph \x7b cycles: " ++ render graph.hasCycles ++ ", sharing: " ++ render graph.hasSharing ++
      ", .. \x7d"

end StateGraph

/-- A graph together with the canonical forms of its vertices. A search takes vertices with the same
canonical form for the same state. -/
structure StateSpace (m : Type → Type) (V K : Type) where
  /-- The explored graph. -/
  graph : StateGraph m V
  /-- The canonical form of a vertex. -/
  key : V → m K

/-- The state space in which every vertex is a state of its own. -/
def StateGraph.space {m : Type → Type} {V : Type} [Pure m] (graph : StateGraph m V) :
    StateSpace m V V :=
  { graph, key := pure }

end StateExplorer
