import Std.Data.HashMap
import StateExplorer.Search.Depth

/-!
# Strongly connected components

One depth-first search finds all strongly connected components. Every vertex carries the index of
its discovery and a low value, which starts as that index and is lowered whenever the vertex turns
out to reach a vertex with a smaller one. A vertex whose low value was never lowered leads its
component: when the search leaves it, the component consists of it and of all vertices that were
left before, have a low value at least as large, and wait for their leader.

A component is completed only after all components it can reach.
-/

namespace StateExplorer

/-- A strongly connected component. -/
structure Component (V : Type) where
  /-- The vertices in the order of their discovery. -/
  vertices : List V
  /-- Whether no cycle passes through the component. -/
  trivial : Bool
  deriving DecidableEq, Repr

/-- The strongly connected components of a state space. -/
structure Decomposition (V : Type) where
  /-- The components in the order in which they were completed. -/
  components : List (Component V)
  /-- Whether the search came to its end. -/
  complete : Bool
  deriving DecidableEq, Repr

namespace Decomposition

variable {V : Type}

/-- The number of components. -/
def size (decomposition : Decomposition V) : Nat := decomposition.components.length

/-- Whether there is a component at the index and no cycle passes through it. -/
def isTrivial (decomposition : Decomposition V) (index : Nat) : Bool :=
  decomposition.components[index]?.any Component.trivial

/-- The index of the first component with the given vertex. -/
def componentOf? [BEq V] (decomposition : Decomposition V) (vertex : V) : Option Nat :=
  decomposition.components.findIdx? fun component => component.vertices.contains vertex

/-- Whether two vertices lie in the same component. -/
def sameComponent [BEq V] (decomposition : Decomposition V) (a b : V) : Bool :=
  match decomposition.componentOf? a, decomposition.componentOf? b with
  | some i, some j => i == j
  | _, _ => false

instance [Render V] : Render (Decomposition V) where
  render decomposition :=
    let braced (component : Component V) := "\x7b" ++ renderJoined ", " component.vertices ++ "\x7d"
    "[" ++ String.intercalate ", " (decomposition.components.map braced) ++ "]"

end Decomposition

namespace Components

/-- What is kept for a discovered vertex. -/
structure Node (V : Type) where
  /-- When the vertex was discovered. -/
  index : Nat
  /-- The smallest index that the vertex is known to reach within its component. -/
  low : Nat
  /-- Whether the low value was never lowered. -/
  leads : Bool
  /-- Whether the vertex has an edge to itself. -/
  loops : Bool
  /-- Whether the component of the vertex is completed. -/
  settled : Bool
  /-- The vertex. -/
  vertex : V

/-- The state of the decomposition. -/
structure Ledger (V K : Type) [BEq K] [Hashable K] where
  /-- How many vertices have been discovered. -/
  time : Nat := 0
  /-- The discovered vertices by canonical form. -/
  nodes : Std.HashMap K (Node V) := ∅
  /-- The vertices that were left and wait for their leader, last one first. -/
  followers : List K := []
  /-- The completed components. -/
  components : Array (Component V) := #[]

variable {m : Type → Type} {V K κ : Type} [BEq K] [Hashable K]

namespace Ledger

/-- Enters a new vertex. -/
def discover (ledger : Ledger V K) (key : K) (vertex : V) : Ledger V K :=
  let time := ledger.time + 1
  { ledger with
    time
    nodes := ledger.nodes.insert key
      { index := time, low := time, leads := true, loops := false, settled := false, vertex } }

/-- Takes down that a vertex has an edge to itself. -/
def loop (ledger : Ledger V K) (key : K) : Ledger V K :=
  { ledger with nodes := ledger.nodes.modify key fun node => { node with loops := true } }

/-- Takes down that `source` reaches `target`, and with it all that `target` reaches. An edge into a
completed component says nothing about the component of its source. -/
def reach (ledger : Ledger V K) (source target : K) : Ledger V K :=
  match ledger.nodes[target]? with
  | none => ledger
  | some { low, settled, .. } =>
    if settled then ledger
    else
      { ledger with
        nodes := ledger.nodes.modify source fun node =>
          if low < node.low then { node with low, leads := false } else node }

/-- Whether a waiting vertex belongs to a component whose leader has the low value `bound`. -/
def follows (ledger : Ledger V K) (bound : Nat) (key : K) : Bool :=
  match ledger.nodes[key]? with
  | some node => decide (bound ≤ node.low)
  | none => false

/-- Whether a vertex leads its component. -/
def isLeader (ledger : Ledger V K) (key : K) : Bool :=
  match ledger.nodes[key]? with
  | some node => node.leads
  | none => false

/-- Completes the component of a leader. -/
def complete (ledger : Ledger V K) (leader : K) : Ledger V K :=
  match ledger.nodes[leader]? with
  | none => ledger
  | some { low := bound, .. } =>
    let members := leader :: ledger.followers.takeWhile (ledger.follows bound)
    let followers := ledger.followers.dropWhile (ledger.follows bound)
    let nodes := (members.filterMap (ledger.nodes[·]?)).mergeSort fun a b => a.index ≤ b.index
    let component : Component V :=
      { vertices := nodes.map Node.vertex
        trivial := nodes.length == 1 && !nodes.any Node.loops }
    { ledger with
      nodes := members.foldl (fun nodes key =>
        nodes.modify key fun node => { node with settled := true }) ledger.nodes
      followers
      components := ledger.components.push component }

end Ledger

variable [Monad m] [Journal m] [Render V]

/-- Keeps the ledger of the search. -/
def bookkeeper (space : StateSpace m V K) : Visitor m V (DepthSearch V κ) (Ledger V K) where
  enter _ target _ ledger := return (.proceed, ledger.discover (← space.key target) target)
  revisit source target _ ledger := do
    match source with
    | none => return (.proceed, ledger)
    | some source =>
      let source ← space.key source
      let target ← space.key target
      let ledger := if source == target then ledger.loop source else ledger
      return (.proceed, ledger.reach source target)
  leave vertex _ search ledger := do
    let key ← space.key vertex
    let ledger ← match search.current with
      | some parent => pure (ledger.reach (← space.key parent) key)
      | none => pure ledger
    if ledger.isLeader key then
      Journal.trace fun _ => s!"{render vertex} completes a component"
      return (.proceed, ledger.complete key)
    else
      return (.proceed, { ledger with followers := key :: ledger.followers })

/-- Finds the strongly connected components of the reachable part of a state space. -/
def decompose [MonadExceptOf Fault m] (fuel : Nat) (poll : m Bool) (space : StateSpace m V K) :
    m (Decomposition V) := do
  let search ← DepthSearch.start space (∅ : Std.HashSet K) none
  let (outcome, t) ←
    (DepthSearch.machine space (bookkeeper space)).run poll fuel { search, state := {} }
  let ledger := t.state
  Journal.debug fun _ =>
    s!"found {render ledger.components.size} strongly connected components " ++
      s!"among {render ledger.nodes.size} vertices"
  return { components := ledger.components.toList, complete := outcome == .exhausted }

end Components

end StateExplorer
