import Std.Data.HashMap
import Std.Data.HashSet
import StateExplorer.Graph.Basic

/-!
# Stored graphs

`Adjacency` stores a finite graph edge by edge. Neighbours keep the order in which their edges were
added, and vertices the order in which they were first mentioned, so everything that is computed
from the graph comes in a foreseeable order.
-/

namespace StateExplorer

/-- A finite graph that is stored as lists of neighbours. -/
structure Adjacency (V : Type) [BEq V] [Hashable V] where
  /-- The roots, in the order in which they were added. -/
  roots : Array V := #[]
  /-- The mentioned vertices, in the order of their first mention. -/
  vertices : Array V := #[]
  /-- The neighbours of every mentioned vertex. -/
  edges : Std.HashMap V (Array V) := ∅
  /-- What the graph says about cycles. -/
  hasCycles : Bool := true
  /-- What the graph says about sharing. -/
  hasSharing : Bool := true

namespace Adjacency

variable {V W : Type} [BEq V] [Hashable V] [BEq W] [Hashable W]

/-- The graph without vertices. -/
def empty : Adjacency V := {}

/-- Makes sure that the graph has a vertex. -/
def mention (graph : Adjacency V) (vertex : V) : Adjacency V :=
  if graph.edges.contains vertex then graph
  else { graph with
    edges := graph.edges.insert vertex #[]
    vertices := graph.vertices.push vertex }

/-- Adds a root. A root that is added twice is a root twice. -/
def addRoot (graph : Adjacency V) (root : V) : Adjacency V :=
  let graph := graph.mention root
  { graph with roots := graph.roots.push root }

/-- Adds an edge. The target is mentioned before the source. -/
def addEdge (graph : Adjacency V) (source target : V) : Adjacency V :=
  let graph := (graph.mention target).mention source
  { graph with edges := graph.edges.modify source (·.push target) }

/-- The graph with the given roots and edges, added in this order. -/
def ofEdges (roots : List V) (edges : List (V × V)) : Adjacency V :=
  edges.foldl (fun graph edge => graph.addEdge edge.1 edge.2) (roots.foldl addRoot empty)

/-- Changes what the graph says about cycles and sharing. -/
def withHints (graph : Adjacency V) (cycles sharing : Bool) : Adjacency V :=
  { graph with hasCycles := cycles, hasSharing := sharing }

/-- The targets of the edges of a vertex, in the order in which they were added. -/
def neighbours (graph : Adjacency V) (vertex : V) : List V :=
  (graph.edges.getD vertex #[]).toList

/-- Whether there is an edge from `source` to `target`. -/
def hasEdge (graph : Adjacency V) (source target : V) : Bool :=
  (graph.neighbours source).contains target

/-- The number of edges. -/
def edgeCount (graph : Adjacency V) : Nat :=
  graph.edges.fold (fun count _ targets => count + targets.size) 0

/-- Adds vertices to a set. The second part lists those that were not in it. -/
def absorb (seen : Std.HashSet V) : List V → Std.HashSet V × List V
  | [] => (seen, [])
  | vertex :: rest =>
    if seen.contains vertex then absorb seen rest
    else
      let (seen, fresh) := absorb (seen.insert vertex) rest
      (seen, vertex :: fresh)

/-- Adds to `seen` what can be reached from the vertices that wait. Each round looks at the
neighbours of the one that has waited longest. -/
def closure (graph : Adjacency V) : Nat → Std.HashSet V → List V → Std.HashSet V
  | 0, seen, _ => seen
  | _ + 1, seen, [] => seen
  | rounds + 1, seen, vertex :: waiting =>
    let (seen, fresh) := absorb seen (graph.neighbours vertex)
    closure graph rounds seen (waiting ++ fresh)

/-- The vertices that can be reached from `origin` by a path of length zero or more. No vertex waits
twice and only `origin` may be unmentioned, which bounds the number of rounds. -/
def reachableFrom (graph : Adjacency V) (origin : V) : Std.HashSet V :=
  graph.closure (graph.vertices.size + 1) (Std.HashSet.ofList [origin]) [origin]

/-- Two graphs are equal if they have the same roots and mentions in the same order, the same lists
of neighbours, and say the same about themselves. -/
instance : BEq (Adjacency V) where
  beq g h :=
    g.roots == h.roots && g.vertices == h.vertices &&
      (g.vertices.all fun vertex => g.neighbours vertex == h.neighbours vertex) &&
      g.hasCycles == h.hasCycles && g.hasSharing == h.hasSharing

/-- The graph with `name vertex` in place of every vertex. -/
def rename (graph : Adjacency V) (name : V → W) : Adjacency W :=
  let rename (vertices : Array V) := vertices.map name
  { roots := rename graph.roots
    vertices := rename graph.vertices
    edges := graph.vertices.foldl (fun edges vertex =>
      edges.insert (name vertex) ((graph.neighbours vertex).map name).toArray) ∅
    hasCycles := graph.hasCycles
    hasSharing := graph.hasSharing }

/-- The stored graph as a state graph. -/
def toStateGraph {m : Type → Type} [Pure m] (graph : Adjacency V) : StateGraph m V where
  roots := pure (.finite graph.roots.toList)
  neighbours vertex := pure (.finite (graph.neighbours vertex))
  hasCycles := graph.hasCycles
  hasSharing := graph.hasSharing

end Adjacency

end StateExplorer
