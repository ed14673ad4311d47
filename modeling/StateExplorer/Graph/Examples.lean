import StateExplorer.Graph.Adjacency

/-!
# Example graphs

Small graphs that show what searches have to deal with: cycles, several roots, shared vertices,
trees, and a graph that changes while it is explored.
-/

namespace StateExplorer.Examples

/-- One root on a cycle of three vertices. -/
def threeCycle : Adjacency Nat :=
  .ofEdges [1] [(1, 2), (2, 3), (3, 1)]

/-- Two roots without a common vertex below them. The first leads into the cycle of 2 and 3, the
second starts a chain. -/
def twoRoots : Adjacency Nat :=
  .ofEdges [1, 10] [(1, 2), (2, 3), (3, 2), (10, 11), (11, 12)]

/-- A cycle of three vertices and a detour that joins it at 2. -/
def detour : Adjacency Nat :=
  .ofEdges [1] [(1, 2), (1, 4), (2, 3), (3, 1), (4, 5), (5, 2)]

/-- Two ways from 1 to 4 and no cycle. -/
def diamond : Adjacency Nat :=
  (Adjacency.ofEdges [1] [(1, 2), (1, 3), (2, 4), (3, 4)]).withHints false true

/-- A complete binary tree with the given number of levels, numbered level by level from 1. -/
def binaryTree (height : Nat) : Except Fault (Adjacency Nat) :=
  if height > 32 then .error .treeTooHigh
  else
    let inner := (1 <<< (height - 1)) - 1
    let edges := (List.range inner).flatMap fun i =>
      [(i + 1, 2 * (i + 1)), (i + 1, 2 * (i + 1) + 1)]
    .ok ((Adjacency.ofEdges [1] edges).withHints false false)

/-- The chain 0, 1, 2 and so on. It ends wherever it is asked for neighbours after it has been asked
`limit` times. Running `tick` counts a request and gives the number of earlier ones. -/
def fadingChain {m : Type → Type} [Monad m] (limit : Nat) (tick : m Nat) : StateGraph m Nat where
  roots := return .finite [0]
  neighbours vertex := do
    let earlier ← tick
    return .finite (if earlier < limit then [vertex + 1] else [])
  hasCycles := false
  hasSharing := false

end StateExplorer.Examples
