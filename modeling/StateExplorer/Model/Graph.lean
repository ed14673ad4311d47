import StateExplorer.Graph.Basic
import StateExplorer.Model.Value

/-!
# Graphs given by rules

A rule gives the neighbours of every value, so a few numbers or texts describe a graph that may have
no end.
-/

namespace StateExplorer

/-- The sequence `start`, `start + step`, `start + 2 * step` and so on. -/
def Sequence.arithmetic (start step : Int) : Sequence Value :=
  .endless (fun i => .int (start + i * step)) 0

/-- A rule for neighbours. -/
inductive NeighbourRule where
  /-- An integer `n` has the neighbour `a * n + b` for every pair, taken modulo `modulus` if it is
  given. From `limit` on there are none. -/
  | affine (pairs : List (Int × Int)) (modulus limit : Option Int)
  /-- An integer `n` has the neighbours `n + offset`, `n + offset + step` and so on without end. -/
  | count (offset step : Int)
  /-- A text with fewer than `limit` characters has a neighbour for every ending. -/
  | append (endings : List String) (limit : Nat)

/-- The neighbours of a value. -/
def NeighbourRule.neighbours : NeighbourRule → Value → Sequence Value
  | affine pairs modulus limit, .int n =>
    if limit.any (· ≤ n) then .empty
    else .finite (pairs.map fun (a, b) =>
      match modulus with
      | some k => .int ((a * n + b) % k)
      | none => .int (a * n + b))
  | count offset step, .int n => .arithmetic (n + offset) step
  | append endings limit, .str s =>
    if s.length < limit then .finite (endings.map fun ending => .str (s ++ ending)) else .empty
  | _, _ => .empty

/-- The graph of a rule. It gives up when it is asked for the neighbours of the values in
`forbidden`. -/
def StateGraph.ofRule {m : Type → Type} [Monad m] [MonadExceptOf Fault m] (roots : Sequence Value)
    (rule : NeighbourRule) (forbidden : List Value) : StateGraph m Value where
  roots := return roots
  neighbours value :=
    if forbidden.contains value then
      throw (Fault.raised s!"neighbours panic at {render value}")
    else
      return rule.neighbours value

end StateExplorer
