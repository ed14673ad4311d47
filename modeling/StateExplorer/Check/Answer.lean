import StateExplorer.Graph.Basic

/-!
# Answers of checks

A check either holds or is violated. In the second case the answer carries a trace, which is a path
from a root, and a witness, which is the vertex or edge that the check objects to.

Answers can be held against the graph. `Answer.traceDefect?` looks for the first reason why the
trace is no path from a root with the witness at its end. `Answer.lassoDefect?` also asks that the
witness closes a cycle of the trace with an accepting vertex on it, as it has to for a check that
looks for cycles.
-/

namespace StateExplorer

/-- What a check objects to. -/
inductive Witness (V : Type) where
  /-- A vertex. -/
  | vertex (target : V)
  /-- An edge that leads to a vertex or closes a cycle. -/
  | edge (source target : V)
  deriving DecidableEq, Repr

namespace Witness

variable {V W : Type} {m : Type → Type}

/-- The vertex to which the witness points. -/
def target : Witness V → V
  | vertex target => target
  | edge _ target => target

/-- Replaces every vertex, the source of an edge before its target. -/
def mapM [Monad m] (f : V → m W) : Witness V → m (Witness W)
  | vertex target => return .vertex (← f target)
  | edge source target => return .edge (← f source) (← f target)

/-- The witness for a vertex that was entered from the given source. -/
def ofEntry (source : Option V) (target : V) : Witness V :=
  match source with
  | some source => .edge source target
  | none => .vertex target

end Witness

/-- The result of a check. -/
inductive Answer (V : Type) where
  /-- No counterexample was found. -/
  | satisfied
  /-- A counterexample was found. -/
  | violated (witness : Witness V) (trace : List V)
  deriving DecidableEq, Repr

/-- A reason why an answer does not fit a graph. -/
inductive TraceDefect where
  /-- The trace has no vertices. -/
  | empty
  /-- The trace does not start at a root. -/
  | notRooted
  /-- There is no edge between the vertices at `index` and `index + 1`. -/
  | disconnected (index : Nat)
  /-- The witness is no edge of the graph or is not at the end of the trace. -/
  | witnessMismatch
  /-- The witness does not close a cycle of the trace. -/
  | notALasso
  /-- The cycle has no accepting vertex. -/
  | notAccepting
  deriving DecidableEq, Repr

/-- The wording of a defect. -/
def TraceDefect.message : TraceDefect → String
  | empty => "Counterexample without trace or witness"
  | notRooted => "Trace does not start at a root"
  | disconnected index =>
    s!"Trace has no edge from position {render index} to {render (index + 1)}"
  | witnessMismatch => "Witness does not match the trace"
  | notALasso => "Witness does not close a cycle"
  | notAccepting => "Cycle has no accepting vertex"

namespace Answer

variable {V W : Type} {m : Type → Type}

instance : Inhabited (Answer V) := ⟨.satisfied⟩

/-- Whether no counterexample was found. -/
def holds : Answer V → Bool
  | satisfied => true
  | violated _ _ => false

/-- The witness of the counterexample. -/
def witness? : Answer V → Option (Witness V)
  | satisfied => none
  | violated witness _ => some witness

/-- The trace of the counterexample, or no vertices if there is none. -/
def trace : Answer V → List V
  | satisfied => []
  | violated _ trace => trace

/-- Replaces every vertex, those of the witness before those of the trace. -/
def mapM [Monad m] (f : V → m W) : Answer V → m (Answer W)
  | satisfied => return .satisfied
  | violated witness trace => return .violated (← witness.mapM f) (← trace.mapM f)

/-- Replaces every vertex. -/
def map (f : V → W) (answer : Answer V) : Answer W := Id.run (answer.mapM fun v => pure (f v))

end Answer

section Defects

variable {V : Type} {m : Type → Type} [BEq V] [Monad m] [MonadExceptOf Fault m]

/-- Whether there is an edge from `source` to `target`. -/
def StateGraph.hasEdge (fuel : Nat) (graph : StateGraph m V) (source target : V) : m Bool := do
  (← graph.neighbours source).anyM fuel fun vertex => return vertex == target

/-- The index of the first vertex of a trace that has no edge to the next one, counted from
`index` on. -/
def StateGraph.gap? (fuel : Nat) (graph : StateGraph m V) (index : Nat) : List V → m (Option Nat)
  | source :: target :: rest => do
    if ← graph.hasEdge fuel source target then
      graph.gap? fuel (index + 1) (target :: rest)
    else
      return some index
  | _ => return none

/-- Whether the witness is at the end of a trace whose last vertices are `beforeLast` and `last`. An
edge may continue the trace or be its last edge. -/
def Witness.fits (fuel : Nat) (graph : StateGraph m V) (beforeLast : Option V) (last : V) :
    Witness V → m Bool
  | .vertex target => return target == last
  | .edge source target => do
    if ← graph.hasEdge fuel source target then
      return source == last || (target == last && beforeLast == some source)
    else
      return false

/-- The first reason why an answer is no path from a root of the graph with the witness at its
end. -/
def Answer.traceDefect? (fuel : Nat) (graph : StateGraph m V) :
    Answer V → m (Option TraceDefect)
  | .satisfied => return none
  | .violated witness trace => do
    match trace.head?, trace.getLast? with
    | some first, some last =>
      if !(← (← graph.roots).anyM fuel fun root => return root == first) then
        return some .notRooted
      if let some index ← graph.gap? fuel 0 trace then
        return some (.disconnected index)
      if ← witness.fits fuel graph trace.dropLast.getLast? last then
        return none
      else
        return some .witnessMismatch
    | _, _ => return some .empty

/-- The part of a trace in which the cycle that the edge from `source` to `target` closes has to
start. If the edge is the last one of the trace, its target at the end does not count. -/
def lassoBody (source target : V) (trace : List V) : List V :=
  if trace.getLast? == some target &&
      (source != target || trace.dropLast.getLast? == some source) then
    trace.dropLast
  else
    trace

/-- The first reason why an answer is no path from a root of the graph that runs through a cycle
with an accepting vertex, closed by the witness. -/
def Answer.lassoDefect? (fuel : Nat) (graph : StateGraph m V) (accepting : V → m Bool)
    (answer : Answer V) : m (Option TraceDefect) := do
  if let some defect ← answer.traceDefect? fuel graph then
    return some defect
  match answer with
  | .satisfied => return none
  | .violated (.vertex _) _ => return some .notALasso
  | .violated (.edge source target) trace =>
    match (lassoBody source target trace).dropWhile (· != target) with
    | [] => return some .notALasso
    | cycle =>
      if ← cycle.anyM accepting then
        return none
      else
        return some .notAccepting

end Defects

end StateExplorer
