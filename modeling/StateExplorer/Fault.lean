/-!
# Faults

A computation of this library that ends without a result ends with a `Fault`. Every loop takes an
allowance of steps, so `Fault.stepLimit` is the only way in which a search that never ends can show.
The other causes are promises that a caller broke. Each has its wording in `Fault.message` and
nowhere else.
-/

namespace StateExplorer

/-- Why a computation ended without a result. -/
inductive Fault where
  /-- A loop used up its allowance of steps. -/
  | stepLimit
  /-- A tree was asked to be so high that a 32-bit word cannot number its vertices. -/
  | treeTooHigh
  /-- An automaton was given an initial or accepting state that it does not have. -/
  | stateOutOfRange
  /-- An automaton was given a transition between states of which it does not have both. -/
  | transitionOutOfRange
  /-- A graph, predicate or canonical form supplied by the caller gave up. -/
  | raised (message : String)
  deriving DecidableEq, Repr

/-- The wording of a fault. -/
def Fault.message : Fault → String
  | stepLimit => "step limit reached"
  | treeTooHigh => "attempt to shift left with overflow"
  | stateOutOfRange => "assertion failed: state < self.states"
  | transitionOutOfRange => "assertion failed: source < self.states && target < self.states"
  | raised message => message

end StateExplorer
