import StateExplorer.Check.Answer
import StateExplorer.Search.Depth

/-!
# Safety

Looks for a bad vertex depth first and stops at the first one. The stack of the search then gives
the trace that leads to it.
-/

namespace StateExplorer.Safety

variable {m : Type → Type} {V K κ : Type} [Monad m] [Journal m] [Render V]

/-- Stops at the first bad vertex that is entered. -/
def detector (bad : V → m Bool) : Visitor m V (DepthSearch V κ) (Answer V) :=
  { Visitor.silent with
    enter := fun source target search answer => do
      if ← bad target then
        let trace := search.path ++ [target]
        Journal.debug fun _ =>
          s!"bad vertex {render target} reached after {render (trace.length - 1)} steps"
        return (.abort, .violated (.ofEntry source target) trace)
      else
        return (.proceed, answer) }

/-- Checks that no bad vertex is reachable, within a bound on the length of paths. A search that is
told to stop has found no counterexample. -/
def check [BEq K] [Hashable K] [MonadExceptOf Fault m] (fuel : Nat) (poll : m Bool)
    (space : StateSpace m V K) (bad : V → m Bool) (bound : Option Nat) : m (Answer V) := do
  let search ← DepthSearch.start space (Memory.forGraph space.graph : Memory K) bound
  let (outcome, t) ←
    (DepthSearch.machine space (detector bad)).run poll fuel { search, state := .satisfied }
  Journal.debug fun _ => s!"safety check ended {render outcome}"
  return t.state

end StateExplorer.Safety
