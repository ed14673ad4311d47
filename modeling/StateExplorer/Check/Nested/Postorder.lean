import StateExplorer.Check.Nested.Basic

/-!
# Inner searches on leaving a vertex

An inner search starts at the accepting vertex that the outer search leaves, and stops when it
enters a vertex with an edge back to the canonical form of that one. The inner searches share
nothing.
-/

namespace StateExplorer.NestedSearch

variable {m : Type → Type} {V K κ C : Type} [BEq K] [Hashable K] [Monad m] [MonadExceptOf Fault m]

/-- Stops at a vertex with an edge to a vertex with the canonical form `seed` and keeps that
edge. -/
def backEdgeFinder (fuel : Nat) (space : StateSpace m V K) (seed : K) :
    Visitor m V C (Option (V × V)) :=
  { Visitor.silent with
    enter := fun _ target _ closing => do
      let neighbours ← space.graph.neighbours target
      match ← neighbours.findM? fuel fun vertex => return (← space.key vertex) == seed with
      | some back => return (.abort, some (target, back))
      | none => return (.proceed, closing) }

variable [Journal m] [Render V]

/-- Searches for a way back to every accepting vertex that is left. -/
def postorderVisitor (fuel : Nat) (poll : m Bool) (space : StateSpace m V K)
    (accepting : V → m Bool) : Visitor m V (DepthSearch V κ) (Findings V) :=
  { Visitor.silent with
    leave := fun vertex _ search findings => do
      if ← accepting vertex then
        let findings := { findings with launched := findings.launched + 1 }
        Journal.trace fun _ => s!"searching a way back to {render vertex}"
        let view := { space with graph := space.graph.rootedAt vertex }
        let seed ← space.key vertex
        let inner ← DepthSearch.start view (Memory.forGraph view.graph : Memory K) none
        let (outcome, t) ←
          (DepthSearch.machine view (backEdgeFinder fuel view seed)).run poll fuel
            { search := inner, state := none }
        match outcome, t.state with
        | .cancelled, _ => return (.abort, { findings with cancelled := true })
        | .aborted, some (source, target) =>
          Journal.debug fun _ =>
            s!"{render source} closes an accepting cycle through {render vertex}"
          let trace := search.path ++ t.search.path ++ [source, target]
          return (.abort, { findings with answer := .violated (.edge source target) trace })
        | _, _ => return (.proceed, findings)
      else
        return (.proceed, findings) }

/-- Checks that no accepting vertex lies on a reachable cycle. -/
def postorder (fuel : Nat) (poll : m Bool) (space : StateSpace m V K) (accepting : V → m Bool) :
    m (Answer V) := do
  let search ← DepthSearch.start space (Memory.forGraph space.graph : Memory K) none
  let (outcome, t) ←
    (DepthSearch.machine space (postorderVisitor fuel poll space accepting)).run poll fuel
      { search, state := {} }
  Journal.debug fun _ =>
    s!"two-phase nested search ended {render outcome} " ++
      s!"after {render t.state.launched} secondary searches"
  return t.state.conclusion

end StateExplorer.NestedSearch
