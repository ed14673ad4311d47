import StateExplorer.Check.Nested.Basic

/-!
# Inner searches on entering a vertex

An inner search starts at the neighbours of the accepting vertex that the outer search enters, and
stops when it enters a vertex with the canonical form of that one. The inner searches share nothing.
-/

namespace StateExplorer.NestedSearch

variable {m : Type → Type} {V K κ C : Type} [BEq K] [Hashable K] [Monad m]

/-- Stops at a vertex with the canonical form `seed` and keeps the edge that led to it. -/
def closer (space : StateSpace m V K) (seed : K) : Visitor m V C (Option (Option V × V)) :=
  { Visitor.silent with
    enter := fun source target _ closing => do
      if (← space.key target) == seed then
        return (.abort, some (source, target))
      else
        return (.proceed, closing) }

variable [Journal m] [Render V] [MonadExceptOf Fault m]

/-- Searches for a cycle through every accepting vertex that is entered. -/
def preorderVisitor (fuel : Nat) (poll : m Bool) (space : StateSpace m V K)
    (accepting : V → m Bool) : Visitor m V (DepthSearch V κ) (Findings V) :=
  { Visitor.silent with
    enter := fun _ target search findings => do
      if ← accepting target then
        let findings := { findings with launched := findings.launched + 1 }
        Journal.trace fun _ => s!"searching a cycle through {render target}"
        let view := { space with graph := space.graph.rootedAfter target }
        let seed ← space.key target
        let inner ← DepthSearch.start view (Memory.forGraph view.graph : Memory K) none
        let (outcome, t) ←
          (DepthSearch.machine view (closer view seed)).run poll fuel
            { search := inner, state := none }
        match outcome, t.state with
        | .cancelled, _ => return (.abort, { findings with cancelled := true })
        | .aborted, some (source, closing) =>
          Journal.debug fun _ => s!"accepting cycle through {render target}"
          let trace := search.path ++ [target] ++ t.search.path ++ [closing]
          let witness := .edge (source.getD target) closing
          return (.abort, { findings with answer := .violated witness trace })
        | _, _ => return (.proceed, findings)
      else
        return (.proceed, findings) }

/-- Checks that no accepting vertex lies on a reachable cycle. -/
def preorder (fuel : Nat) (poll : m Bool) (space : StateSpace m V K) (accepting : V → m Bool) :
    m (Answer V) := do
  let search ← DepthSearch.start space (Memory.forGraph space.graph : Memory K) none
  let (outcome, t) ←
    (DepthSearch.machine space (preorderVisitor fuel poll space accepting)).run poll fuel
      { search, state := {} }
  Journal.debug fun _ =>
    s!"naive nested search ended {render outcome} " ++
      s!"after {render t.state.launched} secondary searches"
  return t.state.conclusion

end StateExplorer.NestedSearch
