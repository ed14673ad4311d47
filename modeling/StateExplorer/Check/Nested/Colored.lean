import Std.Data.HashMap
import StateExplorer.Check.Nested.Basic

/-!
# Inner searches that share their colours

Every vertex has a colour. It is white until the outer search enters it, cyan while it is on the
stack of the outer search, blue when the outer search has left it, and red when an inner search has
entered it or has ended that started from it. Red is final.

An inner search starts at the neighbours of an accepting vertex that the outer search leaves. It
enters blue vertices only and turns them red. If it meets a cyan vertex, that vertex is on the path
to the accepting one, which closes a cycle.

Every vertex also has a weight, the number of accepting vertices on the stack up to it. With early
detection the outer search itself stops at an edge back to a cyan vertex if an accepting vertex lies
between, which the weights show.
-/

namespace StateExplorer.NestedSearch

/-- The colour of a vertex. A vertex without a colour is white. -/
inductive Color where
  /-- On the stack of the outer search. -/
  | cyan
  /-- Left by the outer search. -/
  | blue
  /-- Seen by an inner search. -/
  | red
  deriving DecidableEq, Repr

/-- The colours and weights of canonical forms. -/
structure Palette (K : Type) [BEq K] [Hashable K] where
  /-- The colour and weight of every form that is not white. -/
  colors : Std.HashMap K (Color × Nat) := ∅

namespace Palette

variable {K : Type} [BEq K] [Hashable K]

/-- The colour of a form. -/
def color? (palette : Palette K) (key : K) : Option Color := palette.colors[key]?.map Prod.fst

/-- The weight of a form, which is zero for a white one. -/
def weight (palette : Palette K) (key : K) : Nat :=
  match palette.colors[key]? with
  | some (_, weight) => weight
  | none => 0

/-- Makes a form cyan and gives it a weight. -/
def enter (palette : Palette K) (key : K) (weight : Nat) : Palette K :=
  { colors := palette.colors.insert key (.cyan, weight) }

/-- Gives a form a colour, unless it is red. It keeps its weight. -/
def paint (palette : Palette K) (key : K) (color : Color) : Palette K :=
  match palette.colors[key]? with
  | some (.red, _) => palette
  | some (_, weight) => { colors := palette.colors.insert key (color, weight) }
  | none => { colors := palette.colors.insert key (color, 0) }

end Palette

/-- The store of an inner search. All forms but the blue ones count as known, and learning a form
turns it red. -/
structure RedStore (K : Type) [BEq K] [Hashable K] where
  /-- The colours. -/
  palette : Palette K
  /-- How many forms this search has learnt. -/
  painted : Nat := 0

instance {K : Type} [BEq K] [Hashable K] : Store (RedStore K) K where
  knows store key := store.palette.color? key != some .blue
  learn store key :=
    (true, { palette := store.palette.paint key .red, painted := store.painted + 1 })
  size store := store.painted

/-- The state of the outer search. -/
structure BlueState (V K : Type) [BEq K] [Hashable K] where
  /-- The colours. -/
  palette : Palette K := {}
  /-- What has been found out. -/
  findings : Findings V := {}

variable {m : Type → Type} {V K κ : Type} [BEq K] [Hashable K] [Monad m]

/-- Stops an inner search at an edge to a cyan vertex and keeps that edge. Edges from no vertex are
those from `seed`. -/
def redVisitor (space : StateSpace m V K) (seed : V) :
    Visitor m V (DepthSearch V (RedStore K)) (Option (V × V)) :=
  { Visitor.silent with
    revisit := fun source target search closing => do
      if search.known.palette.color? (← space.key target) == some .cyan then
        return (.abort, some (source.getD seed, target))
      else
        return (.proceed, closing) }

variable [Journal m] [Render V] [MonadExceptOf Fault m]

/-- Runs an inner search from an accepting vertex to which `path` leads. -/
def redSearch (fuel : Nat) (poll : m Bool) (space : StateSpace m V K) (seed : V) (path : List V)
    (blue : BlueState V K) : m (Signal × BlueState V K) := do
  let findings := { blue.findings with launched := blue.findings.launched + 1 }
  let view := { space with graph := space.graph.rootedAfter seed }
  let inner ← DepthSearch.start view ({ palette := blue.palette } : RedStore K) none
  let (outcome, t) ←
    (DepthSearch.machine view (redVisitor view seed)).run poll fuel
      { search := inner, state := none }
  Journal.trace fun _ =>
    s!"red search from {render seed} ended {render outcome} " ++
      s!"after painting {render t.search.discovered} vertices"
  let palette := t.search.known.palette
  match outcome, t.state with
  | .cancelled, _ => return (.abort, { palette, findings := { findings with cancelled := true } })
  | .aborted, some (source, target) =>
    Journal.debug fun _ => s!"red search from {render seed} reached {render target} on the stack"
    let trace := path ++ [seed] ++ t.search.path ++ [target]
    let answer := .violated (.edge source target) trace
    return (.abort, { palette, findings := { findings with answer } })
  | _, _ => return (.proceed, { palette := palette.paint (← space.key seed) .red, findings })

/-- Whether an edge to a cyan vertex closes a cycle with an accepting vertex. -/
def closesCycle (space : StateSpace m V K) (accepting : V → m Bool) (palette : Palette K)
    (source target : V) (targetKey : K) : m Bool := do
  if ← accepting target then
    return true
  else
    return decide (palette.weight targetKey < palette.weight (← space.key source))

/-- Colours the vertices of the outer search and starts the inner ones. -/
def blueVisitor (fuel : Nat) (poll : m Bool) (space : StateSpace m V K) (accepting : V → m Bool)
    (early : Bool) : Visitor m V (DepthSearch V κ) (BlueState V K) where
  enter source target _ blue := do
    let below ← match source with
      | some source => pure (blue.palette.weight (← space.key source))
      | none => pure 0
    let weight := below + if ← accepting target then 1 else 0
    let palette := blue.palette.enter (← space.key target) weight
    return (.proceed, { blue with palette })
  revisit source target search blue := do
    match early, source with
    | true, some source =>
      let key ← space.key target
      if blue.palette.color? key != some .cyan then
        return (.proceed, blue)
      if !(← closesCycle space accepting blue.palette source target key) then
        return (.proceed, blue)
      Journal.debug fun _ => s!"back edge from {render source} closes an accepting cycle"
      let answer := .violated (.edge source target) (search.path ++ [target])
      return (.abort, { blue with findings := { blue.findings with answer } })
    | _, _ => return (.proceed, blue)
  leave vertex _ search blue := do
    if ← accepting vertex then
      if ← poll then
        return (.abort, { blue with findings := { blue.findings with cancelled := true } })
      else
        redSearch fuel poll space vertex search.path blue
    else
      return (.proceed, { blue with palette := blue.palette.paint (← space.key vertex) .blue })

/-- Checks that no accepting vertex lies on a reachable cycle. -/
def colored (fuel : Nat) (poll : m Bool) (space : StateSpace m V K) (accepting : V → m Bool)
    (early : Bool) : m (Answer V) := do
  let search ← DepthSearch.start space (∅ : Std.HashSet K) none
  let (outcome, t) ←
    (DepthSearch.machine space (blueVisitor fuel poll space accepting early)).run poll fuel
      { search, state := {} }
  let findings := t.state.findings
  Journal.debug fun _ =>
    s!"colored nested search ended {render outcome} after {render findings.launched} red searches"
  return findings.conclusion

end StateExplorer.NestedSearch
