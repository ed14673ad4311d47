import StateExplorer.Journal
import StateExplorer.Queue
import StateExplorer.Search.Machine
import StateExplorer.Store

/-!
# Breadth-first search

The state of a breadth-first search is the frame of the vertex that is being expanded, and the queue
of the vertices that have been discovered and wait for their own expansion. The roots are expanded
first. The search is over once nothing is being expanded.

The visitor hears that a vertex is left right after the next one has been taken from the queue. As
for `DepthSearch`, there is a step that decides and acts at once, and there are actions.
-/

namespace StateExplorer

/-- The state of a breadth-first search that keeps canonical forms in a store of type `κ`. -/
structure BreadthSearch (V κ : Type) where
  /-- The frame that is being expanded. -/
  expanding : Option (Frame V)
  /-- The discovered vertices that wait for their expansion. -/
  frontier : Queue V
  /-- The canonical forms of all vertices discovered so far. -/
  known : κ

/-- What a breadth-first search does in one step. -/
inductive BreadthAction (V : Type) where
  /-- Discovers `target`, which then waits for its expansion. -/
  | unknown (source : Option V) (target : V)
  /-- Skips `target`, which has been discovered before. -/
  | known (source : Option V) (target : V)
  /-- Turns to the vertex that has waited longest. -/
  | expand (vertex : V)
  /-- Ends the last expansion. -/
  | finish
  deriving DecidableEq, Repr

instance {V : Type} [Render V] : Render (BreadthAction V) where
  render
    | .unknown source target =>
      "Unknown \x7b source: " ++ render source ++ ", target: " ++ render target ++ " \x7d"
    | .known source target =>
      "Known \x7b source: " ++ render source ++ ", target: " ++ render target ++ " \x7d"
    | .expand vertex => s!"Expand({render vertex})"
    | .finish => "End"

namespace BreadthSearch

variable {m : Type → Type} {V K κ σ : Type} [Monad m] [Store κ K]

/-- The search that is about to look at the roots. -/
def start (space : StateSpace m V K) (known : κ) : m (BreadthSearch V κ) := do
  return {
    expanding := some { vertex := none, successors := ← space.graph.roots }
    frontier := .empty
    known }

/-- Whether no step is left. -/
def isOver (search : BreadthSearch V κ) : Bool := search.expanding.isNone

/-- The vertex that is being expanded. -/
def current (search : BreadthSearch V κ) : Option V := search.expanding.bind Frame.vertex

/-- The number of discoveries. -/
def discovered (search : BreadthSearch V κ) : Nat := Store.size search.known

/-- Whether the canonical form of a vertex is known. -/
def knows (space : StateSpace m V K) (search : BreadthSearch V κ) (vertex : V) : m Bool := do
  return Store.knows search.known (← space.key vertex)

/-- Learns a canonical form. -/
def learn (search : BreadthSearch V κ) (key : K) : BreadthSearch V κ :=
  { search with known := (Store.learn search.known key).2 }

/-- Lets a vertex wait for its expansion. -/
def push (search : BreadthSearch V κ) (vertex : V) : BreadthSearch V κ :=
  { search with frontier := search.frontier.push vertex }

/-- Passes over the neighbour that is looked at next. -/
def advance (search : BreadthSearch V κ) : BreadthSearch V κ :=
  { search with expanding := search.expanding.map Frame.advance }

/-- The action that comes next, or `none` if the search is over. -/
def action (space : StateSpace m V K) (search : BreadthSearch V κ) :
    m (Option (BreadthAction V)) := do
  match search.expanding with
  | none => return none
  | some frame =>
    match frame.peek with
    | some target =>
      if ← search.knows space target then
        return some (.known frame.vertex target)
      else
        return some (.unknown frame.vertex target)
    | none =>
      match search.frontier.head? with
      | some vertex => return some (.expand vertex)
      | none => return some .finish

/-- Turns to the vertex that has waited longest, or to none if none waits. -/
def expandNext (space : StateSpace m V K) (search : BreadthSearch V κ) : m (BreadthSearch V κ) := do
  match search.frontier.pop? with
  | none => return { search with expanding := none }
  | some (vertex, frontier) =>
    let successors ← space.graph.neighbours vertex
    return { search with expanding := some { vertex := some vertex, successors }, frontier }

/-- Tells the visitor that a frame has been dropped, unless it was that of the roots. -/
def leave (visitor : Visitor m V (BreadthSearch V κ) σ) (dropped : Option (Frame V))
    (t : Session (BreadthSearch V κ) σ) : m (Signal × Session (BreadthSearch V κ) σ) := do
  match dropped with
  | some { vertex := some vertex, successors } =>
    let (signal, state) ←
      visitor.leave vertex { vertex := some vertex, successors } t.search t.state
    return (signal, { t with state })
  | _ => return (.proceed, t)

/-- Ends the present expansion and begins the next one. -/
def turn (space : StateSpace m V K) (visitor : Visitor m V (BreadthSearch V κ) σ)
    (t : Session (BreadthSearch V κ) σ) : m (Signal × Session (BreadthSearch V κ) σ) := do
  leave visitor t.search.expanding { t with search := ← t.search.expandNext space }

variable [Journal m] [Render V]

/-- Carries out an action, whether or not it is the one that comes next. -/
def execute (space : StateSpace m V K) (visitor : Visitor m V (BreadthSearch V κ) σ)
    (action : BreadthAction V) (t : Session (BreadthSearch V κ) σ) :
    m (Signal × Session (BreadthSearch V κ) σ) := do
  Journal.trace fun _ => s!"executing {render action}"
  match action with
  | .known source target =>
    let search := t.search.advance
    let (signal, state) ← visitor.revisit source target search t.state
    return (signal, { search, state })
  | .unknown source target =>
    let search := t.search.advance.learn (← space.key target)
    match ← visitor.enter source target search t.state with
    | (.abort, state) => return (.abort, { search, state })
    | (.proceed, state) => return (.proceed, { search := search.push target, state })
  | .expand _ => turn space visitor t
  | .finish =>
    leave visitor t.search.expanding { t with search := { t.search with expanding := none } }

/-- Takes a step. There is no signal if the search was over before. -/
def step (space : StateSpace m V K) (visitor : Visitor m V (BreadthSearch V κ) σ)
    (t : Session (BreadthSearch V κ) σ) : m (Option Signal × Session (BreadthSearch V κ) σ) := do
  match t.search.expanding with
  | none => return (none, t)
  | some frame =>
    match frame.peek with
    | none =>
      let (signal, t) ← turn space visitor t
      return (some signal, t)
    | some target =>
      let search := t.search.advance
      let key ← space.key target
      if Store.knows search.known key then
        Journal.trace fun _ => s!"{render target} is already known"
        let (signal, state) ← visitor.revisit frame.vertex target search t.state
        return (some signal, { search, state })
      else
        Journal.trace fun _ => s!"discovered {render target}"
        let search := search.learn key
        match ← visitor.enter frame.vertex target search t.state with
        | (.abort, state) => return (some .abort, { search, state })
        | (.proceed, state) => return (some .proceed, { search := search.push target, state })

/-- Takes a step by way of the action that comes next. -/
def stepByAction (space : StateSpace m V K) (visitor : Visitor m V (BreadthSearch V κ) σ)
    (t : Session (BreadthSearch V κ) σ) : m (Option Signal × Session (BreadthSearch V κ) σ) := do
  match ← t.search.action space with
  | none => return (none, t)
  | some action =>
    let (signal, t) ← execute space visitor action t
    return (some signal, t)

/-- Notes down that a poll stopped the search. -/
def noteCancelled (t : Session (BreadthSearch V κ) σ) : m Unit :=
  Journal.debug fun _ =>
    s!"breadth-first traversal cancelled with {render t.search.frontier.size} vertices " ++
      "in the frontier"

/-- The search as a machine that decides and acts at once. -/
def machine (space : StateSpace m V K) (visitor : Visitor m V (BreadthSearch V κ) σ) :
    Machine m (Session (BreadthSearch V κ) σ) where
  step := step space visitor
  isOver t := t.search.isOver
  noteCancelled := noteCancelled

/-- The search as a machine that goes by way of actions. -/
def actionMachine (space : StateSpace m V K) (visitor : Visitor m V (BreadthSearch V κ) σ) :
    Machine m (Session (BreadthSearch V κ) σ) :=
  { machine space visitor with step := stepByAction space visitor }

omit [Monad m] [Store κ K] [Journal m] in
instance : Render (BreadthSearch V κ) where
  render search :=
    s!"BFS expanding {render search.current}, frontier {render search.frontier.toList}"

end BreadthSearch

end StateExplorer
