import StateExplorer.Journal
import StateExplorer.Search.Machine
import StateExplorer.Stack
import StateExplorer.Store

/-!
# Depth-first search

The state of a depth-first search is a stack of frames, from the frame of the roots at the bottom to
the frame of the current vertex on top. So the vertices on the stack form the path along which the
current vertex was discovered. The search is over once the stack is empty. With a bound, no vertex
is entered while the path has as many vertices as the bound allows.

A search can be moved in two ways. `DepthSearch.step` decides and acts at once.
`DepthSearch.action` only says what comes next, and `DepthSearch.execute` carries out an action, be
it the one that comes next or another.
-/

namespace StateExplorer

/-- The state of a depth-first search that keeps canonical forms in a store of type `κ`. -/
structure DepthSearch (V κ : Type) where
  /-- The frames. -/
  stack : Stack (Frame V)
  /-- The canonical forms of all vertices discovered so far. -/
  known : κ
  /-- The greatest number of vertices on the stack. -/
  bound : Option Nat := none

/-- What a depth-first search does in one step. -/
inductive DepthAction (V : Type) where
  /-- Discovers `target` and puts it on top of `source`. -/
  | unknown (source : Option V) (target : V)
  /-- Skips `target`, which has been discovered before. -/
  | known (source : Option V) (target : V)
  /-- Takes a vertex with no neighbours left from the stack. -/
  | backtrack (vertex : V)
  /-- Takes the frame of the roots from the stack. -/
  | finish
  deriving DecidableEq, Repr

instance {V : Type} [Render V] : Render (DepthAction V) where
  render
    | .unknown source target =>
      "Unknown \x7b source: " ++ render source ++ ", target: " ++ render target ++ " \x7d"
    | .known source target =>
      "Known \x7b source: " ++ render source ++ ", target: " ++ render target ++ " \x7d"
    | .backtrack vertex => s!"Backtrack({render vertex})"
    | .finish => "End"

namespace DepthSearch

variable {m : Type → Type} {V K κ σ : Type} [Monad m] [Store κ K]

/-- The search that starts over at the roots with what it knows. -/
def restart (space : StateSpace m V K) (search : DepthSearch V κ) : m (DepthSearch V κ) := do
  let successors ← space.graph.roots
  return { search with stack := Stack.empty.push { vertex := none, successors } }

/-- The search that is about to look at the roots. -/
def start (space : StateSpace m V K) (known : κ) (bound : Option Nat) : m (DepthSearch V κ) :=
  restart space { stack := .empty, known, bound }

/-- Whether no step is left. -/
def isOver (search : DepthSearch V κ) : Bool := search.stack.isEmpty

/-- The vertex on top of the stack. -/
def current (search : DepthSearch V κ) : Option V := search.stack.top?.bind Frame.vertex

/-- The vertices on the stack, from the root to the current vertex. -/
def path (search : DepthSearch V κ) : List V := (search.stack.items.filterMap Frame.vertex).reverse

/-- The number of vertices on the stack. -/
def depth (search : DepthSearch V κ) : Nat :=
  search.stack.items.countP fun frame => frame.vertex.isSome

/-- The number of discoveries. -/
def discovered (search : DepthSearch V κ) : Nat := Store.size search.known

/-- Whether the bound leaves room for one more vertex. The frame of the roots makes up for the
vertex that is about to be entered. -/
def hasRoom (search : DepthSearch V κ) : Bool :=
  match search.bound with
  | none => true
  | some bound => decide (search.stack.size ≤ bound)

/-- The neighbour in the given top frame that is looked at next, if the bound leaves room. -/
def offer (search : DepthSearch V κ) (top : Frame V) : Option V :=
  if search.hasRoom then top.peek else none

/-- Whether the canonical form of a vertex is known. -/
def knows (space : StateSpace m V K) (search : DepthSearch V κ) (vertex : V) : m Bool := do
  return Store.knows search.known (← space.key vertex)

/-- Learns a canonical form. -/
def learn (search : DepthSearch V κ) (key : K) : DepthSearch V κ :=
  { search with known := (Store.learn search.known key).2 }

/-- Puts a vertex on top of the stack. -/
def push (space : StateSpace m V K) (search : DepthSearch V κ) (vertex : V) :
    m (DepthSearch V κ) := do
  let successors ← space.graph.neighbours vertex
  return { search with stack := search.stack.push { vertex := some vertex, successors } }

/-- Takes the top frame from the stack. -/
def pop (search : DepthSearch V κ) : DepthSearch V κ := { search with stack := search.stack.pop }

/-- Passes over the neighbour that is looked at next. -/
def advance (search : DepthSearch V κ) : DepthSearch V κ :=
  { search with stack := search.stack.modifyTop Frame.advance }

/-- The action that comes next, or `none` if the search is over. -/
def action (space : StateSpace m V K) (search : DepthSearch V κ) : m (Option (DepthAction V)) := do
  match search.stack.items with
  | [] => return none
  | top :: _ =>
    match search.offer top with
    | some target =>
      if ← search.knows space target then
        return some (.known top.vertex target)
      else
        return some (.unknown top.vertex target)
    | none =>
      match top.vertex with
      | some vertex => return some (.backtrack vertex)
      | none => return some .finish

variable [Journal m] [Render V]

/-- Carries out an action, whether or not it is the one that comes next. -/
def execute (space : StateSpace m V K) (visitor : Visitor m V (DepthSearch V κ) σ)
    (action : DepthAction V) (t : Session (DepthSearch V κ) σ) :
    m (Signal × Session (DepthSearch V κ) σ) := do
  Journal.trace fun _ => s!"executing {render action}"
  match action with
  | .known source target =>
    let search := t.search.advance
    let (signal, state) ← visitor.revisit source target search t.state
    return (signal, { search, state })
  | .unknown source target =>
    let search := t.search.advance.learn (← space.key target)
    match ← visitor.enter source target search t.state with
    | (.abort, state) => return (.abort, { search, state })
    | (.proceed, state) => return (.proceed, { search := ← search.push space target, state })
  | .backtrack vertex =>
    match t.search.stack.items with
    | [] => return (.proceed, t)
    | top :: _ =>
      let search := t.search.pop
      let (signal, state) ← visitor.leave vertex top search t.state
      return (signal, { search, state })
  | .finish => return (.proceed, { t with search := t.search.pop })

/-- Takes a step. There is no signal if the search was over before. -/
def step (space : StateSpace m V K) (visitor : Visitor m V (DepthSearch V κ) σ)
    (t : Session (DepthSearch V κ) σ) : m (Option Signal × Session (DepthSearch V κ) σ) := do
  match t.search.stack.items with
  | [] => return (none, t)
  | top :: _ =>
    match t.search.offer top with
    | none =>
      let search := t.search.pop
      match top.vertex with
      | some vertex =>
        Journal.trace fun _ => s!"backtracking from {render vertex}"
        let (signal, state) ← visitor.leave vertex top search t.state
        return (some signal, { search, state })
      | none =>
        Journal.trace fun _ => "all roots are done"
        return (some .proceed, { t with search })
    | some target =>
      let search := t.search.advance
      let key ← space.key target
      if Store.knows search.known key then
        Journal.trace fun _ => s!"{render target} is already known"
        let (signal, state) ← visitor.revisit top.vertex target search t.state
        return (some signal, { search, state })
      else
        Journal.trace fun _ => s!"discovered {render target}"
        let search := search.learn key
        match ← visitor.enter top.vertex target search t.state with
        | (.abort, state) => return (some .abort, { search, state })
        | (.proceed, state) =>
          return (some .proceed, { search := ← search.push space target, state })

/-- Takes a step by way of the action that comes next. -/
def stepByAction (space : StateSpace m V K) (visitor : Visitor m V (DepthSearch V κ) σ)
    (t : Session (DepthSearch V κ) σ) : m (Option Signal × Session (DepthSearch V κ) σ) := do
  match ← t.search.action space with
  | none => return (none, t)
  | some action =>
    let (signal, t) ← execute space visitor action t
    return (some signal, t)

/-- Notes down that a poll stopped the search. -/
def noteCancelled (t : Session (DepthSearch V κ) σ) : m Unit :=
  Journal.debug fun _ => s!"depth-first traversal cancelled at depth {render t.search.depth}"

/-- The search as a machine that decides and acts at once. -/
def machine (space : StateSpace m V K) (visitor : Visitor m V (DepthSearch V κ) σ) :
    Machine m (Session (DepthSearch V κ) σ) where
  step := step space visitor
  isOver t := t.search.isOver
  noteCancelled := noteCancelled

/-- The search as a machine that goes by way of actions. -/
def actionMachine (space : StateSpace m V K) (visitor : Visitor m V (DepthSearch V κ) σ) :
    Machine m (Session (DepthSearch V κ) σ) :=
  { machine space visitor with step := stepByAction space visitor }

omit [Monad m] [Store κ K] [Journal m] in
instance : Render (DepthSearch V κ) where
  render search :=
    "DFS [" ++ renderJoined " -> " search.path ++ "]" ++
      match search.bound with
      | none => ""
      | some bound => s!" bounded by {render bound}"

end DepthSearch

end StateExplorer
