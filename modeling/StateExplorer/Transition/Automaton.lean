import StateExplorer.Transition.Observer

/-!
# Büchi automata with guarded transitions

The states of an automaton are numbered from zero. A transition may be taken on an input that
satisfies its guard. As an observer the automaton takes one transition for each input, and its
reactions are the indices of transitions. It rejects a run by having no transition to take, and
accepts an infinite run that visits accepting states without end.
-/

namespace StateExplorer

/-- A guarded transition of an automaton. -/
structure Transition (m : Type → Type) (I : Type) where
  /-- The state in which the transition may be taken. -/
  source : Nat
  /-- Whether the transition may be taken on an input. -/
  guard : I → m Bool
  /-- The state to which the transition leads. -/
  target : Nat

/-- An automaton over inputs of type `I`. -/
structure Automaton (m : Type → Type) (I : Type) where
  /-- The number of states. -/
  states : Nat
  /-- The initial states, in the order in which they were marked. -/
  initial : Array Nat := #[]
  /-- The accepting states, each of them once. -/
  accepting : Array Nat := #[]
  /-- The transitions, in the order in which they were added. -/
  transitions : Array (Transition m I) := #[]

namespace Automaton

variable {m : Type → Type} {I : Type}

/-- Marks a state as initial. -/
def markInitial (automaton : Automaton m I) (state : Nat) : Except Fault (Automaton m I) :=
  if state < automaton.states then
    .ok { automaton with initial := automaton.initial.push state }
  else
    .error .stateOutOfRange

/-- Whether a state is accepting. -/
def isAccepting (automaton : Automaton m I) (state : Nat) : Bool :=
  automaton.accepting.contains state

/-- Marks a state as accepting. -/
def markAccepting (automaton : Automaton m I) (state : Nat) : Except Fault (Automaton m I) :=
  if state < automaton.states then
    if automaton.isAccepting state then .ok automaton
    else .ok { automaton with accepting := automaton.accepting.push state }
  else
    .error .stateOutOfRange

/-- Adds a transition. Its index is the number of transitions before. -/
def addTransition (automaton : Automaton m I) (transition : Transition m I) :
    Except Fault (Automaton m I) :=
  if transition.source < automaton.states && transition.target < automaton.states then
    .ok { automaton with transitions := automaton.transitions.push transition }
  else
    .error .transitionOutOfRange

/-- The automaton with the given states and transitions, added in this order. -/
def build (states : Nat) (initial accepting : List Nat) (transitions : List (Transition m I)) :
    Except Fault (Automaton m I) := do
  let automaton ← initial.foldlM markInitial { states }
  let automaton ← accepting.foldlM markAccepting automaton
  transitions.foldlM addTransition automaton

/-- The source and target of the transition at an index. -/
def endpoints? (automaton : Automaton m I) (index : Nat) : Option (Nat × Nat) :=
  automaton.transitions[index]?.map fun transition => (transition.source, transition.target)

/-- The indices of the transitions that may be taken in a state on an input. Only guards of
transitions from that state are asked. -/
def enabled [Monad m] (automaton : Automaton m I) (input : I) (state : Nat) : m (List Nat) := do
  let candidates := automaton.transitions.toList.zipIdx.filter fun t => t.1.source == state
  return (← candidates.filterM fun t => t.1.guard input).map Prod.snd

/-- The automaton as an observer. -/
def toObserver [Monad m] (automaton : Automaton m I) : Observer m I Nat Nat where
  initial := return automaton.initial.toList
  actions := automaton.enabled
  execute _ index state := return match automaton.transitions[index]? with
    | some transition => if transition.source == state then [transition.target] else []
    | none => []

instance : Render (Automaton m I) where
  render automaton :=
    let accepting := "\x7b" ++ renderJoined ", " automaton.accepting.toList ++ "\x7d"
    let transitions := automaton.transitions.toList.zipIdx.map fun (transition, index) =>
      s!"  {render index}: {render transition.source} --[guard]--> {render transition.target}\n"
    s!"Büchi automaton with {render automaton.states} states, " ++
      s!"initial {render automaton.initial.toList}, accepting {accepting}\n" ++
      String.join transitions

end Automaton

end StateExplorer
