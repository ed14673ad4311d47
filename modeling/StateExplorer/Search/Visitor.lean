import StateExplorer.Render
import StateExplorer.Sequence

/-!
# Visitors of a search

A search tells its visitor about every vertex it enters, meets again or leaves, and the visitor
answers whether to go on. A visitor has a state of its own, which each call takes and gives back.
It also sees the search as it is at the moment of the call.
-/

namespace StateExplorer

/-- What a visitor tells the search to do. -/
inductive Signal where
  /-- Go on. -/
  | proceed
  /-- Stop here. -/
  | abort
  deriving DecidableEq, Repr

/-- How a run of a search ended. -/
inductive Outcome where
  /-- There was nothing left to do. -/
  | exhausted
  /-- The visitor stopped it. -/
  | aborted
  /-- It was told to stop from outside. -/
  | cancelled
  deriving DecidableEq, Repr

instance : Render Outcome where
  render
    | .exhausted => "Exhausted"
    | .aborted => "Aborted"
    | .cancelled => "Cancelled"

/-- A vertex together with the neighbours that have not been looked at. The frame of the roots has
no vertex. -/
structure Frame (V : Type) where
  /-- The vertex, or `none` for the frame of the roots. -/
  vertex : Option V
  /-- The neighbours that have not been looked at. -/
  successors : Sequence V

namespace Frame

variable {V : Type}

/-- The neighbour that is looked at next. -/
def peek (frame : Frame V) : Option V := frame.successors.head?

/-- The frame after one more neighbour has been looked at. -/
def advance (frame : Frame V) : Frame V := { frame with successors := frame.successors.tail }

instance [Render V] : Render (Frame V) where
  render frame :=
    "Frame \x7b vertex: " ++ render frame.vertex ++ ", next: " ++ render frame.peek ++ " \x7d"

end Frame

/-- What is to be done on the events of a search of type `C`, given a state of type `σ`. -/
structure Visitor (m : Type → Type) (V C σ : Type) where
  /-- A vertex has been discovered, either as a root or as a neighbour of the given source. -/
  enter : Option V → V → C → σ → m (Signal × σ)
  /-- A vertex has been met whose canonical form was known. -/
  revisit : Option V → V → C → σ → m (Signal × σ)
  /-- The search is done with a vertex and drops its frame. -/
  leave : V → Frame V → C → σ → m (Signal × σ)

/-- The visitor that lets everything pass. Visitors with less to say are made from it. -/
def Visitor.silent {m : Type → Type} {V C σ : Type} [Pure m] : Visitor m V C σ where
  enter _ _ _ state := pure (.proceed, state)
  revisit _ _ _ state := pure (.proceed, state)
  leave _ _ _ state := pure (.proceed, state)

/-- A search together with the state of its visitor. -/
structure Session (C σ : Type) where
  /-- The search. -/
  search : C
  /-- The state of the visitor. -/
  state : σ

end StateExplorer
