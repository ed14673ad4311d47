import StateExplorer.Proofs.CallLog
import StateExplorer.Proofs.Reachability

/-!
# Breadth-first explorations

`BreadthSearch.Move` says what a single step can do to a breadth-first search on a graph that does
not change, and what the visitor is told about it. `BreadthSearch.Explores first log search` says
that the search `first` becomes `search` while the visitor is told `log`.

To a move of the search belongs a move of its agenda (`Move.agenda`), as in the other order. What
comes in addition is due to the queue: the vertices that have been discovered are those that have
been left, then the one that is being expanded, and then those that wait (`Explores.queue`).
-/

namespace StateExplorer

open Event

@[simp] theorem exits_farewell {V : Type} {log : List (Event V)} {frame : Frame V} :
    exits (log ++ frame.farewell) = exits log ++ frame.vertex.toList := by
  unfold Frame.farewell
  cases frame.vertex <;> simp

namespace BreadthSearch

variable {V K κ : Type}

/-- The search that is about to look at the roots. -/
def fresh (graph : StateGraph Id V) (known : κ) : BreadthSearch V κ where
  expanding := some (Frame.whole graph none)
  frontier := .empty
  known

theorem start_under {m : Type → Type} [Monad m] [LawfulMonad m] (graph : StateGraph Id V)
    (key : V → K) (known : κ) :
    start (graph.under key) known = (pure (fresh graph known) : m _) := by
  have hroots : (graph.under key : StateSpace m V K).graph.roots = pure (graph.after none) := rfl
  unfold start
  rw [hroots, pure_bind]
  rfl

/-! ## The queue -/

section Queue

variable {graph : StateGraph Id V} {search : BreadthSearch V κ} {frame : Frame V} {vertex : V}

theorem current_of_expanding (expanding : search.expanding = some frame) :
    search.current = frame.vertex := by
  simp [current, expanding]

@[simp] theorem current_advance : search.advance.current = search.current := by
  unfold current advance
  cases search.expanding <;> rfl

@[simp] theorem current_push : (search.push vertex).current = search.current := rfl

@[simp] theorem frontier_push :
    (search.push vertex).frontier.toList = search.frontier.toList ++ [vertex] :=
  Queue.toList_push _ _

@[simp] theorem frontier_advance : search.advance.frontier = search.frontier := rfl

/-- The vertex to which the search turns is the first of those that waited. -/
theorem current_append_frontier_turned :
    (search.turned graph).current.toList ++ (search.turned graph).frontier.toList =
      search.frontier.toList := by
  unfold turned
  cases popped : search.frontier.pop? with
  | none => simp [current, Queue.toList_of_pop?_none popped]
  | some popped' =>
    obtain ⟨vertex, frontier⟩ := popped'
    simp [current, Frame.whole, Queue.toList_of_pop?_some popped]

variable [Store κ K] {form : K}

@[simp] theorem current_learn : (search.learn form).current = search.current := rfl

@[simp] theorem frontier_learn : (search.learn form).frontier = search.frontier := rfl

end Queue

/-! ## Moves -/

variable [Store κ K]

/-- What a step does to a search, and what the visitor is told about it. -/
inductive Move (graph : StateGraph Id V) (key : V → K) (search : BreadthSearch V κ) :
    List (Event V) → BreadthSearch V κ → Prop
  | enter {frame : Frame V} {target : V} (expanding : search.expanding = some frame)
      (peek : frame.peek = some target) (new : Store.knows search.known (key target) = false) :
      Move graph key search [.entry frame.vertex target]
        ((search.advance.learn (key target)).push target)
  | revisit {frame : Frame V} {target : V} (expanding : search.expanding = some frame)
      (peek : frame.peek = some target) (old : Store.knows search.known (key target) = true) :
      Move graph key search [.known frame.vertex target] search.advance
  | turn {frame : Frame V} (expanding : search.expanding = some frame) (peek : frame.peek = none) :
      Move graph key search frame.farewell (search.turned graph)

/-- The search `first` becomes another one while a visitor that always lets it go on is told the
log. -/
inductive Explores (graph : StateGraph Id V) (key : V → K) (first : BreadthSearch V κ) :
    List (Event V) → BreadthSearch V κ → Prop
  | refl : Explores graph key first [] first
  | step {log events : List (Event V)} {search next : BreadthSearch V κ}
      (before : Explores graph key first log search) (move : Move graph key search events next) :
      Explores graph key first (log ++ events) next

variable {graph : StateGraph Id V} {key : V → K} {known : κ} {log events : List (Event V)}
  {search next : BreadthSearch V κ} {frame : Frame V}

/-- A move of the search is a move of its agenda. -/
theorem Move.agenda (move : Move graph key search events next) :
    Agenda.Move graph key True (search.agenda graph) events (next.agenda graph) := by
  cases move with
  | enter expanding peek new => exact move_enter expanding peek new
  | revisit expanding peek old => exact move_revisit expanding peek old
  | turn expanding peek => exact move_turn expanding peek

namespace Explores

theorem agenda (h : Explores graph key (fresh graph known) log search) :
    Agenda.Explores graph key True (Agenda.start graph known) log (search.agenda graph) := by
  induction h with
  | refl => exact .refl
  | step before move ih => exact ih.step move.agenda

/-- The store has learnt what was discovered, in this order. -/
theorem known_eq (h : Explores graph key (fresh graph known) log search) :
    search.known = Store.learnAll known ((discoveries log).map key) :=
  h.agenda.known_eq

/-- What has been discovered has been left, or is being expanded, or waits, in this order. -/
theorem queue (h : Explores graph key (fresh graph known) log search) :
    discoveries log = exits log ++ (search.current.toList ++ search.frontier.toList) := by
  induction h with
  | refl => rfl
  | @step log events search next before move ih =>
    cases move with
    | enter expanding peek new => simp [ih]
    | revisit expanding peek old => simp [ih]
    | turn expanding peek =>
      rw [discoveries_farewell, exits_farewell, current_append_frontier_turned, ih,
        current_of_expanding expanding, List.append_assoc]

end Explores

end BreadthSearch

end StateExplorer
