import StateExplorer.Check.Reachability
import StateExplorer.Proofs.Adjacency
import StateExplorer.Proofs.Routes
import StateExplorer.Proofs.Termination

/-!
# Reachable vertices

Depth first or breadth first, a search that collects what it discovers makes moves of its agenda
(`Collects`). So it ends if there is no infinite exploration, and then it has collected the
discoveries of an exploration that has closed all frames (`Collects.settles`). These are the
reachable vertices (`Reached.Completes.mem_iff`), each of which is found once if the memory
remembers or if there is only one route to it (`Reached.Completes.nodup`).
-/

namespace StateExplorer

open Relation Event

/-! ## Searches that collect -/

section Collects

variable {V K κ C : Type} [Store κ K] {graph : StateGraph Id V} {key : V → K} {thorough : Prop}
  {agenda : C → Agenda V κ} {Inv : List (Event V) → C → Prop}
  {machine : Machine (Except Fault) (Session C (Array V))} {first : Agenda V κ}
  {log : List (Event V)} {t : Session C (Array V)}

/-- The machine makes moves of an agenda until no frame is open, and collects the discoveries. The
searches that it meets satisfy `Inv` of what has happened so far. -/
structure Collects (graph : StateGraph Id V) (key : V → K) (thorough : Prop)
    (agenda : C → Agenda V κ) (Inv : List (Event V) → C → Prop)
    (machine : Machine (Except Fault) (Session C (Array V))) : Prop where
  idle : ∀ t, (agenda t.search).frames = 0 → machine.step t = .ok (none, t)
  move : ∀ log t, Inv log t.search → (agenda t.search).frames ≠ 0 → ∃ events search,
    Agenda.Move graph key thorough (agenda t.search) events (agenda search) ∧
      Inv (log ++ events) search ∧
      machine.step t =
        .ok (some .proceed, { search, state := t.state ++ (discoveries events).toArray })

/-- If there is no infinite exploration, the machine runs to the end of one. -/
theorem Collects.settles (collects : Collects graph key thorough agenda Inv machine)
    (terminates : Agenda.Terminates graph key thorough first)
    (explores : Agenda.Explores graph key thorough first log (agenda t.search))
    (inv : Inv log t.search) (collected : t.state = (discoveries log).toArray) :
    ∃ log search, Agenda.Explores graph key thorough first log (agenda search) ∧ Inv log search ∧
      (agenda search).frames = 0 ∧
      Settles (fun fuel => machine.run (pure false) fuel t)
        (.exhausted, { search, state := (discoveries log).toArray }) := by
  generalize hpresent : agenda t.search = present at explores
  induction present using terminates.induction generalizing log t with
  | h present ih =>
    subst hpresent
    by_cases ended : (agenda t.search).frames = 0
    · refine ⟨log, t.search, explores, inv, ended, 1, fun fuel hfuel => ?_⟩
      obtain ⟨fuel, rfl⟩ := Nat.exists_eq_add_of_le' hfuel
      rw [← collected]
      exact Machine.run_of_over (collects.idle t ended) fuel
    · obtain ⟨events, search, move, inv', hstep⟩ := collects.move log t inv ended
      have collected' : t.state ++ (discoveries events).toArray =
          (discoveries (log ++ events)).toArray := by
        simp [collected, discoveries]
      obtain ⟨log', last, explores', inv'', ended', least, hleast⟩ :=
        ih (agenda search) ⟨log, events, explores, move⟩
          (t := { search, state := t.state ++ (discoveries events).toArray }) inv' collected' rfl
          (explores.step move)
      refine ⟨log', last, explores', inv'', ended', least + 1, fun fuel hfuel => ?_⟩
      obtain ⟨fuel, rfl⟩ := Nat.exists_eq_add_of_le' (Nat.le_trans (Nat.le_add_left 1 least) hfuel)
      exact (Machine.run_of_proceed hstep fuel).trans (hleast fuel (by omega))

end Collects

/-! ## Depth first -/

namespace DepthSearch

variable {V K κ : Type} [Store κ K]

/-- A search that is not over can make a move. -/
theorem exists_next (graph : StateGraph Id V) (key : V → K) {search : DepthSearch V κ}
    (hopen : search.stack.items ≠ []) : ∃ events next, Move graph key search events next := by
  cases items : search.stack.items with
  | nil => exact absurd items hopen
  | cons top rest =>
    cases offer : search.offer top with
    | some target =>
      cases hknows : Store.knows search.known (key target) with
      | false => exact ⟨_, _, .enter items offer hknows⟩
      | true => exact ⟨_, _, .revisit items offer hknows⟩
    | none =>
      cases hvertex : top.vertex with
      | some vertex => exact ⟨_, _, .leave items offer hvertex⟩
      | none => exact ⟨_, _, .finish items offer hvertex⟩

variable [Render V]

/-- A search that collects makes the move and adds what it discovers. -/
theorem collector_step {m : Type → Type} [Monad m] [LawfulMonad m] [Journal m] [Journal.Quiet m]
    {graph : StateGraph Id V} {key : V → K} {search next : DepthSearch V κ}
    {events : List (Event V)} (move : Move graph key search events next) (state : Array V) :
    step (graph.under key) Reached.collector { search, state } =
      (pure (some .proceed, { search := next, state := state ++ (discoveries events).toArray }) : m
        _) := by
  cases move with
  | enter items offer new =>
    rw [step_enter items offer new]
    exact pure_bind _ _
  | revisit items offer old =>
    rw [step_revisit items offer old]
    exact pure_bind _ _
  | leave items offer some_vertex =>
    rw [step_leave items offer some_vertex]
    exact pure_bind _ _
  | finish items offer no_vertex => exact step_finish items offer no_vertex

theorem collects (graph : StateGraph Id V) (key : V → K) (known : κ) (bound : Option Nat) :
    Collects graph key (bound = none) (fun search : DepthSearch V κ => search.agenda)
      (Explores graph key (fresh graph known bound))
        (machine (graph.under key) Reached.collector) where
  idle t ended := step_over ((Multiset.coe_eq_zero _).1 ended)
  move := by
    rintro log ⟨search, state⟩ explores hopen
    obtain ⟨events, next, move⟩ :=
      exists_next graph key fun items => hopen ((Multiset.coe_eq_zero _).2 items)
    exact ⟨events, next, explores.bound_eq ▸ move.agenda, explores.step move,
      collector_step move state⟩

end DepthSearch

/-! ## Breadth first -/

namespace Queue

variable {α : Type} {queue rest : Queue α} {a : α}

theorem toList_of_pop?_none (h : queue.pop? = none) : queue.toList = [] := by
  have hpop := queue.pop?_map_toList
  simpa [h] using hpop

theorem toList_of_pop?_some (h : queue.pop? = some (a, rest)) :
    queue.toList = a :: rest.toList := by
  have hpop := queue.pop?_map_toList
  by_cases hempty : queue.toList = []
  · simp [h, hempty] at hpop
  · simpa [h, hempty, eq_comm] using hpop

end Queue

namespace BreadthSearch

variable {V K κ : Type} {graph : StateGraph Id V} {search : BreadthSearch V κ} {frame : Frame V}
  {target : V}

/-- The frames of the vertices that wait for their expansion. -/
def waitingFrames (graph : StateGraph Id V) (search : BreadthSearch V κ) : Multiset (Frame V) :=
  (search.frontier.toList.map fun vertex => Frame.whole graph (some vertex) : List (Frame V))

/-- The frame that is being expanded and those of the vertices that wait, without their order. -/
def agenda (graph : StateGraph Id V) (search : BreadthSearch V κ) : Agenda V κ where
  frames :=
    match search.expanding with
    | none => 0
    | some frame => frame ::ₘ search.waitingFrames graph
  known := search.known

/-- The search that has turned to the vertex that has waited longest. -/
def turned (graph : StateGraph Id V) (search : BreadthSearch V κ) : BreadthSearch V κ :=
  match search.frontier.pop? with
  | none => { search with expanding := none }
  | some (vertex, frontier) =>
    { search with expanding := some (Frame.whole graph (some vertex)), frontier }

theorem expandNext_under {m : Type → Type} [Monad m] [LawfulMonad m] (key : V → K) :
    expandNext (graph.under key) search = (pure (search.turned graph) : m _) := by
  have hneighbours : ∀ v, (graph.under key : StateSpace m V K).graph.neighbours v =
      pure (graph.after (some v)) := fun _ => rfl
  unfold expandNext turned
  cases search.frontier.pop? with
  | none => rfl
  | some popped =>
    simp only [hneighbours, pure_bind]
    rfl

theorem frames_of_expanding (expanding : search.expanding = some frame) :
    (search.agenda graph).frames = frame ::ₘ search.waitingFrames graph := by
  simp only [agenda, expanding]

theorem frames_eq_zero : (search.agenda graph).frames = 0 ↔ search.expanding = none := by
  cases expanding : search.expanding with
  | none => simp [agenda, expanding]
  | some frame => simp [agenda, expanding]

/-- The vertices that waited still do, one of them in the frame that is being expanded. -/
theorem agenda_turned :
    (search.turned graph).agenda graph =
      { frames := search.waitingFrames graph, known := search.known } := by
  unfold turned
  cases popped : search.frontier.pop? with
  | none => simp [agenda, waitingFrames, Queue.toList_of_pop?_none popped]
  | some popped' =>
    obtain ⟨vertex, frontier⟩ := popped'
    simp [agenda, waitingFrames, Queue.toList_of_pop?_some popped]

theorem waitingFrames_push :
    (search.push target).waitingFrames graph =
      Frame.whole graph (some target) ::ₘ search.waitingFrames graph := by
  simp only [waitingFrames, push, Queue.toList_push, List.map_append, List.map_singleton]
  rw [← Multiset.coe_add, Multiset.coe_singleton, add_comm, Multiset.singleton_add]

theorem expanding_advance (expanding : search.expanding = some frame) :
    search.advance.expanding = some frame.advance := by
  simp [advance, expanding]

variable [Store κ K] {key : V → K}

/-! What a step does to the agenda. -/

theorem move_enter (expanding : search.expanding = some frame) (peek : frame.peek = some target)
    (new : Store.knows search.known (key target) = false) :
    Agenda.Move graph key True (search.agenda graph) [.entry frame.vertex target]
      (((search.advance.learn (key target)).push target).agenda graph) := by
  have hexpanding : ((search.advance.learn (key target)).push target).expanding =
      some frame.advance :=
    expanding_advance expanding
  -- the new vertex waits at the end of the queue, and not on top of the frame it was found in
  have hframes : (((search.advance.learn (key target)).push target).agenda graph).frames =
      Frame.whole graph (some target) ::ₘ frame.advance ::ₘ search.waitingFrames graph := by
    rw [frames_of_expanding hexpanding, waitingFrames_push]
    exact Multiset.cons_swap _ _ _
  have hnext : ((search.advance.learn (key target)).push target).agenda graph =
      { frames := Frame.whole graph (some target) ::ₘ frame.advance ::ₘ search.waitingFrames graph
        known := (Store.learn search.known (key target)).2 } :=
    congrArg (Agenda.mk · _) hframes
  rw [hnext]
  exact .enter (frames_of_expanding expanding) peek new

theorem move_revisit (expanding : search.expanding = some frame) (peek : frame.peek = some target)
    (old : Store.knows search.known (key target) = true) :
    Agenda.Move graph key True (search.agenda graph) [.known frame.vertex target]
      (search.advance.agenda graph) := by
  have hnext : search.advance.agenda graph =
      { frames := frame.advance ::ₘ search.waitingFrames graph, known := search.known } :=
    congrArg (Agenda.mk · _) (frames_of_expanding (expanding_advance expanding))
  rw [hnext]
  exact .revisit (frames_of_expanding expanding) peek old

theorem move_turn (expanding : search.expanding = some frame) (peek : frame.peek = none) :
    Agenda.Move graph key True (search.agenda graph) frame.farewell
      ((search.turned graph).agenda graph) := by
  rw [agenda_turned]
  exact .close (frames_of_expanding expanding) fun _ => peek

/-! The steps of a search, one equation for each of these moves. -/

section Equations

variable [Render V] {σ : Type} {m : Type → Type} [Monad m] [LawfulMonad m] [Journal m]
  [Journal.Quiet m] {space : StateSpace m V K} {visitor : Visitor m V (BreadthSearch V κ) σ}
  {state : σ} {k : K}

omit [LawfulMonad m] [Journal.Quiet m] in
theorem step_over (expanding : search.expanding = none) :
    step space visitor { search, state } = pure (none, { search, state }) := by
  unfold step
  simp only [expanding]

theorem step_enter_of_key (hkey : space.key target = pure k)
    (expanding : search.expanding = some frame) (peek : frame.peek = some target)
    (new : Store.knows search.known k = false) :
    step space visitor { search, state } =
      visitor.enter frame.vertex target (search.advance.learn k) state >>= fun result =>
        match result with
        | (.abort, state) => pure (some .abort, { search := search.advance.learn k, state })
        | (.proceed, state) => pure (some .proceed,
            { search := (search.advance.learn k).push target, state }) := by
  have hnew : ¬ Store.knows search.advance.known k = true := by
    rw [advance, new]
    exact Bool.false_ne_true
  unfold step
  simp only [expanding, peek, hkey, pure_bind, Journal.trace_eq]
  exact if_neg hnew

theorem step_revisit_of_key (hkey : space.key target = pure k)
    (expanding : search.expanding = some frame) (peek : frame.peek = some target)
    (old : Store.knows search.known k = true) :
    step space visitor { search, state } =
      visitor.revisit frame.vertex target search.advance state >>= fun result =>
        pure (some result.1, { search := search.advance, state := result.2 }) := by
  have hknown : search.advance.known = search.known := rfl
  unfold step
  simp [expanding, peek, hkey, hknown, old]

theorem step_enter (expanding : search.expanding = some frame) (peek : frame.peek = some target)
    (new : Store.knows search.known (key target) = false) :
    step (graph.under key) visitor { search, state } =
      visitor.enter frame.vertex target (search.advance.learn (key target)) state >>= fun result =>
        match result with
        | (.abort, state) =>
          pure (some .abort, { search := search.advance.learn (key target), state })
        | (.proceed, state) => pure (some .proceed,
            { search := (search.advance.learn (key target)).push target, state }) :=
  step_enter_of_key rfl expanding peek new

theorem step_revisit (expanding : search.expanding = some frame) (peek : frame.peek = some target)
    (old : Store.knows search.known (key target) = true) :
    step (graph.under key) visitor { search, state } =
      visitor.revisit frame.vertex target search.advance state >>= fun result =>
        pure (some result.1, { search := search.advance, state := result.2 }) :=
  step_revisit_of_key rfl expanding peek old

omit [Journal.Quiet m] in
theorem step_turn_of_space (expanding : search.expanding = some frame) (peek : frame.peek = none) :
    step space visitor { search, state } = search.expandNext space >>= fun search =>
      leave visitor (some frame) { search, state } >>= fun result =>
        pure (some result.1, result.2) := by
  unfold step
  simp [expanding, peek, turn]

omit [Journal.Quiet m] in
theorem step_turn (expanding : search.expanding = some frame) (peek : frame.peek = none) :
    step (graph.under key) visitor { search, state } =
      leave visitor (some frame) { search := search.turned graph, state } >>= fun result =>
        pure (some result.1, result.2) := by
  rw [step_turn_of_space expanding peek, expandNext_under, pure_bind]

end Equations

/-- A search that collects makes a move, unless it is over. -/
theorem exists_collect_move [Render V] {state : Array V} (hopen : search.expanding ≠ none) :
    ∃ events next, Agenda.Move graph key True (search.agenda graph) events (next.agenda graph) ∧
      step (graph.under key) Reached.collector { search, state } =
        (.ok (some .proceed, { search := next, state := state ++ (discoveries events).toArray }) :
          Except Fault _) := by
  cases expanding : search.expanding with
  | none => exact absurd expanding hopen
  | some frame =>
    cases peek : frame.peek with
    | some target =>
      cases hknows : Store.knows search.known (key target) with
      | false => exact ⟨_, _, move_enter expanding peek hknows, step_enter expanding peek hknows⟩
      | true => exact ⟨_, _, move_revisit expanding peek hknows, step_revisit expanding peek hknows⟩
    | none =>
      have hnothing : discoveries frame.farewell = [] := @discoveries_farewell V [] frame
      refine ⟨_, _, move_turn expanding peek, (step_turn expanding peek).trans ?_⟩
      rw [hnothing]
      obtain ⟨vertex, successors⟩ := frame
      cases vertex with
      | none => rfl
      | some vertex => rfl

theorem collects [Render V] (graph : StateGraph Id V) (key : V → K) :
    Collects graph key True (fun search : BreadthSearch V κ => search.agenda graph)
      (fun _ _ => True)
      (machine (graph.under key) Reached.collector) where
  idle t ended := step_over (frames_eq_zero.1 ended)
  move := by
    rintro - ⟨search, state⟩ - hopen
    obtain ⟨events, next, move, hstep⟩ := exists_collect_move (mt frames_eq_zero.2 hopen)
    exact ⟨events, next, move, trivial, hstep⟩

end BreadthSearch

/-! ## What is reached -/

namespace Reached

section Runs

variable {V K : Type} [BEq K] [Hashable K] {graph : StateGraph Id V} {key : V → K}

/-- The agenda with which the reachable vertices are looked for. -/
def outset (K : Type) [BEq K] [Hashable K] (graph : StateGraph Id V) : Agenda V (Memory K) :=
  Agenda.start graph (Memory.forGraph graph)

/-- The search came to its end, and what it holds are the discoveries of an exploration that did. -/
structure Completes (graph : StateGraph Id V) (key : V → K) (thorough : Prop)
    (reached : Reached V) :
    Prop where
  complete : reached.complete = true
  explored : ∃ log agenda, Agenda.Explores graph key thorough (outset K graph) log agenda ∧
    agenda.frames = 0 ∧ reached.vertices = discoveries log

/-- With the memory that suits the graph a search ends, if the memory remembers or there are no
cycles. -/
theorem outset_terminates [LawfulBEq K] [LawfulHashable K] {thorough : Prop}
    (finitary : graph.Finitary) (finite : {v | graph.Reachable v}.Finite)
    (suited : (graph.hasCycles = true ∨ graph.hasSharing = true) ∨
      ∀ v, graph.Reachable v → ¬ graph.OnCycle v) :
    Agenda.Terminates graph key thorough (outset K graph) := by
  rcases suited with hints | acyclic
  · exact Agenda.terminates_of_finite finitary (finite.image key) (Memory.faithful_forGraph hints)
  · exact Agenda.terminates_of_acyclic finitary finite acyclic

variable [Render V]

/-- The search depth first goes on to the end of an exploration and holds its discoveries. -/
theorem depthFirst_explores {bound : Option Nat}
    (terminates : Agenda.Terminates graph key (bound = none) (outset K graph)) :
    ∃ log search,
      Explores graph key (DepthSearch.fresh graph (Memory.forGraph graph : Memory K) bound) log
        search ∧
      search.stack.items = [] ∧
      Settles (fun fuel => depthFirst fuel (pure false) (graph.under key) bound)
        ⟨discoveries log, true⟩ := by
  let search := DepthSearch.fresh graph (Memory.forGraph graph : Memory K) bound
  have start : Agenda.Explores graph key (bound = none) (outset K graph) [] search.agenda := .refl
  obtain ⟨log, last, -, explores, ended, hrun⟩ :=
    (DepthSearch.collects graph key (Memory.forGraph graph : Memory K) bound).settles terminates
      (t := { search, state := #[] }) start .refl rfl
  exact ⟨log, last, explores, (Multiset.coe_eq_zero _).1 ended, hrun.andThen (fun _ => rfl) rfl⟩

theorem depthFirst_settles {bound : Option Nat}
    (terminates : Agenda.Terminates graph key (bound = none) (outset K graph)) :
    ∃ reached, Settles (fun fuel => depthFirst fuel (pure false) (graph.under key) bound) reached ∧
      Completes graph key (bound = none) reached := by
  obtain ⟨log, search, explores, ended, hrun⟩ := depthFirst_explores terminates
  exact ⟨_, hrun, rfl, log, search.agenda, explores.agenda, congrArg _ ended, rfl⟩

theorem breadthFirst_settles (terminates : Agenda.Terminates graph key True (outset K graph)) :
    ∃ reached, Settles (fun fuel => breadthFirst fuel (pure false) (graph.under key)) reached ∧
      Completes graph key True reached := by
  let search : BreadthSearch V (Memory K) :=
    { expanding := some (Frame.whole graph none), frontier := .empty,
      known := Memory.forGraph graph }
  have start : Agenda.Explores graph key True (outset K graph) [] (search.agenda graph) := .refl
  obtain ⟨log, last, explores, -, ended, hrun⟩ :=
    (BreadthSearch.collects graph key).settles terminates
      (t := { search, state := #[] }) start trivial rfl
  refine ⟨⟨discoveries log, true⟩, ?_, rfl, log, last.agenda graph, explores, ended, rfl⟩
  exact hrun.andThen (fun _ => rfl) rfl

end Runs

/-! If the memory for the graph remembers, or if nothing could be found twice, the search ends and
finds each reachable vertex once. -/

section Suited

variable {V : Type} [BEq V] [LawfulBEq V] [Hashable V] [LawfulHashable V] {graph : StateGraph Id V}
  {thorough : Prop} {reached : Reached V}

/-- The graph says that it may have cycles or sharing, or it has neither of them. -/
def Suited (graph : StateGraph Id V) : Prop :=
  (graph.hasCycles = true ∨ graph.hasSharing = true) ∨ graph.Unshared

theorem Suited.terminates (suited : Suited graph) (finitary : graph.Finitary)
    (finite : {v | graph.Reachable v}.Finite) :
    Agenda.Terminates graph id thorough (outset V graph) :=
  outset_terminates finitary finite (suited.imp_right fun unshared _ => unshared.acyclic)

theorem Completes.mem_iff (completes : Completes graph id thorough reached) (hthorough : thorough)
    (v : V) : v ∈ reached.vertices ↔ graph.Reachable v := by
  obtain ⟨log, agenda, explores, ended, hvertices⟩ := completes.explored
  rw [hvertices]
  constructor
  · exact explores.reachable
  · intro hv
    have hkey := explores.key_mem_of_ended Memory.honest_forGraph Memory.knows_forGraph hthorough
      StateGraph.uniform_id ended hv
    rwa [List.map_id] at hkey

theorem Completes.nodup (completes : Completes graph id thorough reached) (suited : Suited graph)
    (finitary : graph.Finitary) : reached.vertices.Nodup := by
  obtain ⟨log, agenda, explores, -, hvertices⟩ := completes.explored
  rw [hvertices]
  rcases suited with hints | unshared
  · have hnodup := (explores.nodup_discoveries (Memory.faithful_forGraph hints)).1
    rwa [List.map_id] at hnodup
  · exact explores.nodup_of_unshared unshared finitary

end Suited

end Reached

/-! ## Stored graphs -/

namespace Adjacency

variable {V : Type} [BEq V] [LawfulBEq V] [Hashable V] [LawfulHashable V]

/-- On a stored graph that says that it may have cycles or sharing, or on which each reachable
vertex has only one route, both orders of search come to their end and list what can be reached from
a root, each vertex once. The closures of the roots have the same vertices, and the closure of any
vertex holds what can be reached from it. -/
theorem both_orders_reach_closure_of_roots [Render V] (graph : Adjacency V) (built : graph.Built)
    (suited : graph.hasCycles = true ∨ graph.hasSharing = true ∨
      (graph.toStateGraph : StateGraph Id V).Unshared) :
    (∃ deep, Settles (fun fuel =>
      Reached.depthFirst fuel (pure false) graph.toStateGraph.space none) deep ∧
      deep.complete = true ∧ deep.vertices.Nodup ∧
      ∀ v, v ∈ deep.vertices ↔ (graph.toStateGraph : StateGraph Id V).Reachable v) ∧
    (∃ wide, Settles (fun fuel =>
      Reached.breadthFirst fuel (pure false) graph.toStateGraph.space) wide ∧
      wide.complete = true ∧ wide.vertices.Nodup ∧
      ∀ v, v ∈ wide.vertices ↔ (graph.toStateGraph : StateGraph Id V).Reachable v) ∧
    (∀ v, (graph.toStateGraph : StateGraph Id V).Reachable v ↔
      ∃ root ∈ graph.roots, v ∈ graph.reachableFrom root) ∧
    ∀ origin v, v ∈ graph.reachableFrom origin ↔
      ReflTransGen (graph.toStateGraph : StateGraph Id V).Edge origin v := by
  have suited' : Reached.Suited (graph.toStateGraph : StateGraph Id V) := or_assoc.2 suited
  have hclosure := built.listed.mem_reachableFrom
  refine ⟨?_, ?_, ?_, hclosure⟩
  · obtain ⟨deep, hrun, completes⟩ := Reached.depthFirst_settles
      (suited'.terminates graph.finitary graph.finite_reachable)
    exact ⟨deep, hrun, completes.complete, completes.nodup suited' graph.finitary,
      completes.mem_iff rfl⟩
  · obtain ⟨wide, hrun, completes⟩ := Reached.breadthFirst_settles
      (suited'.terminates graph.finitary graph.finite_reachable)
    exact ⟨wide, hrun, completes.complete, completes.nodup suited' graph.finitary,
      completes.mem_iff trivial⟩
  · intro v
    constructor
    · rintro ⟨root, hroot, hpath⟩
      exact ⟨root, Array.mem_toList_iff.1 hroot, (hclosure root v).2 hpath⟩
    · rintro ⟨root, hroot, hmem⟩
      exact ⟨root, Array.mem_toList_iff.2 hroot, (hclosure root v).1 hmem⟩

/-- Two vertices below a root. The graph does not make a search remember anything. -/
def fork : Adjacency Nat := (ofEdges [1] [(1, 2), (1, 3)]).withHints false false

theorem neighbours_fork (u : Nat) : fork.neighbours u = if u = 1 then [2, 3] else [] := by
  show (ofEdges [1] [(1, 2), (1, 3)]).neighbours u = _
  rw [neighbours_ofEdges]
  by_cases hu : 1 = u
  · subst hu
    rfl
  · simp [hu, Ne.symm hu]

theorem leads_fork {route : List Nat} {source : Option Nat} :
    (fork.toStateGraph : StateGraph Id Nat).Leads route source ↔
      (route = [] ∧ source = none) ∨ (route = [0] ∧ source = some 1) ∨
        (route = [0, 0] ∧ source = some 2) ∨ (route = [0, 1] ∧ source = some 3) := by
  have hroots : (fork.toStateGraph : StateGraph Id Nat).after none = .finite [1] := by
    rw [fork, after_none_ofEdges]
  have hafter : ∀ u, (fork.toStateGraph : StateGraph Id Nat).after (some u) =
      .finite (if u = 1 then [2, 3] else []) :=
        fun u => congrArg Sequence.finite (neighbours_fork u)
  constructor
  · intro h
    induction h with
    | start => simp
    | @step route source i v before next ih =>
      rcases ih with ⟨rfl, rfl⟩ | ⟨rfl, rfl⟩ | ⟨rfl, rfl⟩ | ⟨rfl, rfl⟩
      · rw [hroots] at next
        rcases i with _ | i
        · simp_all [Sequence.get?, Sequence.drop]
        · simp [Sequence.get?, Sequence.drop] at next
      · rw [hafter] at next
        rcases i with _ | _ | i
        · simp_all [Sequence.get?, Sequence.drop]
        · simp_all [Sequence.get?, Sequence.drop]
        · simp [Sequence.get?, Sequence.drop] at next
      · rw [hafter] at next
        simp [Sequence.get?, Sequence.drop] at next
      · rw [hafter] at next
        simp [Sequence.get?, Sequence.drop] at next
  · have hone : (fork.toStateGraph : StateGraph Id Nat).Leads ([] ++ [0]) (some 1) :=
      .step .start (by rw [hroots]; rfl)
    rintro (⟨rfl, rfl⟩ | ⟨rfl, rfl⟩ | ⟨rfl, rfl⟩ | ⟨rfl, rfl⟩)
    · exact .start
    · exact hone
    · exact .step hone (by rw [hafter]; rfl)
    · exact .step hone (by rw [hafter]; rfl)

theorem reachable_fork {v : Nat} :
    (fork.toStateGraph : StateGraph Id Nat).Reachable v ↔ v = 1 ∨ v = 2 ∨ v = 3 := by
  constructor
  · intro hv
    obtain ⟨route, hroute⟩ := hv.exists_route
    simpa using (leads_fork.1 hroute).imp_right (Or.imp And.right (Or.imp And.right And.right))
  · rintro (rfl | rfl | rfl)
    · exact (leads_fork.2 (by simp) : StateGraph.Leads _ [0] _).reachable
    · exact (leads_fork.2 (by simp) : StateGraph.Leads _ [0, 0] _).reachable
    · exact (leads_fork.2 (by simp) : StateGraph.Leads _ [0, 1] _).reachable

theorem unshared_fork : (fork.toStateGraph : StateGraph Id Nat).Unshared := by
  intro v hv
  obtain ⟨route, hroute⟩ := hv.exists_route
  refine ⟨route, hroute, fun other hother => ?_⟩
  rw [leads_fork] at hroute
  have hother := leads_fork.1 hother
  grind

theorem both_orders_reach_closure_of_roots_fork :
    fork.Built ∧ (fork.hasCycles = false ∧ fork.hasSharing = false) ∧
    (fork.toStateGraph : StateGraph Id Nat).Unshared ∧
    (∃ deep, Settles (fun fuel =>
      Reached.depthFirst fuel (pure false) fork.toStateGraph.space none) deep ∧
      deep.complete = true ∧ deep.vertices.Nodup ∧ ∀ v, v ∈ deep.vertices ↔ v = 1 ∨ v = 2 ∨ v = 3) ∧
    (∃ wide, Settles (fun fuel =>
      Reached.breadthFirst fuel (pure false) fork.toStateGraph.space) wide ∧
      wide.complete = true ∧ wide.vertices.Nodup ∧ ∀ v, v ∈ wide.vertices ↔ v = 1 ∨ v = 2 ∨ v = 3) ∧
    (∃ root ∈ fork.roots, 3 ∈ fork.reachableFrom root) ∧ 1 ∉ fork.reachableFrom 3 := by
  have built : fork.Built := (built_ofEdges _ _).withHints false false
  obtain ⟨⟨deep, hdeep, hdeep_complete, hdeep_nodup, hdeep_mem⟩,
    ⟨wide, hwide, hwide_complete, hwide_nodup, hwide_mem⟩, hroots, hclosure⟩ :=
    both_orders_reach_closure_of_roots fork built (Or.inr (Or.inr unshared_fork))
  refine ⟨built, ⟨rfl, rfl⟩, unshared_fork, ?_, ?_, ?_, ?_⟩
  · exact ⟨deep, hdeep, hdeep_complete, hdeep_nodup, fun v => (hdeep_mem v).trans reachable_fork⟩
  · exact ⟨wide, hwide, hwide_complete, hwide_nodup, fun v => (hwide_mem v).trans reachable_fork⟩
  · exact (hroots 3).1 (reachable_fork.2 (by simp))
  · intro hmem
    rcases ReflTransGen.cases_head ((hclosure 3 1).1 hmem) with heq | ⟨v, hedge, -⟩
    · cases heq
    · have hv : v ∈ fork.neighbours 3 := hedge
      rw [neighbours_fork] at hv
      cases hv

end Adjacency

end StateExplorer
