import Mathlib.Order.Interval.Finset.Nat
import StateExplorer.Proofs.Nested.Emptiness
import StateExplorer.Proofs.Transition

/-!
# Accepting runs of an observed system

An automaton that observes a system accepts a run if the run never ends and passes through accepting
states again and again. Such runs are endless paths in the graph of the composed system
(`isRun_iff_isEndlessPath`). If only finitely many vertices can be reached, an endless path passes
through accepting vertices again and again just in case one of them lies on a cycle
(`exists_accepting_path_iff`): one direction is the pigeonhole principle, and for the other the path
goes around the cycle for ever. So a nested search tells whether there is an accepting run.
-/

namespace StateExplorer

open Relation

/-! ## Endless paths -/

namespace StateGraph

variable {V : Type} {graph : StateGraph Id V} {u v : V}

/-- A path from a root that never ends. -/
structure IsEndlessPath (graph : StateGraph Id V) (run : Nat → V) : Prop where
  root : run 0 ∈ graph.after none
  edge : ∀ i, graph.Edge (run i) (run (i + 1))

theorem IsEndlessPath.reachable {run : Nat → V} (h : graph.IsEndlessPath run) (i : Nat) :
    graph.Reachable (run i) := by
  induction i with
  | zero => exact ⟨run 0, h.root, .refl⟩
  | succ i ih => exact ih.edge (h.edge i)

theorem IsEndlessPath.transGen {run : Nat → V} (h : graph.IsEndlessPath run) {i j : Nat}
    (hij : i < j) :
    TransGen graph.Edge (run i) (run j) := by
  induction j, hij using Nat.le_induction with
  | base => exact .single (h.edge i)
  | succ j _ ih => exact ih.tail (h.edge j)

/-- What an endless path meets again and again, it meets on a cycle. -/
theorem IsEndlessPath.exists_onCycle {run : Nat → V} (h : graph.IsEndlessPath run)
    (finite : {v | graph.Reachable v}.Finite) {p : V → Prop} (often : ∀ n, ∃ i, n ≤ i ∧ p (run i)) :
    ∃ v, p v ∧ graph.Reachable v ∧ graph.OnCycle v := by
  have hinfinite : {i | p (run i)}.Infinite := by
    rw [Set.infinite_iff_exists_gt]
    intro n
    obtain ⟨i, hi, hp⟩ := often (n + 1)
    exact ⟨i, hp, hi⟩
  have hmaps : Set.MapsTo run {i | p (run i)} {v | graph.Reachable v} := fun i _ => h.reachable i
  obtain ⟨i, hi, j, -, hne, heq⟩ := hinfinite.exists_ne_map_eq_of_mapsTo hmaps finite
  refine ⟨run i, hi, h.reachable i, ?_⟩
  rcases Nat.lt_or_gt_of_ne hne with hlt | hgt
  · have hcycle := h.transGen hlt
    rwa [← heq] at hcycle
  · have hcycle := h.transGen hgt
    rwa [← heq] at hcycle

theorem exists_walk_of_transGen (h : TransGen graph.Edge u v) :
    ∃ l, graph.Walk (some u) (l ++ [v]) := by
  induction h using TransGen.head_induction_on with
  | single hedge => exact ⟨[], hedge, trivial⟩
  | head hedge _ ih =>
    obtain ⟨l, hl⟩ := ih
    exact ⟨_ :: l, hedge, hl⟩

/-- One step of a journey to `v`, given by the present vertex and those that lie between it and `v`.
From `v` the journey goes around a loop. -/
def travel (v : V) (loop : List V) : V × List V → V × List V
  | (_, []) => (v, loop)
  | (_, next :: rest) => (next, rest)

section Travel

variable {loop : List V} (back : graph.Walk (some v) (loop ++ [v]))

include back

theorem walk_travel {place : V × List V} (h : graph.Walk (some place.1) (place.2 ++ [v])) :
    graph.Edge place.1 (travel v loop place).1 ∧
      graph.Walk (some (travel v loop place).1) ((travel v loop place).2 ++ [v]) := by
  obtain ⟨u, rest⟩ := place
  cases rest with
  | nil => exact ⟨h.1, back⟩
  | cons next rest => exact ⟨h.1, h.2⟩

omit back in
/-- The journey comes to `v` after the vertices that lie between. -/
theorem travel_arrives (u : V) (rest : List V) :
    (travel v loop)^[rest.length + 1] (u, rest) = (v, loop) := by
  induction rest generalizing u with
  | nil => rfl
  | cons next rest ih => exact ih next

/-- The journey never ends and comes to `v` again and again. -/
theorem exists_path_of_walk (start : V × List V) (root : start.1 ∈ graph.after none)
    (there : graph.Walk (some start.1) (start.2 ++ [v])) :
    ∃ run, graph.IsEndlessPath run ∧ ∀ n, ∃ i, n ≤ i ∧ run i = v := by
  have hwalk : ∀ i, graph.Walk (some ((travel v loop)^[i] start).1)
      (((travel v loop)^[i] start).2 ++ [v]) := by
    intro i
    induction i with
    | zero => exact there
    | succ i ih =>
      rw [Function.iterate_succ_apply']
      exact (walk_travel back ih).2
  refine ⟨fun i => ((travel v loop)^[i] start).1, ⟨root, fun i => ?_⟩, fun n => ?_⟩
  · rw [Function.iterate_succ_apply']
    exact (walk_travel back (hwalk i)).1
  · let place := (travel v loop)^[n] start
    refine ⟨place.2.length + 1 + n, by omega, ?_⟩
    show ((travel v loop)^[place.2.length + 1 + n] start).1 = v
    rw [Function.iterate_add_apply]
    exact congrArg Prod.fst (travel_arrives place.1 place.2)

end Travel

/-- Around a cycle one can go for ever. -/
theorem exists_path_of_onCycle (hv : graph.Reachable v) (hcycle : graph.OnCycle v) :
    ∃ run, graph.IsEndlessPath run ∧ ∀ n, ∃ i, n ≤ i ∧ run i = v := by
  obtain ⟨loop, back⟩ := exists_walk_of_transGen hcycle
  obtain ⟨root, hroot, hpath⟩ := hv
  rcases reflTransGen_iff_eq_or_transGen.1 hpath with rfl | hpath
  · exact exists_path_of_walk back (v, loop) hroot back
  · obtain ⟨stem, there⟩ := exists_walk_of_transGen hpath
    exact exists_path_of_walk back (root, stem) hroot there

/-- On a graph with finitely many reachable vertices, the vertices that endless paths can meet again
and again are those on cycles. -/
theorem exists_accepting_path_iff (finite : {v | graph.Reachable v}.Finite) (p : V → Prop) :
    (∃ run, graph.IsEndlessPath run ∧ ∀ n, ∃ i, n ≤ i ∧ p (run i)) ↔
      ∃ v, p v ∧ graph.Reachable v ∧ graph.OnCycle v := by
  constructor
  · rintro ⟨run, hrun, often⟩
    exact hrun.exists_onCycle finite often
  · rintro ⟨v, hp, hv, hcycle⟩
    obtain ⟨run, hrun, often⟩ := exists_path_of_onCycle hv hcycle
    refine ⟨run, hrun, fun n => ?_⟩
    obtain ⟨i, hi, rfl⟩ := often n
    exact ⟨i, hi, hp⟩

end StateGraph

/-! ## Runs -/

section Runs

variable {C A : Type} [Render C] (system : TransitionSystem Id C A)
  (automaton : Automaton Id (Step C A))

/-- An endless run of the system together with states that the automaton goes through on it. With
each step, which stutters if the system has none, the automaton takes a transition whose guard holds
of the step. -/
structure Automaton.IsRun (run : Nat → C × Nat) : Prop where
  configuration : (run 0).1 ∈ system.initial.run
  state : (run 0).2 ∈ automaton.initial
  step : ∀ i, ∃ step, system.Observable step ∧ step.source = (run i).1 ∧
    step.target = (run (i + 1)).1 ∧
    ∃ transition ∈ automaton.transitions, transition.source = (run i).2 ∧
      (transition.guard step).run = true ∧ transition.target = (run (i + 1)).2

/-- The run passes through accepting states again and again. -/
def Automaton.Accepts (run : Nat → C × Nat) : Prop :=
  automaton.IsRun system run ∧ ∀ n, ∃ i, n ≤ i ∧ automaton.isAccepting (run i).2 = true

theorem Automaton.isRun_iff_isEndlessPath {run : Nat → C × Nat} :
    automaton.IsRun system run ↔
      (system.observedBy automaton.toObserver).toStateGraph.IsEndlessPath run := by
  have hinitial : run 0 ∈ (system.observedBy automaton.toObserver).toStateGraph.after none ↔
      (run 0).1 ∈ system.initial.run ∧ (run 0).2 ∈ automaton.initial := by
    rw [← Array.mem_toList_iff]
    exact TransitionSystem.root_observedBy
  constructor
  · rintro ⟨hconfiguration, hstate, hstep⟩
    refine ⟨hinitial.2 ⟨hconfiguration, hstate⟩, fun i => TransitionSystem.edge_observedBy.2 ?_⟩
    obtain ⟨step, hobservable, hsource, htarget, htransition⟩ := hstep i
    exact ⟨step, hobservable, hsource, htarget, Automaton.reacts_iff.2 htransition⟩
  · rintro ⟨hroot, hedge⟩
    refine ⟨(hinitial.1 hroot).1, (hinitial.1 hroot).2, fun i => ?_⟩
    obtain ⟨step, hobservable, hsource, htarget, hreaction⟩ :=
      TransitionSystem.edge_observedBy.1 (hedge i)
    exact ⟨step, hobservable, hsource, htarget, Automaton.reacts_iff.1 hreaction⟩

variable [BEq C] [LawfulBEq C] [Hashable C]

/-- If the system and the automaton can reach finitely many configurations together, a nested search
of these ends, and it finds a counterexample just in case the automaton accepts a run of the
system. -/
theorem NestedSearch.colored_finds_accepting_run
    (finite : {v | (system.observedBy automaton.toObserver).toStateGraph.Reachable v}.Finite)
    (early : Bool) :
    ∃ answer,
      Settles (fun fuel => colored fuel (pure false)
        (system.lift.observedBy automaton.lift.toObserver).toStateGraph.space
        (fun v => pure (automaton.isAccepting v.2)) early) answer ∧
      (answer.holds = false ↔ ∃ run, automaton.Accepts system run) := by
  let graph : StateGraph Id (C × Nat) := (system.observedBy automaton.toObserver).toStateGraph
  have hlift : ((system.lift.observedBy automaton.lift.toObserver).toStateGraph :
      StateGraph (Except Fault) (C × Nat)) = graph.lift := by
    rw [Automaton.toObserver_lift, TransitionSystem.observedBy_lift,
      TransitionSystem.toStateGraph_lift]
  rw [hlift]
  have compatible := graph.compatible_id fun v => automaton.isAccepting v.2
  obtain ⟨answer, hanswer⟩ :=
    colored_converges _ early TransitionSystem.finitary_toStateGraph (finite.image id)
  refine ⟨answer, hanswer, ?_⟩
  obtain ⟨fuel, hreturns⟩ := hanswer.returns
  rw [(colored_verdict hreturns).holds_iff not_returns_pure_false compatible fun h => h compatible]
  simp only [StateGraph.recurs_id, Automaton.Accepts, Automaton.isRun_iff_isEndlessPath]
  exact (StateGraph.exists_accepting_path_iff finite _).symm

/-- A counter that is stuck at 2, and an automaton that guesses when it is and sees it stutter from
then on. -/
theorem NestedSearch.colored_finds_accepting_run_stuck :
    let system : TransitionSystem Id Nat Unit :=
      { initial := [0], actions := fun n => if n < 2 then [()] else [],
        execute := fun _ n => [n + 1] }
    let automaton : Automaton Id (Step Nat Unit) :=
      { states := 2, initial := #[0], accepting := #[1],
        transitions :=
          #[⟨0, fun _ => true, 0⟩, ⟨0, fun step => step.target == 2, 1⟩, ⟨1, Step.isStutter, 1⟩] }
    {v | (system.observedBy automaton.toObserver).toStateGraph.Reachable v}.Finite ∧
      ∃ answer,
        Settles (fun fuel => colored fuel (pure false)
          (system.lift.observedBy automaton.lift.toObserver).toStateGraph.space
          (fun v => pure (automaton.isAccepting v.2)) true) answer ∧
        (answer.holds = false ↔ ∃ run, automaton.Accepts system run) := by
  intro system automaton
  have finite : {v | (system.observedBy automaton.toObserver).toStateGraph.Reachable v}.Finite :=
    TransitionSystem.finite_reachable_of_closed [(0, 0), (1, 0), (2, 0), (2, 1)]
      (by decide) (by decide)
  exact ⟨finite, colored_finds_accepting_run system automaton finite true⟩

end Runs

end StateExplorer
