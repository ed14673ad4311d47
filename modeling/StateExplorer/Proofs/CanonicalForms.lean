import StateExplorer.Proofs.Bounded
import StateExplorer.Proofs.Reachability

/-!
# Canonical forms that are found twice

A search takes vertices with the same canonical form for one state by asking its memory. Which
memory it has depends only on what the graph says about itself, and not on the forms. A graph that
says that it has neither cycles nor sharing gets a memory that forgets, and if this is true of the
graph then each vertex is still found once, but vertices with the same form are all found. So what
is found has distinct forms if the memory remembers, or if the forms tell the vertices of the graph
apart, and not otherwise (`Reached.distinct_forms_iff`).
-/

namespace StateExplorer

open DepthSearch Event

/-- What the graph says about cycles and sharing is not wrong. -/
structure StateGraph.Truthful {V : Type} (graph : StateGraph Id V) : Prop where
  cycles : graph.hasCycles = false → ∀ v, graph.Reachable v → ¬ graph.OnCycle v
  sharing : graph.hasSharing = false → graph.Unshared

namespace Reached

variable {V K : Type} [BEq K] [LawfulBEq K] [Hashable K] [LawfulHashable K]
  {graph : StateGraph Id V} {key : V → K} {thorough : Prop} {log : List (Event V)}

/-- An exploration that has found `area` with the memory for the graph has found distinct forms if
and only if the memory remembers or the forms tell the vertices in `area` apart. -/
theorem distinct_forms_of_area {agenda : Agenda V (Memory K)} {area : Set V}
    (finitary : graph.Finitary) (truthful : graph.Truthful)
    (explores : Agenda.Explores graph key thorough (outset K graph) log agenda)
    (found : ¬ (graph.hasCycles = true ∨ graph.hasSharing = true) → ∀ v,
      v ∈ discoveries log ↔ v ∈ area) :
    ((discoveries log).map key).Nodup ↔
      (graph.hasCycles = true ∨ graph.hasSharing = true) ∨ Set.InjOn key area := by
  by_cases hints : graph.hasCycles = true ∨ graph.hasSharing = true
  · exact iff_of_true (explores.nodup_discoveries (Memory.faithful_forGraph hints)).1 (Or.inl hints)
  · rw [or_iff_right hints]
    rw [not_or, Bool.not_eq_true, Bool.not_eq_true] at hints
    have hnodup := explores.nodup_of_unshared (truthful.sharing hints.2) finitary
    rw [List.nodup_map_iff_inj_on hnodup]
    simp only [found (by simp [hints]), Set.InjOn]

theorem truthful_terminates (finitary : graph.Finitary) (finite : {v | graph.Reachable v}.Finite)
    (truthful : graph.Truthful) : Agenda.Terminates graph key thorough (outset K graph) := by
  refine outset_terminates finitary finite ?_
  cases hcycles : graph.hasCycles with
  | true => exact Or.inl (Or.inl rfl)
  | false => exact Or.inr (truthful.cycles hcycles)

variable [Render V]

/-- On a finite graph that says nothing wrong about itself every search ends. The vertices that it
found have distinct canonical forms if and only if the graph says that it may have cycles or
sharing, or the forms tell those vertices apart that a search can come to. -/
theorem distinct_forms_iff (finitary : graph.Finitary) (finite : {v | graph.Reachable v}.Finite)
    (truthful : graph.Truthful) (key : V → K) (bound : Option Nat) :
    (∃ deep, Settles (fun fuel => depthFirst fuel (pure false) (graph.under key) bound) deep ∧
      deep.complete = true ∧
      ((deep.vertices.map key).Nodup ↔
        (graph.hasCycles = true ∨ graph.hasSharing = true) ∨
          Set.InjOn key {v | graph.Within bound v})) ∧
    ∃ wide, Settles (fun fuel => breadthFirst fuel (pure false) (graph.under key)) wide ∧
      wide.complete = true ∧
      ((wide.vertices.map key).Nodup ↔
        (graph.hasCycles = true ∨ graph.hasSharing = true) ∨
          Set.InjOn key {v | graph.Reachable v}) := by
  refine ⟨?_, ?_⟩
  · have terminates : Agenda.Terminates graph key (bound = none) (outset K graph) :=
      truthful_terminates finitary finite truthful
    obtain ⟨log, search, explores, ended, hrun⟩ := depthFirst_explores terminates
    refine ⟨_, hrun, rfl, distinct_forms_of_area finitary truthful explores.agenda
      fun hints v => ?_⟩
    have forgetful : Store.Forgetful K (Memory.forGraph graph : Memory K) :=
      Memory.forgetful_forGraph hints
    rw [not_or, Bool.not_eq_true, Bool.not_eq_true] at hints
    have unshared := truthful.sharing hints.2
    refine ⟨explores.within,
      explores.mem_of_within ended (explores.agenda.mem_of_lookedAt forgetful) ?_ ?_⟩
    · exact fun explores => explores.grounded.walk.nodup_of_acyclic fun _ => unshared.acyclic
    · exact fun _ _ => unshared.unobstructed
  · have terminates : Agenda.Terminates graph key True (outset K graph) :=
      truthful_terminates finitary finite truthful
    obtain ⟨wide, hrun, complete, log, agenda, explores, ended, hvertices⟩ :=
      breadthFirst_settles terminates
    refine ⟨wide, hrun, complete, ?_⟩
    rw [hvertices]
    refine distinct_forms_of_area finitary truthful explores fun hints v => ?_
    exact ⟨explores.reachable,
      explores.mem_of_ended (Memory.forgetful_forGraph hints) trivial ended⟩

theorem truthful_fork : (Adjacency.fork.toStateGraph : StateGraph Id Nat).Truthful :=
  ⟨fun _ _ => Adjacency.unshared_fork.acyclic, fun _ => Adjacency.unshared_fork⟩

theorem distinct_forms_iff_fork :
    let graph : StateGraph Id Nat := Adjacency.fork.toStateGraph
    (graph.Finitary ∧ {v | graph.Reachable v}.Finite ∧ graph.Truthful) ∧
    (∃ deep, Settles
      (fun fuel => depthFirst fuel (pure false) (graph.under (· % 3)) (some 2)) deep ∧
      deep.complete = true ∧ (deep.vertices.map (· % 3)).Nodup) ∧
    ∃ wide, Settles (fun fuel => breadthFirst fuel (pure false) (graph.under (· % 3))) wide ∧
      wide.complete = true ∧ (wide.vertices.map (· % 3)).Nodup := by
  intro graph
  have hinjective : Set.InjOn (· % 3) {v | graph.Reachable v} := by
    intro u hu v hv huv
    have hu := Adjacency.reachable_fork.1 hu
    have hv := Adjacency.reachable_fork.1 hv
    simp only at huv
    omega
  have hwithin : {v | graph.Within (some 2) v} ⊆ {v | graph.Reachable v} :=
    fun _ => StateGraph.Within.reachable
  obtain ⟨⟨deep, hdeep, hdeep_complete, hdeep_iff⟩, wide, hwide, hwide_complete, hwide_iff⟩ :=
    distinct_forms_iff (Adjacency.finitary _)
      (Adjacency.finite_reachable _) truthful_fork (· % 3) (some 2)
  exact ⟨⟨Adjacency.finitary _, Adjacency.finite_reachable _, truthful_fork⟩,
    ⟨deep, hdeep, hdeep_complete, hdeep_iff.2 (Or.inr (hinjective.mono hwithin))⟩,
    wide, hwide, hwide_complete, hwide_iff.2 (Or.inr hinjective)⟩

/-- The three vertices have the same form, and all of them are found. -/
theorem forms_repeat_on_fork :
    let graph : StateGraph Id Nat := Adjacency.fork.toStateGraph
    let key : Nat → Nat := fun _ => 0
    (graph.Finitary ∧ {v | graph.Reachable v}.Finite ∧ graph.Truthful) ∧
    Settles (fun fuel => depthFirst fuel (pure false) (graph.under key) none) ⟨[1, 2, 3], true⟩ ∧
    Settles (fun fuel => breadthFirst fuel (pure false) (graph.under key)) ⟨[1, 2, 3], true⟩ ∧
    ¬ ([1, 2, 3].map key).Nodup := by
  intro graph key
  have hroots : graph.after none = .finite [1] := by
    simp only [graph, Adjacency.fork, Adjacency.after_none_ofEdges]
  have hafter : ∀ u, graph.after (some u) =
      .finite (([(1, 2), (1, 3)].filter (·.1 == u)).map Prod.snd) := by
    intro u
    simp only [graph, Adjacency.fork, Adjacency.after_some_ofEdges]
  have hmemory : (Memory.forGraph graph : Memory Nat) = .forget {} := rfl
  refine ⟨⟨Adjacency.finitary _, Adjacency.finite_reachable _, truthful_fork⟩, ?_, ?_, by decide⟩
  · refine ⟨8, fun fuel hfuel => ?_⟩
    obtain ⟨fuel, rfl⟩ := Nat.exists_eq_add_of_le' hfuel
    unfold depthFirst
    show (DepthSearch.start (graph.under key) (Memory.forGraph graph : Memory Nat) none >>= _) =
      pure (Reached.mk [1, 2, 3] true)
    rw [start_under, pure_bind, hmemory]
    simp only [Machine.run, DepthSearch.machine, DepthSearch.step, fresh, collector]
    simp [offer, hasRoom, Frame.peek, Stack.push, Stack.empty, StateGraph.under, hroots, hafter,
      Visitor.silent, Store.knows, Store.learn, learn, advance, Stack.modifyTop,
      Frame.advance, push, StateGraph.lift, pop, Stack.pop, conclude]
  · refine ⟨8, fun fuel hfuel => ?_⟩
    obtain ⟨fuel, rfl⟩ := Nat.exists_eq_add_of_le' hfuel
    unfold breadthFirst
    show (BreadthSearch.start (graph.under key) (Memory.forGraph graph : Memory Nat) >>= _) =
      pure (Reached.mk [1, 2, 3] true)
    rw [hmemory]
    simp only [Machine.run, BreadthSearch.machine, BreadthSearch.step,
      BreadthSearch.start, collector]
    simp [Frame.peek, StateGraph.under, hroots, hafter, Visitor.silent, Store.knows, Store.learn,
      BreadthSearch.learn, BreadthSearch.advance, Frame.advance, BreadthSearch.push, Queue.push,
      Queue.empty, StateGraph.lift, BreadthSearch.turn, BreadthSearch.expandNext,
      BreadthSearch.leave, Queue.pop?, conclude]

end Reached

end StateExplorer
