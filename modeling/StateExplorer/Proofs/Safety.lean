import StateExplorer.Check.Safety
import StateExplorer.Graph.Examples
import StateExplorer.Proofs.Bounded
import StateExplorer.Proofs.Lasso
import StateExplorer.Proofs.Reachability
import StateExplorer.Proofs.Visiting

/-!
# Safety

A check for bad vertices either ends with the exploration that it follows, and then nothing that was
discovered is bad, or stops where the first bad vertex is entered (`check_returns`). In the second
case the stack spells the trace. So the verdict tells whether the exploration has a bad vertex among
its discoveries (`holds_eq_false_iff`).

Without a bound the discoveries are the reachable vertices. With a bound they are what
`Reached.depthFirst` collects, and this may be less than what lies within the bound.
-/

namespace StateExplorer.Safety

open DepthSearch Event

/-! ## What the detector finds -/

section Detector

variable {V K κ : Type} [Store κ K] {graph : StateGraph Id V} {key : V → K} {known : κ}
  {bound : Option Nat} {bad : V → Bool} {answer : Answer V}

/-- An exploration came to a bad vertex after it had discovered no other, and the answer is the path
to it. -/
def Caught (graph : StateGraph Id V) (key : V → K) (first : DepthSearch V κ) (bad : V → Bool)
    (answer : Answer V) : Prop :=
  ∃ log search found before target, Explores graph key first log search ∧
    discoveries log = found ++ [target] ∧ (∀ v ∈ found, bad v = false) ∧ bad target = true ∧
    search.path = before ++ [target] ∧
    answer = .violated (.ofEntry before.getLast? target) (before ++ [target])

section Upholds

variable {m : Type → Type} [Monad m] [MonadExceptOf Fault m] [Returning m] [Journal m] [Render V]

theorem detector_upholds :
    Upholds (m := m) graph key (fresh graph known bound) (detector fun v => pure (bad v))
      (fun log _ answer => answer = .satisfied ∧ ∀ v ∈ discoveries log, bad v = false)
      (fun _ answer => Caught graph key (fresh graph known bound) bad answer) := by
  refine Upholds.of_enter (fun found (answer : Answer V) =>
    answer = .satisfied ∧ ∀ v ∈ found, bad v = false) rfl ?_
  intro log search answer top rest target signal answer' explores inv items offer new told
  have told := Returning.of_pure_bind told
  split at told
  · next hbad =>
    cases Returning.of_pure (Returning.of_seq told)
    refine ⟨_, _, discoveries log, search.path, target, explores.step (.enter items offer new), ?_,
      inv.2, hbad, ?_, ?_⟩
    · exact discoveries_entry
    · rw [path_pushed, path_learn, path_advance]
    · rw [path_learn, path_advance, explores.grounded.getLast?_path items]
  · next hgood =>
    cases Returning.of_pure told
    refine ⟨inv.1, fun v hv => ?_⟩
    rcases List.mem_append.1 hv with hold | hnew
    · exact inv.2 v hold
    · rw [List.mem_singleton.1 hnew]
      exact Bool.eq_false_iff.2 hgood

end Upholds

theorem detector_responds [Render V] {first : DepthSearch V κ} :
    Responds graph key first fun _ => detector fun v => pure (bad v) where
  enter := by
    intro log search top rest target answer explores items offer
    apply Converges.pure_bind
    split
    · exact Converges.pure _
    · exact Converges.pure _
  revisit _ _ _ _ := Converges.pure _
  leave _ _ _ _ := Converges.pure _

namespace Caught

variable (h : Caught graph key (fresh graph known bound) bad answer)

include h

/-- The answer is a path from a root to the only bad vertex on it. -/
theorem trace_eq : ∃ before target,
    answer = .violated (.ofEntry before.getLast? target) (before ++ [target]) ∧
    graph.Walk none (before ++ [target]) ∧ bad target = true ∧ ∀ v ∈ before, bad v = false := by
  obtain ⟨log, search, found, before, target, explores, hfound, clean, hbad, hpath, rfl⟩ := h
  have hsublist := explores.path_sublist
  rw [hpath, hfound, List.append_sublist_append_right] at hsublist
  exact ⟨before, target, rfl, hpath ▸ explores.grounded.walk, hbad,
    fun v hv => clean v (hsublist.subset hv)⟩

/-- No vertex comes twice on the path if the search remembers. -/
theorem nodup_trace (faithful : Store.Faithful known) : (answer.trace.map key).Nodup := by
  obtain ⟨log, search, found, before, target, explores, -, -, -, hpath, rfl⟩ := h
  have hnodup := explores.nodup_path faithful
  rwa [hpath] at hnodup

/-- The exploration goes on to discover the bad vertex in any case. -/
theorem exists_bad {log : List (Event V)} {search : DepthSearch V κ}
    (explores : Explores graph key (fresh graph known bound) log search)
    (ended : search.stack.items = []) : ∃ v ∈ discoveries log, bad v = true := by
  obtain ⟨log', search', found, before, target, explores', hfound, -, hbad, -, -⟩ := h
  obtain ⟨rest, rfl, -⟩ := explores'.extends explores ended
  have hopen : Opened log' (some target) := by
    show target ∈ discoveries log'
    rw [hfound]
    exact List.mem_append_right _ (List.mem_singleton_self target)
  exact ⟨target, hopen.append, hbad⟩

end Caught

end Detector

/-! ## What the check answers -/

section Check

variable {V K : Type} [BEq K] [Hashable K] [Render V] {graph : StateGraph Id V} {key : V → K}
  {bound : Option Nat} {bad : V → Bool} {answer : Answer V}

section Returns

variable {m : Type → Type} [Monad m] [LawfulMonad m] [MonadExceptOf Fault m] [Returning m]
  [Journal m] {fuel : Nat} {poll : m Bool}

/-- The check stops at the first bad vertex, unless it comes to the end or is told to stop
before. -/
theorem check_returns
    (h : Returns (check fuel poll (graph.under key) (fun v => pure (bad v)) bound) answer) :
    Caught graph key (fresh graph (Memory.forGraph graph : Memory K) bound) bad answer ∨
      answer = .satisfied ∧ (Returns poll true ∨ ∃ log search,
        Explores graph key (fresh graph (Memory.forGraph graph : Memory K) bound) log search ∧
        search.stack.items = [] ∧ ∀ v ∈ discoveries log, bad v = false) := by
  obtain ⟨outcome, t, hanswer, hend⟩ := detector_upholds.start_run ⟨rfl, fun v hv => by cases hv⟩ h
  rw [Returning.of_pure (Returning.of_seq hanswer)]
  cases outcome with
  | exhausted =>
    obtain ⟨ended, log, explores, satisfied, clean⟩ := hend
    exact Or.inr ⟨satisfied, Or.inr ⟨log, t.search, explores, ended, clean⟩⟩
  | aborted => exact Or.inl hend
  | cancelled =>
    obtain ⟨hpoll, log, explores, satisfied, clean⟩ := hend
    exact Or.inr ⟨satisfied, Or.inl hpoll⟩

/-- A check that is not told to stop finds a bad vertex if and only if there is one among the
discoveries of the exploration that it follows. -/
theorem holds_eq_false_iff
    (h : Returns (check fuel poll (graph.under key) (fun v => pure (bad v)) bound) answer)
    (hpoll : ¬ Returns poll true) {log : List (Event V)} {search : DepthSearch V (Memory K)}
    (explores : Explores graph key
      (fresh graph (Memory.forGraph graph : Memory K) bound) log search)
    (ended : search.stack.items = []) :
    answer.holds = false ↔ ∃ v ∈ discoveries log, bad v = true := by
  rcases check_returns h with caught | ⟨rfl, told | ⟨log', search', explores', ended', clean⟩⟩
  · refine ⟨fun _ => caught.exists_bad explores ended, fun _ => ?_⟩
    obtain ⟨before, target, rfl, -⟩ := caught.trace_eq
    rfl
  · exact absurd told hpoll
  · rw [explores.log_eq_of_ended explores' ended ended'] at clean
    constructor
    · intro h
      cases h
    · rintro ⟨v, hv, hbad⟩
      rw [clean v hv] at hbad
      cases hbad

end Returns

theorem check_converges (bad : V → Bool)
    (terminates : Terminates graph key (fresh graph (Memory.forGraph graph : Memory K) bound)) :
    Converges fun fuel =>
      check fuel (pure false) (graph.under key) (fun v => pure (bad v)) bound := by
  apply Converges.pure_bind
  apply Converges.bind (detector_responds.converges terminates .satisfied)
  exact fun _ => Converges.pure _

end Check

/-! ## What the answers mean -/

section Identity

variable {V : Type} [BEq V] [LawfulBEq V] [Hashable V] [LawfulHashable V] [Render V]
  (graph : StateGraph Id V)

/-- Without a bound the check ends, as long as the graph says that it may have cycles or sharing or
has no cycles. It holds if and only if no bad vertex can be reached. Otherwise the trace is a path
from a root that comes to no vertex twice and to a bad one only at its end, which is what the
witness points to. -/
theorem check_decides_safety (finitary : graph.Finitary) (finite : {v | graph.Reachable v}.Finite)
    (suited : graph.hasCycles = true ∨ graph.hasSharing = true ∨
      ∀ v, graph.Reachable v → ¬ graph.OnCycle v) (bad : V → Bool) :
    ∃ answer,
      Settles (fun fuel => check fuel (pure false) graph.lift.space (fun v => pure (bad v)) none)
        answer ∧
      (answer.holds = true ↔ ∀ v, graph.Reachable v → bad v = false) ∧
      ∀ witness trace, answer = .violated witness trace →
        graph.Walk none trace ∧ trace.Nodup ∧
        (∃ before last, trace = before ++ [last] ∧ bad last = true ∧ (∀ v ∈ before, bad v = false) ∧
          (before = [] → witness = .vertex last) ∧
          ∀ init source, before = init ++ [source] → witness = .edge source last) ∧
        ∀ allowance, answer.traceDefect? allowance graph.lift = (.ok none : Except Fault _) := by
  have terminates : Agenda.Terminates graph id (none = (none : Option Nat))
      (Reached.outset V graph) :=
    Reached.outset_terminates finitary finite (or_assoc.2 suited)
  obtain ⟨log, search, explores, ended, -⟩ := Reached.depthFirst_explores terminates
  obtain ⟨answer, hanswer⟩ := check_converges bad terminates.depthSearch
  obtain ⟨fuel, hreturns⟩ := hanswer.returns
  refine ⟨answer, hanswer, ?_, ?_⟩
  · have hmem : ∀ v, v ∈ discoveries log ↔ graph.Reachable v := by
      refine fun v => ⟨explores.reachable, fun hv => ?_⟩
      have hkey := explores.agenda.key_mem_of_ended Memory.honest_forGraph Memory.knows_forGraph rfl
        StateGraph.uniform_id (congrArg _ ended) hv
      rwa [List.map_id] at hkey
    have hiff := holds_eq_false_iff hreturns not_returns_pure_false explores ended
    rw [← Bool.not_eq_false, hiff]
    simp [hmem]
  · rintro witness trace rfl
    have caught := (check_returns hreturns).resolve_right fun h => by cases h.1
    obtain ⟨before, target, heq, hwalk, hbad, clean⟩ := caught.trace_eq
    obtain ⟨rfl, rfl⟩ := Answer.violated.inj heq
    refine ⟨hwalk, ?_, ⟨before, target, rfl, hbad, clean, ?_, ?_⟩,
      fun _ => Answer.traceDefect?_of_walk finitary hwalk⟩
    · rcases or_assoc.2 suited with hints | acyclic
      · have hnodup := caught.nodup_trace (Memory.faithful_forGraph hints)
        rwa [List.map_id] at hnodup
      · exact hwalk.nodup_of_acyclic acyclic
    · rintro rfl
      rfl
    · rintro init source rfl
      rw [List.getLast?_concat]
      rfl

theorem check_decides_safety_fork :
    let graph : StateGraph Id Nat := Adjacency.fork.toStateGraph
    (graph.Finitary ∧ {v | graph.Reachable v}.Finite ∧ ∀ v, graph.Reachable v → ¬ graph.OnCycle v) ∧
    ∃ answer,
      Settles (fun fuel => check fuel (pure false) graph.lift.space (fun v => pure (v == 3)) none)
        answer ∧
      answer.holds = false ∧
      ∀ witness trace, answer = .violated witness trace →
        graph.Walk none trace ∧ trace.Nodup ∧
        (∃ before last, trace = before ++ [last] ∧ (last == 3) = true ∧
          (∀ v ∈ before, (v == 3) = false) ∧
          (before = [] → witness = .vertex last) ∧
          ∀ init source, before = init ++ [source] → witness = .edge source last) ∧
        ∀ allowance, answer.traceDefect? allowance graph.lift = (.ok none : Except Fault _) := by
  intro graph
  have acyclic : ∀ v, graph.Reachable v → ¬ graph.OnCycle v :=
    fun _ => Adjacency.unshared_fork.acyclic
  obtain ⟨answer, hanswer, hiff, hviolated⟩ := check_decides_safety graph (Adjacency.finitary _)
    (Adjacency.finite_reachable _) (Or.inr (Or.inr acyclic)) (· == 3)
  refine ⟨⟨Adjacency.finitary _, Adjacency.finite_reachable _, acyclic⟩, answer,
    hanswer, ?_, hviolated⟩
  rw [← Bool.not_eq_true, hiff]
  intro h
  exact absurd (h 3 (Adjacency.reachable_fork.2 (by simp))) (by decide)

/-- With a bound the check finds a bad vertex if and only if a search with this bound discovers one.
All that is discovered lies within the bound. If nothing is obstructed, all that lies within the
bound is discovered, so that the check decides whether there is a path to a bad vertex with at most
as many vertices as the bound allows. -/
theorem bounded_check_decides_discovered (finitary : graph.Finitary)
    (finite : {v | graph.Reachable v}.Finite)
    (hints : graph.hasCycles = true ∨ graph.hasSharing = true) (limit : Nat) :
    ∃ reached,
      Settles (fun fuel => Reached.depthFirst fuel (pure false) graph.lift.space (some limit))
        reached ∧
      (∀ v ∈ reached.vertices, graph.Within (some limit) v) ∧
      (graph.Unobstructed limit → ∀ v, graph.Within (some limit) v → v ∈ reached.vertices) ∧
      ∀ bad : V → Bool, ∃ answer,
        Settles (fun fuel => check fuel (pure false) graph.lift.space
          (fun v => pure (bad v)) (some limit))
          answer ∧
        (answer.holds = false ↔ ∃ v ∈ reached.vertices, bad v = true) ∧
        (graph.Unobstructed limit →
          (answer.holds = false ↔ ∃ v, graph.Within (some limit) v ∧ bad v = true)) := by
  have terminates : Agenda.Terminates graph id (some limit = none) (Reached.outset V graph) :=
    Reached.outset_terminates finitary finite (Or.inl hints)
  obtain ⟨log, search, explores, ended, hrun⟩ := Reached.depthFirst_explores terminates
  have hwithin : graph.Unobstructed limit → ∀ v, graph.Within (some limit) v →
      v ∈ discoveries log := by
    intro unobstructed v hv
    refine explores.mem_of_faithful (Memory.faithful_forGraph hints)
      Memory.knows_forGraph ended ?_ hv
    rintro _ ⟨⟩
    exact unobstructed
  refine ⟨_, hrun, fun v => explores.within, hwithin, fun bad => ?_⟩
  obtain ⟨answer, hanswer⟩ := check_converges bad terminates.depthSearch
  obtain ⟨fuel, hreturns⟩ := hanswer.returns
  have hiff := holds_eq_false_iff hreturns not_returns_pure_false explores ended
  refine ⟨answer, hanswer, hiff, fun unobstructed => hiff.trans ?_⟩
  constructor
  · rintro ⟨v, hv, hbad⟩
    exact ⟨v, explores.within hv, hbad⟩
  · rintro ⟨v, hv, hbad⟩
    exact ⟨v, hwithin unobstructed v hv, hbad⟩

theorem bounded_check_decides_discovered_threeCycle :
    let graph : StateGraph Id Nat := (Examples.threeCycle.withHints true false).toStateGraph
    (graph.Finitary ∧ {v | graph.Reachable v}.Finite ∧ graph.hasCycles = true ∧
      graph.Unobstructed 2) ∧
    ∃ reached,
      Settles (fun fuel => Reached.depthFirst fuel (pure false) graph.lift.space (some 2)) reached ∧
      (∀ v, v ∈ reached.vertices ↔ graph.Within (some 2) v) ∧
      ∃ answer,
        Settles (fun fuel => check fuel (pure false) graph.lift.space
          (fun v => pure (v == 3)) (some 2))
          answer ∧
        (answer.holds = false ↔ ∃ v ∈ reached.vertices, (v == 3) = true) ∧
        (answer.holds = false ↔ ∃ v, graph.Within (some 2) v ∧ (v == 3) = true) := by
  intro graph
  have hroots : graph.after none = .finite [1] := by
    simp only [graph, Examples.threeCycle, Adjacency.after_none_ofEdges]
  -- a path of two vertices that ends at the root starts there too
  have unobstructed : graph.Unobstructed 2 := by
    intro v before detour hbefore hshort hdetour hnodup hlong
    obtain rfl : before = [] := List.length_eq_zero_iff.1 (by omega)
    obtain ⟨first, rfl⟩ := List.length_eq_one_iff.1 (by omega : detour.length = 1)
    have hv := hbefore.1
    have hfirst := hdetour.1
    rw [hroots, Sequence.mem_finite, List.mem_singleton] at hv hfirst
    simp [hv, hfirst] at hnodup
  obtain ⟨reached, hrun, hsound, hcomplete, hcheck⟩ := bounded_check_decides_discovered graph
    (Adjacency.finitary _) (Adjacency.finite_reachable _) (Or.inl rfl) 2
  obtain ⟨answer, hanswer, hdiscovered, hwithin⟩ := hcheck (· == 3)
  exact ⟨⟨Adjacency.finitary _, Adjacency.finite_reachable _, rfl, unobstructed⟩, reached, hrun,
    fun v => ⟨hsound v, hcomplete unobstructed v⟩, answer, hanswer, hdiscovered,
    hwithin unobstructed⟩

end Identity

/-- The way to 3 that is tried first is one vertex longer than the direct one. -/
def shortcut : Adjacency Nat :=
  (Adjacency.ofEdges [1] [(1, 2), (2, 3), (1, 3), (3, 4)]).withHints true true

theorem bounded_check_misses_shortcut :
    let graph : StateGraph Id Nat := shortcut.toStateGraph
    (graph.Finitary ∧ {v | graph.Reachable v}.Finite ∧ graph.hasCycles = true) ∧
    graph.Within (some 3) 4 ∧
    Settles (fun fuel => check fuel (pure false) graph.lift.space (fun v => pure (v == 4)) (some 3))
      .satisfied := by
  intro graph
  have hroots : graph.after none = .finite [1] := by
    simp only [graph, shortcut, Adjacency.after_none_ofEdges]
  have hafter : ∀ u, graph.after (some u) =
      .finite (([(1, 2), (2, 3), (1, 3), (3, 4)].filter (·.1 == u)).map Prod.snd) := by
    intro u
    simp only [graph, shortcut, Adjacency.after_some_ofEdges]
  refine ⟨⟨Adjacency.finitary _, Adjacency.finite_reachable _, rfl⟩, ?_, ?_⟩
  · refine ⟨[1, 3], ⟨?_, ?_, ?_, trivial⟩, by simp⟩
    · simp [hroots]
    · simp [hafter]
    · simp [hafter]
  · refine ⟨9, fun fuel hfuel => ?_⟩
    obtain ⟨fuel, rfl⟩ := Nat.exists_eq_add_of_le' hfuel
    have hmemory : (Memory.forGraph graph : Memory Nat) = .remember ∅ := rfl
    unfold check
    show (DepthSearch.start (graph.under id) (Memory.forGraph graph : Memory Nat) (some 3) >>= _) =
      pure Answer.satisfied
    rw [start_under, pure_bind, hmemory]
    simp only [Machine.run, machine, step, fresh, detector]
    simp [offer, hasRoom, Frame.peek, Stack.push, Stack.empty, StateGraph.space, hroots, hafter,
      Visitor.silent, Store.knows, Store.learn, learn, advance, Stack.modifyTop,
      Frame.advance, push, StateGraph.lift, pop, Stack.pop]

end StateExplorer.Safety
