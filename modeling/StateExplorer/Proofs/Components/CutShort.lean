import StateExplorer.Proofs.Allowance
import StateExplorer.Proofs.Components.Decomposition

/-!
# Decompositions that are cut short

A component is completed only after everything that it can reach. So the components that have been
completed by the time a budget is used up are components of the whole graph, however large that is
(`IsExact`).
-/

namespace StateExplorer.Components

open Relation DepthSearch Event

variable {V : Type} {graph : StateGraph Id V}

/-- The components are strongly connected components of the whole graph, each comes after all that
it can reach, and one is trivial if and only if no cycle of the graph passes through it. -/
structure IsExact (graph : StateGraph Id V) (decomposition : Decomposition V) : Prop where
  nonempty : ∀ c ∈ decomposition.components, c.vertices ≠ []
  nodup : (decomposition.components.flatMap Component.vertices).Nodup
  mem_iff : ∀ c ∈ decomposition.components, ∀ u ∈ c.vertices, ∀ v,
    v ∈ c.vertices ↔ ReflTransGen graph.Edge u v ∧ ReflTransGen graph.Edge v u
  closed : ∀ {i : Nat} {c : Component V}, decomposition.components[i]? = some c → ∀ u ∈ c.vertices,
    ∀ v, ReflTransGen graph.Edge u v →
      ∃ (j : Nat) (c' : Component V), j ≤ i ∧
        decomposition.components[j]? = some c' ∧ v ∈ c'.vertices
  isTrivial_iff : ∀ {i : Nat} {c : Component V}, decomposition.components[i]? = some c →
    (decomposition.isTrivial i = true ↔ ∀ u ∈ c.vertices, ¬ graph.OnCycle u)

namespace Assembled

variable {found : List V} {seen : V → V → Prop} {components : List (Component V)} {done : List V}
  {i : Nat} {c : Component V} {u v : V}

theorem mem_iff_mutual (h : Assembled graph id found seen components done)
    (hseen : ∀ {u v}, seen u v → graph.Edge u v) (hi : components[i]? = some c)
    (hu : u ∈ c.vertices) :
    v ∈ c.vertices ↔ ReflTransGen graph.Edge u v ∧ ReflTransGen graph.Edge v u := by
  constructor
  · intro hv
    have hstrong := h.strong c (List.mem_of_getElem? hi)
    have hedges : ReflTransGen seen ≤ ReflTransGen graph.Edge := ReflTransGen.mono fun _ _ => hseen
    exact ⟨hedges _ _ (hstrong u hu v hv), hedges _ _ (hstrong v hv u hu)⟩
  · intro hmutual
    exact h.mem_of_mutual (fun {u v} hedge => ⟨v, hedge, fun w _ hw => hw⟩) hi hu
      hmutual.1 hmutual.2

/-- A vertex without an edge to itself that is alone in its component lies on no cycle, and vertices
that are not alone lie on one. -/
theorem trivial_iff_acyclic (h : Assembled graph id found seen components done)
    (hseen : ∀ {u v}, seen u v → graph.Edge u v) (hi : components[i]? = some c) :
    c.trivial = true ↔ ∀ u ∈ c.vertices, ¬ graph.OnCycle u := by
  have hc := List.mem_of_getElem? hi
  rw [h.trivial_iff c hc]
  constructor
  · rintro ⟨u, hvertices, hloop⟩ v hv hcycle
    have huv : v = u := by simpa [hvertices] using hv
    subst huv
    obtain ⟨w, hedge, hback⟩ := TransGen.head'_iff.1 hcycle
    have hw := (h.mem_iff_mutual hseen hi hv).2 ⟨.single hedge, hback⟩
    have hwv : w = v := by simpa [hvertices] using hw
    exact hloop ⟨w, hedge, hwv⟩
  · intro hacyclic
    obtain ⟨u, hu⟩ := List.exists_mem_of_ne_nil _ (h.nonempty c hc)
    have halone : ∀ v ∈ c.vertices, v = u := by
      intro v hv
      by_contra hne
      obtain ⟨huv, hvu⟩ := (h.mem_iff_mutual hseen hi hu).1 hv
      rcases reflTransGen_iff_eq_or_transGen.1 huv with heq | hpath
      · exact hne heq
      · exact hacyclic u hu (hpath.trans_left hvu)
    have hnodup : c.vertices.Nodup := (List.nodup_flatMap.1 h.nodup).1 c hc
    refine ⟨u, ?_, ?_⟩
    · exact List.perm_singleton.1 ((List.perm_ext_iff_of_nodup hnodup (List.nodup_singleton u)).2
        fun v => ⟨fun hv => List.mem_singleton.2 (halone v hv),
          fun hv => List.mem_singleton.1 hv ▸ hu⟩)
    · rintro ⟨x, hx, hxu⟩
      have hxu : x = u := hxu
      exact hacyclic u hu (.single (hxu ▸ hx))

end Assembled

section Search

/-- What has been completed at any point of the search is right for the whole graph. -/
theorem Ongoing.isExact [BEq V] [Hashable V] {log : List (Event V)}
    {search : DepthSearch V (Std.HashSet V)} {ledger : Ledger V V}
    (h : Ongoing graph id log search ledger)
    (explores : Explores graph id (fresh graph (∅ : Std.HashSet V) none) log search)
    (complete : Bool) :
    IsExact graph { components := ledger.components.toList, complete } := by
  obtain ⟨low, done, -, -, assembled⟩ := h
  have hseen : ∀ {u v}, Seen id log u v → graph.Edge u v := by
    rintro _ _ ⟨u, v, hlooked, rfl, rfl⟩
    exact (explores.lookedAt_mem hlooked).1
  refine ⟨assembled.nonempty, assembled.nodup, ?_, ?_, ?_⟩
  · intro c hc u hu v
    obtain ⟨i, hi⟩ := List.getElem?_of_mem hc
    exact assembled.mem_iff_mutual hseen hi hu
  · intro i c hi u hu v hpath
    exact assembled.reach_index (fun {u v} hedge => ⟨v, hedge, fun w _ hw => hw⟩) hi hu hpath
  · intro i c hi
    show ledger.components.toList[i]?.any Component.trivial = true ↔ _
    rw [hi, Option.any_some]
    exact assembled.trivial_iff_acyclic hseen hi

variable {K : Type} [BEq K] [Hashable K] [Render V] {key : V → K}

theorem bookkeeper_immediate {m : Type → Type} [Monad m] [LawfulMonad m] [Journal m]
    [Journal.Quiet m] {κ : Type} : (bookkeeper (m := m) (κ := κ) (graph.under key)).Immediate where
  enter _ _ _ _ := (Immediate.pure _).bind fun _ => .pure _
  revisit source _ _ _ := by
    cases source with
    | none => exact .pure _
    | some source => exact (Immediate.pure _).bind fun _ => (Immediate.pure _).bind fun _ => .pure _
  leave vertex _ search ledger := by
    have hlast : ∀ (k : K) (ledger : Ledger V K), Immediate (m := m) (if ledger.isLeader k then do
        Journal.trace fun _ => s!"{render vertex} completes a component"
        return (Signal.proceed, ledger.complete k)
      else
        return (Signal.proceed, { ledger with followers := k :: ledger.followers })) := by
      intro k ledger
      split
      · exact (Immediate.trace _).bind fun _ => .pure _
      · exact .pure _
    refine (Immediate.pure _).bind fun k => ?_
    cases search.current with
    | none => exact (Immediate.pure _).bind fun ledger => hlast k ledger
    | some parent =>
      exact (Immediate.pure _).bind fun _ => (Immediate.pure _).bind fun ledger => hlast k ledger

/-- With a budget the search of a decomposition returns, whether or not it comes to its end. -/
theorem decompose_within_budget (graph : StateGraph Id V) (key : V → K) (n : Nat) :
    ∃ decomposition rest, ∀ fuel,
      (decompose (n + 1 + fuel) (modifyGet StepBudget.poll : StateT StepBudget (Except Fault) Bool)
        (graph.under key)).run ⟨n⟩ = .ok (decomposition, rest) := by
  obtain ⟨⟨outcome, t⟩, rest, hrun⟩ :=
    (machine (graph.under key) (bookkeeper (graph.under key))).run_within_budget
      (step_immediate bookkeeper_immediate) (fun _ => ⟨(), rfl⟩) n
      { search := fresh graph (∅ : Std.HashSet K) none, state := {} }
  refine ⟨{ components := t.state.components.toList, complete := outcome == .exhausted }, rest, ?_⟩
  intro fuel
  rw [decompose, start_under, pure_bind, StateT.run_bind, hrun]
  rfl

end Search

/-- Whatever the budget is, the components that a decomposition has completed are right for the
whole graph, also if infinitely many vertices can be reached. If it says that it is complete, they
hold all vertices that can be reached. -/
theorem decompose_cut_short [BEq V] [LawfulBEq V] [Hashable V] [LawfulHashable V] [Render V]
    (graph : StateGraph Id V) (n : Nat) :
    ∃ decomposition rest, (∀ fuel, n < fuel →
      (decompose fuel (modifyGet StepBudget.poll : StateT StepBudget (Except Fault) Bool)
        graph.lift.space).run ⟨n⟩ = .ok (decomposition, rest)) ∧
      IsExact graph decomposition ∧ (decomposition.complete = true →
        ∀ v, graph.Reachable v → ∃ c ∈ decomposition.components, v ∈ c.vertices) := by
  obtain ⟨decomposition, rest, hrun⟩ := decompose_within_budget graph id n
  have hreturns : Returns (decompose (n + 1)
      (modifyGet StepBudget.poll : StateT StepBudget (Except Fault) Bool) (graph.under id))
      decomposition := ⟨⟨n⟩, rest, hrun 0⟩
  obtain ⟨log, search, ledger, explores, ongoing, hcomponents, hend⟩ := decompose_returns hreturns
  refine ⟨decomposition, rest, ?_, ?_, ?_⟩
  · intro fuel hfuel
    obtain ⟨more, rfl⟩ := Nat.exists_eq_add_of_le (Nat.succ_le_of_lt hfuel)
    exact hrun more
  · have hexact := ongoing.isExact explores decomposition.complete
    rw [← hcomponents] at hexact
    exact hexact
  · intro hcomplete v hv
    obtain ⟨-, ended⟩ := hend.resolve_right fun h => by simp [hcomplete] at h
    have hfound : v ∈ discoveries log := by
      simpa using explores.key_mem_of_over (HashSet.faithful ∅) HashSet.knows_empty
        StateGraph.uniform_id ended hv
    have hmem := (ongoing.isDecomposition explores ended).perm.mem_iff.2 hfound
    rw [hcomponents]
    exact List.mem_flatMap.1 hmem

/-- The search completes the component of 0 and is cut short on its way through the endless chain
from
1. -/
theorem decompose_cut_short_chain :
    let graph : StateGraph Id Nat :=
      { roots := .finite [0, 1]
        neighbours := fun v => if v = 0 then .finite [] else .finite [v + 1]
        hasCycles := true
        hasSharing := true }
    ∃ decomposition,
      (decompose 5 (modifyGet StepBudget.poll : StateT StepBudget (Except Fault) Bool)
        graph.lift.space).run ⟨4⟩ = .ok (decomposition, ⟨0⟩) ∧
      decomposition.components = [{ vertices := [0], trivial := true }] ∧
      IsExact graph decomposition := by
  intro graph
  have hrun : ∃ decomposition,
      (decompose 5 (modifyGet StepBudget.poll : StateT StepBudget (Except Fault) Bool)
        graph.lift.space).run ⟨4⟩ = .ok (decomposition, ⟨0⟩) ∧
      decomposition.components = [{ vertices := [0], trivial := true }] := by
    rw [decompose, StateGraph.space_lift, start_under, pure_bind]
    simp only [Machine.run, machine, step, fresh, graph]
    simp [offer, hasRoom, Frame.peek, Stack.push, Stack.empty, StateGraph.under, StateGraph.after,
      Store.knows, Store.learn, learn, advance, Stack.modifyTop, Frame.advance,
      push, StateGraph.lift, pop, Stack.pop, bookkeeper, Ledger.discover, Ledger.isLeader,
      Ledger.complete, current, Stack.top?]
    exact ⟨_, rfl, rfl⟩
  obtain ⟨decomposition, hrun, hcomponents⟩ := hrun
  obtain ⟨decomposition', rest, hrun', hexact, -⟩ := decompose_cut_short graph 4
  cases hrun.symm.trans (hrun' 5 (by omega))
  exact ⟨decomposition, hrun, hcomponents, hexact⟩

end StateExplorer.Components
