import StateExplorer.Proofs.Nested.Emptiness

/-!
# Nested searches modulo canonical forms

A check that goes by canonical forms enters one vertex of each form, and its inner searches may
enter other ones. The lasso that it finds ends at a vertex with the form of an earlier one, and need
not close a cycle of the graph; a cycle may also lie among vertices that it never enters.

If vertices of the same form can stand in for each other, the check tells whether an accepting
vertex recurs (`Method.decides_recurrence`). From the vertex at the end of such a path the path can
be followed again, up to canonical forms, and among finitely many vertices that must come back to an
earlier end (`Recurs.exists_onCycle`). So the check answers as the one that tells all vertices
apart.
-/

namespace StateExplorer

open Relation

section Quotient

variable {V K : Type} {graph : StateGraph Id V} {key : V → K} {v : V}

/-- If a path leads from a vertex to its canonical form, a vertex of that form lies on a cycle. -/
theorem StateGraph.Recurs.exists_onCycle (h : graph.Recurs key v) (uniform : graph.Uniform key)
    (finite : {v | graph.Reachable v}.Finite) (hv : graph.Reachable v) :
    ∃ w, graph.Reachable w ∧ key w = key v ∧ graph.OnCycle w := by
  by_contra hnone
  let alike : Set V := {w | graph.Reachable w ∧ key w = key v}
  have acyclic : ∀ w ∈ alike, ¬ graph.OnCycle w := by
    intro w hw hcycle
    exact hnone ⟨w, hw.1, hw.2, hcycle⟩
  have wf := StateGraph.wellFounded_transGen (finite.subset fun w (hw : w ∈ alike) => hw.1) acyclic
  -- from the last of these vertices the path can still be followed once more
  obtain ⟨⟨w, hw, hkey⟩, -, hlast⟩ := wf.has_min Set.univ ⟨⟨v, hv, rfl⟩, trivial⟩
  obtain ⟨x, hwx, hx⟩ := h.of_key_eq uniform hv hw hkey.symm
  exact hlast ⟨x, hw.trans hwx.to_reflTransGen, hx.trans hkey⟩ trivial hwx

theorem StateGraph.Compatible.exists_recurs_iff {accepting : V → Bool}
    (compatible : graph.Compatible key accepting) (finite : {v | graph.Reachable v}.Finite) :
    (∃ v, accepting v = true ∧ graph.Reachable v ∧ graph.Recurs key v) ↔
      ∃ v, accepting v = true ∧ graph.Reachable v ∧ graph.OnCycle v := by
  constructor
  · rintro ⟨v, haccepting, hv, hrecurs⟩
    obtain ⟨w, hw, hkey, hcycle⟩ := hrecurs.exists_onCycle compatible.uniform finite hv
    exact ⟨w, (compatible.stable hw hv hkey).trans haccepting, hw, hcycle⟩
  · rintro ⟨v, haccepting, hv, hcycle⟩
    exact ⟨v, haccepting, hv, v, hcycle, rfl⟩

end Quotient

namespace NestedSearch

variable {V K : Type} [BEq K] [LawfulBEq K] [Hashable K] [LawfulHashable K] [Render V]
  {graph : StateGraph Id V} {key : V → K} {accepting : V → Bool}

/-- Each check ends if there are finitely many canonical forms to learn, and its answer tells
whether an accepting vertex recurs. -/
theorem Method.decides_recurrence (method : Method) (finitary : graph.Finitary)
    (finite : (Set.image key {v | graph.Reachable v}).Finite)
    (remembers : graph.hasCycles = true ∨ graph.hasSharing = true)
    (compatible : graph.Compatible key accepting) :
    ∃ answer,
      Settles (fun fuel => method.check fuel (pure false) (graph.under key) fun v =>
        pure (accepting v))
        answer ∧
      (answer.holds = false ↔ ∃ v, accepting v = true ∧ graph.Reachable v ∧
        graph.Recurs key v) := by
  have exhaustible : Exhaustible graph key := Or.inl ⟨remembers, finite⟩
  cases method with
  | preorder =>
    obtain ⟨answer, hanswer⟩ := preorder_converges accepting finitary exhaustible
    obtain ⟨fuel, hreturns⟩ := hanswer.returns
    exact ⟨answer, hanswer, (preorder_verdict hreturns).holds_iff not_returns_pure_false compatible
      fun h => h remembers compatible⟩
  | postorder =>
    obtain ⟨answer, hanswer⟩ := postorder_converges accepting finitary exhaustible
    obtain ⟨fuel, hreturns⟩ := hanswer.returns
    exact ⟨answer, hanswer, (postorder_verdict hreturns).holds_iff not_returns_pure_false compatible
      fun h => h remembers compatible⟩
  | colored early =>
    obtain ⟨answer, hanswer⟩ := colored_converges accepting early finitary finite
    obtain ⟨fuel, hreturns⟩ := hanswer.returns
    exact ⟨answer, hanswer, (colored_verdict hreturns).holds_iff not_returns_pure_false compatible
      fun h => h compatible⟩

/-- On a graph with finitely many reachable vertices that says that it may have cycles or sharing,
each check ends with the same verdict whether it goes by canonical forms or tells all vertices
apart, as long as reachable vertices of the same form agree on the predicate and have neighbours of
the same forms. The verdict is whether an accepting vertex can be reached that lies on a cycle. -/
theorem reduction_keeps_verdict [BEq V] [LawfulBEq V] [Hashable V] [LawfulHashable V]
    (method : Method) (finitary : graph.Finitary) (finite : {v | graph.Reachable v}.Finite)
    (remembers : graph.hasCycles = true ∨ graph.hasSharing = true)
    (compatible : graph.Compatible key accepting) :
    ∃ plain reduced,
      Settles (fun fuel => method.check fuel (pure false) graph.lift.space fun v =>
        pure (accepting v))
        plain ∧
      Settles (fun fuel => method.check fuel (pure false) (graph.under key) fun v =>
        pure (accepting v))
        reduced ∧
      reduced.holds = plain.holds ∧
      (plain.holds = false ↔ ∃ v, accepting v = true ∧ graph.Reachable v ∧ graph.OnCycle v) := by
  have apart := graph.compatible_id accepting
  obtain ⟨plain, hplain, hcycle⟩ :=
    method.decides_recurrence finitary (finite.image id) remembers apart
  obtain ⟨reduced, hreduced, hrecurs⟩ :=
    method.decides_recurrence finitary (finite.image key) remembers compatible
  rw [apart.exists_recurs_iff finite] at hcycle
  rw [compatible.exists_recurs_iff finite, ← hcycle] at hrecurs
  exact ⟨plain, reduced, hplain, hreduced,
    Bool.eq_iff_iff.2 (by simpa using not_congr hrecurs), hcycle⟩

/-- On the way 0, 1, 2, 3 that goes back from 3 to 2, taken modulo two, the outer search does not
enter the cycle. The vertex 4, which cannot be reached, has the form of 0 but no neighbour of the
form of 1. -/
theorem reduction_keeps_verdict_parity :
    let graph : StateGraph Id Nat :=
      { roots := .finite [0], neighbours := fun n => .finite [if n < 3 then n + 1 else 2],
        hasCycles := true, hasSharing := false }
    (graph.Finitary ∧ {v | graph.Reachable v}.Finite ∧ graph.hasCycles = true ∧
      graph.Compatible (· % 2) (· % 2 == 0)) ∧
    ∃ plain reduced,
      Settles (fun fuel => (Method.colored true).check fuel (pure false) graph.lift.space
        fun v => pure (v % 2 == 0)) plain ∧
      Settles (fun fuel => (Method.colored true).check fuel (pure false) (graph.under (· % 2))
        fun v => pure (v % 2 == 0)) reduced ∧
      reduced.holds = plain.holds ∧
      (plain.holds = false ↔ ∃ v, (v % 2 == 0) = true ∧ graph.Reachable v ∧ graph.OnCycle v) := by
  intro graph
  have finitary : graph.Finitary := by
    intro source
    cases source with
    | none => exact ⟨[0], rfl⟩
    | some n => exact ⟨[if n < 3 then n + 1 else 2], rfl⟩
  have edge : ∀ {u x}, u ≤ 3 → x ∈ graph.after (some u) → x ≤ 3 ∧ (u + x) % 2 = 1 := by
    intro u x hu hx
    have hx : x = if u < 3 then u + 1 else 2 := List.mem_singleton.1 hx
    split at hx <;> omega
  have bounded : ∀ {v}, graph.Reachable v → v ≤ 3 := by
    rintro v ⟨root, hroot, hpath⟩
    induction hpath with
    | refl =>
      have hroot : root = 0 := List.mem_singleton.1 hroot
      omega
    | tail _ hedge ih => exact (edge ih hedge).1
  have compatible : graph.Compatible (· % 2) (· % 2 == 0) := by
    refine ⟨?_, ?_⟩
    · intro u v x hu hv huv hx
      have huv : u % 2 = v % 2 := huv
      obtain ⟨y, hy⟩ : ∃ y, y ∈ graph.after (some v) := ⟨_, List.mem_singleton_self _⟩
      have hux := edge (bounded hu) hx
      have hvy := edge (bounded hv) hy
      have hkey : y % 2 = x % 2 := by omega
      exact ⟨y, hy, hkey⟩
    · intro u v _ _ huv
      exact congrArg (· == 0) huv
  have finite : {v | graph.Reachable v}.Finite := (Set.finite_Iic 3).subset fun v hv => bounded hv
  exact ⟨⟨finitary, finite, rfl, compatible⟩,
    reduction_keeps_verdict (.colored true) finitary finite (Or.inl rfl) compatible⟩

end NestedSearch

end StateExplorer
