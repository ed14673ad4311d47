import StateExplorer.Check.Nested
import StateExplorer.Graph.Examples
import StateExplorer.Proofs.Nested.Colored
import StateExplorer.Proofs.Nested.Postorder
import StateExplorer.Proofs.Nested.Preorder
import StateExplorer.Proofs.Termination
import StateExplorer.StepBudget

/-!
# Nested searches decide emptiness

Each of the three checks comes to its end on a graph with finitely many reachable vertices, and
finds a counterexample if and only if an accepting vertex can be reached that lies on a cycle. The
two checks whose inner searches share nothing need a hint, or a graph without cycles, since without
a hint they remember nothing.

Whatever the canonical forms are and whenever a check is told to stop, an answer that it gives is a
lasso.
-/

namespace StateExplorer.NestedSearch

open DepthSearch Event

variable {V K : Type} [BEq K] [Hashable K] {graph : StateGraph Id V} {key : V → K}
  {accepting : V → Bool}

/-! ## Inner searches end -/

section Remembering

/-- A search of the graph ends with the memory that suits the graph: either it remembers, and there
are finitely many canonical forms to learn, or no reachable vertex lies on a cycle. -/
def Exhaustible (graph : StateGraph Id V) (key : V → K) : Prop :=
  ((graph.hasCycles = true ∨ graph.hasSharing = true) ∧
      (Set.image key {v | graph.Reachable v}).Finite) ∨
    ({v | graph.Reachable v}.Finite ∧ ∀ v, graph.Reachable v → ¬ graph.OnCycle v)

variable [LawfulBEq K] [LawfulHashable K]

theorem Exhaustible.terminates (h : Exhaustible graph key) (finitary : graph.Finitary) :
    Terminates graph key (fresh graph (Memory.forGraph graph : Memory K) none) := by
  rcases h with ⟨remembers, finite⟩ | ⟨finite, acyclic⟩
  · exact terminates_of_finite finitary finite (Memory.faithful_forGraph remembers)
  · exact terminates_of_acyclic finitary finite acyclic

omit [BEq K] [Hashable K] [LawfulBEq K] [LawfulHashable K] in
theorem Exhaustible.rootedAfter (h : Exhaustible graph key) {seed : V}
    (hseed : graph.Reachable seed) :
    Exhaustible (graph.rootedAfter seed) key := by
  rcases h with ⟨remembers, finite⟩ | ⟨finite, acyclic⟩
  · exact Or.inl ⟨remembers, finite.subset (Set.image_mono fun v hv => hseed.of_rootedAfter hv)⟩
  · exact Or.inr ⟨finite.subset fun v hv => hseed.of_rootedAfter hv,
      fun v hv => acyclic v (hseed.of_rootedAfter hv)⟩

omit [BEq K] [Hashable K] [LawfulBEq K] [LawfulHashable K] in
theorem Exhaustible.rootedAt (h : Exhaustible graph key) {seed : V} (hseed : graph.Reachable seed) :
    Exhaustible (graph.rootedAt seed) key := by
  rcases h with ⟨remembers, finite⟩ | ⟨finite, acyclic⟩
  · exact Or.inl ⟨remembers, finite.subset (Set.image_mono fun v hv => hseed.of_rootedAt hv)⟩
  · exact Or.inr ⟨finite.subset fun v hv => hseed.of_rootedAt hv,
      fun v hv => acyclic v (hseed.of_rootedAt hv)⟩

end Remembering

section Inner

variable {κ : Type} [Store κ K] {first : DepthSearch V κ}

omit [Hashable K] in
theorem closer_responds (seed : K) :
    Responds graph key first fun _ => closer (graph.under key) seed where
  enter := by
    intro log search top rest target closing explores items offer
    apply Converges.pure_bind
    split
    · exact Converges.pure _
    · exact Converges.pure _
  revisit _ _ _ _ := Converges.pure _
  leave _ _ _ _ := Converges.pure _

omit [Hashable K] in
theorem backEdgeFinder_responds (finitary : graph.Finitary) (seed : K) :
    Responds graph key first fun fuel => backEdgeFinder fuel (graph.under key) seed where
  enter := by
    intro log search top rest target closing explores items offer
    obtain ⟨neighbours, hneighbours⟩ := finitary (some target)
    apply Converges.pure_bind
    rw [hneighbours]
    apply Converges.bind
    · show Converges fun _ => neighbours.findM? fun v => (pure (key v == seed) : Except Fault Bool)
      rw [List.findM?_pure]
      exact Converges.pure _
    · intro back
      cases back <;> exact Converges.pure _
  revisit _ _ _ _ := Converges.pure _
  leave _ _ _ _ := Converges.pure _

theorem redVisitor_responds {first : DepthSearch V (RedStore K)} (seed : V) :
    Responds graph key first fun _ => redVisitor (graph.under key) seed where
  enter _ _ _ _ := Converges.pure _
  revisit := by
    intro log search top rest target closing explores items offer
    apply Converges.pure_bind
    split
    · exact Converges.pure _
    · exact Converges.pure _
  leave _ _ _ _ := Converges.pure _

end Inner

/-! ## The checks end -/

section Outer

variable [LawfulBEq K] [LawfulHashable K] [Render V]

theorem preorderVisitor_responds {κ : Type} [Store κ K] {known : κ} (finitary : graph.Finitary)
    (exhaustible : Exhaustible graph key) :
    Responds graph key (fresh graph known none) fun fuel =>
      preorderVisitor fuel (pure false) (graph.under key) fun v => pure (accepting v) where
  enter := by
    intro log search top rest target findings explores items offer
    have hreach := explores.target_reachable items (explores.target_mem items offer)
    have hinner := (exhaustible.rootedAfter hreach).terminates (finitary.rootedAfter target)
    apply Converges.pure_bind
    split
    · apply Converges.pure_bind
      apply Converges.pure_bind
      apply Converges.pure_bind
      apply Converges.bind ((closer_responds (key target)).converges hinner none)
      rintro ⟨outcome, inner, closing⟩
      cases outcome <;> cases closing <;> exact Converges.pure _
    · exact Converges.pure _
  revisit _ _ _ _ := Converges.pure _
  leave _ _ _ _ := Converges.pure _

theorem postorderVisitor_responds {κ : Type} [Store κ K] {known : κ} (finitary : graph.Finitary)
    (exhaustible : Exhaustible graph key) :
    Responds graph key (fresh graph known none) fun fuel =>
      postorderVisitor fuel (pure false) (graph.under key) fun v => pure (accepting v) where
  enter _ _ _ _ := Converges.pure _
  revisit _ _ _ _ := Converges.pure _
  leave := by
    intro log search top rest vertex findings explores items hv
    have hreach : graph.Reachable vertex := explores.top_reachable items hv
    have hinner := (exhaustible.rootedAt hreach).terminates (finitary.rootedAt vertex)
    apply Converges.pure_bind
    split
    · apply Converges.pure_bind
      apply Converges.pure_bind
      apply Converges.pure_bind
      apply Converges.bind
        ((backEdgeFinder_responds (finitary.rootedAt vertex) (key vertex)).converges hinner none)
      rintro ⟨outcome, inner, closing⟩
      cases outcome <;> cases closing <;> exact Converges.pure _
    · exact Converges.pure _

theorem blueVisitor_responds {known : Std.HashSet K} {early : Bool} (finitary : graph.Finitary)
    (finite : (Set.image key {v | graph.Reachable v}).Finite) :
    Responds graph key (fresh graph known none) fun fuel =>
      blueVisitor fuel (pure false) (graph.under key) (fun v => pure (accepting v)) early where
  enter := by
    intro log search top rest target blue explores items offer
    cases top.vertex <;> exact Converges.pure _
  revisit := by
    intro log search top rest target blue explores items offer
    cases early with
    | false => exact Converges.pure _
    | true =>
      cases top.vertex with
      | none => exact Converges.pure _
      | some source =>
        apply Converges.pure_bind
        split
        · exact Converges.pure _
        · apply Converges.bind
          · apply Converges.pure_bind
            split
            · exact Converges.pure _
            · exact Converges.pure _
          · intro closes
            cases closes <;> exact Converges.pure _
  leave := by
    intro log search top rest vertex blue explores items hv
    have hreach : graph.Reachable vertex := explores.top_reachable items hv
    have hinner : ∀ store : RedStore K, Terminates (graph.rootedAfter vertex) key
        (fresh (graph.rootedAfter vertex) store none) := by
      intro store
      refine terminates_of_finite (finitary.rootedAfter vertex) ?_ (RedStore.faithful store)
      exact finite.subset (Set.image_mono fun v hv => hreach.of_rootedAfter hv)
    apply Converges.pure_bind
    split
    · apply Converges.pure_bind
      apply Converges.pure_bind
      apply Converges.bind ((redVisitor_responds vertex).converges (hinner _) none)
      rintro ⟨outcome, inner, closing⟩
      cases outcome <;> cases closing <;> exact Converges.pure _
    · exact Converges.pure _

theorem preorder_converges (accepting : V → Bool) (finitary : graph.Finitary)
    (exhaustible : Exhaustible graph key) :
    Converges fun fuel => preorder fuel (pure false) (graph.under key) fun v =>
      pure (accepting v) := by
  apply Converges.pure_bind
  apply Converges.bind
    ((preorderVisitor_responds finitary exhaustible).converges (exhaustible.terminates finitary) {})
  exact fun _ => Converges.pure _

theorem postorder_converges (accepting : V → Bool) (finitary : graph.Finitary)
    (exhaustible : Exhaustible graph key) :
    Converges fun fuel => postorder fuel (pure false) (graph.under key) fun v =>
      pure (accepting v) := by
  apply Converges.pure_bind
  apply Converges.bind
    ((postorderVisitor_responds finitary exhaustible).converges
      (exhaustible.terminates finitary) {})
  exact fun _ => Converges.pure _

theorem colored_converges (accepting : V → Bool) (early : Bool) (finitary : graph.Finitary)
    (finite : (Set.image key {v | graph.Reachable v}).Finite) :
    Converges fun fuel =>
      colored fuel (pure false) (graph.under key) (fun v => pure (accepting v)) early := by
  apply Converges.pure_bind
  apply Converges.bind ((blueVisitor_responds finitary finite).converges
    (terminates_of_finite finitary finite (HashSet.faithful ∅)) {})
  exact fun _ => Converges.pure _

end Outer

/-! ## What the answers mean -/

section Identity

variable {V : Type} [BEq V] [LawfulBEq V] [Hashable V] [LawfulHashable V] [Render V]
  (graph : StateGraph Id V) (accepting : V → Bool)

/-- The check with shared colours ends, and finds a counterexample if and only if an accepting
vertex can be reached that lies on a cycle. -/
theorem colored_decides_emptiness (finitary : graph.Finitary)
    (finite : {v | graph.Reachable v}.Finite) (early : Bool) :
    ∃ answer,
      Settles (fun fuel => colored fuel (pure false) graph.lift.space
        (fun v => pure (accepting v)) early)
        answer ∧
      (answer.holds = false ↔ ∃ v, accepting v = true ∧ graph.Reachable v ∧ graph.OnCycle v) := by
  obtain ⟨answer, hanswer⟩ := colored_converges accepting early finitary (finite.image id)
  refine ⟨answer, hanswer, ?_⟩
  obtain ⟨fuel, hreturns⟩ := hanswer.returns
  have compatible := graph.compatible_id accepting
  rw [(colored_verdict hreturns).holds_iff not_returns_pure_false compatible fun h => h compatible]
  simp only [StateGraph.recurs_id]

theorem colored_decides_emptiness_detour :
    let graph : StateGraph Id Nat := Examples.detour.toStateGraph
    (graph.Finitary ∧ {v | graph.Reachable v}.Finite) ∧
      ∃ answer,
        Settles (fun fuel => colored fuel (pure false) graph.lift.space
          (fun v => pure (v == 5)) true)
          answer ∧
        (answer.holds = false ↔ ∃ v, (v == 5) = true ∧ graph.Reachable v ∧ graph.OnCycle v) :=
  ⟨⟨Examples.detour.finitary, Examples.detour.finite_reachable⟩,
    colored_decides_emptiness _ (· == 5) Examples.detour.finitary
    Examples.detour.finite_reachable true⟩

/-- The checks whose inner searches share nothing end, and find a counterexample if and only if an
accepting vertex can be reached that lies on a cycle, as long as the graph says that it may have
cycles or sharing, or has no cycles. -/
theorem separate_searches_decide_emptiness (finitary : graph.Finitary)
    (finite : {v | graph.Reachable v}.Finite)
    (suited : graph.hasCycles = true ∨ graph.hasSharing = true ∨
      ∀ v, graph.Reachable v → ¬ graph.OnCycle v) :
    (∃ answer,
      Settles (fun fuel => preorder fuel (pure false) graph.lift.space fun v => pure (accepting v))
        answer ∧
      (answer.holds = false ↔ ∃ v, accepting v = true ∧ graph.Reachable v ∧ graph.OnCycle v)) ∧
    ∃ answer,
      Settles (fun fuel => postorder fuel (pure false) graph.lift.space fun v => pure (accepting v))
        answer ∧
      (answer.holds = false ↔ ∃ v, accepting v = true ∧ graph.Reachable v ∧ graph.OnCycle v) := by
  have compatible := graph.compatible_id accepting
  have exhaustible : Exhaustible graph (id : V → V) := by
    rcases suited with hcycles | hsharing | acyclic
    · exact Or.inl ⟨Or.inl hcycles, finite.image id⟩
    · exact Or.inl ⟨Or.inr hsharing, finite.image id⟩
    · exact Or.inr ⟨finite, acyclic⟩
  -- without a hint the searches forget, but then nothing recurs anyway
  have vain : (graph.hasCycles = true ∨ graph.hasSharing = true →
      graph.Compatible id accepting →
        ∀ v, accepting v = true → graph.Reachable v → ¬ graph.Recurs (id : V → V) v) →
      ∀ v, accepting v = true → graph.Reachable v → ¬ graph.Recurs (id : V → V) v := by
    intro h
    rcases suited with hcycles | hsharing | acyclic
    · exact h (Or.inl hcycles) compatible
    · exact h (Or.inr hsharing) compatible
    · intro v _ hreach
      rw [StateGraph.recurs_id]
      exact acyclic v hreach
  refine ⟨?_, ?_⟩
  · obtain ⟨answer, hanswer⟩ := preorder_converges accepting finitary exhaustible
    refine ⟨answer, hanswer, ?_⟩
    obtain ⟨fuel, hreturns⟩ := hanswer.returns
    rw [(preorder_verdict hreturns).holds_iff not_returns_pure_false compatible vain]
    simp only [StateGraph.recurs_id]
  · obtain ⟨answer, hanswer⟩ := postorder_converges accepting finitary exhaustible
    refine ⟨answer, hanswer, ?_⟩
    obtain ⟨fuel, hreturns⟩ := hanswer.returns
    rw [(postorder_verdict hreturns).holds_iff not_returns_pure_false compatible vain]
    simp only [StateGraph.recurs_id]

theorem separate_searches_decide_emptiness_twoRoots :
    let graph : StateGraph Id Nat := (Examples.twoRoots.withHints true false).toStateGraph
    (graph.Finitary ∧ {v | graph.Reachable v}.Finite ∧ graph.hasCycles = true) ∧
      (∃ answer,
        Settles (fun fuel => preorder fuel (pure false) graph.lift.space fun v => pure (v == 3))
          answer ∧
        (answer.holds = false ↔ ∃ v, (v == 3) = true ∧ graph.Reachable v ∧ graph.OnCycle v)) ∧
      ∃ answer,
        Settles (fun fuel => postorder fuel (pure false) graph.lift.space fun v => pure (v == 3))
          answer ∧
        (answer.holds = false ↔ ∃ v, (v == 3) = true ∧ graph.Reachable v ∧ graph.OnCycle v) :=
  ⟨⟨Adjacency.finitary _, Adjacency.finite_reachable _, rfl⟩,
    separate_searches_decide_emptiness _ (· == 3) (Adjacency.finitary _)
    (Adjacency.finite_reachable _) (Or.inl rfl)⟩

end Identity

/-! ## Every counterexample is a lasso -/

section Counterexamples

variable [LawfulBEq K] [LawfulHashable K] [Render V] {σ : Type}
  {poll : StateT σ (Except Fault) Bool}

theorem Method.isLasso_of_violated {method : Method} {fuel : Nat} {witness : Witness V}
    {trace : List V}
    (h : Returns (method.check fuel poll (graph.under key) fun v => pure (accepting v))
      (.violated witness trace)) : IsLasso graph key accepting witness trace := by
  have hlasso : ∀ {exhausted : Prop},
      Verdict graph key accepting poll exhausted (.violated witness trace) →
      IsLasso graph key accepting witness trace := by
    rintro exhausted (⟨witness', trace', hviolated, hlasso⟩ | ⟨hsatisfied, -⟩)
    · cases hviolated
      exact hlasso
    · cases hsatisfied
  cases method with
  | preorder => exact hlasso (preorder_verdict h)
  | postorder => exact hlasso (postorder_verdict h)
  | colored early => exact hlasso (colored_verdict h)

/-- Whatever the canonical forms are and whatever the polls say, a counterexample is a path from a
root with the witness at its end. Its last vertex has the canonical form of an earlier one, with an
accepting vertex from there on. If canonical forms tell all vertices apart, the witness closes an
accepting cycle. The polls may draw on a `StepBudget` in the state, or on anything else. -/
theorem counterexample_is_lasso [BEq V] [LawfulBEq V] (finitary : graph.Finitary) (method : Method)
    (fuel : Nat) (s s' : σ) (witness : Witness V) (trace : List V)
    (h : (method.check fuel poll (graph.under key) fun v => pure (accepting v)).run s =
      .ok (.violated witness trace, s')) :
    (∀ allowance, (Answer.violated witness trace).traceDefect? allowance graph.lift =
      (.ok none : Except Fault _)) ∧
    (∃ stem entry loop last, trace = stem ++ entry :: loop ++ [last] ∧ key entry = key last ∧
      ∃ v ∈ entry :: loop ++ [last], accepting v = true) ∧
    (Function.Injective key →
      ∀ allowance, (Answer.violated witness trace).lassoDefect? allowance graph.lift
        (fun v => pure (accepting v)) = (.ok none : Except Fault _)) := by
  have hlasso : IsLasso graph key accepting witness trace :=
    Method.isLasso_of_violated (returns_stateT.2 ⟨s, s', h⟩)
  refine ⟨fun _ => hlasso.traceDefect?_eq_none finitary, ?_,
    fun injective _ => hlasso.lassoDefect?_eq_none finitary injective⟩
  obtain ⟨stem, entry, loop, last, htrace, -, hkey, haccepting, -⟩ := hlasso
  exact ⟨stem, entry, loop, last, htrace, hkey, haccepting⟩

/-- On the chain of all numbers, taken modulo three, the check finds the way from 1 to 4. -/
theorem counterexample_is_lasso_chain :
    let graph : StateGraph Id Nat :=
      { roots := .finite [0], neighbours := fun n => .finite [n + 1], hasCycles := false,
        hasSharing := false }
    let poll : StateT StepBudget (Except Fault) Bool := modifyGet StepBudget.poll
    (graph.Finitary ∧
      (Method.preorder.check 20 poll (graph.under (· % 3)) fun v => pure (v == 1)).run ⟨9⟩ =
        .ok (.violated (.edge 3 4) [0, 1, 2, 3, 4], ⟨4⟩)) ∧
    (∀ allowance, (Answer.violated (.edge 3 4) [0, 1, 2, 3, 4]).traceDefect? allowance graph.lift =
      (.ok none : Except Fault _)) ∧
    (∃ stem entry loop last, [0, 1, 2, 3, 4] = stem ++ entry :: loop ++ [last] ∧
      entry % 3 = last % 3 ∧ ∃ v ∈ entry :: loop ++ [last], (v == 1) = true) := by
  intro graph poll
  have finitary : graph.Finitary := by
    intro source
    cases source with
    | none => exact ⟨[0], rfl⟩
    | some n => exact ⟨[n + 1], rfl⟩
  have hrun : (Method.preorder.check 20 poll (graph.under (· % 3)) fun v => pure (v == 1)).run ⟨9⟩ =
      .ok (.violated (.edge 3 4) [0, 1, 2, 3, 4], ⟨4⟩) := rfl
  have hlasso := counterexample_is_lasso finitary .preorder 20 _ _ _ _ hrun
  exact ⟨⟨finitary, hrun⟩, hlasso.1, hlasso.2.1⟩

end Counterexamples

end StateExplorer.NestedSearch
