import StateExplorer.Check.Nested.Preorder
import StateExplorer.Proofs.Nested.Basic

/-!
# Inner searches on entering a vertex

The inner search for an accepting vertex `seed` looks through what lies behind `seed`. It stops
where it enters a vertex with the canonical form of `seed`, and the way to that vertex, put behind
the way to `seed`, is a lasso. If it does not stop, then no vertex that it discovered has that
canonical form (`FoundNoCycle`), and `seed` does not recur.
-/

namespace StateExplorer.NestedSearch

open DepthSearch Event

variable {V K κ : Type} {m : Type → Type} [Monad m] [MonadExceptOf Fault m] [Returning m] [BEq K]
  [LawfulBEq K]

theorem closer_upholds [Store κ K] (graph : StateGraph Id V) (key : V → K) (known : κ) (seed : K) :
    Upholds (m := m) graph key (fresh graph known none) (closer (graph.under key) seed)
      (fun log _ closing => closing = none ∧ ∀ w ∈ discoveries log, key w ≠ seed)
      (fun search closing => ∃ target, closing = some (search.path.getLast?, target) ∧
        key target = seed ∧ graph.Walk none (search.path ++ [target])) := by
  refine Upholds.of_enter (fun found closing => closing = none ∧ ∀ w ∈ found, key w ≠ seed) rfl ?_
  intro log search state top rest target signal state' explores inv items offer _ told
  have told := Returning.of_pure_bind told
  split at told
  · next hseed =>
    cases Returning.of_pure told
    refine ⟨target, ?_, eq_of_beq hseed, ?_⟩
    · rw [path_learn, path_advance, explores.grounded.getLast?_path items]
    · rw [path_learn, path_advance]
      exact explores.grounded.walk_concat items (explores.target_mem items offer)
  · next hseed =>
    cases Returning.of_pure told
    have htarget : key target ≠ seed := fun heq => hseed (beq_iff_eq.2 heq)
    exact ⟨inv.1, List.forall_mem_append.2 ⟨inv.2, List.forall_mem_singleton.2 htarget⟩⟩

variable [LawfulMonad m] [Journal m] [Render V] [Hashable K] {graph : StateGraph Id V} {key : V → K}
  {accepting : V → Bool} {poll : m Bool} {fuel : Nat}

/-- The inner search behind `seed` came to its end without a vertex of its canonical form. -/
def FoundNoCycle (graph : StateGraph Id V) (key : V → K) (seed : V) : Prop :=
  ∃ log search,
    Explores (graph.rootedAfter seed) key
      (fresh (graph.rootedAfter seed) (Memory.forGraph graph : Memory K) none) log search ∧
    search.stack.items = [] ∧ ∀ w ∈ discoveries log, key w ≠ key seed

theorem preorderVisitor_upholds [Store κ K] (known : κ) :
    Upholds graph key (fresh graph known none)
      (preorderVisitor fuel poll (graph.under key) fun v => pure (accepting v))
      (fun log _ findings => findings.Clean ∧
        ∀ v ∈ discoveries log, accepting v = true → FoundNoCycle graph key v)
      (fun _ findings => findings.Decided graph key accepting poll) := by
  refine Upholds.of_enter (fun found (findings : Findings V) => findings.Clean ∧
    ∀ v ∈ found, accepting v = true → FoundNoCycle graph key v) rfl ?_
  intro log search state top rest target signal state' explores inv items offer _ told
  have told := Returning.of_pure_bind told
  split at told
  · next hacc =>
    have told := Returning.of_pure_bind (Returning.of_seq told)
    obtain ⟨outcome, t, told, hend⟩ :=
      (closer_upholds (graph.rootedAfter target) key (Memory.forGraph graph : Memory K)
        (key target)).start_run ⟨rfl, fun w hw => by cases hw⟩ told
    match outcome with
    | .cancelled =>
      cases Returning.of_pure told
      exact Or.inl ⟨rfl, hend.1⟩
    | .aborted =>
      obtain ⟨closing, hclosing, hkey, hwalk⟩ := hend
      simp only [hclosing] at told
      cases Returning.of_pure (Returning.of_seq told)
      refine Or.inr ⟨inv.1.2, _, _, rfl, search.path, target, t.search.path, closing, ?_, ?_,
        hkey.symm, ⟨target, by simp, hacc⟩, rfl⟩
      · rw [path_learn, path_advance]
        simp
      · have houter := explores.grounded.walk_concat items (explores.target_mem items offer)
        rw [path_learn, path_advance, List.append_assoc, StateGraph.walk_append,
          List.getLast?_concat, Option.some_or]
        exact ⟨houter, StateGraph.walk_rootedAfter.1 hwalk⟩
    | .exhausted =>
      obtain ⟨hover, log', hexplores, hclosing, hfound⟩ := hend
      cases Returning.of_pure told
      have htarget : FoundNoCycle graph key target := ⟨log', t.search, hexplores, hover, hfound⟩
      exact ⟨inv.1, List.forall_mem_append.2 ⟨inv.2, List.forall_mem_singleton.2 fun _ => htarget⟩⟩
  · next hacc =>
    cases Returning.of_pure told
    exact ⟨inv.1,
      List.forall_mem_append.2 ⟨inv.2, List.forall_mem_singleton.2 fun h => absurd h hacc⟩⟩

omit [Render V] in
theorem FoundNoCycle.not_recurs [LawfulHashable K] {seed : V} (h : FoundNoCycle graph key seed)
    (remembers : graph.hasCycles = true ∨ graph.hasSharing = true) (uniform : graph.Uniform key)
    (hseed : graph.Reachable seed) : ¬ graph.Recurs key seed := by
  obtain ⟨log, search, explores, ended, hvain⟩ := h
  rintro ⟨w, hw, hkey⟩
  have hfound := explores.key_mem_of_over (Memory.faithful_forGraph remembers) Memory.knows_forGraph
    (uniform.rootedAfter hseed) ended (StateGraph.reachable_rootedAfter.2 hw)
  obtain ⟨d, hd, hdw⟩ := List.mem_map.1 hfound
  exact hvain d hd (hdw.trans hkey)

/-- The check answers with a lasso, or, if its searches remember, no accepting vertex recurs. -/
theorem preorder_verdict [LawfulHashable K] {answer : Answer V}
    (h : Returns (preorder fuel poll (graph.under key) fun v => pure (accepting v)) answer) :
    Verdict graph key accepting poll
      (graph.hasCycles = true ∨ graph.hasSharing = true → graph.Compatible key accepting →
        ∀ v, accepting v = true → graph.Reachable v → ¬ graph.Recurs key v) answer := by
  obtain ⟨outcome, t, hanswer, hend⟩ :=
    (preorderVisitor_upholds (Memory.forGraph graph : Memory K)).start_run
      ⟨⟨rfl, rfl⟩, fun v hv => by cases hv⟩ h
  rw [Returning.of_pure (Returning.of_seq hanswer)]
  refine verdict_of_outcome (hend.imp ?_ id ?_)
  · rintro ⟨hover, log, hexplores, hclean, hvain⟩
    refine ⟨hclean, fun remembers compatible v => ?_⟩
    refine vain_of_over hexplores hover remembers compatible ?_
    intro d hd haccepting
    exact (hvain d hd haccepting).not_recurs remembers compatible.uniform (hexplores.reachable hd)
  · rintro ⟨hpoll, log, -, hclean, -⟩
    exact ⟨hpoll, hclean⟩

end StateExplorer.NestedSearch
