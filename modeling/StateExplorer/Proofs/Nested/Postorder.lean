import StateExplorer.Check.Nested.Postorder
import StateExplorer.Proofs.Nested.Basic

/-!
# Inner searches on leaving a vertex

The inner search for an accepting vertex `seed` starts at `seed` itself and stops where it enters a
vertex with an edge back to the canonical form of `seed`. The way to that vertex begins with `seed`,
so that the way to the parent of `seed`, the way of the inner search and that edge make up a lasso.
If the inner search does not stop, no vertex that it discovered has such an edge (`FoundNoWayBack`),
and `seed` does not recur.
-/

namespace StateExplorer

open DepthSearch Event

namespace NestedSearch

variable {V K κ : Type} {m : Type → Type} [Monad m] [LawfulMonad m] [MonadExceptOf Fault m]
  [Returning m] [BEq K] [LawfulBEq K]

theorem backEdgeFinder_upholds [Store κ K] (graph : StateGraph Id V) (key : V → K) (known : κ)
    (seed : K) (fuel : Nat) :
    Upholds (m := m) graph key (fresh graph known none) (backEdgeFinder fuel (graph.under key) seed)
      (fun log _ closing => closing = none ∧
        ∀ w ∈ discoveries log, ∀ x ∈ graph.after (some w), key x ≠ seed)
      (fun search closing => ∃ source target, closing = some (source, target) ∧ key target = seed ∧
        target ∈ graph.after (some source) ∧ graph.Walk none (search.path ++ [source])) := by
  refine Upholds.of_enter (fun found closing => closing = none ∧
    ∀ w ∈ found, ∀ x ∈ graph.after (some w), key x ≠ seed) rfl ?_
  intro log search state top rest target signal state' explores inv items offer _ told
  have hpure : (fun v => do return (← (graph.under key).key v) == seed) =
      fun v => (pure (key v == seed) : m Bool) := by
    funext v
    exact pure_bind _ _
  have told := Returning.of_pure_bind told
  rw [hpure] at told
  obtain ⟨back, hback, told⟩ := Returning.of_bind told
  cases back with
  | some back =>
    cases Returning.of_pure told
    obtain ⟨hmem, hseed⟩ := Sequence.mem_of_findM? hback
    refine ⟨target, back, rfl, eq_of_beq hseed, hmem, ?_⟩
    rw [path_learn, path_advance]
    exact explores.grounded.walk_concat items (explores.target_mem items offer)
  | none =>
    cases Returning.of_pure told
    have htarget : ∀ x ∈ graph.after (some target), key x ≠ seed :=
      fun x hx => ne_of_beq_false (Sequence.of_findM?_none hback x hx)
    exact ⟨inv.1, List.forall_mem_append.2 ⟨inv.2, List.forall_mem_singleton.2 htarget⟩⟩

variable [Journal m] [Render V] [Hashable K] {graph : StateGraph Id V} {key : V → K}
  {accepting : V → Bool} {poll : m Bool} {fuel : Nat}

/-- The inner search from `seed` came to its end without an edge back to the canonical form of
`seed`. -/
def FoundNoWayBack (graph : StateGraph Id V) (key : V → K) (seed : V) : Prop :=
  ∃ log search,
    Explores (graph.rootedAt seed) key
      (fresh (graph.rootedAt seed) (Memory.forGraph graph : Memory K) none) log search ∧
    search.stack.items = [] ∧ ∀ w ∈ discoveries log, ∀ x ∈ graph.after (some w), key x ≠ key seed

theorem postorderVisitor_upholds [Store κ K] (known : κ) :
    Upholds graph key (fresh graph known none)
      (postorderVisitor fuel poll (graph.under key) fun v => pure (accepting v))
      (fun log search findings => findings.Clean ∧ ∀ v ∈ discoveries log,
        v ∈ search.path ∨ (accepting v = true → FoundNoWayBack graph key v))
      (fun _ findings => findings.Decided graph key accepting poll) where
  enter := by
    intro log search state top rest target signal state' explores inv items offer new told
    cases Returning.of_pure told
    refine ⟨inv.1, ?_⟩
    intro v hv
    rw [discoveries_entry, List.mem_append, List.mem_singleton] at hv
    rw [path_pushed, path_learn, path_advance, List.mem_append, List.mem_singleton]
    rcases hv with hold | rfl
    · exact (inv.2 v hold).imp Or.inl id
    · exact Or.inl (Or.inr rfl)
  revisit := by
    intro log search state top rest target signal state' explores inv items offer old told
    cases Returning.of_pure told
    refine ⟨inv.1, ?_⟩
    rw [discoveries_known, path_advance]
    exact inv.2
  leave := by
    intro log search state top rest vertex signal state' explores inv items offer hv told
    have hpath : search.path = search.pop.path ++ [vertex] := by
      rw [path_of_items items, hv, Option.toList_some]
    have hkept : (accepting vertex = true → FoundNoWayBack graph key vertex) →
        ∀ v ∈ discoveries (log ++ [.exit vertex top]),
          v ∈ search.pop.path ∨ (accepting v = true → FoundNoWayBack graph key v) := by
      intro hvertex v hv
      rw [discoveries_exit] at hv
      rcases inv.2 v hv with hon | hdone
      · rw [hpath, List.mem_append, List.mem_singleton] at hon
        rcases hon with hon | rfl
        · exact Or.inl hon
        · exact Or.inr hvertex
      · exact Or.inr hdone
    have told := Returning.of_pure_bind told
    split at told
    · next hacc =>
      have told := Returning.of_pure_bind (Returning.of_seq told)
      obtain ⟨outcome, t, told, hend⟩ :=
        (backEdgeFinder_upholds (graph.rootedAt vertex) key (Memory.forGraph graph : Memory K)
          (key vertex) fuel).start_run ⟨rfl, fun w hw => by cases hw⟩ told
      match outcome with
      | .cancelled =>
        cases Returning.of_pure told
        exact Or.inl ⟨rfl, hend.1⟩
      | .aborted =>
        obtain ⟨source, target, hclosing, hkey, hback, hwalk⟩ := hend
        simp only [hclosing] at told
        cases Returning.of_pure (Returning.of_seq told)
        refine Or.inr ⟨inv.1.2, _, _, rfl, isLasso_of_back hacc ?_ hwalk hback hkey⟩
        rw [← hpath]
        exact explores.grounded.walk
      | .exhausted =>
        obtain ⟨hover, log', hexplores, -, hfound⟩ := hend
        cases Returning.of_pure told
        exact ⟨inv.1, hkept fun _ => ⟨log', t.search, hexplores, hover, hfound⟩⟩
    · next hacc =>
      cases Returning.of_pure told
      exact ⟨inv.1, hkept fun h => absurd h hacc⟩
  finish := by
    intro log search state top rest explores inv items offer hv
    have hpath := path_of_items items
    rw [hv, Option.toList_none, List.append_nil] at hpath
    exact ⟨inv.1, hpath ▸ inv.2⟩

omit [Render V] in
theorem FoundNoWayBack.not_recurs [LawfulHashable K] {seed : V} (h : FoundNoWayBack graph key seed)
    (remembers : graph.hasCycles = true ∨ graph.hasSharing = true) (uniform : graph.Uniform key)
    (hseed : graph.Reachable seed) : ¬ graph.Recurs key seed := by
  obtain ⟨log, search, explores, ended, hvain⟩ := h
  rintro ⟨w, hw, hkey⟩
  -- the last edge of the path leaves a vertex whose canonical form was discovered
  obtain ⟨x, hx, hxw⟩ := Relation.TransGen.tail'_iff.1 hw
  have hfound := explores.key_mem_of_over (Memory.faithful_forGraph remembers) Memory.knows_forGraph
    (uniform.rootedAt hseed) ended (StateGraph.reachable_rootedAt.2 hx)
  obtain ⟨d, hd, hdx⟩ := List.mem_map.1 hfound
  obtain ⟨y, hy, hyw⟩ :=
    uniform (hseed.trans hx) (hseed.of_rootedAt (explores.reachable hd)) hdx.symm hxw
  exact hvain d hd y hy (hyw.trans hkey)

/-- The check answers with a lasso, or, if its searches remember, no accepting vertex recurs. -/
theorem postorder_verdict [LawfulHashable K] {answer : Answer V}
    (h : Returns (postorder fuel poll (graph.under key) fun v => pure (accepting v)) answer) :
    Verdict graph key accepting poll
      (graph.hasCycles = true ∨ graph.hasSharing = true → graph.Compatible key accepting →
        ∀ v, accepting v = true → graph.Reachable v → ¬ graph.Recurs key v) answer := by
  obtain ⟨outcome, t, hanswer, hend⟩ :=
    (postorderVisitor_upholds (Memory.forGraph graph : Memory K)).start_run
      ⟨⟨rfl, rfl⟩, fun v hv => by cases hv⟩ h
  rw [Returning.of_pure (Returning.of_seq hanswer)]
  refine verdict_of_outcome (hend.imp ?_ id ?_)
  · rintro ⟨hover, log, hexplores, hclean, hvain⟩
    refine ⟨hclean, fun remembers compatible v => ?_⟩
    refine vain_of_over hexplores hover remembers compatible ?_
    intro d hd haccepting
    rcases hvain d hd with hon | hdone
    · -- nothing is left on the stack
      rw [path, hover] at hon
      cases hon
    · exact (hdone haccepting).not_recurs remembers compatible.uniform (hexplores.reachable hd)
  · rintro ⟨hpoll, log, -, hclean, -⟩
    exact ⟨hpoll, hclean⟩

end NestedSearch

end StateExplorer
