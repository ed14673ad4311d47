import StateExplorer.Check.Reachability
import StateExplorer.Graph.Examples
import StateExplorer.Proofs.Components.Assembly
import StateExplorer.Proofs.Termination

/-!
# Strongly connected components

The vertices that the search discovers, one for each canonical form, are the vertices of the
explored graph (`IsExplored`), and `Linked` are its edges. On a graph with finitely many canonical
forms the search comes to its end, and then the completed components are the strongly connected
components of the explored graph, in the reverse of a topological order (`IsDecomposition`).
-/

namespace StateExplorer.Components

open Relation DepthSearch Event

variable {V K : Type} {graph : StateGraph Id V} {key : V → K} {found : List V}

/-! ## The explored graph -/

/-- The vertices `found` stand for all canonical forms that a search comes across: one for each
form, with a form for each root and for each neighbour of one of them. -/
structure IsExplored (graph : StateGraph Id V) (key : V → K) (found : List V) : Prop where
  nodup : (found.map key).Nodup
  reachable : ∀ v ∈ found, graph.Reachable v
  roots : ∀ x ∈ graph.after none, key x ∈ found.map key
  closed : ∀ u ∈ found, ∀ x ∈ graph.after (some u), key x ∈ found.map key

/-- An edge of the explored graph: some neighbour of `u` has the canonical form of `v`. -/
def Linked (graph : StateGraph Id V) (key : V → K) (found : List V) (u v : V) : Prop :=
  u ∈ found ∧ v ∈ found ∧ ∃ x ∈ graph.after (some u), key x = key v

namespace IsExplored

theorem eq_of_key_eq (h : IsExplored graph key found) {u v : V} (hu : u ∈ found) (hv : v ∈ found)
    (heq : key u = key v) : u = v :=
  List.inj_on_of_nodup_map h.nodup hu hv heq

/-- If distinct vertices have distinct forms, all reachable vertices are discovered. -/
theorem mem_iff (h : IsExplored graph key found) (injective : Function.Injective key) (v : V) :
    v ∈ found ↔ graph.Reachable v := by
  refine ⟨h.reachable v, ?_⟩
  rintro ⟨root, hroot, hpath⟩
  induction hpath with
  | refl => exact (List.mem_map_of_injective injective).1 (h.roots root hroot)
  | tail _ hedge ih => exact (List.mem_map_of_injective injective).1 (h.closed _ ih _ hedge)

/-- If distinct vertices have distinct forms, the explored graph is the reachable part. -/
theorem linked_iff (h : IsExplored graph key found) (injective : Function.Injective key) (u v : V) :
    Linked graph key found u v ↔ graph.Reachable u ∧ graph.Edge u v := by
  constructor
  · rintro ⟨hu, _, x, hx, hkey⟩
    exact ⟨h.reachable u hu, injective hkey ▸ hx⟩
  · rintro ⟨hu, hedge⟩
    have hv : graph.Reachable v := hu.edge hedge
    exact ⟨(h.mem_iff injective u).2 hu, (h.mem_iff injective v).2 hv, v, hedge, rfl⟩

/-- A path along edges that the search has looked at is one of the explored graph. -/
theorem reach_of_seen (h : IsExplored graph key found) {seen : K → K → Prop}
    (hseen : ∀ {u k}, u ∈ found → seen (key u) k → ∃ x ∈ graph.after (some u), key x = k) {u v : V}
    (hu : u ∈ found) (hv : v ∈ found) (hpath : ReflTransGen seen (key u) (key v)) :
    ReflTransGen (Linked graph key found) u v := by
  have hend : ∀ {k}, ReflTransGen seen (key u) k →
      ∃ w ∈ found, key w = k ∧ ReflTransGen (Linked graph key found) u w := by
    intro k hk
    induction hk with
    | refl => exact ⟨u, hu, rfl, .refl⟩
    | tail _ hedge ih =>
      obtain ⟨w, hw, rfl, hreach⟩ := ih
      obtain ⟨x, hx, rfl⟩ := hseen hw hedge
      obtain ⟨y, hy, hyx⟩ := List.mem_map.1 (h.closed w hw x hx)
      exact ⟨y, hy, hyx, hreach.tail ⟨hw, hy, x, hx, hyx.symm⟩⟩
  obtain ⟨w, hw, hkey, hreach⟩ := hend hpath
  rwa [h.eq_of_key_eq hw hv hkey] at hreach

end IsExplored

/-- The components are the strongly connected components of the explored graph, and a component
comes after all others that it can reach. -/
structure IsDecomposition (graph : StateGraph Id V) (key : V → K) (found : List V)
    (decomposition : Decomposition V) : Prop where
  complete : decomposition.complete = true
  nonempty : ∀ c ∈ decomposition.components, c.vertices ≠ []
  perm : (decomposition.components.flatMap Component.vertices).Perm found
  same_iff : ∀ u ∈ found, ∀ v ∈ found,
    (∃ c ∈ decomposition.components, u ∈ c.vertices ∧ v ∈ c.vertices) ↔
      ReflTransGen (Linked graph key found) u v ∧ ReflTransGen (Linked graph key found) v u
  earlier : ∀ {i j : Nat} {c c' : Component V}, decomposition.components[i]? = some c →
    decomposition.components[j]? = some c' → i ≠ j →
    (∃ u ∈ c.vertices, ∃ v ∈ c'.vertices, ReflTransGen (Linked graph key found) u v) → j < i
  sublist : ∀ c ∈ decomposition.components, c.vertices.Sublist found
  isTrivial_iff : ∀ {i : Nat} {c : Component V}, decomposition.components[i]? = some c →
    (decomposition.isTrivial i = true ↔ ∃ v, c.vertices = [v] ∧ ¬ Linked graph key found v v)

namespace Assembled

variable {seen : K → K → Prop} {components : List (Component V)} {done : List K} {u v : V}
  {i j : Nat} {c c' : Component V}

theorem mem_of_getElem? (h : Assembled graph key found seen components done)
    (hi : components[i]? = some c) (hu : u ∈ c.vertices) : u ∈ found :=
  (h.sublist c (List.mem_of_getElem? hi)).subset hu

/-- No vertex lies in two components. -/
theorem index_unique (h : Assembled graph key found seen components done)
    (hi : components[i]? = some c) (hj : components[j]? = some c') (hu : u ∈ c.vertices)
    (hu' : u ∈ c'.vertices) : i = j := by
  obtain ⟨hilt, rfl⟩ := List.getElem?_eq_some_iff.1 hi
  obtain ⟨hjlt, rfl⟩ := List.getElem?_eq_some_iff.1 hj
  have hpairwise := List.pairwise_iff_getElem.1 (List.nodup_flatMap.1 h.nodup).2
  rcases Nat.lt_trichotomy i j with hlt | heq | hlt
  · exact absurd hu' (hpairwise i j hilt hjlt hlt hu)
  · exact heq
  · exact absurd hu (hpairwise j i hjlt hilt hlt hu')

/-- From a component one only gets to components that were completed no later. This holds for every
relation whose pairs stand for edges of the graph, up to the forms of discovered vertices. -/
theorem reach_index {R : V → V → Prop} (h : Assembled graph key found seen components done)
    (hR : ∀ {u v}, R u v → ∃ x ∈ graph.after (some u), ∀ w ∈ found, key w = key x → w = v)
    (hi : components[i]? = some c) (hu : u ∈ c.vertices) (hpath : ReflTransGen R u v) :
    ∃ (j : Nat) (c' : Component V), j ≤ i ∧ components[j]? = some c' ∧ v ∈ c'.vertices := by
  induction hpath with
  | refl => exact ⟨i, c, Nat.le_refl i, hi, hu⟩
  | tail _ hedge ih =>
    obtain ⟨j, c', hj, hget, hmem⟩ := ih
    obtain ⟨x, hx, hunique⟩ := hR hedge
    obtain ⟨k, c'', hk, hget', w, hw, hkey⟩ := h.closed hget _ hmem x hx
    exact ⟨k, c'', Nat.le_trans hk hj, hget', hunique w (h.mem_of_getElem? hget' hw) hkey ▸ hw⟩

/-- Vertices that reach each other lie in the same component. -/
theorem mem_of_mutual {R : V → V → Prop} (h : Assembled graph key found seen components done)
    (hR : ∀ {u v}, R u v → ∃ x ∈ graph.after (some u), ∀ w ∈ found, key w = key x → w = v)
    (hi : components[i]? = some c) (hu : u ∈ c.vertices) (huv : ReflTransGen R u v)
    (hvu : ReflTransGen R v u) : v ∈ c.vertices := by
  -- from the component of `u` to that of `v` and back the index never grows
  obtain ⟨j, c', hj, hget, hv⟩ := h.reach_index hR hi hu huv
  obtain ⟨k, c'', hk, hget', hu'⟩ := h.reach_index hR hget hv hvu
  have hik : i = k := h.index_unique hi hget' hu hu'
  have hij : i = j := by omega
  rw [← hij, hi] at hget
  exact Option.some.inj hget ▸ hv

/-- Once all discovered vertices lie in completed components, these are the strongly connected
components of the explored graph. -/
theorem isDecomposition (h : Assembled graph key found seen components done)
    (explored : IsExplored graph key found) (hdone : ∀ v ∈ found, key v ∈ done)
    (hseen : ∀ {u k}, u ∈ found → seen (key u) k → ∃ x ∈ graph.after (some u), key x = k) :
    IsDecomposition graph key found { components, complete := true } := by
  have hmem : ∀ {v}, v ∈ found → ∃ (i : Nat) (c : Component V), components[i]? = some c ∧
      v ∈ c.vertices := by
    intro v hv
    obtain ⟨c, hc, hvc⟩ := List.mem_flatMap.1 ((h.done_iff v hv).1 (hdone v hv))
    obtain ⟨i, hi⟩ := List.getElem?_of_mem hc
    exact ⟨i, c, hi, hvc⟩
  have hlinked : ∀ {u v}, Linked graph key found u v →
      ∃ x ∈ graph.after (some u), ∀ w ∈ found, key w = key x → w = v := by
    rintro u v ⟨-, hv, x, hx, hkey⟩
    exact ⟨x, hx, fun w hw hwx => explored.eq_of_key_eq hw hv (hwx.trans hkey)⟩
  refine ⟨rfl, h.nonempty, ?_, ?_, ?_, h.sublist, ?_⟩
  · rw [List.perm_ext_iff_of_nodup h.nodup explored.nodup.of_map]
    exact fun v => ⟨h.mem_found, fun hv => (h.done_iff v hv).1 (hdone v hv)⟩
  · intro u hu v hv
    constructor
    · rintro ⟨c, hc, huc, hvc⟩
      exact ⟨explored.reach_of_seen hseen hu hv (h.strong c hc u huc v hvc),
        explored.reach_of_seen hseen hv hu (h.strong c hc v hvc u huc)⟩
    · rintro ⟨huv, hvu⟩
      obtain ⟨i, c, hi, huc⟩ := hmem hu
      exact ⟨c, List.mem_of_getElem? hi, huc, h.mem_of_mutual hlinked hi huc huv hvu⟩
  · rintro i j c c' hi hj hne ⟨u, hu, v, hv, hpath⟩
    obtain ⟨k, c'', hk, hget, hvc⟩ := h.reach_index hlinked hi hu hpath
    have hjk : j = k := h.index_unique hj hget hv hvc
    exact Nat.lt_of_le_of_ne (hjk ▸ hk) hne.symm
  · intro i c hi
    show components[i]?.any Component.trivial = true ↔ _
    rw [hi, Option.any_some, h.trivial_iff c (List.mem_of_getElem? hi)]
    refine exists_congr fun v => and_congr_right fun hv => not_congr ?_
    have hfound : v ∈ found := h.mem_of_getElem? hi (hv ▸ List.mem_singleton_self v)
    exact ⟨fun hedge => ⟨hfound, hfound, hedge⟩, fun hlink => hlink.2.2⟩

end Assembled

/-! ## The search -/

section Search

variable [BEq K] [LawfulBEq K] [Hashable K] [LawfulHashable K] {log : List (Event V)}
  {search : DepthSearch V (Std.HashSet K)}

theorem isExplored_of_ended
    (explores : Explores graph key (fresh graph (∅ : Std.HashSet K) none) log search)
    (ended : search.stack.items = []) : IsExplored graph key (discoveries log) := by
  have hclosed : ∀ {source target}, Opened log source → target ∈ graph.after source →
      key target ∈ (discoveries log).map key :=
    fun hopen hmem =>
      explores.closed_of_blank (HashSet.faithful ∅) HashSet.knows_empty ended hopen hmem
  refine ⟨(explores.nodup_discoveries (HashSet.faithful ∅)).1,
    fun v hv => explores.reachable hv, ?_, ?_⟩
  · intro x hx
    have hopen : Opened log none := trivial
    exact hclosed hopen hx
  · intro u hu x hx
    have hopen : Opened log (some u) := hu
    exact hclosed hopen hx

/-- When the search is over, no vertex waits any more for its leader. -/
theorem Ongoing.isDecomposition {ledger : Ledger V K} (h : Ongoing graph key log search ledger)
    (explores : Explores graph key (fresh graph (∅ : Std.HashSet K) none) log search)
    (ended : search.stack.items = []) :
    IsDecomposition graph key (discoveries log)
      { components := ledger.components.toList, complete := true } := by
  obtain ⟨low, done, chart, -, assembled⟩ := h
  have hpath : search.path = [] := by simp [path, ended]
  rw [hpath, List.map_nil] at chart
  refine assembled.isDecomposition (isExplored_of_ended explores ended) ?_ ?_
  · intro v hv
    by_contra hactive
    rcases chart.mem_stack_or_followers (List.mem_map_of_mem hv) hactive with hstack | hwaits
    · cases hstack
    · obtain ⟨below, p, above, hstack, -⟩ := chart.covered _ hwaits
      exact absurd hstack (by simp)
  · intro u k hu hedge
    exact (seen_iff_of_left explores hu (by simp [hpath])).1 hedge

end Search

section Runs

variable [BEq K] [LawfulBEq K] [Hashable K] [LawfulHashable K] [Render V]

section Returns

variable {m : Type → Type} [Monad m] [LawfulMonad m] [MonadExceptOf Fault m] [Returning m]
  [Journal m] {fuel : Nat} {poll : m Bool}

omit [LawfulMonad m] [BEq K] [LawfulBEq K] [Hashable K] [LawfulHashable K] [Journal m] [Render V] in
/-- The collector holds what has been discovered. -/
theorem collector_upholds {κ : Type} [Store κ K] {first : DepthSearch V κ} :
    Upholds (m := m) graph key first Reached.collector
      (fun log _ vertices => vertices.toList = discoveries log) (fun _ _ => False) := by
  refine Upholds.of_enter (fun found (vertices : Array V) => vertices.toList = found) rfl ?_
  intro log search vertices top rest target signal vertices' explores inv items offer _ told
  cases Returning.of_pure told
  show (vertices.push target).toList = _
  rw [Array.toList_push, inv]

/-- The vertices that the search of a decomposition discovers, in the order of their discovery. -/
def discovered (fuel : Nat) (poll : m Bool) (space : StateSpace m V K) : m (List V) := do
  let search ← DepthSearch.start space (∅ : Std.HashSet K) none
  let (_, t) ← (DepthSearch.machine space Reached.collector).run poll fuel { search, state := #[] }
  return t.state.toList

omit [LawfulBEq K] [LawfulHashable K] in
theorem discovered_returns (h : Returns (discovered fuel poll (graph.under key)) found)
    (hpoll : ¬ Returns poll true) :
    ∃ log search, Explores graph key (fresh graph (∅ : Std.HashSet K) none) log search ∧
      search.stack.items = [] ∧ found = discoveries log := by
  obtain ⟨outcome, t, hfound, hend⟩ := collector_upholds.start_run rfl h
  rw [Returning.of_pure hfound]
  match outcome with
  | .exhausted =>
    obtain ⟨ended, log, explores, inv⟩ := hend
    exact ⟨log, t.search, explores, ended, inv⟩
  | .aborted => exact hend.elim
  | .cancelled => exact absurd hend.1 hpoll

/-- What a decomposition holds, whether or not a poll stopped it. -/
theorem decompose_returns {decomposition : Decomposition V}
    (h : Returns (decompose fuel poll (graph.under key)) decomposition) :
    ∃ log search ledger, Explores graph key (fresh graph (∅ : Std.HashSet K) none) log search ∧
      Ongoing graph key log search ledger ∧ decomposition.components = ledger.components.toList ∧
      (decomposition.complete = true ∧ search.stack.items = [] ∨
        decomposition.complete = false ∧ Returns poll true) := by
  obtain ⟨outcome, t, hdecomposition, hend⟩ := bookkeeper_upholds.start_run .start h
  rw [Returning.of_pure (Returning.of_seq hdecomposition)]
  match outcome with
  | .exhausted =>
    obtain ⟨ended, log, explores, inv⟩ := hend
    exact ⟨log, t.search, t.state, explores, inv, rfl, Or.inl ⟨rfl, ended⟩⟩
  | .aborted => exact hend.elim
  | .cancelled =>
    obtain ⟨hpoll, log, explores, inv⟩ := hend
    exact ⟨log, t.search, t.state, explores, inv, rfl, Or.inr ⟨rfl, hpoll⟩⟩

end Returns

omit [BEq K] [LawfulBEq K] [Hashable K] [LawfulHashable K] [Render V] in
theorem collector_responds {κ : Type} [Store κ K] {first : DepthSearch V κ} :
    Responds graph key first fun _ => Reached.collector where
  enter _ _ _ _ := Converges.pure _
  revisit _ _ _ _ := Converges.pure _
  leave _ _ _ _ := Converges.pure _

omit [LawfulBEq K] [LawfulHashable K] in
theorem bookkeeper_responds {first : DepthSearch V (Std.HashSet K)} :
    Responds graph key first fun _ => bookkeeper (graph.under key) where
  enter _ _ _ _ := Converges.pure _
  revisit := by
    intro log search top rest target ledger explores items offer
    cases top.vertex with
    | none => exact Converges.pure _
    | some source => exact Converges.pure _
  leave := by
    intro log search top rest vertex ledger explores items hv
    apply Converges.pure_bind
    cases search.pop.current with
    | none =>
      apply Converges.pure_bind
      beta_reduce
      split
      · exact Converges.pure _
      · exact Converges.pure _
    | some parent =>
      apply Converges.pure_bind
      apply Converges.pure_bind
      beta_reduce
      split
      · exact Converges.pure _
      · exact Converges.pure _

theorem discovered_converges (finitary : graph.Finitary)
    (finite : (Set.image key {v | graph.Reachable v}).Finite) :
    Converges fun fuel => discovered fuel (pure false) (graph.under key) := by
  apply Converges.pure_bind
  apply Converges.bind (collector_responds.converges
    (terminates_of_finite finitary finite (HashSet.faithful ∅)) #[])
  exact fun _ => Converges.pure _

theorem decompose_converges (finitary : graph.Finitary)
    (finite : (Set.image key {v | graph.Reachable v}).Finite) :
    Converges fun fuel => decompose fuel (pure false) (graph.under key) := by
  apply Converges.pure_bind
  apply Converges.bind (bookkeeper_responds.converges
    (terminates_of_finite finitary finite (HashSet.faithful ∅)) {})
  exact fun _ => Converges.pure _

/-- On a graph with finitely many canonical forms the search of a decomposition comes to its end,
and what it finds are the strongly connected components of the explored graph. If distinct vertices
have distinct forms, the explored graph is the reachable part of the graph. -/
theorem decompose_finds_components (graph : StateGraph Id V) (key : V → K)
    (finitary : graph.Finitary) (finite : (Set.image key {v | graph.Reachable v}).Finite) :
    ∃ found decomposition,
      Settles (fun fuel => discovered fuel (pure false) (graph.under key)) found ∧
      Settles (fun fuel => decompose fuel (pure false) (graph.under key)) decomposition ∧
      IsExplored graph key found ∧ IsDecomposition graph key found decomposition ∧
      (Function.Injective key → (∀ v, v ∈ found ↔ graph.Reachable v) ∧
        ∀ u v, Linked graph key found u v ↔ graph.Reachable u ∧ graph.Edge u v) := by
  obtain ⟨found, hfound⟩ := discovered_converges finitary finite
  obtain ⟨decomposition, hdecomposition⟩ := decompose_converges finitary finite
  obtain ⟨fuel, hreturns⟩ := hfound.returns
  obtain ⟨fuel', hreturns'⟩ := hdecomposition.returns
  obtain ⟨log, search, explores, ended, rfl⟩ := discovered_returns hreturns not_returns_pure_false
  obtain ⟨log', search', ledger, explores', ongoing, hcomponents, hcomplete⟩ :=
    decompose_returns hreturns'
  obtain ⟨hcomplete, ended'⟩ := hcomplete.resolve_right fun h => not_returns_pure_false h.2
  have explored := isExplored_of_ended explores ended
  have hresult := ongoing.isDecomposition explores' ended'
  -- both searches discover the same
  rw [explores.log_eq_of_ended explores' ended ended', ← hcomponents, ← hcomplete] at hresult
  exact ⟨_, decomposition, hfound, hdecomposition, explored, hresult,
    fun injective => ⟨explored.mem_iff injective, explored.linked_iff injective⟩⟩

/-- The vertices 2 and 11 have the same form modulo 3, and so have 3 and 12, and 1 and 10. -/
theorem decompose_finds_components_twoRoots :
    let graph : StateGraph Id Nat := Examples.twoRoots.toStateGraph
    let key : Nat → Nat := (· % 3)
    (graph.Finitary ∧ (Set.image key {v | graph.Reachable v}).Finite) ∧
      ∃ found decomposition,
        Settles (fun fuel => discovered fuel (pure false) (graph.under key)) found ∧
        Settles (fun fuel => decompose fuel (pure false) (graph.under key)) decomposition ∧
        IsExplored graph key found ∧ IsDecomposition graph key found decomposition ∧
        (Function.Injective key → (∀ v, v ∈ found ↔ graph.Reachable v) ∧
          ∀ u v, Linked graph key found u v ↔ graph.Reachable u ∧ graph.Edge u v) :=
  ⟨⟨Examples.twoRoots.finitary, Examples.twoRoots.finite_reachable.image _⟩,
    decompose_finds_components _ _ Examples.twoRoots.finitary
    (Examples.twoRoots.finite_reachable.image _)⟩

end Runs

end StateExplorer.Components
