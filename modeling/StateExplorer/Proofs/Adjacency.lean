import Mathlib.Data.Set.Card
import StateExplorer.Proofs.Graph

/-!
# Closures of stored graphs

The vertices of a stored graph that can be reached from one of them are found by rounds, each of
which looks at the neighbours of one waiting vertex. A vertex waits at most once, and all targets of
edges are listed among the vertices of a graph that was built edge by edge (`Built.listed`). So the
number of vertices bounds the number of rounds (`Listed.mem_closure`), and the closure is what can
be reached by a path (`Listed.mem_reachableFrom`).
-/

namespace StateExplorer.Adjacency

open Relation

variable {V : Type} [BEq V] [Hashable V]

/-- Graphs that are built step by step from the graph without vertices. -/
inductive Built : Adjacency V → Prop
  | empty : Built empty
  | addRoot {graph : Adjacency V} (before : Built graph) (root : V) : Built (graph.addRoot root)
  | addEdge {graph : Adjacency V} (before : Built graph) (source target : V) :
      Built (graph.addEdge source target)
  | withHints {graph : Adjacency V} (before : Built graph) (cycles sharing : Bool) :
      Built (graph.withHints cycles sharing)

/-- Something that is added to a stored graph. -/
inductive Addition (V : Type) where
  | root (vertex : V)
  | edge (source target : V)

namespace Addition

/-- The root that is added. -/
def root? : Addition V → Option V
  | root vertex => some vertex
  | edge _ _ => none

/-- The edge that is added. -/
def edge? : Addition V → Option (V × V)
  | root _ => none
  | edge source target => some (source, target)

end Addition

/-- The graph after an addition. -/
def add (graph : Adjacency V) : Addition V → Adjacency V
  | .root vertex => graph.addRoot vertex
  | .edge source target => graph.addEdge source target

/-- The graph after one addition after the other. -/
def addAll (graph : Adjacency V) (additions : List (Addition V)) : Adjacency V :=
  additions.foldl add graph

theorem ofEdges_eq_addAll (roots : List V) (edges : List (V × V)) :
    ofEdges roots edges =
      empty.addAll (roots.map .root ++ edges.map fun edge => .edge edge.1 edge.2) := by
  rw [addAll, List.foldl_append, List.foldl_map, List.foldl_map]
  rfl

theorem Built.addAll {graph : Adjacency V} (h : Built graph) (additions : List (Addition V)) :
    Built (graph.addAll additions) := by
  induction additions generalizing graph with
  | nil => exact h
  | cons addition additions ih =>
    cases addition with
    | root vertex => exact ih (h.addRoot vertex)
    | edge source target => exact ih (h.addEdge source target)

theorem built_ofEdges (roots : List V) (edges : List (V × V)) : Built (ofEdges roots edges) := by
  rw [ofEdges_eq_addAll]
  exact Built.empty.addAll _

/-- All mentioned vertices are listed, be they sources or targets. -/
structure Listed (graph : Adjacency V) : Prop where
  keys : ∀ v, v ∈ graph.edges → v ∈ graph.vertices
  targets : ∀ u v, v ∈ graph.neighbours u → v ∈ graph.vertices

variable [LawfulBEq V] [LawfulHashable V] {graph : Adjacency V} {u v w : V}

section Mention

omit [LawfulBEq V] [LawfulHashable V] in
@[simp] theorem roots_mention : (graph.mention w).roots = graph.roots := by
  unfold mention
  split
  · rfl
  · rfl

theorem neighbours_mention : (graph.mention w).neighbours u = graph.neighbours u := by
  unfold mention
  split
  · rfl
  · next hnew =>
    simp only [neighbours, Std.HashMap.getD_insert]
    by_cases huw : w = u
    · subst huw
      rw [Std.HashMap.getD_eq_fallback_of_contains_eq_false (by simpa using hnew)]
      simp
    · simp [huw]

theorem mem_edges_mention : v ∈ (graph.mention w).edges ↔ v = w ∨ v ∈ graph.edges := by
  unfold mention
  split
  · next hold =>
    have hw : w ∈ graph.edges := by simpa using hold
    constructor
    · exact Or.inr
    · rintro (rfl | hv)
      · exact hw
      · exact hv
  · simp [eq_comm (a := w)]

/-- Mentioning a vertex lists it. -/
theorem Listed.mention (h : Listed graph) (w : V) :
    Listed (graph.mention w) ∧ w ∈ (graph.mention w).vertices ∧
      ∀ v ∈ graph.vertices, v ∈ (graph.mention w).vertices := by
  have hvertices : w ∈ (graph.mention w).vertices ∧
      ∀ v ∈ graph.vertices, v ∈ (graph.mention w).vertices := by
    unfold Adjacency.mention
    split
    · next hold => exact ⟨h.keys w (by simpa using hold), fun v hv => hv⟩
    · exact ⟨by simp, fun v hv => by simp [hv]⟩
  refine ⟨⟨?_, ?_⟩, hvertices⟩
  · intro v hv
    rcases mem_edges_mention.1 hv with rfl | hold
    · exact hvertices.1
    · exact hvertices.2 v (h.keys v hold)
  · intro u v hv
    rw [neighbours_mention] at hv
    exact hvertices.2 v (h.targets u v hv)

end Mention

section Edges

variable {source target : V}

omit [LawfulBEq V] [LawfulHashable V] in
@[simp] theorem roots_addEdge : (graph.addEdge source target).roots = graph.roots := by
  simp [addEdge]

omit [LawfulBEq V] [LawfulHashable V] in
theorem vertices_addEdge :
    (graph.addEdge source target).vertices = ((graph.mention target).mention source).vertices := by
  simp only [addEdge]

theorem neighbours_addEdge_self :
    (graph.addEdge source target).neighbours source = graph.neighbours source ++ [target] := by
  have hmem : source ∈ ((graph.mention target).mention source).edges :=
    mem_edges_mention.2 (Or.inl rfl)
  have hold : ((graph.mention target).mention source).neighbours source =
      graph.neighbours source := by
    rw [neighbours_mention, neighbours_mention]
  rw [← hold]
  obtain ⟨old, hentry⟩ : ∃ old, ((graph.mention target).mention source).edges[source]? = some old :=
    ⟨_, Std.HashMap.getElem?_eq_some_getElem hmem⟩
  simp [addEdge, neighbours, Std.HashMap.getD_eq_getD_getElem?, hentry]

theorem neighbours_addEdge_of_ne (h : source ≠ u) :
    (graph.addEdge source target).neighbours u = graph.neighbours u := by
  have hold : ((graph.mention target).mention source).neighbours u = graph.neighbours u := by
    rw [neighbours_mention, neighbours_mention]
  rw [← hold]
  simp [addEdge, neighbours, Std.HashMap.getD_modify, h]

theorem Listed.addEdge (h : Listed graph) (source target : V) :
    Listed (graph.addEdge source target) := by
  obtain ⟨htarget, htarget_mem, -⟩ := h.mention target
  obtain ⟨hsource, -, hkeep⟩ := htarget.mention source
  refine ⟨?_, ?_⟩
  · intro v hv
    rw [vertices_addEdge]
    exact hsource.keys v (Std.HashMap.mem_modify.1 hv)
  · intro u v hv
    rw [vertices_addEdge]
    have hold : v ∈ graph.neighbours u → v ∈ ((graph.mention target).mention source).vertices := by
      intro hv
      exact hsource.targets u v (by rw [neighbours_mention, neighbours_mention]; exact hv)
    by_cases hu : source = u
    · subst hu
      rw [neighbours_addEdge_self, List.mem_append, List.mem_singleton] at hv
      rcases hv with hv | rfl
      · exact hold hv
      · exact hkeep v htarget_mem
    · rw [neighbours_addEdge_of_ne hu] at hv
      exact hold hv

/-- The edges of a vertex keep the order in which they were added. -/
theorem neighbours_addAll (additions : List (Addition V)) :
    (graph.addAll additions).neighbours u =
      graph.neighbours u ++
        ((additions.filterMap Addition.edge?).filter (·.1 == u)).map Prod.snd := by
  induction additions generalizing graph with
  | nil => simp [addAll]
  | cons addition additions ih =>
    rw [addAll, List.foldl_cons, ← addAll, ih]
    cases addition with
    | root vertex =>
      have hsame : (graph.addRoot vertex).neighbours u = graph.neighbours u := neighbours_mention
      simp [add, Addition.edge?, List.filterMap_cons, hsame]
    | edge source target =>
      by_cases hu : source = u
      · subst hu
        simp [add, Addition.edge?, neighbours_addEdge_self]
      · simp [add, Addition.edge?, neighbours_addEdge_of_ne hu, hu]

omit [LawfulBEq V] [LawfulHashable V] in
theorem roots_addAll (additions : List (Addition V)) :
    (graph.addAll additions).roots.toList =
      graph.roots.toList ++ additions.filterMap Addition.root? := by
  induction additions generalizing graph with
  | nil => simp [addAll]
  | cons addition additions ih =>
    rw [addAll, List.foldl_cons, ← addAll, ih]
    cases addition with
    | root vertex => simp [add, Addition.root?, addRoot]
    | edge source target => simp [add, Addition.root?, List.filterMap_cons]

theorem neighbours_ofEdges (roots : List V) (edges : List (V × V)) :
    (ofEdges roots edges).neighbours u = (edges.filter (·.1 == u)).map Prod.snd := by
  rw [ofEdges_eq_addAll, neighbours_addAll]
  simp [neighbours, Adjacency.empty, List.filterMap_map, Function.comp_def, Addition.edge?]

omit [LawfulBEq V] [LawfulHashable V] in
theorem roots_ofEdges (roots : List V) (edges : List (V × V)) :
    (ofEdges roots edges).roots.toList = roots := by
  rw [ofEdges_eq_addAll, roots_addAll]
  simp [Adjacency.empty, List.filterMap_map, Function.comp_def, Addition.root?]

omit [LawfulBEq V] [LawfulHashable V] in
theorem after_none_ofEdges (roots : List V) (edges : List (V × V)) (cycles sharing : Bool) :
    (((ofEdges roots edges).withHints cycles sharing).toStateGraph : StateGraph Id V).after none =
      .finite roots :=
  congrArg Sequence.finite (roots_ofEdges roots edges)

theorem after_some_ofEdges (roots : List V) (edges : List (V × V)) (cycles sharing : Bool) :
    (((ofEdges roots edges).withHints cycles sharing).toStateGraph : StateGraph Id V).after
      (some u) = .finite ((edges.filter (·.1 == u)).map Prod.snd) :=
  congrArg Sequence.finite (neighbours_ofEdges roots edges)

end Edges

/-- In a graph that was built step by step all mentioned vertices are listed. -/
theorem Built.listed (h : Built graph) : Listed graph := by
  induction h with
  | empty =>
    exact ⟨fun v hv => by simp [Adjacency.empty] at hv,
      fun u v hv => by simp [Adjacency.empty, neighbours] at hv⟩
  | addRoot before root ih => exact ⟨(ih.mention root).1.keys, (ih.mention root).1.targets⟩
  | addEdge before source target ih => exact ih.addEdge source target
  | withHints before cycles sharing ih => exact ⟨ih.keys, ih.targets⟩

/-! ## Rounds -/

section Absorb

variable {seen : Std.HashSet V} {l : List V}

theorem mem_absorb : v ∈ (absorb seen l).1 ↔ v ∈ seen ∨ v ∈ l := by
  induction l generalizing seen with
  | nil => simp [absorb]
  | cons x l ih =>
    rw [absorb]
    split
    · next hold =>
      have hx : x ∈ seen := by simpa using hold
      rw [ih, List.mem_cons]
      constructor
      · exact fun h => h.imp id Or.inr
      · rintro (h | rfl | h)
        · exact Or.inl h
        · exact Or.inl hx
        · exact Or.inr h
    · simp only [ih, Std.HashSet.mem_insert, beq_iff_eq, List.mem_cons, eq_comm (a := x)]
      rw [or_assoc, or_left_comm]

/-- What is fresh was not seen before. -/
theorem mem_fresh (h : v ∈ (absorb seen l).2) : v ∈ l ∧ v ∉ seen := by
  induction l generalizing seen with
  | nil => simp [absorb] at h
  | cons x l ih =>
    rw [absorb] at h
    split at h
    · exact ⟨List.mem_cons_of_mem _ (ih h).1, (ih h).2⟩
    · next hnew =>
      rcases List.mem_cons.1 h with rfl | hrest
      · exact ⟨List.mem_cons_self, by simpa using hnew⟩
      · have hlater := ih hrest
        rw [Std.HashSet.mem_insert, not_or] at hlater
        exact ⟨List.mem_cons_of_mem _ hlater.1, hlater.2.2⟩

theorem mem_seen_or_fresh (h : v ∈ (absorb seen l).1) : v ∈ seen ∨ v ∈ (absorb seen l).2 := by
  induction l generalizing seen with
  | nil => exact Or.inl (by simpa [absorb] using h)
  | cons x l ih =>
    rw [absorb] at h ⊢
    split at h
    · next hold =>
      rw [if_pos hold]
      exact ih h
    · next hnew =>
      rw [if_neg hnew]
      rcases ih h with hseen | hfresh
      · rw [Std.HashSet.mem_insert, beq_iff_eq] at hseen
        rcases hseen with rfl | hseen
        · exact Or.inr List.mem_cons_self
        · exact Or.inl hseen
      · exact Or.inr (List.mem_cons_of_mem _ hfresh)

/-- The listed vertices that have not been seen. -/
def unseen (graph : Adjacency V) (seen : Std.HashSet V) : Set V :=
  {v | v ∈ graph.vertices ∧ v ∉ seen}

omit [LawfulBEq V] [LawfulHashable V] in
theorem finite_unseen : (graph.unseen seen).Finite :=
  (List.finite_toSet graph.vertices.toList).subset fun _ hv => Array.mem_toList_iff.2 hv.1

/-- A listed vertex that is fresh is not unseen any more. -/
theorem ncard_unseen_absorb (seen : Std.HashSet V) (listed : ∀ v ∈ l, v ∈ graph.vertices) :
    (absorb seen l).2.length + (graph.unseen (absorb seen l).1).ncard ≤
      (graph.unseen seen).ncard := by
  induction l generalizing seen with
  | nil => simp [absorb]
  | cons x l ih =>
    have hlisted : ∀ v ∈ l, v ∈ graph.vertices := fun v hv => listed v (List.mem_cons_of_mem _ hv)
    rw [absorb]
    split
    · exact ih seen hlisted
    · next hnew =>
      have hx : x ∈ graph.unseen seen := ⟨listed x List.mem_cons_self, by simpa using hnew⟩
      have hinsert : graph.unseen (seen.insert x) = graph.unseen seen \ {x} := by
        ext v
        simp only [unseen, Std.HashSet.mem_insert, beq_iff_eq, Set.mem_ofPred_eq, Set.mem_sdiff,
          Set.mem_singleton_iff, not_or, eq_comm (a := x)]
        tauto
      have hcard := Set.ncard_sdiff_singleton_add_one hx finite_unseen
      have hrest := ih (seen.insert x) hlisted
      rw [hinsert] at hrest
      simp only [List.length_cons]
      omega

end Absorb

section Closure

variable {seen : Std.HashSet V} {waiting : List V}

omit [LawfulBEq V] [LawfulHashable V] in
/-- A path does not leave a set that contains all neighbours of its members. -/
theorem mem_iff_of_closed (closed : ∀ u ∈ seen, ∀ v ∈ graph.neighbours u, v ∈ seen) :
    v ∈ seen ↔ ∃ u ∈ seen, ReflTransGen (graph.toStateGraph : StateGraph Id V).Edge u v := by
  refine ⟨fun hv => ⟨v, hv, .refl⟩, ?_⟩
  rintro ⟨u, hu, hpath⟩
  induction hpath with
  | refl => exact hu
  | tail _ hedge ih => exact closed _ ih _ hedge

/-- If there are as many rounds as vertices wait or have not been seen, the closure holds all that
can be reached from what has been seen. -/
theorem Listed.mem_closure (listed : Listed graph) {rounds : Nat}
    (enough : waiting.length + (graph.unseen seen).ncard ≤ rounds) (waits : ∀ v ∈ waiting, v ∈ seen)
    (closed : ∀ u ∈ seen, u ∉ waiting → ∀ v ∈ graph.neighbours u, v ∈ seen) :
    v ∈ graph.closure rounds seen waiting ↔
      ∃ u ∈ seen, ReflTransGen (graph.toStateGraph : StateGraph Id V).Edge u v := by
  induction rounds generalizing seen waiting with
  | zero =>
    have hnil : waiting = [] := List.eq_nil_of_length_eq_zero (by omega)
    subst hnil
    exact mem_iff_of_closed fun u hu => closed u hu List.not_mem_nil
  | succ rounds ih =>
    cases waiting with
    | nil => exact mem_iff_of_closed fun u hu => closed u hu List.not_mem_nil
    | cons x rest =>
      have hx : x ∈ seen := waits x List.mem_cons_self
      have hcard := ncard_unseen_absorb seen (listed.targets x)
      have hsame : (∃ u ∈ (absorb seen (graph.neighbours x)).1,
            ReflTransGen (graph.toStateGraph : StateGraph Id V).Edge u v) ↔
          ∃ u ∈ seen, ReflTransGen (graph.toStateGraph : StateGraph Id V).Edge u v := by
        constructor
        · rintro ⟨u, hu, hpath⟩
          rcases mem_absorb.1 hu with hold | hedge
          · exact ⟨u, hold, hpath⟩
          · exact ⟨x, hx, .head hedge hpath⟩
        · rintro ⟨u, hu, hpath⟩
          exact ⟨u, mem_absorb.2 (Or.inl hu), hpath⟩
      rw [closure, ← hsame]
      apply ih
      · simp only [List.length_append, List.length_cons] at enough ⊢
        omega
      · intro w hw
        rcases List.mem_append.1 hw with hrest | hfresh
        · exact mem_absorb.2 (Or.inl (waits w (List.mem_cons_of_mem _ hrest)))
        · exact mem_absorb.2 (Or.inr (mem_fresh hfresh).1)
      · intro u hu hnot w hw
        rw [List.mem_append, not_or] at hnot
        have hold := (mem_seen_or_fresh hu).resolve_right hnot.2
        by_cases hux : u = x
        · exact mem_absorb.2 (Or.inr (hux ▸ hw))
        · have hwaits : u ∉ x :: rest := by simp [hux, hnot.1]
          exact mem_absorb.2 (Or.inl (closed u hold hwaits w hw))

/-- What is reached from a vertex is what lies at the end of a path. -/
theorem Listed.mem_reachableFrom (listed : Listed graph) (origin v : V) :
    v ∈ graph.reachableFrom origin ↔
      ReflTransGen (graph.toStateGraph : StateGraph Id V).Edge origin v := by
  classical
  have hseen : ∀ u, u ∈ Std.HashSet.ofList [origin] ↔ u = origin := by
    intro u
    simp [eq_comm (a := origin)]
  have hcard : (graph.unseen (Std.HashSet.ofList [origin])).ncard ≤ graph.vertices.size := by
    have hsub : graph.unseen (Std.HashSet.ofList [origin]) ⊆ graph.vertices.toList.toFinset := by
      intro u hu
      simpa using hu.1
    refine (Set.ncard_le_ncard hsub (Finset.finite_toSet _)).trans ?_
    rw [Set.ncard_coe_finset]
    exact graph.vertices.toList.toFinset_card_le
  unfold reachableFrom
  rw [listed.mem_closure]
  · simp
  · simp only [List.length_cons, List.length_nil]
    omega
  · simp
  · intro u hu hnot
    rw [hseen] at hu
    exact absurd (List.mem_singleton.2 hu) hnot

end Closure

end StateExplorer.Adjacency
