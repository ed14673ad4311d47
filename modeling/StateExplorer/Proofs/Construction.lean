import Mathlib.Algebra.BigOperators.Group.Finset.Basic
import StateExplorer.Proofs.Adjacency
import StateExplorer.Proofs.Agenda

/-!
# What a stored graph keeps of its construction

A graph that is built by one addition after the other keeps them all (`addAll_keeps_additions`): the
roots and the targets of each vertex in the order of the additions, and each vertex once, in the
order of the first mentions. An edge mentions its target before its source. So the list of the
vertices has them in the order in which they are written down, source before target, as long as no
edge brings two vertices at once (`eraseDups_written_iff`).
-/

namespace StateExplorer.Adjacency

variable {V : Type}

namespace Addition

/-- The vertices in the order in which the graph is told of them. -/
def mentioned : Addition V → List V
  | root vertex => [vertex]
  | edge source target => [target, source]

/-- The vertices in the order in which an addition is written down. -/
def written : Addition V → List V
  | root vertex => [vertex]
  | edge source target => [source, target]

/-- An addition after those before it mentions at most one vertex that none of them has
mentioned. -/
def BringsOne (before : List (Addition V)) : Addition V → Prop
  | root _ => True
  | edge source target =>
    source = target ∨ source ∈ before.flatMap mentioned ∨ target ∈ before.flatMap mentioned

theorem written_perm_mentioned (addition : Addition V) :
    addition.written.Perm addition.mentioned := by
  cases addition with
  | root vertex => exact .refl _
  | edge source target => exact .swap _ _ _

theorem mem_flatMap_written {additions : List (Addition V)} {v : V} :
    v ∈ additions.flatMap written ↔ v ∈ additions.flatMap mentioned :=
  (List.Perm.flatMap_left additions fun addition _ => addition.written_perm_mentioned).mem_iff

end Addition

open Addition

variable [BEq V] [Hashable V]

/-- What a stored graph keeps of the additions by which it was built. -/
structure Keeps (graph : Adjacency V) (additions : List (Addition V)) : Prop where
  roots_eq : graph.roots.toList = additions.filterMap root?
  vertices_eq : graph.vertices.toList = (additions.flatMap mentioned).eraseDups
  vertices_nodup : graph.vertices.toList.Nodup
  neighbours_eq : ∀ v,
    graph.neighbours v = ((additions.filterMap edge?).filter (·.1 == v)).map Prod.snd
  neighbours_unmentioned : ∀ v, v ∉ additions.flatMap mentioned → graph.neighbours v = []
  edgeCount_eq : graph.edgeCount = (additions.filterMap edge?).length

variable [LawfulBEq V] [LawfulHashable V] {graph : Adjacency V} {mentions : List V}

/-! ## The order of the vertices -/

/-- The graph has been told of these vertices and no others: it lists each of them once, where it
was mentioned first, and keeps a list of neighbours for it. -/
structure Mentions (graph : Adjacency V) (mentions : List V) : Prop where
  vertices_eq : graph.vertices.toList = mentions.eraseDups
  nodup : graph.vertices.toList.Nodup
  mem_edges : ∀ v, v ∈ graph.edges ↔ v ∈ mentions

omit [LawfulBEq V] [LawfulHashable V] in
theorem mentions_empty : Mentions (empty : Adjacency V) [] where
  vertices_eq := by simp [empty]
  nodup := by simp [empty]
  mem_edges v := by simp [empty]

theorem Mentions.mention (h : Mentions graph mentions) (w : V) :
    Mentions (graph.mention w) (mentions ++ [w]) := by
  have hedges : ∀ v, v ∈ (graph.mention w).edges ↔ v ∈ mentions ++ [w] := by
    intro v
    rw [mem_edges_mention, h.mem_edges, List.mem_append, List.mem_singleton, or_comm]
  by_cases hw : w ∈ mentions
  · have hsame : graph.mention w = graph := by
      rw [Adjacency.mention, if_pos (by simpa using (h.mem_edges w).2 hw)]
    rw [hsame] at hedges ⊢
    refine ⟨?_, h.nodup, hedges⟩
    rw [List.eraseDups_append, h.vertices_eq]
    simp [List.removeAll, hw]
  · have hnew : (graph.mention w).vertices = graph.vertices.push w := by
      rw [Adjacency.mention, if_neg (by simpa using fun hmem => hw ((h.mem_edges w).1 hmem))]
    have hunlisted : w ∉ graph.vertices.toList := by
      rw [h.vertices_eq, List.mem_eraseDups]
      exact hw
    refine ⟨?_, ?_, hedges⟩
    · rw [hnew, Array.toList_push, List.eraseDups_append, h.vertices_eq]
      simp [List.removeAll, hw, List.eraseDups_cons]
    · rw [hnew, Array.toList_push, List.nodup_append]
      refine ⟨h.nodup, List.nodup_singleton w, ?_⟩
      intro v hv v' hv' heq
      rw [List.mem_singleton.1 hv'] at heq
      exact hunlisted (heq ▸ hv)

theorem Mentions.add (h : Mentions graph mentions) (addition : Addition V) :
    Mentions (graph.add addition) (mentions ++ addition.mentioned) := by
  cases addition with
  | root vertex =>
    obtain ⟨hvertices, hnodup, hedges⟩ := h.mention vertex
    exact ⟨hvertices, hnodup, hedges⟩
  | edge source target =>
    obtain ⟨hvertices, hnodup, hedges⟩ := (h.mention target).mention source
    rw [List.append_assoc] at hvertices hedges
    rw [← vertices_addEdge] at hvertices hnodup
    exact ⟨hvertices, hnodup, fun v => Std.HashMap.mem_modify.trans (hedges v)⟩

theorem Mentions.addAll (h : Mentions graph mentions) (additions : List (Addition V)) :
    Mentions (graph.addAll additions) (mentions ++ additions.flatMap mentioned) := by
  induction additions generalizing graph mentions with
  | nil =>
    rw [List.flatMap_nil, List.append_nil]
    exact h
  | cons addition additions ih =>
    rw [List.flatMap_cons, ← List.append_assoc]
    exact ih (h.add addition)

/-! ## The number of edges -/

omit [BEq V] [Hashable V] [LawfulBEq V] [LawfulHashable V] in
theorem mem_mentioned_of_edge {additions : List (Addition V)} {edge : V × V}
    (h : edge ∈ additions.filterMap edge?) : edge.1 ∈ additions.flatMap mentioned := by
  obtain ⟨addition, hmem, hedge⟩ := List.mem_filterMap.1 h
  refine List.mem_flatMap.2 ⟨addition, hmem, ?_⟩
  cases addition with
  | root vertex => cases hedge
  | edge source target =>
    cases hedge
    simp [mentioned]

theorem edgeCount_eq_sum (graph : Adjacency V) :
    graph.edgeCount = (graph.edges.keys.map fun v => (graph.neighbours v).length).sum := by
  rw [edgeCount, Std.HashMap.fold_eq_foldl_toList,
    ← Std.HashMap.map_fst_toList_eq_keys, List.map_map, List.sum_eq_foldl, List.foldl_map]
  refine List.foldl_ext _ _ 0 fun count entry hentry => ?_
  have hread := Std.HashMap.mem_toList_iff_getElem?_eq_some.1 hentry
  simp [neighbours, Std.HashMap.getD_eq_getD_getElem?, hread]

/-- Each edge is counted at its source, which has one list of neighbours. -/
theorem edgeCount_of_neighbours {edges : List (V × V)}
    (kept : ∀ edge ∈ edges, edge.1 ∈ graph.edges)
    (neighbours : ∀ v, graph.neighbours v = (edges.filter (·.1 == v)).map Prod.snd) :
    graph.edgeCount = edges.length := by
  classical
  have hcount : ∀ v, (graph.neighbours v).length = Multiset.count v (edges.map Prod.fst) := by
    intro v
    rw [neighbours, List.length_map, Multiset.coe_count]
    unfold List.count
    rw [List.countP_map, List.countP_eq_length_filter]
    congr 2
    funext edge
    simp
  calc graph.edgeCount
    _ = (graph.edges.keys.map fun v => Multiset.count v (edges.map Prod.fst)).sum := by
      rw [edgeCount_eq_sum]
      simp only [hcount]
    _ = ∑ v ∈ graph.edges.keys.toFinset, Multiset.count v (edges.map Prod.fst) :=
      (List.sum_toFinset _ Std.HashMap.nodup_keys).symm
    _ = Multiset.card (edges.map Prod.fst : Multiset V) := by
      apply Multiset.sum_count_eq_card
      intro v hv
      obtain ⟨edge, hedge, rfl⟩ := List.mem_map.1 (Multiset.mem_coe.1 hv)
      exact List.mem_toFinset.2 (Std.HashMap.mem_keys.2 (kept edge hedge))
    _ = edges.length := by simp

theorem keeps_addAll (additions : List (Addition V)) :
    Keeps ((empty : Adjacency V).addAll additions) additions := by
  have hmentions := mentions_empty.addAll additions
  rw [List.nil_append] at hmentions
  have hneighbours : ∀ v, ((empty : Adjacency V).addAll additions).neighbours v =
      ((additions.filterMap edge?).filter (·.1 == v)).map Prod.snd := by
    intro v
    rw [neighbours_addAll]
    simp [neighbours, empty]
  have hkept : ∀ edge ∈ additions.filterMap edge?,
      edge.1 ∈ ((empty : Adjacency V).addAll additions).edges := by
    intro edge hedge
    rw [hmentions.mem_edges]
    exact mem_mentioned_of_edge hedge
  refine ⟨?_, hmentions.vertices_eq, hmentions.nodup, hneighbours, ?_,
    edgeCount_of_neighbours hkept hneighbours⟩
  · rw [roots_addAll]
    simp [empty]
  · intro v hv
    rw [hneighbours, List.map_eq_nil_iff, List.filter_eq_nil_iff]
    intro edge hedge hsource
    exact hv (eq_of_beq hsource ▸ mem_mentioned_of_edge hedge)

/-! ## Two vertices at once -/

omit [Hashable V] [LawfulHashable V] in
/-- Two vertices are noted in either order alike where one of them is known or they are the same. -/
theorem eraseDups_swap_iff {first second : List V} (hsame : ∀ v, v ∈ second ↔ v ∈ first) (a b : V) :
    (first ++ [b, a]).eraseDups = (second ++ [a, b]).eraseDups ↔
      first.eraseDups = second.eraseDups ∧ (a = b ∨ a ∈ first ∨ b ∈ first) := by
  rw [List.eraseDups_append, List.eraseDups_append]
  by_cases ha : a ∈ first
  · by_cases hb : b ∈ first
    · simp [List.removeAll, hsame, ha, hb]
    · simp [List.removeAll, hsame, ha, hb, List.eraseDups_cons]
  · by_cases hb : b ∈ first
    · simp [List.removeAll, hsame, ha, hb, List.eraseDups_cons]
    · by_cases hab : a = b
      · simp [List.removeAll, hsame, hb, hab, List.eraseDups_cons]
      · have hfirst : ([b, a].removeAll first).eraseDups = [b, a] := by
          simp [List.removeAll, ha, hb, hab, List.eraseDups_cons]
        have hsecond : ([a, b].removeAll second).eraseDups = [a, b] := by
          simp [List.removeAll, hsame, ha, hb, Ne.symm hab, List.eraseDups_cons]
        rw [hfirst, hsecond]
        refine ⟨fun heq => ?_, fun h => by simp [ha, hb, hab] at h⟩
        have hpair := (List.append_inj' heq rfl).2
        exact absurd (List.cons.inj hpair).1.symm hab

omit [Hashable V] [LawfulHashable V] in
/-- The vertices are noted in the order of mention as in the order of writing as long as each
addition brings at most one of them. -/
theorem eraseDups_written_iff (additions : List (Addition V)) :
    (additions.flatMap mentioned).eraseDups = (additions.flatMap written).eraseDups ↔
      ∀ before addition after, additions = before ++ addition :: after →
        addition.BringsOne before := by
  induction additions using List.reverseRecOn with
  | nil => simp
  | append_singleton additions addition ih =>
    rw [forall_split_concat_iff, ← ih, List.flatMap_append, List.flatMap_append,
      List.flatMap_singleton, List.flatMap_singleton]
    cases addition with
    | root vertex =>
      have hfresh : [vertex].removeAll (additions.flatMap written) =
          [vertex].removeAll (additions.flatMap mentioned) := by
        apply List.filter_congr
        intro v _
        rw [Bool.eq_iff_iff]
        simp only [Bool.not_eq_true', Bool.eq_false_iff, ne_eq, List.elem_iff, mem_flatMap_written]
      rw [mentioned, written, List.eraseDups_append, List.eraseDups_append, hfresh,
        List.append_left_inj]
      exact (and_iff_left trivial).symm
    | edge source target => exact eraseDups_swap_iff (fun v => mem_flatMap_written) source target

/-- A graph that is built by one addition after the other, from nothing, keeps the roots in their
order, the targets of each vertex in the order of its edges, the number of the edges, and each
vertex once. The vertices stand in the order of their first mention, where an edge mentions its
target first. They stand in the order in which they are first written down, source before target, if
and only if no edge brings two of them at once. The graph of a list of roots and a list of edges is
built in this way. -/
theorem addAll_keeps_additions (additions : List (Addition V)) :
    Keeps ((empty : Adjacency V).addAll additions) additions ∧
    (((empty : Adjacency V).addAll additions).vertices.toList =
        (additions.flatMap written).eraseDups ↔
      ∀ before addition after, additions = before ++ addition :: after →
        addition.BringsOne before) ∧
    ∀ (roots : List V) (edges : List (V × V)),
      Keeps (ofEdges roots edges) (roots.map .root ++
        edges.map fun edge => .edge edge.1 edge.2) := by
  refine ⟨keeps_addAll additions, ?_, fun roots edges => ?_⟩
  · rw [(keeps_addAll additions).vertices_eq]
    exact eraseDups_written_iff additions
  · rw [ofEdges_eq_addAll]
    exact keeps_addAll _

/-- A loop, a known source, a root that comes late and twice, an edge between two new vertices, and
a repeated edge. -/
theorem addAll_keeps_additions_tangle :
    let graph := (empty : Adjacency Nat).addAll
      [.edge 1 1, .edge 1 2, .root 3, .edge 4 5, .edge 1 2, .root 3]
    graph.vertices.toList = [1, 2, 3, 5, 4] ∧ graph.neighbours 1 = [1, 2, 2] ∧
      graph.neighbours 9 = [] ∧ graph.edgeCount = 4 ∧ graph.roots.toList = [3, 3] := by
  intro graph
  have hkeeps := (addAll_keeps_additions
    [.edge 1 1, .edge 1 2, .root 3, .edge 4 5, .edge 1 2, .root (3 : Nat)]).1
  exact ⟨hkeeps.vertices_eq, hkeeps.neighbours_eq 1, hkeeps.neighbours_eq 9, hkeeps.edgeCount_eq,
    hkeeps.roots_eq⟩

/-- The first edge of a graph brings two vertices, of which the target is listed first. -/
theorem target_listed_before_source :
    ((empty : Adjacency Nat).addAll [.edge 1 2]).vertices.toList = [2, 1] ∧
      ((empty : Adjacency Nat).addAll [.edge 1 2]).vertices.toList ≠
        ([.edge 1 2].flatMap written).eraseDups := by
  rw [(keeps_addAll [.edge 1 (2 : Nat)]).vertices_eq]
  decide

end StateExplorer.Adjacency
