import Mathlib.Order.Nat
import StateExplorer.Proofs.StepCount

/-!
# Level by level

A breadth-first search with a store that remembers enters the vertices in the order of their
distance from the roots. While it reads the neighbours of a vertex, whatever is nearer than these
has been discovered (`BreadthSearch.Layered.mem_of_distance_lt`): a vertex on the way there has been
left, since the vertices come in order of their distance, and then its neighbours have been looked
at. So what is new lies exactly one edge further than the vertex that is being expanded
(`BreadthSearch.Layered.distance_target`), and goes to the end of a queue whose vertices are at most
this far from the roots.
-/

namespace StateExplorer

open Event

/-! ## Distances -/

namespace StateGraph

variable {V : Type} {graph : StateGraph Id V} {u v : V} {before : List V}

/-- The number of edges between a vertex and the nearest root. -/
noncomputable def distance (graph : StateGraph Id V) (v : V) : Nat :=
  sInf {n | ∃ before, graph.Walk none (before ++ [v]) ∧ before.length = n}

/-- How far the successors of a vertex are from the roots if they are not nearer for another
reason. -/
noncomputable def level (graph : StateGraph Id V) : Option V → Nat
  | none => 0
  | some u => graph.distance u + 1

theorem distance_le (h : graph.Walk none (before ++ [v])) : graph.distance v ≤ before.length :=
  Nat.sInf_le ⟨before, h, rfl⟩

theorem Reachable.exists_walk (h : graph.Reachable v) :
    ∃ before, graph.Walk none (before ++ [v]) := by
  obtain ⟨root, hroot, hpath⟩ := h
  induction hpath with
  | refl => exact ⟨[], hroot, trivial⟩
  | @tail u w _ hedge ih =>
    obtain ⟨before, hwalk⟩ := ih
    refine ⟨before ++ [u], walk_concat.2 ⟨hwalk, ?_⟩⟩
    rw [List.getLast?_concat]
    exact hedge

theorem Reachable.exists_shortest (h : graph.Reachable v) :
    ∃ before, graph.Walk none (before ++ [v]) ∧ before.length = graph.distance v := by
  obtain ⟨before, hwalk⟩ := h.exists_walk
  exact Nat.sInf_mem (s := {n | ∃ before, graph.Walk none (before ++ [v]) ∧ before.length = n})
    ⟨_, before, hwalk, rfl⟩

/-- A successor is at most one edge further than what it is a successor of. -/
theorem distance_le_level {source : Option V} (hsource : ∀ u, source = some u → graph.Reachable u)
    (hv : v ∈ graph.after source) : graph.distance v ≤ graph.level source := by
  cases source with
  | none =>
    have hwalk : graph.Walk none ([] ++ [v]) := ⟨hv, trivial⟩
    exact distance_le hwalk
  | some u =>
    obtain ⟨before, hwalk, hlength⟩ := (hsource u rfl).exists_shortest
    have hwalk' : graph.Walk none ((before ++ [u]) ++ [v]) := by
      rw [walk_concat, List.getLast?_concat]
      exact ⟨hwalk, hv⟩
    have hle := distance_le hwalk'
    simp only [List.length_append, List.length_singleton] at hle
    change _ ≤ graph.distance u + 1
    omega

/-- What is reachable is a root or has a neighbour that is nearer to the roots. -/
theorem Reachable.root_or_nearer (h : graph.Reachable v) :
    v ∈ graph.after none ∨
      ∃ u, graph.Reachable u ∧ v ∈ graph.after (some u) ∧ graph.distance u < graph.distance v := by
  obtain ⟨before, hwalk, hlength⟩ := h.exists_shortest
  rcases List.eq_nil_or_concat before with rfl | ⟨init, u, rfl⟩
  · exact Or.inl hwalk.1
  · rw [List.concat_eq_append] at hwalk hlength
    rw [walk_concat, List.getLast?_concat] at hwalk
    have hle := distance_le hwalk.1
    simp only [List.length_append, List.length_singleton] at hlength
    exact Or.inr ⟨u, hwalk.1.reachable, hwalk.2, by omega⟩

end StateGraph

/-! ## Layers -/

namespace BreadthSearch

variable {V κ : Type} [Store κ V] {graph : StateGraph Id V} {known : κ} {log : List (Event V)}
  {search : BreadthSearch V κ} {frame : Frame V} {u v target : V}

/-- Vertices have been discovered in the order of their distance, and none of them is further from
the roots than the successors that are being read. -/
structure Layered (graph : StateGraph Id V) (log : List (Event V)) (search : BreadthSearch V κ) :
    Prop where
  sorted : (discoveries log).Pairwise fun u v => graph.distance u ≤ graph.distance v
  near : ∀ frame, search.expanding = some frame →
    ∀ v ∈ discoveries log, graph.distance v ≤ graph.level frame.vertex

omit [Store κ V] in
theorem frame_mem (expanding : search.expanding = some frame) :
    frame ∈ (search.agenda graph).frames := by
  rw [frames_of_expanding expanding]
  exact Multiset.mem_cons_self _ _

omit [Store κ V] in
/-- A frame that is open is the one that is being expanded, or that of a vertex that waits. -/
theorem mem_frames (expanding : search.expanding = some frame) {other : Frame V}
    (h : other ∈ (search.agenda graph).frames) :
    other = frame ∨ ∃ u ∈ search.frontier.toList, other.vertex = some u := by
  rw [frames_of_expanding expanding, Multiset.mem_cons] at h
  refine h.imp_right fun hwaiting => ?_
  obtain ⟨u, hu, rfl⟩ := List.mem_map.1 (Multiset.mem_coe.1 hwaiting)
  exact ⟨u, hu, rfl⟩

namespace Explores

/-- When nothing is being expanded, nothing waits. -/
theorem frontier_of_over (h : Explores graph id (fresh graph known) log search)
    (ended : search.expanding = none) : search.frontier.toList = [] := by
  induction h with
  | refl => cases ended
  | @step log events search next before move ih =>
    cases move with
    | enter expanding peek new => cases (expanding_advance expanding).symm.trans ended
    | revisit expanding peek old => cases (expanding_advance expanding).symm.trans ended
    | turn expanding peek =>
      unfold turned at ended ⊢
      cases popped : search.frontier.pop? with
      | none => exact Queue.toList_of_pop?_none popped
      | some popped' =>
        rw [popped] at ended
        cases ended

/-- The vertex that is being expanded can be reached. -/
theorem reachable_source (h : Explores graph id (fresh graph known) log search)
    (expanding : search.expanding = some frame) :
    ∀ u, frame.vertex = some u → graph.Reachable u := by
  intro u hu
  have hopen := (h.agenda.reads (frame_mem expanding)).2
  rw [hu] at hopen
  exact h.agenda.reachable hopen

/-- What has been looked at has been discovered. -/
theorem mem_of_lookedAt (h : Explores graph id (fresh graph known) log search)
    (remembers : Store.Remembers known) {source : Option V} (looked : LookedAt log source v) :
    v ∈ discoveries log := by
  have hknown := h.agenda.knows_of_lookedAt remembers.faithful.honest looked
  rw [remembers.blank, List.map_id] at hknown
  exact hknown.resolve_left Bool.false_ne_true

/-- Nothing that waits was discovered before the vertex that is being expanded. -/
theorem distance_le_of_waiting (h : Explores graph id (fresh graph known) log search)
    (layered : Layered graph log search) (current : search.current = some u)
    (hv : v ∈ search.frontier.toList) : graph.distance u ≤ graph.distance v := by
  have hsorted := layered.sorted
  rw [h.queue, current, Option.toList_some, List.singleton_append, List.pairwise_append,
    List.pairwise_cons] at hsorted
  exact hsorted.2.1.1 v hv

end Explores

namespace Layered

variable (h : Explores graph id (fresh graph known) log search) (remembers : Store.Remembers known)

include h remembers

/-- Whatever is nearer to the roots than the successors that are being read has been discovered. -/
theorem mem_of_distance_lt (layered : Layered graph log search)
    (expanding : search.expanding = some frame) (hv : graph.Reachable v)
    (nearer : graph.distance v < graph.level frame.vertex) : v ∈ discoveries log := by
  have hcurrent := current_of_expanding expanding
  -- by induction on the distance, since a vertex that is nearer still has been discovered and left
  induction hn : graph.distance v using Nat.strong_induction_on generalizing v with
  | h n ih =>
    subst hn
    obtain ⟨current, hvertex⟩ : ∃ current, frame.vertex = some current := by
      cases hvertex : frame.vertex with
      | none => simp [hvertex, StateGraph.level] at nearer
      | some current => exact ⟨current, rfl⟩
    rw [hvertex] at nearer hcurrent
    have hle : graph.distance v ≤ graph.distance current := Nat.lt_succ_iff.1 nearer
    rcases hv.root_or_nearer with hroot | ⟨u, hu, hedge, hlt⟩
    · have hopen : Opened log none := trivial
      rcases h.agenda.lookedAt_or_pending trivial hopen hroot with hlooked
        | ⟨other, hother, hnone, -⟩
      · exact h.mem_of_lookedAt remembers hlooked
      · rcases mem_frames expanding hother with rfl | ⟨w, -, hw⟩
        · rw [hvertex] at hnone
          cases hnone
        · rw [hw] at hnone
          cases hnone
    · have hopen : Opened log (some u) :=
        ih (graph.distance u) hlt hu (hvertex ▸ Nat.lt_succ_of_lt (Nat.lt_of_lt_of_le hlt hle)) rfl
      rcases h.agenda.lookedAt_or_pending trivial hopen hedge with hlooked
        | ⟨other, hother, hsome, -⟩
      · exact h.mem_of_lookedAt remembers hlooked
      · rcases mem_frames expanding hother with rfl | ⟨w, hw, hwaits⟩
        · rw [hvertex] at hsome
          cases hsome
          omega
        · rw [hwaits] at hsome
          cases hsome
          have hlate := h.distance_le_of_waiting layered hcurrent hw
          omega

/-- A vertex that is discovered is one edge further from the roots than the one that is being
expanded. -/
theorem distance_target (layered : Layered graph log search)
    (expanding : search.expanding = some frame) (peek : frame.peek = some target)
    (new : Store.knows search.known target = false) :
    graph.distance target = graph.level frame.vertex := by
  have hmem := h.agenda.target_mem (frame_mem expanding) peek
  have hle := StateGraph.distance_le_level (h.reachable_source expanding) hmem
  have hreach := h.agenda.target_reachable (frame_mem expanding) hmem
  have hnot : ¬ graph.distance target < graph.level frame.vertex := fun hlt =>
    h.agenda.not_mem_discoveries remembers.faithful new
      (layered.mem_of_distance_lt h remembers expanding hreach hlt)
  omega

theorem enter (layered : Layered graph log search) (expanding : search.expanding = some frame)
    (peek : frame.peek = some target) (new : Store.knows search.known target = false) :
    Layered graph (log ++ [.entry frame.vertex target])
      ((search.advance.learn target).push target) := by
  have htarget := layered.distance_target h remembers expanding peek new
  have hnear := layered.near frame expanding
  refine ⟨?_, ?_⟩
  · rw [discoveries_entry, List.pairwise_append]
    refine ⟨layered.sorted, List.pairwise_singleton _ _, ?_⟩
    intro v hv w hw
    rw [List.mem_singleton] at hw
    rw [hw, htarget]
    exact hnear v hv
  · intro frame' expanding' v hv
    cases (expanding_advance expanding).symm.trans expanding'
    rw [discoveries_entry, List.mem_append, List.mem_singleton] at hv
    rcases hv with hold | rfl
    · exact hnear v hold
    · exact htarget.le

omit remembers in
theorem turn (layered : Layered graph log search) (expanding : search.expanding = some frame) :
    Layered graph (log ++ frame.farewell) (search.turned graph) := by
  refine ⟨by rw [discoveries_farewell]; exact layered.sorted, ?_⟩
  intro frame' expanding' v hv
  rw [discoveries_farewell] at hv
  have hnear := layered.near frame expanding v hv
  unfold turned at expanding'
  cases popped : search.frontier.pop? with
  | none =>
    rw [popped] at expanding'
    cases expanding'
  | some popped' =>
    obtain ⟨next, frontier⟩ := popped'
    rw [popped] at expanding'
    cases expanding'
    -- the next vertex was discovered after the present one, so it is not nearer to the roots
    cases hvertex : frame.vertex with
    | none =>
      rw [hvertex] at hnear
      exact hnear.trans (Nat.zero_le _)
    | some u =>
      rw [hvertex] at hnear
      have hcurrent := (current_of_expanding expanding).trans hvertex
      have hwaits : next ∈ search.frontier.toList := by simp [Queue.toList_of_pop?_some popped]
      exact hnear.trans (Nat.succ_le_succ (h.distance_le_of_waiting layered hcurrent hwaits))

end Layered

theorem Explores.layered (h : Explores graph id (fresh graph known) log search)
    (remembers : Store.Remembers known) : Layered graph log search := by
  induction h with
  | refl => exact ⟨List.Pairwise.nil, fun _ _ v hv => by cases hv⟩
  | @step log events search next before move ih =>
    cases move with
    | enter expanding peek new => exact ih.enter before remembers expanding peek new
    | revisit expanding peek old =>
      refine ⟨by rw [discoveries_known]; exact ih.sorted, ?_⟩
      intro frame' expanding' v hv
      cases (expanding_advance expanding).symm.trans expanding'
      rw [discoveries_known] at hv
      exact ih.near _ expanding v hv
    | turn expanding peek => exact ih.turn before expanding

/-- Each entry is one edge further from the roots than its source. -/
theorem Explores.distance_entry (h : Explores graph id (fresh graph known) log search)
    (remembers : Store.Remembers known) {source : Option V} (entered : .entry source v ∈ log) :
    v ∈ graph.after source ∧ Opened log source ∧ graph.distance v = graph.level source := by
  have hlooked := h.agenda.lookedAt_mem (Or.inl entered)
  refine ⟨hlooked.1, hlooked.2, ?_⟩
  clear hlooked
  induction h with
  | refl => cases entered
  | @step log events search next before move ih =>
    rcases List.mem_append.1 entered with hold | hnow
    · exact ih hold
    · cases move with
      | enter expanding peek new =>
        cases List.mem_singleton.1 hnow
        exact (before.layered remembers).distance_target before remembers expanding peek new
      | revisit expanding peek old => cases List.mem_singleton.1 hnow
      | @turn frame expanding peek =>
        unfold Frame.farewell at hnow
        split at hnow <;> simp at hnow

/-- What is true of a breadth-first search between any two steps. -/
structure ByLevels (graph : StateGraph Id V) (log : List (Event V)) (search : BreadthSearch V κ) :
    Prop where
  /-- Vertices are entered in the order of their distance from the roots. -/
  sorted : (discoveries log).Pairwise fun u v => graph.distance u ≤ graph.distance v
  /-- What is entered as a root has the distance zero. -/
  roots : ∀ v, .entry none v ∈ log → v ∈ graph.after none ∧ graph.distance v = 0
  /-- What is entered from a source has a distance that is greater by one. -/
  sources : ∀ u v, .entry (some u) v ∈ log →
    v ∈ graph.after (some u) ∧ u ∈ discoveries log ∧ graph.distance v = graph.distance u + 1
  /-- Vertices are left in the order in which they were entered, and those that have been entered
  and not expanded wait in this order. -/
  queue : discoveries log = exits log ++ (search.current.toList ++ search.frontier.toList)
  /-- The distances of those that wait have at most two values, one after the other. -/
  span : ∀ u ∈ search.frontier.toList, ∀ v ∈ search.frontier.toList,
    graph.distance u ≤ graph.distance v + 1

theorem Explores.span (h : Explores graph id (fresh graph known) log search)
    (remembers : Store.Remembers known) (hu : u ∈ search.frontier.toList)
    (hv : v ∈ search.frontier.toList) : graph.distance u ≤ graph.distance v + 1 := by
  have layered := h.layered remembers
  cases expanding : search.expanding with
  | none =>
    rw [h.frontier_of_over expanding] at hu
    cases hu
  | some frame =>
    have hfound : u ∈ discoveries log := by
      rw [h.queue]
      exact List.mem_append_right _ (List.mem_append_right _ hu)
    have hnear := layered.near frame expanding u hfound
    cases hvertex : frame.vertex with
    | none =>
      rw [hvertex] at hnear
      exact hnear.trans (Nat.zero_le _)
    | some current =>
      rw [hvertex] at hnear
      have hcurrent := (current_of_expanding expanding).trans hvertex
      exact hnear.trans (Nat.succ_le_succ (h.distance_le_of_waiting layered hcurrent hv))

theorem Explores.byLevels (h : Explores graph id (fresh graph known) log search)
    (remembers : Store.Remembers known) : ByLevels graph log search where
  sorted := (h.layered remembers).sorted
  roots v entered := by
    obtain ⟨hmem, -, hdistance⟩ := h.distance_entry remembers entered
    exact ⟨hmem, hdistance⟩
  sources u v entered := h.distance_entry remembers entered
  queue := h.queue
  span u hu v hv := h.span remembers hu hv

/-- When the search is over, all that can be reached has been entered, and left in the same
order. -/
theorem Explores.exits_of_over (h : Explores graph id (fresh graph known) log search)
    (remembers : Store.Remembers known) (ended : search.expanding = none) :
    exits log = discoveries log ∧ ∀ v, v ∈ discoveries log ↔ graph.Reachable v := by
  refine ⟨?_, fun v => ⟨h.agenda.reachable, fun hv => ?_⟩⟩
  · rw [h.queue, current, ended, h.frontier_of_over ended]
    simp
  · have hkey := h.agenda.key_mem_of_ended remembers.faithful.honest remembers.blank trivial
      StateGraph.uniform_id (frames_eq_zero.2 ended) hv
    rwa [List.map_id] at hkey

end BreadthSearch

/-- On a graph of which finitely many vertices can be reached, a breadth-first search with a store
that remembers goes level by level: between any two steps the vertices have been entered in the
order of their distance from the roots, each from a source that is nearer by one, and those that
wait span at most two distances. The search comes to its end, and has then left all that can be
reached in the order in which it was entered. The visitor does what it likes with a world of type
`ω`, as long as it lets the search go on. The log is what it keeps if it also keeps a log, which
changes nothing else. -/
theorem breadth_first_goes_level_by_level {V κ σ ω : Type} [Store κ V] [Render V]
    (graph : StateGraph Id V) (finitary : graph.Finitary) (finite : {v | graph.Reachable v}.Finite)
    (known : κ) (remembers : Store.Remembers known)
    (visitor : Visitor (ExceptT Fault (StateM ω)) V (BreadthSearch V κ) σ)
    (obliging : visitor.Obliging) (state : σ) (world : ω) :
    ∃ first, perform (BreadthSearch.start (graph.under id) known) world = (.ok first, world) ∧
      (∀ n t world', (BreadthSearch.machine (graph.under id) visitor).strides? n
          ({ search := first, state }, world) = some (t, world') →
        ∃ log, (BreadthSearch.machine (graph.under id) visitor.logged).strides? n
            ({ search := first, state := ([], state) }, world) =
              some ({ search := t.search, state := (log, t.state) }, world') ∧
          BreadthSearch.ByLevels graph log t.search) ∧
      ∃ steps log t world',
        (BreadthSearch.machine (graph.under id) visitor).EndsAfter
          ({ search := first, state }, world)
          steps (t, world') ∧
        (BreadthSearch.machine (graph.under id) visitor.logged).strides? steps
          ({ search := first, state := ([], state) }, world) =
            some ({ search := t.search, state := (log, t.state) }, world') ∧
        exits log = discoveries log ∧ ∀ v, v ∈ discoveries log ↔ graph.Reachable v := by
  have pursues : Pursues graph id known (fun search => search.agenda graph)
      (BreadthSearch.Explores graph id (BreadthSearch.fresh graph known))
      (BreadthSearch.machine (graph.under id) visitor.logged) := BreadthSearch.pursues obliging
  have terminates : Agenda.Terminates graph id True (Agenda.start graph known) :=
    Agenda.terminates_of_finite finitary (finite.image id) remembers.faithful
  refine ⟨BreadthSearch.fresh graph known, by rw [BreadthSearch.start_under, perform_pure], ?_, ?_⟩
  · intro n t world' hstrides
    obtain ⟨log, hlogged, explores⟩ := pursues.exists_log finitary .refl rfl
      (BreadthSearch.keeping_views _ visitor _) hstrides
    exact ⟨log, hlogged, explores.byLevels remembers⟩
  · obtain ⟨log, t, world', hends, hlogged, explores, hframes⟩ := pursues.exists_endsAfter finitary
      terminates .refl rfl (BreadthSearch.keeping_views _ visitor _)
      (BreadthSearch.machine_rests visitor) world
    exact ⟨_, log, t, world', hends, hlogged,
      explores.exits_of_over remembers (BreadthSearch.frames_eq_zero.1 hframes)⟩

/-- The numbers up to three, each of which leads to the next two. -/
def StateGraph.ladder : StateGraph Id Nat where
  roots := .finite [0]
  neighbours n := .finite ([n + 1, n + 2].filter (· ≤ 3))

theorem StateGraph.finitary_ladder : ladder.Finitary := by
  intro source
  cases source with
  | none => exact ⟨[0], rfl⟩
  | some n => exact ⟨[n + 1, n + 2].filter (· ≤ 3), rfl⟩

theorem StateGraph.finite_reachable_ladder : {v | ladder.Reachable v}.Finite := by
  refine (Set.finite_Iic 3).subset ?_
  rintro v ⟨root, hroot, hpath⟩
  rcases Relation.ReflTransGen.cases_tail hpath with rfl | ⟨u, -, hedge⟩
  · have hzero : v ∈ [0] := hroot
    rw [List.mem_singleton.1 hzero]
    exact Nat.zero_le 3
  · have hmem : v ∈ [u + 1, u + 2].filter (· ≤ 3) := hedge
    simpa using (List.mem_filter.1 hmem).2

/-- Seven steps in a row leave two vertices waiting. -/
theorem strides?_ladder :
    ∃ t world, (BreadthSearch.machine (StateGraph.ladder.under id) Visitor.counting).strides? 7
        ({ search := BreadthSearch.fresh StateGraph.ladder ProbingSet.colliding, state := () }, 0) =
          some (t, world) ∧ t.search.frontier.toList = [2, 3] :=
  ⟨_, _, rfl, rfl⟩

/-- When the neighbours of 1 have been read, 2 and 3 wait. -/
theorem breadth_first_goes_level_by_level_ladder :
    StateGraph.ladder.Finitary ∧ {v | StateGraph.ladder.Reachable v}.Finite ∧
    Store.Remembers ProbingSet.colliding ∧
    (Visitor.counting : Visitor (ExceptT Fault (StateM Nat)) Nat
      (BreadthSearch Nat (ProbingSet Nat)) Unit).Obliging ∧
    ∃ first t log world,
      perform (BreadthSearch.start (StateGraph.ladder.under id) ProbingSet.colliding) 0 =
        (.ok first, 0) ∧
      (BreadthSearch.machine (StateGraph.ladder.under id) Visitor.counting).strides? 7
        ({ search := first, state := () }, 0) = some (t, world) ∧
      (BreadthSearch.machine (StateGraph.ladder.under id) Visitor.counting.logged).strides? 7
        ({ search := first, state := ([], ()) }, 0) =
          some ({ search := t.search, state := (log, t.state) }, world) ∧
      t.search.frontier.toList = [2, 3] ∧
        BreadthSearch.ByLevels StateGraph.ladder log t.search := by
  have remembers : Store.Remembers ProbingSet.colliding := ProbingSet.remembers_empty _
  obtain ⟨first, hstart, hlevels, -⟩ :=
    breadth_first_goes_level_by_level (ω := Nat) StateGraph.ladder
    StateGraph.finitary_ladder StateGraph.finite_reachable_ladder ProbingSet.colliding remembers
    Visitor.counting Visitor.obliging_counting () 0
  have hfirst : first = BreadthSearch.fresh StateGraph.ladder ProbingSet.colliding := by
    rw [BreadthSearch.start_under, perform_pure] at hstart
    exact (Except.ok.inj (Prod.mk.inj hstart).1).symm
  obtain ⟨t, world, hstrides, hfrontier⟩ := strides?_ladder
  rw [← hfirst] at hstrides
  obtain ⟨log, hlogged, byLevels⟩ := hlevels 7 t world hstrides
  exact ⟨StateGraph.finitary_ladder, StateGraph.finite_reachable_ladder, remembers,
    Visitor.obliging_counting, first, t, log, world, hstart, hstrides, hlogged, hfrontier, byLevels⟩

end StateExplorer
