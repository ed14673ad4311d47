import Mathlib.Data.Set.Card
import StateExplorer.Proofs.Routes
import StateExplorer.Proofs.StepCount
import StateExplorer.Proofs.Twins

/-!
# Searches without memory

A search whose store forgets everything unfolds the graph: it enters a vertex once for each route
that leads to it. The proof is an account of multisets and does not speak of the order of the
search. All that was offered to a search that has come to its end has been entered, so the vertices
that it entered and the place outside the graph are what one gets by going on from them, and that
place once more. Such a multiset is the sum of the ends of all routes (`StateGraph.eq_shortRoutes`),
because it can be unrolled as often as one likes and a long route would call for more members than
it has (`StateGraph.length_lt_card`).
-/

namespace StateExplorer

open Event

namespace StateGraph

variable {V : Type}

/-- The routes with a number of positions, each with the vertex to which it leads. -/
def routes (graph : StateGraph Id V) : Nat → List (List Nat × Option V)
  | 0 => [([], none)]
  | n + 1 => (routes graph n).flatMap fun here =>
      (graph.after here.2).unread.zipIdx.map fun next => (here.1 ++ [next.2], some next.1)

/-- All routes with less than a number of positions. -/
def shortRoutes (graph : StateGraph Id V) (n : Nat) : List (List Nat × Option V) :=
  (List.range n).flatMap graph.routes

/-- Where one can go on from the given places. -/
def onward (graph : StateGraph Id V) (ends : Multiset (Option V)) : Multiset (Option V) :=
  ends.bind fun source => ((graph.after source).unread : Multiset V).map some

variable {graph : StateGraph Id V} {route : List Nat} {source : Option V} {n : Nat}

/-! ## Lists of routes -/

theorem mem_routes (finitary : graph.Finitary) :
    (route, source) ∈ graph.routes n ↔ graph.Leads route source ∧ route.length = n := by
  induction n generalizing route source with
  | zero =>
    rw [routes, List.mem_singleton, Prod.mk.injEq]
    constructor
    · intro h
      exact ⟨h.1 ▸ h.2 ▸ .start, by rw [h.1, List.length_nil]⟩
    · intro h
      obtain rfl := List.eq_nil_of_length_eq_zero h.2
      exact ⟨rfl, h.1.deterministic .start⟩
  | succ n ih =>
    simp only [routes, List.mem_flatMap, List.mem_map, List.mem_zipIdx_iff_getElem?,
      finitary.unread_getElem?]
    constructor
    · intro h
      obtain ⟨here, hhere, next, hnext, heq⟩ := h
      cases heq
      obtain ⟨hleads, hlength⟩ := ih.1 hhere
      exact ⟨hleads.step hnext, by rw [List.length_append, hlength, List.length_singleton]⟩
    · intro h
      obtain ⟨hleads, hlength⟩ := h
      cases hleads with
      | start => cases hlength
      | @step init before i v hbefore hnext =>
        rw [List.length_append, List.length_singleton, Nat.add_right_cancel_iff] at hlength
        exact ⟨(init, before), ih.2 ⟨hbefore, hlength⟩, (v, i), hnext, rfl⟩

theorem nodup_routes (n : Nat) : ((graph.routes n).map Prod.fst).Nodup := by
  induction n with
  | zero => exact List.nodup_singleton []
  | succ n ih =>
    rw [routes, List.map_flatMap, List.nodup_flatMap]
    refine ⟨fun here _ => ?_, ?_⟩
    · have hpositions : ((graph.after here.2).unread.zipIdx.map Prod.snd).Nodup := by
        rw [List.zipIdx_map_snd]
        exact List.nodup_range'
      have hinjective : Function.Injective fun i : Nat => here.1 ++ [i] := by
        intro i j hij
        simpa using hij
      have hroutes := hpositions.map hinjective
      rw [List.map_map] at hroutes ⊢
      exact hroutes
    · refine (List.pairwise_map.1 ih).imp fun {here there} hne => ?_
      rw [Function.onFun, List.disjoint_iff_ne]
      simp only [List.map_map, List.mem_map, Function.comp_apply]
      intro longer hlonger longer' hlonger' heq
      obtain ⟨next, -, rfl⟩ := hlonger
      obtain ⟨next', -, rfl⟩ := hlonger'
      exact hne (List.append_inj' heq rfl).1

theorem mem_shortRoutes (finitary : graph.Finitary) :
    (route, source) ∈ graph.shortRoutes n ↔ graph.Leads route source ∧ route.length < n := by
  simp only [shortRoutes, List.mem_flatMap, List.mem_range, mem_routes finitary]
  constructor
  · intro h
    obtain ⟨k, hk, hleads, rfl⟩ := h
    exact ⟨hleads, hk⟩
  · intro h
    exact ⟨route.length, h.2, h.1, rfl⟩

theorem nodup_shortRoutes (finitary : graph.Finitary) (n : Nat) :
    ((graph.shortRoutes n).map Prod.fst).Nodup := by
  rw [shortRoutes, List.map_flatMap, List.nodup_flatMap]
  refine ⟨fun k _ => nodup_routes k, List.nodup_range.imp fun {j k} hne => ?_⟩
  rw [Function.onFun, List.disjoint_iff_ne]
  intro route hroute route' hroute' heq
  obtain ⟨here, hhere, rfl⟩ := List.mem_map.1 hroute
  obtain ⟨there, hthere, rfl⟩ := List.mem_map.1 hroute'
  have hj := ((mem_routes finitary).1 hhere).2
  have hk := ((mem_routes finitary).1 hthere).2
  exact hne (hj.symm.trans ((congrArg List.length heq).trans hk))

theorem Leads.exists_shorter (h : graph.Leads route source) (hn : n ≤ route.length) :
    ∃ route' source', graph.Leads route' source' ∧ route'.length = n := by
  induction h with
  | start => exact ⟨[], none, .start, (Nat.le_zero.1 hn).symm⟩
  | @step route source i v before next ih =>
    rcases Nat.eq_or_lt_of_le hn with hlast | hlt
    · exact ⟨route ++ [i], some v, before.step next, hlast.symm⟩
    · rw [List.length_append, List.length_singleton] at hlt
      exact ih (by omega)

/-- A long route begins with shorter ones of all lengths. -/
theorem Leads.le_length_shortRoutes (h : graph.Leads route source) (finitary : graph.Finitary)
    (hn : n ≤ route.length + 1) : n ≤ (graph.shortRoutes n).length := by
  induction n with
  | zero => exact Nat.zero_le _
  | succ n ih =>
    obtain ⟨route', source', hleads, hlength⟩ := h.exists_shorter (n := n) (by omega)
    have hmem : (route', source') ∈ graph.routes n := (mem_routes finitary).2 ⟨hleads, hlength⟩
    have hpos := List.length_pos_of_mem hmem
    have hbefore := ih (by omega)
    rw [shortRoutes] at hbefore ⊢
    rw [List.range_succ, List.flatMap_append, List.length_append, List.flatMap_singleton]
    omega

/-! ## The ends of routes -/

theorem onward_add (ends ends' : Multiset (Option V)) :
    graph.onward (ends + ends') = graph.onward ends + graph.onward ends' :=
  Multiset.add_bind ends ends' _

theorem ends_routes (n : Nat) :
    ((graph.routes n).map Prod.snd : Multiset (Option V)) = graph.onward^[n] {none} := by
  induction n with
  | zero => rfl
  | succ n ih =>
    rw [Function.iterate_succ_apply', ← ih]
    simp only [routes, onward, List.map_flatMap, List.map_map, Multiset.coe_bind, Multiset.map_coe,
      List.flatMap_map]
    congr 1
    refine List.flatMap_congr fun here _ => ?_
    conv_rhs => rw [← List.zipIdx_map_fst 0 (graph.after here.2).unread, List.map_map]
    rfl

/-- What one gets to by going on `n` times is the end of a route with at least `n` positions. -/
theorem exists_route_of_mem_onward (finitary : graph.Finitary) {ends : Multiset (Option V)}
    (leads : ∀ s ∈ ends, ∃ route, graph.Leads route s) (h : source ∈ graph.onward^[n] ends) :
    ∃ route, graph.Leads route source ∧ n ≤ route.length := by
  induction n generalizing source with
  | zero =>
    obtain ⟨route, hleads⟩ := leads source h
    exact ⟨route, hleads, Nat.zero_le _⟩
  | succ n ih =>
    rw [Function.iterate_succ_apply', onward, Multiset.mem_bind] at h
    obtain ⟨before, hbefore, hsource⟩ := h
    obtain ⟨v, hv, rfl⟩ := Multiset.mem_map.1 hsource
    obtain ⟨route, hleads, hlength⟩ := ih hbefore
    obtain ⟨i, hi⟩ := List.mem_iff_getElem?.1 (Multiset.mem_coe.1 hv)
    rw [finitary.unread_getElem?] at hi
    exact ⟨route ++ [i], hleads.step hi, by simpa using hlength⟩

section Closed

variable {found : Multiset (Option V)} (closed : found = none ::ₘ graph.onward found)

include closed

/-- Unrolled `n` times, a closed multiset is made of the ends of short routes and a rest. -/
theorem eq_shortRoutes_add (n : Nat) :
    found = ((graph.shortRoutes n).map Prod.snd : Multiset (Option V)) +
      graph.onward^[n] found := by
  induction n with
  | zero => exact (zero_add found).symm
  | succ n ih =>
    have hadd : graph.onward^[n] ({none} + graph.onward found) =
        graph.onward^[n] {none} + graph.onward^[n] (graph.onward found) :=
      Function.Semiconj₂.iterate (fun ends ends' => onward_add ends ends') n {none}
        (graph.onward found)
    have hunrolled : graph.onward^[n] found = graph.onward^[n] {none} +
        graph.onward^[n + 1] found := by
      rw [Function.iterate_succ_apply, ← hadd, Multiset.singleton_add, ← closed]
    have hshort : (graph.shortRoutes (n + 1)).map Prod.snd =
        (graph.shortRoutes n).map Prod.snd ++ (graph.routes n).map Prod.snd := by
      simp [shortRoutes, List.range_succ]
    rw [hshort, ← Multiset.coe_add, ends_routes, add_assoc, ← hunrolled]
    exact ih

theorem length_lt_card (finitary : graph.Finitary) (h : graph.Leads route source) :
    route.length < found.card := by
  have hcard := congrArg Multiset.card (eq_shortRoutes_add closed (route.length + 1))
  rw [Multiset.card_add, Multiset.coe_card, List.length_map] at hcard
  have hlong := h.le_length_shortRoutes finitary (Nat.le_refl (route.length + 1))
  omega

theorem eq_shortRoutes (finitary : graph.Finitary)
    (leads : ∀ s ∈ found, ∃ route, graph.Leads route s) :
    found = ((graph.shortRoutes found.card).map Prod.snd : Multiset (Option V)) := by
  have hrest : graph.onward^[found.card] found = 0 := by
    refine Multiset.eq_zero_of_forall_notMem fun s hs => ?_
    obtain ⟨route, hleads, hlength⟩ := exists_route_of_mem_onward finitary leads hs
    have hshort := length_lt_card closed finitary hleads
    omega
  have hsum := eq_shortRoutes_add closed found.card
  rwa [hrest, add_zero] at hsum

/-- There are as many routes to places of a kind as the multiset has members of this kind. -/
theorem encard_routes (finitary : graph.Finitary)
    (leads : ∀ s ∈ found, ∃ route, graph.Leads route s) (p : Option V → Prop) [DecidablePred p] :
    {route | ∃ s, p s ∧ graph.Leads route s}.encard = found.countP p := by
  let listed := ((graph.shortRoutes found.card).filter fun here => p here.2).map Prod.fst
  have hset : {route | ∃ s, p s ∧ graph.Leads route s} = listed.toFinset := by
    ext route
    simp only [Set.mem_ofPred_eq, List.coe_toFinset, listed, List.mem_map, List.mem_filter,
      decide_eq_true_eq]
    constructor
    · intro h
      obtain ⟨s, hs, hleads⟩ := h
      have hmem := (mem_shortRoutes finitary).2 ⟨hleads, length_lt_card closed finitary hleads⟩
      exact ⟨(route, s), ⟨hmem, hs⟩, rfl⟩
    · intro h
      obtain ⟨here, ⟨hmem, hp⟩, rfl⟩ := h
      exact ⟨here.2, hp, ((mem_shortRoutes finitary).1 hmem).1⟩
  have hnodup : listed.Nodup :=
    (List.filter_sublist.map Prod.fst).nodup (nodup_shortRoutes finitary found.card)
  have hcount : listed.length = found.countP p := by
    conv_rhs => rw [eq_shortRoutes closed finitary leads]
    rw [Multiset.coe_countP, List.countP_map, List.countP_eq_length_filter, List.length_map]
    rfl
  rw [hset, Set.encard_coe_eq_coe_finsetCard, List.toFinset_card_of_nodup hnodup, hcount]

end Closed

/-- The log enters each vertex as often as routes lead to it, and the number of discoveries is that
of all routes. Routes differ by their positions, so a root that is listed twice counts twice, and so
do parallel edges. -/
structure Unfolds [DecidableEq V] (graph : StateGraph Id V) (log : List (Event V))
    (discovered : Nat) :
    Prop where
  entered : ∀ v, {route | graph.Leads route (some v)}.encard = (discoveries log).count v
  total : {route | ∃ v, graph.Leads route (some v)}.encard = discovered

end StateGraph

open StateGraph

section Forgetful

variable {V K κ : Type} [Store κ K] {graph : StateGraph Id V} {key : V → K} {known : κ}
  {log : List (Event V)} {agenda : Agenda V κ}

/-- A search that remembers nothing has entered all that was offered to it by the time it ends. -/
theorem Agenda.Explores.sources_closed
    (h : Explores graph key True (start graph known) log agenda) (finitary : graph.Finitary)
    (forgetful : Store.Forgetful K known) (ended : agenda.frames = 0) :
    sources (discoveries log) = none ::ₘ graph.onward (sources (discoveries log)) := by
  obtain ⟨passed, hoffered, hnone⟩ := h.exists_passed finitary
  have hwaiting : agenda.waiting = 0 := by rw [waiting, ended, Multiset.map_zero, Multiset.sum_zero]
  rw [hnone forgetful trivial, hwaiting, add_zero, add_zero] at hoffered
  have honward : graph.onward (sources (discoveries log)) =
      (graph.offered (discoveries log)).map some := (Multiset.map_bind _ _ some).symm
  rw [honward, ← hoffered]
  rfl

theorem Agenda.Explores.exists_route_of_source
    (h : Explores graph key True (start graph known) log agenda) :
    ∀ s ∈ sources (discoveries log), ∃ route, graph.Leads route s := by
  intro s hs
  rcases Multiset.mem_cons.1 hs with rfl | hs
  · exact ⟨[], .start⟩
  · obtain ⟨v, hv, rfl⟩ := Multiset.mem_map.1 hs
    exact (h.reachable (Multiset.mem_coe.1 hv)).exists_route

theorem Agenda.Explores.unfolds [DecidableEq V] {agenda : Agenda V (Tally K)}
    (h : Explores graph key True (start graph ({} : Tally K)) log agenda)
    (finitary : graph.Finitary) (ended : agenda.frames = 0) :
    graph.Unfolds log (Store.size agenda.known) := by
  have closed := h.sources_closed finitary Tally.forgetful ended
  have hroutes := encard_routes closed finitary h.exists_route_of_source
  constructor
  · intro v
    have hv := hroutes (some v = ·)
    rw [← Multiset.count, count_sources] at hv
    simpa using hv
  · have hsome := hroutes (·.isSome = true)
    have hlength : (sources (discoveries log)).countP (·.isSome = true) =
        (discoveries log).length := by
      simp [sources]
    have hsize : Store.size agenda.known = (discoveries log).length := by
      rw [h.known_eq, Tally.learnAll_eq, List.length_map]
      exact Nat.zero_add _
    rw [hlength, ← hsize] at hsome
    simpa [Option.isSome_iff_exists] using hsome

/-- A machine that comes to its end without memory has unfolded the graph. -/
theorem Pursues.exists_unfolding [DecidableEq V] {σ ω C : Type} {agenda : C → Agenda V (Tally K)}
    {Found : List (Event V) → C → Prop}
    {machine : Machine (ExceptT Fault (StateM ω)) (Session C (List (Event V) × σ))}
    {plain : Machine (ExceptT Fault (StateM ω)) (Session C σ)} {first : C} {state : σ}
    (pursues : Pursues graph key ({} : Tally K) agenda Found machine) (finitary : graph.Finitary)
    (terminates : Agenda.Terminates graph key True (Agenda.start graph ({} : Tally K)))
    (found : Found [] first) (start : agenda first = Agenda.start graph {})
    (views : Machine.Views Session.unkept machine plain) (rests : plain.Rests) (world : ω) :
    ∃ steps log t world',
      plain.EndsAfter ({ search := first, state }, world) steps (t, world') ∧
      machine.strides? steps ({ search := first, state := ([], state) }, world) =
        some ({ search := t.search, state := (log, t.state) }, world') ∧
      graph.Unfolds log (Store.size (agenda t.search).known) := by
  obtain ⟨log, t, world', hends, hlogged, hfound, hframes⟩ :=
    pursues.exists_endsAfter finitary terminates found start views rests world
  exact ⟨_, log, t, world', hends, hlogged, (pursues.explores hfound).unfolds finitary hframes⟩

end Forgetful

/-- On a graph with finitely many reachable vertices, none of which is on a cycle, each order of
search comes to its end although its store forgets everything. It enters each vertex once for each
route to it, whatever the visitor does with a world of type `ω`, as long as it lets the search go
on. -/
theorem forgetful_search_unfolds_graph {V K σ ω : Type} [DecidableEq V] [Render V]
    (graph : StateGraph Id V) (key : V → K) (finitary : graph.Finitary)
    (finite : {v | graph.Reachable v}.Finite)
    (acyclic : ∀ v, graph.Reachable v → ¬ graph.OnCycle v) :
    (∀ visitor : Visitor (ExceptT Fault (StateM ω)) V (DepthSearch V (Tally K)) σ,
      visitor.Obliging →
      ∀ state world, ∃ first steps log t world',
        perform (DepthSearch.start (graph.under key) ({} : Tally K) none) world =
          (.ok first, world) ∧
        (DepthSearch.machine (graph.under key) visitor).EndsAfter
          ({ search := first, state }, world) steps (t, world') ∧
        (DepthSearch.machine (graph.under key) visitor.logged).strides? steps
          ({ search := first, state := ([], state) }, world) =
            some ({ search := t.search, state := (log, t.state) }, world') ∧
        graph.Unfolds log t.search.discovered) ∧
    (∀ visitor : Visitor (ExceptT Fault (StateM ω)) V (BreadthSearch V (Tally K)) σ,
      visitor.Obliging →
      ∀ state world, ∃ first steps log t world',
        perform (BreadthSearch.start (graph.under key) ({} : Tally K)) world = (.ok first, world) ∧
        (BreadthSearch.machine (graph.under key) visitor).EndsAfter
          ({ search := first, state }, world)
          steps (t, world') ∧
        (BreadthSearch.machine (graph.under key) visitor.logged).strides? steps
          ({ search := first, state := ([], state) }, world) =
            some ({ search := t.search, state := (log, t.state) }, world') ∧
        graph.Unfolds log t.search.discovered) := by
  have terminates : Agenda.Terminates graph key True (Agenda.start graph ({} : Tally K)) :=
    Agenda.terminates_of_acyclic finitary finite acyclic
  refine ⟨fun visitor obliging state world => ?_, fun visitor obliging state world => ?_⟩
  · obtain ⟨steps, log, t, world', hends, hlogged, hunfolds⟩ :=
      (DepthSearch.pursues obliging).exists_unfolding finitary terminates .refl rfl
        (DepthSearch.keeping_views _ visitor _) (DepthSearch.machine_rests visitor) world
    exact ⟨_, steps, log, t, world', by rw [DepthSearch.start_under, perform_pure], hends,
      hlogged, hunfolds⟩
  · obtain ⟨steps, log, t, world', hends, hlogged, hunfolds⟩ :=
      (BreadthSearch.pursues obliging).exists_unfolding finitary terminates .refl rfl
        (BreadthSearch.keeping_views _ visitor _) (BreadthSearch.machine_rests visitor) world
    exact ⟨_, steps, log, t, world', by rw [BreadthSearch.start_under, perform_pure], hends,
      hlogged, hunfolds⟩

/-- Two roots that are one vertex, from which two edges lead to another one. -/
def StateGraph.doubled : StateGraph Id Nat where
  roots := .finite [0, 0]
  neighbours n := .finite (if n = 0 then [1, 1] else [])

theorem StateGraph.finitary_doubled : doubled.Finitary := by
  intro source
  cases source with
  | none => exact ⟨[0, 0], rfl⟩
  | some n => exact ⟨if n = 0 then [1, 1] else [], rfl⟩

theorem StateGraph.edge_doubled {n m : Nat} (h : doubled.Edge n m) : n = 0 ∧ m = 1 := by
  change m ∈ Sequence.finite (if n = 0 then [1, 1] else []) at h
  rw [Sequence.mem_finite] at h
  split at h <;> simp_all

theorem StateGraph.reachable_doubled {n : Nat} (h : doubled.Reachable n) : n ≤ 1 := by
  obtain ⟨root, hroot, hpath⟩ := h
  cases hpath with
  | refl =>
    change n ∈ Sequence.finite [0, 0] at hroot
    rw [Sequence.mem_finite] at hroot
    simp_all
  | tail _ hedge => exact (edge_doubled hedge).2.le

theorem StateGraph.acyclic_doubled (n : Nat) : ¬ doubled.OnCycle n := by
  intro h
  have hpath : ∀ {m}, Relation.TransGen doubled.Edge n m → n < m := by
    intro m hm
    induction hm with
    | single hedge => have := edge_doubled hedge; omega
    | tail _ hedge ih => have := edge_doubled hedge; omega
  exact Nat.lt_irrefl n (hpath h)

theorem strides?_doubled :
    ∃ t, (BreadthSearch.machine (StateGraph.doubled.under id) Visitor.counting).strides? 13
        ({ search := BreadthSearch.fresh StateGraph.doubled ({} : Tally Nat), state := () }, 0) =
          some (t, 12) ∧ t.search.expanding.isNone = true ∧ t.search.discovered = 6 :=
  ⟨_, rfl, rfl, rfl⟩

/-- There are six routes, two of which lead to the root, and the search breadth first takes thirteen
steps to follow them all. -/
theorem forgetful_search_unfolds_graph_doubled :
    StateGraph.doubled.Finitary ∧ {v | StateGraph.doubled.Reachable v}.Finite ∧
    (∀ v, StateGraph.doubled.Reachable v → ¬ StateGraph.doubled.OnCycle v) ∧
    (Visitor.counting : Visitor (ExceptT Fault (StateM Nat)) Nat (BreadthSearch Nat (Tally Nat))
      Unit).Obliging ∧
    {route | ∃ v, StateGraph.doubled.Leads route (some v)}.encard = 6 ∧
    ∃ first log t world,
      perform (BreadthSearch.start (StateGraph.doubled.under id) ({} : Tally Nat)) 0 =
        (.ok first, 0) ∧
      (BreadthSearch.machine (StateGraph.doubled.under id) Visitor.counting).EndsAfter
        ({ search := first, state := () }, 0) 13 (t, world) ∧
      (BreadthSearch.machine (StateGraph.doubled.under id) Visitor.counting.logged).strides? 13
        ({ search := first, state := ([], ()) }, 0) =
          some ({ search := t.search, state := (log, t.state) }, world) ∧
      StateGraph.doubled.Unfolds log 6 := by
  have finite : {v | StateGraph.doubled.Reachable v}.Finite :=
    (Set.finite_Iic 1).subset fun _ hv => StateGraph.reachable_doubled hv
  have acyclic : ∀ v, StateGraph.doubled.Reachable v → ¬ StateGraph.doubled.OnCycle v :=
    fun v _ => StateGraph.acyclic_doubled v
  obtain ⟨-, hbreadth⟩ := forgetful_search_unfolds_graph (σ := Unit)
    (ω := Nat) StateGraph.doubled id
    StateGraph.finitary_doubled finite acyclic
  obtain ⟨first, steps, log, t, world, hstart, hends, hlogged, hunfolds⟩ :=
    hbreadth Visitor.counting Visitor.obliging_counting () 0
  have hfirst : first = BreadthSearch.fresh StateGraph.doubled {} := by
    rw [BreadthSearch.start_under, perform_pure] at hstart
    exact (Except.ok.inj (Prod.mk.inj hstart).1).symm
  subst hfirst
  obtain ⟨last, hstrides, hover, hsix⟩ := strides?_doubled
  have hlast := (BreadthSearch.machine_rests _).endsAfter
    (fun _ => Journal.debug_eq _) hstrides hover
  obtain rfl : steps = 13 := by exact_mod_cast hends.stepsLeft.symm.trans hlast.stepsLeft
  have ht : t = last := (Prod.mk.inj (Option.some.inj (hends.strides.symm.trans hstrides))).1
  rw [ht, hsix] at hunfolds
  exact ⟨StateGraph.finitary_doubled, finite, acyclic, Visitor.obliging_counting,
    hunfolds.total, _, log, t, world, hstart, hends, hlogged, hunfolds⟩

end StateExplorer
