import StateExplorer.Check.Components
import StateExplorer.Proofs.Components.Chart
import StateExplorer.Proofs.Exploration

/-!
# The ledger of a decomposition

The ledger keeps a node for every discovered vertex under its canonical form. `Records` says that
the nodes hold what they should, given the log of the search, the low values and the forms that are
done. Each operation of the ledger is described by what it does to the low values and to the forms
that are done, so that nothing else has to look into the table.

A component that is completed lists the vertices of its members in the order of their discovery
(`Records.complete`).
-/

namespace StateExplorer.Components

open Event

variable {V K : Type} {key : V → K}

/-- The search has looked at an edge between vertices with the given canonical forms. -/
def Seen (key : V → K) (log : List (Event V)) (a b : K) : Prop :=
  ∃ u x, LookedAt log (some u) x ∧ key u = a ∧ key x = b

section Seen

variable {log : List (Event V)} {u x vertex : V} {frame : Frame V} {a b : K}

theorem not_seen_nil : ¬ Seen key [] a b := by
  rintro ⟨u, x, h, -⟩
  exact lookedAt_nil h

theorem seen_entry {source : Option V} :
    Seen key (log ++ [.entry source x]) a b ↔
      Seen key log a b ∨ (∃ u, source = some u ∧ key u = a) ∧ key x = b := by
  constructor
  · rintro ⟨u, y, h, ha, hb⟩
    rcases lookedAt_entry.1 h with h | ⟨rfl, rfl⟩
    · exact Or.inl ⟨u, y, h, ha, hb⟩
    · exact Or.inr ⟨⟨u, rfl, ha⟩, hb⟩
  · rintro (⟨u, y, h, ha, hb⟩ | ⟨⟨u, rfl, ha⟩, hb⟩)
    · exact ⟨u, y, lookedAt_entry.2 (Or.inl h), ha, hb⟩
    · exact ⟨u, x, lookedAt_entry.2 (Or.inr ⟨rfl, rfl⟩), ha, hb⟩

theorem seen_known {source : Option V} :
    Seen key (log ++ [.known source x]) a b ↔
      Seen key log a b ∨ (∃ u, source = some u ∧ key u = a) ∧ key x = b := by
  constructor
  · rintro ⟨u, y, h, ha, hb⟩
    rcases lookedAt_known.1 h with h | ⟨rfl, rfl⟩
    · exact Or.inl ⟨u, y, h, ha, hb⟩
    · exact Or.inr ⟨⟨u, rfl, ha⟩, hb⟩
  · rintro (⟨u, y, h, ha, hb⟩ | ⟨⟨u, rfl, ha⟩, hb⟩)
    · exact ⟨u, y, lookedAt_known.2 (Or.inl h), ha, hb⟩
    · exact ⟨u, x, lookedAt_known.2 (Or.inr ⟨rfl, rfl⟩), ha, hb⟩

theorem seen_known_none : Seen key (log ++ [.known none x]) = Seen key log := by
  funext a b
  refine propext (seen_known.trans ⟨fun h => h.resolve_right ?_, Or.inl⟩)
  rintro ⟨⟨u, hu, -⟩, -⟩
  cases hu

theorem seen_exit : Seen key (log ++ [.exit vertex frame]) = Seen key log := by
  funext a b
  unfold Seen
  simp only [lookedAt_exit]

end Seen

variable [BEq K] [LawfulBEq K] [Hashable K] [LawfulHashable K]

section Fields

omit [LawfulBEq K] [LawfulHashable K]

variable (ledger : Ledger V K) (source target : K)

/-- What a vertex that is left reaches, its parent reaches too. -/
def Ledger.pass (parent : Option K) (vertex : K) : Ledger V K :=
  parent.elim ledger (ledger.reach · vertex)

/-- A vertex that is left completes its component or waits for its leader. -/
def Ledger.close (vertex : K) : Ledger V K :=
  if ledger.isLeader vertex then ledger.complete vertex
  else { ledger with followers := vertex :: ledger.followers }

@[simp] theorem followers_reach : (ledger.reach source target).followers = ledger.followers := by
  unfold Ledger.reach
  split
  · rfl
  · split <;> rfl

@[simp] theorem components_reach : (ledger.reach source target).components = ledger.components := by
  unfold Ledger.reach
  split
  · rfl
  · split <;> rfl

theorem components_pass (parent : Option K) (vertex : K) :
    (ledger.pass parent vertex).components = ledger.components := by
  cases parent with
  | none => rfl
  | some parent => exact components_reach ledger parent vertex

end Fields

/-- The node holds what it should about a discovered vertex. -/
structure Describes (key : V → K) (log : List (Event V)) (low : K → Nat) (done : List K) (v : V)
    (node : Node V) : Prop where
  vertex_eq : node.vertex = v
  index_eq : node.index = rank ((discoveries log).map key) (key v)
  low_eq : node.low = low (key v)
  leads_iff : node.leads = true ↔ node.low = node.index
  loops_iff : node.loops = true ↔ Seen key log (key v) (key v)
  settled_iff : node.settled = true ↔ key v ∈ done

/-- There is a node for every discovered vertex, and it holds what it should. -/
structure Records (key : V → K) (log : List (Event V)) (low : K → Nat) (done : List K)
    (ledger : Ledger V K) : Prop where
  time_eq : ledger.time = (discoveries log).length
  node : ∀ v ∈ discoveries log, ∃ node, ledger.nodes[key v]? = some node ∧
    Describes key log low done v node

namespace Records

variable {log : List (Event V)} {low : K → Nat} {done : List K} {ledger : Ledger V K} {u v x : V}

/-- The ledger records a new vertex. -/
theorem discover (h : Records key log low done ledger) {source : Option V}
    (hnew : key x ∉ (discoveries log).map key) (hdone : ∀ k ∈ done, k ∈ (discoveries log).map key)
    (hseen : ∀ {a b}, Seen key log a b → a ∈ (discoveries log).map key ∧
      b ∈ (discoveries log).map key)
    (hsource : ∀ u, source = some u → key u ∈ (discoveries log).map key) {low' : K → Nat}
    (hlow : ∀ k ∈ (discoveries log).map key, low' k = low k)
    (hself : low' (key x) = ((discoveries log).map key).length + 1) :
    Records key (log ++ [.entry source x]) low' done (ledger.discover (key x) x) := by
  have hkeys : (discoveries (log ++ [.entry source x])).map key = (discoveries log).map key ++
      [key x] := by
    rw [discoveries_entry, List.map_append, List.map_singleton]
  refine ⟨?_, ?_⟩
  · rw [discoveries_entry, List.length_append, ← h.time_eq]
    rfl
  · intro v hv
    rw [discoveries_entry, List.mem_append, List.mem_singleton] at hv
    rcases hv with hv | rfl
    · have hmem : key v ∈ (discoveries log).map key := List.mem_map_of_mem hv
      have hne : key x ≠ key v := fun heq => hnew (heq ▸ hmem)
      obtain ⟨node, hnode, hdescribes⟩ := h.node v hv
      refine ⟨node, ?_, hdescribes.vertex_eq, ?_, ?_, hdescribes.leads_iff, ?_,
        hdescribes.settled_iff⟩
      · show (ledger.nodes.insert (key x) _)[key v]? = some node
        rw [Std.HashMap.getElem?_insert, if_neg (by simpa using hne), hnode]
      · rw [hkeys, rank_concat_of_mem hmem, hdescribes.index_eq]
      · rw [hlow _ hmem, hdescribes.low_eq]
      · rw [hdescribes.loops_iff, seen_entry]
        exact ⟨Or.inl, fun hor => hor.resolve_right fun hnow => hne hnow.2⟩
    · have hrank : ledger.time + 1 =
          rank ((discoveries (log ++ [.entry source v])).map key) (key v) := by
        rw [hkeys, rank_concat_self hnew, List.length_map, h.time_eq]
      refine ⟨_, Std.HashMap.getElem?_insert_self, rfl, hrank, ?_, by simp, ?_, ?_⟩
      · rw [hself, List.length_map, ← h.time_eq]
      · refine ⟨fun hfalse => absurd hfalse Bool.false_ne_true, fun hloop => ?_⟩
        rcases seen_entry.1 hloop with hold | ⟨⟨u, hu, hkey⟩, -⟩
        · exact absurd (hseen hold).1 hnew
        · exact absurd (hkey ▸ hsource u hu) hnew
      · exact ⟨fun hfalse => absurd hfalse Bool.false_ne_true,
          fun hmem => absurd (hdone _ hmem) hnew⟩

omit [LawfulBEq K] [LawfulHashable K] in
/-- The ledger goes on to record what it should if every node does, as long as nothing is
discovered. -/
theorem of_nodes (h : Records key log low done ledger) {log' : List (Event V)} {low' : K → Nat}
    {done' : List K} {ledger' : Ledger V K} (htime : ledger'.time = ledger.time)
    (hlog : discoveries log' = discoveries log)
    (hnode : ∀ v ∈ discoveries log, ∀ node, ledger.nodes[key v]? = some node →
      Describes key log low done v node →
      ∃ node', ledger'.nodes[key v]? = some node' ∧ Describes key log' low' done' v node') :
    Records key log' low' done' ledger' := by
  refine ⟨by rw [htime, hlog, h.time_eq], ?_⟩
  rw [hlog]
  intro v hv
  obtain ⟨node, hget, hdescribes⟩ := h.node v hv
  exact hnode v hv node hget hdescribes

omit [LawfulBEq K] [LawfulHashable K] in
/-- Edges from the roots and the end of a vertex are not recorded. -/
theorem of_seen_eq (h : Records key log low done ledger) {log' : List (Event V)}
    (hlog : discoveries log' = discoveries log) (hseen : Seen key log' = Seen key log) :
    Records key log' low done ledger := by
  refine h.of_nodes rfl hlog ?_
  intro v _ node hget hdescribes
  exact ⟨node, hget, hdescribes.vertex_eq, by rw [hlog]; exact hdescribes.index_eq,
    hdescribes.low_eq, hdescribes.leads_iff, by rw [hseen]; exact hdescribes.loops_iff,
    hdescribes.settled_iff⟩

/-- The ledger records an edge from a vertex to its own canonical form. -/
theorem loop (h : Records key log low done ledger) :
    Records key (log ++ [.known (some u) x]) low done
      (if key u == key x then ledger.loop (key u) else ledger) := by
  refine h.of_nodes ?_ discoveries_known ?_
  · split <;> rfl
  · intro v _ node hget hdescribes
    have hindex : node.index =
        rank ((discoveries (log ++ [.known (some u) x])).map key) (key v) := by
      rw [discoveries_known]
      exact hdescribes.index_eq
    by_cases hv : key u = key v ∧ key x = key v
    · have hux : (key u == key x) = true := beq_iff_eq.2 (hv.1.trans hv.2.symm)
      refine ⟨{ node with loops := true }, ?_, hdescribes.vertex_eq, hindex, hdescribes.low_eq,
        hdescribes.leads_iff, ?_, hdescribes.settled_iff⟩
      · rw [if_pos hux]
        show (ledger.nodes.modify (key u) _)[key v]? = _
        rw [hv.1, Std.HashMap.getElem?_modify_self, hget]
        rfl
      · exact ⟨fun _ => seen_known.2 (Or.inr ⟨⟨u, rfl, hv.1⟩, hv.2⟩), fun _ => rfl⟩
    · refine ⟨node, ?_, hdescribes.vertex_eq, hindex, hdescribes.low_eq, hdescribes.leads_iff, ?_,
        hdescribes.settled_iff⟩
      · split
        · next hux =>
          have hne : (key u == key v) = false := by
            rw [beq_eq_false_iff_ne]
            exact fun huv => hv ⟨huv, (eq_of_beq hux).symm.trans huv⟩
          show (ledger.nodes.modify (key u) _)[key v]? = _
          rw [Std.HashMap.getElem?_modify, hne, if_neg Bool.false_ne_true, hget]
        · exact hget
      · rw [hdescribes.loops_iff, seen_known]
        refine ⟨Or.inl, fun hor => hor.resolve_right ?_⟩
        rintro ⟨⟨w, hw, hwv⟩, hxv⟩
        cases hw
        exact hv ⟨hwv, hxv⟩

/-- The ledger takes over a low value, unless the target is done. -/
theorem reach (h : Records key log low done ledger) (hv : v ∈ discoveries log)
    (hle : low (key u) ≤ rank ((discoveries log).map key) (key u)) :
    ∃ low', (∀ k, k ≠ key u → low' k = low k) ∧
      ((key v ∈ done ∧ low' (key u) = low (key u)) ∨
        (key v ∉ done ∧ low' (key u) = min (low (key u)) (low (key v)))) ∧
      Records key log low' done (ledger.reach (key u) (key v)) := by
  obtain ⟨target, htarget, hdescribes⟩ := h.node v hv
  unfold Ledger.reach
  rw [htarget]
  by_cases hsettled : target.settled = true
  · refine ⟨low, fun _ _ => rfl, Or.inl ⟨hdescribes.settled_iff.1 hsettled, rfl⟩, ?_⟩
    simp only [hsettled, if_true]
    exact h
  · let low' : K → Nat := fun k => if k == key u then min (low (key u)) (low (key v)) else low k
    have hself : low' (key u) = min (low (key u)) (low (key v)) := if_pos (beq_self_eq_true _)
    have hother : ∀ k, k ≠ key u → low' k = low k :=
      fun k hk => if_neg (by simpa using hk)
    refine ⟨low', hother,
      Or.inr ⟨fun hdone => hsettled (hdescribes.settled_iff.2 hdone), hself⟩, ?_⟩
    simp only [hsettled]
    refine h.of_nodes rfl rfl ?_
    intro w _ node hget hnode
    by_cases hwu : key w = key u
    · refine ⟨if target.low < node.low then { node with low := target.low, leads := false }
        else node, ?_, ?_⟩
      · show (ledger.nodes.modify (key u) _)[key w]? = _
        rw [hwu, Std.HashMap.getElem?_modify_self, ← hwu, hget]
        rfl
      · have hlow := hnode.low_eq
        have hindex := hnode.index_eq
        rw [hwu] at hlow hindex
        split
        · next hlt =>
          refine ⟨hnode.vertex_eq, hnode.index_eq, ?_, ?_, hnode.loops_iff, hnode.settled_iff⟩
          · rw [hwu, hself, ← hlow, ← hdescribes.low_eq, Nat.min_eq_right (Nat.le_of_lt hlt)]
          · refine ⟨fun hfalse => absurd hfalse Bool.false_ne_true, fun heq => ?_⟩
            have heq : target.low = node.index := heq
            omega
        · next hlt =>
          refine ⟨hnode.vertex_eq, hnode.index_eq, ?_, hnode.leads_iff, hnode.loops_iff,
            hnode.settled_iff⟩
          rw [hwu, hself, ← hlow, ← hdescribes.low_eq, Nat.min_eq_left (Nat.le_of_not_lt hlt)]
    · refine ⟨node, ?_, hnode.vertex_eq, hnode.index_eq, ?_, hnode.leads_iff, hnode.loops_iff,
        hnode.settled_iff⟩
      · show (ledger.nodes.modify (key u) _)[key w]? = _
        rw [Std.HashMap.getElem?_modify, if_neg (by simpa using fun heq => hwu heq.symm), hget]
      · rw [hother _ hwu]
        exact hnode.low_eq

omit [LawfulBEq K] [LawfulHashable K] in
theorem isLeader_iff (h : Records key log low done ledger) (hv : v ∈ discoveries log) :
    ledger.isLeader (key v) = true ↔ low (key v) = rank ((discoveries log).map key) (key v) := by
  obtain ⟨node, hget, hdescribes⟩ := h.node v hv
  unfold Ledger.isLeader
  rw [hget, ← hdescribes.low_eq, ← hdescribes.index_eq]
  exact hdescribes.leads_iff

/-! ### Completing a component -/

omit [LawfulBEq K] [LawfulHashable K] in
/-- The nodes of discovered vertices, read back. -/
theorem map_vertex_filterMap (h : Records key log low done ledger) {l : List V}
    (hl : ∀ u ∈ l, u ∈ discoveries log) :
    (l.filterMap fun u => ledger.nodes[key u]?).map Node.vertex = l := by
  induction l with
  | nil => rfl
  | cons u l ih =>
    obtain ⟨node, hget, hdescribes⟩ := h.node u (hl u List.mem_cons_self)
    have ih := ih fun w hw => hl w (List.mem_cons_of_mem u hw)
    simp only [List.filterMap_cons, hget, List.map_cons, ih, hdescribes.vertex_eq]

omit [LawfulBEq K] [LawfulHashable K] in
/-- The nodes of discovered vertices tell whether there is a single one without an edge to
itself. -/
theorem trivial_iff (h : Records key log low done ledger) {l : List V}
    (hl : ∀ u ∈ l, u ∈ discoveries log) {nodes : List (Node V)}
    (hnodes : nodes = l.filterMap fun u => ledger.nodes[key u]?) :
    (nodes.length == 1 && !nodes.any Node.loops) = true ↔
      ∃ u, l = [u] ∧ ¬ Seen key log (key u) (key u) := by
  have hlength : nodes.length = l.length := by
    rw [← h.map_vertex_filterMap hl, ← hnodes, List.length_map]
  have hsingle : ∀ u, l = [u] →
      ((nodes.length == 1 && !nodes.any Node.loops) = true ↔ ¬ Seen key log (key u) (key u)) := by
    rintro u rfl
    obtain ⟨node, hget, hdescribes⟩ := h.node u (hl u (List.mem_singleton_self u))
    have hnode : nodes = [node] := by
      simp only [hnodes, List.filterMap_cons, hget, List.filterMap_nil]
    rw [← hdescribes.loops_iff, hnode]
    simp
  constructor
  · intro htrivial
    have hone : l.length = 1 := by
      rw [Bool.and_eq_true, beq_iff_eq] at htrivial
      exact hlength.symm.trans htrivial.1
    obtain ⟨u, hu⟩ := List.length_eq_one_iff.1 hone
    exact ⟨u, hu, (hsingle u hu).1 htrivial⟩
  · rintro ⟨u, hu, hloop⟩
    exact (hsingle u hu).2 hloop

omit [LawfulHashable K] in
/-- Sorted by index, the nodes of some forms come in the order of discovery. -/
theorem mergeSort_nodes (h : Records key log low done ledger)
    (hnodup : ((discoveries log).map key).Nodup) {forms : List K} (hforms : forms.Nodup)
    (hsub : ∀ k ∈ forms, k ∈ (discoveries log).map key) :
    ((forms.filterMap (ledger.nodes[·]?)).mergeSort fun a b => a.index ≤ b.index) =
      ((discoveries log).filter fun u => forms.contains (key u)).filterMap
        fun u => ledger.nodes[key u]? := by
  have hindex : ∀ {u node}, u ∈ discoveries log → ledger.nodes[key u]? = some node →
      node.index = rank ((discoveries log).map key) (key u) := by
    intro u node hu hget
    obtain ⟨node', hget', hdescribes⟩ := h.node u hu
    rw [hget] at hget'
    cases hget'
    exact hdescribes.index_eq
  have hsorted : (discoveries log).Pairwise fun a b =>
      rank ((discoveries log).map key) (key a) < rank ((discoveries log).map key) (key b) := by
    have hsorted := pairwise_rank hnodup
    rw [List.pairwise_map] at hsorted
    exact hsorted
  have hperm : forms.Perm (((discoveries log).filter fun u => forms.contains (key u)).map key) := by
    refine (List.perm_ext_iff_of_nodup hforms ?_).2 fun k => ?_
    · exact hnodup.sublist (List.filter_sublist.map key)
    · rw [List.mem_map]
      constructor
      · intro hk
        obtain ⟨u, hu, rfl⟩ := List.mem_map.1 (hsub k hk)
        exact ⟨u, List.mem_filter.2 ⟨hu, by simpa using hk⟩, rfl⟩
      · rintro ⟨u, hu, rfl⟩
        simpa using (List.mem_filter.1 hu).2
  let le (a b : Node V) : Bool := decide (a.index ≤ b.index)
  have hleft : ((forms.filterMap (ledger.nodes[·]?)).mergeSort le).Pairwise (le · · = true) := by
    refine List.pairwise_mergeSort ?_ ?_ _
    · intro a b c hab hbc
      exact decide_eq_true (Nat.le_trans (of_decide_eq_true hab) (of_decide_eq_true hbc))
    · intro a b
      simpa [le] using Nat.le_total a.index b.index
  have hright : (((discoveries log).filter fun u => forms.contains (key u)).filterMap
      fun u => ledger.nodes[key u]?).Pairwise (le · · = true) := by
    rw [List.pairwise_filterMap]
    refine (hsorted.sublist List.filter_sublist).imp_of_mem ?_
    intro u w hu hw hlt a ha b hb
    refine decide_eq_true ?_
    rw [hindex (List.mem_filter.1 hu).1 ha, hindex (List.mem_filter.1 hw).1 hb]
    exact Nat.le_of_lt hlt
  refine List.Perm.eq_of_pairwise ?_ hleft hright ?_
  · -- nodes with the same index are kept under the same form
    intro a b ha hb hab hba
    obtain ⟨k, hk, hka⟩ := List.mem_filterMap.1 ((List.mergeSort_perm _ _).mem_iff.1 ha)
    obtain ⟨u, hu, rfl⟩ := List.mem_map.1 (hsub k hk)
    obtain ⟨w, hw, hwb⟩ := List.mem_filterMap.1 hb
    have heq := Nat.le_antisymm (of_decide_eq_true hab) (of_decide_eq_true hba)
    rw [hindex hu hka, hindex (List.mem_filter.1 hw).1 hwb] at heq
    rw [rank_inj (List.mem_map_of_mem hu) heq, hwb] at hka
    exact (Option.some.inj hka).symm
  · refine (List.mergeSort_perm _ _).trans ?_
    have hfilter := hperm.filterMap (ledger.nodes[·]?)
    rw [List.filterMap_map] at hfilter
    exact hfilter

end Records

/-- Settling forms one after the other settles the nodes of all of them. -/
theorem getElem?_foldl_settle (forms : List K) (nodes : Std.HashMap K (Node V)) (k : K) :
    (forms.foldl (fun nodes key => nodes.modify key fun node => { node with settled := true })
      nodes)[k]? =
      if k ∈ forms then nodes[k]?.map (fun node => { node with settled := true })
      else nodes[k]? := by
  induction forms generalizing nodes with
  | nil => simp
  | cons first forms ih =>
    rw [List.foldl_cons, ih, Std.HashMap.getElem?_modify]
    by_cases hfirst : first = k
    · subst hfirst
      by_cases hforms : first ∈ forms
      · simp only [hforms, if_true, beq_self_eq_true, List.mem_cons, or_true, Option.map_map]
        rfl
      · simp [hforms]
    · have hne : (first == k) = false := beq_eq_false_iff_ne.2 hfirst
      simp [hne, Ne.symm hfirst]

namespace Records

variable {log : List (Event V)} {low : K → Nat} {done : List K} {ledger : Ledger V K} {v : V}

omit [LawfulBEq K] [LawfulHashable K] in
theorem follows_eq (h : Records key log low done ledger) (bound : Nat) {k : K}
    (hk : k ∈ (discoveries log).map key) : ledger.follows bound k = decide (bound ≤ low k) := by
  obtain ⟨u, hu, rfl⟩ := List.mem_map.1 hk
  obtain ⟨node, hget, hdescribes⟩ := h.node u hu
  unfold Ledger.follows
  rw [hget, ← hdescribes.low_eq]

omit [LawfulBEq K] [LawfulHashable K] in
/-- Completing a component, with the low values in place of the table. -/
theorem complete_eq (h : Records key log low done ledger) (hv : v ∈ discoveries log)
    (hsub : ∀ k ∈ ledger.followers, k ∈ (discoveries log).map key) :
    let forms := Chart.members low ledger.followers (key v)
    let nodes := (forms.filterMap (ledger.nodes[·]?)).mergeSort fun a b => a.index ≤ b.index
    ledger.complete (key v) =
      { time := ledger.time
        nodes := forms.foldl (fun nodes key =>
          nodes.modify key fun node => { node with settled := true }) ledger.nodes
        followers := Chart.remaining low ledger.followers (key v)
        components := ledger.components.push
          { vertices := nodes.map Node.vertex
            trivial := nodes.length == 1 && !nodes.any Node.loops } } := by
  obtain ⟨node, hget, hdescribes⟩ := h.node v hv
  have hfollows : ∀ l : List K, (∀ k ∈ l, k ∈ (discoveries log).map key) →
      l.takeWhile (ledger.follows node.low) = l.takeWhile (fun k => decide (low (key v) ≤ low k)) ∧
      l.dropWhile (ledger.follows node.low) =
        l.dropWhile (fun k => decide (low (key v) ≤ low k)) := by
    intro l hl
    induction l with
    | nil => exact ⟨rfl, rfl⟩
    | cons k l ih =>
      have ih := ih fun a ha => hl a (List.mem_cons_of_mem k ha)
      rw [List.takeWhile_cons, List.takeWhile_cons, List.dropWhile_cons, List.dropWhile_cons,
        h.follows_eq node.low (hl k List.mem_cons_self), hdescribes.low_eq]
      rw [hdescribes.low_eq] at ih
      rw [ih.1, ih.2]
      exact ⟨rfl, rfl⟩
  obtain ⟨htake, hdrop⟩ := hfollows ledger.followers hsub
  intro forms nodes
  unfold Ledger.complete
  rw [hget]
  simp only [htake, hdrop]
  rfl

/-- Completing a component adds the vertices of its members in the order of their discovery. The
component is trivial if there is a single one and it has no edge to itself. -/
theorem complete (h : Records key log low done ledger) (hnodup : ((discoveries log).map key).Nodup)
    (hv : v ∈ discoveries log) (hfollowers : ledger.followers.Nodup)
    (hsub : ∀ k ∈ ledger.followers, k ∈ (discoveries log).map key)
    (hnot : key v ∉ ledger.followers) :
    let forms := Chart.members low ledger.followers (key v)
    ∃ component,
      component.vertices = (discoveries log).filter (fun u => forms.contains (key u)) ∧
      (component.trivial = true ↔ ∃ u, component.vertices = [u] ∧ ¬ Seen key log (key u) (key u)) ∧
      (ledger.complete (key v)).components.toList = ledger.components.toList ++ [component] ∧
      (ledger.complete (key v)).followers = Chart.remaining low ledger.followers (key v) ∧
      Records key log low (done ++ forms) (ledger.complete (key v)) := by
  intro forms
  have htake : (ledger.followers.takeWhile fun k => decide (low (key v) ≤ low k)).Sublist
      ledger.followers := List.takeWhile_sublist _
  have hforms : forms.Nodup :=
    List.nodup_cons.2 ⟨fun hmem => hnot (htake.subset hmem), hfollowers.sublist htake⟩
  have hknown : ∀ k ∈ forms, k ∈ (discoveries log).map key := by
    intro k hk
    rcases List.mem_cons.1 hk with rfl | hk
    · exact List.mem_map_of_mem hv
    · exact hsub k (htake.subset hk)
  have hsorted := h.mergeSort_nodes hnodup hforms hknown
  have hselected : ∀ u ∈ (discoveries log).filter (fun u => forms.contains (key u)),
      u ∈ discoveries log := fun u hu => (List.mem_filter.1 hu).1
  have hvertices := h.map_vertex_filterMap hselected
  rw [h.complete_eq hv hsub]
  refine ⟨_, ?_, ?_, Array.toList_push, rfl, ?_⟩
  · rw [hsorted]
    exact hvertices
  · rw [hsorted, hvertices]
    exact h.trivial_iff hselected rfl
  · refine h.of_nodes rfl rfl ?_
    intro u hu node hget hdescribes
    by_cases hmem : key u ∈ forms
    · refine ⟨{ node with settled := true }, ?_, hdescribes.vertex_eq, hdescribes.index_eq,
        hdescribes.low_eq, hdescribes.leads_iff, hdescribes.loops_iff, ?_⟩
      · show (forms.foldl _ ledger.nodes)[key u]? = _
        rw [getElem?_foldl_settle, if_pos hmem, hget]
        rfl
      · exact ⟨fun _ => List.mem_append_right _ hmem, fun _ => rfl⟩
    · refine ⟨node, ?_, hdescribes.vertex_eq, hdescribes.index_eq, hdescribes.low_eq,
        hdescribes.leads_iff, hdescribes.loops_iff, ?_⟩
      · show (forms.foldl _ ledger.nodes)[key u]? = _
        rw [getElem?_foldl_settle, if_neg hmem, hget]
      · rw [hdescribes.settled_iff, List.mem_append]
        exact ⟨Or.inl, fun hor => hor.resolve_right hmem⟩

end Records

end StateExplorer.Components
