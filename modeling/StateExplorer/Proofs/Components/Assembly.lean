import StateExplorer.Proofs.Components.Ledger
import StateExplorer.Proofs.Visiting

/-!
# Completed components

While the search of a decomposition goes on, the completed components are strongly connected, and
their edges lead into components completed no later (`Assembled`). Together with the low values of
the vertices that wait for their leader (`Chart`) and the table that holds them (`Records`), this is
kept by every call of the search (`bookkeeper_upholds`).
-/

namespace StateExplorer.Components

open Relation DepthSearch Event

variable {V K : Type} {graph : StateGraph Id V} {key : V → K}

/-- What holds of the completed components while the search goes on. -/
structure Assembled (graph : StateGraph Id V) (key : V → K) (found : List V) (seen : K → K → Prop)
    (components : List (Component V)) (done : List K) : Prop where
  sublist : ∀ c ∈ components, c.vertices.Sublist found
  nonempty : ∀ c ∈ components, c.vertices ≠ []
  nodup : (components.flatMap Component.vertices).Nodup
  done_iff : ∀ v ∈ found, key v ∈ done ↔ v ∈ components.flatMap Component.vertices
  strong : ∀ c ∈ components, ∀ u ∈ c.vertices, ∀ v ∈ c.vertices, ReflTransGen seen (key u) (key v)
  closed : ∀ {i : Nat} {c : Component V}, components[i]? = some c → ∀ u ∈ c.vertices,
    ∀ x ∈ graph.after (some u), ∃ (j : Nat) (c' : Component V), j ≤ i ∧ components[j]? = some c' ∧
      ∃ v ∈ c'.vertices, key v = key x
  trivial_iff : ∀ c ∈ components, c.trivial = true ↔
    ∃ u, c.vertices = [u] ∧ ¬ ∃ x ∈ graph.after (some u), key x = key u

namespace Assembled

variable {found found' : List V} {seen seen' : K → K → Prop} {components : List (Component V)}
  {done : List K}

theorem nil (graph : StateGraph Id V) (key : V → K) (seen : K → K → Prop) :
    Assembled graph key [] seen [] [] := by
  constructor <;> simp

theorem mem_found (h : Assembled graph key found seen components done) {v : V}
    (hv : v ∈ components.flatMap Component.vertices) : v ∈ found := by
  obtain ⟨c, hc, hvc⟩ := List.mem_flatMap.1 hv
  exact (h.sublist c hc).subset hvc

/-- Components stay completed when the search looks at an edge or discovers a vertex. -/
theorem mono (h : Assembled graph key found seen components done)
    (hseen : ∀ {a b}, seen a b → seen' a b) (hsub : found.Sublist found')
    (hnew : ∀ v ∈ found', v ∈ found ∨ (key v ∉ done ∧ v ∉ found)) :
    Assembled graph key found' seen' components done := by
  refine ⟨fun c hc => (h.sublist c hc).trans hsub, h.nonempty, h.nodup, ?_, ?_, h.closed,
    h.trivial_iff⟩
  · intro v hv
    rcases hnew v hv with hold | ⟨hdone, hold⟩
    · exact h.done_iff v hold
    · exact ⟨fun hmem => absurd hmem hdone, fun hmem => absurd (h.mem_found hmem) hold⟩
  · intro c hc u hu v hv
    exact ReflTransGen.mono (fun _ _ => hseen) _ _ (h.strong c hc u hu v hv)

/-- A completed component is added. -/
theorem push [BEq K] [LawfulBEq K] (h : Assembled graph key found seen components done)
    (hfound : found.Nodup) {c : Component V} {forms : List K} {leader : V}
    (hleader : leader ∈ found) (hforms : key leader ∈ forms) (hactive : ∀ k ∈ forms, k ∉ done)
    (hvertices : c.vertices = found.filter fun u => forms.contains (key u))
    (hreach : ∀ a ∈ forms, ∀ b ∈ forms, ReflTransGen seen a b)
    (hclosed : ∀ u ∈ found, key u ∈ forms → ∀ x ∈ graph.after (some u),
      ∃ v ∈ found, key v = key x ∧ (key v ∈ done ∨ key v ∈ forms))
    (htrivial : c.trivial = true ↔
      ∃ u, c.vertices = [u] ∧ ¬ ∃ x ∈ graph.after (some u), key x = key u) :
    Assembled graph key found seen (components ++ [c]) (done ++ forms) := by
  have hmem : ∀ {v}, v ∈ c.vertices ↔ v ∈ found ∧ key v ∈ forms := by
    intro v
    rw [hvertices, List.mem_filter, List.contains_iff_mem]
  have hflat : (components ++ [c]).flatMap Component.vertices =
      components.flatMap Component.vertices ++ c.vertices := by
    rw [List.flatMap_append, List.flatMap_singleton]
  have heach : ∀ {p : Component V → Prop}, (∀ c' ∈ components, p c') → p c →
      ∀ c' ∈ components ++ [c], p c' :=
    fun hold hnew => List.forall_mem_append.2 ⟨hold, List.forall_mem_singleton.2 hnew⟩
  refine ⟨heach h.sublist ?_, heach h.nonempty ?_, ?_, ?_, heach h.strong ?_, ?_,
    heach h.trivial_iff htrivial⟩
  · rw [hvertices]
    exact List.filter_sublist
  · exact List.ne_nil_of_mem (hmem.2 ⟨hleader, hforms⟩)
  · rw [hflat, List.nodup_append]
    refine ⟨h.nodup, by rw [hvertices]; exact hfound.sublist List.filter_sublist, ?_⟩
    rintro a ha b hb rfl
    exact hactive _ (hmem.1 hb).2 ((h.done_iff a (h.mem_found ha)).2 ha)
  · intro v hv
    rw [hflat, List.mem_append, List.mem_append, h.done_iff v hv, hmem]
    exact or_congr_right ⟨fun hk => ⟨hv, hk⟩, fun hk => hk.2⟩
  · intro u hu v hv
    exact hreach _ (hmem.1 hu).2 _ (hmem.1 hv).2
  · intro i c' hi u hu x hx
    rcases Nat.lt_or_ge i components.length with hlt | hge
    · rw [List.getElem?_append_left hlt] at hi
      obtain ⟨j, c'', hj, hget, v, hv, hkey⟩ := h.closed hi u hu x hx
      exact ⟨j, c'', hj, by rw [List.getElem?_append_left (by omega), hget], v, hv, hkey⟩
    · -- the edges of the new component lead into it or into an earlier one
      have hlast : components.length = i ∧ c = c' := by
        rw [List.getElem?_append_right hge, List.getElem?_singleton] at hi
        split at hi
        · next heq => exact ⟨by omega, Option.some.inj hi⟩
        · cases hi
      obtain ⟨rfl, rfl⟩ := hlast
      obtain ⟨v, hv, hkey, hdone | hforms'⟩ := hclosed u (hmem.1 hu).1 (hmem.1 hu).2 x hx
      · obtain ⟨c', hc', hvc⟩ := List.mem_flatMap.1 ((h.done_iff v hv).1 hdone)
        obtain ⟨j, hj, hget⟩ := List.getElem_of_mem hc'
        refine ⟨j, c', Nat.le_of_lt hj, ?_, v, hvc, hkey⟩
        rw [List.getElem?_append_left hj, List.getElem?_eq_getElem hj, hget]
      · exact ⟨components.length, c, Nat.le_refl _, by simp, v, hmem.2 ⟨hv, hforms'⟩, hkey⟩

end Assembled

/-! ## The search -/

variable [BEq K] [LawfulBEq K] [Hashable K] [LawfulHashable K]

section Left

variable {log : List (Event V)} {search : DepthSearch V (Std.HashSet K)}

/-- All edges of a vertex that the search has left have been looked at. -/
theorem seen_iff_of_left
    (explores : Explores graph key (fresh graph (∅ : Std.HashSet K) none) log search) {u : V}
    (hu : u ∈ discoveries log) (left : u ∉ search.path) {k : K} :
    Seen key log (key u) k ↔ ∃ x ∈ graph.after (some u), key x = k := by
  constructor
  · rintro ⟨w, x, hlooked, hwu, hxk⟩
    obtain ⟨hmem, hopen⟩ := explores.lookedAt_mem hlooked
    have hnodup := (explores.nodup_discoveries (HashSet.faithful ∅)).1
    rw [List.inj_on_of_nodup_map hnodup hopen hu hwu] at hmem
    exact ⟨x, hmem, hxk⟩
  · rintro ⟨x, hx, hxk⟩
    have hopen : Opened log (some u) := hu
    rcases explores.lookedAt_or_pending hopen hx with hlooked | hpending
    · exact ⟨u, x, hlooked, rfl, hxk⟩
    · exact absurd hpending.mem_path left

end Left

/-- What holds while the search of a decomposition goes on. -/
def Ongoing (graph : StateGraph Id V) (key : V → K) (log : List (Event V))
    (search : DepthSearch V (Std.HashSet K)) (ledger : Ledger V K) : Prop :=
  ∃ low done,
    Chart (Seen key log) ((discoveries log).map key)
      (search.path.map key) low ledger.followers done ∧
    Records key log low done ledger ∧
    Assembled graph key (discoveries log) (Seen key log) ledger.components.toList done

namespace Ongoing

variable {log : List (Event V)} {search : DepthSearch V (Std.HashSet K)} {ledger : Ledger V K}
  {top : Frame V} {rest : List (Frame V)} {u target vertex : V}

omit [LawfulBEq K] [LawfulHashable K] in
theorem start : Ongoing graph key [] (fresh graph (∅ : Std.HashSet K) none) {} := by
  have hseen : Seen key ([] : List (Event V)) = fun _ _ => False := by
    funext a b
    exact propext ⟨not_seen_nil, False.elim⟩
  refine ⟨fun _ => 0, [], ?_, ⟨rfl, fun v hv => by cases hv⟩, Assembled.nil graph key _⟩
  rw [hseen]
  exact Chart.empty _

theorem enter (h : Ongoing graph key log search ledger)
    (explores : Explores graph key (fresh graph (∅ : Std.HashSet K) none) log search)
    (items : search.stack.items = top :: rest)
    (new : Store.knows search.known (key target) = false) :
    Ongoing graph key (log ++ [.entry top.vertex target])
      ((search.advance.learn (key target)).pushed graph target)
        (ledger.discover (key target) target) := by
  obtain ⟨low, done, chart, records, assembled⟩ := h
  have hnew : key target ∉ (discoveries log).map key := by
    intro hmem
    rw [(explores.knows_iff (HashSet.faithful ∅) _).2 (Or.inr hmem)] at new
    cases new
  have hlast : (search.path.map key).getLast? = top.vertex.map key := by
    rw [List.getLast?_map, explores.grounded.getLast?_path items]
  let low' : K → Nat :=
    fun k => if k == key target then ((discoveries log).map key).length + 1 else low k
  have hself : low' (key target) = ((discoveries log).map key).length + 1 :=
    if_pos (beq_self_eq_true _)
  have hother : ∀ k ∈ (discoveries log).map key, low' k = low k := by
    intro k hk
    refine if_neg ?_
    rw [beq_iff_eq]
    exact fun heq => hnew (heq ▸ hk)
  have hsource : ∀ s, top.vertex = some s → key s ∈ (discoveries log).map key := by
    intro s hs
    have hopen := explores.opened_top items
    rw [hs] at hopen
    exact List.mem_map_of_mem hopen
  refine ⟨low', done, ?_, records.discover hnew chart.done_mem chart.seen_mem
    hsource hother hself, ?_⟩
  · rw [path_pushed, path_learn, path_advance, discoveries_entry, List.map_append, List.map_append,
      List.map_singleton]
    refine chart.enter hnew (fun hab => seen_entry.2 (Or.inl hab)) ?_ ?_ hother hself
    · intro a b hab
      rcases seen_entry.1 hab with hold | ⟨⟨s, hs, rfl⟩, rfl⟩
      · exact Or.inl hold
      · exact Or.inr ⟨by rw [hlast, hs, Option.map_some], rfl⟩
    · intro a ha
      rw [hlast, Option.map_eq_some_iff] at ha
      obtain ⟨s, hs, hsa⟩ := ha
      exact seen_entry.2 (Or.inr ⟨⟨s, hs, hsa⟩, rfl⟩)
  · rw [discoveries_entry]
    refine assembled.mono (fun hab => seen_entry.2 (Or.inl hab)) (List.sublist_append_left _ _) ?_
    intro v hv
    rw [List.mem_append, List.mem_singleton] at hv
    rcases hv with hv | rfl
    · exact Or.inl hv
    · exact Or.inr ⟨fun hdone => hnew (chart.done_mem _ hdone),
        fun hmem => hnew (List.mem_map_of_mem hmem)⟩

/-- An edge of the current vertex to a known form is taken down. -/
theorem revisit (h : Ongoing graph key log search ledger)
    (explores : Explores graph key (fresh graph (∅ : Std.HashSet K) none) log search)
    (items : search.stack.items = top :: rest) (hu : top.vertex = some u)
    (old : Store.knows search.known (key target) = true) :
    Ongoing graph key (log ++ [.known (some u) target]) search.advance
      ((if key u == key target then ledger.loop (key u) else ledger).reach (key u)
        (key target)) := by
  obtain ⟨low, done, chart, records, assembled⟩ := h
  have hlast := explores.grounded.getLast?_path items
  rw [hu] at hlast
  have hstack : key u ∈ search.path.map key := List.mem_map_of_mem (List.mem_of_getLast? hlast)
  have hmem : key target ∈ (discoveries log).map key := by
    rcases (explores.knows_iff (HashSet.faithful ∅) _).1 old with hknown | hfound
    · rw [HashSet.knows_empty] at hknown
      cases hknown
    · exact hfound
  obtain ⟨d, hd, hdt⟩ := List.mem_map.1 hmem
  have hseen : ∀ {a b}, Seen key log a b → Seen key (log ++ [.known (some u) target]) a b :=
    fun hab => seen_known.2 (Or.inl hab)
  obtain ⟨low', hother, hself, records'⟩ :=
    (records.loop (u := u) (x := target)).reach (v := d) (by rwa [discoveries_known])
      (by rw [discoveries_known]; exact chart.low_le _ (chart.stack_mem hstack))
  rw [hdt] at hself records'
  refine ⟨low', done, ?_, records', ?_⟩
  · rw [path_advance, discoveries_known, followers_reach]
    have hfollowers : (if key u == key target then ledger.loop (key u) else ledger).followers =
        ledger.followers := by split <;> rfl
    rw [hfollowers]
    refine chart.reach hstack hmem hseen ?_ ?_ hother hself
    · intro a b hab
      rcases seen_known.1 hab with hold | ⟨⟨s, hs, rfl⟩, rfl⟩
      · exact Or.inl hold
      · cases hs
        exact Or.inr ⟨rfl, rfl⟩
    · exact .single (seen_known.2 (Or.inr ⟨⟨u, rfl, rfl⟩, rfl⟩))
  · rw [discoveries_known, components_reach]
    have hcomponents : (if key u == key target then ledger.loop (key u) else ledger).components =
        ledger.components := by split <;> rfl
    rw [hcomponents]
    exact assembled.mono hseen (List.Sublist.refl _) fun v hv => Or.inl hv

/-- The parent of a vertex that is left takes over its low value. -/
theorem pass {path : List V} {low : K → Nat} {done : List K}
    (chart : Chart (Seen key log) ((discoveries log).map key) (path.map key ++ [key vertex]) low
      ledger.followers done)
    (records : Records key log low done ledger) (hvertex : vertex ∈ discoveries log) :
    ∃ low',
      Chart (Seen key log) ((discoveries log).map key) (path.map key ++ [key vertex]) low'
        (ledger.pass (path.getLast?.map key) (key vertex)).followers done ∧
      Records key log low' done (ledger.pass (path.getLast?.map key) (key vertex)) ∧
      ∀ p, (path.map key).getLast? = some p → low' p ≤ low' (key vertex) := by
  cases hparent : path.getLast? with
  | none =>
    refine ⟨low, chart, records, ?_⟩
    intro p hp
    rw [List.getLast?_map, hparent] at hp
    cases hp
  | some parent =>
    have hmem : key parent ∈ path.map key := List.mem_map_of_mem (List.mem_of_getLast? hparent)
    have hstack : key parent ∈ path.map key ++ [key vertex] := List.mem_append_left _ hmem
    have hlt := chart.rank_lt_last hmem
    have hactive := chart.stack_active (key vertex) (by simp)
    have hvmem : key vertex ∈ (discoveries log).map key := List.mem_map_of_mem hvertex
    obtain ⟨low', hother, hself, records'⟩ :=
      records.reach (u := parent) hvertex (chart.low_le _ (chart.stack_mem hstack))
    refine ⟨low', ?_, records', ?_⟩
    · show Chart _ _ _ _ (ledger.reach (key parent) (key vertex)).followers done
      rw [followers_reach]
      exact chart.reach hstack hvmem id Or.inl
        (chart.reaches _ hstack _ hvmem (Nat.le_of_lt hlt)) hother hself
    · intro p hp
      rw [List.getLast?_map, hparent, Option.map_some, Option.some.injEq] at hp
      have hne : key vertex ≠ key parent := fun heq => Nat.lt_irrefl _ (heq ▸ hlt)
      rw [← hp, hother _ hne, (hself.resolve_left fun hdone => hactive hdone.1).2]
      exact Nat.min_le_right _ _

/-- A leader that is left completes its component. -/
theorem leave_leader {low : K → Nat} {done : List K}
    (chart : Chart (Seen key log) ((discoveries log).map key)
      (search.pop.path.map key ++ [key vertex]) low ledger.followers done)
    (records : Records key log low done ledger)
    (assembled : Assembled graph key (discoveries log) (Seen key log) ledger.components.toList done)
    (explores : Explores graph key (fresh graph (∅ : Std.HashSet K) none)
      (log ++ [.exit vertex top]) search.pop)
    (hvertex : vertex ∈ discoveries log)
    (leads : low (key vertex) = rank ((discoveries log).map key) (key vertex)) :
    Ongoing graph key (log ++ [.exit vertex top]) search.pop (ledger.complete (key vertex)) := by
  have hfollowers : ∀ k ∈ ledger.followers, k ∈ (discoveries log).map key :=
    fun k hk => ((chart.followers_iff k).1 hk).1
  have hnot : key vertex ∉ ledger.followers :=
    fun hmem => ((chart.followers_iff _).1 hmem).2.2 (by simp)
  obtain ⟨component, hvertices, htrivial, hcomponents, hremaining, records'⟩ :=
    records.complete chart.nodup hvertex chart.followers_nodup hfollowers hnot
  have chart' := chart.leave_leader leads
  -- members are not on the stack any more, so all their edges have been looked at
  have hseen : ∀ {u k}, u ∈ discoveries log →
      key u ∈ Chart.members low ledger.followers (key vertex) →
      (Seen key log (key u) k ↔ ∃ x ∈ graph.after (some u), key x = k) := by
    intro u k hu hmem
    have hleft : u ∉ search.pop.path := fun hpath =>
      chart'.stack_active _ (List.mem_map_of_mem hpath) (List.mem_append_right _ hmem)
    have h := seen_iff_of_left explores (by rwa [discoveries_exit]) hleft (k := k)
    rwa [seen_exit] at h
  refine ⟨low, done ++ Chart.members low ledger.followers (key vertex), ?_, ?_, ?_⟩
  · rw [seen_exit, discoveries_exit, hremaining]
    exact chart'
  · exact records'.of_seen_eq discoveries_exit seen_exit
  · rw [seen_exit, discoveries_exit, hcomponents]
    refine assembled.push chart.nodup.of_map hvertex (List.mem_cons_self ..) ?_ hvertices ?_ ?_ ?_
    · exact fun k hk => ((chart.mem_members_iff leads).1 hk).2.1
    · exact fun a ha b hb => chart.members_reach leads ha hb
    · intro u hu hmem x hx
      have hedge : Seen key log (key u) (key x) := (hseen hu hmem).2 ⟨x, hx, rfl⟩
      obtain ⟨v, hv, hvx⟩ := List.mem_map.1 (chart.seen_mem hedge).2
      exact ⟨v, hv, hvx, hvx ▸ chart.members_closed leads hmem hedge⟩
    · rw [htrivial]
      refine exists_congr fun u => and_congr_right fun hu => not_congr ?_
      have hmem : u ∈ component.vertices := by rw [hu]; exact List.mem_singleton_self u
      rw [hvertices, List.mem_filter, List.contains_iff_mem] at hmem
      exact hseen hmem.1 hmem.2

/-- A vertex that is left completes its component or waits for its leader. -/
theorem leave (h : Ongoing graph key log search ledger)
    (explores : Explores graph key (fresh graph (∅ : Std.HashSet K) none) log search)
    (items : search.stack.items = top :: rest) (offer : search.offer top = none)
    (hv : top.vertex = some vertex) :
    Ongoing graph key (log ++ [.exit vertex top]) search.pop
      ((ledger.pass (search.pop.path.getLast?.map key) (key vertex)).close (key vertex)) := by
  obtain ⟨low, done, chart, records, assembled⟩ := h
  have hpath : search.path = search.pop.path ++ [vertex] := by
    rw [path_of_items items, hv, Option.toList_some]
  rw [hpath, List.map_append, List.map_singleton] at chart
  have hvertex : vertex ∈ discoveries log := explores.path_sublist.subset (by simp [hpath])
  have explores' := explores.step (.leave items offer hv)
  obtain ⟨low, chart, records, hparent⟩ := pass chart records hvertex
  rw [← components_pass ledger (search.pop.path.getLast?.map key) (key vertex)] at assembled
  generalize ledger.pass (search.pop.path.getLast?.map key) (key vertex) = passed at *
  unfold Ledger.close
  split
  · next hleader =>
    exact leave_leader chart records assembled explores' hvertex
      ((records.isLeader_iff hvertex).1 hleader)
  · next hleader =>
    have hfollows : low (key vertex) ≠ rank ((discoveries log).map key) (key vertex) :=
      fun heq => hleader ((records.isLeader_iff hvertex).2 heq)
    have waiting : Records key log low done
        { passed with followers := key vertex :: passed.followers } :=
      ⟨records.time_eq, records.node⟩
    refine ⟨low, done, ?_, waiting.of_seen_eq discoveries_exit seen_exit, ?_⟩
    · rw [seen_exit, discoveries_exit]
      exact chart.leave_follower hfollows hparent
    · rw [seen_exit, discoveries_exit]
      exact assembled

end Ongoing

/-! ## The visitor -/

section Visitor

variable {m : Type → Type} [Monad m] [MonadExceptOf Fault m] [Returning m] [Journal m] [Render V]

omit [LawfulBEq K] [LawfulHashable K] in
theorem bookkeeper_leave_returns {vertex : V} {top : Frame V}
    {search : DepthSearch V (Std.HashSet K)} {ledger ledger' : Ledger V K} {signal : Signal}
    (told : Returns
      ((bookkeeper (graph.under key : StateSpace m V K)).leave vertex top search ledger)
      (signal, ledger')) :
    signal = .proceed ∧
      ledger' = (ledger.pass (search.current.map key) (key vertex)).close (key vertex) := by
  -- the rest of the call, once the parent has been told
  have hclose : ∀ passed : Ledger V K,
      Returns (if passed.isLeader (key vertex) then
          Journal.trace (fun _ => s!"{render vertex} completes a component") >>= fun _ =>
            (pure (.proceed, passed.complete (key vertex)) : m (Signal × Ledger V K))
        else pure (.proceed, { passed with followers := key vertex :: passed.followers }))
        (signal, ledger') →
      signal = .proceed ∧ ledger' = passed.close (key vertex) := by
    intro passed told
    unfold Ledger.close
    split at told
    · next hleader =>
      cases Returning.of_pure (Returning.of_seq told)
      exact ⟨rfl, (if_pos hleader).symm⟩
    · next hleader =>
      cases Returning.of_pure told
      exact ⟨rfl, (if_neg hleader).symm⟩
  have told := Returning.of_pure_bind told
  cases hparent : search.current with
  | none =>
    rw [hparent] at told
    have told := Returning.of_pure_bind told
    exact hclose _ told
  | some parent =>
    rw [hparent] at told
    have told := Returning.of_pure_bind told
    have told := Returning.of_pure_bind told
    exact hclose _ told

theorem bookkeeper_upholds :
    Upholds (m := m) graph key (fresh graph (∅ : Std.HashSet K) none) (bookkeeper (graph.under key))
      (Ongoing graph key) (fun _ _ => False) where
  enter := by
    intro log search ledger top rest target signal ledger' explores inv items offer new told
    have told := Returning.of_pure_bind told
    cases Returning.of_pure told
    exact inv.enter explores items new
  revisit := by
    intro log search ledger top rest target signal ledger' explores inv items offer old told
    cases hu : top.vertex with
    | none =>
      rw [hu] at told
      cases Returning.of_pure told
      obtain ⟨low, done, chart, records, assembled⟩ := inv
      refine ⟨low, done, ?_, records.of_seen_eq discoveries_known seen_known_none, ?_⟩
      · rw [seen_known_none, discoveries_known, path_advance]
        exact chart
      · rw [seen_known_none, discoveries_known]
        exact assembled
    | some u =>
      rw [hu] at told
      have told := Returning.of_pure_bind told
      have told := Returning.of_pure_bind told
      cases Returning.of_pure told
      exact inv.revisit explores items hu old
  leave := by
    intro log search ledger top rest vertex signal ledger' explores inv items offer hv told
    obtain ⟨rfl, rfl⟩ := bookkeeper_leave_returns told
    rw [(explores.grounded.pop items).current_eq]
    exact inv.leave explores items offer hv
  finish := by
    intro log search ledger top rest explores inv items offer hv
    have hpath := path_of_items items
    rw [hv, Option.toList_none, List.append_nil] at hpath
    unfold Ongoing
    rw [← hpath]
    exact inv

end Visitor

end StateExplorer.Components
