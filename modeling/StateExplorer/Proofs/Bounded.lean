import StateExplorer.Proofs.Exploration
import StateExplorer.Proofs.Routes

/-!
# Searches with a depth bound

A depth-first search with a bound enters a vertex only while its path leaves room for it. So all
that it discovers lies within the bound (`Explores.within`). The converse fails: a vertex that is
first met at the end of a path as long as the bound allows is dropped before its neighbours are
read, and is passed over when it is met again on a shorter path. Nothing else can hide a vertex
(`Explores.lookedAt_or_pending_or_full`), and so everything within the bound is discovered if no
vertex with a shorter path is met like that (`Explores.mem_of_within`). This holds of graphs that
are `Unobstructed`, and in particular of graphs without sharing.
-/

namespace StateExplorer

open DepthSearch Event Relation

/-! ## Paths of a given length -/

namespace StateGraph

variable {V : Type} {graph : StateGraph Id V} {v : V} {l : List V} {limit : Nat}

/-- Some path from a root to `v` has at most as many vertices as the bound allows. -/
def Within (graph : StateGraph Id V) (bound : Option Nat) (v : V) : Prop :=
  ∃ before, graph.Walk none (before ++ [v]) ∧ ∀ limit ∈ bound, before.length < limit

/-- A vertex with a path of fewer vertices than the limit has no path without repetitions that is
exactly as long as the limit. -/
def Unobstructed (graph : StateGraph Id V) (limit : Nat) : Prop :=
  ∀ v before detour, graph.Walk none (before ++ [v]) → before.length + 1 < limit →
    graph.Walk none (detour ++ [v]) → (detour ++ [v]).Nodup → detour.length + 1 ≠ limit

theorem Within.reachable {bound : Option Nat} (h : graph.Within bound v) : graph.Reachable v := by
  obtain ⟨before, hwalk, -⟩ := h
  exact hwalk.reachable

/-- A walk from a root follows a route of the same length. -/
theorem Walk.exists_route (h : graph.Walk none l) :
    ∃ route, graph.Leads route l.getLast? ∧ route.length = l.length := by
  induction l using List.reverseRecOn with
  | nil => exact ⟨[], .start, rfl⟩
  | append_singleton l v ih =>
    obtain ⟨hwalk, hv⟩ := walk_concat.1 h
    rw [Option.or_none] at hv
    obtain ⟨route, hroute, hlength⟩ := ih hwalk
    obtain ⟨i, hi⟩ := Sequence.mem_iff_get?.1 hv
    refine ⟨route ++ [i], ?_, by simp [hlength]⟩
    rw [List.getLast?_concat]
    exact hroute.step hi

/-- All paths to a vertex are equally long if there is only one route to it. -/
theorem Unshared.length_eq (unshared : graph.Unshared) {l' : List V} (h : graph.Walk none l)
    (h' : graph.Walk none l') (hlast : l.getLast? = some v) (hlast' : l'.getLast? = some v) :
    l.length = l'.length := by
  obtain ⟨route, hroute, hlength⟩ := h.exists_route
  obtain ⟨route', hroute', hlength'⟩ := h'.exists_route
  rw [hlast] at hroute
  rw [hlast'] at hroute'
  rw [← hlength, ← hlength', unshared.eq_of_leads hroute hroute']

theorem Unshared.unobstructed (unshared : graph.Unshared) : graph.Unobstructed limit := by
  intro v before detour hbefore hshort hdetour _ hlong
  have hlength := unshared.length_eq hbefore hdetour (List.getLast?_concat) (List.getLast?_concat)
  simp only [List.length_append, List.length_singleton] at hlength
  omega

end StateGraph

/-! ## The path and the bound -/

section Bound

variable {V K κ : Type} {graph : StateGraph Id V} {search : DepthSearch V κ} {top : Frame V}
  {rest : List (Frame V)}

/-- The frame of the roots comes on top of the vertices. -/
theorem Grounded.size_eq (h : Grounded graph search) (items : search.stack.items = top :: rest) :
    search.stack.size = search.path.length + 1 := by
  rcases h.shape with hnil | hshape
  · rw [hnil] at items
    cases items
  · rw [search.stack.size_eq]
    simpa using congrArg List.length hshape

theorem Grounded.hasRoom_iff (h : Grounded graph search)
    (items : search.stack.items = top :: rest) :
    search.hasRoom = true ↔ ∀ limit ∈ search.bound, search.path.length < limit := by
  unfold hasRoom
  cases search.bound with
  | none => simp
  | some limit =>
    rw [h.size_eq items]
    simp only [decide_eq_true_eq, Nat.succ_le_iff, Option.mem_some_iff, forall_eq']

variable [Store κ K] {key : V → K} {known : κ} {bound : Option Nat} {log : List (Event V)}
  {source : Option V} {target v : V}

namespace Explores

theorem room (h : Explores graph key (fresh graph known bound) log search)
    (items : search.stack.items = top :: rest) (offer : search.offer top = some target) :
    ∀ limit ∈ bound, search.path.length < limit := by
  have hroom : search.hasRoom = true := by
    unfold DepthSearch.offer at offer
    split at offer
    · assumption
    · cases offer
  rw [← h.bound_eq]
  exact (h.grounded.hasRoom_iff items).1 hroom

/-- A frame that is dropped while there is room has been read to its end. -/
theorem peek_of_room (h : Explores graph key (fresh graph known bound) log search)
    (items : search.stack.items = top :: rest) (offer : search.offer top = none)
    (room : ∀ limit ∈ bound, search.path.length < limit) : top.peek = none := by
  rw [← h.bound_eq] at room
  have hroom := (h.grounded.hasRoom_iff items).2 room
  rwa [DepthSearch.offer, if_pos hroom] at offer

theorem length_path_le (h : Explores graph key (fresh graph known bound) log search) :
    ∀ limit ∈ bound, search.path.length ≤ limit := by
  intro limit hlimit
  induction h with
  | refl => exact Nat.zero_le limit
  | step before move ih =>
    cases move with
    | enter items offer new =>
      rw [path_pushed, path_learn, path_advance, List.length_append, List.length_singleton]
      exact before.room items offer limit hlimit
    | revisit items offer old => rw [path_advance]; exact ih
    | leave items offer some_vertex =>
      rw [path_of_items items, List.length_append] at ih
      omega
    | finish items offer no_vertex =>
      rw [path_of_items items, List.length_append] at ih
      omega

/-- Every discovered vertex lies within the bound. -/
theorem within (h : Explores graph key (fresh graph known bound) log search)
    (hv : v ∈ discoveries log) : graph.Within bound v := by
  induction h with
  | refl => cases hv
  | @step log events search next before move ih =>
    cases move with
    | enter items offer new =>
      rw [discoveries_entry, List.mem_append, List.mem_singleton] at hv
      rcases hv with hold | rfl
      · exact ih hold
      · exact ⟨search.path, before.grounded.walk_concat items (before.target_mem items offer),
          before.room items offer⟩
    | revisit items offer old => rw [discoveries_known] at hv; exact ih hv
    | leave items offer some_vertex => rw [discoveries_exit] at hv; exact ih hv
    | finish items offer no_vertex => rw [List.append_nil] at hv; exact ih hv

end Explores

/-! ## What the bound hides -/

/-- The search comes to `source` along a path that is as long as the bound allows. -/
def Full (graph : StateGraph Id V) (key : V → K) (first : DepthSearch V κ) (source : Option V) :
    Prop :=
  ∃ log search, Explores graph key first log search ∧ search.path.getLast? = source ∧
    first.bound = some search.path.length

/-- A frame that is dropped has been read to its end, or its path is as long as the bound allows. -/
theorem Explores.peek_eq_none_or_full (h : Explores graph key (fresh graph known bound) log search)
    (items : search.stack.items = top :: rest) (offer : search.offer top = none) :
    top.peek = none ∨ Full graph key (fresh graph known bound) top.vertex := by
  by_cases hroom : ∀ limit ∈ bound, search.path.length < limit
  · exact Or.inl (h.peek_of_room items offer hroom)
  · push Not at hroom
    obtain ⟨limit, hlimit, hle⟩ := hroom
    have hlength : search.path.length = limit := Nat.le_antisymm (h.length_path_le limit hlimit) hle
    have hbound : bound = some search.path.length := by rw [hlength]; exact hlimit
    exact Or.inr ⟨log, search, h, h.grounded.getLast?_path items, hbound⟩

theorem DepthSearch.Pending.advance (h : search.Pending source target)
    (items : search.stack.items = top :: rest) (offer : search.offer top = some v) :
    search.advance.Pending source target ∨ (source = top.vertex ∧ target = v) := by
  have hagenda : search.agenda.Pending source target := h
  have hframes : search.agenda.frames = top ::ₘ (rest : Multiset (Frame V)) :=
    congrArg (fun items : List (Frame V) => (items : Multiset (Frame V))) items
  rcases hagenda.advance hframes (peek_of_offer offer) with ⟨frame, hframe, hwaits⟩ | hread
  · rw [Multiset.cons_coe, Multiset.mem_coe, ← items_advance items] at hframe
    exact Or.inl ⟨frame, hframe, hwaits⟩
  · exact Or.inr hread

theorem DepthSearch.Pending.pop (h : search.Pending source target)
    (items : search.stack.items = top :: rest) (read : top.vertex = source → top.peek = none) :
    search.pop.Pending source target := by
  obtain ⟨frame, hframe, hsource, htarget⟩ := h
  rw [items, List.mem_cons] at hframe
  rcases hframe with rfl | hrest
  · exact absurd htarget (Sequence.not_mem_of_head?_eq_none (read hsource))
  · exact ⟨frame, by rw [items_pop items]; exact hrest, hsource, htarget⟩

/-- Every successor of a discovered vertex has been looked at or waits on the stack, unless the
search came to that vertex along a path as long as the bound allows. -/
theorem Explores.lookedAt_or_pending_or_full
    (h : Explores graph key (fresh graph known bound) log search) (opened : Opened log source)
    (hmem : target ∈ graph.after source) :
    LookedAt log source target ∨ search.Pending source target ∨
      Full graph key (fresh graph known bound) source := by
  induction h with
  | refl =>
    cases source with
    | none => exact Or.inr (Or.inl ⟨_, List.mem_singleton_self _, rfl, hmem⟩)
    | some u => cases opened
  | @step log events search next before move ih =>
    -- dropping a frame loses what is unread in it only if its path is full
    have hdrop : ∀ {top rest}, search.stack.items = top :: rest → search.offer top = none →
        LookedAt log source target ∨ search.Pending source target ∨
          Full graph key (fresh graph known bound) source →
        LookedAt log source target ∨ search.pop.Pending source target ∨
          Full graph key (fresh graph known bound) source := by
      rintro top rest items offer (hlooked | hpending | hfull)
      · exact Or.inl hlooked
      · rcases before.peek_eq_none_or_full items offer with hpeek | hfull
        · exact Or.inr (Or.inl (hpending.pop items fun _ => hpeek))
        · by_cases hsource : top.vertex = source
          · exact Or.inr (Or.inr (hsource ▸ hfull))
          · exact Or.inr (Or.inl (hpending.pop items fun hs => absurd hs hsource))
      · exact Or.inr (Or.inr hfull)
    cases move with
    | @enter top rest vertex items offer new =>
      by_cases hnew : source = some vertex
      · subst hnew
        exact Or.inr (Or.inl ⟨_, List.mem_cons_self, rfl, hmem⟩)
      · have hold : Opened log source := by
          cases source with
          | none => trivial
          | some u => exact (opened_entry.1 opened).resolve_right fun hu => hnew (hu ▸ rfl)
        rcases ih hold with hlooked | hpending | hfull
        · exact Or.inl (lookedAt_entry.2 (Or.inl hlooked))
        · rcases hpending.advance items offer with ⟨frame, hframe, hwaits⟩ | hread
          · exact Or.inr (Or.inl ⟨frame, List.mem_cons_of_mem _ hframe, hwaits⟩)
          · exact Or.inl (lookedAt_entry.2 (Or.inr hread))
        · exact Or.inr (Or.inr hfull)
    | revisit items offer old =>
      rcases ih (opened_known.1 opened) with hlooked | hpending | hfull
      · exact Or.inl (lookedAt_known.2 (Or.inl hlooked))
      · rcases hpending.advance items offer with hadvance | hread
        · exact Or.inr (Or.inl hadvance)
        · exact Or.inl (lookedAt_known.2 (Or.inr hread))
      · exact Or.inr (Or.inr hfull)
    | leave items offer some_vertex =>
      rw [lookedAt_exit]
      exact hdrop items offer (ih (opened_exit.1 opened))
    | finish items offer no_vertex =>
      rw [List.append_nil] at opened ⊢
      exact hdrop items offer (ih opened)

/-- If nothing is obstructed, then a vertex to which the search comes along a path as long as the
bound allows has no shorter path. -/
theorem Full.le_length (simple : ∀ {log search},
      Explores graph key (fresh graph known bound) log search → search.path.Nodup)
    (unobstructed : ∀ limit ∈ bound, graph.Unobstructed limit)
    (h : Full graph key (fresh graph known bound) source) {l : List V} (hwalk : graph.Walk none l)
    (hlast : l.getLast? = source) : ∀ limit ∈ bound, limit ≤ l.length := by
  obtain ⟨log, search, explores, hsource, hbound⟩ := h
  intro limit hlimit
  obtain rfl : limit = search.path.length := Option.some_inj.1 (hlimit.symm.trans hbound)
  cases source with
  | none => simp [List.getLast?_eq_none_iff.1 hsource]
  | some v =>
    obtain ⟨detour, hpath⟩ := List.getLast?_eq_some_iff.1 hsource
    obtain ⟨before, rfl⟩ := List.getLast?_eq_some_iff.1 hlast
    have hnodup := simple explores
    have hdetour := explores.grounded.walk
    rw [hpath] at hnodup hdetour
    by_contra hshort
    rw [List.length_append, List.length_singleton, Nat.not_le] at hshort
    refine unobstructed _ hlimit v before detour hwalk hshort hdetour hnodup ?_
    rw [hpath, List.length_append, List.length_singleton]

/-- A search that is over has discovered everything within the bound, if it enters what it looks at
and nothing is obstructed. -/
theorem Explores.mem_of_within (h : Explores graph key (fresh graph known bound) log search)
    (ended : search.stack.items = [])
    (enters : ∀ {source target}, LookedAt log source target → target ∈ discoveries log)
    (simple : ∀ {log search},
      Explores graph key (fresh graph known bound) log search → search.path.Nodup)
    (unobstructed : ∀ limit ∈ bound, graph.Unobstructed limit) (hv : graph.Within bound v) :
    v ∈ discoveries log := by
  -- along a path that is short enough, every vertex is opened
  have hopen : ∀ l, graph.Walk none l → (∀ limit ∈ bound, l.length ≤ limit) →
      Opened log l.getLast? := by
    intro l
    induction l using List.reverseRecOn with
    | nil => exact fun _ _ => trivial
    | append_singleton l w ih =>
      intro hwalk hlength
      obtain ⟨hwalk, hw⟩ := StateGraph.walk_concat.1 hwalk
      rw [Option.or_none] at hw
      have hlt : ∀ limit ∈ bound, l.length < limit := by
        intro limit hlimit
        simpa [Nat.succ_le_iff] using hlength limit hlimit
      rw [List.getLast?_concat]
      have hopen := ih hwalk fun limit hlimit => Nat.le_of_lt (hlt limit hlimit)
      rcases h.lookedAt_or_pending_or_full hopen hw with hlooked | ⟨frame, hframe, -⟩ | hfull
      · exact enters hlooked
      · rw [ended] at hframe
        cases hframe
      · have hlong := hfull.le_length simple unobstructed hwalk rfl
        obtain ⟨-, search', -, -, hbound⟩ := hfull
        exact absurd (hlong _ hbound) (Nat.not_le_of_lt (hlt _ hbound))
  obtain ⟨before, hwalk, hlength⟩ := hv
  have hopened : Opened log (before ++ [v]).getLast? := by
    refine hopen _ hwalk fun limit hlimit => ?_
    simpa [Nat.succ_le_iff] using hlength limit hlimit
  rw [List.getLast?_concat] at hopened
  exact hopened

/-- A search that remembers and starts out knowing nothing has discovered what lies within the bound
by the time it is over, if nothing is obstructed. -/
theorem Explores.mem_of_faithful [Store κ V] {known : κ} (faithful : Store.Faithful known)
    (blank : ∀ v, Store.knows known v = false)
    (h : Explores graph id (fresh graph known bound) log search) (ended : search.stack.items = [])
    (unobstructed : ∀ limit ∈ bound, graph.Unobstructed limit) (hv : graph.Within bound v) :
    v ∈ discoveries log := by
  refine h.mem_of_within ended ?_ ?_ unobstructed hv
  · intro source target hlooked
    rcases h.agenda.knows_of_lookedAt faithful.honest hlooked with hknown | hfound
    · rw [blank] at hknown
      cases hknown
    · rwa [List.map_id] at hfound
  · intro log search explores
    have hnodup := explores.nodup_path faithful
    rwa [List.map_id] at hnodup

end Bound

end StateExplorer
