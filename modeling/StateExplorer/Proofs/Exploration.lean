import StateExplorer.Proofs.Agenda

/-!
# Explorations

On a graph that does not change, a depth-first search goes its way without regard to its visitor, as
long as the visitor lets it. `Move` says what a single step can do to the search and what the
visitor is told about it, and `Explores first log search` that the search `first` becomes `search`
while the visitor is told `log`.

To a move of the search belongs a move of its agenda (`Move.agenda`), so all that holds of agendas
holds of depth-first searches. What comes in addition is due to the order of the frames: the stack
spells a walk from a root (`Explores.grounded`), and its vertices were discovered in this order
(`Explores.path_sublist`).
-/

namespace StateExplorer

open Event

/-! ## The search without its visitor -/

namespace DepthSearch

variable {V K κ : Type}

section Shape

variable {search : DepthSearch V κ} {top : Frame V} {rest : List (Frame V)} {vertex : V}

theorem items_advance (h : search.stack.items = top :: rest) :
    search.advance.stack.items = top.advance :: rest := by
  simp [advance, h]

theorem items_pop (h : search.stack.items = top :: rest) : search.pop.stack.items = rest := by
  simp [pop, h]

@[simp] theorem known_advance : search.advance.known = search.known := rfl

@[simp] theorem known_pop : search.pop.known = search.known := rfl

@[simp] theorem bound_advance : search.advance.bound = search.bound := rfl

@[simp] theorem bound_pop : search.pop.bound = search.bound := rfl

@[simp] theorem path_advance : search.advance.path = search.path := by
  unfold path advance
  cases h : search.stack.items with
  | nil => simp [h]
  | cons top rest => simp [h, Frame.advance, List.filterMap_cons]

theorem path_of_items (h : search.stack.items = top :: rest) :
    search.path = search.pop.path ++ top.vertex.toList := by
  unfold path
  rw [items_pop h, h, List.filterMap_cons]
  cases top.vertex <;> simp

theorem offer_of_unbounded (h : search.bound = none) : search.offer top = top.peek := by
  simp [offer, hasRoom, h]

theorem peek_of_offer (h : search.offer top = some vertex) : top.peek = some vertex := by
  unfold offer at h
  split at h
  · exact h
  · cases h

/-- A vertex that waits on the stack to be looked at as a successor of `source`. -/
def Pending (search : DepthSearch V κ) (source : Option V) (target : V) : Prop :=
  ∃ frame ∈ search.stack.items, frame.vertex = source ∧ target ∈ frame.successors

/-- Successors wait only in the frames of vertices on the stack. -/
theorem Pending.mem_path {source target : V} (h : search.Pending (some source) target) :
    source ∈ search.path := by
  obtain ⟨frame, hframe, hsource, -⟩ := h
  exact List.mem_reverse.2 (List.mem_filterMap.2 ⟨frame, hframe, hsource⟩)

end Shape

section Learning

variable [Store κ K] {search : DepthSearch V κ} {key : K}

@[simp] theorem stack_learn : (search.learn key).stack = search.stack := rfl

@[simp] theorem path_learn : (search.learn key).path = search.path := rfl

@[simp] theorem known_learn : (search.learn key).known = (Store.learn search.known key).2 := rfl

@[simp] theorem bound_learn : (search.learn key).bound = search.bound := rfl

end Learning

/-- The search that is about to look at the roots. -/
def fresh (graph : StateGraph Id V) (known : κ) (bound : Option Nat) : DepthSearch V κ where
  stack := Stack.empty.push { vertex := none, successors := graph.after none }
  known
  bound

/-- The search with a vertex on top of the stack. -/
def pushed (graph : StateGraph Id V) (search : DepthSearch V κ) (vertex : V) : DepthSearch V κ :=
  { search with
    stack := search.stack.push { vertex := some vertex, successors := graph.after (some vertex) } }

section Pushed

variable {graph : StateGraph Id V} {search : DepthSearch V κ} {vertex : V}

@[simp] theorem items_fresh {known : κ} {bound : Option Nat} :
    (fresh graph known bound).stack.items =
      [{ vertex := none, successors := graph.after none }] := rfl

@[simp] theorem items_pushed :
    (search.pushed graph vertex).stack.items =
      { vertex := some vertex, successors := graph.after (some vertex) } :: search.stack.items :=
        rfl

@[simp] theorem known_pushed : (search.pushed graph vertex).known = search.known := rfl

@[simp] theorem bound_pushed : (search.pushed graph vertex).bound = search.bound := rfl

@[simp] theorem path_fresh {known : κ} {bound : Option Nat} :
    (fresh graph known bound).path = [] := rfl

@[simp] theorem path_pushed : (search.pushed graph vertex).path = search.path ++ [vertex] := by
  simp [path]

end Pushed

/-- The open frames without their order. -/
def agenda (search : DepthSearch V κ) : Agenda V κ where
  frames := search.stack.items
  known := search.known

end DepthSearch

open DepthSearch

section Moves

variable {V K κ : Type} [Store κ K]

/-- What a step does to a search, and what the visitor is told about it. -/
inductive Move (graph : StateGraph Id V) (key : V → K) (search : DepthSearch V κ) :
    List (Event V) → DepthSearch V κ → Prop
  | enter {top : Frame V} {rest : List (Frame V)} {target : V}
      (items : search.stack.items = top :: rest) (offer : search.offer top = some target)
      (new : Store.knows search.known (key target) = false) :
      Move graph key search [.entry top.vertex target]
        ((search.advance.learn (key target)).pushed graph target)
  | revisit {top : Frame V} {rest : List (Frame V)} {target : V}
      (items : search.stack.items = top :: rest) (offer : search.offer top = some target)
      (old : Store.knows search.known (key target) = true) :
      Move graph key search [.known top.vertex target] search.advance
  | leave {top : Frame V} {rest : List (Frame V)} {vertex : V}
      (items : search.stack.items = top :: rest) (offer : search.offer top = none)
      (some_vertex : top.vertex = some vertex) :
      Move graph key search [.exit vertex top] search.pop
  | finish {top : Frame V} {rest : List (Frame V)}
      (items : search.stack.items = top :: rest) (offer : search.offer top = none)
      (no_vertex : top.vertex = none) :
      Move graph key search [] search.pop

/-- The search `first` becomes another one while a visitor that always lets it go on is told the
log. -/
inductive Explores (graph : StateGraph Id V) (key : V → K) (first : DepthSearch V κ) :
    List (Event V) → DepthSearch V κ → Prop
  | refl : Explores graph key first [] first
  | step {log events : List (Event V)} {search next : DepthSearch V κ}
      (before : Explores graph key first log search) (move : Move graph key search events next) :
      Explores graph key first (log ++ events) next

/-! A search goes one way only. -/

section Deterministic

variable {graph : StateGraph Id V} {key : V → K} {first search search' next next' : DepthSearch V κ}
  {log log' events events' : List (Event V)}

theorem Move.not_ended (h : Move graph key search events next) : search.stack.items ≠ [] := by
  cases h <;> next items _ _ => simp [items]

theorem Move.deterministic (h : Move graph key search events next)
    (h' : Move graph key search events' next') : events' = events ∧ next' = next := by
  cases h <;> cases h' <;> simp_all

/-- An exploration is over at once or begins with a move. -/
theorem Explores.cases_head (h : Explores graph key first log search) :
    (log = [] ∧ search = first) ∨
      ∃ events next log', Move graph key first events next ∧ Explores graph key next log' search ∧
        log = events ++ log' := by
  induction h with
  | refl => exact Or.inl ⟨rfl, rfl⟩
  | @step log events search next before move ih =>
    rcases ih with ⟨rfl, rfl⟩ | ⟨events₁, next₁, log₁, hmove, hrest, rfl⟩
    · exact Or.inr ⟨events, next, [], move, .refl, by simp⟩
    · exact Or.inr ⟨events₁, next₁, log₁ ++ events, hmove, hrest.step move, by simp⟩

/-- Every exploration is the beginning of one that has ended. -/
theorem Explores.extends (h : Explores graph key first log search)
    (h' : Explores graph key first log' search') (ended : search'.stack.items = []) :
    ∃ rest, log' = log ++ rest ∧ Explores graph key search rest search' := by
  induction h with
  | refl => exact ⟨log', rfl, h'⟩
  | step before move ih =>
    obtain ⟨rest, rfl, hrest⟩ := ih
    rcases hrest.cases_head with ⟨rfl, rfl⟩ | ⟨events₁, next₁, log₁, hmove, hnext, rfl⟩
    · exact absurd ended move.not_ended
    · obtain ⟨rfl, rfl⟩ := move.deterministic hmove
      exact ⟨log₁, by simp, hnext⟩

/-- There is only one way in which an exploration can end. -/
theorem Explores.log_eq_of_ended (h : Explores graph key first log search)
    (h' : Explores graph key first log' search') (ended : search.stack.items = [])
    (ended' : search'.stack.items = []) : log' = log := by
  obtain ⟨rest, rfl, hrest⟩ := h.extends h' ended'
  rcases hrest.cases_head with ⟨rfl, -⟩ | ⟨events, next, log', hmove, -, -⟩
  · exact List.append_nil log
  · exact absurd ended hmove.not_ended

end Deterministic

end Moves

/-! ## The stack spells a walk -/

/-- The frame of the roots is at the bottom and nowhere else, the other frames spell a walk from a
root, and each frame holds what is left to read of its successors. -/
structure Grounded {V κ : Type} (graph : StateGraph Id V) (search : DepthSearch V κ) : Prop where
  shape : search.stack.items = [] ∨
    search.stack.items.map Frame.vertex = (search.path.map some).reverse ++ [none]
  walk : graph.Walk none search.path
  reads : ∀ frame ∈ search.stack.items, frame.Reads graph

namespace Grounded

variable {V κ : Type} {graph : StateGraph Id V} {search : DepthSearch V κ} {top : Frame V}
  {rest : List (Frame V)}

theorem fresh {known : κ} {bound : Option Nat} :
    Grounded graph (DepthSearch.fresh graph known bound) := by
  refine ⟨Or.inr rfl, trivial, ?_⟩
  intro frame hframe
  rw [items_fresh, List.mem_singleton] at hframe
  rw [hframe]
  exact Frame.Reads.whole none

/-- The top of the stack is the end of the walk. -/
theorem getLast?_path (h : Grounded graph search) (items : search.stack.items = top :: rest) :
    search.path.getLast? = top.vertex := by
  rcases h.shape with hnil | hshape
  · rw [hnil] at items; cases items
  · rw [items] at hshape
    rcases List.eq_nil_or_concat search.path with hpath | ⟨init, last, hpath⟩
    · rw [hpath] at hshape ⊢
      simp only [List.map_cons, List.map_nil, List.reverse_nil, List.nil_append,
        List.cons.injEq] at hshape
      exact hshape.1.symm
    · rw [List.concat_eq_append] at hpath
      rw [hpath] at hshape ⊢
      simp only [List.map_append, List.map_cons, List.map_nil, List.reverse_append,
        List.reverse_cons, List.reverse_nil, List.nil_append, List.cons_append,
        List.cons.injEq] at hshape
      rw [List.getLast?_concat]
      exact hshape.1.symm

theorem current_eq (h : Grounded graph search) : search.current = search.path.getLast? := by
  unfold DepthSearch.current Stack.top?
  cases items : search.stack.items with
  | nil => simp [path, items]
  | cons top rest => rw [h.getLast?_path items, List.head?_cons, Option.bind_some]

theorem top_reads (h : Grounded graph search) (items : search.stack.items = top :: rest) :
    top.Reads graph :=
  h.reads top (by simp [items])

/-- The walk can be continued by a successor of the top. -/
theorem walk_concat (h : Grounded graph search) (items : search.stack.items = top :: rest) {v : V}
    (hv : v ∈ graph.after top.vertex) : graph.Walk none (search.path ++ [v]) := by
  rw [StateGraph.walk_concat, h.getLast?_path items, Option.or_none]
  exact ⟨h.walk, hv⟩

theorem advance (h : Grounded graph search) (items : search.stack.items = top :: rest) :
    Grounded graph search.advance := by
  refine ⟨Or.inr ?_, by rw [path_advance]; exact h.walk, ?_⟩
  · rw [path_advance, items_advance items]
    rcases h.shape with hnil | hshape
    · rw [hnil] at items; cases items
    · rw [items] at hshape
      exact hshape
  · intro frame hframe
    rw [items_advance items] at hframe
    rcases List.mem_cons.1 hframe with rfl | hrest
    · exact (h.top_reads items).advance
    · exact h.reads frame (by simp [items, hrest])

theorem pushed (h : Grounded graph search) (items : search.stack.items = top :: rest) {v : V}
    (hv : v ∈ graph.after top.vertex) : Grounded graph (search.pushed graph v) := by
  refine ⟨Or.inr ?_, by rw [path_pushed]; exact h.walk_concat items hv, ?_⟩
  · rcases h.shape with hnil | hshape
    · rw [hnil] at items; cases items
    · rw [items_pushed, List.map_cons, hshape, path_pushed]
      simp
  · intro frame hframe
    rw [items_pushed] at hframe
    rcases List.mem_cons.1 hframe with rfl | hrest
    · exact Frame.Reads.whole (some v)
    · exact h.reads frame hrest

theorem pop (h : Grounded graph search) (items : search.stack.items = top :: rest) :
    Grounded graph search.pop := by
  have hpath := path_of_items items
  refine ⟨?_, ?_, ?_⟩
  · rcases h.shape with hnil | hshape
    · rw [hnil] at items; cases items
    · rw [items, hpath] at hshape
      rw [items_pop items]
      cases hv : top.vertex with
      | none =>
        -- a frame without a vertex is at the bottom, so nothing is below it
        rw [hv] at hshape
        have hlen := h.getLast?_path items
        rw [hpath, hv, Option.toList_none, List.append_nil, List.getLast?_eq_none_iff] at hlen
        rw [hlen] at hshape
        simp only [List.map_cons, Option.toList_none, List.append_nil,
          List.map_nil, List.reverse_nil, List.nil_append, List.cons.injEq,
          List.map_eq_nil_iff] at hshape
        exact Or.inl hshape.2
      | some v =>
        rw [hv] at hshape
        simp only [List.map_cons, Option.toList_some, List.map_append, List.map_nil,
          List.reverse_append, List.reverse_cons, List.reverse_nil, List.nil_append,
          List.cons_append, List.cons.injEq] at hshape
        exact Or.inr hshape.2
  · have hwalk := h.walk
    rw [hpath, StateGraph.walk_append] at hwalk
    exact hwalk.1
  · intro frame hframe
    rw [items_pop items] at hframe
    exact h.reads frame (by simp [items, hframe])

end Grounded

/-! ## Facts about every exploration from the roots -/

section Facts

variable {V K κ : Type} [Store κ K] {graph : StateGraph Id V} {key : V → K} {known : κ}
  {bound : Option Nat} {log : List (Event V)} {search : DepthSearch V κ}

theorem Move.grounded {events : List (Event V)} {next : DepthSearch V κ}
    (h : Grounded graph search) (move : Move graph key search events next) :
    Grounded graph next := by
  cases move with
  | @enter top rest target items offer new =>
    have hadvance := h.advance items
    have hlearn : Grounded graph (search.advance.learn (key target)) :=
      ⟨hadvance.shape, hadvance.walk, hadvance.reads⟩
    exact hlearn.pushed (items_advance items) ((h.top_reads items).peek_mem (peek_of_offer offer))
  | revisit items offer old => exact h.advance items
  | leave items offer some_vertex => exact h.pop items
  | finish items offer no_vertex => exact h.pop items

/-- A move of the search is a move of its agenda. Frames are read to their end unless there is a
bound. -/
theorem Move.agenda {events : List (Event V)} {next : DepthSearch V κ}
    (move : Move graph key search events next) :
    Agenda.Move graph key (search.bound = none) search.agenda events next.agenda := by
  have hframes : ∀ {search : DepthSearch V κ} {top : Frame V} {rest : List (Frame V)},
      search.stack.items = top :: rest →
        search.agenda.frames = top ::ₘ (rest : Multiset (Frame V)) := by
    intro search top rest items
    exact congrArg (fun items : List (Frame V) => (items : Multiset (Frame V))) items
  -- a frame is dropped if it has been read to its end or the bound leaves no room
  have hpop : ∀ {top : Frame V} {rest : List (Frame V)}, search.stack.items = top :: rest →
      search.offer top = none →
      Agenda.Move graph key (search.bound = none) search.agenda top.farewell search.pop.agenda := by
    intro top rest items offer
    have hnext : search.pop.agenda = { frames := rest, known := search.known } :=
      congrArg (Agenda.mk · search.known) (congrArg _ (items_pop items))
    rw [hnext]
    refine .close (hframes items) fun unbounded => ?_
    rw [← offer_of_unbounded unbounded]
    exact offer
  cases move with
  | @enter top rest target items offer new =>
    have hnext : ((search.advance.learn (key target)).pushed graph target).agenda =
        { frames := Frame.whole graph (some target) ::ₘ top.advance ::ₘ (rest : Multiset (Frame V))
          known := (Store.learn search.known (key target)).2 } :=
      congrArg (Agenda.mk · _)
        (congrArg (Frame.whole graph (some target) ::ₘ ·) (hframes (items_advance items)))
    rw [hnext]
    exact .enter (hframes items) (peek_of_offer offer) new
  | @revisit top rest target items offer old =>
    have hnext : search.advance.agenda =
        { frames := top.advance ::ₘ (rest : Multiset (Frame V)), known := search.known } :=
      congrArg (Agenda.mk · search.known) (hframes (items_advance items))
    rw [hnext]
    exact .revisit (hframes items) (peek_of_offer offer) old
  | @leave top rest vertex items offer some_vertex =>
    have hfarewell : top.farewell = [.exit vertex top] := by simp [Frame.farewell, some_vertex]
    exact hfarewell ▸ hpop items offer
  | @finish top rest items offer no_vertex =>
    have hfarewell : top.farewell = [] := by simp [Frame.farewell, no_vertex]
    exact hfarewell ▸ hpop items offer

namespace Explores

theorem bound_eq (h : Explores graph key (fresh graph known bound) log search) :
    search.bound = bound := by
  induction h with
  | refl => rfl
  | step before move ih => cases move <;> exact ih

theorem agenda (h : Explores graph key (fresh graph known bound) log search) :
    Agenda.Explores graph key (bound = none) (Agenda.start graph known) log search.agenda := by
  induction h with
  | refl => exact .refl
  | step before move ih => exact ih.step (before.bound_eq ▸ move.agenda)

/-- The store has learnt what was discovered, in this order. -/
theorem known_eq (h : Explores graph key (fresh graph known bound) log search) :
    search.known = Store.learnAll known ((discoveries log).map key) :=
  h.agenda.known_eq

theorem grounded (h : Explores graph key (fresh graph known bound) log search) :
    Grounded graph search := by
  induction h with
  | refl => exact Grounded.fresh
  | step before move ih => exact move.grounded ih

/-- The vertices on the stack were discovered in the order of the walk. -/
theorem path_sublist (h : Explores graph key (fresh graph known bound) log search) :
    search.path.Sublist (discoveries log) := by
  induction h with
  | refl => exact List.Sublist.refl []
  | @step log events search next before move ih =>
    cases move with
    | enter items offer new =>
      rw [path_pushed, path_learn, path_advance, discoveries_entry]
      exact ih.append (List.Sublist.refl _)
    | revisit items offer old => rw [path_advance, discoveries_known]; exact ih
    | leave items offer some_vertex =>
      rw [discoveries_exit]
      rw [path_of_items items] at ih
      exact (List.sublist_append_left _ _).trans ih
    | finish items offer no_vertex =>
      rw [List.append_nil]
      rw [path_of_items items] at ih
      exact (List.sublist_append_left _ _).trans ih

/-- The source of the next step has been opened. -/
theorem opened_top (h : Explores graph key (fresh graph known bound) log search) {top : Frame V}
    {rest : List (Frame V)} (items : search.stack.items = top :: rest) : Opened log top.vertex :=
  (h.agenda.reads (items ▸ List.mem_cons_self : top ∈ search.stack.items)).2

theorem target_mem (h : Explores graph key (fresh graph known bound) log search) {top : Frame V}
    {rest : List (Frame V)} {target : V} (items : search.stack.items = top :: rest)
    (offer : search.offer top = some target) : target ∈ graph.after top.vertex :=
  (h.grounded.top_reads items).peek_mem (peek_of_offer offer)

/-- The search looks only at edges of the graph, and only at those of vertices that it has
discovered. -/
theorem lookedAt_mem (h : Explores graph key (fresh graph known bound) log search)
    {source : Option V} {target : V} (looked : LookedAt log source target) :
    target ∈ graph.after source ∧ Opened log source :=
  h.agenda.lookedAt_mem looked

/-- Every discovered vertex can be reached from a root. -/
theorem reachable (h : Explores graph key (fresh graph known bound) log search) {v : V}
    (hv : v ∈ discoveries log) : graph.Reachable v :=
  h.agenda.reachable hv

theorem top_reachable (h : Explores graph key (fresh graph known bound) log search) {top : Frame V}
    {rest : List (Frame V)} {vertex : V} (items : search.stack.items = top :: rest)
    (hv : top.vertex = some vertex) : graph.Reachable vertex := by
  have hopen := h.opened_top items
  rw [hv] at hopen
  exact h.reachable hopen

/-- A vertex that the search may still look at can be reached from a root. -/
theorem target_reachable (h : Explores graph key (fresh graph known bound) log search)
    {top : Frame V} {rest : List (Frame V)} {target : V} (items : search.stack.items = top :: rest)
    (hmem : target ∈ graph.after top.vertex) : graph.Reachable target :=
  h.agenda.target_reachable (items ▸ List.mem_cons_self : top ∈ search.stack.items) hmem

/-- Without a bound, every successor of a discovered vertex has been looked at or waits on the
stack. -/
theorem lookedAt_or_pending (h : Explores graph key (fresh graph known none) log search)
    {source : Option V} {target : V} (opened : Opened log source)
    (hmem : target ∈ graph.after source) :
    LookedAt log source target ∨ search.Pending source target :=
  h.agenda.lookedAt_or_pending rfl opened hmem

/-! ### Stores that remember -/

section Faithful

variable (faithful : Store.Faithful known)

include faithful

theorem knows_iff (h : Explores graph key (fresh graph known bound) log search) (k : K) :
    Store.knows search.known k = true ↔
      Store.knows known k = true ∨ k ∈ (discoveries log).map key :=
  h.agenda.knows_iff faithful k

/-- No canonical form is discovered that was known before or discovered earlier. -/
theorem nodup_discoveries (h : Explores graph key (fresh graph known bound) log search) :
    ((discoveries log).map key).Nodup ∧ ∀ v ∈ discoveries log, Store.knows known (key v) = false :=
  h.agenda.nodup_discoveries faithful

theorem nodup_path (h : Explores graph key (fresh graph known bound) log search) :
    (search.path.map key).Nodup :=
  (h.path_sublist.map key).nodup (h.nodup_discoveries faithful).1

/-- Every successor of a vertex that the search has left was known at first or has been discovered
by its canonical form. -/
theorem closed_of_left (h : Explores graph key (fresh graph known none) log search) {v x : V}
    (hv : v ∈ discoveries log) (left : v ∉ search.path) (hx : x ∈ graph.after (some v)) :
    Store.knows known (key x) = true ∨ key x ∈ (discoveries log).map key := by
  have hopen : Opened log (some v) := hv
  rcases h.lookedAt_or_pending hopen hx with hlooked | hpending
  · exact h.agenda.knows_of_lookedAt faithful.honest hlooked
  · exact absurd hpending.mem_path left

/-- When the search is over, every successor of a discovered vertex, and every root, was known at
first or has been discovered by its canonical form. -/
theorem closed_of_over (h : Explores graph key (fresh graph known none) log search)
    (ended : search.stack.items = []) {source : Option V} {target : V} (opened : Opened log source)
    (hmem : target ∈ graph.after source) :
    Store.knows known (key target) = true ∨ key target ∈ (discoveries log).map key :=
  h.agenda.closed_of_ended faithful.honest rfl (congrArg _ ended) opened hmem

end Faithful

/-- A search that starts out knowing nothing has discovered, by the time it is over, the canonical
forms of the roots and of all neighbours of discovered vertices. -/
theorem closed_of_blank (h : Explores graph key (fresh graph known none) log search)
    (faithful : Store.Faithful known) (blank : ∀ k, Store.knows known k = false)
    (ended : search.stack.items = []) {source : Option V} {target : V} (opened : Opened log source)
    (hmem : target ∈ graph.after source) : key target ∈ (discoveries log).map key := by
  rcases h.closed_of_over faithful ended opened hmem with hknown | hfound
  · rw [blank] at hknown
    cases hknown
  · exact hfound

/-- If vertices with the same form have neighbours with the same forms, these are the forms of all
reachable vertices. -/
theorem key_mem_of_over (h : Explores graph key (fresh graph known none) log search)
    (faithful : Store.Faithful known) (blank : ∀ k, Store.knows known k = false)
    (uniform : graph.Uniform key) (ended : search.stack.items = []) {v : V}
    (hv : graph.Reachable v) :
    key v ∈ (discoveries log).map key :=
  h.agenda.key_mem_of_ended faithful.honest blank rfl uniform (congrArg _ ended) hv

end Explores

end Facts

end StateExplorer
