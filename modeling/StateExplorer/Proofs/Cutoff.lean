import StateExplorer.Proofs.Course
import StateExplorer.Proofs.StepCount

/-!
# Where a depth bound cuts a search

A bound cuts whole frames. As long as the path is shorter than the bound allows, a frame is dropped
only when it has been read to its end, and a path that is as long as the bound allows is one that
has just been made so: its last vertex is left at once, before anything is read (`Call.Bounded`).
This rests on what holds between two steps: if the path is full, then the top frame is whole and the
last call was the entry of its vertex (`CutShort.top`).

So a bound that no frame shows is no bound. If each vertex was left with its frame read to the end,
the exploration is one without a bound (`Explores.unbounded`), and any visitor that lets a search go
on is told the same without the bound.
-/

namespace StateExplorer

open DepthSearch Event

/-! ## Runs with a visitor that lets the search go on -/

section Strides

variable {V K κ σ ω α : Type}

theorem Obliges.keeping {call : σ → ExceptT Fault (StateM ω) (Signal × σ)} (h : Obliges call)
    (a : α) :
    Obliges (Visitor.keeping.keep a call) := by
  intro state world
  obtain ⟨state', world', hkeep⟩ := h.keep a state world
  exact ⟨_, world', hkeep⟩

variable {visitor : Visitor (ExceptT Fault (StateM ω)) V (DepthSearch V κ) σ}

theorem Visitor.Obliging.keeping (h : visitor.Obliging) (note : Event V → DepthSearch V κ → α) :
    (visitor.keeping note).Obliging where
  enter source target search := (h.enter source target search).keeping _
  revisit source target search := (h.revisit source target search).keeping _
  leave vertex frame search := (h.leave vertex frame search).keeping _

variable [Store κ K] [Render V] {graph : StateGraph Id V} {key : V → K}
  {first search : DepthSearch V κ} {log : List (Event V)}

variable (graph key) in
/-- A search that is not over makes a move. -/
theorem DepthSearch.exists_step (obliging : visitor.Obliging) (hopen : search.stack.items ≠ [])
    (state : σ) (world : ω) :
    ∃ events next state' world', Move graph key search events next ∧
      perform (step (graph.under key) visitor { search, state }) world =
        (.ok (some .proceed, { search := next, state := state' }), world') := by
  have hview : Prod.map id Session.unkept <$> step (graph.under key) visitor.logged
        { search, state := ([], state) } = step (graph.under key) visitor { search, state } :=
    step_keeping (fun event _ => event) (graph.under key) visitor { search, state := ([], state) }
  obtain ⟨events, next, state', world', move, hstep⟩ := exists_move graph key obliging hopen world
  refine ⟨events, next, state', world', move, ?_⟩
  rw [← hview, perform_map, hstep]
  rfl

variable (graph key) in
/-- The search takes as many steps as one likes, or comes to its end before. -/
theorem DepthSearch.exists_strides_le (obliging : visitor.Obliging)
    (t : Session (DepthSearch V κ) σ) (world : ω) (n : Nat) :
    ∃ k t' world', k ≤ n ∧ (k = n ∨ t'.search.isOver = true) ∧
      (machine (graph.under key) visitor).strides? k (t, world) = some (t', world') := by
  induction n generalizing t world with
  | zero => exact ⟨0, t, world, Nat.le_refl 0, Or.inl rfl, rfl⟩
  | succ n ih =>
    by_cases hover : t.search.stack.items = []
    · exact ⟨0, t, world, Nat.zero_le _, Or.inr (List.isEmpty_iff.2 hover), rfl⟩
    · obtain ⟨events, next, state, after, -, hstep⟩ :=
        exists_step graph key obliging hover t.state world
      obtain ⟨k, t', world', hk, hend, hstrides⟩ := ih { search := next, state } after
      refine ⟨k + 1, t', world', Nat.succ_le_succ hk, hend.imp (congrArg (· + 1)) id, ?_⟩
      rw [Machine.strides?_succ_of_step hstep]
      exact hstrides

/-- Every exploration is followed by a visitor that lets the search go on. -/
theorem Explores.exists_strides (h : Explores graph key first log search)
    (obliging : visitor.Obliging) (state : σ) (world : ω) :
    ∃ n state' world', (machine (graph.under key) visitor).strides? n
      ({ search := first, state }, world) = some ({ search, state := state' }, world') := by
  induction h with
  | refl => exact ⟨0, state, world, rfl⟩
  | step before move ih =>
    obtain ⟨n, state', world', hstrides⟩ := ih
    obtain ⟨events, next, state'', world'', move', hstep⟩ :=
      exists_step graph key obliging move.not_ended state' world'
    obtain ⟨rfl, rfl⟩ := move.deterministic move'
    exact ⟨n + 1, state'', world'',
      Machine.strides?_trans hstrides (Machine.strides?_succ_of_step hstep 0)⟩

/-- What a visitor upholds holds after any number of steps. -/
theorem Upholds.strides {Inv : List (Event V) → DepthSearch V κ → σ → Prop}
    {Stop : DepthSearch V κ → σ → Prop} (uphold : Upholds graph key first visitor Inv Stop)
    {n : Nat} {t t' : Session (DepthSearch V κ) σ} {world world' : ω}
    (explores : Explores graph key first log t.search) (inv : Inv log t.search t.state)
    (h : (machine (graph.under key) visitor).strides? n (t, world) = some (t', world')) :
    ∃ log', Explores graph key first log' t'.search ∧ Inv log' t'.search t'.state := by
  induction n generalizing log t world with
  | zero =>
    cases h
    exact ⟨log, explores, inv⟩
  | succ n ih =>
    obtain ⟨⟨next, after⟩, hstep, hrest⟩ := Option.bind_eq_some_iff.1 h
    obtain ⟨log', explores', inv'⟩ :=
      uphold.step explores inv ⟨world, after, Machine.stride?_eq_some.1 hstep⟩
    exact ih explores' inv' hrest

end Strides

/-! ## What holds between two steps -/

section Cut

variable {V K κ : Type} [Store κ K] {graph : StateGraph Id V} {key : V → K} {known : κ}
  {limit : Nat} {bound : Option Nat} {log : List (Event V)} {search : DepthSearch V κ}
  {top : Frame V} {rest : List (Frame V)} {calls : List (Call V (DepthSearch V κ))}

omit [Store κ K] in
theorem DepthSearch.depth_eq (search : DepthSearch V κ) : search.depth = search.path.length := by
  rw [depth, path, List.length_reverse, List.length_filterMap_eq_countP]

omit [Store κ K] in
/-- The frame of the roots is the only one if it is on top. -/
theorem Grounded.path_of_no_vertex (h : Grounded graph search)
    (items : search.stack.items = top :: rest) (no_vertex : top.vertex = none) : search.path = [] :=
  List.getLast?_eq_none_iff.1 ((h.getLast?_path items).trans no_vertex)

/-- The vertex of a look has been entered before the look. -/
theorem Explores.opened_source (h : Explores graph key (fresh graph known bound) log search)
    {before after : List (Event V)} {event : Event V} {source : Option V} {target : V}
    (hlog : log = before ++ event :: after) (look : event.look? = some (source, target)) :
    Opened before source := by
  obtain ⟨mid, next, hmid, hmove⟩ := h.split hlog
  cases hmove with
  | enter items offer new =>
    cases look
    exact hmid.opened_top items
  | revisit items offer old =>
    cases look
    exact hmid.opened_top items
  | leave items offer some_vertex => cases look

/-- A store that tells what it has learnt lets no vertex be entered that has been looked from. -/
theorem Explores.source_ne_of_entered (h : Explores graph key (fresh graph known bound) log search)
    (faithful : Store.Faithful known) {init : List (Event V)} {source : Option V}
    {vertex target : V} (hlog : log = init ++ [.entry source vertex]) {event : Event V}
    (hevent : event ∈ log) :
    event.look? ≠ some (some vertex, target) := by
  intro look
  have hnew : vertex ∉ discoveries init := by
    obtain ⟨mid, next, hmid, hmove⟩ := h.split hlog
    cases hmove with
    | enter items offer new => exact hmid.agenda.not_mem_discoveries faithful new
  obtain ⟨before, after, hsplit⟩ := List.append_of_mem hevent
  have hopened : vertex ∈ discoveries before := h.opened_source hsplit look
  have hprefix : before <+: init := by
    refine List.prefix_of_prefix_length_le (hsplit ▸ List.prefix_append before (event :: after))
      (hlog ▸ List.prefix_append init _) ?_
    have hlength := congrArg List.length (hsplit.symm.trans hlog)
    simp only [List.length_append, List.length_cons, List.length_nil] at hlength
    omega
  obtain ⟨more, rfl⟩ := hprefix
  rw [discoveries_append] at hnew
  exact hnew (List.mem_append_left _ hopened)

/-- A vertex is left with a frame in which nothing has been read, right after it was entered. So it
was the source of no call since then, and of no call at all if the store tells what it has
learnt. -/
structure LeftAtOnce (graph : StateGraph Id V) (known : κ)
    (before : List (Call V (DepthSearch V κ))) (vertex : V) (frame : Frame V) : Prop where
  whole : frame = Frame.whole graph (some vertex)
  entered : ∃ source entered, before.getLast? = some ⟨.entry source vertex, entered⟩
  unasked : Store.Faithful known → ∀ call ∈ before, ∀ target,
    call.event.look? ≠ some (some vertex, target)

/-- The call sees less vertices on the stack than the limit allows. If it is told that a vertex was
left, then the vertex was left at once if it was the last one that the limit allows, and after all
its neighbours had been read if it was not. -/
structure Call.Bounded (graph : StateGraph Id V) (known : κ) (limit : Nat)
    (before : List (Call V (DepthSearch V κ))) (call : Call V (DepthSearch V κ)) : Prop where
  depth_lt : call.search.depth < limit
  cut : ∀ vertex frame, call.event = .exit vertex frame → call.search.depth + 1 = limit →
    LeftAtOnce graph known before vertex frame
  read : ∀ vertex frame, call.event = .exit vertex frame → call.search.depth + 1 < limit →
    frame.peek = none

/-- The calls of a search up to some moment. -/
structure CutShort (graph : StateGraph Id V) (known : κ) (bound : Option Nat) (log : List (Event V))
    (search : DepthSearch V κ) (calls : List (Call V (DepthSearch V κ))) : Prop where
  events : calls.map Call.event = log
  bounded : ∀ limit ∈ bound, ∀ before call after, calls = before ++ call :: after →
    call.Bounded graph known limit before
  top : ∀ limit ∈ bound, ∀ top rest vertex, search.stack.items = top :: rest →
    top.vertex = some vertex → search.path.length = limit → top = Frame.whole graph (some vertex) ∧
      ∃ source entered, calls.getLast? = some ⟨.entry source vertex, entered⟩

namespace CutShort

theorem start : CutShort graph known bound [] (fresh graph known bound) [] where
  events := rfl
  bounded := by simp
  top := by
    intro limit _ top rest vertex items hvertex
    cases items
    cases hvertex

variable (h : CutShort graph known bound log search calls)
  (explores : Explores graph key (fresh graph known bound) log search)

include h explores

theorem enter {target : V} (items : search.stack.items = top :: rest)
    (offer : search.offer top = some target) :
    CutShort graph known bound (log ++ [.entry top.vertex target])
      ((search.advance.learn (key target)).pushed graph target)
      (calls ++ [⟨.entry top.vertex target, search.advance.learn (key target)⟩]) where
  events := by rw [List.map_append, h.events]; rfl
  bounded := by
    intro limit hlimit
    refine forall_split_concat (h.bounded limit hlimit) ⟨?_, by simp, by simp⟩
    rw [depth_eq, path_learn, path_advance]
    exact explores.room items offer limit hlimit
  top := by
    intro limit _ top' rest' vertex items' hvertex _
    rw [items_pushed] at items'
    cases items'
    cases hvertex
    exact ⟨rfl, top.vertex, _, List.getLast?_concat⟩

theorem revisit {target : V} (items : search.stack.items = top :: rest)
    (offer : search.offer top = some target) :
    CutShort graph known bound (log ++ [.known top.vertex target]) search.advance
      (calls ++ [⟨.known top.vertex target, search.advance⟩]) where
  events := by rw [List.map_append, h.events]; rfl
  bounded := by
    intro limit hlimit
    refine forall_split_concat (h.bounded limit hlimit) ⟨?_, by simp, by simp⟩
    rw [depth_eq, path_advance]
    exact explores.room items offer limit hlimit
  top := by
    intro limit hlimit top' rest' vertex _ _ hfull
    have hroom := explores.room items offer limit hlimit
    rw [path_advance] at hfull
    omega

theorem leave {vertex : V} (items : search.stack.items = top :: rest)
    (offer : search.offer top = none) (hvertex : top.vertex = some vertex) :
    CutShort graph known bound (log ++ [.exit vertex top]) search.pop
      (calls ++ [⟨.exit vertex top, search.pop⟩]) := by
  have hlength : search.pop.depth + 1 = search.path.length := by
    rw [depth_eq, path_of_items items, hvertex, List.length_append]
    rfl
  refine ⟨by rw [List.map_append, h.events]; rfl, fun limit hlimit => ?_, fun limit hlimit => ?_⟩
  · have hle := explores.length_path_le limit hlimit
    refine forall_split_concat (h.bounded limit hlimit) ⟨?_, ?_, ?_⟩
    · change search.pop.depth < limit
      omega
    · intro left frame hevent hfull
      cases hevent
      obtain ⟨hwhole, source, entered, hlast⟩ :=
        h.top limit hlimit top rest vertex items hvertex (hlength.symm.trans hfull)
      refine ⟨hwhole, ⟨source, entered, hlast⟩, fun faithful call hcall target => ?_⟩
      obtain ⟨init, rfl⟩ := List.getLast?_eq_some_iff.1 hlast
      have hlog := h.events
      rw [List.map_append] at hlog
      exact explores.source_ne_of_entered faithful hlog.symm (h.events ▸ List.mem_map_of_mem hcall)
    · intro left frame hevent hshort
      cases hevent
      refine explores.peek_of_room items offer fun limit' hlimit' => ?_
      cases hlimit.symm.trans hlimit'
      exact hlength ▸ hshort
  · intro top' rest' vertex' _ _ hfull
    have hle := explores.length_path_le limit hlimit
    rw [← depth_eq] at hfull
    omega

theorem finish (items : search.stack.items = top :: rest) (no_vertex : top.vertex = none) :
    CutShort graph known bound log search.pop calls where
  events := h.events
  bounded := h.bounded
  top := by
    intro limit _ top' rest' vertex items' hvertex
    have hlast := (explores.grounded.pop items).getLast?_path items'
    have hpath := path_of_items items
    rw [explores.grounded.path_of_no_vertex items no_vertex, no_vertex, Option.toList_none,
      List.append_nil] at hpath
    rw [← hpath, hvertex] at hlast
    cases hlast

end CutShort

omit [Store κ K] in
theorem Visitor.keeping_ensures {m : Type → Type} [Monad m] [MonadExceptOf Fault m] [Returning m]
    {σ α : Type} {a : α} {call : σ → m (Signal × σ)} {signal : Signal} {state state' : List α × σ}
    {P : List α → Prop} (told : Returns (Visitor.keeping.keep a call state) (signal, state'))
    (kept : P (state.1 ++ [a])) : signal.Ensures (P state'.1) True := by
  cases signal with
  | proceed => exact keeping_returns told ▸ kept
  | abort => trivial

/-- A visitor that notes its calls finds them cut short by the bound. -/
theorem Visitor.keeping_upholds_cutShort {m : Type → Type} [Monad m] [MonadExceptOf Fault m]
    [Returning m] {σ : Type} (visitor : Visitor m V (DepthSearch V κ) σ) :
    Upholds graph key (fresh graph known bound) (visitor.keeping Call.mk)
      (fun log search state => CutShort graph known bound log search state.1)
        (fun _ _ => True) where
  enter explores inv items offer _ told := keeping_ensures told (inv.enter explores items offer)
  revisit explores inv items offer _ told := keeping_ensures told (inv.revisit explores items offer)
  leave explores inv items offer hvertex told :=
    keeping_ensures told (inv.leave explores items offer hvertex)
  finish explores inv items _ no_vertex := inv.finish explores items no_vertex

/-! ## Searches that a bound does not touch -/

/-- The search without its bound. -/
def DepthSearch.unbounded (search : DepthSearch V κ) :
    DepthSearch V κ := { search with bound := none }

/-- Whether a vertex is left before all its neighbours have been read. -/
def Event.leavesUnread : Event V → Bool
  | .exit _ frame => frame.peek.isSome
  | _ => false

/-- Where all frames have been read to their ends, nothing would have been otherwise without the
bound. -/
theorem Explores.unbounded (h : Explores graph key (fresh graph known (some limit)) log search)
    (pos : 1 ≤ limit) (read : ∀ event ∈ log, event.leavesUnread = false) :
    Explores graph key (fresh graph known none) log search.unbounded := by
  induction h with
  | refl => exact .refl
  | @step log events search next before move ih =>
    have ih := ih fun event hevent => read event (List.mem_append_left events hevent)
    have hoffer : ∀ top, search.unbounded.offer top = top.peek := fun top => offer_of_unbounded rfl
    cases move with
    | @enter top rest target items offer new =>
      exact ih.step (.enter items ((hoffer top).trans (peek_of_offer offer)) new)
    | @revisit top rest target items offer old =>
      exact ih.step (.revisit items ((hoffer top).trans (peek_of_offer offer)) old)
    | @leave top rest vertex items offer hvertex =>
      have hpeek : top.peek.isSome = false :=
        read (.exit vertex top) (List.mem_append_right log (List.mem_singleton_self _))
      rw [Option.isSome_eq_false_iff, Option.isNone_iff_eq_none] at hpeek
      exact ih.step (.leave items ((hoffer top).trans hpeek) hvertex)
    | @finish top rest items offer no_vertex =>
      -- the path is empty, so there is room for a root
      have hpath := before.grounded.path_of_no_vertex items no_vertex
      have hpeek : top.peek = none := before.peek_of_room items offer fun limit' hlimit => by
        cases hlimit
        rw [hpath]
        exact pos
      exact ih.step (.finish items ((hoffer top).trans hpeek) no_vertex)

end Cut

/-- A number of steps leads to `t`, and on the way the visitor gets the calls that it notes if it is
told to, which changes nothing else. -/
structure NotedStrides {V K κ σ ω : Type} [Store κ K] [Render V] (graph : StateGraph Id V)
    (key : V → K) (visitor : Visitor (ExceptT Fault (StateM ω)) V (DepthSearch V κ) σ)
    (first : DepthSearch V κ) (state : σ) (world : ω) (n : Nat) (t : Session (DepthSearch V κ) σ)
    (world' : ω) (calls : List (Call V (DepthSearch V κ))) : Prop where
  strides : (machine (graph.under key) visitor).strides? n ({ search := first, state }, world) =
    some (t, world')
  noted : (machine (graph.under key) (visitor.keeping Call.mk)).strides? n
    ({ search := first, state := ([], state) }, world) =
      some ({ search := t.search, state := (calls, t.state) }, world')

theorem NotedStrides.of_noted {V K κ σ ω : Type} [Store κ K] [Render V] {graph : StateGraph Id V}
    {key : V → K} {visitor : Visitor (ExceptT Fault (StateM ω)) V (DepthSearch V κ) σ}
    {first : DepthSearch V κ} {state : σ} {world world' : ω} {n : Nat}
    {t : Session (DepthSearch V κ) (List (Call V (DepthSearch V κ)) × σ)}
    (h : (machine (graph.under key) (visitor.keeping Call.mk)).strides? n
      ({ search := first, state := ([], state) }, world) = some (t, world')) :
    NotedStrides graph key visitor first state world n t.unkept world' t.state.1 where
  strides := by
    have hview := (keeping_views Call.mk visitor (graph.under key)).strides?_view n
      { search := first, state := ([], state) } world
    rw [h] at hview
    exact hview
  noted := h

/-- In a depth-first search with a bound no vertex is entered while the path is as long as the bound
allows, the last vertex of such a path is left with a frame in which nothing has been read, and all
other frames are read to their ends. This holds for any store and for as many steps as one likes. If
the bound is not zero and the search comes to its end without leaving anything unread, then the
search without the bound comes to its end with the same events. -/
theorem depth_bound_cuts_whole_frames {V K κ σ ω : Type} [Store κ K] [Render V]
    (graph : StateGraph Id V) (key : V → K) (known : κ) (limit : Nat)
    (visitor : Visitor (ExceptT Fault (StateM ω)) V (DepthSearch V κ) σ)
    (obliging : visitor.Obliging) (state : σ) (world : ω) :
    ∃ first, perform (DepthSearch.start (graph.under key) known (some limit)) world =
      (.ok first, world) ∧
      (∀ n, ∃ k t world' calls, k ≤ n ∧ (k = n ∨ t.search.isOver = true) ∧
        NotedStrides graph key visitor first state world k t world' calls ∧
        ∀ before call after, calls = before ++ call :: after →
          call.Bounded graph known limit before) ∧
      (1 ≤ limit → ∀ steps t world' calls,
        NotedStrides graph key visitor first state world steps t world' calls →
          t.search.isOver = true →
        (∀ call ∈ calls, call.event.leavesUnread = false) →
        ∃ first' steps' t' world'' calls',
          perform (DepthSearch.start (graph.under key) known none) world = (.ok first', world) ∧
          (machine (graph.under key) visitor).EndsAfter ({ search := first', state }, world) steps'
            (t', world'') ∧
          NotedStrides graph key visitor first' state world steps' t' world'' calls' ∧
          calls'.map Call.event = calls.map Call.event) := by
  refine ⟨_, by rw [start_under, perform_pure], fun n => ?_, ?_⟩
  · obtain ⟨k, t, world', hk, hend, hnoted⟩ :=
      exists_strides_le graph key (obliging.keeping Call.mk)
      { search := fresh graph known (some limit), state := ([], state) } world n
    obtain ⟨log, -, cut⟩ := visitor.keeping_upholds_cutShort.strides .refl .start hnoted
    exact ⟨k, t.unkept, world', t.state.1, hk, hend, .of_noted hnoted, cut.bounded limit rfl⟩
  · intro pos steps t world' calls strides ended read
    obtain ⟨log, explores, cut⟩ :=
      visitor.keeping_upholds_cutShort.strides .refl .start strides.noted
    have hread : ∀ event ∈ log, event.leavesUnread = false := by
      rw [← cut.events]
      exact List.forall_mem_map.2 read
    have free := explores.unbounded pos hread
    have hended : t.search.stack.items = [] := List.isEmpty_iff.1 ended
    obtain ⟨steps', ⟨calls', state'⟩, world'', hnoted⟩ :=
      free.exists_strides (obliging.keeping Call.mk) ([], state) world
    obtain ⟨log', explores', cut'⟩ := visitor.keeping_upholds_cutShort.strides .refl .start hnoted
    obtain rfl := free.log_eq_of_ended explores' hended hended
    have strides' := NotedStrides.of_noted hnoted
    refine ⟨_, steps', _, world'', calls', by rw [start_under, perform_pure], ?_, strides', ?_⟩
    · exact (machine_rests visitor).endsAfter (fun _ => Journal.debug_eq _) strides'.strides ended
    · rw [cut'.events, cut.events]

/-- Modulo two, a path of two vertices is the longest one. A bound of two cuts the frame of the
second one, and a bound of three does not. -/
theorem notedStrides_ray :
    (∃ t calls, NotedStrides StateGraph.ray (· % 2) Visitor.counting
        (fresh StateGraph.ray ProbingSet.colliding (some 2)) () 0 5 t 4 calls ∧
      t.search.isOver = true ∧ calls.any (·.event.leavesUnread) = true) ∧
    (∃ t calls, NotedStrides StateGraph.ray (· % 2) Visitor.counting
        (fresh StateGraph.ray ProbingSet.colliding (some 3)) () 0 6 t 5 calls ∧
      t.search.isOver = true ∧ calls.any (·.event.leavesUnread) = false) :=
  ⟨⟨_, _, ⟨rfl, rfl⟩, rfl, rfl⟩, _, _, ⟨rfl, rfl⟩, rfl, rfl⟩

/-- The calls are within a bound of two. With a bound of three the visitor is told what it is told
without a bound. -/
theorem depth_bound_cuts_whole_frames_ray :
    (Visitor.counting : Visitor (ExceptT Fault (StateM Nat)) Nat (DepthSearch Nat (ProbingSet Nat))
      Unit).Obliging ∧
    (∃ first t calls,
      perform (DepthSearch.start (StateGraph.ray.under (· % 2)) ProbingSet.colliding (some 2)) 0 =
        (.ok first, 0) ∧
      NotedStrides StateGraph.ray (· % 2) Visitor.counting first () 0 5 t 4 calls ∧
      calls.any (·.event.leavesUnread) = true ∧
      ∀ before call after, calls = before ++ call :: after →
        call.Bounded StateGraph.ray ProbingSet.colliding 2 before) ∧
    (∃ first t calls first' steps' t' world' calls',
      perform (DepthSearch.start (StateGraph.ray.under (· % 2)) ProbingSet.colliding (some 3)) 0 =
        (.ok first, 0) ∧
      NotedStrides StateGraph.ray (· % 2) Visitor.counting first () 0 6 t 5 calls ∧
      t.search.isOver = true ∧ calls.any (·.event.leavesUnread) = false ∧
      perform (DepthSearch.start (StateGraph.ray.under (· % 2)) ProbingSet.colliding none) 0 =
        (.ok first', 0) ∧
      (machine (StateGraph.ray.under (· % 2)) Visitor.counting).EndsAfter
        ({ search := first', state := () }, 0) steps' (t', world') ∧
      NotedStrides StateGraph.ray (· % 2) Visitor.counting first' () 0 steps' t' world' calls' ∧
      calls'.map Call.event = calls.map Call.event) := by
  have hfirst : ∀ {bound first},
      perform (DepthSearch.start (StateGraph.ray.under (· % 2)) ProbingSet.colliding bound) 0 =
        (.ok first, 0) → first = fresh StateGraph.ray ProbingSet.colliding bound := by
    intro bound first hstart
    rw [start_under, perform_pure] at hstart
    exact (Except.ok.inj (Prod.mk.inj hstart).1).symm
  obtain ⟨⟨t, calls, hstrides, hover, hcut⟩, t₃, calls₃, hstrides₃, hover₃, hread⟩ :=
    notedStrides_ray
  refine ⟨Visitor.obliging_counting, ?_, ?_⟩
  · obtain ⟨first, hstart, hbounded, -⟩ := depth_bound_cuts_whole_frames StateGraph.ray (· % 2)
      ProbingSet.colliding 2 Visitor.counting Visitor.obliging_counting () 0
    cases hfirst hstart
    obtain ⟨k, t', world', calls', -, hend, hstrides', hcalls⟩ := hbounded 5
    obtain rfl : k = 5 := hend.elim id fun hover' =>
      (machine_rests _).steps_unique hstrides'.strides hover' hstrides.strides hover
    cases hstrides.strides.symm.trans hstrides'.strides
    cases hstrides.noted.symm.trans hstrides'.noted
    exact ⟨_, t, calls, hstart, hstrides, hcut, hcalls⟩
  · obtain ⟨first, hstart, -, hfree⟩ := depth_bound_cuts_whole_frames StateGraph.ray (· % 2)
      ProbingSet.colliding 3 Visitor.counting Visitor.obliging_counting () 0
    cases hfirst hstart
    have hall : ∀ call ∈ calls₃, call.event.leavesUnread = false := by simpa using hread
    obtain ⟨first', steps', t', world', calls', hstart', hends, hstrides', hevents⟩ :=
      hfree (by decide) 6 t₃ 5 calls₃ hstrides₃ hover₃ hall
    exact ⟨_, t₃, calls₃, first', steps', t', world', calls', hstart, hstrides₃,
      hover₃, hread, hstart', hends, hstrides', hevents⟩

end StateExplorer
