import StateExplorer.Proofs.Bounded
import StateExplorer.Proofs.CallLog
import StateExplorer.Proofs.Drivers
import StateExplorer.Proofs.Probing.Operations

/-!
# The course of a depth-first search

A search that its visitor never stops goes through a course of steps, and pushes vertices on its
way. At each point of the course the stack is `Orderly`: it spells a walk from a root to the current
vertex, and each frame has been read up to the vertex above it. At each call the visitor sees the
path to the vertex on whose behalf it is called, and at the exit of a vertex the path that it saw at
the entry (`CallsInPlace`).
-/

namespace StateExplorer

open DepthSearch Event

/-! ## Courses -/

section Course

variable {V K κ σ ω : Type}

/-- The vertex that a step has pushed, if it has made the stack grow. -/
def DepthSearch.pushedBy (before after : DepthSearch V κ) : List V :=
  if before.stack.size < after.stack.size then after.current.toList else []

variable [Store κ K] [Render V]

/-- The search takes a step, at once or by way of an action, and the visitor lets it go on. -/
def Proceeds (space : StateSpace (StateT ω (Except Fault)) V K)
    (visitor : Visitor (StateT ω (Except Fault)) V (DepthSearch V κ) σ)
    (t : Session (DepthSearch V κ) σ) (world : ω) (t' : Session (DepthSearch V κ) σ) (world' : ω) :
    Prop :=
  (step space visitor t).run world = .ok ((some .proceed, t'), world') ∨
    (stepByAction space visitor t).run world = .ok ((some .proceed, t'), world')

/-- The search comes from one session to another by steps that the visitor lets pass. The vertices
pushed on the way are listed in their order. -/
inductive Course (space : StateSpace (StateT ω (Except Fault)) V K)
    (visitor : Visitor (StateT ω (Except Fault)) V (DepthSearch V κ) σ)
    (first : Session (DepthSearch V κ) σ) (world : ω) :
    List V → Session (DepthSearch V κ) σ → ω → Prop
  | start : Course space visitor first world [] first world
  | step {pushes : List V} {t t' : Session (DepthSearch V κ) σ} {world₁ world₂ : ω}
      (before : Course space visitor first world pushes t world₁)
      (next : Proceeds space visitor t world₁ t' world₂) :
      Course space visitor first world (pushes ++ pushedBy t.search t'.search) t' world₂

end Course

/-! ## The frames on the stack -/

section Links

variable {V K κ : Type} [Store κ K] {graph : StateGraph Id V} {key : V → K} {known : κ}
  {bound : Option Nat} {log : List (Event V)} {search : DepthSearch V κ}

/-- The vertex of the upper frame is the one that was read last in the lower frame. -/
def Frame.Linked (graph : StateGraph Id V) (upper lower : Frame V) : Prop :=
  ∃ n v, upper.vertex = some v ∧ (graph.after lower.vertex).get? n = some v ∧
    lower.successors = (graph.after lower.vertex).drop (n + 1)

omit [Store κ K] in
theorem Frame.Linked.advance {upper lower : Frame V} (h : upper.Linked graph lower) :
    upper.advance.Linked graph lower := h

/-- A frame that has been read on is linked to that of the vertex that was read. -/
theorem Frame.Reads.linked {frame : Frame V} {v : V} (h : frame.Reads graph)
    (peek : frame.peek = some v) : (Frame.whole graph (some v)).Linked graph frame.advance := by
  obtain ⟨n, hn⟩ := h
  refine ⟨n, v, rfl, ?_, ?_⟩
  · rw [Sequence.get?, ← peek, Frame.peek, hn]
    rfl
  · show frame.successors.tail = _
    rw [hn, Sequence.tail_drop]
    rfl

theorem Explores.linked (h : Explores graph key (fresh graph known bound) log search) :
    search.stack.items.IsChain (Frame.Linked graph) := by
  induction h with
  | refl => exact List.isChain_singleton _
  | @step log events search next before move ih =>
    -- reading on changes only the top frame, which no frame lies upon
    have hadvance : ∀ {top rest}, search.stack.items = top :: rest →
        (top.advance :: rest).IsChain (Frame.Linked graph) := by
      intro top rest items
      rw [items] at ih
      cases rest with
      | nil => exact List.isChain_singleton _
      | cons lower rest =>
        obtain ⟨hlink, hrest⟩ := List.isChain_cons_cons.1 ih
        exact List.isChain_cons_cons.2 ⟨hlink.advance, hrest⟩
    cases move with
    | @enter top rest target items offer new =>
      rw [items_pushed, stack_learn, items_advance items]
      exact List.isChain_cons_cons.2
        ⟨(before.grounded.top_reads items).linked (peek_of_offer offer), hadvance items⟩
    | revisit items offer old =>
      rw [items_advance items]
      exact hadvance items
    | leave items offer some_vertex =>
      rw [items_pop items]
      exact (items ▸ ih).tail
    | finish items offer no_vertex =>
      rw [items_pop items]
      exact (items ▸ ih).tail

/-- What holds of a search that has pushed the given vertices since it started with an empty store
and the given bound. -/
structure Orderly (graph : StateGraph Id V) (key : V → K) (bound : Option Nat) (pushes : List V)
    (search : DepthSearch V κ) : Prop where
  /-- The frame at the bottom, and no other, has no vertex. -/
  bottom : search.stack.items = [] ∨ ∃ above bottom, search.stack.items = above ++ [bottom] ∧
    bottom.vertex = none ∧ ∀ frame ∈ above, frame.vertex ≠ none
  /-- The path leads from a root along edges of the graph. -/
  walk : graph.Walk none search.path
  /-- No canonical form is twice on the stack. -/
  distinct : (search.path.map key).Nodup
  /-- All canonical forms on the stack are known. -/
  known : ∀ v ∈ search.path, Store.knows search.known (key v) = true
  /-- A canonical form is known if and only if a vertex with this form has been pushed. -/
  knows_iff : ∀ k, Store.knows search.known k = true ↔ ∃ v ∈ pushes, key v = k
  /-- A frame holds what is left to read of the neighbours of its vertex, or of the roots. -/
  reads : ∀ frame ∈ search.stack.items, frame.Reads graph
  /-- What was read last in a frame is the vertex of the frame above it. -/
  linked : search.stack.items.IsChain (Frame.Linked graph)
  /-- The path is at most as long as the bound allows. -/
  within : ∀ limit ∈ bound, search.path.length ≤ limit
  /-- The discoveries are the pushes. -/
  discovered_eq : search.discovered = pushes.length

theorem Explores.orderly (h : Explores graph key (fresh graph known bound) log search)
    (remembers : Store.Remembers known) : Orderly graph key bound (discoveries log) search where
  bottom := by
    refine h.grounded.shape.imp id fun hshape => ?_
    obtain ⟨above, last, hitems, habove, hlast⟩ := List.map_eq_append_iff.1 hshape
    obtain ⟨bottom, rfl, hbottom⟩ := List.map_eq_singleton_iff.1 hlast
    refine ⟨above, bottom, hitems, hbottom, fun frame hframe => ?_⟩
    have hmem : frame.vertex ∈ (search.path.map some).reverse := habove ▸ List.mem_map_of_mem hframe
    obtain ⟨v, -, hv⟩ := List.mem_map.1 (List.mem_reverse.1 hmem)
    exact hv ▸ Option.some_ne_none v
  walk := h.grounded.walk
  distinct := h.nodup_path remembers.faithful
  known := by
    intro v hv
    exact (h.knows_iff remembers.faithful _).2
      (Or.inr (List.mem_map_of_mem (h.path_sublist.subset hv)))
  knows_iff := by
    intro k
    rw [h.knows_iff remembers.faithful, remembers.blank, List.mem_map]
    exact or_iff_right Bool.false_ne_true
  reads := h.grounded.reads
  linked := h.linked
  within := h.length_path_le
  discovered_eq := by
    rw [discovered, h.known_eq,
      remembers.size_learnAll _ (h.nodup_discoveries remembers.faithful).1, List.length_map]

theorem Move.pushedBy_eq {events : List (Event V)} {next : DepthSearch V κ}
    (move : Move graph key search events next) : pushedBy search next = discoveries events := by
  cases move with
  | @enter top rest target items offer new =>
    have hgrown : search.stack.size <
        ((search.advance.learn (key target)).pushed graph target).stack.size :=
      Nat.lt_succ_self search.stack.size
    rw [pushedBy, if_pos hgrown]
    rfl
  | revisit items offer old => exact if_neg (Nat.lt_irrefl search.stack.size)
  | leave items offer some_vertex => exact if_neg (Nat.not_lt.2 (Nat.sub_le search.stack.size 1))
  | finish items offer no_vertex => exact if_neg (Nat.not_lt.2 (Nat.sub_le search.stack.size 1))

end Links

/-! ## The calls of the visitor -/

/-- A call of a visitor: what it is told, and the search that it sees. -/
structure Call (V C : Type) where
  event : Event V
  search : C

section Calls

variable {V K κ : Type} {calls before : List (Call V (DepthSearch V κ))}

/-- At a look the visitor sees the path to the source. At the exit of a vertex it sees the path that
it saw at the entry, which is the path to the parent of the vertex. -/
def Call.InPlace (before : List (Call V (DepthSearch V κ))) (call : Call V (DepthSearch V κ)) :
    Prop :=
  match call.event with
  | .entry source _ => call.search.path.getLast? = source
  | .known source _ => call.search.path.getLast? = source
  | .exit vertex _ => ∃ source entered, ⟨.entry source vertex, entered⟩ ∈ before ∧
      entered.path = call.search.path

/-- Each of the calls is in place after those before it. -/
def CallsInPlace (calls : List (Call V (DepthSearch V κ))) : Prop :=
  ∀ before call after, calls = before ++ call :: after → call.InPlace before

/-- Each vertex on the path was entered when the path led to its parent. -/
def EnteredAlong (calls : List (Call V (DepthSearch V κ))) (path : List V) : Prop :=
  ∀ before v after, path = before ++ v :: after →
    ∃ source entered, ⟨.entry source v, entered⟩ ∈ calls ∧ entered.path = before

theorem CallsInPlace.nil : CallsInPlace ([] : List (Call V (DepthSearch V κ))) := by
  intro before call after h
  simp at h

theorem CallsInPlace.concat (h : CallsInPlace calls) {call : Call V (DepthSearch V κ)}
    (last : call.InPlace calls) : CallsInPlace (calls ++ [call]) :=
  forall_split_concat h last

theorem EnteredAlong.nil : EnteredAlong calls [] := by
  intro before v after h
  simp at h

theorem EnteredAlong.mono {path whole : List V} {more : List (Call V (DepthSearch V κ))}
    (h : EnteredAlong calls whole) (hpath : path <+: whole) :
    EnteredAlong (calls ++ more) path := by
  obtain ⟨rest, rfl⟩ := hpath
  intro before v after hsplit
  obtain ⟨source, entered, hmem, hbefore⟩ := h before v (after ++ rest) (by simp [hsplit])
  exact ⟨source, entered, List.mem_append_left more hmem, hbefore⟩

theorem EnteredAlong.enter {search : DepthSearch V κ} {source : Option V} {target : V}
    (h : EnteredAlong calls search.path) :
    EnteredAlong (calls ++ [⟨.entry source target, search⟩]) (search.path ++ [target]) :=
  forall_split_concat (h.mono (List.prefix_refl search.path)) ⟨source, search, by simp, rfl⟩

end Calls

section Visitors

variable {m : Type → Type} [Monad m] [MonadExceptOf Fault m] [Returning m] {V K κ σ : Type}
  [Store κ K] {graph : StateGraph Id V} {key : V → K} {known : κ} {bound : Option Nat}

/-- A visitor that notes its calls finds them in place. -/
theorem Visitor.keeping_upholds (visitor : Visitor m V (DepthSearch V κ) σ) :
    Upholds graph key (fresh graph known bound) (visitor.keeping Call.mk)
      (fun _ search state => CallsInPlace state.1 ∧ EnteredAlong state.1 search.path)
      (fun _ _ => True) where
  enter := by
    intro log search state top rest target signal state' explores inv items offer new told
    cases signal with
    | abort => trivial
    | proceed =>
      have hlast := explores.grounded.getLast?_path items
      have hpath : (search.advance.learn (key target)).path = search.path := path_advance
      rw [Signal.Ensures, Visitor.keeping_returns told, path_pushed]
      refine ⟨inv.1.concat ?_, ?_⟩
      · rw [← hlast, ← hpath]
        rfl
      · refine EnteredAlong.enter ?_
        rw [hpath]
        exact inv.2
  revisit := by
    intro log search state top rest target signal state' explores inv items offer old told
    cases signal with
    | abort => trivial
    | proceed =>
      have hlast := explores.grounded.getLast?_path items
      rw [Signal.Ensures, Visitor.keeping_returns told, path_advance]
      refine ⟨inv.1.concat ?_, ?_⟩
      · rw [← hlast, ← path_advance]
        rfl
      · exact inv.2.mono (List.prefix_refl search.path)
  leave := by
    intro log search state top rest vertex signal state' explores inv items offer hv told
    cases signal with
    | abort => trivial
    | proceed =>
      have hpath : search.path = search.pop.path ++ [vertex] := by
        rw [path_of_items items, hv, Option.toList_some]
      rw [hpath] at inv
      rw [Signal.Ensures, Visitor.keeping_returns told]
      exact ⟨inv.1.concat (inv.2 search.pop.path vertex [] rfl),
        inv.2.mono (List.prefix_append search.pop.path [vertex])⟩
  finish := by
    intro log search state top rest explores inv items offer hv
    have hpath := path_of_items items
    rw [hv, Option.toList_none, List.append_nil] at hpath
    exact hpath ▸ inv

end Visitors

/-! ## What holds along a course -/

section Along

variable {V K κ σ ω : Type} [Store κ K] [Render V] {graph : StateGraph Id V} {key : V → K}
  {visitor : Visitor (StateT ω (Except Fault)) V (DepthSearch V κ) σ}
  {first t t' : Session (DepthSearch V κ) σ} {world world' : ω} {pushes : List V}

/-- A step by way of an action is a step. -/
theorem Proceeds.step (h : Proceeds (graph.under key) visitor t world t' world') :
    (step (graph.under key) visitor t).run world = .ok ((some .proceed, t'), world') := by
  rcases h with h | h
  · exact h
  · have heq : stepByAction (graph.under key) visitor t =
        DepthSearch.step (graph.under key) visitor t :=
      stepByAction_eq_step visitor t
    exact heq ▸ h

theorem Proceeds.move (h : Proceeds (graph.under key) visitor t world t' world') :
    ∃ events, Move graph key t.search events t'.search := by
  have hreturns : Returns (DepthSearch.step (graph.under key) visitor t) (some .proceed, t') :=
    ⟨world, world', h.step⟩
  cases step_returns hreturns with
  | enter items offer new told => exact ⟨_, .enter items offer new⟩
  | revisit items offer old told => exact ⟨_, .revisit items offer old⟩
  | leave items offer some_vertex told => exact ⟨_, .leave items offer some_vertex⟩
  | finish items offer no_vertex => exact ⟨_, .finish items offer no_vertex⟩

/-- Notes can be kept along with a step. -/
theorem Proceeds.keeping {α : Type} (note : Event V → DepthSearch V κ → α) (notes : List α)
    (h : Proceeds (graph.under key) visitor t world t' world') :
    ∃ notes', Proceeds (graph.under key) (visitor.keeping note)
      { search := t.search, state := (notes, t.state) } world
      { search := t'.search, state := (notes', t'.state) } world' := by
  have hmap := step_keeping note (graph.under key) visitor
    { search := t.search, state := (notes, t.state) }
  have hstep : (_ <$> _ : StateT ω (Except Fault) _).run world = _ := hmap ▸ h.step
  obtain ⟨⟨signal, search, notes', inner⟩, hrun, hresult⟩ := exists_of_run_map hstep
  cases hresult
  exact ⟨notes', Or.inl hrun⟩

/-- A course is an exploration, and what it pushes are the discoveries. -/
theorem Course.explores (h : Course (graph.under key) visitor first world pushes t world') :
    ∃ log, Explores graph key first.search log t.search ∧ discoveries log = pushes := by
  induction h with
  | start => exact ⟨[], .refl, rfl⟩
  | step before next ih =>
    obtain ⟨log, hlog, rfl⟩ := ih
    obtain ⟨events, hmove⟩ := next.move
    exact ⟨log ++ events, hlog.step hmove, by rw [hmove.pushedBy_eq, discoveries_append]⟩

/-- Notes can be kept along a course. -/
theorem Course.keeping {α : Type} (note : Event V → DepthSearch V κ → α)
    (h : Course (graph.under key) visitor first world pushes t world') :
    ∃ notes, Course (graph.under key) (visitor.keeping note)
      { search := first.search, state := ([], first.state) } world pushes
      { search := t.search, state := (notes, t.state) } world' := by
  induction h with
  | start => exact ⟨[], .start⟩
  | step before next ih =>
    obtain ⟨notes, hcourse⟩ := ih
    obtain ⟨notes', hnext⟩ := next.keeping note notes
    exact ⟨notes', hcourse.step hnext⟩

/-- What a visitor upholds holds along a course. -/
theorem Upholds.course {Inv : List (Event V) → DepthSearch V κ → σ → Prop}
    {Stop : DepthSearch V κ → σ → Prop} (uphold : Upholds graph key first.search visitor Inv Stop)
    (inv : Inv [] first.search first.state)
    (h : Course (graph.under key) visitor first world pushes t world') :
    ∃ log, Explores graph key first.search log t.search ∧ Inv log t.search t.state := by
  induction h with
  | start => exact ⟨[], .refl, inv⟩
  | step before next ih =>
    obtain ⟨log, hlog, hinv⟩ := ih
    exact uphold.step hlog hinv ⟨_, _, next.step⟩

end Along

/-- At each point of the course of a depth-first search that started with an empty store the stack
is in order, whatever the graph, the canonical forms and the visitor are, and all calls of the
visitor have been in place. The calls are those that the visitor gets if it also notes them, which
changes nothing else. -/
theorem course_is_orderly {V K κ σ ω : Type} [Store κ K] [Render V] (graph : StateGraph Id V)
    (key : V → K) (known : κ) (remembers : Store.Remembers known) (bound : Option Nat)
    (visitor : Visitor (StateT ω (Except Fault)) V (DepthSearch V κ) σ) (state : σ)
    (first : DepthSearch V κ) (t : Session (DepthSearch V κ) σ) (pushes : List V)
    (world world' world'' : ω)
    (started : StateT.run (m := Except Fault)
      (DepthSearch.start (graph.under key) known bound) world = .ok (first, world'))
    (course : Course (graph.under key) visitor { search := first, state } world' pushes t world'') :
    Orderly graph key bound pushes t.search ∧
      ∃ calls, CallsInPlace calls ∧
        Course (graph.under key) (visitor.keeping Call.mk)
          { search := first, state := ([], state) } world'
          pushes { search := t.search, state := (calls, t.state) } world'' := by
  rw [start_under] at started
  cases started
  obtain ⟨log, hlog, rfl⟩ := course.explores
  refine ⟨hlog.orderly remembers, ?_⟩
  obtain ⟨calls, hcalls⟩ := course.keeping Call.mk
  obtain ⟨-, -, hplace, -⟩ := visitor.keeping_upholds.course ⟨.nil, .nil⟩ hcalls
  exact ⟨calls, hplace, hcalls⟩

/-- The visitor that counts its calls in the world. -/
def Visitor.counting {m : Type → Type} [MonadStateOf Nat m] {V C : Type} : Visitor m V C Unit where
  enter _ _ _ _ := modifyGet fun calls => ((.proceed, ()), calls + 1)
  revisit _ _ _ _ := modifyGet fun calls => ((.proceed, ()), calls + 1)
  leave _ _ _ _ := modifyGet fun calls => ((.proceed, ()), calls + 1)

/-- The empty set of numbers in which all of them collide. -/
def ProbingSet.colliding : ProbingSet Nat := .empty fun _ => 0

/-- The numbers, each of which leads to the next two. -/
def StateGraph.strip : StateGraph Id Nat where
  roots := .finite [0]
  neighbours n := .finite [n + 1, n + 2]

/-- With room for three vertices the search goes from 0 to 2, leaves 2 at once and enters 3 from 1.
Some of these steps are taken by way of actions. -/
theorem exists_course_strip :
    ∃ t, t.search.path = [0, 1, 3] ∧ Course (StateGraph.strip.under (· % 4)) Visitor.counting
      { search := fresh StateGraph.strip ProbingSet.colliding (some 3), state := () } 0
        [0, 1, 2, 3] t 5 := by
  have outset : Course (StateGraph.strip.under (· % 4)) Visitor.counting
      { search := fresh StateGraph.strip ProbingSet.colliding (some 3), state := () } 0 []
      { search := fresh StateGraph.strip ProbingSet.colliding (some 3), state := () } 0 := .start
  have entered := outset.step (Or.inl rfl)
  have entered := entered.step (Or.inr rfl)
  have entered := entered.step (Or.inl rfl)
  have left := entered.step (Or.inr rfl)
  have entered := left.step (Or.inl rfl)
  exact ⟨_, rfl, entered⟩

theorem course_is_orderly_strip :
    Store.Remembers ProbingSet.colliding ∧ ∃ first t,
      StateT.run (m := Except Fault)
        (DepthSearch.start (StateGraph.strip.under (· % 4)) ProbingSet.colliding (some 3)) 0 =
        .ok (first, 0) ∧
      Course (StateGraph.strip.under (· % 4)) Visitor.counting { search := first, state := () } 0
        [0, 1, 2, 3] t 5 ∧
      t.search.path = [0, 1, 3] ∧
      Orderly StateGraph.strip (· % 4) (some 3) [0, 1, 2, 3] t.search ∧
      ∃ calls, CallsInPlace calls ∧
        Course (StateGraph.strip.under (· % 4)) (Visitor.counting.keeping Call.mk)
          { search := first, state := ([], ()) } 0 [0, 1, 2, 3]
          { search := t.search, state := (calls, t.state) } 5 := by
  obtain ⟨t, hpath, hcourse⟩ := exists_course_strip
  obtain ⟨horderly, calls, hcalls⟩ :=
    course_is_orderly StateGraph.strip (· % 4) ProbingSet.colliding
    (ProbingSet.remembers_empty _) (some 3) Visitor.counting () _ t [0, 1, 2, 3] 0 0 5 rfl hcourse
  exact ⟨ProbingSet.remembers_empty _, _, t, rfl, hcourse, hpath, horderly, calls, hcalls⟩

end StateExplorer
