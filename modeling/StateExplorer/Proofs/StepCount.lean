import StateExplorer.Proofs.BreadthExploration
import StateExplorer.Proofs.Interruption
import StateExplorer.Proofs.Probing.Operations

/-!
# How many steps a search takes

A search that is not stopped looks at each root and at each neighbour of a vertex that it enters,
and then drops the frame in which they waited. So the number of its steps is known once the vertices
are known that it enters (`StateGraph.toll`). The proof keeps an account: the steps that have been
taken and those that the open frames still call for make up the toll of what has been entered so far
(`Agenda.Explores.work_add_toll`).

The visitor has to let the search go on, and each of its calls has to return (`Visitor.Obliging`).
Apart from this it may do what it likes, so the number of steps is that of a whole family of runs.
-/

namespace StateExplorer

open Event

/-! ## The account of an exploration -/

section Toll

variable {V K κ : Type} [Store κ K] {graph : StateGraph Id V} {key : V → K} {thorough : Prop}
  {known : κ} {log events : List (Event V)} {agenda next : Agenda V κ}

/-- The number of steps of a search that enters the given vertices: one for each root and for each
of their neighbours, and one for each frame. -/
def StateGraph.toll (graph : StateGraph Id V) (entered : List V) : Nat :=
  (graph.after none).unread.length +
    (entered.map fun v => (graph.after (some v)).unread.length + 1).sum + 1

theorem StateGraph.toll_concat (entered : List V) (v : V) :
    graph.toll (entered ++ [v]) = graph.toll entered +
      ((graph.after (some v)).unread.length + 1) := by
  simp only [toll, List.map_append, List.map_singleton, List.sum_append, List.sum_singleton]
  omega

omit [Store κ K] in
theorem Agenda.work_start : (Agenda.start graph known).work = graph.toll [] := by
  simp [Agenda.work, Agenda.start, StateGraph.toll, Frame.whole]

/-- A step is paid for by what it takes from the open frames. -/
theorem Agenda.Explores.work_add_toll
    (h : Explores graph key thorough (start graph known) log agenda) (finitary : graph.Finitary)
    (hthorough : thorough) (move : Move graph key thorough agenda events next) :
    next.work + 1 + graph.toll (discoveries log) =
      agenda.work + graph.toll (discoveries (log ++ events)) := by
  cases move with
  | @enter frame others target frames peek new =>
    have hread :=
      (h.reads (by simp [frames] : frame ∈ agenda.frames)).1.unread_advance finitary peek
    rw [discoveries_entry, StateGraph.toll_concat]
    simp only [work, frames, Multiset.map_cons, Multiset.sum_cons, hread,
      List.length_cons, Frame.whole]
    omega
  | @revisit frame others target frames peek old =>
    have hread :=
      (h.reads (by simp [frames] : frame ∈ agenda.frames)).1.unread_advance finitary peek
    rw [discoveries_known]
    simp only [work, frames, Multiset.map_cons, Multiset.sum_cons, hread, List.length_cons]
    omega
  | @close frame others frames peek =>
    have hread := (h.reads (by simp [frames] : frame ∈ agenda.frames)).1.unread_of_ended finitary
      (peek hthorough)
    rw [discoveries_farewell]
    simp only [work, frames, Multiset.map_cons, Multiset.sum_cons, hread, List.length_nil]
    omega

end Toll

/-! ## Machines that come to their end -/

namespace Machine

variable {ω τ : Type} {machine : Machine (ExceptT Fault (StateM ω)) τ} {s s' : τ × ω} {steps : Nat}

/-- The machine comes to its end after a number of steps, and in no other way. A budget of steps
lets it do so if it is greater than this number. -/
structure EndsAfter (machine : Machine (ExceptT Fault (StateM ω)) τ) (s : τ × ω) (steps : Nat)
    (s' : τ × ω) : Prop where
  strides : machine.strides? steps s = some s'
  ended : perform (machine.step s'.1) s'.2 = (.ok (none, s'.1), s'.2)
  stepsLeft : machine.stepsLeft s = steps
  run : ∀ fuel, steps < fuel →
    perform (machine.run (pure false) fuel s.1) s.2 = (.ok (.exhausted, s'.1), s'.2)
  budget : ∀ n fuel, n < fuel → ∃ outcome t rest world,
    perform (((machine.beside StepBudget).run (inquiry fun _ => StepBudget.poll) fuel s.1).run
      ⟨n⟩) s.2 = (.ok ((outcome, t), rest), world) ∧ (outcome = .exhausted ↔ steps < n)

theorem stepsLeft_of_strides (h : machine.strides? steps s = some s')
    (last : machine.stride? s' = none) :
    machine.stepsLeft s = steps := by
  induction steps generalizing s with
  | zero =>
    cases h
    exact stepsLeft_of_no_stride last
  | succ steps ih =>
    obtain ⟨next, hstep, hrest⟩ := Option.bind_eq_some_iff.1 h
    rw [stepsLeft_of_step (stride?_eq_some.1 hstep), ih hrest]
    rfl

theorem Rests.stride?_of_over (rests : machine.Rests) (ended : machine.isOver s.1 = true) :
    machine.stride? s = none := by
  rw [stride?, rests s.1 ended]
  rfl

/-- The end is reached after one number of steps only. -/
theorem Rests.steps_unique (rests : machine.Rests) {n k : Nat} {s'' : τ × ω}
    (h : machine.strides? n s = some s') (ended : machine.isOver s'.1 = true)
    (h' : machine.strides? k s = some s'') (ended' : machine.isOver s''.1 = true) : n = k := by
  have hn := stepsLeft_of_strides h (rests.stride?_of_over ended)
  have hk := stepsLeft_of_strides h' (rests.stride?_of_over ended')
  exact_mod_cast hn.symm.trans hk

/-- A budget is used up on the way to the end, or it is not. -/
theorem run_budget_of_strides (rests : machine.Rests)
    (quiet : ∀ t, machine.noteCancelled t = pure ()) (h : machine.strides? steps s = some s')
    (ended : machine.isOver s'.1 = true) {n fuel : Nat} (enough : n < fuel) :
    ∃ outcome t rest world,
      perform (((machine.beside StepBudget).run (inquiry fun _ => StepBudget.poll) fuel s.1).run
        ⟨n⟩) s.2 = (.ok ((outcome, t), rest), world) ∧ (outcome = .exhausted ↔ steps < n) := by
  obtain ⟨fuel, rfl⟩ := Nat.exists_eq_add_of_lt enough
  induction n generalizing s steps with
  | zero =>
    refine ⟨.cancelled, s.1, ⟨0⟩, s.2, ?_, by simp⟩
    rw [perform_run_beside_succ quiet]
    rfl
  | succ n ih =>
    rw [perform_run_beside_succ quiet]
    cases steps with
    | zero =>
      cases h
      refine ⟨.exhausted, s'.1, ⟨n⟩, s'.2, ?_, by simp⟩
      rw [rests s'.1 ended]
      rfl
    | succ steps =>
      obtain ⟨next, hstep, hrest⟩ := Option.bind_eq_some_iff.1 h
      obtain ⟨outcome, t, rest, world, hrun, hiff⟩ := ih hrest (by omega)
      refine ⟨outcome, t, rest, world, ?_, hiff.trans (by omega)⟩
      rw [stride?_eq_some.1 hstep, ← hrun, Nat.add_right_comm n 1 fuel]
      rfl

theorem Rests.endsAfter (rests : machine.Rests) (quiet : ∀ t, machine.noteCancelled t = pure ())
    (h : machine.strides? steps s = some s') (ended : machine.isOver s'.1 = true) :
    machine.EndsAfter s steps s' where
  strides := h
  ended := by rw [rests s'.1 ended, perform_pure]
  stepsLeft := stepsLeft_of_strides h (rests.stride?_of_over ended)
  run := by
    intro fuel enough
    obtain ⟨more, rfl⟩ := Nat.exists_eq_add_of_lt enough
    have hrun := perform_run_of_strides h (more + 1)
    rw [rests.perform_run_succ ended] at hrun
    exact hrun
  budget n fuel enough := run_budget_of_strides rests quiet h ended enough

theorem EndsAfter.steps_eq {more : Nat} {last : τ × ω} (h : machine.EndsAfter s steps s')
    (h' : machine.EndsAfter s more last) : steps = more := by
  exact_mod_cast h.stepsLeft.symm.trans h'.stepsLeft

end Machine

/-! ## Visitors that let a search go on -/

section Obliging

variable {V K κ σ ω C : Type}

/-- The call returns in every world, and lets the search go on. -/
def Obliges (call : σ → ExceptT Fault (StateM ω) (Signal × σ)) : Prop :=
  ∀ state world, ∃ state' world', perform (call state) world = (.ok (.proceed, state'), world')

/-- Each call of the visitor returns and lets the search go on. -/
structure Visitor.Obliging (visitor : Visitor (ExceptT Fault (StateM ω)) V C σ) : Prop where
  enter : ∀ source target search, Obliges (visitor.enter source target search)
  revisit : ∀ source target search, Obliges (visitor.revisit source target search)
  leave : ∀ vertex frame search, Obliges (visitor.leave vertex frame search)

theorem Obliges.keep {α : Type} {call : σ → ExceptT Fault (StateM ω) (Signal × σ)}
    (h : Obliges call) (a : α) (state : List α × σ) (world : ω) :
    ∃ state' world', perform (Visitor.keeping.keep a call state) world =
      (.ok (.proceed, state.1 ++ [a], state'), world') := by
  obtain ⟨state', world', hcall⟩ := h state.2 world
  refine ⟨state', world', ?_⟩
  rw [Visitor.keeping.keep, perform_bind, hcall]
  rfl

variable [Store κ K] [Render V] (graph : StateGraph Id V) (key : V → K) {log : List (Event V)}
  {state : σ}

theorem DepthSearch.exists_move {visitor : Visitor (ExceptT Fault (StateM ω)) V (DepthSearch V κ) σ}
    (obliging : visitor.Obliging) {search : DepthSearch V κ} (hopen : search.stack.items ≠ [])
    (world : ω) :
    ∃ events next state' world', Move graph key search events next ∧
      perform (step (graph.under key) visitor.logged { search, state := (log, state) }) world =
        (.ok (some .proceed, { search := next, state := (log ++ events, state') }), world') := by
  cases items : search.stack.items with
  | nil => exact absurd items hopen
  | cons top rest =>
    cases offer : search.offer top with
    | some target =>
      cases hknows : Store.knows search.known (key target) with
      | false =>
        obtain ⟨state', world', hcall⟩ :=
          (obliging.enter top.vertex target (search.advance.learn (key target))).keep
            (.entry top.vertex target) (log, state) world
        refine ⟨_, _, state', world', .enter items offer hknows, ?_⟩
        rw [step_enter items offer hknows, perform_bind]
        exact hcall ▸ rfl
      | true =>
        obtain ⟨state', world', hcall⟩ := (obliging.revisit top.vertex target search.advance).keep
          (.known top.vertex target) (log, state) world
        refine ⟨_, _, state', world', .revisit items offer hknows, ?_⟩
        rw [step_revisit items offer hknows, perform_bind]
        exact hcall ▸ rfl
    | none =>
      cases hvertex : top.vertex with
      | some vertex =>
        obtain ⟨state', world', hcall⟩ := (obliging.leave vertex top search.pop).keep
          (.exit vertex top) (log, state) world
        refine ⟨_, _, state', world', .leave items offer hvertex, ?_⟩
        rw [step_leave items offer hvertex, perform_bind]
        exact hcall ▸ rfl
      | none =>
        refine ⟨_, _, state, world, .finish items offer hvertex, ?_⟩
        rw [step_finish items offer hvertex, List.append_nil, perform_pure]

omit [Render V] in
theorem BreadthSearch.exists_leave
    {visitor : Visitor (ExceptT Fault (StateM ω)) V (BreadthSearch V κ) σ}
    (obliging : visitor.Obliging) (frame : Frame V) (search : BreadthSearch V κ) (world : ω) :
    ∃ state' world',
      perform (leave visitor.logged (some frame) { search, state := (log, state) }) world =
      (.ok (.proceed, { search, state := (log ++ frame.farewell, state') }), world') := by
  obtain ⟨_ | vertex, successors⟩ := frame
  · refine ⟨state, world, ?_⟩
    rw [Frame.farewell, List.append_nil]
    rfl
  · obtain ⟨state', world', hcall⟩ :=
      (obliging.leave vertex { vertex := some vertex, successors } search).keep
        (.exit vertex { vertex := some vertex, successors }) (log, state) world
    refine ⟨state', world', ?_⟩
    rw [leave, perform_bind]
    exact hcall ▸ rfl

theorem BreadthSearch.exists_move
    {visitor : Visitor (ExceptT Fault (StateM ω)) V (BreadthSearch V κ) σ}
    (obliging : visitor.Obliging) {search : BreadthSearch V κ} (hopen : search.expanding ≠ none)
    (world : ω) :
    ∃ events next state' world', Move graph key search events next ∧
      perform (step (graph.under key) visitor.logged { search, state := (log, state) }) world =
        (.ok (some .proceed, { search := next, state := (log ++ events, state') }), world') := by
  cases expanding : search.expanding with
  | none => exact absurd expanding hopen
  | some frame =>
    cases peek : frame.peek with
    | some target =>
      cases hknows : Store.knows search.known (key target) with
      | false =>
        obtain ⟨state', world', hcall⟩ :=
          (obliging.enter frame.vertex target (search.advance.learn (key target))).keep
            (.entry frame.vertex target) (log, state) world
        refine ⟨_, _, state', world', .enter expanding peek hknows, ?_⟩
        rw [step_enter expanding peek hknows, perform_bind]
        exact hcall ▸ rfl
      | true =>
        obtain ⟨state', world', hcall⟩ := (obliging.revisit frame.vertex target search.advance).keep
          (.known frame.vertex target) (log, state) world
        refine ⟨_, _, state', world', .revisit expanding peek hknows, ?_⟩
        rw [step_revisit expanding peek hknows, perform_bind]
        exact hcall ▸ rfl
    | none =>
      obtain ⟨state', world', hcall⟩ := exists_leave obliging frame (search.turned graph) world
      refine ⟨_, _, state', world', .turn expanding peek, ?_⟩
      rw [step_turn expanding peek, perform_bind, hcall]
      rfl

end Obliging

/-! ## Machines that make all moves -/

section Pursues

variable {V K κ σ ω C : Type} [Store κ K] {graph : StateGraph Id V} {key : V → K} {known : κ}
  {agenda : C → Agenda V κ} {Found : List (Event V) → C → Prop}
  {machine : Machine (ExceptT Fault (StateM ω)) (Session C (List (Event V) × σ))}
  {t t' : Session C (List (Event V) × σ)} {world world' : ω} {n : Nat}

/-- The machine makes moves of an agenda until no frame is open, and keeps a log of them. The
searches that it comes to satisfy `Found` of the log. -/
structure Pursues (graph : StateGraph Id V) (key : V → K) (known : κ) (agenda : C → Agenda V κ)
    (Found : List (Event V) → C → Prop)
    (machine : Machine (ExceptT Fault (StateM ω)) (Session C (List (Event V) × σ))) : Prop where
  rests : machine.Rests
  quiet : ∀ t, machine.noteCancelled t = pure ()
  over_iff : ∀ t, machine.isOver t = true ↔ (agenda t.search).frames = 0
  explores : ∀ {log search}, Found log search →
    Agenda.Explores graph key True (Agenda.start graph known) log (agenda search)
  move : ∀ t world, Found t.state.1 t.search → machine.isOver t = false →
    ∃ events next state world',
    Agenda.Move graph key True (agenda t.search) events (agenda next) ∧
      Found (t.state.1 ++ events) next ∧
      perform (machine.step t) world =
        (.ok (some .proceed, { search := next, state := (t.state.1 ++ events, state) }), world')

namespace Pursues

/-- Where the machine is after a number of steps, as far as the account goes. -/
structure Stage (graph : StateGraph Id V) (agenda : C → Agenda V κ)
    (Found : List (Event V) → C → Prop) (n : Nat) (t : Session C (List (Event V) × σ)) : Prop where
  found : Found t.state.1 t.search
  account : n + (agenda t.search).work = graph.toll (discoveries t.state.1)

theorem stage_step (pursues : Pursues graph key known agenda Found machine)
    (finitary : graph.Finitary) (stage : Stage graph agenda Found n t)
    (hstep : perform (machine.step t) world = (.ok (some .proceed, t'), world')) :
    Stage graph agenda Found (n + 1) t' := by
  cases hover : machine.isOver t with
  | true =>
    rw [pursues.rests t hover] at hstep
    cases hstep
  | false =>
    obtain ⟨events, next, state, world'', move, found, hmove⟩ :=
      pursues.move t world stage.found hover
    cases hmove.symm.trans hstep
    have hpaid := (pursues.explores stage.found).work_add_toll finitary trivial move
    have haccount := stage.account
    refine ⟨found, ?_⟩
    dsimp only
    omega

theorem stage_strides (pursues : Pursues graph key known agenda Found machine)
    (finitary : graph.Finitary) {k : Nat} (stage : Stage graph agenda Found k t)
    (hstrides : machine.strides? n (t, world) = some (t', world')) :
    Stage graph agenda Found (k + n) t' := by
  induction n generalizing k t world with
  | zero =>
    cases hstrides
    exact stage
  | succ n ih =>
    obtain ⟨⟨next, after⟩, hstep, hrest⟩ := Option.bind_eq_some_iff.1 hstrides
    have hnext := ih (pursues.stage_step finitary stage (Machine.stride?_eq_some.1 hstep)) hrest
    rwa [Nat.add_assoc, Nat.add_comm 1 n] at hnext

/-- If there is no infinite exploration, steps in a row come to an end. -/
theorem exists_end (pursues : Pursues graph key known agenda Found machine)
    (terminates : Agenda.Terminates graph key True (Agenda.start graph known))
    (found : Found t.state.1 t.search) (world : ω) :
    ∃ n t' world', machine.strides? n (t, world) = some (t', world') ∧
      machine.isOver t' = true := by
  generalize hpresent : agenda t.search = present
  induction present using terminates.induction generalizing t world with
  | h present ih =>
    subst hpresent
    cases hover : machine.isOver t with
    | true => exact ⟨0, t, world, rfl, hover⟩
    | false =>
      obtain ⟨events, next, state, after, move, found', hstep⟩ := pursues.move t world found hover
      have explores := pursues.explores found
      obtain ⟨n, t', world', hstrides, hended⟩ :=
        ih (agenda next) ⟨t.state.1, events, explores, move⟩
          (t := { search := next, state := (t.state.1 ++ events, state) }) found' after rfl
      exact ⟨n + 1, t', world', (Machine.strides?_succ_of_step hstep n).trans hstrides, hended⟩

/-- The account is balanced at the outset. -/
theorem stage_start {first : C} (found : Found [] first)
    (start : agenda first = Agenda.start graph known) (state : σ) :
    Stage graph agenda Found 0 { search := first, state := (([] : List (Event V)), state) } := by
  refine ⟨found, ?_⟩
  dsimp only
  rw [start, Agenda.work_start, Nat.zero_add, discoveries_nil]

/-! The machine without the log comes to its end with it. -/

section Plain

variable {plain : Machine (ExceptT Fault (StateM ω)) (Session C σ)} {first : C} {state : σ}

/-- Wherever the plain machine gets to, there is a log of what it has done. -/
theorem exists_log (pursues : Pursues graph key known agenda Found machine)
    (finitary : graph.Finitary) (found : Found [] first)
    (start : agenda first = Agenda.start graph known)
    (views : Machine.Views Session.unkept machine plain) {t : Session C σ}
    (hstrides : plain.strides? n ({ search := first, state }, world) = some (t, world')) :
    ∃ log, machine.strides? n ({ search := first, state := ([], state) }, world) =
        some ({ search := t.search, state := (log, t.state) }, world') ∧ Found log t.search := by
  have hview := views.strides?_view n { search := first, state := ([], state) } world
  obtain ⟨⟨⟨search, log, inner⟩, after⟩, hlogged, heq⟩ :=
    Option.map_eq_some_iff.1 (hview.symm.trans hstrides)
  cases heq
  exact ⟨log, hlogged,
    (pursues.stage_strides finitary (stage_start found start state) hlogged).found⟩

/-- From the roots on, the machine comes to its end after as many steps as the vertices call for
that it enters. -/
theorem exists_endsAfter (pursues : Pursues graph key known agenda Found machine)
    (finitary : graph.Finitary)
    (terminates : Agenda.Terminates graph key True (Agenda.start graph known))
    (found : Found [] first) (start : agenda first = Agenda.start graph known)
    (views : Machine.Views Session.unkept machine plain) (rests : plain.Rests) (world : ω) :
    ∃ log t world',
      plain.EndsAfter ({ search := first, state }, world)
        (graph.toll (discoveries log)) (t, world') ∧
      machine.strides? (graph.toll (discoveries log))
        ({ search := first, state := ([], state) }, world) =
        some ({ search := t.search, state := (log, t.state) }, world') ∧
      Found log t.search ∧ (agenda t.search).frames = 0 := by
  obtain ⟨n, t, world', hstrides, hended⟩ :=
    pursues.exists_end terminates (t := { search := first, state := ([], state) }) found world
  have stage := pursues.stage_strides finitary (stage_start found start state) hstrides
  have hframes := (pursues.over_iff t).1 hended
  have hsteps : graph.toll (discoveries t.state.1) = n := by
    have haccount := stage.account
    rw [Agenda.work, hframes, Multiset.map_zero, Multiset.sum_zero] at haccount
    omega
  have hplain := views.strides?_view n { search := first, state := ([], state) } world
  rw [hstrides, Option.map_some] at hplain
  have hquiet : ∀ t, plain.noteCancelled t = pure () := fun t =>
    (views.note { search := t.search, state := ([], t.state) }).symm.trans (pursues.quiet _)
  have hover : plain.isOver t.unkept = true := (views.isOver t).symm.trans hended
  refine ⟨t.state.1, t.unkept, world', ?_, ?_, stage.found, hframes⟩
  · rw [hsteps]
    exact rests.endsAfter hquiet hplain hover
  · rw [hsteps]
    exact hstrides

end Plain

end Pursues

end Pursues

/-! ## Both orders -/

section Orders

variable {V K κ σ ω : Type} [Store κ K] [Render V] {graph : StateGraph Id V} {key : V → K}
  {known : κ}

theorem DepthSearch.pursues {visitor : Visitor (ExceptT Fault (StateM ω)) V (DepthSearch V κ) σ}
    (obliging : visitor.Obliging) :
    Pursues graph key known DepthSearch.agenda
      (StateExplorer.Explores graph key (fresh graph known none))
      (machine (graph.under key) visitor.logged) where
  rests := machine_rests _
  quiet _ := Journal.debug_eq _
  over_iff t := by
    change t.search.stack.items.isEmpty = true ↔ _
    rw [List.isEmpty_iff]
    exact (Multiset.coe_eq_zero _).symm
  explores h := by
    have hagenda := h.agenda
    rwa [eq_self] at hagenda
  move := by
    rintro ⟨search, log, state⟩ world explores hopen
    have hitems : search.stack.items ≠ [] := by
      change search.stack.items.isEmpty = false at hopen
      rwa [← Bool.not_eq_true, List.isEmpty_iff] at hopen
    obtain ⟨events, next, state', world', move, hstep⟩ :=
      exists_move graph key obliging hitems world
    have hmove := move.agenda
    rw [explores.bound_eq, eq_self] at hmove
    exact ⟨events, next, state', world', hmove, explores.step move, hstep⟩

theorem BreadthSearch.pursues {visitor : Visitor (ExceptT Fault (StateM ω)) V (BreadthSearch V κ) σ}
    (obliging : visitor.Obliging) :
    Pursues graph key known (fun search => search.agenda graph)
      (Explores graph key (fresh graph known))
      (machine (graph.under key) visitor.logged) where
  rests := machine_rests _
  quiet _ := Journal.debug_eq _
  over_iff t := by
    change t.search.expanding.isNone = true ↔ _
    rw [Option.isNone_iff_eq_none, frames_eq_zero]
  explores h := h.agenda
  move := by
    rintro ⟨search, log, state⟩ world explores hopen
    have hexpanding : search.expanding ≠ none := by
      change search.expanding.isNone = false at hopen
      rwa [← Bool.not_eq_true, Option.isNone_iff_eq_none] at hopen
    obtain ⟨events, next, state', world', move, hstep⟩ :=
      exists_move graph key obliging hexpanding world
    exact ⟨events, next, state', world', move.agenda, explores.step move, hstep⟩

end Orders

/-- If the reachable vertices have finitely many canonical forms, each order of search comes to its
end, and the number of steps is that of the roots, of the neighbours of all vertices that it enters,
of these vertices themselves, and one. The visitor does what it likes with a world of type `ω`, as
long as it lets the search go on. What the search enters is what the visitor keeps if it also keeps
a log, which changes nothing else. -/
theorem number_of_steps_is_toll {V K κ σ ω : Type} [Store κ K] [Render V] (graph : StateGraph Id V)
    (key : V → K) (known : κ) (finitary : graph.Finitary)
    (finite : (Set.image key {v | graph.Reachable v}).Finite) (remembers : Store.Remembers known) :
    (∀ visitor : Visitor (ExceptT Fault (StateM ω)) V (DepthSearch V κ) σ, visitor.Obliging →
      ∀ state world, ∃ first log t world',
        perform (DepthSearch.start (graph.under key) known none) world = (.ok first, world) ∧
        (DepthSearch.machine (graph.under key) visitor).EndsAfter
          ({ search := first, state }, world) (graph.toll (discoveries log)) (t, world') ∧
        (DepthSearch.machine (graph.under key) visitor.logged).strides?
          (graph.toll (discoveries log)) ({ search := first, state := ([], state) }, world) =
            some ({ search := t.search, state := (log, t.state) }, world')) ∧
    (∀ visitor : Visitor (ExceptT Fault (StateM ω)) V (BreadthSearch V κ) σ, visitor.Obliging →
      ∀ state world, ∃ first log t world',
        perform (BreadthSearch.start (graph.under key) known) world = (.ok first, world) ∧
        (BreadthSearch.machine (graph.under key) visitor).EndsAfter
          ({ search := first, state }, world)
          (graph.toll (discoveries log)) (t, world') ∧
        (BreadthSearch.machine (graph.under key) visitor.logged).strides?
          (graph.toll (discoveries log))
          ({ search := first, state := ([], state) }, world) =
            some ({ search := t.search, state := (log, t.state) }, world')) := by
  have terminates : Agenda.Terminates graph key True (Agenda.start graph known) :=
    Agenda.terminates_of_finite finitary finite remembers.faithful
  refine ⟨fun visitor obliging state world => ?_, fun visitor obliging state world => ?_⟩
  · obtain ⟨log, t, world', hends, hlogged, -⟩ :=
      (DepthSearch.pursues obliging).exists_endsAfter finitary
      terminates .refl rfl (DepthSearch.keeping_views _ visitor _)
      (DepthSearch.machine_rests visitor) world
    exact ⟨_, log, t, world', by rw [DepthSearch.start_under, perform_pure], hends, hlogged⟩
  · obtain ⟨log, t, world', hends, hlogged, -⟩ :=
      (BreadthSearch.pursues obliging).exists_endsAfter finitary
      terminates .refl rfl (BreadthSearch.keeping_views _ visitor _)
      (BreadthSearch.machine_rests visitor) world
    exact ⟨_, log, t, world', by rw [BreadthSearch.start_under, perform_pure], hends, hlogged⟩

theorem Visitor.obliging_counting {V C : Type} :
    (counting : Visitor (ExceptT Fault (StateM Nat)) V C Unit).Obliging where
  enter _ _ _ _ world := ⟨(), world + 1, rfl⟩
  revisit _ _ _ _ world := ⟨(), world + 1, rfl⟩
  leave _ _ _ _ world := ⟨(), world + 1, rfl⟩

/-- Six steps in a row lead to the end of each search for odd and even numbers. -/
theorem strides?_ray :
    (∃ t, (DepthSearch.machine (StateGraph.ray.under (· % 2)) Visitor.counting).strides? 6
        ({ search := DepthSearch.fresh StateGraph.ray ProbingSet.colliding none, state := () }, 0) =
          some (t, 5) ∧ t.search.isOver = true) ∧
    ∃ t, (BreadthSearch.machine (StateGraph.ray.under (· % 2)) Visitor.counting).strides? 6
        ({ search := BreadthSearch.fresh StateGraph.ray ProbingSet.colliding, state := () }, 0) =
          some (t, 5) ∧ t.search.isOver = true :=
  ⟨⟨_, rfl, rfl⟩, _, rfl, rfl⟩

/-- Modulo two, each search enters two of infinitely many vertices and takes six steps, five of
which the visitor is told about. -/
theorem number_of_steps_is_toll_ray :
    StateGraph.ray.Finitary ∧ (Set.image (· % 2) {v | StateGraph.ray.Reachable v}).Finite ∧
    {v | StateGraph.ray.Reachable v}.Infinite ∧
    Store.Remembers ProbingSet.colliding ∧
    (∀ C : Type, (Visitor.counting : Visitor (ExceptT Fault (StateM Nat)) Nat C Unit).Obliging) ∧
    (∃ first log t world,
      perform (DepthSearch.start (StateGraph.ray.under (· % 2)) ProbingSet.colliding none) 0 =
        (.ok first, 0) ∧
      StateGraph.ray.toll (discoveries log) = 6 ∧
      (DepthSearch.machine (StateGraph.ray.under (· % 2)) Visitor.counting).EndsAfter
        ({ search := first, state := () }, 0) 6 (t, world) ∧
      (DepthSearch.machine (StateGraph.ray.under (· % 2)) Visitor.counting.logged).strides? 6
        ({ search := first, state := ([], ()) }, 0) =
          some ({ search := t.search, state := (log, t.state) }, world)) ∧
    ∃ first log t world,
      perform (BreadthSearch.start (StateGraph.ray.under (· % 2)) ProbingSet.colliding) 0 =
        (.ok first, 0) ∧
      StateGraph.ray.toll (discoveries log) = 6 ∧
      (BreadthSearch.machine (StateGraph.ray.under (· % 2)) Visitor.counting).EndsAfter
        ({ search := first, state := () }, 0) 6 (t, world) ∧
      (BreadthSearch.machine (StateGraph.ray.under (· % 2)) Visitor.counting.logged).strides? 6
        ({ search := first, state := ([], ()) }, 0) =
          some ({ search := t.search, state := (log, t.state) }, world) := by
  have finite : (Set.image (· % 2) {v | StateGraph.ray.Reachable v}).Finite := by
    refine (Set.finite_Iio 2).subset ?_
    rintro k ⟨n, -, rfl⟩
    exact Nat.mod_lt n (by decide)
  have infinite : {v | StateGraph.ray.Reachable v}.Infinite :=
    Set.infinite_univ.mono fun n _ => StateGraph.reachable_ray n
  have remembers : Store.Remembers ProbingSet.colliding :=
    ProbingSet.remembers_empty _
  obtain ⟨⟨last, hstrides, hover⟩, last', hstrides', hover'⟩ := strides?_ray
  obtain ⟨hdepth, hbreadth⟩ := number_of_steps_is_toll (σ := Unit) (ω := Nat) StateGraph.ray (· % 2)
    ProbingSet.colliding StateGraph.finitary_ray finite remembers
  refine ⟨StateGraph.finitary_ray, finite, infinite, remembers,
    fun _ => Visitor.obliging_counting, ?_, ?_⟩
  · obtain ⟨first, log, t, world, hstart, hends, hlogged⟩ :=
      hdepth Visitor.counting Visitor.obliging_counting () 0
    have hfirst : first = DepthSearch.fresh StateGraph.ray ProbingSet.colliding none := by
      rw [DepthSearch.start_under, perform_pure] at hstart
      exact (Except.ok.inj (Prod.mk.inj hstart).1).symm
    have htoll : StateGraph.ray.toll (discoveries log) = 6 := by
      rw [hfirst] at hends
      exact hends.steps_eq
        ((DepthSearch.machine_rests _).endsAfter (fun _ => Journal.debug_eq _) hstrides hover)
    rw [htoll] at hends hlogged
    exact ⟨first, log, t, world, hstart, htoll, hends, hlogged⟩
  · obtain ⟨first, log, t, world, hstart, hends, hlogged⟩ :=
      hbreadth Visitor.counting Visitor.obliging_counting () 0
    have hfirst : first = BreadthSearch.fresh StateGraph.ray ProbingSet.colliding := by
      rw [BreadthSearch.start_under, perform_pure] at hstart
      exact (Except.ok.inj (Prod.mk.inj hstart).1).symm
    have htoll : StateGraph.ray.toll (discoveries log) = 6 := by
      rw [hfirst] at hends
      exact hends.steps_eq
        ((BreadthSearch.machine_rests _).endsAfter (fun _ => Journal.debug_eq _) hstrides' hover')
    rw [htoll] at hends hlogged
    exact ⟨first, log, t, world, hstart, htoll, hends, hlogged⟩

end StateExplorer
