import StateExplorer.Proofs.Visiting

/-!
# The calls of a depth-first search

What a visitor is told in a depth-first search that comes to its end has the shape of a recursion:
vertices are entered and left like brackets, each look at a successor is made on behalf of the
innermost vertex that has not been left, and by the time a vertex is left its successors have been
looked at one by one. `IsTour` says this of a log. It holds for all canonical forms, also for those
that say little about the graph (`Explores.isTour`).
-/

namespace StateExplorer

open DepthSearch Event

/-! ## Reading a log -/

namespace Event

variable {V : Type}

/-- The source and the target of a look at a successor. -/
def look? : Event V → Option (Option V × V)
  | entry source target => some (source, target)
  | known source target => some (source, target)
  | exit _ _ => none

/-- The vertex that an event leaves. -/
def exit? : Event V → Option V
  | entry _ _ => none
  | known _ _ => none
  | exit vertex _ => some vertex

/-- The vertices left in a log, in this order. -/
def exits (log : List (Event V)) : List V := log.filterMap exit?

/-- The vertices that have been entered and not left, where whatever is left is the one that was
entered last. The innermost vertex comes first. -/
def unfinished (log : List (Event V)) : List V :=
  log.foldl (fun inner event =>
    match event with
    | entry _ target => target :: inner
    | known _ _ => inner
    | exit _ _ => inner.tail) []

/-- What has been looked at as a successor of `source`, in this order. -/
def targets [DecidableEq V] (log : List (Event V)) (source : Option V) : List V :=
  ((log.filterMap look?).filter fun look => look.1 = source).map Prod.snd

variable {log : List (Event V)} {source source' : Option V} {target vertex : V} {frame : Frame V}

@[simp] theorem exits_entry : exits (log ++ [entry source target]) = exits log := by
  simp [exits, exit?]

@[simp] theorem exits_known : exits (log ++ [known source target]) = exits log := by
  simp [exits, exit?]

@[simp] theorem exits_exit : exits (log ++ [exit vertex frame]) = exits log ++ [vertex] := by
  simp [exits, exit?]

@[simp] theorem unfinished_entry :
    unfinished (log ++ [entry source target]) = target :: unfinished log := by
  simp [unfinished]

@[simp] theorem unfinished_known : unfinished (log ++ [known source target]) = unfinished log := by
  simp [unfinished]

@[simp] theorem unfinished_exit :
    unfinished (log ++ [exit vertex frame]) = (unfinished log).tail := by
  simp [unfinished]

section Targets

variable [DecidableEq V]

theorem targets_look {event : Event V} (h : event.look? = some (source, target)) :
    targets (log ++ [event]) source' =
      if source = source' then targets log source' ++ [target] else targets log source' := by
  by_cases hs : source = source' <;> simp [targets, h, hs]

@[simp] theorem targets_exit :
    targets (log ++ [exit vertex frame]) source = targets log source := by
  simp [targets, look?]

theorem lookedAt_of_mem_targets (h : target ∈ targets log source) : LookedAt log source target := by
  simp only [targets, List.mem_map, List.mem_filter, List.mem_filterMap, decide_eq_true_eq] at h
  obtain ⟨⟨s, t⟩, ⟨⟨event, hevent, hlook⟩, rfl⟩, rfl⟩ := h
  cases event with
  | entry s t => cases hlook; exact Or.inl hevent
  | known s t => cases hlook; exact Or.inr hevent
  | exit vertex frame => cases hlook

end Targets

end Event

/-- The log of a depth-first search that came to its end. -/
structure IsTour {V K : Type} [DecidableEq V] (graph : StateGraph Id V) (key : V → K)
    (log : List (Event V)) : Prop where
  /-- No canonical form is entered twice. -/
  distinct : ((discoveries log).map key).Nodup
  /-- A vertex is passed over if its canonical form has been entered before. -/
  passed : ∀ {before after source target}, log = before ++ .known source target :: after →
    key target ∈ (discoveries before).map key
  /-- A vertex is entered if its canonical form has not been entered before. -/
  entered : ∀ {before after source target}, log = before ++ .entry source target :: after →
    key target ∉ (discoveries before).map key
  /-- What is entered is left as often as it is entered. -/
  exits_perm : (exits log).Perm (discoveries log)
  /-- What is left is the innermost vertex that has not been left. -/
  closes : ∀ {before after vertex frame}, log = before ++ .exit vertex frame :: after →
    (unfinished before).head? = some vertex
  /-- In the end every vertex has been left. -/
  closed : unfinished log = []
  /-- Successors are looked at on behalf of the innermost vertex that has not been left. -/
  source_eq : ∀ {before after event source target}, log = before ++ event :: after →
    event.look? = some (source, target) → source = (unfinished before).head?
  /-- What is looked at as a root, or as a neighbour of an entered vertex, are all the roots, or all
  the neighbours, one by one. -/
  reads : ∀ source, Opened log source → graph.after source = .finite (targets log source)

/-! ## Reading a sequence -/

/-- The elements `read` have been read from `whole`, and `rest` is left. -/
inductive Sequence.Reading {α : Type} (whole : Sequence α) : List α → Sequence α → Prop
  | start : Reading whole [] whole
  | next {read : List α} {rest : Sequence α} {a : α} (before : Reading whole read rest)
      (head : rest.head? = some a) : Reading whole (read ++ [a]) rest.tail

namespace Sequence.Reading

variable {α : Type} {whole rest : Sequence α} {read : List α}

theorem finite_append (h : Reading whole read rest) {items : List α}
    (hrest : rest = .finite items) :
    whole = .finite (read ++ items) := by
  induction h generalizing items with
  | start => exact hrest
  | @next read rest a before head ih =>
    cases rest with
    | finite left =>
      cases left with
      | nil => cases head
      | cons b left =>
        cases head
        cases hrest
        simpa using ih rfl
    | endless item next => cases hrest

/-- A sequence in which nothing is left to read has been read as a whole. -/
theorem eq_of_ended (h : Reading whole read rest) (ended : rest.head? = none) :
    whole = .finite read := by
  cases rest with
  | finite items =>
    have hnil : items = [] := by simpa using ended
    simpa [hnil] using h.finite_append rfl
  | endless item next => cases ended

end Sequence.Reading

/-! ## Facts about every exploration -/

namespace Explores

variable {V K κ : Type} [Store κ K] {graph : StateGraph Id V} {key : V → K} {known : κ}
  {bound : Option Nat} {log : List (Event V)} {search : DepthSearch V κ}

/-- Each event of a log stems from a move, made when the events before it had been told. -/
theorem split {first : DepthSearch V κ} (h : Explores graph key first log search)
    {before after : List (Event V)} {event : Event V} (hlog : log = before ++ event :: after) :
    ∃ mid next, Explores graph key first before mid ∧ Move graph key mid [event] next := by
  induction h generalizing before event after with
  | refl => simp at hlog
  | @step log events search next earlier move ih =>
    have hevents : events = [] ∨ ∃ last, events = [last] := by
      cases move <;> simp
    rcases hevents with rfl | ⟨last, rfl⟩
    · exact ih (by simpa using hlog)
    · exact forall_split_concat (fun _ _ _ hinit => ih hinit)
        ⟨search, next, earlier, move⟩ _ _ _ hlog

/-- The vertices that have not been left are those on the stack. -/
theorem unfinished_eq (h : Explores graph key (fresh graph known bound) log search) :
    unfinished log = search.path.reverse := by
  induction h with
  | refl => rfl
  | @step log events search next before move ih =>
    cases move with
    | enter items offer new => simp [ih]
    | revisit items offer old => simp [ih]
    | leave items offer some_vertex =>
      rw [unfinished_exit, ih, path_of_items items, some_vertex]
      simp
    | finish items offer no_vertex =>
      rw [List.append_nil, ih, path_of_items items, no_vertex]
      simp

/-- The innermost vertex that has not been left is that of the top frame. -/
theorem head?_unfinished (h : Explores graph key (fresh graph known bound) log search)
    {top : Frame V} {rest : List (Frame V)} (items : search.stack.items = top :: rest) :
    (unfinished log).head? = top.vertex := by
  rw [h.unfinished_eq, List.head?_reverse, h.grounded.getLast?_path items]

/-- What was discovered has been left or is on the stack. -/
theorem exits_append_path (h : Explores graph key (fresh graph known bound) log search) :
    (exits log ++ search.path).Perm (discoveries log) := by
  induction h with
  | refl => exact .refl _
  | @step log events search next before move ih =>
    cases move with
    | enter items offer new =>
      rw [exits_entry, discoveries_entry, path_pushed, path_learn, path_advance,
        ← List.append_assoc]
      exact ih.append_right _
    | revisit items offer old =>
      rw [exits_known, discoveries_known, path_advance]
      exact ih
    | leave items offer some_vertex =>
      rw [path_of_items items, some_vertex] at ih
      rw [exits_exit, discoveries_exit, List.append_assoc]
      exact (List.perm_append_comm.append_left _).trans ih
    | finish items offer no_vertex =>
      rw [path_of_items items, no_vertex, Option.toList_none, List.append_nil] at ih
      rw [List.append_nil]
      exact ih

theorem targets_eq_nil [DecidableEq V] (h : Explores graph key (fresh graph known bound) log search)
    {v : V} (hv : v ∉ discoveries log) : targets log (some v) = [] := by
  rw [List.eq_nil_iff_forall_not_mem]
  intro target htarget
  exact hv (h.lookedAt_mem (lookedAt_of_mem_targets htarget)).2

section Faithful

variable (faithful : Store.Faithful known)

include faithful

/-- No two frames belong to the same vertex. -/
theorem nodup_vertices (h : Explores graph key (fresh graph known bound) log search) :
    (search.stack.items.map Frame.vertex).Nodup :=
  h.agenda.nodup_vertices faithful

variable [DecidableEq V]

/-- A look at a successor reads on in the top frame, and in no other. -/
theorem reading_advance (h : Explores graph key (fresh graph known bound) log search)
    (reading : ∀ frame ∈ search.stack.items,
      (graph.after frame.vertex).Reading (targets log frame.vertex) frame.successors)
    {top : Frame V} {rest : List (Frame V)} {target : V} {event : Event V}
    (items : search.stack.items = top :: rest) (peek : top.peek = some target)
    (look : event.look? = some (top.vertex, target)) :
    ∀ frame ∈ search.advance.stack.items, (graph.after frame.vertex).Reading
      (targets (log ++ [event]) frame.vertex) frame.successors := by
  intro frame hframe
  rw [items_advance items] at hframe
  rw [targets_look look]
  rcases List.mem_cons.1 hframe with rfl | hrest
  · have htop := reading top (by simp [items])
    rw [if_pos (show top.vertex = top.advance.vertex from rfl)]
    exact htop.next peek
  · have hnodup := h.nodup_vertices faithful
    rw [items, List.map_cons, List.nodup_cons] at hnodup
    have hne : top.vertex ≠ frame.vertex := fun heq => hnodup.1 (heq ▸ List.mem_map_of_mem hrest)
    rw [if_neg hne]
    exact reading frame (by simp [items, hrest])

/-- What is left to read in a frame comes after what has been looked at. -/
theorem reading (h : Explores graph key (fresh graph known bound) log search) :
    ∀ frame ∈ search.stack.items,
      (graph.after frame.vertex).Reading (targets log frame.vertex) frame.successors := by
  induction h with
  | refl =>
    intro frame hframe
    rw [items_fresh, List.mem_singleton] at hframe
    subst hframe
    exact .start
  | @step log events search next before move ih =>
    cases move with
    | @enter top rest target items offer new =>
      have hlook : (Event.entry top.vertex target).look? = some (top.vertex, target) := rfl
      have hadvance := before.reading_advance faithful ih items (peek_of_offer offer) hlook
      intro frame hframe
      rw [items_pushed, stack_learn] at hframe
      rcases List.mem_cons.1 hframe with rfl | hold
      · -- nothing has been looked at as a neighbour of the vertex that is entered
        have hnew := before.agenda.not_mem_discoveries faithful new
        have hne : top.vertex ≠ some target := by
          intro hv
          have hopen := before.opened_top items
          rw [hv] at hopen
          exact hnew hopen
        rw [targets_look rfl, if_neg hne, before.targets_eq_nil hnew]
        exact .start
      · exact hadvance frame hold
    | @revisit top rest target items offer old =>
      exact before.reading_advance faithful ih items (peek_of_offer offer) rfl
    | leave items offer some_vertex =>
      intro frame hframe
      rw [items_pop items] at hframe
      rw [targets_exit]
      exact ih frame (by simp [items, hframe])
    | finish items offer no_vertex =>
      intro frame hframe
      rw [items_pop items] at hframe
      rw [List.append_nil]
      exact ih frame (by simp [items, hframe])

/-- Without a bound, all successors of a vertex that has been left have been looked at. -/
theorem read_of_left (h : Explores graph key (fresh graph known none) log search)
    {source : Option V} (opened : Opened log source)
    (left : source ∉ search.stack.items.map Frame.vertex) :
    graph.after source = .finite (targets log source) := by
  induction h with
  | refl =>
    cases source with
    | none => simp at left
    | some v => cases opened
  | @step log events search next before move ih =>
    have hunbounded := before.bound_eq
    -- a frame that is dropped has been read to its end
    have hpop : ∀ {top rest}, search.stack.items = top :: rest → search.offer top = none →
        Opened log source → source ∉ search.pop.stack.items.map Frame.vertex →
        graph.after source = .finite (targets log source) := by
      intro top rest items offer hopen hleft
      rw [items_pop items] at hleft
      rw [offer_of_unbounded hunbounded] at offer
      by_cases htop : source = top.vertex
      · subst htop
        exact (before.reading faithful top (by simp [items])).eq_of_ended offer
      · exact ih hopen
          (by simp only [items, List.map_cons, List.mem_cons, not_or]; exact ⟨htop, hleft⟩)
    cases move with
    | @enter top rest target items offer new =>
      rw [items_pushed, stack_learn, items_advance items, List.map_cons,
        List.map_cons, List.mem_cons, List.mem_cons, not_or, not_or] at left
      have hne : top.vertex ≠ source := fun hs => left.2.1 hs.symm
      rw [targets_look rfl, if_neg hne]
      apply ih
      · cases source with
        | none => trivial
        | some v => exact (opened_entry.1 opened).resolve_right fun hv => left.1 (congrArg some hv)
      · rw [items, List.map_cons, List.mem_cons, not_or]
        exact ⟨left.2.1, left.2.2⟩
    | @revisit top rest target items offer old =>
      rw [items_advance items, List.map_cons, List.mem_cons, not_or] at left
      have hne : top.vertex ≠ source := fun hs => left.1 hs.symm
      rw [targets_look rfl, if_neg hne]
      apply ih (opened_known.1 opened)
      rw [items, List.map_cons, List.mem_cons, not_or]
      exact left
    | leave items offer some_vertex =>
      rw [targets_exit]
      exact hpop items offer (opened_exit.1 opened) left
    | finish items offer no_vertex =>
      rw [List.append_nil] at opened ⊢
      exact hpop items offer opened left

/-- The log of a search without a bound that knew nothing at first and has come to its end. -/
theorem isTour (h : Explores graph key (fresh graph known none) log search)
    (blank : ∀ k, Store.knows known k = false) (ended : search.stack.items = []) :
    IsTour graph key log where
  distinct := (h.nodup_discoveries faithful).1
  passed := by
    intro before after source target hlog
    obtain ⟨mid, next, hmid, hmove⟩ := h.split hlog
    cases hmove with
    | revisit items offer old =>
      have hknown := (hmid.knows_iff faithful _).1 old
      rw [blank] at hknown
      exact hknown.resolve_left Bool.false_ne_true
  entered := by
    intro before after source target hlog hmem
    obtain ⟨mid, next, hmid, hmove⟩ := h.split hlog
    cases hmove with
    | enter items offer new =>
      have hknown := (hmid.knows_iff faithful _).2 (Or.inr hmem)
      rw [new] at hknown
      cases hknown
  exits_perm := by
    have hperm := h.exits_append_path
    have hpath : search.path = [] := by simp [path, ended]
    rw [hpath, List.append_nil] at hperm
    exact hperm
  closes := by
    intro before after vertex frame hlog
    obtain ⟨mid, next, hmid, hmove⟩ := h.split hlog
    cases hmove with
    | leave items offer some_vertex => rw [hmid.head?_unfinished items, some_vertex]
  closed := by
    rw [h.unfinished_eq]
    simp [path, ended]
  source_eq := by
    intro before after event source target hlog look
    obtain ⟨mid, next, hmid, hmove⟩ := h.split hlog
    cases hmove with
    | enter items offer new =>
      cases look
      exact (hmid.head?_unfinished items).symm
    | revisit items offer old =>
      cases look
      exact (hmid.head?_unfinished items).symm
    | leave items offer some_vertex => cases look
  reads := by
    intro source hopen
    exact h.read_of_left faithful hopen (by simp [ended])

end Faithful

end Explores

/-! ## Visitors that keep a log -/

/-- The visitor, keeping a note of each call that it gets. -/
def Visitor.keeping {m : Type → Type} {V C σ α : Type} [Monad m] (note : Event V → C → α)
    (visitor : Visitor m V C σ) : Visitor m V C (List α × σ) where
  enter source target search :=
    keep (note (.entry source target) search) (visitor.enter source target search)
  revisit source target search :=
    keep (note (.known source target) search) (visitor.revisit source target search)
  leave vertex frame search :=
    keep (note (.exit vertex frame) search) (visitor.leave vertex frame search)
where
  /-- Passes a call on and keeps the note. -/
  keep (a : α) (call : σ → m (Signal × σ)) (state : List α × σ) : m (Signal × List α × σ) := do
    let (signal, inner) ← call state.2
    return (signal, state.1 ++ [a], inner)

/-- The session without the notes. -/
def Session.unkept {C σ α : Type} (t : Session C (List α × σ)) : Session C σ where
  search := t.search
  state := t.state.2

/-- The visitor, keeping a log of what it is told. -/
def Visitor.logged {m : Type → Type} {V C σ : Type} [Monad m] (visitor : Visitor m V C σ) :
    Visitor m V C (List (Event V) × σ) :=
  visitor.keeping fun event _ => event

section Keeping

variable {m : Type → Type} [Monad m] [LawfulMonad m]

/-- Machines that correspond step by step correspond in their runs. -/
theorem Machine.run_map [MonadExceptOf Fault m] [LawfulFault m] {τ τ' : Type}
    {machine : Machine m τ} {machine' : Machine m τ'} (view : τ → τ')
    (step : ∀ t, Prod.map id view <$> machine.step t = machine'.step (view t))
    (note : ∀ t, machine.noteCancelled t = machine'.noteCancelled (view t)) (poll : m Bool)
    (fuel : Nat) (t : τ) :
    Prod.map id view <$> machine.run poll fuel t = machine'.run poll fuel (view t) := by
  induction fuel generalizing t with
  | zero => exact map_throw _ _
  | succ fuel ih =>
    simp only [Machine.run, map_bind, ← step, bind_map_left, note]
    congr 1
    funext stop
    cases stop with
    | true => simp
    | false =>
      simp only [Bool.false_eq_true, if_false, map_bind]
      congr 1
      funext result
      obtain ⟨signal, next⟩ := result
      rcases signal with _ | (_ | _)
      · simp
      · exact ih next
      · simp

variable [Journal m] {V K κ σ : Type} [Store κ K] [Render V]

/-- Keeping notes changes nothing else. -/
theorem DepthSearch.step_keeping {α : Type} (note : Event V → DepthSearch V κ → α)
    (space : StateSpace m V K) (visitor : Visitor m V (DepthSearch V κ) σ)
    (t : Session (DepthSearch V κ) (List α × σ)) :
    Prod.map id Session.unkept <$> step space (visitor.keeping note) t =
      step space visitor t.unkept := by
  obtain ⟨search, notes, state⟩ := t
  show _ = step space visitor { search, state }
  unfold step
  cases items : search.stack.items with
  | nil => simp [Session.unkept]
  | cons top rest =>
    cases offer : search.offer top with
    | none =>
      cases hv : top.vertex with
      | none => simp [offer, hv, Session.unkept]
      | some vertex => simp [offer, hv, Session.unkept, Visitor.keeping, Visitor.keeping.keep]
    | some target =>
      simp only [offer, map_bind]
      congr 1
      funext key
      by_cases hknown : Store.knows search.advance.known key = true
      · rw [if_pos hknown, if_pos hknown]
        simp [Session.unkept, Visitor.keeping, Visitor.keeping.keep]
      · rw [if_neg hknown, if_neg hknown]
        simp only [map_bind, Visitor.keeping, Visitor.keeping.keep, bind_assoc, pure_bind]
        congr 1
        funext _
        congr 1
        funext result
        obtain ⟨signal, state'⟩ := result
        cases signal <;> simp [Session.unkept]

theorem DepthSearch.run_keeping [MonadExceptOf Fault m] [LawfulFault m] {α : Type}
    (note : Event V → DepthSearch V κ → α) (space : StateSpace m V K)
    (visitor : Visitor m V (DepthSearch V κ) σ) (poll : m Bool) (fuel : Nat)
    (t : Session (DepthSearch V κ) (List α × σ)) :
    Prod.map id Session.unkept <$> (machine space (visitor.keeping note)).run poll fuel t =
      (machine space visitor).run poll fuel t.unkept :=
  Machine.run_map Session.unkept (step_keeping note space visitor) (fun _ => rfl) poll fuel t

omit [LawfulMonad m] [Journal m] [Store κ K] [Render V] in
theorem Visitor.keeping_returns [MonadExceptOf Fault m] [Returning m] {α : Type} {a : α}
    {call : σ → m (Signal × σ)} {signal : Signal} {state state' : List α × σ}
    (told : Returns (Visitor.keeping.keep a call state) (signal, state')) :
    state'.1 = state.1 ++ [a] := by
  obtain ⟨⟨answer, inner⟩, -, told⟩ := Returning.of_bind told
  cases Returning.of_pure told
  rfl

omit [LawfulMonad m] [Journal m] [Render V] in
/-- What has been kept is what the visitor has been told. -/
theorem Visitor.logged_upholds [MonadExceptOf Fault m] [Returning m] {graph : StateGraph Id V}
    {key : V → K} {first : DepthSearch V κ} (visitor : Visitor m V (DepthSearch V κ) σ) :
    Upholds graph key first visitor.logged (fun log _ state => state.1 = log)
      (fun _ _ => True) := by
  have hkeep : ∀ {event : Event V} {call : σ → m (Signal × σ)} {log signal state state'}
      (_ : state.1 = log) (_ : Returns (Visitor.keeping.keep event call state) (signal, state')),
      signal.Ensures (state'.1 = log ++ [event]) True := by
    intro event call log signal state state' inv told
    cases signal with
    | proceed => exact inv ▸ keeping_returns told
    | abort => trivial
  exact
    { enter := fun _ inv _ _ _ told => hkeep inv told
      revisit := fun _ inv _ _ _ told => hkeep inv told
      leave := fun _ inv _ _ _ told => hkeep inv told
      finish := fun _ inv _ _ _ => inv }

theorem exists_of_run_map {ω α β : Type} {x : StateT ω (Except Fault) α} {f : α → β} {b : β}
    {world world' : ω} (h : (f <$> x).run world = .ok (b, world')) :
    ∃ a, x.run world = .ok (a, world') ∧ f a = b := by
  rw [StateT.run_map] at h
  cases hx : x.run world with
  | error fault => rw [hx] at h; cases h
  | ok result =>
    rw [hx] at h
    cases h
    exact ⟨result.1, rfl, rfl⟩

end Keeping

/-- A depth-first search without a bound, with a store that remembers and knows nothing at first,
tells its visitor a tour of the graph if it comes to its end. This holds whatever the visitor does
with a world of type `ω`, and whatever the canonical forms are. The log is what the visitor keeps if
it also keeps a log, which changes nothing else. -/
theorem exhausted_run_is_tour {V K κ σ ω : Type} [Store κ K] [Render V] [DecidableEq V]
    (graph : StateGraph Id V) (key : V → K) (known : κ) (faithful : Store.Faithful known)
    (blank : ∀ k, Store.knows known k = false)
    (visitor : Visitor (StateT ω (Except Fault)) V (DepthSearch V κ) σ)
    (poll : StateT ω (Except Fault) Bool) (fuel : Nat) (state : σ) (world world' : ω)
    (t : Session (DepthSearch V κ) σ)
    (exhausted : (do
      let search ← DepthSearch.start (graph.under key) known none
      (machine (graph.under key) visitor).run poll fuel { search, state }).run world =
        .ok ((.exhausted, t), world')) :
    ∃ log,
      (do
        let search ← DepthSearch.start (graph.under key) known none
        (machine (graph.under key) visitor.logged).run poll fuel
          { search, state := ([], state) }).run world =
        .ok ((.exhausted, { search := t.search, state := (log, t.state) }), world') ∧
      IsTour graph key log := by
  rw [start_under, pure_bind] at exhausted
  rw [start_under, pure_bind]
  have hmap := run_keeping (fun event _ => event) (graph.under key) visitor poll fuel
    { search := fresh graph known none, state := ([], state) }
  obtain ⟨⟨outcome, search, log, inner⟩, hrun, hresult⟩ :=
    exists_of_run_map (hmap ▸ exhausted : (_ <$> _ : StateT ω (Except Fault) _).run world = _)
  cases hresult
  obtain ⟨ended, log', explores, hlog⟩ :=
    visitor.logged_upholds.run .refl rfl ⟨world, world', hrun⟩
  have hlog : log = log' := hlog
  subst hlog
  exact ⟨log, hrun, explores.isTour faithful blank ended⟩

/-- Modulo two, the search from 1 enters 2 and passes 3 over, and then passes over the root 2. The
visitor counts its calls in the world. -/
theorem exhausted_run_is_tour_modulo :
    let graph : StateGraph Id Nat :=
      { roots := .finite [1, 2], neighbours := fun n => .finite [n + 1], hasCycles := true,
        hasSharing := true }
    let count : Signal × Unit → StateT Nat (Except Fault) (Signal × Unit) := fun answer =>
      modifyGet fun calls => (answer, calls + 1)
    let visitor : Visitor (StateT Nat (Except Fault)) Nat
        (DepthSearch Nat (Std.HashSet Nat)) Unit :=
      { enter := fun _ _ _ _ => count (.proceed, ())
        revisit := fun _ _ _ _ => count (.proceed, ())
        leave := fun _ _ _ _ => count (.proceed, ()) }
    (Store.Faithful (∅ : Std.HashSet Nat) ∧ ∀ k, Store.knows (∅ : Std.HashSet Nat) k = false) ∧
    ∃ t log,
      (do
        let search ← DepthSearch.start (graph.under (· % 2)) (∅ : Std.HashSet Nat) none
        (machine (graph.under (· % 2)) visitor).run (pure false) 8 { search, state := () }).run 0 =
        .ok ((.exhausted, t), 6) ∧
      (do
        let search ← DepthSearch.start (graph.under (· % 2)) (∅ : Std.HashSet Nat) none
        (machine (graph.under (· % 2)) visitor.logged).run (pure false) 8
          { search, state := ([], ()) }).run 0 =
        .ok ((.exhausted, { search := t.search, state := (log, t.state) }), 6) ∧
      IsTour graph (· % 2) log := by
  intro graph count visitor
  have hrun : ∃ t, (do
      let search ← DepthSearch.start (graph.under (· % 2)) (∅ : Std.HashSet Nat) none
      (machine (graph.under (· % 2)) visitor).run (pure false) 8 { search, state := () }).run 0 =
      .ok ((.exhausted, t), 6) := by
    rw [start_under, pure_bind]
    simp only [Machine.run, machine, step, fresh, graph, visitor, count]
    simp [offer, hasRoom, Frame.peek, Stack.push, Stack.empty, StateGraph.under, StateGraph.after,
      Store.knows, Store.learn, learn, advance, Stack.modifyTop, Frame.advance,
      push, StateGraph.lift, pop, Stack.pop]
    exact ⟨_, rfl⟩
  obtain ⟨t, hrun⟩ := hrun
  obtain ⟨log, hlog, htour⟩ := exhausted_run_is_tour graph (· % 2) ∅ (HashSet.faithful ∅)
    HashSet.knows_empty visitor (pure false) 8 () 0 6 t hrun
  exact ⟨⟨HashSet.faithful ∅, HashSet.knows_empty⟩, t, log, hrun, hlog, htour⟩

end StateExplorer
