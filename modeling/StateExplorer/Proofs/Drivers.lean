import StateExplorer.Proofs.Returning
import StateExplorer.Search.Routine

/-!
# Drivers of a search

A search is driven in four ways. It takes steps that decide and act at once, or it goes by way of
actions; it is polled before every step or after it; or it is walked as a routine. These differ in
what they look at first and in where they poll, and agree all the same:

* a step by way of the action that comes next is the step that decides and acts at once
  (`stepByAction_eq_step`), so that the two runs are one computation;
* a machine that is never told to stop ends in the same way when it is polled after its steps
  (`Machine.Rests.eagerlyAlike`);
* the walk of a search as a routine goes through the states of its run with a silent visitor
  (`Routine.Follows.walk`).

Runs are compared as computations, with an arbitrary visitor and an arbitrary graph that act on a
world of type `ω`. The world outlives a fault, so what was done to it shows even if a run uses up
its allowance of steps.
-/

namespace StateExplorer

variable {m : Type → Type} {V K κ σ : Type}

/-- The state space of a graph whose canonical forms are given by a function. -/
def StateGraph.keyed [Pure m] (graph : StateGraph m V) (key : V → K) : StateSpace m V K where
  graph
  key vertex := pure (key vertex)

/-! ## Steps by way of actions -/

section Actions

variable [Monad m] [LawfulMonad m] [Journal m] [Journal.Quiet m] [Render V] [Store κ K]
  {graph : StateGraph m V} {key : V → K}

theorem DepthSearch.stepByAction_eq_step (visitor : Visitor m V (DepthSearch V κ) σ)
    (t : Session (DepthSearch V κ) σ) :
    stepByAction (graph.keyed key) visitor t = step (graph.keyed key) visitor t := by
  unfold stepByAction step action
  cases items : t.search.stack.items with
  | nil => simp
  | cons top rest =>
    cases offer : t.search.offer top with
    | none =>
      cases hv : top.vertex with
      | none => simp [offer, hv, execute]
      | some vertex => simp [offer, hv, execute, items]
    | some target =>
      -- the action is chosen before the neighbour is passed over, the step decides after it
      have hadvance : t.search.advance.known = t.search.known := rfl
      cases hknown : Store.knows t.search.known (key target) with
      | true =>
        simp only [offer, knows, StateGraph.keyed, hadvance, hknown, execute, pure_bind, bind_assoc,
          Journal.trace_eq, if_true]
      | false =>
        simp only [offer, knows, StateGraph.keyed, hadvance, hknown, execute, pure_bind, bind_assoc,
          Journal.trace_eq, Bool.false_eq_true, if_false]
        congr 1
        funext ⟨signal, state⟩
        cases signal <;> simp

theorem DepthSearch.actionMachine_eq_machine (visitor : Visitor m V (DepthSearch V κ) σ) :
    actionMachine (graph.keyed key) visitor = machine (graph.keyed key) visitor := by
  have hstep : stepByAction (graph.keyed key) visitor = step (graph.keyed key) visitor :=
    funext (stepByAction_eq_step visitor)
  simp only [actionMachine, machine, hstep]

theorem BreadthSearch.stepByAction_eq_step (visitor : Visitor m V (BreadthSearch V κ) σ)
    (t : Session (BreadthSearch V κ) σ) :
    stepByAction (graph.keyed key) visitor t = step (graph.keyed key) visitor t := by
  unfold stepByAction step action
  cases expanding : t.search.expanding with
  | none => simp
  | some frame =>
    cases peek : frame.peek with
    | none =>
      -- whether the last expansion ends is seen from the queue, be it popped or only looked at
      cases hpop : t.search.frontier.pop? with
      | none => simp [peek, Queue.head?, hpop, execute, turn, expandNext, expanding]
      | some next => simp [peek, Queue.head?, hpop, execute]
    | some target =>
      have hadvance : t.search.advance.known = t.search.known := rfl
      cases hknown : Store.knows t.search.known (key target) with
      | true => simp [peek, knows, StateGraph.keyed, hadvance, hknown, execute]
      | false =>
        simp only [peek, knows, StateGraph.keyed, hadvance, hknown, execute, pure_bind, bind_assoc,
          Journal.trace_eq, Bool.false_eq_true, if_false]
        congr 1
        funext ⟨signal, state⟩
        cases signal <;> simp

theorem BreadthSearch.actionMachine_eq_machine (visitor : Visitor m V (BreadthSearch V κ) σ) :
    actionMachine (graph.keyed key) visitor = machine (graph.keyed key) visitor := by
  have hstep : stepByAction (graph.keyed key) visitor = step (graph.keyed key) visitor :=
    funext (stepByAction_eq_step visitor)
  simp only [actionMachine, machine, hstep]

end Actions

/-! ## Polls after the steps -/

namespace Machine

variable {ω π τ : Type}

/-- The machine next to a counter of type `π` that it neither sees nor changes. -/
def beside [Monad m] (π : Type) (machine : Machine m τ) : Machine (StateT π m) τ where
  step t := StateT.lift (machine.step t)
  isOver := machine.isOver
  noteCancelled t := StateT.lift (machine.noteCancelled t)

section Uncancelled

variable [Monad m] [LawfulMonad m] [MonadExceptOf Fault m] [LawfulFault m] {machine : Machine m τ}
  {ask : π → Bool × π} (never : ∀ p, (ask p).1 = false)

include never

/-- Polls that never call for a stop leave no trace but in what they count. -/
theorem fst_run_beside (fuel : Nat) (t : τ) (p : π) :
    Prod.fst <$> ((machine.beside π).run (modifyGet ask) fuel t).run p =
      machine.run (pure false) fuel t := by
  induction fuel generalizing t p with
  | zero =>
    show Prod.fst <$> (throw Fault.stepLimit >>= fun a => pure (a, p)) = throw Fault.stepLimit
    rw [LawfulFault.throw_bind, map_throw]
  | succ fuel ih =>
    simp only [run, beside, StateT.run_bind, StateT.run_modifyGet,
      StateT.run_lift, never, pure_bind, if_false, Bool.false_eq_true, map_bind, bind_assoc]
    congr 1
    funext ⟨signal, next⟩
    match signal with
    | none => simp
    | some .abort => simp
    | some .proceed => exact ih next (ask p).2

theorem fst_runEagerly_beside (fuel : Nat) (t : τ) (p : π) :
    Prod.fst <$> ((machine.beside π).runEagerly (modifyGet ask) fuel t).run p =
      machine.runEagerly (pure false) fuel t := by
  induction fuel generalizing t p with
  | zero =>
    show Prod.fst <$> (throw Fault.stepLimit >>= fun a => pure (a, p)) = throw Fault.stepLimit
    rw [LawfulFault.throw_bind, map_throw]
  | succ fuel ih =>
    simp only [runEagerly, beside, StateT.run_bind, StateT.run_lift, pure_bind,
      map_bind, bind_assoc]
    congr 1
    funext ⟨signal, next⟩
    match signal with
    | none => simp
    | some .abort => simp
    | some .proceed =>
      cases hover : machine.isOver next with
      | true => simp [hover]
      | false =>
        simp only [hover, StateT.run_bind, StateT.run_modifyGet, never, pure_bind, if_false,
          Bool.false_eq_true]
        exact ih next (ask p).2

end Uncancelled

end Machine

/-- What a computation returns and what it makes of the world. -/
def perform {ω α : Type} (x : ExceptT Fault (StateM ω) α) (world : ω) : Except Fault α × ω :=
  x.run.run world

section Perform

variable {ω α β : Type} {x : ExceptT Fault (StateM ω) α} {world world' : ω}

@[simp] theorem perform_pure (a : α) (world : ω) : perform (pure a) world = (.ok a, world) := rfl

@[simp] theorem perform_throw (fault : Fault) (world : ω) :
    perform (throw fault : ExceptT Fault (StateM ω) α) world = (.error fault, world) := rfl

theorem perform_bind (x : ExceptT Fault (StateM ω) α) (f : α → ExceptT Fault (StateM ω) β)
    (world : ω) :
    perform (x >>= f) world =
      match perform x world with
      | (.ok a, world') => perform (f a) world'
      | (.error fault, world') => (.error fault, world') := by
  unfold perform
  rw [ExceptT.run_bind, StateT.run_bind]
  show (match x.run.run world with | (result, world') => _) = _
  rcases x.run.run world with ⟨_ | _, world'⟩ <;> rfl

theorem perform_bind_of_ok {a : α} (h : perform x world = (.ok a, world'))
    (f : α → ExceptT Fault (StateM ω) β) : perform (x >>= f) world = perform (f a) world' := by
  rw [perform_bind, h]

theorem perform_bind_ok {f : α → ExceptT Fault (StateM ω) β} {b : β} {world'' : ω}
    (h : perform (x >>= f) world = (.ok b, world'')) :
    ∃ a world', perform x world = (.ok a, world') ∧ perform (f a) world' = (.ok b, world'') := by
  rw [perform_bind] at h
  rcases hx : perform x world with ⟨_ | a, world'⟩
  · rw [hx] at h
    cases h
  · rw [hx] at h
    exact ⟨a, world', rfl, h⟩

theorem perform_map (x : ExceptT Fault (StateM ω) α) (f : α → β) (world : ω) :
    perform (f <$> x) world = ((perform x world).1.map f, (perform x world).2) := by
  rw [← bind_pure_comp, perform_bind]
  rcases perform x world with ⟨_ | _, world'⟩ <;> rfl

instance {ω : Type} : Returning (ExceptT Fault (StateM ω)) where
  Returns x a := ∃ world world', perform x world = (.ok a, world')
  of_pure := by
    intro α a b h
    obtain ⟨world, world', h⟩ := h
    cases h
    rfl
  of_bind := by
    intro α β x f b h
    obtain ⟨world, world'', h⟩ := h
    obtain ⟨a, world', hx, hf⟩ := perform_bind_ok h
    exact ⟨a, ⟨world, world', hx⟩, world', world'', hf⟩
  not_throw := by
    intro α fault a h
    obtain ⟨world, world', h⟩ := h
    cases h

end Perform

namespace Machine

variable {ω τ : Type}

/-- Once the machine is over, a step does nothing. -/
def Rests [Pure m] (machine : Machine m τ) : Prop :=
  ∀ t, machine.isOver t = true → machine.step t = pure (none, t)

/-- A run polls before a step that does nothing but change the machine. -/
theorem run_bind_of_step [Monad m] [LawfulMonad m] [MonadExceptOf Fault m] {β : Type}
    {machine : Machine m τ} {t t' : τ} (quiet : machine.noteCancelled t = pure ()) {signal : Signal}
    (h : machine.step t = pure (some signal, t')) (poll : m Bool) (fuel : Nat)
    (f : Outcome × τ → m β) :
    machine.run poll (fuel + 1) t >>= f = poll >>= fun stop =>
      if stop then f (.cancelled, t)
      else match signal with
        | .proceed => machine.run poll fuel t' >>= f
        | .abort => f (.aborted, t') := by
  rw [Machine.run, bind_assoc]
  refine bind_congr fun stop => ?_
  cases stop with
  | true => simp [quiet]
  | false =>
    cases signal with
    | proceed => simp [h]
    | abort => simp [h]

variable {machine : Machine (ExceptT Fault (StateM ω)) τ}

/-- A run that is polled before its steps takes a step or ends. -/
theorem perform_run_succ (machine : Machine (ExceptT Fault (StateM ω)) τ) (fuel : Nat) (t : τ)
    (world : ω) :
    perform (machine.run (pure false) (fuel + 1) t) world =
      match perform (machine.step t) world with
      | (.ok (none, t), world) => (.ok (.exhausted, t), world)
      | (.ok (some .abort, t), world) => (.ok (.aborted, t), world)
      | (.ok (some .proceed, t), world) => perform (machine.run (pure false) fuel t) world
      | (.error fault, world) => (.error fault, world) := by
  rw [run, pure_bind, if_neg Bool.false_ne_true, perform_bind]
  rcases perform (machine.step t) world with ⟨_ | ⟨_ | (_ | _), t⟩, world⟩ <;> rfl

theorem perform_runEagerly_succ (machine : Machine (ExceptT Fault (StateM ω)) τ) (fuel : Nat)
    (t : τ) (world : ω) :
    perform (machine.runEagerly (pure false) (fuel + 1) t) world =
      match perform (machine.step t) world with
      | (.ok (none, t), world) => (.ok (.exhausted, t), world)
      | (.ok (some .abort, t), world) => (.ok (.aborted, t), world)
      | (.ok (some .proceed, t), world) =>
        if machine.isOver t then (.ok (.exhausted, t), world)
        else perform (machine.runEagerly (pure false) fuel t) world
      | (.error fault, world) => (.error fault, world) := by
  rw [runEagerly, perform_bind]
  rcases perform (machine.step t) world with ⟨_ | ⟨_ | (_ | _), t⟩, world⟩
  · rfl
  · rfl
  · cases hover : machine.isOver t <;> simp [hover]
  · rfl

theorem Rests.perform_run_succ (rests : machine.Rests) {t : τ} (ended : machine.isOver t = true)
    (fuel : Nat) (world : ω) :
    perform (machine.run (pure false) (fuel + 1) t) world = (.ok (.exhausted, t), world) := by
  rw [Machine.perform_run_succ, rests t ended]
  rfl

/-- A run that is polled before its steps has done the same to the world as one that is polled after
them. If it has ended then so has the other, and if the other has ended then one more step will
do. -/
structure Precedes {α : Type} (lazy later eager : Except Fault α × ω) : Prop where
  same_world : lazy.2 = eager.2
  ended : ∀ a, lazy.1 = .ok a → eager.1 = .ok a
  will_end : ∀ a, eager.1 = .ok a → later = eager

theorem Precedes.refl {α : Type} (result : Except Fault α × ω) : Precedes result result result :=
  ⟨rfl, fun _ h => h, fun _ _ => rfl⟩

theorem Rests.precedes (rests : machine.Rests) (fuel : Nat) (t : τ) (world : ω) :
    Precedes (perform (machine.run (pure false) fuel t) world)
      (perform (machine.run (pure false) (fuel + 1) t) world)
      (perform (machine.runEagerly (pure false) fuel t) world) := by
  induction fuel generalizing t world with
  | zero => exact ⟨rfl, (fun _ h => nomatch h), (fun _ h => nomatch h)⟩
  | succ fuel ih =>
    rw [Machine.perform_run_succ, Machine.perform_run_succ, perform_runEagerly_succ]
    rcases perform (machine.step t) world with ⟨_ | ⟨_ | (_ | _), next⟩, world'⟩
    · exact .refl _
    · exact .refl _
    · cases hover : machine.isOver next with
      | false => simpa [hover] using ih next world'
      | true =>
        -- the run that is polled after its steps sees at once that nothing is left
        simp only [hover, if_true, rests.perform_run_succ hover]
        cases fuel with
        | zero => exact ⟨rfl, (fun _ h => nomatch h), fun _ _ => rfl⟩
        | succ fuel => rw [rests.perform_run_succ hover]; exact .refl _
    · exact .refl _

/-- A machine that is never told to stop does the same and ends in the same way, whether it is
polled before its steps or after them. The polls count on a counter of their own. -/
structure EagerlyAlike (machine : Machine (ExceptT Fault (StateM ω)) τ) : Prop where
  same_world : ∀ {π : Type} (ask : π → Bool × π), (∀ p, (ask p).1 = false) → ∀ fuel t p world,
    (perform (((machine.beside π).runEagerly (modifyGet ask) fuel t).run p) world).2 =
      (perform (((machine.beside π).run (modifyGet ask) fuel t).run p) world).2
  same_end : ∀ {π : Type} (ask : π → Bool × π), (∀ p, (ask p).1 = false) →
    ∀ t p world result world',
      (∃ fuel p', perform (((machine.beside π).runEagerly (modifyGet ask) fuel t).run p) world =
        (.ok (result, p'), world')) ↔
      (∃ fuel p', perform (((machine.beside π).run (modifyGet ask) fuel t).run p) world =
        (.ok (result, p'), world'))

/-- A computation next to a counter ends as the one that it is without the counter. -/
theorem exists_counter_iff {π α : Type} {x : ExceptT Fault (StateM ω) (α × π)}
    {y : ExceptT Fault (StateM ω) α} (h : Prod.fst <$> x = y) (world world' : ω) (a : α) :
    (∃ p, perform x world = (.ok (a, p), world')) ↔ perform y world = (.ok a, world') := by
  rw [← h, perform_map]
  rcases perform x world with ⟨_ | ⟨b, q⟩, after⟩
  · simp [Except.map]
  · simp [Except.map]

theorem Rests.eagerlyAlike (rests : machine.Rests) : machine.EagerlyAlike where
  same_world := by
    intro π ask never fuel t p world
    have hrun := perform_map (((machine.beside π).run (modifyGet ask) fuel t).run p) Prod.fst world
    have heager :=
      perform_map (((machine.beside π).runEagerly (modifyGet ask) fuel t).run p) Prod.fst world
    rw [fst_run_beside never] at hrun
    rw [fst_runEagerly_beside never] at heager
    have hworld := (rests.precedes fuel t world).same_world
    rw [hrun, heager] at hworld
    exact hworld.symm
  same_end := by
    intro π ask never t p world result world'
    simp only [exists_counter_iff (fst_run_beside never _ t p),
      exists_counter_iff (fst_runEagerly_beside never _ t p)]
    constructor
    · rintro ⟨fuel, hfuel⟩
      have hlater := (rests.precedes fuel t world).will_end result (by rw [hfuel])
      exact ⟨fuel + 1, by rw [hlater, hfuel]⟩
    · rintro ⟨fuel, hfuel⟩
      have hprecedes := rests.precedes fuel t world
      have hended := hprecedes.ended result (by rw [hfuel])
      have hworld := hprecedes.same_world
      rw [hfuel] at hworld
      exact ⟨fuel, Prod.ext hended hworld.symm⟩

end Machine

/-! ## Routines -/

/-- A routine takes the steps of a machine with a visitor that has nothing to say. -/
structure Routine.Follows {C A : Type} [Monad m] (routine : Routine m C A)
    (machine : Machine m (Session C Unit)) (next : A → C → m C) : Prop where
  execute : ∀ action c, routine.execute action c = Except.ok <$> next action c
  step : ∀ c, machine.step { search := c, state := () } = do
    match ← routine.action c with
    | none => return (none, { search := c, state := () })
    | some action => return (some .proceed, { search := ← next action c, state := () })
  quiet : ∀ t, machine.noteCancelled t = pure ()

section Walks

variable [Monad m] [LawfulMonad m] [Journal m] [Journal.Quiet m]

namespace Routine.Follows

variable {C A : Type} {routine : Routine m C A} {machine : Machine m (Session C Unit)}
  {next : A → C → m C} [MonadExceptOf Fault m] [LawfulFault m]

theorem walkFrom (follows : routine.Follows machine next) (poll : m Bool) (observe : C → A → σ → σ)
    (fuel steps : Nat) (c : C) (state : σ) :
    Prod.fst <$> routine.walkFrom poll
      (fun c action state => pure (observe c action state)) fuel steps
        c state =
      (fun result => result.2.search) <$> machine.run poll fuel { search := c, state := () } := by
  induction fuel generalizing steps c state with
  | zero => simp only [Routine.walkFrom, Machine.run, map_throw]
  | succ fuel ih =>
    simp only [Routine.walkFrom, Machine.run, map_bind, follows.step, bind_assoc]
    congr 1
    funext stop
    cases stop with
    | true => simp [follows.quiet]
    | false =>
      simp only [Bool.false_eq_true, if_false, map_bind]
      congr 1
      funext action
      cases action with
      | none => simp
      | some action =>
        simp only [follows.execute, pure_bind, bind_map_left, bind_assoc, map_bind]
        congr 1
        funext c'
        exact ih (steps + 1) c' _

/-- The walk ends in the search in which the run ends, for the same polls. -/
theorem walk (follows : routine.Follows machine next) {start : m C}
    (initial : routine.initial = some <$> start) (poll : m Bool) (observe : C → A → σ → σ)
    (fuel : Nat) (state : σ) :
    Prod.fst <$> routine.walk fuel poll
      (fun c action state => pure (observe c action state)) state =
      (fun result => some result.2.search) <$>
        (start >>= fun search => machine.run poll fuel { search, state := () }) := by
  simp only [Routine.walk, initial, bind_map_left, map_bind]
  congr 1
  funext c
  have hwalk := congrArg (some <$> ·) (follows.walkFrom poll observe fuel 0 c state)
  simpa using hwalk

end Routine.Follows

variable [Render V]

/-- A silent visitor lets a search go on whatever action is carried out. -/
theorem DepthSearch.execute_silent [Store κ K] {space : StateSpace m V K} (action : DepthAction V)
    (t : Session (DepthSearch V κ) Unit) :
    execute space Visitor.silent action t =
      (fun result => (.proceed, result.2)) <$> execute space Visitor.silent action t := by
  unfold execute
  cases action with
  | unknown source target => simp [Visitor.silent]
  | known source target => simp [Visitor.silent]
  | backtrack vertex => cases items : t.search.stack.items <;> simp [Visitor.silent]
  | finish => simp

theorem BreadthSearch.execute_silent [Store κ K] {space : StateSpace m V K}
    (action : BreadthAction V) (t : Session (BreadthSearch V κ) Unit) :
    execute space Visitor.silent action t =
      (fun result => (.proceed, result.2)) <$> execute space Visitor.silent action t := by
  have hleave : ∀ dropped (t : Session (BreadthSearch V κ) Unit),
      leave (m := m) Visitor.silent dropped t = pure (.proceed, t) := by
    rintro (_ | ⟨_ | vertex, successors⟩) t <;> simp [leave, Visitor.silent]
  unfold execute
  cases action with
  | unknown source target => simp [Visitor.silent]
  | known source target => simp [Visitor.silent]
  | expand vertex => simp [turn, hleave]
  | finish => simp [hleave]

variable [BEq K] [Hashable K] {graph : StateGraph m V} {key : V → K}

theorem DepthSearch.routine_follows (bound : Option Nat) :
    (routine (graph.keyed key) bound).Follows (machine (graph.keyed key) Visitor.silent)
      fun action search =>
        (·.2.search) <$> execute (graph.keyed key) Visitor.silent action
          { search, state := () } where
  execute action search := by simp [routine]
  step search := by
    show step (graph.keyed key) Visitor.silent { search, state := () } = _
    rw [← stepByAction_eq_step]
    unfold stepByAction
    simp only [routine]
    congr 1
    funext action
    cases action with
    | none => rfl
    | some action =>
      simp only
      rw [execute_silent]
      simp
  quiet t := by simp [machine, noteCancelled]

theorem BreadthSearch.routine_follows :
    (routine (graph.keyed key)).Follows (machine (graph.keyed key) Visitor.silent)
      fun action search =>
        (·.2.search) <$> execute (graph.keyed key) Visitor.silent action
          { search, state := () } where
  execute action search := by simp [routine]
  step search := by
    show step (graph.keyed key) Visitor.silent { search, state := () } = _
    rw [← stepByAction_eq_step]
    unfold stepByAction
    simp only [routine]
    congr 1
    funext action
    cases action with
    | none => rfl
    | some action =>
      simp only
      rw [execute_silent]
      simp
  quiet t := by simp [machine, noteCancelled]

end Walks

/-! ## All drivers -/

section Drivers

variable [Monad m] [Journal m] [Render V] [Store κ K] {space : StateSpace m V K}

theorem DepthSearch.machine_rests (visitor : Visitor m V (DepthSearch V κ) σ) :
    (machine space visitor).Rests := by
  intro t ended
  have items : t.search.stack.items = [] := by
    simpa [machine, isOver, Stack.isEmpty] using ended
  simp [machine, step, items]

theorem BreadthSearch.machine_rests (visitor : Visitor m V (BreadthSearch V κ) σ) :
    (machine space visitor).Rests := by
  intro t ended
  have expanding : t.search.expanding = none := by
    simpa [machine, isOver] using ended
  simp [machine, step, expanding]

end Drivers

/-- However a search is driven, it makes the same of the visitor and of the world, which the
visitor, the graph and the polls may all look at and change. A run by way of actions is the same
computation as a run that decides and acts at once, from every state of the search and for all
polls. A run that is never told to stop does the same when it is polled after its steps. The walk of
the search as a routine ends in the search in which the run with a silent visitor ends. -/
theorem drivers_agree {ω : Type} [Render V] [Store κ K] [BEq K] [Hashable K]
    (graph : StateGraph (ExceptT Fault (StateM ω)) V) (key : V → K) :
    (∀ visitor : Visitor (ExceptT Fault (StateM ω)) V (DepthSearch V κ) σ,
      (∀ poll fuel t, (DepthSearch.actionMachine (graph.keyed key) visitor).run poll fuel t =
        (DepthSearch.machine (graph.keyed key) visitor).run poll fuel t) ∧
      (DepthSearch.machine (graph.keyed key) visitor).EagerlyAlike) ∧
    (∀ visitor : Visitor (ExceptT Fault (StateM ω)) V (BreadthSearch V κ) σ,
      (∀ poll fuel t, (BreadthSearch.actionMachine (graph.keyed key) visitor).run poll fuel t =
        (BreadthSearch.machine (graph.keyed key) visitor).run poll fuel t) ∧
      (BreadthSearch.machine (graph.keyed key) visitor).EagerlyAlike) ∧
    (∀ bound poll fuel (observe : DepthSearch V (Memory K) → DepthAction V → σ → σ) (state : σ),
      Prod.fst <$> (DepthSearch.routine (graph.keyed key) bound).walk fuel poll
          (fun search action state => pure (observe search action state)) state =
        (fun result => some result.2.search) <$>
          (DepthSearch.start (graph.keyed key) (Memory.forGraph graph) bound >>= fun search =>
            (DepthSearch.machine (graph.keyed key) Visitor.silent).run poll fuel
              { search, state := () })) ∧
    (∀ poll fuel (observe : BreadthSearch V (Memory K) → BreadthAction V → σ → σ) (state : σ),
      Prod.fst <$> (BreadthSearch.routine (graph.keyed key)).walk fuel poll
          (fun search action state => pure (observe search action state)) state =
        (fun result => some result.2.search) <$>
          (BreadthSearch.start (graph.keyed key) (Memory.forGraph graph) >>= fun search =>
            (BreadthSearch.machine (graph.keyed key) Visitor.silent).run poll fuel
              { search, state := () })) := by
  refine ⟨fun visitor => ⟨fun poll fuel t => ?_, ?_⟩,
    fun visitor => ⟨fun poll fuel t => ?_, ?_⟩, ?_, ?_⟩
  · rw [DepthSearch.actionMachine_eq_machine]
  · exact (DepthSearch.machine_rests visitor).eagerlyAlike
  · rw [BreadthSearch.actionMachine_eq_machine]
  · exact (BreadthSearch.machine_rests visitor).eagerlyAlike
  · intro bound poll fuel observe state
    exact (DepthSearch.routine_follows bound).walk (by simp [DepthSearch.routine]; rfl) poll observe
      fuel state
  · intro poll fuel observe state
    exact BreadthSearch.routine_follows.walk (by simp [BreadthSearch.routine]; rfl) poll observe
      fuel state

end StateExplorer
