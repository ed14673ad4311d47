import StateExplorer.Proofs.Graph
import StateExplorer.Transition.Automaton

/-!
# Systems and observers that do not change

A system whose answers never change is a `TransitionSystem Id`, and `TransitionSystem.lift` asks the
same system in any monad; likewise for observers and automata. Composition and lifting commute
(`observedBy_lift`, `toStateGraph_lift`), so what is said here of the composed system in `Id` holds
of the one that runs.

`Takes` says what the steps of a system are, and `Observable` to which steps an observer reacts. The
edges of the composed system are given in these terms by `edge_observedBy`. If the observer is an
automaton, `Automaton.reacts_iff` says how it reacts.
-/

namespace StateExplorer

variable {m : Type → Type} {α β C A D B I : Type}

/-! ## Lists of answers -/

section Lawful

variable [Monad m] [LawfulMonad m]

theorem filterAuxM_map {f : α → β} {g : β → m Bool} {p : α → Bool} (h : ∀ a, g (f a) = pure (p a))
    (items : List α) (kept : List β) :
    (items.map f).filterAuxM g kept = pure (((items.filter p).map f).reverse ++ kept) := by
  induction items generalizing kept with
  | nil => rfl
  | cons a items ih =>
    rw [List.map_cons]
    unfold List.filterAuxM
    rw [h, pure_bind, ih]
    cases hp : p a <;> simp [hp]

/-- Filtering asks nothing if every answer is a pure one. -/
theorem filterM_map {f : α → β} {g : β → m Bool} {p : α → Bool} (h : ∀ a, g (f a) = pure (p a))
    (items : List α) : (items.map f).filterM g = pure ((items.filter p).map f) := by
  simp [List.filterM, filterAuxM_map h]

end Lawful

/-! ## The same in another monad -/

section Lift

variable [Pure m]

def TransitionSystem.lift (system : TransitionSystem Id C A) : TransitionSystem m C A where
  initial := pure system.initial.run
  actions source := pure (system.actions source).run
  execute action source := pure (system.execute action source).run

def Observer.lift (observer : Observer Id I D B) : Observer m I D B where
  initial := pure observer.initial.run
  actions input source := pure (observer.actions input source).run
  execute input action source := pure (observer.execute input action source).run

def Transition.lift (transition : Transition Id I) : Transition m I :=
  { transition with guard := fun input => pure (transition.guard input).run }

/-- The automaton whose guards are asked in another monad. -/
def Automaton.lift (automaton : Automaton Id I) : Automaton m I :=
  { automaton with transitions := automaton.transitions.map Transition.lift }

end Lift

namespace TransitionSystem

variable {system : TransitionSystem Id C A} {observer : Observer Id (Step C A) D B}

section Lawful

variable [Monad m] [LawfulMonad m]

theorem steps_lift (source : C) :
    (system.lift : TransitionSystem m C A).steps source =
      pure ((system.actions source).run.flatMap fun action =>
        (system.execute action source).run.map fun target =>
          { source, action := some action, target }) := by
  simp [steps, lift, List.flatMap]

theorem successors_lift (source : C) :
    (system.lift : TransitionSystem m C A).successors source =
      pure ((system.actions source).run.flatMap fun action =>
        (system.execute action source).run) := by
  simp [successors, lift, List.flatMap]

/-- A system in `Id` is its own lift. -/
theorem steps_run (source : C) :
    (system.steps source).run = (system.actions source).run.flatMap fun action =>
      (system.execute action source).run.map fun target =>
        { source, action := some action, target } :=
  steps_lift (m := Id) source

theorem successors_run (source : C) :
    (system.successors source).run =
      (system.actions source).run.flatMap fun action => (system.execute action source).run :=
  successors_lift (m := Id) source

theorem toStateGraph_lift :
    (system.lift : TransitionSystem m C A).toStateGraph = system.toStateGraph.lift := by
  simp only [toStateGraph, StateGraph.lift, StateGraph.mk.injEq]
  refine ⟨?_, ?_, trivial, trivial⟩
  · show (pure _ >>= _) = _
    rw [pure_bind]
    rfl
  · funext source
    rw [successors_lift, pure_bind]
    show _ = pure (Sequence.finite (system.successors source).run)
    rw [successors_run]

variable [Journal m] [Journal.Quiet m] [Render C]

theorem observableSteps_lift (source : C) :
    (system.lift : TransitionSystem m C A).observableSteps source =
      pure (system.observableSteps source).run := by
  have hsteps : (system.lift : TransitionSystem m C A).steps source =
      pure (system.steps source).run := by
    rw [steps_lift, steps_run]
  unfold observableSteps
  rw [hsteps, pure_bind]
  cases hrun : (system.steps source).run with
  | nil =>
    have hid : system.steps source = pure [] := hrun
    simp [hid]
  | cons step steps =>
    have hid : system.steps source = pure (step :: steps) := hrun
    simp [hid]

theorem actions_observedBy_lift (source : C × D) :
    ((system.lift : TransitionSystem m C A).observedBy observer.lift).actions source =
      pure ((system.observableSteps source.1).run.flatMap fun step =>
        (observer.actions step source.2).run.map fun reaction => (step, reaction)) := by
  simp [observedBy, observableSteps_lift, Observer.lift, List.flatMap]

omit [Journal.Quiet m] in
theorem execute_observedBy_lift (action : Step C A × B) (source : C × D) :
    ((system.lift : TransitionSystem m C A).observedBy observer.lift).execute action source =
      pure ((observer.execute action.1 action.2 source.2).run.map fun r =>
        (action.1.target, r)) := by
  simp [observedBy, Observer.lift]

/-- Composing and asking in another monad commute. -/
theorem observedBy_lift :
    (system.lift : TransitionSystem m C A).observedBy observer.lift =
      (system.observedBy observer).lift := by
  have hinitial : ((system.lift : TransitionSystem m C A).observedBy observer.lift).initial =
      pure (system.observedBy observer).initial.run := by
    simp [observedBy, lift, Observer.lift]
  have hactions : ((system.lift : TransitionSystem m C A).observedBy observer.lift).actions =
      fun source => pure ((system.observedBy observer).actions source).run := by
    funext source
    rw [actions_observedBy_lift]
    exact congrArg pure (actions_observedBy_lift (m := Id) source).symm
  have hexecute : ((system.lift : TransitionSystem m C A).observedBy observer.lift).execute =
      fun action source => pure ((system.observedBy observer).execute action source).run := by
    funext action source
    rw [execute_observedBy_lift]
    rfl
  show TransitionSystem.mk _ _ _ = TransitionSystem.mk _ _ _
  exact congr (congr (congrArg TransitionSystem.mk hinitial) hactions) hexecute

end Lawful

/-! ## Steps -/

/-- The step executes an action that is enabled where it starts. -/
def Takes (system : TransitionSystem Id C A) (step : Step C A) : Prop :=
  ∃ action ∈ (system.actions step.source).run,
    step.action = some action ∧ step.target ∈ (system.execute action step.source).run

/-- The step is one of the system, or it stutters where the system has no step. -/
def Observable (system : TransitionSystem Id C A) (step : Step C A) : Prop :=
  system.Takes step ∨
    step = .stutter step.source ∧ ∀ other, other.source = step.source → ¬ system.Takes other

theorem mem_steps {source : C} {step : Step C A} :
    step ∈ (system.steps source).run ↔ step.source = source ∧ system.Takes step := by
  rw [steps_run]
  simp only [List.mem_flatMap, List.mem_map, Takes]
  constructor
  · rintro ⟨action, haction, target, htarget, rfl⟩
    exact ⟨rfl, action, haction, rfl, htarget⟩
  · rintro ⟨rfl, action, haction, hstep, htarget⟩
    exact ⟨action, haction, step.target, htarget, by rw [← hstep]⟩

theorem mem_observableSteps [Render C] {source : C} {step : Step C A} :
    step ∈ (system.observableSteps source).run ↔ step.source = source ∧ system.Observable step := by
  have hmem : ∀ other, other ∈ (system.steps source).run ↔ _ := fun _ => mem_steps
  cases hsteps : (system.steps source).run with
  | nil =>
    have hrun : (system.observableSteps source).run = [Step.stutter source] := by
      unfold observableSteps
      rw [show system.steps source = pure [] from hsteps]
      rfl
    rw [hrun]
    rw [hsteps] at hmem
    have hstuck : ∀ other, other.source = source → ¬ system.Takes other :=
      fun other hsource htakes => List.not_mem_nil ((hmem other).2 ⟨hsource, htakes⟩)
    rw [List.mem_singleton]
    constructor
    · rintro rfl
      exact ⟨rfl, Or.inr ⟨rfl, hstuck⟩⟩
    · rintro ⟨rfl, htakes | ⟨hstutter, -⟩⟩
      · exact absurd htakes (hstuck step rfl)
      · exact hstutter
  | cons first rest =>
    have hrun : (system.observableSteps source).run = first :: rest := by
      unfold observableSteps
      rw [show system.steps source = pure (first :: rest) from hsteps]
      rfl
    rw [hrun]
    rw [hsteps] at hmem
    have hfirst := (hmem first).1 List.mem_cons_self
    rw [hmem]
    refine and_congr_right fun hsource => ⟨Or.inl, ?_⟩
    rintro (htakes | ⟨-, hstuck⟩)
    · exact htakes
    · exact absurd hfirst.2 (hstuck first (hfirst.1.trans hsource.symm))

/-! ## The composed system -/

/-- The observer reacts to an observable step of the system, and both move on. -/
theorem edge_observedBy [Render C] {c c' : C} {d d' : D} :
    (system.observedBy observer).toStateGraph.Edge (c, d) (c', d') ↔
      ∃ step, system.Observable step ∧ step.source = c ∧ step.target = c' ∧
        ∃ reaction ∈ (observer.actions step d).run, d' ∈
          (observer.execute step reaction d).run := by
  have hactions : ((system.observedBy observer).actions (c, d)).run =
      (system.observableSteps c).run.flatMap fun step =>
        (observer.actions step d).run.map fun reaction => (step, reaction) :=
    actions_observedBy_lift (m := Id) (c, d)
  show (c', d') ∈ ((system.observedBy observer).successors (c, d)).run ↔ _
  rw [successors_run, hactions]
  simp only [List.mem_flatMap, List.mem_map, mem_observableSteps]
  constructor
  · rintro ⟨action, ⟨step, ⟨hsource, hstep⟩, reaction, hreaction, rfl⟩, hnext⟩
    obtain ⟨r, hr, heq⟩ := List.mem_map.1 hnext
    cases heq
    exact ⟨step, hstep, hsource, rfl, reaction, hreaction, hr⟩
  · rintro ⟨step, hstep, hsource, rfl, reaction, hreaction, hnext⟩
    exact ⟨(step, reaction), ⟨step, ⟨hsource, hstep⟩, reaction, hreaction, rfl⟩,
      List.mem_map.2 ⟨d', hnext, rfl⟩⟩

theorem root_observedBy [Render C] {c : C} {d : D} :
    (c, d) ∈ (system.observedBy observer).toStateGraph.after none ↔
      c ∈ system.initial.run ∧ d ∈ observer.initial.run := by
  show (c, d) ∈ system.initial.run.flatMap (fun l => observer.initial.run.map fun r => (l, r)) ↔ _
  simp

theorem finitary_toStateGraph : system.toStateGraph.Finitary := by
  intro source
  cases source with
  | none => exact ⟨system.initial.run, rfl⟩
  | some c => exact ⟨(system.successors c).run, rfl⟩

/-- A list from which no step leads away holds all that can be reached. -/
theorem finite_reachable_of_closed (items : List C) (initial : ∀ c ∈ system.initial.run, c ∈ items)
    (closed : ∀ c ∈ items, ∀ c' ∈ (system.successors c).run, c' ∈ items) :
    {c | system.toStateGraph.Reachable c}.Finite := by
  refine (List.finite_toSet items).subset ?_
  rintro c ⟨root, hroot, hpath⟩
  induction hpath with
  | refl => exact initial _ hroot
  | tail _ hedge ih => exact closed _ ih _ hedge

end TransitionSystem

/-! ## Automata as observers -/

namespace Automaton

section Lift

variable (automaton : Automaton Id I)

theorem lift_id : (automaton.lift : Automaton Id I) = automaton := by
  show { automaton with transitions := automaton.transitions.map fun transition => transition } =
      automaton
  simp

variable [Monad m] [LawfulMonad m]

theorem enabled_lift (input : I) (state : Nat) :
    (automaton.lift : Automaton m I).enabled input state =
      pure ((automaton.transitions.toList.zipIdx.filter fun t =>
        t.1.source == state && (t.1.guard input).run).map Prod.snd) := by
  have hfilter := filterM_map (m := m) (f := Prod.map Transition.lift id)
    (g := fun t : Transition m I × Nat => t.1.guard input)
    (p := fun t : Transition Id I × Nat => (t.1.guard input).run) fun _ => rfl
  unfold enabled lift
  simp only [Array.toList_map, List.zipIdx_map, List.filter_map]
  rw [hfilter, pure_bind, List.filter_filter]
  simp [Function.comp_def, Transition.lift, Bool.and_comm]

theorem toObserver_lift :
    (automaton.lift : Automaton m I).toObserver = automaton.toObserver.lift := by
  have hactions : (automaton.lift : Automaton m I).enabled =
      fun input state => pure (automaton.enabled input state).run := by
    funext input state
    rw [enabled_lift]
    have hrun := enabled_lift (m := Id) automaton input state
    rw [lift_id] at hrun
    rw [hrun]
    rfl
  unfold toObserver Observer.lift
  rw [hactions]
  simp only [Observer.mk.injEq]
  refine ⟨rfl, trivial, ?_⟩
  funext _ index state
  cases h : automaton.transitions[index]? <;> simp [lift, h, Transition.lift]

end Lift

variable {automaton : Automaton Id I}

theorem mem_enabled {input : I} {index state : Nat} :
    index ∈ (automaton.enabled input state).run ↔ ∃ transition,
      automaton.transitions[index]? = some transition ∧ transition.source = state ∧
        (transition.guard input).run = true := by
  have henabled := enabled_lift (m := Id) automaton input state
  rw [lift_id] at henabled
  rw [henabled]
  show index ∈ List.map Prod.snd _ ↔ _
  simp [List.mem_zipIdx_iff_getElem?]

theorem mem_execute {input : I} {index state next : Nat} :
    next ∈ (automaton.toObserver.execute input index state).run ↔ ∃ transition,
      automaton.transitions[index]? = some transition ∧ transition.source = state ∧
        transition.target = next := by
  simp only [toObserver, Id.run_pure]
  cases automaton.transitions[index]? with
  | none => simp
  | some transition =>
    by_cases h : transition.source = state
    · simp [h, eq_comm (a := next)]
    · simp [h]

/-- The automaton reacts to an input by each of its transitions from the present state whose guard
holds. -/
theorem reacts_iff {input : I} {state next : Nat} :
    (∃ index ∈ (automaton.toObserver.actions input state).run,
      next ∈ (automaton.toObserver.execute input index state).run) ↔
    ∃ transition ∈ automaton.transitions, transition.source = state ∧
      (transition.guard input).run = true ∧ transition.target = next := by
  constructor
  · rintro ⟨index, hindex, hnext⟩
    obtain ⟨transition, hget, hsource, hguard⟩ := mem_enabled.1 hindex
    obtain ⟨other, hother, -, htarget⟩ := mem_execute.1 hnext
    obtain rfl : transition = other := Option.some.inj (hget.symm.trans hother)
    exact ⟨transition, Array.mem_of_getElem? hget, hsource, hguard, htarget⟩
  · rintro ⟨transition, hmem, hsource, hguard, htarget⟩
    obtain ⟨index, hget⟩ := Array.getElem?_of_mem hmem
    exact ⟨index, mem_enabled.2 ⟨transition, hget, hsource, hguard⟩,
      mem_execute.2 ⟨transition, hget, hsource, htarget⟩⟩

end Automaton

end StateExplorer
