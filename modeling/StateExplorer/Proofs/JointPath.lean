import StateExplorer.Proofs.Transition

/-!
# Paths of an observed system

A path in the graph of an observed system is a path of the system with a reaction of the observer to
each of its steps. Where the system has no step, and only there, the observer reacts to the stutter
step while the system stays. `joint_paths` says this of paths of any length, and also in which order
and how often the graph lists the ways to go on: by the actions of the system, their targets, the
reactions of the observer and their targets.
-/

namespace StateExplorer

variable {C A D B I : Type}

/-- Where an observer can come to when it reacts to an input, by reaction and target. -/
def Observer.responses (observer : Observer Id I D B) (input : I) (d : D) : List D :=
  (observer.actions input d).run.flatMap fun reaction => (observer.execute input reaction d).run

namespace TransitionSystem

section Moves

variable (system : TransitionSystem Id C A) (observer : Observer Id (Step C A) D B)

/-- The observer reacts to a step of the system, or to the stutter step if the system has none, and
both move on. -/
def MovesJointly (here next : C × D) : Prop :=
  ∃ step,
    ((step ∈ (system.steps here.1).run ∧ step.target = next.1) ∨
      ((system.steps here.1).run = [] ∧ step = .stutter here.1 ∧ next.1 = here.1)) ∧
    ∃ reaction ∈ (observer.actions step here.2).run, next.2 ∈
      (observer.execute step reaction here.2).run

/-- Where both can come to: by action and target of the system, then by reaction and target of the
observer. -/
def jointSuccessors (c : C) (d : D) : List (C × D) :=
  if (system.steps c).run.isEmpty then
    (observer.responses (.stutter c) d).map (c, ·)
  else
    (system.actions c).run.flatMap fun action =>
      (system.execute action c).run.flatMap fun target =>
        (observer.responses { source := c, action := some action, target } d).map (target, ·)

end Moves

variable {system : TransitionSystem Id C A} {observer : Observer Id (Step C A) D B} [Render C]

theorem observableSteps_run (c : C) :
    (system.observableSteps c).run =
      if (system.steps c).run.isEmpty then [.stutter c] else (system.steps c).run := by
  cases hsteps : (system.steps c).run with
  | nil =>
    have hid : system.steps c = pure [] := hsteps
    simp [observableSteps, hid]
  | cons step steps =>
    have hid : system.steps c = pure (step :: steps) := hsteps
    simp [observableSteps, hid]

/-- The graph lists the targets of the observable steps, each as often as the observer can come
somewhere on it. -/
theorem successors_observedBy (c : C) (d : D) :
    ((system.observedBy observer).successors (c, d)).run =
      (system.observableSteps c).run.flatMap fun step =>
        (observer.responses step d).map (step.target, ·) := by
  have hactions : ((system.observedBy observer).actions (c, d)).run =
      (system.observableSteps c).run.flatMap fun step =>
        (observer.actions step d).run.map fun reaction => (step, reaction) :=
    actions_observedBy_lift (m := Id) (c, d)
  have hexecute : ∀ action, ((system.observedBy observer).execute action (c, d)).run =
      (observer.execute action.1 action.2 d).run.map fun d' => (action.1.target, d') :=
    fun action => execute_observedBy_lift (m := Id) action (c, d)
  rw [successors_run, hactions]
  simp only [hexecute, List.flatMap_assoc, List.flatMap_map, Observer.responses, List.map_flatMap]

theorem successors_observedBy_eq_joint (c : C) (d : D) :
    ((system.observedBy observer).successors (c, d)).run = jointSuccessors system observer c d := by
  rw [successors_observedBy, observableSteps_run, jointSuccessors]
  split
  · simp [Step.stutter]
  · rw [steps_run, List.flatMap_assoc]
    simp only [List.flatMap_map]

theorem mem_observableSteps_iff {c : C} {step : Step C A} :
    step ∈ (system.observableSteps c).run ↔
      step ∈ (system.steps c).run ∨ ((system.steps c).run = [] ∧ step = .stutter c) := by
  rw [observableSteps_run]
  cases hsteps : (system.steps c).run <;> simp

theorem edge_observedBy_iff_joint {here next : C × D} :
    (system.observedBy observer).toStateGraph.Edge here next ↔
      MovesJointly system observer here next := by
  rw [edge_observedBy]
  constructor
  · intro h
    obtain ⟨step, hobservable, hsource, htarget, hreaction⟩ := h
    refine ⟨step, ?_, hreaction⟩
    rcases mem_observableSteps_iff.1
      (mem_observableSteps.2 ⟨hsource, hobservable⟩) with hstep | ⟨hstuck, rfl⟩
    · exact Or.inl ⟨hstep, htarget⟩
    · exact Or.inr ⟨hstuck, rfl, htarget.symm⟩
  · intro h
    obtain ⟨step, hstep, hreaction⟩ := h
    rcases hstep with ⟨hstep, htarget⟩ | ⟨hstuck, rfl, hstay⟩
    · obtain ⟨hsource, hobservable⟩ :=
        mem_observableSteps.1 (mem_observableSteps_iff.2 (Or.inl hstep))
      exact ⟨step, hobservable, hsource, htarget, hreaction⟩
    · obtain ⟨hsource, hobservable⟩ :=
        mem_observableSteps.1 (mem_observableSteps_iff.2 (Or.inr ⟨hstuck, rfl⟩))
      exact ⟨.stutter here.1, hobservable, hsource, hstay.symm, hreaction⟩

/-- The graph of a system with an observer, asked in any monad, has as its paths the lists of pairs
that start with an initial configuration of each and go on by joint moves. It lists the joint moves
from a pair by action, target, reaction and target of the reaction, each as often as it can be
made. -/
theorem joint_paths {m : Type → Type} [Monad m] [LawfulMonad m] [Journal m] [Journal.Quiet m]
    (system : TransitionSystem Id C A) (observer : Observer Id (Step C A) D B) :
    ((system.lift : TransitionSystem m C A).observedBy observer.lift).toStateGraph =
        (system.observedBy observer).toStateGraph.lift ∧
    (∀ first rest, (system.observedBy observer).toStateGraph.Walk none (first :: rest) ↔
      first.1 ∈ system.initial.run ∧ first.2 ∈ observer.initial.run ∧
        (first :: rest).IsChain (MovesJointly system observer)) ∧
    (∀ here next, next ∈ jointSuccessors system observer here.1 here.2 ↔
      MovesJointly system observer here next) ∧
    ∀ c d, ((system.lift : TransitionSystem m C A).observedBy observer.lift).toStateGraph.neighbours
      (c, d) = pure (.finite (jointSuccessors system observer c d)) := by
  have hlift : ((system.lift : TransitionSystem m C A).observedBy observer.lift).toStateGraph =
      (system.observedBy observer).toStateGraph.lift := by
    rw [observedBy_lift, toStateGraph_lift]
  refine ⟨hlift, fun first rest => ?_, fun here next => ?_, fun c d => ?_⟩
  · have hedge : (system.observedBy observer).toStateGraph.Edge = MovesJointly system observer := by
      funext here next
      exact propext edge_observedBy_iff_joint
    rw [StateGraph.walk_cons, root_observedBy, StateGraph.walk_some_iff_isChain, hedge, and_assoc]
  · rw [← successors_observedBy_eq_joint, ← edge_observedBy_iff_joint]
    rfl
  · rw [hlift, ← successors_observedBy_eq_joint]
    rfl

/-- A system with two ways to 1, where an action is enabled that leads nowhere, and an observer that
counts steps up to 2 and may miss one. The path goes on by a stutter step at 1, and the two ways to
1 are listed apart. -/
theorem joint_paths_stuck :
    let system : TransitionSystem Id Nat Bool :=
      { initial := [0], actions := fun _ => [false, true]
        execute := fun action n => if n = 0 then (if action then [1] else [1, 2]) else [] }
    let observer : Observer Id (Step Nat Bool) Nat Unit :=
      { initial := [0], actions := fun _ d => if d < 2 then [()] else []
        execute := fun step _ d => if step.isStutter then [d + 1] else [d, d + 1] }
    (system.observedBy observer).toStateGraph.Walk none [(0, 0), (1, 1), (1, 2)] ∧
      (((system.lift : TransitionSystem (Except Fault) Nat Bool).observedBy
          observer.lift).toStateGraph.neighbours (0, 1) =
        pure (.finite [(1, 1), (1, 2), (2, 1), (2, 2), (1, 1), (1, 2)])) := by
  intro system observer
  obtain ⟨-, hpaths, -, hlist⟩ := joint_paths (m := Except Fault) system observer
  refine ⟨(hpaths (0, 0) [(1, 1), (1, 2)]).2 ⟨by decide, by decide, ?_⟩, hlist 0 1⟩
  refine List.isChain_cons_cons.2 ⟨?_, List.isChain_cons_cons.2 ⟨?_, List.IsChain.singleton _⟩⟩
  · exact ⟨⟨0, some false, 1⟩, Or.inl ⟨by decide, rfl⟩, (), by decide, by decide⟩
  · exact ⟨.stutter 1, Or.inr ⟨rfl, rfl, rfl⟩, (), by decide, by decide⟩

end TransitionSystem

end StateExplorer
