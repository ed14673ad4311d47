import StateExplorer.Proofs.Drivers
import StateExplorer.Proofs.Transition
import StateExplorer.StepBudget
import StateExplorer.Transition.Choice

/-!
# Runs with resolved choices

A policy makes a routine of a transition system, and walking the routine is a run of the system: it
starts in an initial configuration, each action is one that is enabled, and each configuration is
one to which the action before it can lead (`TransitionSystem.RunFrom`). Of the generator it is only
used that a draw below `n` is less than `n`. A pick does not touch the budget (`Picked`), so
whatever the policy is, the walk goes on for as long as the budget lasts, unless no action is
enabled or the last one leads nowhere. In each of these cases it gives the configuration to which
the run has come.
-/

namespace StateExplorer

/-! ## Runs of a system -/

namespace TransitionSystem

variable {C A : Type} {system : TransitionSystem Id C A} {c next last : C} {a : A}
  {pairs : List (C × A)}

/-- The last of the pairs is `last` with an action that leads nowhere. -/
def StuckAfter (system : TransitionSystem Id C A) (pairs : List (C × A)) (last : C) : Prop :=
  ∃ action, pairs.getLast? = some (last, action) ∧ (system.execute action last).run = []

/-- The pairs are the configurations and actions of a run that starts in `first` and ends in
`last`. -/
structure RunFrom (system : TransitionSystem Id C A) (first : C) (pairs : List (C × A)) (last : C) :
    Prop where
  starts : (pairs.map Prod.fst ++ [last]).head? = some first
  enabled : ∀ pair ∈ pairs, pair.2 ∈ (system.actions pair.1).run
  leads : pairs.IsChain fun here there => there.1 ∈ (system.execute here.2 here.1).run
  ends : ∀ pair, pairs.getLast? = some pair →
    last ∈ (system.execute pair.2 pair.1).run ∨ system.StuckAfter pairs last

theorem StuckAfter.cons (h : system.StuckAfter pairs last) (pair : C × A) :
    system.StuckAfter (pair :: pairs) last := by
  obtain ⟨action, hlast, hempty⟩ := h
  exact ⟨action, by rw [List.getLast?_cons, hlast, Option.getD_some], hempty⟩

namespace RunFrom

theorem nil (c : C) : system.RunFrom c [] c where
  starts := rfl
  enabled := by simp
  leads := .nil
  ends := by simp

theorem stuck (enabled : a ∈ (system.actions c).run) (hempty : (system.execute a c).run = []) :
    system.RunFrom c [(c, a)] c where
  starts := rfl
  enabled := List.forall_mem_singleton.2 enabled
  leads := .singleton _
  ends _ _ := Or.inr ⟨a, rfl, hempty⟩

theorem cons (h : system.RunFrom next pairs last) (enabled : a ∈ (system.actions c).run)
    (leads : next ∈ (system.execute a c).run) : system.RunFrom c ((c, a) :: pairs) last where
  starts := rfl
  enabled := List.forall_mem_cons.2 ⟨enabled, h.enabled⟩
  leads := by
    cases pairs with
    | nil => exact .singleton _
    | cons there rest =>
      have hthere : there.1 = next := Option.some.inj h.starts
      exact .cons_cons (hthere ▸ leads) h.leads
  ends := by
    intro pair hlast
    cases hpairs : pairs.getLast? with
    | none =>
      obtain rfl := List.getLast?_eq_none_iff.1 hpairs
      cases hlast
      have hlast : last = next := Option.some.inj h.starts
      exact Or.inl (hlast ▸ leads)
    | some pair' =>
      rw [List.getLast?_cons, hpairs] at hlast
      cases hlast
      exact (h.ends pair' hpairs).imp id fun hstuck => hstuck.cons (c, a)

end RunFrom

end TransitionSystem

/-! ## Steps of a walk -/

section Steps

variable {ω C A σ : Type}

namespace Routine

variable {routine : Routine (ExceptT Fault (StateM ω)) C A} {poll : ExceptT Fault (StateM ω) Bool}
  {observe : C → A → σ → σ} {c next last : C} {a : A} {world world₁ world₂ world₃ : ω}

theorem perform_walkFrom_stop (hpoll : perform poll world = (.ok true, world₁)) (fuel steps : Nat)
    (state : σ) :
    perform (routine.walkFrom poll (fun c a state => pure (observe c a state))
      (fuel + 1) steps c state)
      world = (.ok (c, state), world₁) := by
  rw [walkFrom, perform_bind_of_ok hpoll, if_pos rfl, Journal.debug_eq, pure_bind, perform_pure]

variable (hpoll : perform poll world = (.ok false, world₁))

include hpoll

theorem perform_walkFrom_idle (haction : perform (routine.action c) world₁ = (.ok none, world₂))
    (fuel steps : Nat) (state : σ) :
    perform (routine.walkFrom poll (fun c a state => pure (observe c a state))
      (fuel + 1) steps c state)
      world = (.ok (c, state), world₂) := by
  rw [walkFrom, perform_bind_of_ok hpoll, if_neg Bool.false_ne_true, perform_bind_of_ok haction]
  dsimp only
  rw [Journal.debug_eq, pure_bind, perform_pure]

variable (haction : perform (routine.action c) world₁ = (.ok (some a), world₂))

include haction

theorem perform_walkFrom_stuck
    (hexecute : perform (routine.execute a c) world₂ = (.ok (.error last), world₃))
    (fuel steps : Nat) (state : σ) :
    perform (routine.walkFrom poll (fun c a state => pure (observe c a state))
      (fuel + 1) steps c state)
      world = (.ok (last, observe c a state), world₃) := by
  rw [walkFrom, perform_bind_of_ok hpoll, if_neg Bool.false_ne_true, perform_bind_of_ok haction]
  dsimp only
  rw [pure_bind, perform_bind_of_ok hexecute]
  dsimp only
  rw [Journal.debug_eq, pure_bind, perform_pure]

theorem perform_walkFrom_next
    (hexecute : perform (routine.execute a c) world₂ = (.ok (.ok next), world₃)) (fuel steps : Nat)
    (state : σ) :
    perform (routine.walkFrom poll (fun c a state => pure (observe c a state))
      (fuel + 1) steps c state)
      world =
      perform (routine.walkFrom poll (fun c a state => pure (observe c a state)) fuel
        (steps + 1) next (observe c a state)) world₃ := by
  rw [walkFrom, perform_bind_of_ok hpoll, if_neg Bool.false_ne_true, perform_bind_of_ok haction]
  dsimp only
  rw [pure_bind, perform_bind_of_ok hexecute]

end Routine

end Steps

/-! ## What a walk uses up -/

/-- A generator of numbers and a budget of polls, and whether the budget has called for a stop. -/
structure Supply (γ : Type) where
  generator : γ
  budget : StepBudget
  stopped : Bool := false

section Walk

variable {γ α C A : Type} {next : Nat → γ → Nat × γ}

/-- Draws a number. -/
def Supply.draw (next : Nat → γ → Nat × γ) (n : Nat) : ExceptT Fault (StateM (Supply γ)) Nat :=
  modifyGet fun supply =>
    ((next n supply.generator).1, { supply with generator := (next n supply.generator).2 })

/-- Polls the budget. -/
def Supply.poll : ExceptT Fault (StateM (Supply γ)) Bool :=
  modifyGet fun supply =>
    (supply.budget.poll.1,
      { supply with
        budget := supply.budget.poll.2, stopped := supply.stopped || supply.budget.poll.1 })

/-- One of the candidates has been picked if there is one, and the budget has not been touched. -/
structure Picked (candidates : List α) (choice : Option α) (before after : Supply γ) : Prop where
  none_iff : choice = none ↔ candidates = []
  mem : ∀ a, choice = some a → a ∈ candidates
  budget_eq : after.budget = before.budget

theorem Policy.exists_picked (policy : Policy) (hnext : ∀ n g, 0 < n → (next n g).1 < n)
    (candidates : List α) (supply : Supply γ) :
    ∃ choice supply', perform (policy.pick (Supply.draw next) candidates) supply =
      (.ok choice, supply') ∧
      Picked candidates choice supply supply' := by
  cases candidates with
  | nil => exact ⟨none, supply, rfl, by simp, by simp, rfl⟩
  | cons candidate others =>
    cases policy with
    | first => exact ⟨some candidate, supply, rfl, by simp, by simp, rfl⟩
    | any => exact ⟨some candidate, supply, rfl, by simp, by simp, rfl⟩
    | last =>
      refine ⟨(candidate :: others).getLast?, supply, rfl, by simp, ?_, rfl⟩
      exact fun a h => List.mem_of_getLast? h
    | uniform seed =>
      have hlt := hnext (candidate :: others).length supply.generator (Nat.succ_pos others.length)
      refine ⟨(candidate :: others)[(next (candidate :: others).length supply.generator).1]?, _,
        rfl, ?_, ?_, rfl⟩
      · rw [List.getElem?_eq_getElem hlt]
        simp
      · exact fun a h => List.mem_of_getElem? h

theorem Supply.perform_poll_zero {supply : Supply γ} (h : supply.budget = ⟨0⟩) :
    perform Supply.poll supply = (.ok true, { supply with stopped := true }) := by
  obtain ⟨generator, budget, stopped⟩ := supply
  subst h
  cases stopped <;> rfl

theorem Supply.perform_poll_succ {supply : Supply γ} {n : Nat} (h : supply.budget = ⟨n + 1⟩) :
    perform Supply.poll supply = (.ok false, { supply with budget := ⟨n⟩ }) := by
  obtain ⟨generator, budget, stopped⟩ := supply
  subst h
  cases stopped <;> rfl

/-- What a walk comes to, whoever observes it. -/
structure Walked (system : TransitionSystem Id C A) (policy : Policy) (next : Nat → γ → Nat × γ)
    (fuel steps : Nat) (first : C) (before : Supply γ) (pairs : List (C × A)) (last : C)
    (after : Supply γ) :
    Prop where
  walk : ∀ {σ : Type} (observe : C → A → σ → σ) (state : σ),
    perform ((system.lift.resolve policy (Supply.draw next)).walkFrom Supply.poll
        (fun c a state => pure (observe c a state)) fuel steps first state) before =
      (.ok (last, pairs.foldl (fun state pair => observe pair.1 pair.2 state) state), after)
  run : system.RunFrom first pairs last
  ended : after.stopped = false → (system.actions last).run = [] ∨ system.StuckAfter pairs last

variable (system : TransitionSystem Id C A) (policy : Policy)
  (hnext : ∀ n g, 0 < n → (next n g).1 < n)

include hnext

theorem TransitionSystem.exists_initial (supply : Supply γ) :
    ∃ choice supply',
      perform (system.lift.resolve policy (Supply.draw next)).initial supply =
        (.ok choice, supply') ∧
      Picked system.initial.run choice supply supply' :=
  policy.exists_picked hnext system.initial.run supply

theorem TransitionSystem.exists_action (c : C) (supply : Supply γ) :
    ∃ choice supply',
      perform ((system.lift.resolve policy (Supply.draw next)).action c) supply =
        (.ok choice, supply') ∧
      Picked (system.actions c).run choice supply supply' :=
  policy.exists_picked hnext (system.actions c).run supply

theorem TransitionSystem.exists_execution (a : A) (c : C) (supply : Supply γ) :
    ∃ choice supply',
      perform ((system.lift.resolve policy (Supply.draw next)).execute a c) supply =
        (.ok (choice.elim (.error c) .ok), supply') ∧
      Picked (system.execute a c).run choice supply supply' := by
  obtain ⟨choice, supply', hpick, picked⟩ :=
    policy.exists_picked hnext (system.execute a c).run supply
  refine ⟨choice, supply', ?_, picked⟩
  unfold TransitionSystem.resolve TransitionSystem.lift
  dsimp only
  rw [pure_bind, perform_bind_of_ok hpick]
  cases choice <;> rfl

theorem exists_walked {n : Nat} (fuel steps : Nat) (first : C) (supply : Supply γ)
    (budget : supply.budget = ⟨n⟩) :
    ∃ pairs last supply', Walked system policy next
      (n + fuel + 1) steps first supply pairs last supply' := by
  induction n generalizing steps first supply with
  | zero =>
    refine ⟨[], first, { supply with stopped := true }, fun observe state => ?_,
      .nil first, by simp⟩
    exact Routine.perform_walkFrom_stop (Supply.perform_poll_zero budget) _ steps state
  | succ n ih =>
    have hpoll := Supply.perform_poll_succ budget
    obtain ⟨choice, supply₂, haction, picked⟩ :=
      system.exists_action policy hnext first { supply with budget := ⟨n⟩ }
    cases choice with
    | none =>
      refine ⟨[], first, supply₂, fun observe state => ?_, .nil first,
        fun _ => Or.inl (picked.none_iff.1 rfl)⟩
      exact Routine.perform_walkFrom_idle hpoll haction _ steps state
    | some a =>
      have henabled := picked.mem a rfl
      obtain ⟨choice, supply₃, hexecute, picked'⟩ :=
        system.exists_execution policy hnext a first supply₂
      cases choice with
      | none =>
        have hempty := picked'.none_iff.1 rfl
        refine ⟨[(first, a)], first, supply₃, fun observe state => ?_, .stuck henabled hempty,
          fun _ => Or.inr ⟨a, rfl, hempty⟩⟩
        exact Routine.perform_walkFrom_stuck hpoll haction hexecute _ steps state
      | some second =>
        have hleft : supply₃.budget = ⟨n⟩ := picked'.budget_eq.trans picked.budget_eq
        obtain ⟨pairs, last, supply', walked⟩ := ih (steps + 1) second supply₃ hleft
        refine ⟨(first, a) :: pairs, last, supply', fun observe state => ?_,
          walked.run.cons henabled (picked'.mem second rfl), fun hgoing => ?_⟩
        · rw [Nat.add_right_comm n 1 fuel, Routine.perform_walkFrom_next hpoll haction hexecute]
          exact walked.walk observe (observe first a state)
        · exact (walked.ended hgoing).imp id fun hstuck => hstuck.cons (first, a)

end Walk

/-- Whatever the policy, the generator and the budget are, walking a system with resolved choices
gives a configuration unless there is none to start in. What an observer is told, and this
configuration, make up a run of the system. If the budget has not called for a stop, the run cannot
go on, either because no action is enabled or because the last one leads nowhere. -/
theorem resolved_walk_is_run {C A γ : Type} (system : TransitionSystem Id C A) (policy : Policy)
    (next : Nat → γ → Nat × γ) (hnext : ∀ n g, 0 < n → (next n g).1 < n) (generator : γ)
    (n fuel : Nat) (enough : n < fuel) :
    ∃ result pairs supply,
      (∀ {σ : Type} (observe : C → A → σ → σ) (state : σ),
        perform ((system.lift.resolve policy (Supply.draw next)).walk fuel Supply.poll
            (fun c a state => pure (observe c a state)) state) { generator, budget := ⟨n⟩ } =
          (.ok (result, pairs.foldl (fun state pair => observe pair.1 pair.2 state) state),
            supply)) ∧
      (result = none ↔ system.initial.run = []) ∧
      ∀ c, result = some c →
        (∃ first ∈ system.initial.run, system.RunFrom first pairs c) ∧
        (supply.stopped = false → (system.actions c).run = [] ∨ system.StuckAfter pairs c) := by
  obtain ⟨fuel, rfl⟩ := Nat.exists_eq_add_of_lt enough
  obtain ⟨choice, supply, hinitial, picked⟩ :=
    system.exists_initial policy hnext { generator, budget := ⟨n⟩ }
  cases choice with
  | none =>
    refine ⟨none, [], supply, fun observe state => ?_, picked.none_iff, by simp⟩
    rw [Routine.walk, perform_bind_of_ok hinitial]
    rfl
  | some first =>
    obtain ⟨pairs, last, supply', walked⟩ :=
      exists_walked system policy hnext fuel 0 first supply picked.budget_eq
    refine ⟨some last, pairs, supply', fun observe state => ?_, ?_, ?_⟩
    · rw [Routine.walk, perform_bind_of_ok hinitial]
      dsimp only
      rw [perform_bind_of_ok (walked.walk observe state), perform_pure]
    · simp [← picked.none_iff]
    · intro c hc
      cases hc
      exact ⟨⟨first, picked.mem first rfl, walked.run⟩, walked.ended⟩

/-- Numbers that count down by one or by two, or give up. -/
def TransitionSystem.descent : TransitionSystem Id Nat Bool where
  initial := [3, 5]
  actions c := if c = 0 then [] else [true, false]
  execute goOn c := if goOn then [c - 1, c - 2] else []

/-- With random choices from the seed 11, the walk goes down from 5 to 2 and then gives up, with six
polls left. -/
theorem TransitionSystem.walk_descent :
    ∃ supply : Supply Generator, supply.budget = ⟨6⟩ ∧ supply.stopped = false ∧
      perform ((descent.lift.resolve (.uniform 11) (Supply.draw Generator.below)).walk 10
        Supply.poll
          (fun c a pairs => pure (pairs ++ [(c, a)])) []) { generator := ⟨11⟩, budget := ⟨9⟩ } =
        (.ok (some 2, [(5, true), (3, true), (2, false)]), supply) :=
  ⟨_, rfl, rfl, rfl⟩

theorem resolved_walk_is_run_descent :
    (∀ n g, 0 < n → (Generator.below n g).1 < n) ∧ 9 < 10 ∧
    ∃ pairs supply, pairs = [(5, true), (3, true), (2, false)] ∧ supply.budget = ⟨6⟩ ∧
      (∀ {σ : Type} (observe : Nat → Bool → σ → σ) (state : σ),
        perform ((TransitionSystem.descent.lift.resolve (.uniform 11)
          (Supply.draw Generator.below)).walk 10
            Supply.poll (fun c a state => pure (observe c a state)) state)
          { generator := ⟨11⟩, budget := ⟨9⟩ } =
          (.ok (some 2, pairs.foldl (fun state pair => observe pair.1 pair.2 state) state),
            supply)) ∧
      (∃ first ∈ [3, 5], TransitionSystem.descent.RunFrom first pairs 2) ∧
      TransitionSystem.descent.StuckAfter pairs 2 := by
  have hnext : ∀ n g, 0 < n → (Generator.below n g).1 < n := fun n g hn => Generator.below_lt hn g
  obtain ⟨result, pairs, supply, hwalk, -, hrun⟩ := resolved_walk_is_run TransitionSystem.descent
    (.uniform 11) Generator.below hnext ⟨11⟩ 9 10 (by decide)
  obtain ⟨supply', hbudget, hgoing, hdescent⟩ := TransitionSystem.walk_descent
  -- an observer that keeps what it is told shows which pairs these are
  have hkept := (hwalk (fun c a kept => kept ++ [(c, a)]) []).symm.trans hdescent
  rw [Prod.mk.injEq, Except.ok.injEq, Prod.mk.injEq] at hkept
  obtain ⟨⟨rfl, hpairs⟩, rfl⟩ := hkept
  simp only [List.foldl_append_eq_append, List.nil_append, ← List.flatMap_def,
    List.flatMap_singleton']
    at hpairs
  obtain ⟨hfrom, hended⟩ := hrun 2 rfl
  refine ⟨hnext, by decide, pairs, supply, hpairs, hbudget, hwalk, hfrom, ?_⟩
  exact (hended hgoing).resolve_left (by decide)

end StateExplorer
