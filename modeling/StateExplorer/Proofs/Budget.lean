import StateExplorer.Check.Nested
import StateExplorer.Check.Reachability
import StateExplorer.Check.Safety
import StateExplorer.Proofs.Components.Ledger
import StateExplorer.Proofs.Metered
import StateExplorer.Proofs.Nested.Record

/-!
# Checks under a budget

Every check asks a certain number of times whether to stop, inner searches included. A budget that
lets as many polls pass changes nothing, and one that does not is used up: the check then has found
no counterexample, or holds a beginning of what it would have found.
-/

namespace StateExplorer

variable {ω V K κ C σ : Type}

/-! ## What is observed -/

namespace Gauge

/-- Nothing is observed, and no call is cut short. -/
def plain (σ : Type) : Gauge σ where
  Kept _ := True
  Grows _ _ := True
  Stopped _ := False
  refl _ := trivial
  trans _ _ := trivial

/-- A list gets longer, and no call is cut short. -/
def collecting {α : Type} (view : σ → List α) : Gauge σ where
  Kept _ := True
  Grows s t := view s <+: view t
  Stopped _ := False
  refl _ := List.prefix_rfl
  trans := List.IsPrefix.trans

/-- There is no counterexample as long as the search goes on, nor if a call is cut short. -/
def answering (conclusion : σ → Answer V) : Gauge σ where
  Kept s := conclusion s = .satisfied
  Grows _ _ := True
  Stopped s := conclusion s = .satisfied
  refl _ := trivial
  trans _ _ := trivial

end Gauge

/-! ## Visitors that collect -/

theorem Reached.collector_visits :
    (Gauge.collecting Array.toList).Visits
      (Reached.collector : Visitor (StateT ω (Except Fault)) V C (Array V))
      fun _ _ _ => Reached.collector where
  enter source target search vertices := by
    intro kept
    refine Metered.pure ⟨?_, fun _ => trivial⟩
    show vertices.toList <+: (vertices.push target).toList
    rw [Array.toList_push]
    exact List.prefix_append _ _
  revisit _ _ _ _ := Gauge.heeds_pure
  leave _ _ _ _ := Gauge.heeds_pure

namespace Components

variable [BEq K] [Hashable K]

/-- Completed components stay. -/
theorem Ledger.components_prefix_complete (ledger : Ledger V K) (leader : K) :
    ledger.components.toList <+: (ledger.complete leader).components.toList := by
  unfold complete
  split
  · exact List.prefix_rfl
  · rw [Array.toList_push]
    exact List.prefix_append _ _

theorem bookkeeper_visits [Render V] (space : StateSpace (StateT ω (Except Fault)) V K) :
    (Gauge.collecting fun ledger : Ledger V K => ledger.components.toList).Visits
      (bookkeeper space : Visitor _ V (DepthSearch V κ) _)
      fun π _ _ => bookkeeper (space.beside π) where
  enter source target search ledger := by
    intro kept
    apply Metered.lift_bind
    exact fun key => Metered.pure ⟨List.prefix_rfl, fun _ => trivial⟩
  revisit source target search ledger := by
    cases source with
    | none => exact Gauge.heeds_pure
    | some source =>
      intro kept
      apply Metered.lift_bind
      intro source
      apply Metered.lift_bind
      intro target
      refine Metered.pure ⟨?_, fun _ => trivial⟩
      show ledger.components.toList <+:
        ((if source == target then ledger.loop source else ledger).reach source
          target).components.toList
      rw [components_reach]
      split <;> exact List.prefix_rfl
  leave vertex frame search ledger := by
    intro kept
    apply Metered.lift_bind
    intro key
    -- what the parent takes over leaves the components alone, and then the vertex may complete one
    have hleave : ∀ ledger' : Ledger V K, ledger'.components = ledger.components →
        Metered (fun result => ledger.components.toList <+: result.2.components.toList ∧
            (result.1 = Signal.proceed → True)) (fun part _ => part.1 = Signal.abort ∧ False)
          (if ledger'.isLeader key = true then pure (.proceed, ledger'.complete key)
            else pure (.proceed, { ledger' with followers := key :: ledger'.followers }) :
            StateT ω (Except Fault) _)
          fun π _ _ => if ledger'.isLeader key = true then pure (.proceed, ledger'.complete key)
            else pure (.proceed, { ledger' with followers := key :: ledger'.followers }) := by
      intro ledger' hledger'
      apply Metered.ite
      · intro _
        exact Metered.pure ⟨hledger' ▸ ledger'.components_prefix_complete key, fun _ => trivial⟩
      · intro _
        exact Metered.pure ⟨hledger' ▸ List.prefix_rfl, fun _ => trivial⟩
    simp only [Journal.trace_eq, pure_bind]
    cases hparent : search.current with
    | none => exact hleave ledger rfl
    | some parent =>
      apply Metered.lift_bind
      exact fun parent => hleave _ (components_reach ledger parent key)

end Components

/-! ## Visitors that answer -/

theorem Safety.detector_visits [Render V] (bad : V → StateT ω (Except Fault) Bool) :
    (Gauge.answering id).Visits (Safety.detector bad : Visitor _ V (DepthSearch V κ) (Answer V))
      fun _ _ _ => Safety.detector fun v => StateT.lift (bad v) where
  enter source target search answer := by
    intro kept
    apply Metered.lift_bind
    intro isBad
    simp only [Journal.debug_eq, pure_bind]
    apply Metered.ite
    · exact fun _ => Metered.pure ⟨trivial, fun h => by cases h⟩
    · exact fun _ => Metered.pure ⟨trivial, fun _ => kept⟩
  revisit _ _ _ _ := Gauge.heeds_pure
  leave _ _ _ _ := Gauge.heeds_pure

namespace NestedSearch

variable [BEq K] [Hashable K]

/-! Inner searches do not poll but before their steps. -/

omit [Hashable K] in
theorem closer_visits (space : StateSpace (StateT ω (Except Fault)) V K) (seed : K) :
    (Gauge.plain _).Visits (closer space seed : Visitor _ V C _)
      fun π _ _ => closer (space.beside π) seed where
  enter source target search closing := by
    intro kept
    apply Metered.lift_bind
    intro key
    apply Metered.ite
    · exact fun _ => Metered.pure ⟨trivial, fun _ => trivial⟩
    · exact fun _ => Metered.pure ⟨trivial, fun _ => trivial⟩
  revisit _ _ _ _ := Gauge.heeds_pure
  leave _ _ _ _ := Gauge.heeds_pure

theorem redVisitor_visits (space : StateSpace (StateT ω (Except Fault)) V K) (seed : V) :
    (Gauge.plain _).Visits (redVisitor space seed) fun π _ _ =>
      redVisitor (space.beside π) seed where
  enter _ _ _ _ := Gauge.heeds_pure
  revisit source target search closing := by
    intro kept
    apply Metered.lift_bind
    intro key
    apply Metered.ite
    · exact fun _ => Metered.pure ⟨trivial, fun _ => trivial⟩
    · exact fun _ => Metered.pure ⟨trivial, fun _ => trivial⟩
  leave _ _ _ _ := Gauge.heeds_pure

omit [BEq K] [Hashable K] in
theorem findM?_metered {α : Type} {p : α → StateT ω (Except Fault) Bool}
    {p' : ∀ π : Type, (π → Bool × π) → Nat → α → StateT π (StateT ω (Except Fault)) Bool}
    (h : ∀ a, Metered (fun _ => True) (fun _ _ => False) (p a) fun π ask slack => p' π ask slack a)
    (fuel : Nat) (s : Sequence α) :
    Metered (fun _ => True) (fun _ _ => False) (s.findM? fuel p)
      fun π ask slack => s.findM? (fuel + slack) (p' π ask slack) := by
  cases s with
  | finite items =>
    simp only [Sequence.findM?]
    induction items with
    | nil => exact Metered.pure trivial
    | cons a items ih =>
      refine (h a).bind (fun found _ => ?_) fun hcut => hcut.elim
      cases found with
      | true => exact Metered.pure trivial
      | false => exact ih
  | endless item next =>
    simp only [Sequence.findM?]
    induction fuel generalizing next with
    | zero => exact Metered.throw
    | succ fuel ih =>
      simp only [Nat.succ_add, Sequence.findM?.go]
      refine (h (item next)).bind (fun found _ => ?_) fun hcut => hcut.elim
      apply Metered.ite
      · exact fun _ => Metered.pure trivial
      · exact fun _ => ih (next + 1)

omit [Hashable K] in
theorem backEdgeFinder_visits (fuel : Nat) (space : StateSpace (StateT ω (Except Fault)) V K)
    (seed : K) :
    (Gauge.plain _).Visits (backEdgeFinder fuel space seed : Visitor _ V C _)
      fun π _ slack => backEdgeFinder (fuel + slack) (space.beside π) seed where
  enter source target search closing := by
    intro kept
    apply Metered.lift_bind
    intro neighbours
    have hback : ∀ vertex, Metered (fun _ => True) (fun _ _ => False)
        (do return (← space.key vertex) == seed)
        fun π _ _ => do return (← (space.beside π).key vertex) == seed := by
      intro vertex
      apply Metered.lift_bind
      exact fun _ => Metered.pure trivial
    refine (findM?_metered hback fuel neighbours).bind (fun back _ => ?_) fun hcut => hcut.elim
    cases back with
    | none => exact Metered.pure ⟨trivial, fun _ => trivial⟩
    | some back => exact Metered.pure ⟨trivial, fun _ => trivial⟩
  revisit _ _ _ _ := Gauge.heeds_pure
  leave _ _ _ _ := Gauge.heeds_pure

/-! Outer searches are cut short if an inner one is. -/

omit [BEq K] [Hashable K] in
/-- A call that runs an inner search may do anything with its result, but must stop at once if that
search was cancelled. -/
theorem inner_calls {τ ι : Type} [Store κ K] [Render V] {conclusion : τ → Answer V} {outer : τ}
    {closing : ι} {alone : Visitor (StateT ω (Except Fault)) V (DepthSearch V κ) ι}
    {polled : ∀ π : Type, (π → Bool × π) → Nat →
      Visitor (StateT π (StateT ω (Except Fault))) V (DepthSearch V κ) ι}
    (visits : (Gauge.plain ι).Visits alone polled)
    (space : StateSpace (StateT ω (Except Fault)) V K) (known : κ) (fuel : Nat)
    {f : Outcome × Session (DepthSearch V κ) ι → StateT ω (Except Fault) (Signal × τ)}
    {g : ∀ π : Type, (π → Bool × π) → Nat →
      Outcome × Session (DepthSearch V κ) ι → StateT π (StateT ω (Except Fault)) (Signal × τ)}
    (next : ∀ outcome inner, (Gauge.answering conclusion).Calls outer (f (outcome, inner))
      fun π ask slack => g π ask slack (outcome, inner))
    (cancelled : ∀ inner, ∃ part,
      (∀ π ask slack, g π ask slack (.cancelled, inner) = pure (.abort, part)) ∧
      conclusion part = .satisfied) :
    (Gauge.answering conclusion).Calls outer
      (DepthSearch.start space known none >>= fun search =>
        (DepthSearch.machine space alone).run (pure false) fuel { search, state := closing } >>= f)
      fun π ask slack => DepthSearch.start (space.beside π) known none >>= fun search =>
        (DepthSearch.machine (space.beside π) (polled π ask slack)).run
          (modifyGet ask) (fuel + slack)
          { search, state := closing } >>= g π ask slack := by
  intro kept
  refine DepthSearch.start_run_metered visits space known none trivial ?_ ?_
  · exact fun result _ => next result.1 result.2 kept
  · rintro ⟨outcome, inner⟩ whole result (⟨rfl, -⟩ | ⟨-, hfalse⟩) -
    · obtain ⟨part, hpart, hsatisfied⟩ := cancelled inner
      exact ⟨_, hpart, rfl, hsatisfied⟩
    · exact hfalse.elim

theorem preorderVisitor_visits [Render V] (fuel : Nat)
    (space : StateSpace (StateT ω (Except Fault)) V K)
    (accepting : V → StateT ω (Except Fault) Bool) :
    (Gauge.answering Findings.conclusion).Visits
      (preorderVisitor fuel (pure false) space accepting : Visitor _ V (DepthSearch V κ) _)
      fun π ask slack => preorderVisitor (fuel + slack) (modifyGet ask) (space.beside π)
        fun v => StateT.lift (accepting v) where
  enter source target search findings := by
    intro kept
    apply Metered.lift_bind
    intro isAccepting
    simp only [Journal.trace_eq, Journal.debug_eq, pure_bind]
    apply Metered.ite
    · intro _
      apply Metered.lift_bind
      intro seed
      let view := { space with graph := space.graph.rootedAfter target }
      refine inner_calls (closer_visits view seed) view _ fuel ?_
        (fun _ => ⟨_, fun _ _ _ => rfl, rfl⟩) kept
      rintro outcome ⟨inner, closing⟩ kept
      cases outcome with
      | exhausted => exact Metered.pure ⟨trivial, fun _ => kept⟩
      | cancelled => exact Metered.pure ⟨trivial, fun h => by cases h⟩
      | aborted =>
        cases closing with
        | none => exact Metered.pure ⟨trivial, fun _ => kept⟩
        | some closing => exact Metered.pure ⟨trivial, fun h => by cases h⟩
    · exact fun _ => Metered.pure ⟨trivial, fun _ => kept⟩
  revisit _ _ _ _ := Gauge.heeds_pure
  leave _ _ _ _ := Gauge.heeds_pure

theorem postorderVisitor_visits [Render V] (fuel : Nat)
    (space : StateSpace (StateT ω (Except Fault)) V K)
    (accepting : V → StateT ω (Except Fault) Bool) :
    (Gauge.answering Findings.conclusion).Visits
      (postorderVisitor fuel (pure false) space accepting : Visitor _ V (DepthSearch V κ) _)
      fun π ask slack => postorderVisitor (fuel + slack) (modifyGet ask) (space.beside π)
        fun v => StateT.lift (accepting v) where
  enter _ _ _ _ := Gauge.heeds_pure
  revisit _ _ _ _ := Gauge.heeds_pure
  leave vertex frame search findings := by
    intro kept
    apply Metered.lift_bind
    intro isAccepting
    simp only [Journal.trace_eq, Journal.debug_eq, pure_bind]
    apply Metered.ite
    · intro _
      apply Metered.lift_bind
      intro seed
      let view := { space with graph := space.graph.rootedAt vertex }
      refine inner_calls (backEdgeFinder_visits fuel view seed) view _ fuel ?_
        (fun _ => ⟨_, fun _ _ _ => rfl, rfl⟩) kept
      rintro outcome ⟨inner, closing⟩ kept
      cases outcome with
      | exhausted => exact Metered.pure ⟨trivial, fun _ => kept⟩
      | cancelled => exact Metered.pure ⟨trivial, fun h => by cases h⟩
      | aborted =>
        cases closing with
        | none => exact Metered.pure ⟨trivial, fun _ => kept⟩
        | some closing => exact Metered.pure ⟨trivial, fun h => by cases h⟩
    · exact fun _ => Metered.pure ⟨trivial, fun _ => kept⟩

section Colored

variable [Render V] (fuel : Nat) (space : StateSpace (StateT ω (Except Fault)) V K)
  (accepting : V → StateT ω (Except Fault) Bool)

theorem redSearch_calls (seed : V) (path : List V) (blue : BlueState V K) :
    (Gauge.answering fun blue : BlueState V K => blue.findings.conclusion).Calls blue
      (redSearch fuel (pure false) space seed path blue)
      fun π ask slack =>
        redSearch (fuel + slack) (modifyGet ask) (space.beside π) seed path blue := by
  unfold redSearch
  simp only [Journal.trace_eq, Journal.debug_eq, pure_bind]
  let view := { space with graph := space.graph.rootedAfter seed }
  refine inner_calls (redVisitor_visits view seed) view _ fuel ?_ fun _ =>
    ⟨_, fun _ _ _ => rfl, rfl⟩
  rintro outcome ⟨inner, closing⟩ kept
  cases outcome with
  | exhausted => exact Metered.lift_bind fun _ => Metered.pure ⟨trivial, fun _ => kept⟩
  | cancelled => exact Metered.pure ⟨trivial, fun h => by cases h⟩
  | aborted =>
    cases closing with
    | none => exact Metered.lift_bind fun _ => Metered.pure ⟨trivial, fun _ => kept⟩
    | some closing => exact Metered.pure ⟨trivial, fun h => by cases h⟩

omit [Render V] in
theorem closesCycle_metered (palette : Palette K) (source target : V) (targetKey : K) :
    Metered (fun _ => True) (fun _ _ => False)
      (closesCycle space accepting palette source target targetKey)
      fun π _ _ => closesCycle (space.beside π) (fun v => StateT.lift (accepting v)) palette source
        target targetKey := by
  apply Metered.lift_bind
  intro isAccepting
  apply Metered.ite
  · exact fun _ => Metered.pure trivial
  · intro _
    exact Metered.lift_bind fun _ => Metered.pure trivial

theorem blueVisitor_visits (early : Bool) :
    (Gauge.answering fun blue : BlueState V K => blue.findings.conclusion).Visits
      (blueVisitor fuel (pure false) space accepting early : Visitor _ V (DepthSearch V κ) _)
      fun π ask slack => blueVisitor (fuel + slack) (modifyGet ask) (space.beside π)
        (fun v => StateT.lift (accepting v)) early where
  enter source target search blue := by
    intro kept
    -- the weight of a root is its own
    have hbelow : ∀ below : Nat, Metered
        (fun result : Signal × BlueState V K =>
          True ∧ (result.1 = .proceed → result.2.findings.conclusion = .satisfied))
        (fun part _ => part.1 = .abort ∧ part.2.findings.conclusion = .satisfied)
        (accepting target >>= fun isAccepting => space.key target >>= fun key => pure (.proceed,
          { blue with palette := blue.palette.enter key (below + if isAccepting then 1 else 0) }))
        fun π _ _ => StateT.lift (accepting target) >>= fun isAccepting =>
          (space.beside π).key target >>= fun key => pure (.proceed,
            { blue with
              palette := blue.palette.enter key (below + if isAccepting then 1 else 0) }) := by
      intro below
      refine Metered.lift_bind fun isAccepting => Metered.lift_bind fun key => ?_
      exact Metered.pure ⟨trivial, fun _ => kept⟩
    cases source with
    | none => exact hbelow 0
    | some source => exact Metered.lift_bind fun key => hbelow (blue.palette.weight key)
  revisit source target search blue := by
    cases early with
    | false => exact Gauge.heeds_pure
    | true =>
      cases source with
      | none => exact Gauge.heeds_pure
      | some source =>
        intro kept
        apply Metered.lift_bind
        intro key
        apply Metered.ite
        · exact fun _ => Metered.pure ⟨trivial, fun _ => kept⟩
        · intro _
          refine (closesCycle_metered space accepting blue.palette source target key).bind
            (fun closes _ => ?_) fun hcut => hcut.elim
          simp only [Journal.debug_eq, pure_bind]
          apply Metered.ite
          · exact fun _ => Metered.pure ⟨trivial, fun _ => kept⟩
          · exact fun _ => Metered.pure ⟨trivial, fun h => by cases h⟩
  leave vertex frame search blue := by
    intro kept
    apply Metered.lift_bind
    intro isAccepting
    apply Metered.ite
    · intro _
      refine Metered.poll.bind ?_ ?_
      · rintro stop rfl
        exact redSearch_calls fuel space vertex search.path blue kept
      · rintro stop whole result rfl - -
        exact ⟨_, fun _ _ _ => rfl, rfl, rfl⟩
    · intro _
      apply Metered.lift_bind
      exact fun _ => Metered.pure ⟨trivial, fun _ => kept⟩

end Colored

end NestedSearch

/-! ## Whole checks -/

/-- If a check returns when it runs alone, then there is a number of polls such that, with at least
the same allowance of steps,

* a poll that only counts is asked as many times, and nothing else changes;
* a budget for as many polls changes nothing either, and the rest of it is left;
* a smaller budget is used up, and what is returned is cut short. -/
def Budgeted {α : Type} (Cut : α → α → Prop) (alone : Nat → StateT ω (Except Fault) α)
    (polled : Polled ω α) : Prop :=
  ∀ fuel world a world', (alone fuel).run world = .ok (a, world') →
    ∃ polls, ∀ allowance, fuel ≤ allowance →
      (∀ k, ((polled Nat (fun k => (false, k + 1)) allowance).run k).run world =
        .ok ((a, k + polls), world')) ∧
      (∀ n, polls ≤ n → ((polled StepBudget StepBudget.poll allowance).run ⟨n⟩).run world =
        .ok ((a, ⟨n - polls⟩), world')) ∧
      ∀ n, n < polls → ∃ part world'',
        ((polled StepBudget StepBudget.poll allowance).run ⟨n⟩).run world =
          .ok ((part, ⟨0⟩), world'') ∧ Cut part a

theorem Metered.budgeted {α : Type} {Post : α → Prop} {Cut : α → α → Prop}
    {alone : Nat → StateT ω (Except Fault) α} {polled : Polled ω α}
    (h : ∀ fuel, Metered Post Cut (alone fuel) fun π ask slack => polled π ask (fuel + slack)) :
    Budgeted Cut alone polled := by
  intro fuel world a world' hrun
  obtain ⟨-, polls, hpolls⟩ := h fuel hrun
  refine ⟨polls, fun allowance hallowance => ?_⟩
  obtain ⟨slack, rfl⟩ := Nat.exists_eq_add_of_le hallowance
  refine ⟨fun k => ?_, fun n hn => ?_, fun n hn => ?_⟩
  · have hcount := (hpolls Nat (fun k => (false, k + 1)) slack k).1
    rw [draw_count] at hcount
    exact hcount rfl
  · have hpass := (hpolls StepBudget StepBudget.poll slack ⟨n⟩).1
    rw [draw_budget_of_le hn] at hpass
    exact hpass rfl
  · have hstop := (hpolls StepBudget StepBudget.poll slack ⟨n⟩).2
    rw [draw_budget_of_lt hn] at hstop
    exact hstop rfl

section Counted

variable {α : Type} {Cut : α → α → Prop} {fuel polls : Nat} {world world' : ω}

/-- A budgeted check polls as often as has been counted. -/
theorem Budgeted.of_count {alone : Nat → StateT ω (Except Fault) α} {polled : Polled ω α} {a : α}
    (h : Budgeted Cut alone polled) (halone : (alone fuel).run world = .ok (a, world'))
    (hcount : ((polled Nat (fun k => (false, k + 1)) fuel).run 0).run world =
      .ok ((a, polls), world')) (n : Nat) :
    (polls ≤ n → ((polled StepBudget StepBudget.poll fuel).run ⟨n⟩).run world =
      .ok ((a, ⟨n - polls⟩), world')) ∧
    (n < polls → ∃ part world'', ((polled StepBudget StepBudget.poll fuel).run ⟨n⟩).run world =
      .ok ((part, ⟨0⟩), world'') ∧ Cut part a) := by
  obtain ⟨polls', hpolls⟩ := h fuel world a world' halone
  obtain ⟨hcounted, henough, hless⟩ := hpolls fuel (Nat.le_refl fuel)
  obtain rfl : polls' = polls := by
    have heq := (hcounted 0).symm.trans hcount
    rw [Nat.zero_add] at heq
    exact congrArg Prod.snd (congrArg Prod.fst (Except.ok.inj heq))
  exact ⟨henough n, hless n⟩

/-- With a world of one state, a check for a counterexample finds it or finds none, as the budget
says. -/
theorem Budgeted.answer_of_count {alone : Nat → StateT Unit (Except Fault) (Answer V)}
    {polled : Polled Unit (Answer V)} {answer : Answer V}
    (h : Budgeted (fun part _ => part = .satisfied) alone polled)
    (halone : (alone fuel).run () = .ok (answer, ()))
    (hcount : ((polled Nat (fun k => (false, k + 1)) fuel).run 0).run () =
      .ok ((answer, polls), ())) (n : Nat) :
    ((polled StepBudget StepBudget.poll fuel).run ⟨n⟩).run () =
      .ok ((if n < polls then .satisfied else answer, ⟨n - polls⟩), ()) := by
  obtain ⟨henough, hless⟩ := h.of_count halone hcount n
  by_cases hn : n < polls
  · obtain ⟨part, ⟨⟩, hpart, rfl⟩ := hless hn
    rw [if_pos hn, Nat.sub_eq_zero_of_le (Nat.le_of_lt hn)]
    exact hpart
  · rw [if_neg hn]
    exact henough (Nat.le_of_not_lt hn)

end Counted

section Checks

variable [BEq K] [Hashable K] [Render V] (space : StateSpace (StateT ω (Except Fault)) V K)
  (fuel : Nat) (bound : Option Nat) (predicate : V → StateT ω (Except Fault) Bool)

namespace Reached

omit [BEq K] [Hashable K] [Render V] in
theorem conclude_eq (outcome : Outcome) (vertices : Array V) {m : Type → Type} [Monad m]
    [LawfulMonad m] [Journal m] [Journal.Quiet m] :
    (conclude outcome vertices : m _) =
      pure { vertices := vertices.toList, complete := outcome == .exhausted } := by
  simp [conclude]

omit [Render V] in
/-- What has been collected by then is a beginning of what the whole search collects. -/
theorem conclude_cut {part whole : Outcome × Session C (Array V)} {reached : Reached V}
    (cut : ((Gauge.collecting Array.toList).session C).CutShort part whole)
    (h : Returns (conclude whole.1 whole.2.state : StateT ω (Except Fault) _) reached) :
    ∃ part', (∀ (π : Type) (_ : π → Bool × π) (_ : Nat),
        (conclude part.1 part.2.state : StateT π (StateT ω (Except Fault)) _) = pure part') ∧
      part'.complete = false ∧ part'.vertices <+: reached.vertices := by
  rw [conclude_eq] at h
  rw [Returning.of_pure h]
  refine ⟨_, fun _ _ _ => conclude_eq _ _, ?_⟩
  rcases cut with ⟨hcancelled, -, hprefix⟩ | ⟨-, hfalse⟩
  · rw [hcancelled]
    exact ⟨rfl, hprefix⟩
  · exact hfalse.elim

theorem depthFirst_metered :
    Metered (fun _ => True)
      (fun part whole => part.complete = false ∧ part.vertices <+: whole.vertices)
      (depthFirst fuel (pure false) space bound)
      fun π ask slack => depthFirst (fuel + slack) (modifyGet ask) (space.beside π) bound := by
  refine DepthSearch.start_run_metered collector_visits space _ bound trivial ?_ conclude_cut
  rintro ⟨outcome, t⟩ -
  simp only [conclude_eq]
  exact Metered.pure trivial

theorem breadthFirst_metered :
    Metered (fun _ => True)
      (fun part whole => part.complete = false ∧ part.vertices <+: whole.vertices)
      (breadthFirst fuel (pure false) space)
      fun π ask slack => breadthFirst (fuel + slack) (modifyGet ask) (space.beside π) := by
  refine BreadthSearch.start_run_metered collector_visits space _ trivial ?_ conclude_cut
  rintro ⟨outcome, t⟩ -
  simp only [conclude_eq]
  exact Metered.pure trivial

end Reached

theorem Components.decompose_metered :
    Metered (fun _ => True)
      (fun part whole => part.complete = false ∧ part.components <+: whole.components)
      (decompose fuel (pure false) space)
      fun π ask slack => decompose (fuel + slack) (modifyGet ask) (space.beside π) := by
  refine DepthSearch.start_run_metered (bookkeeper_visits space) space _ none trivial ?_ ?_
  · rintro ⟨outcome, t⟩ -
    simp only [Journal.debug_eq, pure_bind]
    exact Metered.pure trivial
  · rintro ⟨outcome, t⟩ ⟨outcome', t'⟩ decomposition (⟨rfl, -, hprefix⟩ | ⟨-, hfalse⟩) h
    · rw [Returning.of_pure (Returning.of_seq h)]
      simp only [Journal.debug_eq, pure_bind]
      exact ⟨_, fun _ _ _ => rfl, rfl, hprefix⟩
    · exact hfalse.elim

omit [BEq K] [Hashable K] in
/-- A search that is cut short has found no counterexample. -/
theorem answer_metered [Store κ K] {conclusion : σ → Answer V}
    {alone : Visitor (StateT ω (Except Fault)) V (DepthSearch V κ) σ}
    {polled : ∀ π : Type, (π → Bool × π) → Nat →
      Visitor (StateT π (StateT ω (Except Fault))) V (DepthSearch V κ) σ}
    (visits : (Gauge.answering conclusion).Visits alone polled) (known : κ) (state : σ)
    (clean : conclusion state = .satisfied)
    (line : Outcome × Session (DepthSearch V κ) σ → Unit → String) :
    Metered (fun _ => True) (fun part _ => part = .satisfied)
      (DepthSearch.start space known bound >>= fun search =>
        (DepthSearch.machine space alone).run (pure false) fuel { search, state } >>= fun result =>
          Journal.debug (line result) >>= fun _ => pure (conclusion result.2.state))
      fun π ask slack => DepthSearch.start (space.beside π) known bound >>= fun search =>
        (DepthSearch.machine (space.beside π) (polled π ask slack)).run
          (modifyGet ask) (fuel + slack)
          { search, state } >>= fun result =>
          Journal.debug (line result) >>= fun _ => pure (conclusion result.2.state) := by
  simp only [Journal.debug_eq, pure_bind]
  refine DepthSearch.start_run_metered visits space known bound clean ?_ ?_
  · exact fun _ _ => Metered.pure trivial
  · rintro part whole answer (⟨-, kept, -⟩ | ⟨-, stopped⟩) -
    · exact ⟨_, fun _ _ _ => rfl, kept⟩
    · exact ⟨_, fun _ _ _ => rfl, stopped⟩

theorem Safety.check_metered :
    Metered (fun _ => True) (fun part _ => part = .satisfied)
      (Safety.check fuel (pure false) space predicate bound)
      fun π ask slack => Safety.check (fuel + slack) (modifyGet ask) (space.beside π)
        (fun v => StateT.lift (predicate v)) bound :=
  answer_metered space fuel bound (detector_visits predicate) _ .satisfied rfl _

theorem NestedSearch.Method.check_metered (method : Method) :
    Metered (fun _ => True) (fun part _ => part = .satisfied)
      (method.check fuel (pure false) space predicate)
      fun π ask slack => method.check (fuel + slack) (modifyGet ask) (space.beside π)
        fun v => StateT.lift (predicate v) := by
  cases method with
  | preorder =>
    exact answer_metered space fuel none (preorderVisitor_visits fuel space predicate) _ {} rfl _
  | postorder =>
    exact answer_metered space fuel none (postorderVisitor_visits fuel space predicate) _ {} rfl _
  | colored early =>
    exact answer_metered space fuel none (blueVisitor_visits fuel space predicate early) _ {} rfl _

/-- Every check is budgeted, whatever the graph, the canonical forms and the predicate do to the
world. If its budget is too small, a check for a counterexample has found none, and a search for
vertices or components is not complete and holds a beginning of what the whole search finds. -/
theorem every_check_is_budgeted :
    (∀ bound, Budgeted (fun part whole => part.complete = false ∧ part.vertices <+: whole.vertices)
      (fun fuel => Reached.depthFirst fuel (pure false) space bound)
      fun π ask fuel => Reached.depthFirst fuel (modifyGet ask) (space.beside π) bound) ∧
    Budgeted (fun part whole => part.complete = false ∧ part.vertices <+: whole.vertices)
      (fun fuel => Reached.breadthFirst fuel (pure false) space)
      (fun π ask fuel => Reached.breadthFirst fuel (modifyGet ask) (space.beside π)) ∧
    Budgeted (fun part whole => part.complete = false ∧ part.components <+: whole.components)
      (fun fuel => Components.decompose fuel (pure false) space)
      (fun π ask fuel => Components.decompose fuel (modifyGet ask) (space.beside π)) ∧
    (∀ bound, Budgeted (fun part _ => part = .satisfied)
      (fun fuel => Safety.check fuel (pure false) space predicate bound)
      fun π ask fuel => Safety.check fuel (modifyGet ask) (space.beside π)
        (fun v => StateT.lift (predicate v)) bound) ∧
    ∀ method : NestedSearch.Method, Budgeted (fun part _ => part = .satisfied)
      (fun fuel => method.check fuel (pure false) space predicate)
      fun π ask fuel => method.check fuel (modifyGet ask) (space.beside π)
        fun v => StateT.lift (predicate v) := by
  refine ⟨fun bound => ?_, ?_, ?_, fun bound => ?_, fun method => ?_⟩
  · exact Metered.budgeted fun fuel => Reached.depthFirst_metered space fuel bound
  · exact Metered.budgeted fun fuel => Reached.breadthFirst_metered space fuel
  · exact Metered.budgeted fun fuel => Components.decompose_metered space fuel
  · exact Metered.budgeted fun fuel => Safety.check_metered space fuel bound predicate
  · exact Metered.budgeted fun fuel => NestedSearch.Method.check_metered space fuel predicate method

/-- Along an endless chain the outer search of the check on entering polls twice until it enters the
accepting `1`, and the inner one three times until it meets `4`, which has the same canonical form.
The check with colours polls four times until it meets `3`, which has the form of `0`. A
breadth-first search polls once for each of the seven vertices of a tree, once at the end of each of
the eight sequences of neighbours that it reads, and once when nothing is left. -/
theorem every_check_is_budgeted_runs :
    let chain : StateGraph Id Nat :=
      { roots := .finite [0], neighbours := fun n => .finite [n + 1], hasCycles := false,
        hasSharing := false }
    let tree : StateSpace (StateT Unit (Except Fault)) Nat Nat :=
      StateGraph.under
        { roots := .finite [0]
          neighbours := fun n => .finite (if n < 3 then [2 * n + 1, 2 * n + 2] else [])
          hasCycles := false, hasSharing := false } id
    let accepting : Nat → StateT Unit (Except Fault) Bool := fun v => pure (v % 3 == 1)
    let alone (method : NestedSearch.Method) (graph : StateGraph Id Nat) :=
      method.check 20 (pure false) (graph.under (· % 3)) accepting
    let polled (method : NestedSearch.Method) (graph : StateGraph Id Nat) :=
      method.check 20 (modifyGet StepBudget.poll) ((graph.under (· % 3)).beside StepBudget)
        fun v => StateT.lift (accepting v)
    let searched : StateT StepBudget (StateT Unit (Except Fault)) (Reached Nat) :=
      Reached.breadthFirst 20 (modifyGet StepBudget.poll) (tree.beside StepBudget)
    (alone .preorder chain).run () = .ok (.violated (.edge 3 4) [0, 1, 2, 3, 4], ()) ∧
    (∀ n, ((polled .preorder chain).run ⟨n⟩).run () =
      .ok ((if n < 5 then .satisfied else .violated (.edge 3 4) [0, 1, 2, 3, 4], ⟨n - 5⟩), ())) ∧
    (alone (.colored true) StateGraph.ray).run () = .ok (.violated (.edge 2 3) [0, 1, 2, 3], ()) ∧
    (∀ n, ((polled (.colored true) StateGraph.ray).run ⟨n⟩).run () =
      .ok ((if n < 4 then .satisfied else .violated (.edge 2 3) [0, 1, 2, 3], ⟨n - 4⟩), ())) ∧
    (Reached.breadthFirst 20 (pure false) tree).run () =
      .ok (⟨[0, 1, 2, 3, 4, 5, 6], true⟩, ()) ∧
    ∀ n, ∃ reached, (searched.run ⟨n⟩).run () = .ok ((reached, ⟨n - 16⟩), ()) ∧
      reached.vertices <+: [0, 1, 2, 3, 4, 5, 6] ∧
      (16 ≤ n → reached.vertices = [0, 1, 2, 3, 4, 5, 6]) ∧
      (reached.complete = true ↔ 16 ≤ n) := by
  intro chain tree accepting alone polled searched
  obtain ⟨-, -, -, -, hchain⟩ := every_check_is_budgeted (chain.under (· % 3)) accepting
  obtain ⟨-, -, -, -, hray⟩ := every_check_is_budgeted (StateGraph.ray.under (· % 3)) accepting
  obtain ⟨-, htree, -⟩ := every_check_is_budgeted tree accepting
  have halone : (alone (.colored true) StateGraph.ray).run () =
      .ok (.violated (.edge 2 3) [0, 1, 2, 3], ()) :=
    congrArg (StateT.run · ()) (NestedSearch.colored_ray 16 (pure false))
  have hcount : (((NestedSearch.Method.colored true).check 20
      (modifyGet fun k : Nat => (false, k + 1)) ((StateGraph.ray.under (· % 3)).beside Nat)
      fun v => StateT.lift (accepting v)).run 0).run () =
      .ok ((.violated (.edge 2 3) [0, 1, 2, 3], 4), ()) :=
    congrArg (fun x : StateT Nat (StateT Unit (Except Fault)) _ => (x.run 0).run ())
      (NestedSearch.colored_ray 16 (modifyGet fun k => (false, k + 1)))
  have hseven : (Reached.breadthFirst 20 (pure false) tree).run () =
      .ok (⟨[0, 1, 2, 3, 4, 5, 6], true⟩, ()) := rfl
  have hsixteen : ((Reached.breadthFirst 20 (modifyGet fun k : Nat => (false, k + 1))
      (tree.beside Nat)).run 0).run () = .ok ((⟨[0, 1, 2, 3, 4, 5, 6], true⟩, 16), ()) := rfl
  refine ⟨rfl, (hchain .preorder).answer_of_count rfl rfl, halone,
    (hray (.colored true)).answer_of_count halone hcount, hseven, fun n => ?_⟩
  obtain ⟨henough, hless⟩ := htree.of_count hseven hsixteen n
  by_cases hn : 16 ≤ n
  · exact ⟨_, henough hn, List.prefix_rfl, fun _ => rfl, iff_of_true rfl hn⟩
  · obtain ⟨part, ⟨⟩, hpart, hcut, hprefix⟩ := hless (Nat.lt_of_not_le hn)
    rw [Nat.sub_eq_zero_of_le (Nat.le_of_lt (Nat.lt_of_not_le hn))]
    exact ⟨part, hpart, hprefix, fun h => absurd h hn, by simp [hcut, hn]⟩

end Checks

end StateExplorer
