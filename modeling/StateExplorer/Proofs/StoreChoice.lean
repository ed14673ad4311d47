import StateExplorer.Proofs.Probing.Operations
import StateExplorer.Proofs.Twins
import StateExplorer.StepBudget

/-!
# The choice of a store

Which store a search is given does not show from outside. Runs are compared by what is told of them:
how they end, how much they discover, which calls their visitor gets, and which forms they know in
the end. The visitor may do as it likes, but of the search it sees no more than the number of
discoveries.
-/

namespace StateExplorer

open Event Store

/-! ## What is told of a run -/

section Reports

variable {m : Type → Type} {V K κ σ : Type}

/-- The ways to run a search. -/
inductive Driver where
  /-- Polls before each step. -/
  | lazy
  /-- Polls after each step. -/
  | eager
  /-- Polls before each step, and steps by way of actions. -/
  | stepping

/-- Runs a search that is given as a machine, and also as a machine that goes by way of actions. -/
def Driver.run {τ : Type} [Monad m] [MonadExceptOf Fault m] (driver : Driver)
    (machine actionMachine : Machine m τ) (poll : m Bool) (fuel : Nat) (t : τ) : m (Outcome × τ) :=
  match driver with
  | lazy => machine.run poll fuel t
  | eager => machine.runEagerly poll fuel t
  | stepping => actionMachine.run poll fuel t

/-- What can be told of a run without a look into its store. -/
structure Account (V σ : Type) where
  /-- How the run ended. -/
  outcome : Outcome
  /-- The number of discoveries. -/
  discovered : Nat
  /-- The calls that the visitor got. -/
  calls : List (Event V)
  /-- The state of the visitor. -/
  state : σ

/-- What is told of a run, and which forms are known at its end. -/
def account [Store κ K] (outcome : Outcome) (known : κ) (state : List (Event V) × σ) :
    Account V σ × (K → Bool) :=
  ({ outcome, discovered := size known, calls := state.1, state := state.2 }, knows known)

variable [Monad m] [MonadExceptOf Fault m] [Journal m] [Render V] [Store κ K]

/-- Runs a depth-first search from the start, with a visitor that sees the number of discoveries. -/
def DepthSearch.report (driver : Driver) (graph : StateGraph m V) (key : V → K)
    (visitor : Visitor m V Nat σ) (poll : m Bool) (fuel : Nat) (bound : Option Nat) (state : σ)
    (known : κ) : m (Account V σ × (K → Bool)) := do
  let space := graph.keyed key
  let search ← start space known bound
  let visitor := visitor.logged.seeing discovered
  let (outcome, t) ←
    driver.run (machine space visitor) (actionMachine space visitor) poll fuel
      { search, state := ([], state) }
  return account outcome t.search.known t.state

/-- Runs a breadth-first search from the start, with a visitor that sees the number of
discoveries. -/
def BreadthSearch.report (driver : Driver) (graph : StateGraph m V) (key : V → K)
    (visitor : Visitor m V Nat σ) (poll : m Bool) (fuel : Nat) (state : σ) (known : κ) :
    m (Account V σ × (K → Bool)) := do
  let space := graph.keyed key
  let search ← start space known
  let visitor := visitor.logged.seeing discovered
  let (outcome, t) ←
    driver.run (machine space visitor) (actionMachine space visitor) poll fuel
      { search, state := ([], state) }
  return account outcome t.search.known t.state

end Reports

section Accounts

variable {V K κ κ' σ C C' : Type}

/-- The same is told of two runs, but for what the stores at their ends know. -/
def Accounted [Store κ K] [Store κ' K] (first : κ) (first' : κ')
    (told told' : Account V σ × (K → Bool)) :
    Prop :=
  ∃ outcome known known' state, Paired K first first' known known' ∧
    told = account outcome known state ∧ told' = account outcome known' state

variable [Store κ K] [Store κ' K] {first : κ} {first' : κ'} {told told' : Account V σ × (K → Bool)}

theorem Accounted.fst_eq (h : Accounted first first' told told') (counts : Counts K first)
    (counts' : Counts K first') : told.1 = told'.1 := by
  obtain ⟨outcome, known, known', state, paired, rfl, rfl⟩ := h
  simp only [account, paired.size_eq counts counts']

theorem Accounted.eq (h : Accounted first first' told told') (remembers : Remembers first)
    (remembers' : Remembers first') : told = told' := by
  refine Prod.ext (h.fst_eq remembers.size_learnAll remembers'.size_learnAll) ?_
  obtain ⟨outcome, known, known', state, paired, rfl, rfl⟩ := h
  exact paired.knows_eq remembers remembers'

/-- Runs of twin machines are told alike. -/
theorem Driver.run_coupled {m : Type → Type} [Monad m] [LawfulMonad m] [MonadExceptOf Fault m]
    [LawfulFault m] {Go : C → C' → Prop} {known : C → κ} {known' : C' → κ'}
    {machine : Machine m (Session C (List (Event V) × σ))}
    {machine' : Machine m (Session C' (List (Event V) × σ))}
    (twins : machine.Twins (Session.Alike Go)
      (Session.Alike fun search search' => Paired K first first' (known search) (known' search'))
      machine')
    (driver : Driver) (poll : m Bool) (fuel : Nat) {search : C} {search' : C'}
    (h : Go search search') (state : List (Event V) × σ) :
    Coupled (Accounted first first')
      (driver.run machine machine poll fuel { search, state } >>= fun result =>
        pure (account result.1 (known result.2.search) result.2.state))
      (driver.run machine' machine' poll fuel { search := search', state } >>= fun result =>
        pure (account result.1 (known' result.2.search) result.2.state)) := by
  have hrun : Coupled (fun result result' => result.1 = result'.1 ∧ Session.Alike
        (fun search search' => Paired K first first' (known search) (known' search'))
        result.2 result'.2)
      (driver.run machine machine poll fuel { search, state })
      (driver.run machine' machine' poll fuel { search := search', state }) := by
    have hstart : Session.Alike Go { search, state } { search := search', state } := ⟨h, rfl⟩
    cases driver with
    | lazy => exact twins.run poll fuel hstart
    | eager => exact twins.runEagerly poll fuel hstart
    | stepping => exact twins.run poll fuel hstart
  refine hrun.bind fun result result' related => .pure ?_
  obtain ⟨houtcome, paired, hstate⟩ := related
  exact ⟨_, _, _, _, paired, rfl, by rw [houtcome, hstate]⟩

end Accounts

section Coupled

variable {m : Type → Type} [Monad m] [LawfulMonad m] [MonadExceptOf Fault m] [LawfulFault m]
  [Journal m] [Journal.Quiet m] {V K κ κ' σ : Type} [Render V] [Store κ K] [Store κ' K]
  {graph : StateGraph m V} {key : V → K} {After : Option V → Sequence V → Prop} {first : κ}
  {first' : κ'}

theorem DepthSearch.report_coupled {bound : Option Nat} {Trail : List K → DepthSearch V κ → Prop}
    (remembers : Remembers first) (counts : Counts K first')
    (serves : Serves key After first bound Trail first') (gives : graph.Gives After)
    (driver : Driver) (visitor : Visitor m V Nat σ) (poll : m Bool) (fuel : Nat) (state : σ) :
    Coupled (Accounted first first') (report driver graph key visitor poll fuel bound state first)
      (report driver graph key visitor poll fuel bound state first') := by
  simp only [report, actionMachine_eq_machine, start, restart, bind_assoc, pure_bind]
  refine Coupled.after gives.roots fun successors hafter => ?_
  have twin : Twin first first' Trail
      { stack := Stack.empty.push { vertex := none, successors }, known := first, bound }
      { stack := Stack.empty.push { vertex := none, successors }, known := first', bound } :=
    ⟨[], List.nodup_nil, serves.start hafter, rfl, rfl⟩
  exact Driver.run_coupled (twins remembers counts serves gives visitor.logged)
    driver poll fuel twin
    ([], state)

theorem BreadthSearch.report_coupled {Trail : List K → BreadthSearch V κ → Prop}
    (remembers : Remembers first) (counts : Counts K first')
    (serves : Serves key After first Trail first') (gives : graph.Gives After)
    (driver : Driver) (visitor : Visitor m V Nat σ) (poll : m Bool) (fuel : Nat) (state : σ) :
    Coupled (Accounted first first') (report driver graph key visitor poll fuel state first)
      (report driver graph key visitor poll fuel state first') := by
  simp only [report, actionMachine_eq_machine, start, bind_assoc, pure_bind]
  refine Coupled.after gives.roots fun successors hafter => ?_
  have twin : Twin first first' Trail
      { expanding := some { vertex := none, successors }, frontier := .empty, known := first }
      { expanding := some { vertex := none, successors }, frontier := .empty, known := first' } :=
    ⟨[], List.nodup_nil, serves.start hafter, rfl, rfl⟩
  exact Driver.run_coupled (twins remembers counts serves gives visitor.logged)
    driver poll fuel twin
    ([], state)

end Coupled

/-! ## The choice -/

section Choice

variable {m : Type → Type} [Monad m] [LawfulMonad m] [MonadExceptOf Fault m] [LawfulFault m]
  [Journal m] [Journal.Quiet m] {V K σ : Type} [Render V] (driver : Driver) (key : V → K)
  (visitor : Visitor m V Nat σ) (poll : m Bool) (fuel : Nat) (state : σ)

section Remembers

variable {κ κ' : Type} [Store κ K] [Store κ' K] {first : κ} {first' : κ'}
  (remembers : Remembers first) (remembers' : Remembers first') (graph : StateGraph m V)

include remembers remembers'

theorem DepthSearch.report_eq (bound : Option Nat) :
    report driver graph key visitor poll fuel bound state first =
      report driver graph key visitor poll fuel bound state first' := by
  refine Coupled.eq
    (report_coupled remembers remembers'.size_learnAll (serves_of_remembers remembers')
    graph.gives_always driver visitor poll fuel state) fun told told' h => ?_
  exact h.eq remembers remembers'

theorem BreadthSearch.report_eq :
    report driver graph key visitor poll fuel state first =
      report driver graph key visitor poll fuel state first' := by
  refine Coupled.eq
    (report_coupled remembers remembers'.size_learnAll (serves_of_remembers remembers')
    graph.gives_always driver visitor poll fuel state) fun told told' h => ?_
  exact h.eq remembers remembers'

end Remembers

section RoutesApart

variable {κ κ' : Type} [Store κ K] [Store κ' K] {first : κ} {first' : κ'}
  (remembers : Remembers first) (forgetful : Forgetful K first') (counts : Counts K first')
  {graph : StateGraph Id V} {key} (apart : graph.RoutesApart key)

include remembers forgetful counts apart

theorem DepthSearch.fst_report_eq (bound : Option Nat) :
    Prod.fst <$> report driver graph.lift key visitor poll fuel bound state first =
      Prod.fst <$> report driver graph.lift key visitor poll fuel bound state first' := by
  refine Coupled.map_eq
    (report_coupled remembers counts (serves_of_routesApart apart remembers forgetful)
    graph.gives_lift driver visitor poll fuel state) fun told told' h => ?_
  exact h.fst_eq remembers.size_learnAll counts

theorem BreadthSearch.fst_report_eq :
    Prod.fst <$> report driver graph.lift key visitor poll fuel state first =
      Prod.fst <$> report driver graph.lift key visitor poll fuel state first' := by
  refine Coupled.map_eq
    (report_coupled remembers counts (serves_of_routesApart apart remembers forgetful)
    graph.gives_lift driver visitor poll fuel state) fun told told' h => ?_
  exact h.fst_eq remembers.size_learnAll counts

end RoutesApart

/-- Which store a search is given does not show. Whatever the graph, the visitor and the polls do,
runs with stores that remember get the same calls and outcome and know the same forms in the end, be
the store a hash set, a memory that remembers or a set with linear probing, under whichever hash
function. If no two routes of a graph lead to the same form, then a run with a store that only
counts gets the same calls, outcome and number of discoveries as well. -/
theorem store_choice_does_not_show [BEq K] [LawfulBEq K] [Hashable K] [LawfulHashable K] :
    (∀ (graph : StateGraph m V) (bound : Option Nat) (hash : K → UInt64),
      (DepthSearch.report driver graph key visitor poll fuel bound state (Memory.fresh : Memory K) =
          DepthSearch.report driver graph key visitor poll fuel bound state (∅ : Std.HashSet K) ∧
        DepthSearch.report driver graph key visitor poll fuel bound state (ProbingSet.empty hash) =
          DepthSearch.report driver graph key visitor poll fuel bound state (∅ : Std.HashSet K)) ∧
      (BreadthSearch.report driver graph key visitor poll fuel state (Memory.fresh : Memory K) =
          BreadthSearch.report driver graph key visitor poll fuel state (∅ : Std.HashSet K) ∧
        BreadthSearch.report driver graph key visitor poll fuel state (ProbingSet.empty hash) =
          BreadthSearch.report driver graph key visitor poll fuel state (∅ : Std.HashSet K))) ∧
    ∀ graph : StateGraph Id V, graph.RoutesApart key → ∀ bound : Option Nat,
      Prod.fst <$> DepthSearch.report driver graph.lift key visitor poll fuel bound state
        ({} : Tally K) =
        Prod.fst <$> DepthSearch.report driver graph.lift key visitor poll fuel bound state
          (∅ : Std.HashSet K) ∧
      Prod.fst <$> BreadthSearch.report driver graph.lift key visitor poll fuel state
        ({} : Tally K) =
        Prod.fst <$> BreadthSearch.report driver graph.lift key visitor poll fuel state
          (∅ : Std.HashSet K) := by
  have remembers : Remembers (∅ : Std.HashSet K) := HashSet.remembers
  refine ⟨fun graph bound hash => ⟨⟨?_, ?_⟩, ?_, ?_⟩, fun graph apart bound => ⟨?_, ?_⟩⟩
  · exact DepthSearch.report_eq driver key visitor poll fuel state
      Memory.remembers_fresh remembers graph
      bound
  · exact DepthSearch.report_eq driver key visitor poll fuel state (ProbingSet.remembers_empty hash)
      remembers graph bound
  · exact BreadthSearch.report_eq driver key visitor poll fuel state
      Memory.remembers_fresh remembers graph
  · exact BreadthSearch.report_eq driver key visitor poll fuel state
      (ProbingSet.remembers_empty hash)
      remembers graph
  · exact (DepthSearch.fst_report_eq driver visitor poll fuel state remembers
      Tally.forgetful Tally.counts apart bound).symm
  · exact (BreadthSearch.fst_report_eq driver visitor poll fuel state remembers Tally.forgetful
      Tally.counts apart).symm

end Choice

/-- A root with two neighbours. -/
def StateGraph.twig : StateGraph Id Nat where
  roots := .finite [1]
  neighbours v := if v = 1 then .finite [2, 3] else .finite []

theorem StateGraph.routesApart_twig : StateGraph.twig.RoutesApart (· % 3) := by
  have hget : ∀ {items : List Nat} {i v : Nat}, (Sequence.finite items).get? i = some v →
      items[i]? = some v := by
    intro items i v h
    rw [← List.head?_drop]
    exact h
  have hleads : ∀ {route source}, twig.Leads route source →
      (route, source) ∈ [([], none), ([0], some 1), ([0, 0], some 2), ([0, 1], some 3)] := by
    intro route source h
    induction h with
    | start => exact List.mem_cons_self
    | @step route source i v before next ih =>
      simp only [List.mem_cons, Prod.mk.injEq, List.not_mem_nil, or_false] at ih
      rcases ih with ⟨rfl, rfl⟩ | ⟨rfl, rfl⟩ | ⟨rfl, rfl⟩ | ⟨rfl, rfl⟩
      · have hnext : [1][i]? = some v := hget next
        rcases i with _ | i <;> simp at hnext
        simp [← hnext]
      · have hnext : [2, 3][i]? = some v := hget next
        rcases i with _ | _ | i <;> simp at hnext <;> simp [← hnext]
      · have hnext : ([] : List Nat)[i]? = some v := hget next
        simp at hnext
      · have hnext : ([] : List Nat)[i]? = some v := hget next
        simp at hnext
  have hinj : ∀ p ∈ [([], none), ([0], some 1), ([0, 0], some 2), ([0, 1], some 3)],
      ∀ p' ∈ [([], none), ([0], some 1), ([0, 0], some 2), ([0, 1], some 3)],
      p.2.map (· % 3) = p'.2.map (· % 3) → p.1 = p'.1 := by decide
  intro route route' v v' h h' hkey
  exact hinj _ (hleads h) _ (hleads h') (congrArg some hkey)

/-- Stops at the third discovery. -/
def Visitor.sated : Visitor (StateT StepBudget (Except Fault)) Nat Nat Unit where
  enter _ _ discovered _ := pure (if discovered < 3 then .proceed else .abort, ())
  revisit _ _ _ _ := pure (.proceed, ())
  leave _ _ _ _ := pure (.proceed, ())

theorem DepthSearch.report_twig :
    (Prod.fst <$> report .eager StateGraph.twig.lift (· % 3) Visitor.sated
      (modifyGet StepBudget.poll) 9 none () ({} : Tally Nat)).run ⟨9⟩ =
      .ok ({ outcome := .aborted
             discovered := 3
             calls := [.entry none 1, .entry (some 1) 2,
               .exit 2 { vertex := some 2, successors := .finite [] }, .entry (some 1) 3]
             state := () }, ⟨6⟩) := rfl

/-- The run with a store that only counts tells what a run with a hash set does. -/
theorem store_choice_does_not_show_twig :
    StateGraph.twig.RoutesApart (· % 3) ∧
    (Prod.fst <$> DepthSearch.report .eager StateGraph.twig.lift (· % 3) Visitor.sated
      (modifyGet StepBudget.poll) 9 none () (∅ : Std.HashSet Nat)).run ⟨9⟩ =
      .ok ({ outcome := .aborted
             discovered := 3
             calls := [.entry none 1, .entry (some 1) 2,
               .exit 2 { vertex := some 2, successors := .finite [] }, .entry (some 1) 3]
             state := () }, ⟨6⟩) := by
  obtain ⟨-, hforget⟩ := store_choice_does_not_show .eager (· % 3) Visitor.sated
    (modifyGet StepBudget.poll) 9 ()
  obtain ⟨hdepth, -⟩ := hforget StateGraph.twig StateGraph.routesApart_twig none
  exact ⟨StateGraph.routesApart_twig, by rw [← hdepth]; exact DepthSearch.report_twig⟩

end StateExplorer
