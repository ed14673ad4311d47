import StateExplorer.Proofs.Course
import StateExplorer.Proofs.Strides

/-!
# Interrupted searches

A search can be driven by any number of calls, one after the other: single steps, at once or by way
of actions, and runs of each kind that a poll may stop. If the visitor lets everything pass, then it
makes no difference where the calls end and of which kind they are (`Command.Transparent`): the
search is where as many steps in a row take it. The steps are counted and the calls of the visitor
are logged by the machine itself, which changes nothing else.
-/

namespace StateExplorer

/-! ## Calls on a search -/

/-- A call on a search that is under way. The polls of a run have a counter of their own. -/
inductive Command (ω : Type) : Type 1 where
  /-- Takes a step. -/
  | step
  /-- Takes a step by way of the action that comes next. -/
  | act
  /-- Runs with a poll before each step. -/
  | run {π : Type} (ask : ω → π → Bool × π) (counter : π) (fuel : Nat)
  /-- Runs by way of actions, with a poll before each step. -/
  | runByActions {π : Type} (ask : ω → π → Bool × π) (counter : π) (fuel : Nat)
  /-- Runs with a poll after each step. -/
  | runEagerly {π : Type} (ask : ω → π → Bool × π) (counter : π) (fuel : Nat)

namespace Command

open Machine

variable {ω τ τ' α : Type}

/-- How the search ended, if a step tells. -/
def ending : Option Signal → Option Outcome
  | none => some .exhausted
  | some .abort => some .aborted
  | some .proceed => none

/-- The reply of a run, without the counter of its polls. -/
def settle {π : Type} (x : StateT π (ExceptT Fault (StateM ω)) (Outcome × τ)) (counter : π) :
    ExceptT Fault (StateM ω) (Option Outcome × τ) :=
  (fun result => (some result.1.1, result.1.2)) <$> x.run counter

theorem settle_ok {π : Type} {x : StateT π (ExceptT Fault (StateM ω)) (Outcome × τ)}
    {counter rest : π} {outcome : Outcome} {t : τ} {world world' : ω}
    (h : perform (x.run counter) world = (.ok ((outcome, t), rest), world')) :
    perform (settle x counter) world = (.ok (some outcome, t), world') := by
  rw [settle, perform_map, h]
  rfl

theorem of_settle_ok {π : Type} {x : StateT π (ExceptT Fault (StateM ω)) (Outcome × τ)}
    {counter : π} {reply : Option Outcome} {t : τ} {world world' : ω}
    (h : perform (settle x counter) world = (.ok (reply, t), world')) :
    ∃ outcome rest, reply = some outcome ∧
      perform (x.run counter) world = (.ok ((outcome, t), rest), world') := by
  obtain ⟨⟨⟨outcome, next⟩, rest⟩, hrun, hresult⟩ := perform_map_ok h
  cases hresult
  exact ⟨outcome, rest, rfl, hrun⟩

/-- Carries out a call on a search, given as the machine that takes steps at once and as the one
that goes by way of actions. A single step replies how the search ended if it did. -/
def carryOut (machine actions : Machine (ExceptT Fault (StateM ω)) τ) (t : τ) :
    Command ω → ExceptT Fault (StateM ω) (Option Outcome × τ)
  | step => Prod.map ending id <$> machine.step t
  | act => Prod.map ending id <$> actions.step t
  | @run _ π ask counter fuel => settle ((machine.beside π).run (inquiry ask) fuel t) counter
  | @runByActions _ π ask counter fuel =>
    settle ((actions.beside π).run (inquiry ask) fuel t) counter
  | @runEagerly _ π ask counter fuel =>
    settle ((machine.beside π).runEagerly (inquiry ask) fuel t) counter

/-- Carries out one call after the other. -/
def carryOutAll (machine actions : Machine (ExceptT Fault (StateM ω)) τ) :
    List (Command ω) → τ → ExceptT Fault (StateM ω) (List (Option Outcome) × τ)
  | [], t => pure ([], t)
  | command :: commands, t => do
    let (reply, t) ← command.carryOut machine actions t
    let (replies, t) ← carryOutAll machine actions commands t
    return (reply :: replies, t)

section Views

instance {π : Type} : LawfulFault (StateT π (ExceptT Fault (StateM ω))) := ⟨fun _ _ => rfl⟩

theorem settle_view {π : Type} {x : StateT π (ExceptT Fault (StateM ω)) (Outcome × τ)}
    {x' : StateT π (ExceptT Fault (StateM ω)) (Outcome × τ')} {view : τ → τ'}
    (h : Prod.map id view <$> x = x') (counter : π) :
    Prod.map id view <$> settle x counter = settle x' counter := by
  simp only [settle, ← h, StateT.run_map, Functor.map_map]
  rfl

variable {machine actions : Machine (ExceptT Fault (StateM ω)) τ}
  {machine' actions' : Machine (ExceptT Fault (StateM ω)) τ'} {view : τ → τ'}
  (hmachine : Views view machine machine') (hactions : Views view actions actions')

include hmachine hactions

theorem carryOut_view (command : Command ω) (t : τ) :
    Prod.map id view <$> command.carryOut machine actions t =
      command.carryOut machine' actions' (view t) := by
  cases command with
  | step =>
    simp only [carryOut, ← hmachine.step, Functor.map_map]
    rfl
  | act =>
    simp only [carryOut, ← hactions.step, Functor.map_map]
    rfl
  | @run π ask counter fuel =>
    have h := hmachine.beside π
    exact settle_view (run_map view h.step h.note (inquiry ask) fuel t) counter
  | @runByActions π ask counter fuel =>
    have h := hactions.beside π
    exact settle_view (run_map view h.step h.note (inquiry ask) fuel t) counter
  | @runEagerly π ask counter fuel =>
    exact settle_view ((hmachine.beside π).runEagerly (inquiry ask) fuel t) counter

theorem carryOutAll_view (commands : List (Command ω)) (t : τ) :
    Prod.map id view <$> carryOutAll machine actions commands t =
      carryOutAll machine' actions' commands (view t) := by
  induction commands generalizing t with
  | nil => rfl
  | cons command commands ih =>
    simp only [carryOutAll, ← carryOut_view hmachine hactions, map_bind, bind_map_left]
    congr 1
    funext result
    simp only [Prod.map_snd, ← ih, bind_map_left, map_pure]
    rfl

end Views

section Steady

variable {machine : Machine (ExceptT Fault (StateM ω)) τ} {log : τ → List α} {t t' : τ}
  {world world' : ω}

theorem step_strides (steady : machine.Steady log) {reply : Option Outcome}
    (h : perform (Prod.map ending id <$> machine.step t) world = (.ok (reply, t'), world')) :
    ∃ n, machine.strides? n (t, world) = some (t', world') ∧
      (reply = some .exhausted → machine.isOver t' = true) := by
  obtain ⟨⟨signal, next⟩, hsignal, hresult⟩ := perform_map_ok h
  cases hresult
  rcases steady.step_cases t world with ⟨hover, hstep⟩ | ⟨next, after, hstep, -⟩
    | ⟨fault, after, hstep⟩
  · cases hstep.symm.trans hsignal
    exact ⟨0, rfl, fun _ => hover⟩
  · cases hstep.symm.trans hsignal
    exact ⟨1, strides?_succ_of_step hstep 0, fun h => nomatch h⟩
  · cases hstep.symm.trans hsignal

/-- A call that returns has taken a number of steps in a row. If it replies that nothing is left,
the machine is over. -/
theorem carryOut_strides (steady : machine.Steady log) {command : Command ω}
    {reply : Option Outcome}
    (h : perform (command.carryOut machine machine t) world = (.ok (reply, t'), world')) :
    ∃ n, machine.strides? n (t, world) = some (t', world') ∧
      (reply = some .exhausted → machine.isOver t' = true) := by
  cases command with
  | step => exact step_strides steady h
  | act => exact step_strides steady h
  | run ask counter fuel =>
    obtain ⟨outcome, rest, rfl, hrun⟩ := of_settle_ok h
    rw [Option.some.injEq]
    exact steady.run_strides hrun
  | runByActions ask counter fuel =>
    obtain ⟨outcome, rest, rfl, hrun⟩ := of_settle_ok h
    rw [Option.some.injEq]
    exact steady.run_strides hrun
  | runEagerly ask counter fuel =>
    obtain ⟨outcome, rest, rfl, hrun⟩ := of_settle_ok h
    rw [Option.some.injEq]
    exact steady.runEagerly_strides hrun

theorem carryOutAll_strides (steady : machine.Steady log) {commands : List (Command ω)}
    {replies : List (Option Outcome)}
    (h : perform (carryOutAll machine machine commands t) world = (.ok (replies, t'), world')) :
    ∃ n, machine.strides? n (t, world) = some (t', world') ∧
      (some .exhausted ∈ replies → machine.isOver t' = true) := by
  induction commands generalizing t world replies with
  | nil =>
    cases h
    exact ⟨0, rfl, fun h => nomatch h⟩
  | cons command commands ih =>
    obtain ⟨⟨reply, next⟩, after, hfirst, hrest⟩ := perform_bind_ok h
    obtain ⟨⟨others, last⟩, after', hothers, hlast⟩ := perform_bind_ok hrest
    cases hlast
    obtain ⟨n, hn, hend⟩ := carryOut_strides steady hfirst
    obtain ⟨k, hk, hend'⟩ := ih hothers
    refine ⟨n + k, strides?_trans hn hk, fun hmem => ?_⟩
    rcases List.mem_cons.1 hmem with hreply | hmem
    · -- nothing is done any more once the machine is over
      have hover := hend hreply.symm
      obtain ⟨-, hsame⟩ := steady.strides?_of_over hover hk
      cases hsame
      exact hover
    · exact hend' hmem

end Steady

/-- The calls return, and have taken the given number of steps together. -/
def Lead (machine actions : Machine (ExceptT Fault (StateM ω)) τ) (commands : List (Command ω))
    (s : τ × ω) (replies : List (Option Outcome)) (steps : Nat) (s' : τ × ω) : Prop :=
  perform (carryOutAll machine.counted actions.counted commands (s.1, 0)) s.2 =
    (.ok (replies, s'.1, steps), s'.2)

/-- The call returns and has taken the given number of steps. -/
def Takes (machine actions : Machine (ExceptT Fault (StateM ω)) τ) (command : Command ω) (s : τ × ω)
    (steps : ℕ∞) : Prop :=
  ∃ (reply : Option Outcome) (t : τ) (taken : Nat) (world : ω),
    perform (command.carryOut machine.counted actions.counted (s.1, 0)) s.2 =
      (.ok (reply, t, taken), world) ∧
      taken = steps

/-- Calls on a search leave no trace of where one ended and the next began. The machine keeps a log,
and `plain` is the machine without the log. -/
structure Transparent (plain plainActions : Machine (ExceptT Fault (StateM ω)) τ')
    (machine actions : Machine (ExceptT Fault (StateM ω)) τ) (view : τ → τ') (log : τ → List α) :
    Prop where
  /-- Neither the log nor the count of the steps makes a difference. -/
  unobtrusive : ∀ commands t steps,
    Prod.map id (view ∘ Prod.fst) <$> carryOutAll machine.counted actions.counted commands
      (t, steps) = carryOutAll plain plainActions commands (view t)
  /-- The search is where the uninterrupted run is after as many steps. -/
  in_step : ∀ ⦃commands t world replies steps t' world'⦄,
    Lead machine actions commands (t, world) replies steps (t', world') →
      machine.strides? steps (t, world) = some (t', world') ∧
      ∀ fuel, perform (machine.run (pure false) (steps + fuel) t) world =
        perform (machine.run (pure false) fuel t') world'
  /-- The log is a prefix of that of the uninterrupted run, after more steps and at its end. -/
  log_prefix : ∀ ⦃commands t world replies steps t' world'⦄,
    Lead machine actions commands (t, world) replies steps (t', world') →
      (∀ more s, machine.strides? (steps + more) (t, world) = some s → log t' <+: log s.1) ∧
      ∀ fuel outcome last world'',
        perform (machine.run (pure false) fuel t) world = (.ok (outcome, last), world'') →
          log t' <+: log last
  /-- Once a call has replied that nothing is left, the search is where the uninterrupted run
  ends. -/
  complete : ∀ ⦃commands t world replies steps t' world'⦄,
    Lead machine actions commands (t, world) replies steps (t', world') →
      some .exhausted ∈ replies →
      ∀ fuel, steps < fuel →
        perform (machine.run (pure false) fuel t) world = (.ok (.exhausted, t'), world')
  /-- With a budget, a run takes as many steps as it says, or all that are left. -/
  budget : ∀ n fuel s, n < fuel → machine.Smooth n s →
    Takes machine actions (.run (fun _ => StepBudget.poll) ⟨n⟩ fuel) s
      (min n (machine.stepsLeft s)) ∧
    Takes machine actions (.runByActions (fun _ => StepBudget.poll) ⟨n⟩ fuel) s
      (min n (machine.stepsLeft s))
  /-- A run that is polled after its steps takes one step more. -/
  eager_budget : ∀ n fuel s, n < fuel → machine.Smooth (n + 1) s →
    Takes machine actions (.runEagerly (fun _ => StepBudget.poll) ⟨n⟩ fuel) s
      (min (n + 1) (machine.stepsLeft s))

section Transparent

variable {plain plainActions : Machine (ExceptT Fault (StateM ω)) τ'}
  {machine actions : Machine (ExceptT Fault (StateM ω)) τ} {view : τ → τ'} {log : τ → List α}

theorem Lead.strides (steady : machine.Steady log) {commands : List (Command ω)} {s s' : τ × ω}
    {replies : List (Option Outcome)} {steps : Nat}
    (h : Lead machine machine commands s replies steps s') :
    machine.strides? steps s = some s' ∧
      (some .exhausted ∈ replies → machine.isOver s'.1 = true) := by
  obtain ⟨t', world'⟩ := s'
  obtain ⟨n, hn, hend⟩ := carryOutAll_strides steady.counted h
  rw [strides?_counted, Option.map_eq_some_iff] at hn
  obtain ⟨last, hlast, heq⟩ := hn
  cases heq
  rw [Nat.zero_add]
  exact ⟨hlast, hend⟩

theorem Takes.of_strides {command : Command ω} {s : τ × ω} {k : Nat} {reply : Option Outcome}
    {c : τ × Nat} {world : ω} {steps : ℕ∞}
    (h : perform (command.carryOut machine.counted actions.counted (s.1, 0)) s.2 =
      (.ok (reply, c), world))
    (hk : machine.counted.strides? k ((s.1, 0), s.2) = some (c, world))
    (hsteps : (k : ℕ∞) = steps) :
    Takes machine actions command s steps := by
  rw [strides?_counted, Option.map_eq_some_iff] at hk
  obtain ⟨last, hlast, heq⟩ := hk
  cases heq
  rw [Nat.zero_add] at h
  exact ⟨reply, last.1, k, last.2, h, hsteps⟩

theorem smooth_counted {n : Nat} {s : τ × ω} (smooth : machine.Smooth n s) :
    machine.counted.Smooth n ((s.1, 0), s.2) := by
  intro k s' hk hs'
  rw [strides?_counted, Option.map_eq_some_iff] at hs'
  obtain ⟨last, hlast, rfl⟩ := hs'
  obtain ⟨result, world, hstep⟩ := smooth k last hk hlast
  exact ⟨_, world, by rw [perform_step_counted, hstep]; rfl⟩

theorem transparent (steady : machine.Steady log) (hactions : actions = machine)
    (hview : Views view machine plain) (hplain : plainActions = plain) :
    Transparent plain plainActions machine actions view log := by
  subst hactions hplain
  have hcounted := (counted_views actions).trans hview
  exact
    { unobtrusive := fun commands t steps => carryOutAll_view hcounted hcounted commands (t, steps)
      in_step := by
        intro commands t world replies steps t' world' h
        obtain ⟨hstrides, -⟩ := h.strides steady
        exact ⟨hstrides, perform_run_of_strides hstrides⟩
      log_prefix := by
        intro commands t world replies steps t' world' h
        obtain ⟨hstrides, -⟩ := h.strides steady
        refine ⟨fun more s hmore => ?_, fun fuel outcome last world'' hrun => ?_⟩
        · rw [strides?_add, hstrides] at hmore
          exact steady.log_prefix hmore
        · exact steady.log_prefix_of_run hstrides hrun
      complete := by
        intro commands t world replies steps t' world' h hmem fuel hfuel
        obtain ⟨hstrides, hend⟩ := h.strides steady
        obtain ⟨more, rfl⟩ := Nat.exists_eq_add_of_lt hfuel
        exact steady.perform_run_of_over hstrides (hend hmem) more
      budget := by
        intro n fuel s hfuel smooth
        obtain ⟨k, outcome, c, rest, world, hrun, hk, hsteps⟩ :=
          steady.counted.run_budget hfuel (smooth_counted smooth)
        rw [stepsLeft_counted] at hsteps
        exact ⟨.of_strides (settle_ok hrun) hk hsteps, .of_strides (settle_ok hrun) hk hsteps⟩
      eager_budget := by
        intro n fuel s hfuel smooth
        obtain ⟨k, outcome, c, rest, world, hrun, hk, hsteps⟩ :=
          steady.counted.runEagerly_budget hfuel (smooth_counted smooth)
        rw [stepsLeft_counted] at hsteps
        exact .of_strides (settle_ok hrun) hk hsteps }

end Transparent

end Command

/-! ## Searches with a lenient visitor -/

section Answers

variable {m : Type → Type} [Monad m] [MonadExceptOf Fault m] [Returning m] {V K κ σ C α : Type}

/-- What a visitor may answer to a call. -/
inductive Visitor.Answers (visitor : Visitor m V C σ) (state : σ) (answer : Signal × σ) : Prop
  | enter {source : Option V} {target : V} {search : C}
      (told : Returns (visitor.enter source target search state) answer)
  | revisit {source : Option V} {target : V} {search : C}
      (told : Returns (visitor.revisit source target search state) answer)
  | leave {vertex : V} {frame : Frame V} {search : C}
      (told : Returns (visitor.leave vertex frame search state) answer)

/-- The visitor never stops a search. -/
def Visitor.Lenient (visitor : Visitor m V C σ) : Prop :=
  ∀ ⦃state signal state'⦄, visitor.Answers state (signal, state') → signal = .proceed

/-- A step finds nothing left to do, or passes on what the visitor answers, or has nothing to
tell. -/
def Session.Heard (visitor : Visitor m V C σ) (ended : Prop) (t t' : Session C σ) :
    Option Signal → Prop
  | none => ended
  | some signal =>
    visitor.Answers t.state (signal, t'.state) ∨ signal = .proceed ∧ t'.state = t.state

theorem Visitor.Answers.of_keep {note : Event V → C → α} {visitor : Visitor m V C σ}
    {state state' : List α × σ} {signal : Signal}
    (h : (visitor.keeping note).Answers state (signal, state')) :
    visitor.Answers state.2 (signal, state'.2) ∧ state.1 <+: state'.1 := by
  have hkeep : ∀ {a : α} {call : σ → m (Signal × σ)},
      Returns (Visitor.keeping.keep a call state) (signal, state') →
        Returns (call state.2) (signal, state'.2) ∧ state.1 <+: state'.1 := by
    intro a call told
    obtain ⟨⟨answer, inner⟩, hcall, told⟩ := Returning.of_bind told
    cases Returning.of_pure told
    exact ⟨hcall, List.prefix_append state.1 [a]⟩
  cases h with
  | enter told => exact (hkeep told).imp_left .enter
  | revisit told => exact (hkeep told).imp_left .revisit
  | leave told => exact (hkeep told).imp_left .leave

variable [Journal m] [Store κ K] [Render V] {space : StateSpace m V K}

theorem DepthSearch.step_heard {visitor : Visitor m V (DepthSearch V κ) σ}
    {t t' : Session (DepthSearch V κ) σ} {signal : Option Signal}
    (h : Returns (step space visitor t) (signal, t')) :
    Session.Heard visitor (t.search.isOver = true) t t' signal := by
  unfold step at h
  split at h
  · next items =>
    cases Returning.of_pure h
    simp [Session.Heard, isOver, Stack.isEmpty, items]
  · next top rest items =>
    split at h
    · next offer =>
      split at h
      · next vertex hv =>
        obtain ⟨answer, told, h⟩ := Returning.of_bind (Returning.of_seq h)
        cases Returning.of_pure h
        exact Or.inl (.leave told)
      · next hv =>
        cases Returning.of_pure (Returning.of_seq h)
        exact Or.inr ⟨rfl, rfl⟩
    · next target offer =>
      obtain ⟨key, -, h⟩ := Returning.of_bind h
      split at h
      · next old =>
        obtain ⟨answer, told, h⟩ := Returning.of_bind (Returning.of_seq h)
        cases Returning.of_pure h
        exact Or.inl (.revisit told)
      · next new =>
        obtain ⟨⟨signal, state⟩, told, h⟩ := Returning.of_bind (Returning.of_seq h)
        cases signal with
        | abort =>
          cases Returning.of_pure h
          exact Or.inl (.enter told)
        | proceed =>
          obtain ⟨search, -, h⟩ := Returning.of_bind h
          cases Returning.of_pure h
          exact Or.inl (.enter told)

omit [Journal m] [Render V] in
theorem BreadthSearch.leave_heard {visitor : Visitor m V (BreadthSearch V κ) σ}
    {dropped : Option (Frame V)} {t t' : Session (BreadthSearch V κ) σ} {signal : Signal}
    (h : Returns (leave visitor dropped t) (signal, t')) :
    visitor.Answers t.state (signal, t'.state) ∨ signal = .proceed ∧ t'.state = t.state := by
  unfold leave at h
  split at h
  · obtain ⟨answer, told, h⟩ := Returning.of_bind h
    cases Returning.of_pure h
    exact Or.inl (.leave told)
  · cases Returning.of_pure h
    exact Or.inr ⟨rfl, rfl⟩

theorem BreadthSearch.step_heard {visitor : Visitor m V (BreadthSearch V κ) σ}
    {t t' : Session (BreadthSearch V κ) σ} {signal : Option Signal}
    (h : Returns (step space visitor t) (signal, t')) :
    Session.Heard visitor (t.search.isOver = true) t t' signal := by
  unfold step at h
  split at h
  · next expanding =>
    cases Returning.of_pure h
    simp [Session.Heard, isOver, expanding]
  · next frame expanding =>
    split at h
    · obtain ⟨⟨signal, next⟩, hturn, h⟩ := Returning.of_bind h
      cases Returning.of_pure h
      obtain ⟨search, -, hleave⟩ := Returning.of_bind hturn
      have hheard := leave_heard hleave
      exact hheard
    · next target peek =>
      obtain ⟨key, -, h⟩ := Returning.of_bind h
      split at h
      · next old =>
        obtain ⟨answer, told, h⟩ := Returning.of_bind (Returning.of_seq h)
        cases Returning.of_pure h
        exact Or.inl (.revisit told)
      · next new =>
        obtain ⟨⟨signal, state⟩, told, h⟩ := Returning.of_bind (Returning.of_seq h)
        cases signal with
        | abort =>
          cases Returning.of_pure h
          exact Or.inl (.enter told)
        | proceed =>
          cases Returning.of_pure h
          exact Or.inl (.enter told)

end Answers

section Transparency

variable {V K κ σ ω C : Type}

/-- A search that passes on what its visitor answers is steady if the visitor lets everything
pass. -/
theorem Machine.steady_of_heard {visitor : Visitor (ExceptT Fault (StateM ω)) V C σ}
    {machine : Machine (ExceptT Fault (StateM ω)) (Session C (List (Call V C) × σ))}
    (lenient : visitor.Lenient) (rests : machine.Rests)
    (quiet : ∀ t, machine.noteCancelled t = pure ())
    (heard : ∀ ⦃t t' signal⦄, Returns (machine.step t) (signal, t') →
      Session.Heard (visitor.keeping Call.mk) (machine.isOver t = true) t t' signal) :
    machine.Steady fun t => t.state.1 where
  rests
  quiet
  over_of_none t world t' world' h := heard ⟨world, world', h⟩
  proceeds := by
    intro t world signal t' world' h
    rcases heard ⟨world, world', h⟩ with hanswer | ⟨rfl, hstate⟩
    · obtain ⟨hanswer, hlog⟩ := hanswer.of_keep
      exact ⟨lenient hanswer, hlog⟩
    · exact ⟨rfl, by rw [hstate]⟩

variable [Store κ K] [Render V]

section Keeping

variable {m : Type → Type} [Monad m] [LawfulMonad m] {α : Type}
  (note : Event V → BreadthSearch V κ → α) (visitor : Visitor m V (BreadthSearch V κ) σ)

omit [Store κ K] [Render V] in
theorem BreadthSearch.leave_keeping (dropped : Option (Frame V))
    (t : Session (BreadthSearch V κ) (List α × σ)) :
    Prod.map id Session.unkept <$> leave (visitor.keeping note) dropped t =
      leave visitor dropped t.unkept := by
  unfold leave
  rcases dropped with _ | ⟨_ | vertex, successors⟩
  · simp [Session.unkept]
  · simp [Session.unkept]
  · simp [Session.unkept, Visitor.keeping, Visitor.keeping.keep]

theorem BreadthSearch.step_keeping [Journal m] (space : StateSpace m V K)
    (t : Session (BreadthSearch V κ) (List α × σ)) :
    Prod.map id Session.unkept <$> step space (visitor.keeping note) t =
      step space visitor t.unkept := by
  obtain ⟨search, notes, state⟩ := t
  change _ = step space visitor { search, state }
  unfold step
  cases expanding : search.expanding with
  | none => simp [Session.unkept]
  | some frame =>
    cases peek : frame.peek with
    | none =>
      simp only [peek, turn, map_bind, bind_assoc]
      congr 1
      funext next
      have hleave := leave_keeping note visitor search.expanding
        { search := next, state := (notes, state) }
      simp only [Session.unkept] at hleave
      rw [← hleave]
      simp
    | some target =>
      simp only [peek, map_bind]
      congr 1
      funext key
      by_cases hknown : Store.knows search.advance.known key = true
      · rw [if_pos hknown, if_pos hknown]
        simp [Session.unkept, Visitor.keeping, Visitor.keeping.keep]
      · rw [if_neg hknown, if_neg hknown]
        simp only [map_bind, Visitor.keeping, Visitor.keeping.keep, bind_assoc, pure_bind]
        congr 1
        funext _
        congr 1
        funext result
        obtain ⟨signal, state'⟩ := result
        cases signal <;> simp [Session.unkept]

theorem DepthSearch.keeping_views [Journal m] (note : Event V → DepthSearch V κ → α)
    (visitor : Visitor m V (DepthSearch V κ) σ) (space : StateSpace m V K) :
    Machine.Views Session.unkept (machine space (visitor.keeping note))
      (machine space visitor) where
  step := step_keeping note space visitor
  isOver _ := rfl
  note _ := rfl

theorem BreadthSearch.keeping_views [Journal m] (space : StateSpace m V K) :
    Machine.Views Session.unkept (machine space (visitor.keeping note))
      (machine space visitor) where
  step := step_keeping note visitor space
  isOver _ := rfl
  note _ := rfl

end Keeping

/-- Interruption leaves no trace. For all graphs and canonical forms, from each state of a search
and for each visitor that never stops it, the calls on the search do together what an uninterrupted
run does with as many steps. The visitor and the graph may look at the world and change it, and the
polls may look at it. -/
theorem interruption_is_transparent (graph : StateGraph (ExceptT Fault (StateM ω)) V)
    (key : V → K) :
    (∀ visitor : Visitor (ExceptT Fault (StateM ω)) V (DepthSearch V κ) σ, visitor.Lenient →
      Command.Transparent
        (DepthSearch.machine (graph.keyed key) visitor)
        (DepthSearch.actionMachine (graph.keyed key) visitor)
        (DepthSearch.machine (graph.keyed key) (visitor.keeping Call.mk))
        (DepthSearch.actionMachine (graph.keyed key) (visitor.keeping Call.mk))
        Session.unkept fun t => t.state.1) ∧
    (∀ visitor : Visitor (ExceptT Fault (StateM ω)) V (BreadthSearch V κ) σ, visitor.Lenient →
      Command.Transparent
        (BreadthSearch.machine (graph.keyed key) visitor)
        (BreadthSearch.actionMachine (graph.keyed key) visitor)
        (BreadthSearch.machine (graph.keyed key) (visitor.keeping Call.mk))
        (BreadthSearch.actionMachine (graph.keyed key) (visitor.keeping Call.mk))
        Session.unkept fun t => t.state.1) := by
  refine ⟨fun visitor lenient => ?_, fun visitor lenient => ?_⟩
  · have rests : (DepthSearch.machine (graph.keyed key) (visitor.keeping Call.mk)).Rests :=
      DepthSearch.machine_rests (visitor.keeping Call.mk)
    have steady := Machine.steady_of_heard lenient rests (fun _ => Journal.debug_eq _)
      fun _ _ _ => DepthSearch.step_heard
    exact Command.transparent steady (DepthSearch.actionMachine_eq_machine _)
      (DepthSearch.keeping_views Call.mk visitor _) (DepthSearch.actionMachine_eq_machine _)
  · have rests : (BreadthSearch.machine (graph.keyed key) (visitor.keeping Call.mk)).Rests :=
      BreadthSearch.machine_rests (visitor.keeping Call.mk)
    have steady := Machine.steady_of_heard lenient rests (fun _ => Journal.debug_eq _)
      fun _ _ _ => BreadthSearch.step_heard
    exact Command.transparent steady (BreadthSearch.actionMachine_eq_machine _)
      (BreadthSearch.keeping_views Call.mk visitor _) (BreadthSearch.actionMachine_eq_machine _)

end Transparency

section Example

/-- Two odd roots, from which each number leads to the next one. -/
def StateGraph.odds : StateGraph (ExceptT Fault (StateM Nat)) Nat where
  roots := pure (.finite [1, 3])
  neighbours n := pure (.finite [n + 1])

theorem Visitor.lenient_counting {V C : Type} :
    (counting : Visitor (ExceptT Fault (StateM Nat)) V C Unit).Lenient := by
  intro state signal state' h
  rcases h with ⟨⟨world, world', h⟩⟩ | ⟨⟨world, world', h⟩⟩ | ⟨⟨world, world', h⟩⟩
  · cases h
    rfl
  · cases h
    rfl
  · cases h
    rfl

/-- A step, a run whose budget is used up, another one by way of actions, and a run that is not
polled. -/
def Command.mixture : List (Command Nat) :=
  [.step, .runEagerly (fun _ => StepBudget.poll) ⟨0⟩ 1,
    .runByActions (fun _ => StepBudget.poll) ⟨1⟩ 2, .run (fun _ p => (false, p)) () 2]

/-- The search for odd and even numbers with room for one vertex, before its first step. -/
def DepthSearch.oddsFirst : Session (DepthSearch Nat (ProbingSet Nat))
    (List (Call Nat (DepthSearch Nat (ProbingSet Nat))) × Unit) where
  search :=
    { stack := Stack.empty.push { vertex := none, successors := .finite [1, 3] }
      known := .colliding
      bound := some 1 }
  state := ([], ())

theorem Command.exists_lead_odds : ∃ t,
    Lead (DepthSearch.machine (StateGraph.odds.keyed (· % 2)) (Visitor.counting.keeping Call.mk))
      (DepthSearch.actionMachine (StateGraph.odds.keyed (· % 2)) (Visitor.counting.keeping Call.mk))
      mixture (DepthSearch.oddsFirst, 0) [none, some .cancelled, some .cancelled, some .exhausted] 4
      (t, 3) :=
  ⟨_, rfl⟩

/-- Modulo two and with room for one vertex, the search enters 1, leaves it, passes 3 over and is
done with the roots. The visitor counts its calls in the world. The four commands get to the end
together. -/
theorem interruption_is_transparent_odds :
    let first := DepthSearch.oddsFirst
    let machine := DepthSearch.machine (StateGraph.odds.keyed (· % 2))
      (Visitor.counting.keeping Call.mk)
    let actions :=
      DepthSearch.actionMachine (StateGraph.odds.keyed (· % 2)) (Visitor.counting.keeping Call.mk)
    (Visitor.counting : Visitor (ExceptT Fault (StateM Nat)) Nat (DepthSearch Nat (ProbingSet Nat))
      Unit).Lenient ∧
    ∃ replies t, Command.Lead machine actions Command.mixture (first, 0) replies 4 (t, 3) ∧
      replies = [none, some .cancelled, some .cancelled, some .exhausted] ∧
      machine.strides? 4 (first, 0) = some (t, 3) ∧
      perform (machine.run (pure false) 5 first) 0 = (.ok (.exhausted, t), 3) := by
  intro first machine actions
  obtain ⟨t, hlead⟩ := Command.exists_lead_odds
  obtain ⟨hdepth, -⟩ :=
    interruption_is_transparent StateGraph.odds (· % 2) (σ := Unit) (κ := ProbingSet Nat)
  have transparent := hdepth Visitor.counting Visitor.lenient_counting
  exact ⟨Visitor.lenient_counting, _, t, hlead, rfl, (transparent.in_step hlead).1,
    transparent.complete hlead (by decide) 5 (by decide)⟩

end Example

end StateExplorer
