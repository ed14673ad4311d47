import StateExplorer.Proofs.Allowance
import StateExplorer.Proofs.Safety

/-!
# The first bad discovery

A check for bad vertices and a collection of the reachable ones take the same steps as long as
nothing bad is discovered. Where the check stops, the collection goes on. What it has discovered by
then ends with the first bad vertex, and all that it discovers later comes behind it. So under one
and the same budget the check is violated if and only if the collection holds a bad vertex, and its
trace leads to the first of them (`Judges`).

`Machine.Outruns` relates two such machines step by step, and `Machine.Outruns.run` their runs.
-/

namespace StateExplorer

open DepthSearch Event

/-! ## Stopping ahead of another machine -/

section Heralds

variable {ω α β γ : Type}

/-- Where the second computation returns, so does the first. Either it leaves the same world behind
and the results are the `Same`, or it has stopped `Ahead` of the second. -/
def Heralds (Same Ahead : α → β → Prop) (x : StateT ω (Except Fault) α)
    (y : StateT ω (Except Fault) β) : Prop :=
  ∀ ⦃world b world'⦄, y.run world = .ok (b, world') →
    ∃ a world'', x.run world = .ok (a, world'') ∧ (world'' = world' ∧ Same a b ∨ Ahead a b)

namespace Heralds

variable {Same Ahead : α → β → Prop} {x : StateT ω (Except Fault) α} {y : StateT ω (Except Fault) β}

theorem pure {a : α} {b : β} (same : Same a b) :
    Heralds (ω := ω) Same Ahead (Pure.pure a) (Pure.pure b) := by
  intro world b' world' h
  cases h
  exact ⟨a, world, rfl, Or.inl ⟨rfl, same⟩⟩

/-- The first computation has stopped, whatever the second still does. -/
theorem stopped {a : α} (ahead : ∀ b, Returns y b → Ahead a b) :
    Heralds Same Ahead (Pure.pure a) y := by
  intro world b world' h
  exact ⟨a, world, rfl, Or.inr (ahead b ⟨world, world', h⟩)⟩

/-- Both begin with the same computation. -/
theorem after {z : StateT ω (Except Fault) γ} {f : γ → StateT ω (Except Fault) α}
    {g : γ → StateT ω (Except Fault) β} (h : ∀ c, Heralds Same Ahead (f c) (g c)) :
    Heralds Same Ahead (z >>= f) (z >>= g) := by
  intro world b world' hy
  rw [StateT.run_bind] at hy
  cases hz : z.run world with
  | error fault => rw [hz] at hy; cases hy
  | ok between =>
    rw [hz] at hy
    obtain ⟨a, world'', hx, hrel⟩ := h between.1 hy
    refine ⟨a, world'', ?_, hrel⟩
    rw [StateT.run_bind, hz]
    exact hx

end Heralds

variable {m : Type → Type} [Monad m] {τ τ' : Type}

/-- While the machines are in the `Same` state, they take the same step, or the first one stops and
is `Ahead`. The second one goes on alone and leaves it ahead. -/
structure Machine.Outruns (first : Machine m τ) (second : Machine m τ')
    (Same Ahead : τ → τ' → Prop) :
    Prop where
  step : ∀ {t t'}, Same t t' → ∃ signal next next', second.step t' = pure (signal, next') ∧
    (first.step t = pure (signal, next) ∧ Same next next' ∨
      first.step t = pure (some .abort, next) ∧ Ahead next next')
  keep : ∀ {t t'}, Ahead t t' → ∃ signal next', second.step t' = pure (signal, next') ∧
    Ahead t next'
  note : ∀ t t', first.noteCancelled t = pure () ∧ second.noteCancelled t' = pure ()

namespace Machine.Outruns

section Returns

variable [MonadExceptOf Fault m] [Returning m] {first : Machine m τ} {second : Machine m τ'}
  {Same Ahead : τ → τ' → Prop} {poll : m Bool} {fuel : Nat} {t : τ} {t' : τ'}
  {result : Outcome × τ'}

theorem keep_run (h : first.Outruns second Same Ahead) (ahead : Ahead t t')
    (hrun : Returns (second.run poll fuel t') result) : Ahead t result.2 := by
  induction fuel generalizing t' with
  | zero => exact absurd hrun Returning.not_throw
  | succ fuel ih =>
    obtain ⟨signal, next', hstep, ahead'⟩ := h.keep ahead
    rcases Machine.run_returns hrun with ⟨-, rfl⟩ | ⟨signal', last, hlast, hend⟩
    · exact ahead
    · rw [hstep] at hlast
      cases Returning.of_pure hlast
      rcases signal with _ | _ | _
      · rw [hend]
        exact ahead'
      · exact ih ahead' hend
      · rw [hend]
        exact ahead'

end Returns

/-- Under the same polls, the first machine ends as the second one does or has stopped ahead of
it. -/
theorem run {ω : Type} {first : Machine (StateT ω (Except Fault)) τ}
    {second : Machine (StateT ω (Except Fault)) τ'} {Same Ahead : τ → τ' → Prop}
    (h : first.Outruns second Same Ahead) (poll : StateT ω (Except Fault) Bool) (fuel : Nat) {t : τ}
    {t' : τ'} (same : Same t t') :
    Heralds (fun last last' => last.1 = last'.1 ∧ Same last.2 last'.2)
      (fun last last' => Ahead last.2 last'.2) (first.run poll fuel t)
        (second.run poll fuel t') := by
  induction fuel generalizing t t' with
  | zero =>
    intro world b world' hthrow
    cases hthrow
  | succ fuel ih =>
    rw [Machine.run, Machine.run]
    refine Heralds.after fun stop => ?_
    cases stop with
    | true =>
      rw [if_pos rfl, if_pos rfl, (h.note t t').1, (h.note t t').2, pure_bind, pure_bind]
      exact .pure ⟨rfl, same⟩
    | false =>
      rw [if_neg Bool.false_ne_true, if_neg Bool.false_ne_true]
      obtain ⟨signal, next, next', hsecond, ⟨hfirst, same'⟩ | ⟨hfirst, ahead⟩⟩ := h.step same
      · rw [hfirst, hsecond, pure_bind, pure_bind]
        rcases signal with _ | _ | _
        · exact .pure ⟨rfl, same'⟩
        · exact ih same'
        · exact .pure ⟨rfl, same'⟩
      · rw [hfirst, hsecond, pure_bind, pure_bind]
        refine Heralds.stopped fun last hlast => ?_
        rcases signal with _ | _ | _
        · rw [Returning.of_pure hlast]
          exact ahead
        · exact h.keep_run ahead hlast
        · rw [Returning.of_pure hlast]
          exact ahead

end Machine.Outruns

end Heralds

namespace Safety

/-! ## The check outruns the collection -/

section Traces

variable {V : Type} {bad : V → Bool} {bound : Option Nat} {vertices trace : List V}

/-- The trace ends at the first bad vertex of a list. It comes to it through vertices that stand
before it in the list, in their order, and is no longer than the bound allows. -/
def PointsAtFirst (bad : V → Bool) (bound : Option Nat) (vertices trace : List V) : Prop :=
  ∃ before last after, vertices = before ++ last :: after ∧ (∀ v ∈ before, bad v = false) ∧
    bad last = true ∧ trace.getLast? = some last ∧ trace.Sublist (before ++ [last]) ∧
    ∀ limit ∈ bound, trace.length ≤ limit

theorem PointsAtFirst.append (h : PointsAtFirst bad bound vertices trace) (more : List V) :
    PointsAtFirst bad bound (vertices ++ more) trace := by
  obtain ⟨before, last, after, rfl, hrest⟩ := h
  exact ⟨before, last, after ++ more, by simp, hrest⟩

theorem PointsAtFirst.exists_bad (h : PointsAtFirst bad bound vertices trace) :
    ∃ v ∈ vertices, bad v = true := by
  obtain ⟨before, last, after, rfl, -, hbad, -⟩ := h
  exact ⟨last, by simp, hbad⟩

end Traces

section Step

variable {m : Type → Type} [Monad m] [LawfulMonad m] [Journal m] [Journal.Quiet m] {V K κ : Type}
  [Store κ K] [Render V] {graph : StateGraph Id V} {key : V → K} {search next : DepthSearch V κ}
  {events : List (Event V)} {bad : V → Bool}

/-- A move that discovers nothing bad is made as if nobody looked. -/
theorem detector_step_clean (move : Move graph key search events next)
    (clean : ∀ v ∈ discoveries events, bad v = false) (answer : Answer V) :
    step (graph.under key) (detector fun v => pure (bad v)) { search, state := answer } =
      (pure (some .proceed, { search := next, state := answer }) : m _) := by
  cases move with
  | @enter top rest target items offer new =>
    have hgood : bad target = false := clean target (List.mem_singleton_self target)
    rw [step_enter items offer new]
    simp [detector, hgood]
  | revisit items offer old =>
    rw [step_revisit items offer old]
    exact pure_bind _ _
  | leave items offer some_vertex =>
    rw [step_leave items offer some_vertex]
    exact pure_bind _ _
  | finish items offer no_vertex => exact step_finish items offer no_vertex

/-- At a bad discovery the check stops. The trace is the path that the search would go on with. -/
theorem detector_step_bad (move : Move graph key search events next) {target : V}
    (hfound : target ∈ discoveries events) (hbad : bad target = true) (answer : Answer V) :
    discoveries events = [target] ∧ ∃ witness stopped, next.path.getLast? = some target ∧
      step (graph.under key) (detector fun v => pure (bad v)) { search, state := answer } =
        (pure (some .abort, { search := stopped, state := .violated witness next.path }) : m
          _) := by
  cases move with
  | @enter top rest entered items offer new =>
    obtain rfl : target = entered := List.mem_singleton.1 hfound
    refine ⟨rfl, .ofEntry top.vertex target, search.advance.learn (key target), by simp, ?_⟩
    rw [step_enter items offer new]
    simp [detector, hbad]
  | revisit items offer old => cases hfound
  | leave items offer some_vertex => cases hfound
  | finish items offer no_vertex => cases hfound

end Step

section Sessions

variable {V K κ : Type} [Store κ K] (graph : StateGraph Id V) (key : V → K) (known : κ)
  (bound : Option Nat) (bad : V → Bool)

/-- What has been collected are the discoveries of an exploration. -/
def Collected (log : List (Event V)) (t : Session (DepthSearch V κ) (Array V)) : Prop :=
  Explores graph key (fresh graph known bound) log t.search ∧ t.state.toList = discoveries log

/-- The check and the collection are at the same place and have met nothing bad. -/
def Abreast (t : Session (DepthSearch V κ) (Answer V)) (t' : Session (DepthSearch V κ) (Array V)) :
    Prop :=
  t.search = t'.search ∧ t.state = .satisfied ∧
    ∃ log, Collected graph key known bound log t' ∧ ∀ v ∈ discoveries log, bad v = false

/-- The check has stopped at the first bad vertex among what has been collected. -/
def StoppedAhead (t : Session (DepthSearch V κ) (Answer V))
    (t' : Session (DepthSearch V κ) (Array V)) : Prop :=
  ∃ log witness trace, Collected graph key known bound log t' ∧ t.state = .violated witness trace ∧
    PointsAtFirst bad bound (discoveries log) trace

variable {graph key known bound bad} {log events : List (Event V)} {next : DepthSearch V κ}

theorem Collected.step {t : Session (DepthSearch V κ) (Array V)}
    (h : Collected graph key known bound log t) (move : Move graph key t.search events next) :
    Collected graph key known bound (log ++ events)
      { search := next, state := t.state ++ (discoveries events).toArray } := by
  refine ⟨h.1.step move, ?_⟩
  simp [h.2, discoveries_append]

variable {m : Type → Type} [Monad m] [LawfulMonad m] [Journal m] [Journal.Quiet m] [Render V]

/-- The check takes the steps of the collection until it stops at a bad discovery. -/
theorem detector_outruns_collector :
    (machine (m := m) (graph.under key) (detector fun v => pure (bad v))).Outruns
      (machine (graph.under key) Reached.collector) (Abreast graph key known bound bad)
      (StoppedAhead graph key known bound bad) where
  step := by
    rintro ⟨search, answer⟩ ⟨_, vertices⟩ ⟨rfl, rfl, log, collected, clean⟩
    by_cases hopen : search.stack.items = []
    · refine ⟨none, _, _, step_over hopen, Or.inl ⟨step_over hopen, ?_⟩⟩
      exact ⟨rfl, rfl, log, collected, clean⟩
    · obtain ⟨events, next, move⟩ := exists_next graph key hopen
      have collected' := collected.step move
      by_cases hbad : ∃ v ∈ discoveries events, bad v = true
      · obtain ⟨target, hfound, hbad⟩ := hbad
        obtain ⟨hevents, witness, stopped, hlast, hstep⟩ :=
          detector_step_bad (m := m) move hfound hbad .satisfied
        refine ⟨some .proceed, _, _, collector_step move _, Or.inr ⟨hstep, ?_⟩⟩
        refine ⟨log ++ events, witness, next.path, collected', rfl, ?_⟩
        have hdiscoveries : discoveries (log ++ events) = discoveries log ++ [target] := by
          rw [discoveries_append, hevents]
        refine ⟨discoveries log, target, [], hdiscoveries, clean, hbad, hlast, ?_, ?_⟩
        · rw [← hdiscoveries]
          exact collected'.1.path_sublist
        · exact collected'.1.length_path_le
      · have hclean : ∀ v ∈ discoveries events, bad v = false := by simpa using hbad
        refine ⟨some .proceed, _, _, collector_step move _,
          Or.inl ⟨detector_step_clean move hclean .satisfied, ?_⟩⟩
        refine ⟨rfl, rfl, log ++ events, collected', fun v hv => ?_⟩
        rw [discoveries_append, List.mem_append] at hv
        exact hv.elim (clean v) (hclean v)
  keep := by
    rintro t ⟨search, vertices⟩ ⟨log, witness, trace, collected, violated, points⟩
    by_cases hopen : search.stack.items = []
    · exact ⟨none, _, step_over hopen, log, witness, trace, collected, violated, points⟩
    · obtain ⟨events, next, move⟩ := exists_next graph key hopen
      refine ⟨some .proceed, _, collector_step move _, log ++ events, witness, trace,
        collected.step move, violated, ?_⟩
      rw [discoveries_append]
      exact points.append _
  note _ _ := ⟨Journal.debug_eq _, Journal.debug_eq _⟩

end Sessions

/-! ## The verdict within a budget -/

section Judges

variable {V K κ : Type} [Store κ K] {graph : StateGraph Id V} {key : V → K} {known : κ}
  {bound : Option Nat} {bad : V → Bool} {t : Session (DepthSearch V κ) (Answer V)}
  {t' : Session (DepthSearch V κ) (Array V)}

/-- The answer is violated if and only if there is a bad vertex among those collected, and its trace
then points at the first one. -/
def Judges (bad : V → Bool) (bound : Option Nat) (vertices : List V) (answer : Answer V) : Prop :=
  (answer.holds = false ↔ ∃ v ∈ vertices, bad v = true) ∧
    ∀ witness trace, answer = .violated witness trace → PointsAtFirst bad bound vertices trace

theorem Abreast.judges (h : Abreast graph key known bound bad t t') :
    Judges bad bound t'.state.toList t.state := by
  obtain ⟨-, satisfied, log, collected, clean⟩ := h
  rw [satisfied, collected.2]
  have hgood : ¬ ∃ v ∈ discoveries log, bad v = true := by simpa using clean
  exact ⟨iff_of_false Bool.noConfusion hgood, fun _ _ heq => by cases heq⟩

theorem StoppedAhead.judges (h : StoppedAhead graph key known bound bad t t') :
    Judges bad bound t'.state.toList t.state := by
  obtain ⟨log, witness, trace, collected, violated, points⟩ := h
  rw [violated, collected.2]
  refine ⟨iff_of_true rfl points.exists_bad, fun witness' trace' heq => ?_⟩
  obtain ⟨-, rfl⟩ := Answer.violated.inj heq
  exact points

end Judges

section Budget

variable {V K : Type} [BEq K] [Hashable K] [Render V]

omit [BEq K] [Hashable K] [Render V] in
theorem collector_immediate {m : Type → Type} [Monad m] {C : Type} :
    (Reached.collector : Visitor m V C (Array V)).Immediate where
  enter _ _ _ _ := .pure _
  revisit _ _ _ _ := .pure _
  leave _ _ _ _ := .pure _

omit [BEq K] [Hashable K] in
theorem detector_immediate {m : Type → Type} [Monad m] [LawfulMonad m] [Journal m] [Journal.Quiet m]
    {κ : Type} (bad : V → Bool) :
    (detector fun v => pure (bad v) : Visitor m V (DepthSearch V κ) (Answer V)).Immediate where
  enter source target search answer := by
    refine (Immediate.pure (bad target)).bind fun found => ?_
    cases found with
    | true => exact Immediate.bind ⟨(), Journal.debug_eq _⟩ fun _ => .pure _
    | false => exact .pure _
  revisit _ _ _ _ := .pure _
  leave _ _ _ _ := .pure _

/-- Under the same budget, a check for bad vertices is violated if and only if a depth-first search
with the same bound discovers a bad vertex. The trace of the violation then ends at the first bad
vertex that is discovered and leads to it through vertices that are discovered before, in the order
of their discovery. It has at most as many vertices as the bound allows. -/
theorem check_points_at_first_bad_discovery (graph : StateGraph Id V) (key : V → K) (bad : V → Bool)
    (bound : Option Nat) (n : Nat) :
    ∃ reached answer rest rest',
      (∀ fuel, n < fuel →
        (Reached.depthFirst fuel (modifyGet StepBudget.poll : StateT StepBudget (Except Fault) Bool)
          (graph.under key) bound).run ⟨n⟩ = .ok (reached, rest)) ∧
      (∀ fuel, n < fuel →
        (check fuel (modifyGet StepBudget.poll : StateT StepBudget (Except Fault) Bool)
          (graph.under key) (fun v => pure (bad v)) bound).run ⟨n⟩ = .ok (answer, rest')) ∧
      (answer.holds = false ↔ ∃ v ∈ reached.vertices, bad v = true) ∧
      ∀ witness trace, answer = .violated witness trace →
        PointsAtFirst bad bound reached.vertices trace := by
  let first : DepthSearch V (Memory K) := fresh graph (Memory.forGraph graph) bound
  obtain ⟨⟨outcome', t'⟩, rest, hcollect⟩ :=
    (machine (graph.under key) Reached.collector).run_within_budget
      (step_immediate collector_immediate) (fun _ => ⟨(), rfl⟩) n { search := first, state := #[] }
  obtain ⟨⟨outcome, t⟩, rest', hcheck⟩ :=
    (machine (graph.under key) (detector fun v => pure (bad v))).run_within_budget
      (step_immediate (detector_immediate bad)) (fun _ => ⟨(), rfl⟩) n
      { search := first, state := .satisfied }
  have judges : Judges bad bound t'.state.toList t.state := by
    have abreast : Abreast graph key (Memory.forGraph graph : Memory K) bound bad
        { search := first, state := .satisfied } { search := first, state := #[] } :=
      ⟨rfl, rfl, [], ⟨.refl, rfl⟩, fun v hv => by cases hv⟩
    obtain ⟨last, world, hlast, hrel⟩ :=
      detector_outruns_collector.run (modifyGet StepBudget.poll) (n + 1 + 0) abreast (hcollect 0)
    cases hlast.symm.trans (hcheck 0)
    rcases hrel with ⟨-, -, same⟩ | ahead
    · exact same.judges
    · exact ahead.judges
  refine ⟨{ vertices := t'.state.toList, complete := outcome' == .exhausted },
    t.state, rest, rest', ?_, ?_, judges⟩
  · intro fuel hfuel
    obtain ⟨more, rfl⟩ := Nat.exists_eq_add_of_le (Nat.succ_le_of_lt hfuel)
    rw [Reached.depthFirst, start_under, pure_bind, StateT.run_bind]
    exact congrArg (· >>= _) (hcollect more)
  · intro fuel hfuel
    obtain ⟨more, rfl⟩ := Nat.exists_eq_add_of_le (Nat.succ_le_of_lt hfuel)
    rw [check, start_under, pure_bind, StateT.run_bind]
    exact congrArg (· >>= _) (hcheck more)

end Budget

end Safety

end StateExplorer
