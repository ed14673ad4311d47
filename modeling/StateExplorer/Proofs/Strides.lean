import Mathlib.Data.ENat.Lattice
import Mathlib.Order.CompletePartialOrder
import StateExplorer.Proofs.CallLog
import StateExplorer.Proofs.Drivers
import StateExplorer.StepBudget

/-!
# Steps in a row

`Machine.strides?` says where a number of steps in a row takes a machine and the world. A machine is
`Machine.Steady` if nothing stops it but a poll. Then each run takes it where a number of steps in a
row takes it, whatever the polls say, and the number is the one that a budget allows, or that of all
steps that are left.
-/

namespace StateExplorer

theorem perform_map_ok {ω α β : Type} {x : ExceptT Fault (StateM ω) α} {f : α → β} {b : β}
    {world world' : ω} (h : perform (f <$> x) world = (.ok b, world')) :
    ∃ a, perform x world = (.ok a, world') ∧ f a = b := by
  rw [perform_map] at h
  rcases hx : perform x world with ⟨_ | a, after⟩
  · rw [hx] at h
    cases h
  · rw [hx] at h
    cases h
    exact ⟨a, rfl, rfl⟩

namespace Machine

variable {ω π τ τ' α : Type}

/-! ## Steps in a row -/

/-- Where the next step leads, if it is taken and the machine may go on. -/
def stride? (machine : Machine (ExceptT Fault (StateM ω)) τ) (s : τ × ω) : Option (τ × ω) :=
  match perform (machine.step s.1) s.2 with
  | (.ok (some .proceed, t), world) => some (t, world)
  | _ => none

/-- Where the next `n` steps lead. -/
def strides? (machine : Machine (ExceptT Fault (StateM ω)) τ) : Nat → τ × ω → Option (τ × ω)
  | 0, s => some s
  | n + 1, s => (machine.stride? s).bind (machine.strides? n)

/-- How many steps can still be taken. -/
noncomputable def stepsLeft (machine : Machine (ExceptT Fault (StateM ω)) τ) (s : τ × ω) : ℕ∞ :=
  ⨆ (n : Nat) (_ : (machine.strides? n s).isSome), (n : ℕ∞)

/-- None of the next `n` steps ends with a fault. -/
def Smooth (machine : Machine (ExceptT Fault (StateM ω)) τ) (n : Nat) (s : τ × ω) : Prop :=
  ∀ k s', k < n → machine.strides? k s = some s' →
    ∃ result world, perform (machine.step s'.1) s'.2 = (.ok result, world)

variable {machine : Machine (ExceptT Fault (StateM ω)) τ} {t t' : τ} {world world' : ω}
  {s s' : τ × ω}

theorem stride?_eq_some :
    machine.stride? (t, world) = some (t', world') ↔
      perform (machine.step t) world = (.ok (some .proceed, t'), world') := by
  unfold stride?
  rcases perform (machine.step t) world with ⟨_ | ⟨_ | (_ | _), next⟩, after⟩ <;> simp

theorem strides?_succ_of_step
    (h : perform (machine.step t) world = (.ok (some .proceed, t'), world')) (n : Nat) :
    machine.strides? (n + 1) (t, world) = machine.strides? n (t', world') := by
  rw [strides?, stride?_eq_some.2 h, Option.bind_some]

theorem strides?_add (machine : Machine (ExceptT Fault (StateM ω)) τ) (n k : Nat) (s : τ × ω) :
    machine.strides? (n + k) s = (machine.strides? n s).bind (machine.strides? k) := by
  induction n generalizing s with
  | zero => simp [strides?]
  | succ n ih =>
    rw [Nat.add_right_comm, strides?, strides?, Option.bind_assoc]
    exact Option.bind_congr fun next _ => ih next

theorem strides?_trans {n k : Nat} {s'' : τ × ω} (h : machine.strides? n s = some s')
    (h' : machine.strides? k s' = some s'') : machine.strides? (n + k) s = some s'' := by
  rw [strides?_add, h, Option.bind_some, h']

theorem le_stepsLeft {n : Nat} (h : (machine.strides? n s).isSome) :
    (n : ℕ∞) ≤ machine.stepsLeft s :=
  le_iSup₂ (f := fun (n : Nat) (_ : (machine.strides? n s).isSome) => (n : ℕ∞)) n h

theorem stepsLeft_of_no_stride (h : machine.stride? s = none) : machine.stepsLeft s = 0 := by
  refine nonpos_iff_eq_zero.1 (iSup₂_le ?_)
  intro n hn
  cases n with
  | zero => exact le_rfl
  | succ n => simp [strides?, h] at hn

theorem stepsLeft_of_step
    (h : perform (machine.step t) world = (.ok (some .proceed, t'), world')) :
    machine.stepsLeft (t, world) = machine.stepsLeft (t', world') + 1 := by
  apply le_antisymm
  · refine iSup₂_le ?_
    intro n hn
    cases n with
    | zero => exact zero_le
    | succ n =>
      rw [strides?_succ_of_step h] at hn
      have hle := le_stepsLeft hn
      push_cast
      gcongr
  · have hzero : ∃ n, (machine.strides? n (t', world')).isSome := ⟨0, rfl⟩
    conv_lhs => rw [stepsLeft]
    rw [ENat.biSup_add' hzero]
    refine iSup₂_le ?_
    intro n hn
    rw [← strides?_succ_of_step h] at hn
    exact_mod_cast le_stepsLeft hn

theorem Smooth.of_step {n : Nat} (smooth : machine.Smooth (n + 1) (t, world))
    (h : perform (machine.step t) world = (.ok (some .proceed, t'), world')) :
    machine.Smooth n (t', world') := by
  intro k s' hk hs'
  exact smooth (k + 1) s' (Nat.succ_lt_succ hk) ((strides?_succ_of_step h k).trans hs')

/-! ## Polls with a counter of their own -/

/-- A poll that looks at the world and at its own counter, and changes nothing but the counter. -/
def inquiry (ask : ω → π → Bool × π) : StateT π (ExceptT Fault (StateM ω)) Bool := fun p =>
  do return ask (← get) p

/-- A run next to the counter of its polls stops, takes a step or ends. -/
theorem perform_run_beside_succ (quiet : ∀ t, machine.noteCancelled t = pure ())
    (ask : ω → π → Bool × π) (fuel : Nat) (t : τ) (p : π) (world : ω) :
    perform (((machine.beside π).run (inquiry ask) (fuel + 1) t).run p) world =
      if (ask world p).1 then (.ok ((.cancelled, t), (ask world p).2), world)
      else match perform (machine.step t) world with
        | (.ok (none, t), world') => (.ok ((.exhausted, t), (ask world p).2), world')
        | (.ok (some .abort, t), world') => (.ok ((.aborted, t), (ask world p).2), world')
        | (.ok (some .proceed, t), world') =>
          perform (((machine.beside π).run (inquiry ask) fuel t).run (ask world p).2) world'
        | (.error fault, world') => (.error fault, world') := by
  rw [run, StateT.run_bind, perform_bind]
  have hask : perform ((inquiry ask).run p) world = (.ok (ask world p), world) := rfl
  rw [hask]
  rcases ask world p with ⟨_ | _, p'⟩
  · simp only [Bool.false_eq_true, if_false, beside, StateT.run_bind, StateT.run_lift, perform_bind]
    rcases perform (machine.step t) world with ⟨_ | ⟨_ | (_ | _), next⟩, after⟩ <;> rfl
  · simp only [if_true, beside, StateT.run_bind, StateT.run_lift, quiet]
    rfl

theorem perform_runEagerly_beside_succ (quiet : ∀ t, machine.noteCancelled t = pure ())
    (ask : ω → π → Bool × π) (fuel : Nat) (t : τ) (p : π) (world : ω) :
    perform (((machine.beside π).runEagerly (inquiry ask) (fuel + 1) t).run p) world =
      match perform (machine.step t) world with
        | (.ok (none, t), world') => (.ok ((.exhausted, t), p), world')
        | (.ok (some .abort, t), world') => (.ok ((.aborted, t), p), world')
        | (.ok (some .proceed, t), world') =>
          if machine.isOver t then (.ok ((.exhausted, t), p), world')
          else if (ask world' p).1 then (.ok ((.cancelled, t), (ask world' p).2), world')
          else perform
            (((machine.beside π).runEagerly (inquiry ask) fuel t).run (ask world' p).2) world'
        | (.error fault, world') => (.error fault, world') := by
  rw [runEagerly]
  simp only [beside, StateT.run_bind, StateT.run_lift, perform_bind]
  rcases perform (machine.step t) world with ⟨_ | ⟨_ | (_ | _), next⟩, after⟩
  · rfl
  · rfl
  · cases hover : machine.isOver next with
    | true => simp [hover]
    | false =>
      have hask : perform ((inquiry ask).run p) after = (.ok (ask after p), after) := rfl
      simp only [perform_pure, hover, Bool.false_eq_true, if_false, StateT.run_bind,
        perform_bind, hask]
      rcases ask after p with ⟨_ | _, p'⟩
      · rfl
      · simp only [if_true, quiet]
        rfl
  · rfl

/-! ## Machines that only a poll can stop -/

/-- The machine goes on until it is over unless a poll stops it, and a log that it keeps only
grows. -/
structure Steady (machine : Machine (ExceptT Fault (StateM ω)) τ) (log : τ → List α) : Prop where
  rests : machine.Rests
  quiet : ∀ t, machine.noteCancelled t = pure ()
  over_of_none : ∀ ⦃t world t' world'⦄, perform (machine.step t) world = (.ok (none, t'), world') →
    machine.isOver t = true
  proceeds : ∀ ⦃t world signal t' world'⦄,
    perform (machine.step t) world = (.ok (some signal, t'), world') →
      signal = .proceed ∧ log t <+: log t'

/-- The uninterrupted run passes through the situations to which steps in a row lead. -/
theorem perform_run_of_strides {n : Nat} (h : machine.strides? n (t, world) = some (t', world'))
    (fuel : Nat) :
    perform (machine.run (pure false) (n + fuel) t) world =
      perform (machine.run (pure false) fuel t') world' := by
  induction n generalizing t world with
  | zero =>
    cases h
    rw [Nat.zero_add]
  | succ n ih =>
    obtain ⟨⟨next, after⟩, hstep, hrest⟩ := Option.bind_eq_some_iff.1 h
    rw [Nat.add_right_comm, perform_run_succ, stride?_eq_some.1 hstep]
    exact ih hrest

namespace Steady

variable {log : τ → List α}

/-- A step finds the machine over, or lets it go on, or ends with a fault. -/
theorem step_cases (steady : machine.Steady log) (t : τ) (world : ω) :
    (machine.isOver t = true ∧ perform (machine.step t) world = (.ok (none, t), world)) ∨
      (∃ t' world', perform (machine.step t) world = (.ok (some .proceed, t'), world') ∧
        log t <+: log t') ∨
      ∃ fault world', perform (machine.step t) world = (.error fault, world') := by
  rcases hstep : perform (machine.step t) world with ⟨fault | ⟨signal, t'⟩, world'⟩
  · exact Or.inr (Or.inr ⟨fault, world', rfl⟩)
  · cases signal with
    | none =>
      have hover := steady.over_of_none hstep
      rw [steady.rests t hover, perform_pure] at hstep
      exact Or.inl ⟨hover, hstep.symm⟩
    | some signal =>
      obtain ⟨rfl, hlog⟩ := steady.proceeds hstep
      exact Or.inr (Or.inl ⟨t', world', rfl, hlog⟩)

theorem stride?_of_over (steady : machine.Steady log) (ended : machine.isOver t = true) :
    machine.stride? (t, world) = none := by
  rw [stride?, steady.rests t ended]
  rfl

theorem strides?_of_over (steady : machine.Steady log) (ended : machine.isOver t = true) {n : Nat}
    (h : machine.strides? n (t, world) = some s) : n = 0 ∧ s = (t, world) := by
  cases n with
  | zero => exact ⟨rfl, (Option.some.inj h).symm⟩
  | succ n => simp [strides?, steady.stride?_of_over ended] at h

theorem log_prefix (steady : machine.Steady log) {n : Nat} (h : machine.strides? n s = some s') :
    log s.1 <+: log s'.1 := by
  induction n generalizing s with
  | zero =>
    cases h
    exact List.prefix_rfl
  | succ n ih =>
    obtain ⟨next, hstep, hrest⟩ := Option.bind_eq_some_iff.1 h
    exact (steady.proceeds (stride?_eq_some.1 hstep)).2.trans (ih hrest)

/-- An uninterrupted run that returns has taken all steps. -/
theorem run_ends (steady : machine.Steady log) {fuel : Nat} {outcome : Outcome}
    (h : perform (machine.run (pure false) fuel t) world = (.ok (outcome, t'), world')) :
    machine.isOver t' = true ∧ ∃ n, machine.strides? n (t, world) = some (t', world') := by
  induction fuel generalizing t world with
  | zero => cases h
  | succ fuel ih =>
    rw [perform_run_succ] at h
    rcases steady.step_cases t world with ⟨hover, hstep⟩ | ⟨next, after, hstep, -⟩
      | ⟨fault, after, hstep⟩
    · rw [hstep] at h
      cases h
      exact ⟨hover, 0, rfl⟩
    · rw [hstep] at h
      obtain ⟨hover, n, hn⟩ := ih h
      exact ⟨hover, n + 1, (strides?_succ_of_step hstep n).trans hn⟩
    · rw [hstep] at h
      cases h

/-- What is logged after steps in a row is logged by the uninterrupted run as well, and first. -/
theorem log_prefix_of_run (steady : machine.Steady log) {n fuel : Nat} {outcome : Outcome}
    {last : τ} {world'' : ω} (h : machine.strides? n (t, world) = some (t', world'))
    (hrun : perform (machine.run (pure false) fuel t) world = (.ok (outcome, last), world'')) :
    log t' <+: log last := by
  obtain ⟨hover, k, hk⟩ := steady.run_ends hrun
  rcases Nat.le_total n k with hle | hle
  · obtain ⟨more, rfl⟩ := Nat.exists_eq_add_of_le hle
    rw [strides?_add, h] at hk
    exact steady.log_prefix hk
  · obtain ⟨more, rfl⟩ := Nat.exists_eq_add_of_le hle
    rw [strides?_add, hk] at h
    obtain ⟨-, hlast⟩ := steady.strides?_of_over hover h
    cases hlast
    exact List.prefix_rfl

/-- An uninterrupted run ends where steps in a row have come to the end. -/
theorem perform_run_of_over (steady : machine.Steady log) {n : Nat}
    (h : machine.strides? n (t, world) = some (t', world')) (ended : machine.isOver t' = true)
    (fuel : Nat) :
    perform (machine.run (pure false) (n + (fuel + 1)) t) world =
      (.ok (.exhausted, t'), world') := by
  rw [perform_run_of_strides h, steady.rests.perform_run_succ ended]

/-! ### Polled runs -/

theorem run_strides (steady : machine.Steady log) {ask : ω → π → Bool × π} {fuel : Nat} {p p' : π}
    {outcome : Outcome}
    (h : perform (((machine.beside π).run (inquiry ask) fuel t).run p) world =
      (.ok ((outcome, t'), p'), world')) :
    ∃ n, machine.strides? n (t, world) = some (t', world') ∧
      (outcome = .exhausted → machine.isOver t' = true) := by
  induction fuel generalizing t p world with
  | zero => cases h
  | succ fuel ih =>
    rw [perform_run_beside_succ steady.quiet] at h
    split at h
    · cases h
      exact ⟨0, rfl, fun h => nomatch h⟩
    · rcases steady.step_cases t world with ⟨hover, hstep⟩ | ⟨next, after, hstep, -⟩
        | ⟨fault, after, hstep⟩
      · rw [hstep] at h
        cases h
        exact ⟨0, rfl, fun _ => hover⟩
      · rw [hstep] at h
        obtain ⟨n, hn, hend⟩ := ih h
        exact ⟨n + 1, (strides?_succ_of_step hstep n).trans hn, hend⟩
      · rw [hstep] at h
        cases h

theorem runEagerly_strides (steady : machine.Steady log) {ask : ω → π → Bool × π} {fuel : Nat}
    {p p' : π} {outcome : Outcome}
    (h : perform (((machine.beside π).runEagerly (inquiry ask) fuel t).run p) world =
      (.ok ((outcome, t'), p'), world')) :
    ∃ n, machine.strides? n (t, world) = some (t', world') ∧
      (outcome = .exhausted → machine.isOver t' = true) := by
  induction fuel generalizing t p world with
  | zero => cases h
  | succ fuel ih =>
    rw [perform_runEagerly_beside_succ steady.quiet] at h
    rcases steady.step_cases t world with ⟨hover, hstep⟩ | ⟨next, after, hstep, -⟩
      | ⟨fault, after, hstep⟩
    · rw [hstep] at h
      cases h
      exact ⟨0, rfl, fun _ => hover⟩
    · rw [hstep] at h
      dsimp only at h
      have hone : machine.strides? 1 (t, world) = some (next, after) :=
        strides?_succ_of_step hstep 0
      split at h
      · next hover =>
        cases h
        exact ⟨1, hone, fun _ => hover⟩
      · split at h
        · cases h
          exact ⟨1, hone, fun h => nomatch h⟩
        · obtain ⟨n, hn, hend⟩ := ih h
          exact ⟨n + 1, (strides?_succ_of_step hstep n).trans hn, hend⟩
    · rw [hstep] at h
      cases h

/-- A run with a budget takes as many steps as the budget says, or all that are left. -/
theorem run_budget (steady : machine.Steady log) {n fuel : Nat} (enough : n < fuel)
    (smooth : machine.Smooth n (t, world)) :
    ∃ k outcome t' rest world',
      perform (((machine.beside StepBudget).run (inquiry fun _ => StepBudget.poll) fuel t).run
        ⟨n⟩) world = (.ok ((outcome, t'), rest), world') ∧
      machine.strides? k (t, world) = some (t', world') ∧
      (k : ℕ∞) = min (n : ℕ∞) (machine.stepsLeft (t, world)) := by
  obtain ⟨fuel, rfl⟩ := Nat.exists_eq_add_of_lt enough
  induction n generalizing t world with
  | zero =>
    refine ⟨0, .cancelled, t, ⟨0⟩, world, ?_, rfl, by simp⟩
    rw [perform_run_beside_succ steady.quiet]
    rfl
  | succ n ih =>
    rcases steady.step_cases t world with ⟨hover, hstep⟩ | ⟨next, after, hstep, -⟩
      | ⟨fault, after, hstep⟩
    · refine ⟨0, .exhausted, t, ⟨n⟩, world, ?_, rfl, ?_⟩
      · rw [perform_run_beside_succ steady.quiet, hstep]
        rfl
      · simp [stepsLeft_of_no_stride (steady.stride?_of_over hover)]
    · obtain ⟨k, outcome, t', rest, world', hrun, hk, hmin⟩ := ih (smooth.of_step hstep) (by omega)
      refine ⟨k + 1, outcome, t', rest, world', ?_, (strides?_succ_of_step hstep k).trans hk, ?_⟩
      · rw [perform_run_beside_succ steady.quiet, hstep, ← hrun, Nat.add_right_comm n 1 fuel]
        rfl
      · push_cast
        rw [stepsLeft_of_step hstep, hmin, min_add_add_right]
    · obtain ⟨result, after', hok⟩ := smooth 0 (t, world) (Nat.succ_pos n) rfl
      rw [hstep] at hok
      cases hok

theorem runEagerly_budget (steady : machine.Steady log) {n fuel : Nat} (enough : n < fuel)
    (smooth : machine.Smooth (n + 1) (t, world)) :
    ∃ k outcome t' rest world',
      perform (((machine.beside StepBudget).runEagerly
        (inquiry fun _ => StepBudget.poll) fuel t).run ⟨n⟩)
        world = (.ok ((outcome, t'), rest), world') ∧
      machine.strides? k (t, world) = some (t', world') ∧
      (k : ℕ∞) = min (n + 1 : ℕ∞) (machine.stepsLeft (t, world)) := by
  induction fuel generalizing n t world with
  | zero => omega
  | succ fuel ih =>
    rcases steady.step_cases t world with ⟨hover, hstep⟩ | ⟨next, after, hstep, -⟩
      | ⟨fault, after, hstep⟩
    · refine ⟨0, .exhausted, t, ⟨n⟩, world, ?_, rfl, ?_⟩
      · rw [perform_runEagerly_beside_succ steady.quiet, hstep]
      · simp [stepsLeft_of_no_stride (steady.stride?_of_over hover)]
    · have hleft := stepsLeft_of_step hstep
      have hone : machine.strides? 1 (t, world) = some (next, after) :=
        strides?_succ_of_step hstep 0
      cases hover : machine.isOver next with
      | true =>
        refine ⟨1, .exhausted, next, ⟨n⟩, after, ?_, hone, ?_⟩
        · rw [perform_runEagerly_beside_succ steady.quiet, hstep]
          exact if_pos hover
        · simp [hleft, stepsLeft_of_no_stride (steady.stride?_of_over hover)]
      | false =>
        cases n with
        | zero =>
          -- the first poll is already one too many, but it comes after the step
          refine ⟨1, .cancelled, next, ⟨0⟩, after, ?_, hone, ?_⟩
          · rw [perform_runEagerly_beside_succ steady.quiet, hstep]
            simp [hover]
          · simp [hleft]
        | succ n =>
          obtain ⟨k, outcome, t', rest, world', hrun, hk, hmin⟩ :=
            ih (by omega) (smooth.of_step hstep)
          refine ⟨k + 1, outcome, t', rest, world', ?_,
            (strides?_succ_of_step hstep k).trans hk, ?_⟩
          · rw [perform_runEagerly_beside_succ steady.quiet, hstep, ← hrun]
            simp [hover]
          · push_cast
            rw [hleft, hmin, min_add_add_right]
    · obtain ⟨result, after', hok⟩ := smooth 0 (t, world) (Nat.succ_pos n) rfl
      rw [hstep] at hok
      cases hok

end Steady

/-! ## Counting steps and keeping logs -/

section Views

variable {m : Type → Type} [Monad m]

/-- The machine, counting its steps. -/
def counted (machine : Machine m τ) : Machine m (τ × Nat) where
  step c := (fun result => (result.1, result.2, c.2 + result.1.toList.length)) <$> machine.step c.1
  isOver c := machine.isOver c.1
  noteCancelled c := machine.noteCancelled c.1

/-- The one machine does what the other does, with a state of which the other sees a part. -/
structure Views (view : τ → τ') (machine : Machine m τ) (machine' : Machine m τ') : Prop where
  step : ∀ t, Prod.map id view <$> machine.step t = machine'.step (view t)
  isOver : ∀ t, machine.isOver t = machine'.isOver (view t)
  note : ∀ t, machine.noteCancelled t = machine'.noteCancelled (view t)

variable [LawfulMonad m] {view : τ → τ'} {machine : Machine m τ} {machine' : Machine m τ'}

theorem counted_views (machine : Machine m τ) : Views Prod.fst machine.counted machine where
  step c := by
    simp only [counted, Functor.map_map]
    exact id_map _
  isOver _ := rfl
  note _ := rfl

theorem Views.trans {τ'' : Type} {view' : τ' → τ''} {machine'' : Machine m τ''}
    (h : Views view machine machine') (h' : Views view' machine' machine'') :
    Views (view' ∘ view) machine machine'' where
  step t := by
    rw [Function.comp_apply, ← h'.step, ← h.step, Functor.map_map]
    rfl
  isOver t := (h.isOver t).trans (h'.isOver (view t))
  note t := (h.note t).trans (h'.note (view t))

theorem Views.beside (h : Views view machine machine') (π : Type) :
    Views view (machine.beside π) (machine'.beside π) where
  step t := by
    apply StateT.ext
    intro p
    simp [Machine.beside, ← h.step]
  isOver := h.isOver
  note t := congrArg StateT.lift (h.note t)

theorem Views.runEagerly [MonadExceptOf Fault m] [LawfulFault m] (h : Views view machine machine')
    (poll : m Bool) (fuel : Nat) (t : τ) :
    Prod.map id view <$> machine.runEagerly poll fuel t =
      machine'.runEagerly poll fuel (view t) := by
  induction fuel generalizing t with
  | zero => exact map_throw _ _
  | succ fuel ih =>
    simp only [Machine.runEagerly, map_bind, ← h.step, bind_map_left]
    congr 1
    funext result
    obtain ⟨signal, next⟩ := result
    rcases signal with _ | (_ | _)
    · simp
    · cases hover : machine.isOver next with
      | true => simp [hover, ← h.isOver]
      | false =>
        simp only [hover, Prod.map_apply, id, ← h.isOver, Bool.false_eq_true, if_false, map_bind]
        congr 1
        funext stop
        cases stop with
        | true => simp [h.note]
        | false => exact ih next
    · simp

end Views

/-- Steps in a row lead the one machine where they lead the other. -/
theorem Views.strides?_view {view : τ → τ'} {machine : Machine (ExceptT Fault (StateM ω)) τ}
    {machine' : Machine (ExceptT Fault (StateM ω)) τ'} (h : Views view machine machine') (n : Nat)
    (t : τ) (world : ω) :
    machine'.strides? n (view t, world) =
      (machine.strides? n (t, world)).map (Prod.map view id) := by
  induction n generalizing t world with
  | zero => rfl
  | succ n ih =>
    have hstride : machine'.stride? (view t, world) =
        (machine.stride? (t, world)).map (Prod.map view id) := by
      unfold stride?
      rw [← h.step, perform_map]
      rcases perform (machine.step t) world with ⟨_ | ⟨_ | (_ | _), next⟩, after⟩ <;> rfl
    rw [strides?, strides?, hstride, Option.bind_map, Option.map_bind]
    exact Option.bind_congr fun s _ => ih s.1 s.2

theorem perform_step_counted (c : τ × Nat) (world : ω) :
    perform (machine.counted.step c) world =
      ((perform (machine.step c.1) world).1.map
        (fun result => (result.1, result.2, c.2 + result.1.toList.length)),
       (perform (machine.step c.1) world).2) :=
  perform_map _ _ _

theorem stride?_counted (t : τ) (steps : Nat) (world : ω) :
    machine.counted.stride? ((t, steps), world) =
      (machine.stride? (t, world)).map fun s => ((s.1, steps + 1), s.2) := by
  unfold stride?
  rw [perform_step_counted]
  rcases perform (machine.step t) world with ⟨_ | ⟨_ | (_ | _), next⟩, after⟩ <;> rfl

theorem strides?_counted (n : Nat) (t : τ) (steps : Nat) (world : ω) :
    machine.counted.strides? n ((t, steps), world) =
      (machine.strides? n (t, world)).map fun s => ((s.1, steps + n), s.2) := by
  induction n generalizing t steps world with
  | zero => rfl
  | succ n ih =>
    rw [strides?, strides?, stride?_counted, Option.bind_map, Option.map_bind]
    refine Option.bind_congr fun s _ => ?_
    rw [Function.comp_apply, Function.comp_apply, ih, Nat.add_assoc, Nat.add_comm 1 n]

theorem stepsLeft_counted (t : τ) (steps : Nat) (world : ω) :
    machine.counted.stepsLeft ((t, steps), world) = machine.stepsLeft (t, world) := by
  simp only [stepsLeft, strides?_counted, Option.isSome_map]

theorem Steady.counted {log : τ → List α} (steady : machine.Steady log) :
    machine.counted.Steady fun c => log c.1 where
  rests := by
    intro c ended
    change _ <$> machine.step c.1 = _
    rw [steady.rests c.1 ended, map_pure]
    rfl
  quiet c := steady.quiet c.1
  over_of_none := by
    intro c world c' world' h
    obtain ⟨⟨signal', next⟩, hstep, hresult⟩ := perform_map_ok h
    cases hresult
    exact steady.over_of_none hstep
  proceeds := by
    intro c world signal c' world' h
    obtain ⟨⟨signal', next⟩, hstep, hresult⟩ := perform_map_ok h
    cases hresult
    exact steady.proceeds hstep

end Machine

end StateExplorer
