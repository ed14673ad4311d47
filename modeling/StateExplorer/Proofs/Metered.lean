import StateExplorer.Proofs.Returning
import StateExplorer.Search.Breadth
import StateExplorer.Search.Depth
import StateExplorer.StepBudget

/-!
# Computations that poll

A check that is polled is compared with the same check when it runs alone. Both act on a world of
type `ω` through the graph, and the polled one draws its answers from a counter of type `π` that
nothing else sees. `Metered` says that the polled computation asks a certain number of times,
whatever answers it gets, and then has done what the other one does. If it is told to stop before,
it asks no more and returns a value that is related to the value of the whole computation.

The relation goes through the constructs of a program one by one. A value that was cut short has to
be handed on without further ado (`Metered.bind`), which is what the searches do when they are
cancelled.
-/

namespace StateExplorer

/-! ## Polls -/

section Draw

variable {π : Type}

/-- Asks a number of times, or until told to stop: whether it was, and what is left. -/
def draw (ask : π → Bool × π) : Nat → π → Bool × π
  | 0, p => (false, p)
  | polls + 1, p => if (ask p).1 then (true, (ask p).2) else draw ask polls (ask p).2

@[simp] theorem draw_zero (ask : π → Bool × π) (p : π) : draw ask 0 p = (false, p) := rfl

theorem draw_one (ask : π → Bool × π) (p : π) : draw ask 1 p = ask p := by
  unfold draw
  obtain ⟨stop, p'⟩ := ask p
  cases stop <;> rfl

theorem draw_add (ask : π → Bool × π) (polls more : Nat) (p : π) :
    draw ask (polls + more) p =
      if (draw ask polls p).1 then draw ask polls p else draw ask more (draw ask polls p).2 := by
  induction polls generalizing p with
  | zero => simp
  | succ polls ih =>
    rw [Nat.succ_add, draw, draw]
    split
    · simp
    · exact ih _

/-- Counting polls lets all of them pass. -/
theorem draw_count (polls k : Nat) :
    draw (fun k => (false, k + 1)) polls k = (false, k + polls) := by
  induction polls generalizing k with
  | zero => rfl
  | succ polls ih =>
    rw [draw, if_neg Bool.false_ne_true, ih]
    exact congrArg (Prod.mk false) (by omega)

theorem draw_budget_of_le {polls n : Nat} (h : polls ≤ n) :
    draw StepBudget.poll polls ⟨n⟩ = (false, ⟨n - polls⟩) := by
  induction polls generalizing n with
  | zero => rfl
  | succ polls ih =>
    obtain ⟨n, rfl⟩ := Nat.exists_eq_add_of_le' (Nat.le_trans (Nat.le_add_left 1 polls) h)
    rw [draw, StepBudget.poll_succ, if_neg Bool.false_ne_true, ih (Nat.le_of_succ_le_succ h)]
    exact congrArg (fun n => (false, StepBudget.mk n)) (by omega)

theorem draw_budget_of_lt {polls n : Nat} (h : n < polls) :
    draw StepBudget.poll polls ⟨n⟩ = (true, ⟨0⟩) := by
  induction polls generalizing n with
  | zero => exact absurd h (Nat.not_lt_zero n)
  | succ polls ih =>
    rw [draw]
    cases n with
    | zero => rfl
    | succ n => exact ih (Nat.lt_of_succ_lt_succ h)

end Draw

/-! ## A polled computation and the same computation alone -/

/-- A computation for every source of polls and every further allowance of steps. -/
abbrev Polled (ω α : Type) : Type 1 :=
  ∀ π : Type, (π → Bool × π) → Nat → StateT π (StateT ω (Except Fault)) α

/-- If the computation alone returns, its value satisfies `Post`. For a certain number of polls the
other computation then either is not told to stop and does the same, or is told to stop, asks no
more and returns a value that `Cut` relates to the whole one. -/
def Metered {ω α : Type} (Post : α → Prop) (Cut : α → α → Prop) (alone : StateT ω (Except Fault) α)
    (polled : Polled ω α) : Prop :=
  ∀ ⦃world a world'⦄, alone.run world = .ok (a, world') →
    Post a ∧ ∃ polls, ∀ (π : Type) (ask : π → Bool × π) (slack : Nat) (p : π),
      ((draw ask polls p).1 = false →
        ((polled π ask slack).run p).run world = .ok ((a, (draw ask polls p).2), world')) ∧
      ((draw ask polls p).1 = true → ∃ part world'',
        ((polled π ask slack).run p).run world = .ok ((part, (draw ask polls p).2), world'') ∧
        Cut part a)

namespace Metered

variable {ω α β : Type} {Post : α → Prop} {Cut : α → α → Prop} {alone : StateT ω (Except Fault) α}
  {polled : Polled ω α}

theorem pure {a : α} (h : Post a) :
    Metered Post Cut (Pure.pure a : StateT ω _ α) fun _ _ _ => Pure.pure a := by
  intro world a' world' hrun
  cases hrun
  refine ⟨h, 0, fun π ask slack p => ⟨fun _ => rfl, fun hstop => ?_⟩⟩
  cases hstop

/-- A computation that never returns need not be compared with anything. -/
theorem throw {fault : Fault} : Metered Post Cut (MonadExcept.throw fault) polled := by
  intro world a world' hrun
  cases hrun

/-- What the graph does is done in the same way. -/
theorem lift : Metered (fun _ => True) (fun _ _ => False) alone fun _ _ _ => StateT.lift alone := by
  intro world a world' hrun
  refine ⟨trivial, 0, fun π ask slack p => ⟨fun _ => ?_, fun hstop => by cases hstop⟩⟩
  show (alone.run world >>= fun result => _) = _
  rw [hrun]
  rfl

/-- A poll is asked for. If it calls for a stop, the rest returns at once. -/
theorem poll : Metered (· = false) (fun part _ => part = true) (Pure.pure false : StateT ω _ Bool)
    fun _ ask _ => modifyGet ask := by
  intro world a world' hrun
  cases hrun
  refine ⟨rfl, 1, fun π ask slack p => ?_⟩
  have hask : ((modifyGet ask : StateT π (StateT ω (Except Fault)) Bool).run p).run world =
      .ok (((ask p).1, (ask p).2), world) := rfl
  rw [draw_one, hask]
  refine ⟨fun hpass => by rw [hpass], fun hstop => ⟨true, world, by rw [hstop], rfl⟩⟩

theorem bind {Post' : β → Prop} {Cut' : β → β → Prop} {f : α → StateT ω (Except Fault) β}
    {g : ∀ π : Type, (π → Bool × π) → Nat → α → StateT π (StateT ω (Except Fault)) β}
    (h : Metered Post Cut alone polled)
    (next : ∀ a, Post a → Metered Post' Cut' (f a) fun π ask slack => g π ask slack a)
    (cut : ∀ {part a b}, Cut part a → Returns (f a) b → Post' b →
      ∃ part', (∀ π ask slack, g π ask slack part = Pure.pure part') ∧ Cut' part' b) :
    Metered Post' Cut' (alone >>= f) fun π ask slack => polled π ask slack >>= g π ask slack := by
  intro world b world' hrun
  rw [StateT.run_bind] at hrun
  cases halone : alone.run world with
  | error fault => rw [halone] at hrun; cases hrun
  | ok result =>
    obtain ⟨a, middle⟩ := result
    rw [halone] at hrun
    obtain ⟨hpost, polls, hpolls⟩ := h halone
    obtain ⟨hpost', more, hmore⟩ := next a hpost hrun
    refine ⟨hpost', polls + more, fun π ask slack p => ?_⟩
    obtain ⟨hpass, hstop⟩ := hpolls π ask slack p
    obtain ⟨hpass', hstop'⟩ := hmore π ask slack (draw ask polls p).2
    rw [draw_add, StateT.run_bind, StateT.run_bind]
    cases hdraw : (draw ask polls p).1 with
    | true =>
      obtain ⟨part, world'', hpart, hcut⟩ := hstop hdraw
      obtain ⟨part', hpure, hcut'⟩ := cut hcut ⟨middle, world', hrun⟩ hpost'
      rw [if_pos rfl, hdraw, hpart]
      refine ⟨fun h => (by cases h), fun _ => ⟨part', world'', ?_, hcut'⟩⟩
      show ((g π ask slack part).run _).run world'' = _
      rw [hpure]
      rfl
    | false =>
      rw [if_neg Bool.false_ne_true, hpass hdraw]
      exact ⟨hpass', hstop'⟩

theorem imp {Post' : α → Prop} (h : Metered Post Cut alone polled) (himp : ∀ a, Post a → Post' a) :
    Metered Post' Cut alone polled := by
  intro world a world' hrun
  exact ⟨himp a (h hrun).1, (h hrun).2⟩

/-- The polled computation does not begin with a poll. -/
theorem lift_bind {x : StateT ω (Except Fault) β} {f : β → StateT ω (Except Fault) α}
    {g : ∀ π : Type, (π → Bool × π) → Nat → β → StateT π (StateT ω (Except Fault)) α}
    (next : ∀ b, Metered Post Cut (f b) fun π ask slack => g π ask slack b) :
    Metered Post Cut (x >>= f) fun π ask slack => StateT.lift x >>= g π ask slack := by
  exact lift.bind (fun b _ => next b) fun hcut => hcut.elim

theorem ite {c : Prop} [Decidable c] {alone' : StateT ω (Except Fault) α} {polled' : Polled ω α}
    (h : c → Metered Post Cut alone polled) (h' : ¬ c → Metered Post Cut alone' polled') :
    Metered Post Cut (if c then alone else alone') fun π ask slack =>
      if c then polled π ask slack else polled' π ask slack := by
  by_cases hc : c
  · simpa only [if_pos hc] using h hc
  · simpa only [if_neg hc] using h' hc

end Metered

/-! ## Runs of a machine -/

/-- What is to be observed about the state of a visitor. Calls that let the search go on keep
`Kept`, all calls make the state grow, and a call that was cut short leaves a state of which
`Stopped` holds. -/
structure Gauge (σ : Type) where
  /-- Holds as long as the search goes on. -/
  Kept : σ → Prop
  /-- Relates a state to all later ones. -/
  Grows : σ → σ → Prop
  /-- Holds if a call was cut short. -/
  Stopped : σ → Prop
  refl : ∀ s, Grows s s
  trans : ∀ {s t u}, Grows s t → Grows t u → Grows s u

/-- What a run that was cut short returns: a state that the whole run goes through, or one in which
a call of the visitor was cut short. -/
def Gauge.CutShort {τ : Type} (gauge : Gauge τ) (part whole : Outcome × τ) : Prop :=
  (part.1 = .cancelled ∧ gauge.Kept part.2 ∧ gauge.Grows part.2 whole.2) ∨
    (part.1 = .aborted ∧ gauge.Stopped part.2)

/-- A polled computation on a state does what the other one does, or was cut short and says `halt`.
The search goes on only if the answer is `go`. -/
def Gauge.Heeds {ω τ ρ : Type} (gauge : Gauge τ) (go halt : ρ) (t : τ)
    (alone : StateT ω (Except Fault) (ρ × τ)) (polled : Polled ω (ρ × τ)) : Prop :=
  gauge.Kept t →
    Metered (fun result => gauge.Grows t result.2 ∧ (result.1 = go → gauge.Kept result.2))
    (fun part _ => part.1 = halt ∧ gauge.Stopped part.2) alone polled

/-- A step of a polled machine. -/
abbrev Gauge.Steps {ω τ : Type} (gauge : Gauge τ) (t : τ)
    (alone : StateT ω (Except Fault) (Option Signal × τ)) (polled : Polled ω (Option Signal × τ)) :
    Prop :=
  gauge.Heeds (some .proceed) (some .abort) t alone polled

/-- A call of a polled visitor. -/
abbrev Gauge.Calls {ω σ : Type} (gauge : Gauge σ) (state : σ)
    (alone : StateT ω (Except Fault) (Signal × σ)) (polled : Polled ω (Signal × σ)) : Prop :=
  gauge.Heeds .proceed .abort state alone polled

/-- A run polls before each of its steps. -/
theorem Machine.run_metered {ω τ : Type} (gauge : Gauge τ)
    {machine : Machine (StateT ω (Except Fault)) τ}
    {polled : ∀ π : Type, (π → Bool × π) → Nat → Machine (StateT π (StateT ω (Except Fault))) τ}
    (note : ∀ π ask slack t, (polled π ask slack).noteCancelled t = pure ())
    (step : ∀ t, gauge.Steps t (machine.step t) fun π ask slack => (polled π ask slack).step t)
    {fuel : Nat} {t : τ} (kept : gauge.Kept t) :
    Metered (fun result => gauge.Grows t result.2) gauge.CutShort (machine.run (pure false) fuel t)
      fun π ask slack => (polled π ask slack).run (modifyGet ask) (fuel + slack) t := by
  induction fuel generalizing t with
  | zero => exact Metered.throw
  | succ fuel ih =>
    simp only [Nat.succ_add, Machine.run]
    refine Metered.poll.bind ?_ ?_
    · rintro stop rfl
      simp only [Bool.false_eq_true, if_false]
      refine (step t kept).bind ?_ ?_
      · rintro ⟨signal, t'⟩ ⟨hgrows, hkept⟩
        rcases signal with _ | (_ | _)
        · exact Metered.pure hgrows
        · exact (ih (hkept rfl)).imp fun _ => gauge.trans hgrows
        · exact Metered.pure hgrows
      · rintro ⟨signal, t'⟩ whole result ⟨rfl, hstopped⟩ - -
        exact ⟨(.aborted, t'), fun _ _ _ => rfl, Or.inr ⟨rfl, hstopped⟩⟩
    · rintro stop whole result rfl - hgrows
      refine ⟨(.cancelled, t), fun π ask slack => ?_, Or.inl ⟨rfl, kept, hgrows⟩⟩
      rw [if_pos rfl, note, pure_bind]

/-! ## Searches -/

/-- The state space next to a counter of type `π` that it neither sees nor changes. -/
def StateSpace.beside {m : Type → Type} [Monad m] {V K : Type} (π : Type)
    (space : StateSpace m V K) :
    StateSpace (StateT π m) V K where
  graph :=
    { roots := StateT.lift space.graph.roots
      neighbours := fun vertex => StateT.lift (space.graph.neighbours vertex)
      hasCycles := space.graph.hasCycles
      hasSharing := space.graph.hasSharing }
  key vertex := StateT.lift (space.key vertex)

section Searches

variable {ω V K κ C σ : Type} {gauge : Gauge σ}

/-- A gauge looks at the state of the visitor only. -/
def Gauge.session (gauge : Gauge σ) (C : Type) : Gauge (Session C σ) where
  Kept t := gauge.Kept t.state
  Grows t t' := gauge.Grows t.state t'.state
  Stopped t := gauge.Stopped t.state
  refl t := gauge.refl t.state
  trans := gauge.trans

/-- Every call of the polled visitor does what the call of the other one does, or was cut short. -/
structure Gauge.Visits (gauge : Gauge σ) (alone : Visitor (StateT ω (Except Fault)) V C σ)
    (polled : ∀ π : Type, (π → Bool × π) → Nat →
      Visitor (StateT π (StateT ω (Except Fault))) V C σ) : Prop where
  enter : ∀ source target search state, gauge.Calls state (alone.enter source target search state)
    fun π ask slack => (polled π ask slack).enter source target search state
  revisit : ∀ source target search state,
    gauge.Calls state (alone.revisit source target search state)
    fun π ask slack => (polled π ask slack).revisit source target search state
  leave : ∀ vertex frame search state, gauge.Calls state (alone.leave vertex frame search state)
    fun π ask slack => (polled π ask slack).leave vertex frame search state

theorem Gauge.heeds_pure {ρ : Type} {go halt answer : ρ} {state : σ} :
    gauge.Heeds go halt state (pure (answer, state) : StateT ω _ _) fun _ _ _ =>
      pure (answer, state) :=
  fun kept => Metered.pure ⟨gauge.refl state, fun _ => kept⟩

/-- After a call the search returns what the visitor says. -/
theorem Gauge.Heeds.step {search search' : C} {state : σ}
    {alone : StateT ω (Except Fault) (Signal × σ)} {polled : Polled ω (Signal × σ)}
    (h : gauge.Calls state alone polled) :
    (gauge.session C).Steps { search, state }
      (alone >>= fun result => pure (some result.1, { search := search', state := result.2 }))
      fun π ask slack => polled π ask slack >>= fun result =>
        pure (some result.1, { search := search', state := result.2 }) := by
  intro kept
  refine (h kept).bind ?_ ?_
  · rintro ⟨signal, state'⟩ ⟨hgrows, hkept⟩
    exact Metered.pure ⟨hgrows, fun hsignal => hkept (Option.some_inj.1 hsignal)⟩
  · rintro ⟨signal, state'⟩ whole result ⟨rfl, hstopped⟩ - -
    exact ⟨_, fun _ _ _ => rfl, rfl, hstopped⟩

variable [Store κ K] [Render V] {space : StateSpace (StateT ω (Except Fault)) V K}

theorem DepthSearch.step_metered {alone : Visitor (StateT ω (Except Fault)) V (DepthSearch V κ) σ}
    {polled : ∀ π : Type, (π → Bool × π) → Nat →
      Visitor (StateT π (StateT ω (Except Fault))) V (DepthSearch V κ) σ}
    (visits : gauge.Visits alone polled) (t : Session (DepthSearch V κ) σ) :
    (gauge.session _).Steps t (step space alone t)
      fun π ask slack => step (space.beside π) (polled π ask slack) t := by
  obtain ⟨search, state⟩ := t
  unfold step
  simp only [Journal.trace_eq, pure_bind]
  cases items : search.stack.items with
  | nil => exact Gauge.heeds_pure
  | cons top rest =>
    dsimp only
    cases offer : search.offer top with
    | none =>
      dsimp only
      cases hvertex : top.vertex with
      | some vertex => exact (visits.leave vertex top search.pop state).step
      | none => exact fun kept => Metered.pure ⟨gauge.refl state, fun _ => kept⟩
    | some target =>
      intro kept
      apply Metered.lift_bind
      intro key
      apply Metered.ite
      · intro _
        exact (visits.revisit top.vertex target search.advance state).step kept
      · intro _
        refine (visits.enter top.vertex target (search.advance.learn key) state kept).bind ?_ ?_
        · rintro ⟨signal, state'⟩ ⟨hgrows, hkept⟩
          cases signal with
          | abort => exact Metered.pure ⟨hgrows, fun h => by cases h⟩
          | proceed =>
            simp only [push, bind_assoc, pure_bind]
            apply Metered.lift_bind
            exact fun _ => Metered.pure ⟨hgrows, fun _ => hkept rfl⟩
        · rintro ⟨signal, state'⟩ whole result ⟨rfl, hstopped⟩ - -
          exact ⟨_, fun _ _ _ => rfl, rfl, hstopped⟩

theorem BreadthSearch.step_metered
    {alone : Visitor (StateT ω (Except Fault)) V (BreadthSearch V κ) σ}
    {polled : ∀ π : Type, (π → Bool × π) → Nat →
      Visitor (StateT π (StateT ω (Except Fault))) V (BreadthSearch V κ) σ}
    (visits : gauge.Visits alone polled) (t : Session (BreadthSearch V κ) σ) :
    (gauge.session _).Steps t (step space alone t)
      fun π ask slack => step (space.beside π) (polled π ask slack) t := by
  obtain ⟨search, state⟩ := t
  unfold step
  simp only [Journal.trace_eq, pure_bind]
  cases expanding : search.expanding with
  | none => exact Gauge.heeds_pure
  | some frame =>
    dsimp only
    cases peek : frame.peek with
    | none =>
      -- the visitor is told about the frame that is dropped after the next one has been opened
      have hleave : ∀ search' : BreadthSearch V κ, (gauge.session _).Steps { search, state }
          (leave alone (some frame) { search := search', state } >>= fun result =>
            pure (some result.1, result.2))
          fun π ask slack => leave (polled π ask slack) (some frame)
            { search := search', state } >>= fun result => pure (some result.1, result.2) := by
        intro search'
        obtain ⟨vertex, successors⟩ := frame
        cases vertex with
        | none => exact fun kept => Metered.pure ⟨gauge.refl state, fun _ => kept⟩
        | some vertex =>
          simp only [leave, bind_assoc, pure_bind]
          exact (visits.leave vertex ⟨some vertex, successors⟩ search' state).step
      intro kept
      simp only [turn, expandNext, expanding, bind_assoc]
      cases hpop : search.frontier.pop? with
      | none => exact hleave _ kept
      | some popped =>
        simp only [bind_assoc, pure_bind]
        apply Metered.lift_bind
        exact fun _ => hleave _ kept
    | some target =>
      intro kept
      apply Metered.lift_bind
      intro key
      apply Metered.ite
      · intro _
        exact (visits.revisit frame.vertex target search.advance state).step kept
      · intro _
        refine (visits.enter frame.vertex target (search.advance.learn key) state kept).bind ?_ ?_
        · rintro ⟨signal, state'⟩ ⟨hgrows, hkept⟩
          cases signal with
          | abort => exact Metered.pure ⟨hgrows, fun h => by cases h⟩
          | proceed => exact Metered.pure ⟨hgrows, fun _ => hkept rfl⟩
        · rintro ⟨signal, state'⟩ whole result ⟨rfl, hstopped⟩ - -
          exact ⟨_, fun _ _ _ => rfl, rfl, hstopped⟩

section Start

variable {state : σ} {fuel : Nat} {β : Type} {Post : β → Prop} {Cut : β → β → Prop}

section Depth

variable {alone : Visitor (StateT ω (Except Fault)) V (DepthSearch V κ) σ}
  {polled : ∀ π : Type, (π → Bool × π) → Nat →
    Visitor (StateT π (StateT ω (Except Fault))) V (DepthSearch V κ) σ}

theorem DepthSearch.run_metered (visits : gauge.Visits alone polled)
    (search : DepthSearch V κ) (kept : gauge.Kept state) :
    Metered (fun result => gauge.Grows state result.2.state) (gauge.session _).CutShort
      ((machine space alone).run (pure false) fuel { search, state })
      fun π ask slack =>
        (machine (space.beside π) (polled π ask slack)).run (modifyGet ask) (fuel + slack)
        { search, state } :=
  Machine.run_metered (gauge.session _) (fun _ _ _ _ => Journal.debug_eq _)
    (step_metered visits) kept

/-- A search from the roots, and what is made of its result. -/
theorem DepthSearch.start_run_metered (visits : gauge.Visits alone polled)
    (space : StateSpace (StateT ω (Except Fault)) V K) (known : κ) (bound : Option Nat)
    (kept : gauge.Kept state)
    {f : Outcome × Session (DepthSearch V κ) σ → StateT ω (Except Fault) β}
    {g : ∀ π : Type, (π → Bool × π) → Nat →
      Outcome × Session (DepthSearch V κ) σ → StateT π (StateT ω (Except Fault)) β}
    (next : ∀ result, gauge.Grows state result.2.state →
      Metered Post Cut (f result) fun π ask slack => g π ask slack result)
    (cut : ∀ {part whole b}, (gauge.session _).CutShort part whole → Returns (f whole) b →
      ∃ part', (∀ π ask slack, g π ask slack part = pure part') ∧ Cut part' b) :
    Metered Post Cut
      (start space known bound >>= fun search =>
        (machine space alone).run (pure false) fuel { search, state } >>= f)
      fun π ask slack => start (space.beside π) known bound >>= fun search =>
        (machine (space.beside π) (polled π ask slack)).run (modifyGet ask) (fuel + slack)
        { search, state } >>= g π ask slack := by
  simp only [start, restart, bind_assoc, pure_bind]
  apply Metered.lift_bind
  intro roots
  exact (run_metered visits _ kept).bind next fun hcut hf _ => cut hcut hf

end Depth

section Breadth

variable {alone : Visitor (StateT ω (Except Fault)) V (BreadthSearch V κ) σ}
  {polled : ∀ π : Type, (π → Bool × π) → Nat →
    Visitor (StateT π (StateT ω (Except Fault))) V (BreadthSearch V κ) σ}

theorem BreadthSearch.run_metered (visits : gauge.Visits alone polled)
    (search : BreadthSearch V κ) (kept : gauge.Kept state) :
    Metered (fun result => gauge.Grows state result.2.state) (gauge.session _).CutShort
      ((machine space alone).run (pure false) fuel { search, state })
      fun π ask slack =>
        (machine (space.beside π) (polled π ask slack)).run (modifyGet ask) (fuel + slack)
        { search, state } :=
  Machine.run_metered (gauge.session _) (fun _ _ _ _ => Journal.debug_eq _)
    (step_metered visits) kept

/-- A search from the roots, and what is made of its result. -/
theorem BreadthSearch.start_run_metered (visits : gauge.Visits alone polled)
    (space : StateSpace (StateT ω (Except Fault)) V K) (known : κ) (kept : gauge.Kept state)
    {f : Outcome × Session (BreadthSearch V κ) σ → StateT ω (Except Fault) β}
    {g : ∀ π : Type, (π → Bool × π) → Nat →
      Outcome × Session (BreadthSearch V κ) σ → StateT π (StateT ω (Except Fault)) β}
    (next : ∀ result, gauge.Grows state result.2.state →
      Metered Post Cut (f result) fun π ask slack => g π ask slack result)
    (cut : ∀ {part whole b}, (gauge.session _).CutShort part whole → Returns (f whole) b →
      ∃ part', (∀ π ask slack, g π ask slack part = pure part') ∧ Cut part' b) :
    Metered Post Cut
      (start space known >>= fun search =>
        (machine space alone).run (pure false) fuel { search, state } >>= f)
      fun π ask slack => start (space.beside π) known >>= fun search =>
        (machine (space.beside π) (polled π ask slack)).run (modifyGet ask) (fuel + slack)
        { search, state } >>= g π ask slack := by
  simp only [start, bind_assoc, pure_bind]
  apply Metered.lift_bind
  intro roots
  exact (run_metered visits _ kept).bind next fun hcut hf _ => cut hcut hf

end Breadth

end Start

end Searches

end StateExplorer
