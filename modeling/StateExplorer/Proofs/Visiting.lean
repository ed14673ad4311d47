import StateExplorer.Proofs.Exploration
import StateExplorer.Proofs.Returning
import StateExplorer.Search.Depth

/-!
# Visitors along a search

A check is a depth-first search with a visitor. `Upholds` says what has to be shown of a visitor so
that an invariant holds all along the search: one obligation for each call of the visitor, and one
for the end of the roots. `Upholds.run` then carries the invariant through a whole run, whatever the
polls say.
-/

namespace StateExplorer

open DepthSearch Event

variable {m : Type → Type} [Monad m] [MonadExceptOf Fault m] [Returning m]

/-- A run with an allowance of at least one step polls, and then stops or takes a step. -/
theorem Machine.run_returns {τ : Type} {machine : Machine m τ} {poll : m Bool} {fuel : Nat} {t : τ}
    {result : Outcome × τ} (h : Returns (machine.run poll (fuel + 1) t) result) :
    (Returns poll true ∧ result = (.cancelled, t)) ∨
      ∃ signal t', Returns (machine.step t) (signal, t') ∧
        match signal with
        | none => result = (.exhausted, t')
        | some .abort => result = (.aborted, t')
        | some .proceed => Returns (machine.run poll fuel t') result := by
  rw [Machine.run] at h
  obtain ⟨stop, hpoll, h⟩ := Returning.of_bind h
  cases stop with
  | true =>
    rw [if_pos rfl] at h
    exact Or.inl ⟨hpoll, Returning.of_pure (Returning.of_seq h)⟩
  | false =>
    rw [if_neg Bool.false_ne_true] at h
    obtain ⟨⟨signal, t'⟩, hstep, h⟩ := Returning.of_bind h
    refine Or.inr ⟨signal, t', hstep, ?_⟩
    match signal with
    | none => exact Returning.of_pure h
    | some .abort => exact Returning.of_pure h
    | some .proceed => exact h

variable [LawfulMonad m] [Journal m] {V K κ σ : Type} [Store κ K] [Render V]
  {graph : StateGraph Id V} {key : V → K}

omit [MonadExceptOf Fault m] [Returning m] [Journal m] [Store κ K] [Render V] in
theorem DepthSearch.start_under (known : κ) (bound : Option Nat) :
    DepthSearch.start (graph.under key) known bound = (pure (fresh graph known bound) : m _) := by
  unfold DepthSearch.start restart
  show (pure _ >>= fun successors => _) = _
  rw [pure_bind]
  rfl

omit [MonadExceptOf Fault m] [Returning m] [Journal m] [Store κ K] [Render V] in
theorem DepthSearch.push_under (search : DepthSearch V κ) (vertex : V) :
    DepthSearch.push (graph.under key) search vertex =
      (pure (search.pushed graph vertex) : m _) := by
  unfold DepthSearch.push
  show (pure _ >>= fun successors => _) = _
  rw [pure_bind]
  rfl

/-- What a step of a search with a visitor may return. -/
inductive Stepped (graph : StateGraph Id V) (key : V → K)
    (visitor : Visitor m V (DepthSearch V κ) σ) (t : Session (DepthSearch V κ) σ) :
    Option Signal × Session (DepthSearch V κ) σ → Prop
  | idle (items : t.search.stack.items = []) : Stepped graph key visitor t (none, t)
  | enterAbort {top : Frame V} {rest : List (Frame V)} {target : V} {state : σ}
      (items : t.search.stack.items = top :: rest) (offer : t.search.offer top = some target)
      (new : Store.knows t.search.known (key target) = false)
      (told : Returns
        (visitor.enter top.vertex target (t.search.advance.learn (key target)) t.state)
        (.abort, state)) :
      Stepped graph key visitor t
        (some .abort, { search := t.search.advance.learn (key target), state })
  | enter {top : Frame V} {rest : List (Frame V)} {target : V} {state : σ}
      (items : t.search.stack.items = top :: rest) (offer : t.search.offer top = some target)
      (new : Store.knows t.search.known (key target) = false)
      (told : Returns
        (visitor.enter top.vertex target (t.search.advance.learn (key target)) t.state)
        (.proceed, state)) :
      Stepped graph key visitor t
        (some .proceed,
          { search := (t.search.advance.learn (key target)).pushed graph target, state })
  | revisit {top : Frame V} {rest : List (Frame V)} {target : V} {signal : Signal} {state : σ}
      (items : t.search.stack.items = top :: rest) (offer : t.search.offer top = some target)
      (old : Store.knows t.search.known (key target) = true)
      (told : Returns (visitor.revisit top.vertex target t.search.advance t.state)
        (signal, state)) :
      Stepped graph key visitor t (some signal, { search := t.search.advance, state })
  | leave {top : Frame V} {rest : List (Frame V)} {vertex : V} {signal : Signal} {state : σ}
      (items : t.search.stack.items = top :: rest) (offer : t.search.offer top = none)
      (some_vertex : top.vertex = some vertex)
      (told : Returns (visitor.leave vertex top t.search.pop t.state) (signal, state)) :
      Stepped graph key visitor t (some signal, { search := t.search.pop, state })
  | finish {top : Frame V} {rest : List (Frame V)}
      (items : t.search.stack.items = top :: rest) (offer : t.search.offer top = none)
      (no_vertex : top.vertex = none) :
      Stepped graph key visitor t (some .proceed, { search := t.search.pop, state := t.state })

theorem DepthSearch.step_returns {visitor : Visitor m V (DepthSearch V κ) σ}
    {t : Session (DepthSearch V κ) σ} {result : Option Signal × Session (DepthSearch V κ) σ}
    (h : Returns (step (graph.under key) visitor t) result) :
    Stepped graph key visitor t result := by
  unfold step at h
  split at h
  · next items =>
    rw [Returning.of_pure h]
    exact .idle items
  · next top rest items =>
    split at h
    · next offer =>
      split at h
      · next vertex hv =>
        obtain ⟨⟨signal, state⟩, told, h⟩ := Returning.of_bind (Returning.of_seq h)
        rw [Returning.of_pure h]
        exact .leave items offer hv told
      · next hv =>
        rw [Returning.of_pure (Returning.of_seq h)]
        exact .finish items offer hv
    · next target offer =>
      have h : Returns _ result := Returning.of_pure_bind h
      split at h
      · next old =>
        obtain ⟨⟨signal, state⟩, told, h⟩ := Returning.of_bind (Returning.of_seq h)
        rw [Returning.of_pure h]
        exact .revisit items offer old told
      · next new =>
        have new : Store.knows t.search.known (key target) = false := Bool.eq_false_iff.2 new
        obtain ⟨⟨signal, state⟩, told, h⟩ := Returning.of_bind (Returning.of_seq h)
        cases signal with
        | abort =>
          rw [Returning.of_pure h]
          exact .enterAbort items offer new told
        | proceed =>
          simp only [push_under, pure_bind] at h
          rw [Returning.of_pure h]
          exact .enter items offer new told

/-! ## Invariants -/

/-- What a call of the visitor has to ensure: one thing if the search goes on, another if it
stops. -/
def Signal.Ensures (proceeding stopping : Prop) : Signal → Prop
  | .proceed => proceeding
  | .abort => stopping

/-- What holds at the end of a run, by the way in which it ended. -/
def Outcome.Ensures (exhausting aborting cancelling : Prop) : Outcome → Prop
  | .exhausted => exhausting
  | .aborted => aborting
  | .cancelled => cancelling

theorem Outcome.Ensures.imp {p q r p' q' r' : Prop} {outcome : Outcome} (h : outcome.Ensures p q r)
    (hp : p → p') (hq : q → q') (hr : r → r') : outcome.Ensures p' q' r' := by
  cases outcome with
  | exhausted => exact hp h
  | aborted => exact hq h
  | cancelled => exact hr h

/-- The visitor keeps an invariant between what it has been told, the search, and its own state, and
stops the search only where `Stop` holds. -/
structure Upholds (graph : StateGraph Id V) (key : V → K) (first : DepthSearch V κ)
    (visitor : Visitor m V (DepthSearch V κ) σ)
    (Inv : List (Event V) → DepthSearch V κ → σ → Prop) (Stop : DepthSearch V κ → σ → Prop) :
    Prop where
  enter : ∀ {log search state top rest target signal state'},
    Explores graph key first log search → Inv log search state →
    search.stack.items = top :: rest → search.offer top = some target →
    Store.knows search.known (key target) = false →
    Returns (visitor.enter top.vertex target (search.advance.learn (key target)) state)
      (signal, state') →
    signal.Ensures
      (Inv (log ++ [.entry top.vertex target])
        ((search.advance.learn (key target)).pushed graph target) state')
      (Stop (search.advance.learn (key target)) state')
  revisit : ∀ {log search state top rest target signal state'},
    Explores graph key first log search → Inv log search state →
    search.stack.items = top :: rest → search.offer top = some target →
    Store.knows search.known (key target) = true →
    Returns (visitor.revisit top.vertex target search.advance state) (signal, state') →
    signal.Ensures (Inv (log ++ [.known top.vertex target]) search.advance state')
      (Stop search.advance state')
  leave : ∀ {log search state top rest vertex signal state'},
    Explores graph key first log search → Inv log search state →
    search.stack.items = top :: rest → search.offer top = none → top.vertex = some vertex →
    Returns (visitor.leave vertex top search.pop state) (signal, state') →
    signal.Ensures (Inv (log ++ [.exit vertex top]) search.pop state') (Stop search.pop state')
  finish : ∀ {log search state top rest},
    Explores graph key first log search → Inv log search state →
    search.stack.items = top :: rest → search.offer top = none → top.vertex = none →
    Inv log search.pop state

namespace Upholds

variable {first : DepthSearch V κ} {visitor : Visitor m V (DepthSearch V κ) σ}
  {Inv : List (Event V) → DepthSearch V κ → σ → Prop} {Stop : DepthSearch V κ → σ → Prop}

omit [LawfulMonad m] [Journal m] [Render V] in
/-- A visitor that is silent but when a vertex is entered keeps an invariant between the discovered
vertices and its own state if it does so there. -/
theorem of_enter (Inv : List V → σ → Prop)
    (silent : visitor = { Visitor.silent with enter := visitor.enter })
    (enter : ∀ {log search state top rest target signal state'},
      Explores graph key first log search → Inv (discoveries log) state →
      search.stack.items = top :: rest → search.offer top = some target →
      Store.knows search.known (key target) = false →
      Returns (visitor.enter top.vertex target (search.advance.learn (key target)) state)
        (signal, state') →
      signal.Ensures (Inv (discoveries log ++ [target]) state')
        (Stop (search.advance.learn (key target)) state')) :
    Upholds graph key first visitor (fun log _ state => Inv (discoveries log) state) Stop where
  enter := by
    intro log search state top rest target signal state' explores inv items offer new told
    rw [discoveries_entry]
    exact enter explores inv items offer new told
  revisit := by
    intro log search state top rest target signal state' explores inv items offer old told
    rw [silent] at told
    cases Returning.of_pure told
    rw [discoveries_known]
    exact inv
  leave := by
    intro log search state top rest vertex signal state' explores inv items offer hv told
    rw [silent] at told
    cases Returning.of_pure told
    rw [discoveries_exit]
    exact inv
  finish := fun _ inv _ _ _ => inv

omit [LawfulMonad m] [Journal m] [Render V] in
/-- Every visitor upholds what says nothing. -/
theorem vacuous : Upholds graph key first visitor (fun _ _ _ => True) (fun _ _ => True) where
  enter := by
    intro log search state top rest target signal state' _ _ _ _ _ _
    cases signal <;> exact True.intro
  revisit := by
    intro log search state top rest target signal state' _ _ _ _ _ _
    cases signal <;> exact True.intro
  leave := by
    intro log search state top rest vertex signal state' _ _ _ _ _ _
    cases signal <;> exact True.intro
  finish := fun _ _ _ _ _ => True.intro

/-- A step keeps the invariant or stops the search. -/
theorem step (h : Upholds graph key first visitor Inv Stop) {log : List (Event V)}
    {t t' : Session (DepthSearch V κ) σ} {signal : Option Signal}
    (explores : Explores graph key first log t.search) (inv : Inv log t.search t.state)
    (hstep : Returns (DepthSearch.step (graph.under key) visitor t) (signal, t')) :
    match signal with
    | none => t' = t ∧ t.search.stack.items = []
    | some .abort => Stop t'.search t'.state
    | some .proceed => ∃ log', Explores graph key first log' t'.search ∧
      Inv log' t'.search t'.state := by
  cases step_returns hstep with
  | idle items => exact ⟨rfl, items⟩
  | enterAbort items offer new told => exact h.enter explores inv items offer new told
  | enter items offer new told =>
    exact ⟨_, explores.step (.enter items offer new), h.enter explores inv items offer new told⟩
  | @revisit top rest target signal state items offer old told =>
    have hnext := h.revisit explores inv items offer old told
    cases signal with
    | abort => exact hnext
    | proceed => exact ⟨_, explores.step (.revisit items offer old), hnext⟩
  | @leave top rest vertex signal state items offer some_vertex told =>
    have hnext := h.leave explores inv items offer some_vertex told
    cases signal with
    | abort => exact hnext
    | proceed => exact ⟨_, explores.step (.leave items offer some_vertex), hnext⟩
  | finish items offer no_vertex =>
    have hnext := h.finish explores inv items offer no_vertex
    exact ⟨_, (List.append_nil log) ▸ explores.step (.finish items offer no_vertex), hnext⟩

/-- Along a whole run the invariant holds, until there is nothing left to do, or the visitor stops
the search, or a poll does. -/
theorem run (h : Upholds graph key first visitor Inv Stop) {poll : m Bool} {fuel : Nat}
    {log : List (Event V)} {t t' : Session (DepthSearch V κ) σ} {outcome : Outcome}
    (explores : Explores graph key first log t.search) (inv : Inv log t.search t.state)
    (hrun : Returns ((machine (graph.under key) visitor).run poll fuel t) (outcome, t')) :
    outcome.Ensures
      (t'.search.stack.items = [] ∧
        ∃ log', Explores graph key first log' t'.search ∧ Inv log' t'.search t'.state)
      (Stop t'.search t'.state)
      (Returns poll true ∧
        ∃ log', Explores graph key first log' t'.search ∧ Inv log' t'.search t'.state) := by
  induction fuel generalizing log t with
  | zero => exact absurd hrun Returning.not_throw
  | succ fuel ih =>
    rcases Machine.run_returns hrun with ⟨hpoll, hcancelled⟩ | ⟨signal, next, hstep, hnext⟩
    · cases hcancelled
      exact ⟨hpoll, log, explores, inv⟩
    · have hkept := h.step explores inv hstep
      match signal with
      | none =>
        obtain ⟨rfl, items⟩ := hkept
        cases hnext
        exact ⟨items, log, explores, inv⟩
      | some .abort =>
        cases hnext
        exact hkept
      | some .proceed =>
        obtain ⟨log', explores', inv'⟩ := hkept
        exact ih explores' inv' hnext

/-- A computation that starts a search at the roots and runs it goes on with a result that `run`
describes. -/
theorem start_run {known : κ} {bound : Option Nat}
    (h : Upholds graph key (fresh graph known bound) visitor Inv Stop) {state : σ}
    (inv : Inv [] (fresh graph known bound) state) {poll : m Bool} {fuel : Nat} {β : Type}
    {next : Outcome × Session (DepthSearch V κ) σ → m β} {b : β}
    (hrun : Returns (DepthSearch.start (graph.under key) known bound >>= fun search =>
      (machine (graph.under key) visitor).run poll fuel { search, state } >>= next) b) :
    ∃ outcome t, Returns (next (outcome, t)) b ∧
      outcome.Ensures
        (t.search.stack.items = [] ∧ ∃ log,
          Explores graph key (fresh graph known bound) log t.search ∧ Inv log t.search t.state)
        (Stop t.search t.state)
        (Returns poll true ∧ ∃ log,
          Explores graph key (fresh graph known bound) log t.search ∧
            Inv log t.search t.state) := by
  rw [start_under, pure_bind] at hrun
  obtain ⟨⟨outcome, t⟩, hrun, hnext⟩ := Returning.of_bind hrun
  exact ⟨outcome, t, hnext, h.run .refl inv hrun⟩

end Upholds

end StateExplorer
