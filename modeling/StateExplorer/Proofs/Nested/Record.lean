import StateExplorer.Proofs.Nested.Colored
import StateExplorer.Proofs.Recording
import StateExplorer.Proofs.Termination
import StateExplorer.StepBudget

/-!
# A check with colours that keeps a record

The check with colours is compared with one that also writes down, at the start of each step of the
outer search, the stack and the colours; at the start of each step of an inner search and when it
has ended, the colours; and each form that an inner search enters.

The two checks call the same visitors but for what is written down, so what the visitors do is said
once for both of them.
-/

namespace StateExplorer.NestedSearch

open DepthSearch

variable {V K ω : Type} [BEq K] [Hashable K]

/-! ## The record -/

/-- What is written down during a check. -/
inductive Moment (V K : Type) [BEq K] [Hashable K] where
  /-- A step of the outer search begins, with these vertices on the stack. -/
  | outer (path : List V) (palette : Palette K)
  /-- A step of an inner search begins, or the inner search or the check has ended. -/
  | between (palette : Palette K)
  /-- An inner search enters a form. -/
  | entry (form : K)

namespace Moment

def palette? : Moment V K → Option (Palette K)
  | outer _ palette => some palette
  | between palette => some palette
  | entry _ => none

def entry? : Moment V K → Option K
  | outer _ _ => none
  | between _ => none
  | entry form => some form

/-- The colours that were written down last. All forms are white at first. -/
def latest (record : List (Moment V K)) : Palette K := (record.filterMap palette?).getLast?.getD {}

/-- The forms that inner searches have entered. -/
def entries (record : List (Moment V K)) : List K := record.filterMap entry?

end Moment

/-! ## The check that keeps the record -/

section Program

variable {m : Type → Type} [Monad m] [Journal m] [Render V]

/-- What the outer search makes of the end of an inner search. -/
def concludeRed (space : StateSpace m V K) (seed : V) (path : List V) (blue : BlueState V K)
    (result : Outcome × Session (DepthSearch V (RedStore K)) (Option (V × V))) :
    m (Signal × BlueState V K) := do
  let findings := { blue.findings with launched := blue.findings.launched + 1 }
  let (outcome, t) := result
  Journal.trace fun _ =>
    s!"red search from {render seed} ended {render outcome} " ++
      s!"after painting {render t.search.discovered} vertices"
  let palette := t.search.known.palette
  match outcome, t.state with
  | .cancelled, _ => return (.abort, { palette, findings := { findings with cancelled := true } })
  | .aborted, some (source, target) =>
    Journal.debug fun _ => s!"red search from {render seed} reached {render target} on the stack"
    let trace := path ++ [seed] ++ t.search.path ++ [target]
    let answer := .violated (.edge source target) trace
    return (.abort, { palette, findings := { findings with answer } })
  | _, _ => return (.proceed, { palette := palette.paint (← space.key seed) .red, findings })

theorem redSearch_eq [MonadExceptOf Fault m] (fuel : Nat) (poll : m Bool) (space : StateSpace m V K)
    (seed : V) (path : List V) (blue : BlueState V K) :
    redSearch fuel poll space seed path blue = (do
      let view := { space with graph := space.graph.rootedAfter seed }
      let inner ← DepthSearch.start view ({ palette := blue.palette } : RedStore K) none
      let result ← (machine view (redVisitor view seed)).run poll fuel
          { search := inner, state := none }
      concludeRed space seed path blue result) := rfl

end Program

section RecordedProgram

variable [Render V]

/-- The visitor of an inner search, writing down what is entered. -/
def recordedRedVisitor (space : StateSpace (ExceptT Fault (StateM (ω × List (Moment V K)))) V K)
    (seed : V) :
    Visitor (ExceptT Fault (StateM (ω × List (Moment V K)))) V (DepthSearch V (RedStore K))
      (Option (V × V)) :=
  { redVisitor space seed with
    enter := fun source target search closing => do
      writeDown (.entry (← space.key target))
      (redVisitor space seed).enter source target search closing }

/-- An inner search that keeps the record. -/
def recordedRedSearch (fuel : Nat) (poll : ExceptT Fault (StateM ω) Bool)
    (space : StateSpace (ExceptT Fault (StateM (ω × List (Moment V K)))) V K) (seed : V)
    (path : List V) (blue : BlueState V K) :
    ExceptT Fault (StateM (ω × List (Moment V K))) (Signal × BlueState V K) := do
  let view := { space with graph := space.graph.rootedAfter seed }
  let inner ← DepthSearch.start view ({ palette := blue.palette } : RedStore K) none
  let result ← ((machine view (recordedRedVisitor view seed)).recording fun t =>
    .between t.search.known.palette).run (offRecord poll) fuel { search := inner, state := none }
  writeDown (.between result.2.search.known.palette)
  concludeRed space seed path blue result

/-- The visitor of the outer search, with inner searches that keep the record. -/
def recordedBlueVisitor {κ : Type} (fuel : Nat) (poll : ExceptT Fault (StateM ω) Bool)
    (space : StateSpace (ExceptT Fault (StateM (ω × List (Moment V K)))) V K)
    (accepting : V → ExceptT Fault (StateM (ω × List (Moment V K))) Bool) (early : Bool) :
    Visitor (ExceptT Fault (StateM (ω × List (Moment V K)))) V (DepthSearch V κ) (BlueState V K) :=
  { blueVisitor fuel (offRecord poll) space accepting early with
    leave := fun vertex _ search blue => do
      if ← accepting vertex then
        if ← offRecord poll then
          return (.abort, { blue with findings := { blue.findings with cancelled := true } })
        else
          recordedRedSearch fuel poll space vertex search.path blue
      else
        return (.proceed, { blue with palette := blue.palette.paint (← space.key vertex) .blue }) }

/-- The check that keeps the record. -/
def recordedColored (fuel : Nat) (poll : ExceptT Fault (StateM ω) Bool)
    (space : StateSpace (ExceptT Fault (StateM (ω × List (Moment V K)))) V K)
    (accepting : V → ExceptT Fault (StateM (ω × List (Moment V K))) Bool) (early : Bool) :
    ExceptT Fault (StateM (ω × List (Moment V K))) (Answer V) := do
  let search ← DepthSearch.start space (∅ : Std.HashSet K) none
  let result ← ((machine space (recordedBlueVisitor fuel poll space accepting early)).recording
      fun t =>
    .outer t.search.path t.state.palette).run (offRecord poll) fuel { search, state := {} }
  writeDown (.between result.2.state.palette)
  return result.2.state.findings.conclusion

end RecordedProgram

/-! ## What the visitors do -/

section Visitors

variable [Render V] {graph : StateGraph Id V} {key : V → K} {accepting : V → Bool} {fuel : Nat}
  {poll : ExceptT Fault (StateM ω) Bool}

omit [Render V] in
/-- An inner search meets a known form without a further effect. It stops there if the form is
cyan. -/
theorem redVisitor_revisit_eq {m : Type → Type} [Monad m] [LawfulMonad m] (seed : V)
    (source : Option V) (target : V) (search : DepthSearch V (RedStore K))
    (closing : Option (V × V)) :
    (redVisitor (m := m) (graph.under key) seed).revisit source target search closing =
      pure (if search.known.palette.color? (key target) == some .cyan then
        (.abort, some (source.getD seed, target)) else (.proceed, closing)) := by
  simp only [redVisitor, StateGraph.under, pure_bind]
  split <;> rfl

omit [Render V] in
theorem start_redSearch {m : Type → Type} [Monad m] [LawfulMonad m] (seed : V)
    (known : RedStore K) :
    DepthSearch.start { (graph.under key : StateSpace m V K) with
      graph := (graph.under key : StateSpace m V K).graph.rootedAfter seed } known none =
      pure (fresh (graph.rootedAfter seed) known none) := by
  have hstart : DepthSearch.start ((graph.rootedAfter seed).under key) known none =
      (pure (fresh (graph.rootedAfter seed) known none) : m _) := start_under known none
  exact hstart

/-- What the outer search makes of a known form. -/
def metAgain (key : V → K) (accepting : V → Bool) (early : Bool) (source : Option V) (target : V)
    (path : List V) (blue : BlueState V K) : Signal × BlueState V K :=
  match early, source with
  | true, some source =>
    if blue.palette.color? (key target) == some .cyan &&
        (accepting target ||
          decide (blue.palette.weight (key target) < blue.palette.weight (key source))) then
      (.abort, { blue with findings :=
        { blue.findings with answer := .violated (.edge source target) (path ++ [target]) } })
    else (.proceed, blue)
  | _, _ => (.proceed, blue)

section Calls

variable {m : Type → Type} [Monad m] [LawfulMonad m] [Journal m] [Journal.Quiet m]
  [MonadExceptOf Fault m] {polled : m Bool} {early : Bool} {source : Option V} {target : V}
  {search : DepthSearch V (Std.HashSet K)} {blue : BlueState V K}

omit [Journal.Quiet m] in
theorem blueVisitor_enter_eq :
    (blueVisitor fuel polled (graph.under key) (fun v => pure (accepting v)) early).enter
      source target
      search blue = pure (.proceed, { blue with
        palette := blue.palette.enter (key target)
          ((source.elim 0 fun source => blue.palette.weight (key source)) +
            if accepting target then 1 else 0) }) := by
  cases source <;> simp [blueVisitor, StateGraph.under]

theorem blueVisitor_revisit_eq :
    (blueVisitor fuel polled (graph.under key) (fun v => pure (accepting v)) early).revisit
      source target
      search blue = pure (metAgain key accepting early source target search.path blue) := by
  cases early with
  | false => simp [blueVisitor, metAgain]
  | true =>
    cases source with
    | none => simp [blueVisitor, metAgain]
    | some source =>
      simp only [blueVisitor, StateGraph.under, closesCycle, pure_bind, Journal.debug_eq, metAgain]
      by_cases hcyan : blue.palette.color? (key target) = some .cyan
      · cases accepting target with
        | true => simp [hcyan]
        | false =>
          by_cases hweight : blue.palette.weight (key target) < blue.palette.weight (key source)
          · simp [hcyan, hweight]
          · simp [hcyan, hweight]
      · simp [hcyan]

omit [Journal.Quiet m] in
theorem blueVisitor_leave_eq (vertex : V) (frame : Frame V) :
    (blueVisitor fuel polled (graph.under key) (fun v => pure (accepting v)) early).leave
      vertex frame
      search blue =
      if accepting vertex then polled >>= fun stop =>
        if stop then pure (.abort,
          { blue with findings := { blue.findings with cancelled := true } })
        else redSearch fuel polled (graph.under key) vertex search.path blue
      else pure (.proceed, { blue with palette := blue.palette.paint (key vertex) .blue }) := by
  change (pure (accepting vertex) >>= fun accepted => _) = _
  rw [pure_bind]
  split
  · rfl
  · exact pure_bind _ _

omit [Render V] in
theorem metAgain_cases (key : V → K) (accepting : V → Bool) (early : Bool) (source : Option V)
    (target : V) (path : List V) (blue : BlueState V K) :
    metAgain key accepting early source target path blue = (.proceed, blue) ∨
      ∃ findings,
        metAgain key accepting early source target path blue =
          (.abort, { blue with findings }) := by
  unfold metAgain
  split
  · split
    · exact Or.inr ⟨_, rfl⟩
    · exact Or.inl rfl
  · exact Or.inl rfl

end Calls

section Same

variable {κ : Type} {space : StateSpace (ExceptT Fault (StateM (ω × List (Moment V K)))) V K}
  {checked : V → ExceptT Fault (StateM (ω × List (Moment V K))) Bool} {early : Bool}

theorem recordedBlueVisitor_enter :
    (recordedBlueVisitor (κ := κ) fuel poll space checked early).enter =
      (blueVisitor fuel (offRecord poll) space checked early).enter := rfl

theorem recordedBlueVisitor_revisit :
    (recordedBlueVisitor (κ := κ) fuel poll space checked early).revisit =
      (blueVisitor fuel (offRecord poll) space checked early).revisit := rfl

theorem recordedBlueVisitor_leave_eq {search : DepthSearch V κ} {blue : BlueState V K} (vertex : V)
    (frame : Frame V) :
    (recordedBlueVisitor fuel poll (graph.under key) (fun v => pure (accepting v)) early).leave
      vertex frame
      search blue =
      if accepting vertex then offRecord poll >>= fun stop =>
        if stop then pure (.abort,
          { blue with findings := { blue.findings with cancelled := true } })
        else recordedRedSearch fuel poll (graph.under key) vertex search.path blue
      else pure (.proceed, { blue with palette := blue.palette.paint (key vertex) .blue }) := by
  change (pure (accepting vertex) >>= fun accepted => _) = _
  rw [pure_bind]
  split
  · rfl
  · exact pure_bind _ _

end Same

/-- An inner search that keeps the record runs on the graph from its seed on. -/
theorem recordedRedSearch_under (seed : V) (path : List V) (blue : BlueState V K) :
    recordedRedSearch fuel poll (graph.under key) seed path blue =
      ((machine ((graph.rootedAfter seed).under key) (recordedRedVisitor
        ((graph.rootedAfter seed).under key) seed)).recording fun t =>
          .between t.search.known.palette).run (offRecord poll) fuel
        { search := fresh (graph.rootedAfter seed) ({ palette := blue.palette } : RedStore K) none
          state := none } >>= fun result =>
      writeDown (.between result.2.search.known.palette) >>= fun _ =>
        concludeRed (graph.under key) seed path blue result :=
  (congrArg (· >>= _) (start_redSearch seed { palette := blue.palette })).trans (pure_bind _ _)

theorem recordedColored_under (early : Bool) :
    recordedColored fuel poll (graph.under key) (fun v => pure (accepting v)) early =
      ((machine (graph.under key) (recordedBlueVisitor fuel poll (graph.under key)
        (fun v => pure (accepting v)) early)).recording fun t =>
          .outer t.search.path t.state.palette).run (offRecord poll) fuel
        { search := fresh graph (∅ : Std.HashSet K) none, state := {} } >>= fun result =>
      writeDown (.between result.2.state.palette) >>= fun _ =>
        pure result.2.state.findings.conclusion :=
  (congrArg (· >>= _) (start_under _ _)).trans (pure_bind _ _)

end Visitors

/-! ## Steps that keep the record -/

/-- A budget that is not used up lets a poll pass. -/
theorem perform_poll_succ (n : Nat) :
    perform (modifyGet StepBudget.poll) ⟨n + 1⟩ = (.ok false, ⟨n⟩) := rfl

section Steps

variable [Render V] (graph : StateGraph Id V) (key : V → K) (seed : V)
  (search : DepthSearch V (RedStore K)) (closing : Option (V × V)) (target : V) {top : Frame V}
  {rest : List (Frame V)}

/-- An inner search that keeps the record enters a blue form. -/
theorem perform_step_red_enter (items : search.stack.items = top :: rest)
    (offer : search.offer top = some target)
    (hblue : search.known.palette.color? (key target) = some .blue) (world : ω)
    (record : List (Moment V K)) :
    perform ((machine (graph.under key) (recordedRedVisitor (graph.under key) seed)).step
        { search, state := closing }) (world, record) =
      (.ok (some .proceed,
        { search := (search.advance.learn (key target)).pushed graph target, state := closing }),
        world, record ++ [.entry (key target)]) := by
  have hnew : Store.knows search.known (key target) = false := by
    rw [← Bool.not_eq_true, RedStore.knows_iff, hblue]
    simp
  have hstep : step (graph.under key) (recordedRedVisitor (ω := ω) (graph.under key) seed)
      { search, state := closing } = _ := step_enter items offer hnew
  exact congrArg (perform · (world, record)) hstep

/-- An inner search stops at a cyan form. -/
theorem perform_step_red_closing (items : search.stack.items = top :: rest)
    (offer : search.offer top = some target)
    (hcyan : search.known.palette.color? (key target) = some .cyan) (world : ω)
    (record : List (Moment V K)) :
    perform ((machine (graph.under key) (recordedRedVisitor (graph.under key) seed)).step
        { search, state := closing }) (world, record) =
      (.ok (some .abort,
        { search := search.advance, state := some (top.vertex.getD seed, target) }),
        world, record) := by
  have hold : Store.knows search.known (key target) = true := by
    rw [RedStore.knows_iff, hcyan]
    simp
  have hstep : step (graph.under key) (recordedRedVisitor (ω := ω) (graph.under key) seed)
      { search, state := closing } = _ := step_revisit items offer hold
  have hvisit : (recordedRedVisitor (ω := ω) (graph.under key) seed).revisit top.vertex target
      search.advance closing = pure (.abort, some (top.vertex.getD seed, target)) := by
    refine (redVisitor_revisit_eq ..).trans ?_
    rw [known_advance, hcyan]
    rfl
  rw [hvisit, pure_bind] at hstep
  exact congrArg (perform · (world, record)) hstep

variable (accepting : V → Bool) {early : Bool} {poll : ExceptT Fault (StateM ω) Bool} {fuel : Nat}
  {outer : DepthSearch V (Std.HashSet K)} {blue : BlueState V K} (vertex : V)

/-- With late detection the outer search goes on when it meets a known form. -/
theorem step_blue_revisit (items : outer.stack.items = top :: rest)
    (offer : outer.offer top = some vertex) (old : Store.knows outer.known (key vertex) = true) :
    (machine (graph.under key) (recordedBlueVisitor fuel poll (graph.under key)
        (fun v => pure (accepting v)) false)).step { search := outer, state := blue } =
      pure (some .proceed, { search := outer.advance, state := blue }) := by
  have hstep : step (graph.under key) (recordedBlueVisitor fuel poll (graph.under key)
      (fun v => pure (accepting v)) false) { search := outer, state := blue } = _ :=
    step_revisit items offer old
  rw [recordedBlueVisitor_revisit, blueVisitor_revisit_eq, pure_bind] at hstep
  exact hstep

/-- The outer search paints what it leaves blue if it is not accepting. -/
theorem step_blue_leave (items : outer.stack.items = top :: rest) (offer : outer.offer top = none)
    (hv : top.vertex = some vertex) (haccepting : accepting vertex = false) :
    (machine (graph.under key) (recordedBlueVisitor fuel poll (graph.under key)
        (fun v => pure (accepting v)) early)).step { search := outer, state := blue } =
      pure (some .proceed, { search := outer.pop, state :=
        { blue with palette := blue.palette.paint (key vertex) .blue } }) := by
  have hstep : step (graph.under key) (recordedBlueVisitor fuel poll (graph.under key)
      (fun v => pure (accepting v)) early) { search := outer, state := blue } = _ :=
    step_leave items offer hv
  rw [recordedBlueVisitor_leave_eq, haccepting, if_neg Bool.false_ne_true, pure_bind] at hstep
  exact hstep

/-- The outer search starts an inner one when it leaves an accepting vertex, if it is not told to
stop. -/
theorem perform_step_blue_launch (items : outer.stack.items = top :: rest)
    (offer : outer.offer top = none) (hv : top.vertex = some vertex)
    (haccepting : accepting vertex = true) {world world' : ω} {record : List (Moment V K)}
    (hpoll : perform poll world = (.ok false, world')) {signal : Signal} {blue' : BlueState V K}
    {after : ω × List (Moment V K)}
    (hred : perform (recordedRedSearch fuel poll (graph.under key) vertex outer.pop.path blue)
      (world', record) = (.ok (signal, blue'), after)) :
    perform ((machine (graph.under key) (recordedBlueVisitor fuel poll (graph.under key)
        (fun v => pure (accepting v)) early)).step { search := outer, state := blue })
        (world, record) =
      (.ok (some signal, { search := outer.pop, state := blue' }), after) := by
  have hstep : (machine (graph.under key) (recordedBlueVisitor fuel poll (graph.under key)
      (fun v => pure (accepting v)) early)).step { search := outer, state := blue } = _ :=
    step_leave items offer hv
  rw [hstep, recordedBlueVisitor_leave_eq, haccepting, if_pos rfl, bind_assoc,
    perform_bind_of_ok (perform_offRecord hpoll record), if_neg Bool.false_ne_true,
    perform_bind_of_ok hred]
  rfl

variable {m : Type → Type} [Monad m] [LawfulMonad m] [Journal m] [Journal.Quiet m]
  [MonadExceptOf Fault m] {polled : m Bool} {source : V}

/-- With early detection the outer search stops at a cyan form if an accepting vertex lies between,
which the weights show. -/
theorem step_blue_closing (items : outer.stack.items = top :: rest)
    (offer : outer.offer top = some vertex) (hv : top.vertex = some source)
    (old : Store.knows outer.known (key vertex) = true)
    (hcyan : blue.palette.color? (key vertex) = some .cyan)
    (hlt : blue.palette.weight (key vertex) < blue.palette.weight (key source)) :
    (machine (graph.under key) (blueVisitor fuel polled (graph.under key)
        (fun v => pure (accepting v)) true)).step { search := outer, state := blue } =
      pure (some .abort, { search := outer.advance, state := { blue with findings :=
        { blue.findings with
          answer := .violated (.edge source vertex) (outer.path ++ [vertex]) } } }) := by
  have hstep : step (graph.under key) (blueVisitor fuel polled (graph.under key)
      (fun v => pure (accepting v)) true) { search := outer, state := blue } = _ :=
    step_revisit items offer old
  rw [blueVisitor_revisit_eq, pure_bind, hv, path_advance] at hstep
  simp only [metAgain, hcyan, hlt, decide_true, Bool.or_true, beq_self_eq_true, Bool.and_self,
    if_true] at hstep
  exact hstep

end Steps

/-! ## A run along a ray

The forms of the ray repeat after three vertices, of which the second is accepting. With late
detection the outer search meets the form of the first vertex when it has entered three, leaves the
third, and leaves the second. The inner search from there enters the third and meets the form of the
first. With early detection the outer search itself stops when it meets that form. -/

section Ray

/-- The outer search when it has entered so many vertices of the ray. -/
def alongRay : Nat → Session (DepthSearch Nat (Std.HashSet Nat)) (BlueState Nat Nat)
  | 0 => { search := fresh StateGraph.ray ∅ none, state := {} }
  | n + 1 =>
    { search := ((alongRay n).search.advance.learn (n % 3)).pushed StateGraph.ray n
      state := { (alongRay n).state with
        palette := (alongRay n).state.palette.enter (n % 3) ((n + 2) / 3) } }

theorem knows_alongRay (n k : Nat) :
    Store.knows (alongRay n).search.known k = true ↔ ∃ j < n, j % 3 = k := by
  induction n with
  | zero => simp [alongRay, fresh]
  | succ n ih =>
    have hlearn : Store.knows (alongRay (n + 1)).search.known k = true ↔
        Store.knows (alongRay n).search.known k = true ∨ k = n % 3 := HashSet.knows_learn _ _ _
    rw [hlearn, ih, Nat.exists_lt_succ_right, eq_comm (a := k)]

theorem cyan_alongRay (n k : Nat) :
    (alongRay n).state.palette.color? k = some .cyan ↔ ∃ j < n, j % 3 = k := by
  induction n with
  | zero => simp [alongRay, Palette.color?]
  | succ n ih =>
    rw [Nat.exists_lt_succ_right]
    by_cases hk : k = n % 3
    · simp [alongRay, hk, Palette.color?_enter_self]
    · have hsame : (alongRay (n + 1)).state.palette.color? k =
          (alongRay n).state.palette.color? k := Palette.color?_enter_of_ne _ _ hk
      rw [hsame, ih]
      simp [Ne.symm hk]

/-- The vertex that comes next, and the weight of the one before it. -/
theorem exists_items_alongRay (n : Nat) : ∃ top rest,
    (alongRay n).search.stack.items = top :: rest ∧ (alongRay n).search.offer top = some n ∧
    (top.vertex.elim 0 fun source => (alongRay n).state.palette.weight (source % 3)) =
      (n + 1) / 3 := by
  have hbound : (alongRay n).search.bound = none := by
    induction n with
    | zero => rfl
    | succ n ih => exact ih
  cases n with
  | zero => exact ⟨_, _, rfl, rfl, rfl⟩
  | succ n => exact ⟨_, _, rfl, offer_of_unbounded hbound, Palette.weight_enter_self ..⟩

/-- The first three vertices of the ray are entered one after the other. -/
theorem step_alongRay {m : Type → Type} [Monad m] [LawfulMonad m] [Journal m] [Journal.Quiet m]
    [MonadExceptOf Fault m] {fuel : Nat} {poll : m Bool} {early : Bool}
    {visitor : Visitor m Nat (DepthSearch Nat (Std.HashSet Nat)) (BlueState Nat Nat)}
    (henter : visitor.enter = (blueVisitor fuel poll (StateGraph.ray.under (· % 3))
      (fun v => pure (v % 3 == 1)) early).enter) {n : Nat} (hn : n < 3) :
    (machine (StateGraph.ray.under (· % 3)) visitor).step (alongRay n) =
      pure (some .proceed, alongRay (n + 1)) := by
  have hnew : Store.knows (alongRay n).search.known (n % 3) = false := by
    rw [← Bool.not_eq_true, knows_alongRay]
    rintro ⟨j, hj, hmod⟩
    omega
  have hweight : (n + 1) / 3 + (if n % 3 == 1 then 1 else 0) = (n + 2) / 3 := by
    simp only [beq_iff_eq]
    split <;> omega
  obtain ⟨top, rest, items, offer, hbelow⟩ := exists_items_alongRay n
  refine (step_enter items offer hnew).trans ?_
  rw [henter, blueVisitor_enter_eq, pure_bind, hbelow, hweight]
  rfl

/-- The inner search from the second vertex, with a budget as the world. -/
theorem perform_recordedRedSearch_ray (blue : BlueState Nat Nat)
    (hcyan : blue.palette.color? 0 = some .cyan) (hblue : blue.palette.color? 2 = some .blue)
    (fuel n : Nat) (record : List (Moment Nat Nat)) :
    let red := blue.palette.paint 2 .red
    perform (recordedRedSearch (fuel + 2) (modifyGet StepBudget.poll)
        (StateGraph.ray.under (· % 3)) 1 [0] blue) (⟨n + 2⟩, record) =
      (.ok (.abort, { palette := red, findings := { blue.findings with
        launched := blue.findings.launched + 1
        answer := .violated (.edge 2 3) [0, 1, 2, 3] } }), ⟨n⟩,
        record ++ [.between blue.palette, .entry 2, .between red, .between red]) := by
  intro red
  let graph := StateGraph.ray.rootedAfter 1
  let first := fresh graph ({ palette := blue.palette } : RedStore Nat) none
  let entered := (first.advance.learn 2).pushed graph 2
  let written : List (Moment Nat Nat) :=
    record ++ [Moment.between blue.palette] ++ [Moment.entry 2] ++ [Moment.between red]
  have hred : entered.known.palette.color? (3 % 3) = some .cyan := by
    rw [← hcyan]
    exact Palette.color?_paint_of_ne _ _ (by decide)
  have hrun : perform
      (((machine (graph.under (· % 3)) (recordedRedVisitor (graph.under (· % 3)) 1)).recording
        fun t => Moment.between t.search.known.palette).run
          (offRecord (modifyGet StepBudget.poll)) (fuel + 2) { search := first, state := none })
        (⟨n + 2⟩, record) =
      (.ok (.aborted, { search := entered.advance, state := some (2, 3) }), ⟨n⟩, written) := by
    have hfirst := perform_step_red_enter graph (· % 3) 1 first none 2 rfl rfl hblue
      (⟨n + 1⟩ : StepBudget) (record ++ [.between blue.palette])
    have hsecond := perform_step_red_closing graph (· % 3) 1 entered none 3 rfl rfl hred
      (⟨n⟩ : StepBudget) written
    rw [Machine.perform_run_recording_of_step (perform_poll_succ (n + 1)) hfirst]
    exact Machine.perform_run_recording_of_abort (perform_poll_succ n) hsecond _
  have hrecord : written ++ [.between red] =
      record ++ [.between blue.palette, .entry 2, .between red, .between red] := by simp [written]
  rw [recordedRedSearch_under, perform_bind_of_ok hrun, ← hrecord]
  rfl

/-- The outer search that keeps the record, with late detection. -/
def rayMachine : Machine (ExceptT Fault (StateM (StepBudget × List (Moment Nat Nat))))
    (Session (DepthSearch Nat (Std.HashSet Nat)) (BlueState Nat Nat)) :=
  machine (StateGraph.ray.under (· % 3)) (recordedBlueVisitor 20 (modifyGet StepBudget.poll)
    (StateGraph.ray.under (· % 3)) (fun v => pure (v % 3 == 1)) false)

/-- The outer search when it has met the form of the first vertex. -/
def rayMet : DepthSearch Nat (Std.HashSet Nat) := (alongRay 3).search.advance

/-- The colours when the third vertex has been left. -/
def rayLeft : Palette Nat := (alongRay 3).state.palette.paint 2 .blue

theorem cyan_rayLeft : rayLeft.color? 0 = some .cyan := by
  rw [rayLeft, Palette.color?_paint_of_ne _ _ (by decide)]
  exact (cyan_alongRay 3 0).2 ⟨0, by decide⟩

theorem blue_rayLeft : rayLeft.color? 2 = some .blue := by
  rw [rayLeft, Palette.color?_paint_self, (cyan_alongRay 3 2).2 ⟨2, by decide⟩]
  rfl

theorem step_rayMachine_met :
    rayMachine.step (alongRay 3) =
      pure (some .proceed, { search := rayMet, state := (alongRay 3).state }) := by
  obtain ⟨top, rest, items, offer, -⟩ := exists_items_alongRay 3
  have hold : Store.knows (alongRay 3).search.known 0 = true :=
    (knows_alongRay 3 0).2 ⟨0, by decide⟩
  exact step_blue_revisit StateGraph.ray (· % 3) (· % 3 == 1) 3 items offer hold

theorem step_rayMachine_left :
    rayMachine.step { search := rayMet, state := (alongRay 3).state } =
      pure (some .proceed, { search := rayMet.pop, state := { palette := rayLeft } }) :=
  step_blue_leave StateGraph.ray (· % 3) (· % 3 == 1) 2 rfl rfl rfl rfl

theorem perform_rayMachine_launch (n : Nat) (record : List (Moment Nat Nat)) :
    let closed := rayLeft.paint 2 .red
    perform (rayMachine.step { search := rayMet.pop, state := { palette := rayLeft } })
        (⟨n + 3⟩, record) =
      (.ok (some .abort, { search := rayMet.pop.pop, state :=
        { palette := closed, findings :=
          { launched := 1, answer := .violated (.edge 2 3) [0, 1, 2, 3] } } }), ⟨n⟩,
        record ++ [.between rayLeft, .entry 2, .between closed, .between closed]) :=
  perform_step_blue_launch StateGraph.ray (· % 3) (· % 3 == 1) 1 rfl rfl rfl rfl
    (perform_poll_succ (n + 2))
    (perform_recordedRedSearch_ray { palette := rayLeft } cyan_rayLeft blue_rayLeft 18 n record)

/-- The whole run asks nine times whether to stop. -/
theorem perform_recordedColored_ray (n : Nat) :
    let stacked := (alongRay 3).state.palette
    let closed := rayLeft.paint 2 .red
    perform (recordedColored 20 (modifyGet StepBudget.poll) (StateGraph.ray.under (· % 3))
        (fun v => pure (v % 3 == 1)) false) (⟨n + 9⟩, []) =
      (.ok (.violated (.edge 2 3) [0, 1, 2, 3]), ⟨n⟩,
        [.outer [] {}, .outer [0] (alongRay 1).state.palette,
          .outer [0, 1] (alongRay 2).state.palette, .outer [0, 1, 2] stacked,
          .outer [0, 1, 2] stacked, .outer [0, 1] rayLeft, .between rayLeft, .entry 2,
          .between closed, .between closed, .between closed]) := by
  intro stacked closed
  have henter : ∀ k < 3, rayMachine.step (alongRay k) = pure (some .proceed, alongRay (k + 1)) :=
    fun k hk => step_alongRay recordedBlueVisitor_enter hk
  have hrun : perform ((rayMachine.recording fun t => .outer t.search.path t.state.palette).run
      (offRecord (modifyGet StepBudget.poll)) 20 (alongRay 0)) (⟨n + 9⟩, []) =
      (.ok (.aborted, { search := rayMet.pop.pop, state := { palette := closed, findings :=
        { launched := 1, answer := .violated (.edge 2 3) [0, 1, 2, 3] } } }), ⟨n⟩,
        [.outer [] {}, .outer [0] (alongRay 1).state.palette,
          .outer [0, 1] (alongRay 2).state.palette, .outer [0, 1, 2] stacked,
          .outer [0, 1, 2] stacked, .outer [0, 1] rayLeft, .between rayLeft, .entry 2,
          .between closed, .between closed]) := by
    rw [Machine.perform_run_recording_of_pure (perform_poll_succ _) (henter 0 (by decide)) _ 19,
      Machine.perform_run_recording_of_pure (perform_poll_succ _) (henter 1 (by decide)) _ 18,
      Machine.perform_run_recording_of_pure (perform_poll_succ _) (henter 2 (by decide)) _ 17,
      Machine.perform_run_recording_of_pure (perform_poll_succ _) step_rayMachine_met _ 16,
      Machine.perform_run_recording_of_pure (perform_poll_succ _) step_rayMachine_left _ 15]
    exact Machine.perform_run_recording_of_abort (perform_poll_succ _)
      (perform_rayMachine_launch n _) 14
  rw [recordedColored_under]
  exact (perform_bind_of_ok hrun _).trans rfl

section Early

variable {m : Type → Type} [Monad m] [LawfulMonad m] [Journal m] [Journal.Quiet m]
  [MonadExceptOf Fault m]

/-- The outer search along the ray stops at the form of the first vertex, since the second is
accepting. -/
theorem step_alongRay_closing (fuel : Nat) (poll : m Bool) :
    (machine (StateGraph.ray.under (· % 3)) (blueVisitor fuel poll (StateGraph.ray.under (· % 3))
        (fun v => pure (v % 3 == 1)) true)).step (alongRay 3) =
      pure (some .abort, { search := rayMet, state := { (alongRay 3).state with
        findings := { answer := .violated (.edge 2 3) [0, 1, 2, 3] } } }) := by
  have hold := (knows_alongRay 3 0).2 ⟨0, by decide⟩
  have hcyan := (cyan_alongRay 3 0).2 ⟨0, by decide⟩
  have hfirst : (alongRay 3).state.palette.weight 0 = 0 := by
    simp only [alongRay]
    rw [Palette.weight_enter_of_ne _ _ (by decide), Palette.weight_enter_of_ne _ _ (by decide)]
    exact Palette.weight_enter_self _ _ _
  have hthird : (alongRay 3).state.palette.weight 2 = 1 := Palette.weight_enter_self _ _ _
  have hlt : (alongRay 3).state.palette.weight 0 < (alongRay 3).state.palette.weight 2 := by
    rw [hfirst, hthird]
    exact Nat.one_pos
  exact step_blue_closing StateGraph.ray (· % 3) (· % 3 == 1) 3 rfl rfl rfl hold hcyan hlt

/-- Along the ray the check with early detection asks four times whether to stop. -/
theorem colored_ray (fuel : Nat) (poll : m Bool) :
    colored (fuel + 4) poll (StateGraph.ray.under (· % 3)) (fun v => pure (v % 3 == 1)) true = do
      if ← poll then return .satisfied
      if ← poll then return .satisfied
      if ← poll then return .satisfied
      if ← poll then return .satisfied
      return .violated (.edge 2 3) [0, 1, 2, 3] := by
  let visitor : Visitor m Nat (DepthSearch Nat (Std.HashSet Nat)) (BlueState Nat Nat) :=
    blueVisitor (fuel + 4) poll (StateGraph.ray.under (· % 3)) (fun v => pure (v % 3 == 1)) true
  have henter : ∀ n < 3, (machine (StateGraph.ray.under (· % 3)) visitor).step (alongRay n) =
      pure (some .proceed, alongRay (n + 1)) := fun n hn => step_alongRay rfl hn
  have hclosing := step_alongRay_closing (fuel + 4) poll
  have hquiet : ∀ t,
      (machine (StateGraph.ray.under (· % 3)) visitor).noteCancelled t = pure () := by
    intro t
    simp [machine, noteCancelled]
  have hstart : colored (fuel + 4) poll (StateGraph.ray.under (· % 3))
      (fun v => pure (v % 3 == 1)) true =
      (machine (StateGraph.ray.under (· % 3)) visitor).run poll (fuel + 4) (alongRay 0) >>=
        fun result => Journal.debug _ >>= fun _ => pure result.2.state.findings.conclusion :=
    (congrArg (· >>= _) (start_under _ _)).trans (pure_bind _ _)
  simp only [hstart, Journal.debug_eq, pure_bind,
    Machine.run_bind_of_step (hquiet _) (henter 0 (by decide)),
    Machine.run_bind_of_step (hquiet _) (henter 1 (by decide)),
    Machine.run_bind_of_step (hquiet _) (henter 2 (by decide)),
    Machine.run_bind_of_step (hquiet _) hclosing]
  rfl

end Early

end Ray

end StateExplorer.NestedSearch
