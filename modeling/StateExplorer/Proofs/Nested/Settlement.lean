import StateExplorer.Proofs.Nested.Coloring

/-!
# Why red vertices are not looked at again

An inner search leaves red vertices alone, whichever inner search has painted them. This is right
because of what holds at the start of each step of the outer search (`Settled`): whatever a red
vertex leads to is red, so that no accepting cycle is within its reach, and a blue vertex leads to
vertices that the outer search has come to. Each inner search that ends without a hit establishes
this anew.

The record of a check tells of these moments (`colors_are_settled`). What the visitor of the outer
search upholds holds of each of them, and the inner searches write down nothing of this kind.
-/

namespace StateExplorer.NestedSearch

open Relation DepthSearch Event

/-! ## What is settled -/

section Settled

variable {V : Type} [BEq V] [Hashable V] {graph : StateGraph Id V} {accepting : V → Bool}

/-- What the colours say between two steps of the outer search, if each vertex is a state of its
own. -/
structure Settled (graph : StateGraph Id V) (accepting : V → Bool) (palette : Palette V) :
    Prop where
  red_next : ∀ ⦃u v⦄, palette.color? u = some .red → graph.Edge u v → palette.color? v = some .red
  blue_next : ∀ ⦃u v⦄, palette.color? u = some .blue → graph.Edge u v → palette.color? v ≠ none
  red_vain : ∀ ⦃u v⦄, palette.color? u = some .red → ReflTransGen graph.Edge u v →
    accepting v = true → ¬ graph.OnCycle v

variable [LawfulBEq V] [LawfulHashable V]

theorem Underway.settled {log : List (Event V)} {search : DepthSearch V (Std.HashSet V)}
    {blue : BlueState V V} (h : Underway graph id accepting log search blue)
    (explores : Explores graph id (fresh graph (∅ : Std.HashSet V) none) log search) :
    Settled graph accepting blue.palette := by
  have compatible := graph.compatible_id accepting
  have hshaded := h.shaded compatible
  have hreach : ∀ {u color}, blue.palette.color? u = some color → graph.Reachable u := by
    intro u color hcolor
    by_contra hunreached
    have hwhite : blue.palette.color? u = none := by
      rw [hshaded.white_iff, List.map_id]
      exact fun hmem => hunreached (explores.reachable hmem)
    rw [hcolor] at hwhite
    cases hwhite
  have hnext : ∀ ⦃u v⦄, blue.palette.color? u = some .red → graph.Edge u v →
      blue.palette.color? v = some .red := fun u v hu hedge =>
    hshaded.red_next (hreach hu) hu hedge
  refine ⟨hnext, ?_, ?_⟩
  · intro u v hu hedge
    refine hshaded.colored_of_blue explores compatible ?_ (hreach hu) hu hedge
    intro w hw
    exact (h.tinted.cyan_iff w).2 (List.mem_map_of_mem hw)
  · intro u v hu hpath
    have hv : blue.palette.color? v = some .red := by
      induction hpath with
      | refl => exact hu
      | tail _ hedge ih => exact hnext ih hedge
    rw [← StateGraph.recurs_id]
    exact hshaded.red_vain (hreach hv) hv

end Settled

/-! ## What is written down -/

section Records

variable {V K ω : Type} [BEq K] [Hashable K] {graph : StateGraph Id V} {key : V → K}
  {accepting : V → Bool} {fuel : Nat} {poll : ExceptT Fault (StateM ω) Bool} {early : Bool}

/-- What is asked of the colours at the start of a step of the outer search. Nothing is asked of the
other moments. -/
def Moment.Asks (p : Palette K → Prop) : Moment V K → Prop
  | outer _ palette => p palette
  | between _ => True
  | entry _ => True

variable {p : Palette K → Prop}

theorem redVisitor_transcribes (seed : V) :
    Transcribes (Spotless (Moment.Asks p)) (recordedRedVisitor (ω := ω) (graph.under key) seed)
      (redVisitor (graph.under key) seed) where
  enter source target search closing := by
    refine Recorded.writeDown (.pure (a := (Signal.proceed, closing)) fun record
      (h : Spotless (Moment.Asks p) record) => h) ?_
    intro record h
    exact spotless_concat.2 ⟨h, True.intro⟩
  revisit source target search closing :=
    .of_pure (redVisitor_revisit_eq ..) (redVisitor_revisit_eq ..) fun _ h => h
  leave _ _ _ _ := .pure fun _ h => h

variable [Render V]

/-- What the outer search makes of the end of an inner search is nothing that the record tells. -/
theorem concludeRed_transcribed {Sound : List (Moment V K) → Prop} (seed : V) (path : List V)
    (blue : BlueState V K)
    (result : Outcome × Session (DepthSearch V (RedStore K)) (Option (V × V))) :
    Recorded (ω := ω) Sound Sound (concludeRed (graph.under key) seed path blue result)
      (concludeRed (graph.under key) seed path blue result) fun _ => Sound := by
  obtain ⟨outcome, search, closing⟩ := result
  unfold concludeRed
  simp only [Journal.trace_eq, Journal.debug_eq, pure_bind, StateGraph.under]
  cases outcome with
  | exhausted => exact .pure fun _ h => h
  | aborted =>
    cases closing with
    | none => exact .pure fun _ h => h
    | some edge => exact .pure fun _ h => h
  | cancelled => exact .pure fun _ h => h

/-- An inner search writes down no step of the outer search. -/
theorem redSearch_transcribed (seed : V) (path : List V) (blue : BlueState V K) :
    Recorded (Spotless (Moment.Asks p)) (Spotless (Moment.Asks p))
      (recordedRedSearch fuel poll (graph.under key) seed path blue)
      (redSearch fuel poll (graph.under key) seed path blue) fun _ => Spotless (Moment.Asks p) := by
  rw [redSearch_eq]
  unfold recordedRedSearch
  refine .of_pure_bind (start_redSearch seed _) (start_redSearch seed _) ?_
  have hupholds : Upholds (graph.rootedAfter seed) key
      (fresh (graph.rootedAfter seed) ({ palette := blue.palette } : RedStore K) none)
      (redVisitor (m := ExceptT Fault (StateM ω)) ((graph.rootedAfter seed).under key) seed)
      (fun _ _ _ => True) (fun _ _ => True) := .vacuous
  refine Recorded.bind (?_ : Recorded _ _ _ _ fun _ => Spotless (Moment.Asks p)) fun result => ?_
  · refine hupholds.run_transcribed (redVisitor_transcribes seed) ?_ poll fuel .refl True.intro
    exact fun _ _ => True.intro
  · exact Recorded.writeDown (concludeRed_transcribed seed path blue result) fun record h =>
      spotless_concat.2 ⟨h, True.intro⟩

theorem blueVisitor_transcribes :
    Transcribes (Spotless (Moment.Asks p))
      (recordedBlueVisitor (κ := Std.HashSet K) fuel poll (graph.under key)
        (fun v => pure (accepting v)) early)
      (blueVisitor fuel poll (graph.under key) (fun v => pure (accepting v)) early) where
  enter source target search blue := by
    rw [recordedBlueVisitor_enter, blueVisitor_enter_eq, blueVisitor_enter_eq]
    exact .pure fun _ h => h
  revisit source target search blue := by
    rw [recordedBlueVisitor_revisit, blueVisitor_revisit_eq, blueVisitor_revisit_eq]
    exact .pure fun _ h => h
  leave vertex frame search blue := by
    rw [recordedBlueVisitor_leave_eq, blueVisitor_leave_eq]
    split
    · refine (Recorded.offRecord poll fun _ h => h).bind fun stop => ?_
      cases stop with
      | true => exact .pure fun _ h => h
      | false => exact redSearch_transcribed vertex search.path blue
    · exact .pure fun _ h => h

end Records

/-! ## The whole check -/

section Check

variable {V ω : Type} [BEq V] [LawfulBEq V] [Hashable V] [LawfulHashable V] [Render V]

/-- In a check with colours in which each vertex is a state of its own, whatever the graph, the
accepting vertices and the polls are, with or without early detection, and whether or not it comes
to its end: at the start of each step of the outer search all neighbours of red vertices are red,
all neighbours of blue vertices have a colour, and no red vertex leads to an accepting vertex that
lies on a cycle. The check that keeps the record of these moments answers the same and makes the
same of the world. -/
theorem colors_are_settled (graph : StateGraph Id V) (accepting : V → Bool) (early : Bool)
    (poll : ExceptT Fault (StateM ω) Bool) (fuel : Nat) (world : ω) :
    ∃ result world' record,
      perform (recordedColored fuel poll graph.lift.space (fun v => pure (accepting v)) early)
        (world, []) = (result, world', record) ∧
      perform (colored fuel poll graph.lift.space (fun v => pure (accepting v)) early) world =
        (result, world') ∧
      ∀ path palette, Moment.outer path palette ∈ record → Settled graph accepting palette := by
  have hupholds : Upholds graph id (fresh graph (∅ : Std.HashSet V) none)
      (blueVisitor fuel poll (graph.under id) (fun v => pure (accepting v)) early)
      (Underway graph id accepting) _ := blueVisitor_upholds
  have hsearch : RecordedSearch graph id (fresh graph (∅ : Std.HashSet V) none)
      (Spotless (Moment.Asks (Settled graph accepting)))
      (recordedBlueVisitor fuel poll (graph.under id) (fun v => pure (accepting v)) early)
      (blueVisitor fuel poll (graph.under id) (fun v => pure (accepting v)) early)
      (fun t => .outer t.search.path t.state.palette) _ _ :=
    hupholds.transcribed blueVisitor_transcribes fun explores held => held.settled explores
  have hrecorded := colored_recorded_of_search hsearch
    ⟨.refl, underway_first graph id accepting, fun _ hmem => absurd hmem List.not_mem_nil⟩
    (fun h => spotless_concat.2 ⟨h.spotless, True.intro⟩)
    (fun h => spotless_concat.2 ⟨h, True.intro⟩)
  obtain ⟨result, world', record, hrecord, halone, hspotless⟩ := hrecorded world [] rfl
  refine ⟨result, world', record, hrecord, halone, fun path palette hmem => ?_⟩
  cases result with
  | error fault => exact hspotless _ hmem
  | ok answer => exact hspotless _ hmem

end Check

/-- An endless comb with a budget as the world. Each tooth is left with its accepting vertex and the
one below it red, before the search goes on along the back. -/
theorem colors_are_settled_comb :
    let graph : StateGraph Id Nat :=
      { roots := .finite [0]
        neighbours := fun n =>
          .finite (if n % 3 = 0 then [n + 1, n + 3] else if n % 3 = 1 then [n + 1] else []) }
    let accepting : Nat → Bool := fun n => n % 3 == 1
    let poll : ExceptT Fault (StateM StepBudget) Bool := modifyGet StepBudget.poll
    ∃ result world record,
      perform (recordedColored 30 poll graph.lift.space (fun v => pure (accepting v)) true)
        (⟨25⟩, []) = (result, world, record) ∧
      perform (colored 30 poll graph.lift.space (fun v => pure (accepting v)) true) ⟨25⟩ =
        (result, world) ∧
      ∀ path palette, Moment.outer path palette ∈ record → Settled graph accepting palette := by
  intro graph accepting poll
  exact colors_are_settled graph accepting true poll 30 ⟨25⟩

end StateExplorer.NestedSearch
