import Mathlib.Data.Fintype.Card
import Mathlib.Logic.Hydra
import StateExplorer.Proofs.Visiting

/-!
# Searches that end

A search whose moves are well founded is over after finitely many steps. There are two reasons for
this to be so on a graph whose roots and neighbours are lists, whatever the order of the search:

* the store remembers, and the reachable vertices have finitely many canonical forms
  (`Agenda.terminates_of_finite`): each move discovers a form or reads on in the frames that are
  open;
* finitely many vertices are reachable and none of them lies on a cycle
  (`Agenda.terminates_of_acyclic`): each move replaces a waiting vertex by its neighbours or drops
  waiting vertices, whatever the store says.

If the visitor answers every call, then so does the run as a whole (`Responds.run`). A visitor may
need an allowance of its own, since it may run searches inside; it is given the one of the run.
-/

namespace StateExplorer

open Relation DepthSearch Event

/-! ## Well-founded moves -/

/-- Paths between finitely many vertices, none of which lies on a cycle, cannot be put together for
ever. -/
theorem StateGraph.wellFounded_transGen {V : Type} {graph : StateGraph Id V} {vertices : Set V}
    (finite : vertices.Finite) (acyclic : ∀ v ∈ vertices, ¬ graph.OnCycle v) :
    WellFounded fun w v : vertices => TransGen graph.Edge v.1 w.1 := by
  let below (w v : vertices) : Prop := TransGen graph.Edge v.1 w.1
  have : Finite vertices := finite
  have : IsTrans _ below := ⟨fun _ _ _ huv hvw => hvw.trans huv⟩
  have : Std.Irrefl below := ⟨fun v hv => acyclic v.1 v.2 hv⟩
  exact Finite.wellFounded_of_trans_of_irrefl below

/-- On the reachable part of a graph without cycles, edges cannot be followed for ever. -/
theorem StateGraph.wellFounded_edge {V : Type} {graph : StateGraph Id V}
    (finite : {v | graph.Reachable v}.Finite)
    (acyclic : ∀ v, graph.Reachable v → ¬ graph.OnCycle v) :
    WellFounded fun w v => graph.Reachable v ∧ graph.Edge v w := by
  have hbelow := wellFounded_transGen finite acyclic
  have hacc : ∀ v : {v | graph.Reachable v},
      Acc (fun w v => graph.Reachable v ∧ graph.Edge v w) v.1 := by
    intro v
    induction v using hbelow.induction with
    | h v ih =>
      refine ⟨_, fun w hw => ?_⟩
      exact ih ⟨w, hw.1.edge hw.2⟩ (.single hw.2)
  refine ⟨fun v => ⟨v, fun w hw => ?_⟩⟩
  exact hacc ⟨w, hw.1.edge hw.2⟩

namespace Agenda

variable {V K κ : Type} [Store κ K] {graph : StateGraph Id V} {key : V → K} {known : κ}
  {thorough : Prop}

/-- There is no infinite exploration. -/
def Terminates (graph : StateGraph Id V) (key : V → K) (thorough : Prop) (first : Agenda V κ) :
    Prop :=
  WellFounded fun next agenda : Agenda V κ => ∃ log events,
    Explores graph key thorough first log agenda ∧ Move graph key thorough agenda events next

/-- How much is left to do in the open frames. -/
def work (agenda : Agenda V κ) : Nat :=
  (agenda.frames.map fun frame => frame.successors.unread.length + 1).sum

/-- With a store that remembers, a search ends if the reachable vertices have finitely many
canonical forms. -/
theorem terminates_of_finite (finitary : graph.Finitary)
    (finite : (Set.image key {v | graph.Reachable v}).Finite) (faithful : Store.Faithful known) :
    Terminates graph key thorough (start graph known) := by
  classical
  let unknown (agenda : Agenda V κ) : Nat :=
    (finite.toFinset.filter fun k => Store.knows agenda.known k = false).card
  have hwf : WellFounded (InvImage (Prod.Lex (· < ·) (· < ·))
      fun agenda : Agenda V κ => (unknown agenda, agenda.work)) :=
    InvImage.wf _ (WellFounded.prod_lex Nat.lt_wfRel.wf Nat.lt_wfRel.wf)
  refine Subrelation.wf ?_ hwf
  rintro next agenda ⟨log, events, explores, move⟩
  have explores' := explores.step move
  cases move with
  | @enter frame others target frames peek new =>
    -- the form that is discovered is not unknown any more
    have hframe : frame ∈ agenda.frames := by simp [frames]
    apply Prod.Lex.left
    apply Finset.card_lt_card
    rw [Finset.ssubset_iff_of_subset]
    · have hmem : key target ∈ finite.toFinset := by
        rw [Set.Finite.mem_toFinset]
        exact ⟨target, explores.target_reachable hframe (explores.target_mem hframe peek), rfl⟩
      refine ⟨key target, Finset.mem_filter.2 ⟨hmem, new⟩, ?_⟩
      intro hafter
      have hknows := (explores'.knows_iff faithful (key target)).2
        (Or.inr (List.mem_map.2 ⟨target, by simp, rfl⟩))
      rw [(Finset.mem_filter.1 hafter).2] at hknows
      cases hknows
    · intro k hk
      rw [Finset.mem_filter] at hk ⊢
      refine ⟨hk.1, ?_⟩
      by_contra hknown
      rw [Bool.not_eq_false, explores.knows_iff faithful k] at hknown
      have hknows := (explores'.knows_iff faithful k).2
        (hknown.imp id fun h => by simpa using Or.inl (by simpa using h))
      rw [hk.2] at hknows
      cases hknows
  | @revisit frame others target frames peek old =>
    have hframe : frame ∈ agenda.frames := by simp [frames]
    have hread := (explores.reads hframe).1.unread_advance finitary peek
    apply Prod.Lex.right
    simp only [work, frames, Multiset.map_cons, Multiset.sum_cons, hread, List.length_cons]
    omega
  | @close frame others frames peek =>
    apply Prod.Lex.right
    simp only [work, frames, Multiset.map_cons, Multiset.sum_cons]
    omega

/-- Dropping vertices cuts a multiset down. -/
theorem transGen_cutExpand_add {r : V → V → Prop} {dropped : Multiset V} (h : dropped ≠ 0)
    (kept : Multiset V) : TransGen (CutExpand r) kept (kept + dropped) := by
  induction dropped using Multiset.induction_on with
  | empty => exact absurd rfl h
  | cons v dropped ih =>
    have hcut : CutExpand r (kept + dropped) (kept + v ::ₘ dropped) := by
      refine ⟨0, v, fun w hw => absurd hw (Multiset.notMem_zero w), ?_⟩
      rw [add_zero, add_assoc, add_comm dropped, Multiset.singleton_add]
    by_cases hempty : dropped = 0
    · subst hempty
      rw [add_zero] at hcut
      exact .single hcut
    · exact (ih hempty).tail hcut

/-- On a graph without cycles a search ends whether or not its store remembers. -/
theorem terminates_of_acyclic (finitary : graph.Finitary) (finite : {v | graph.Reachable v}.Finite)
    (acyclic : ∀ v, graph.Reachable v → ¬ graph.OnCycle v) :
    Terminates graph key thorough (start graph known) := by
  have hedge := StateGraph.wellFounded_edge finite acyclic
  have hwf : WellFounded (InvImage
      (Prod.Lex (TransGen (CutExpand fun w v => graph.Reachable v ∧ graph.Edge v w)) (· < ·))
      fun agenda : Agenda V κ => (agenda.waiting, agenda.frames.card)) :=
    InvImage.wf _ (WellFounded.prod_lex hedge.cutExpand.transGen Nat.lt_wfRel.wf)
  refine Subrelation.wf ?_ hwf
  rintro next agenda ⟨log, events, explores, move⟩
  cases move with
  | @enter frame others target frames peek new =>
    -- the vertex that is discovered is replaced by its neighbours
    have hframe : frame ∈ agenda.frames := by simp [frames]
    have hreach := explores.target_reachable hframe (explores.target_mem hframe peek)
    have hwaiting := waiting_enter (explores.reads hframe).1 finitary frames peek
    obtain ⟨neighbours, hneighbours⟩ := finitary (some target)
    rw [hneighbours] at hwaiting
    apply Prod.Lex.left
    refine .single ⟨neighbours, target, fun w hw => ⟨hreach, ?_⟩, hwaiting _⟩
    show w ∈ graph.after (some target)
    rw [hneighbours]
    exact hw
  | @revisit frame others target frames peek old =>
    have hframe : frame ∈ agenda.frames := by simp [frames]
    have hwaiting := waiting_revisit (explores.reads hframe).1 finitary frames peek
    apply Prod.Lex.left
    rw [← hwaiting agenda.known]
    exact transGen_cutExpand_add (Multiset.singleton_ne_zero target) _
  | @close frame others frames peek =>
    -- a frame may be closed before it has been read to its end
    have hwaiting := waiting_close frames agenda.known
    by_cases hread : (frame.successors.unread : Multiset V) = 0
    · have hcard : others.card < agenda.frames.card := by
        rw [frames, Multiset.card_cons]
        exact Nat.lt_succ_self _
      rw [hread, add_zero] at hwaiting
      simp only [InvImage, hwaiting]
      exact Prod.Lex.right _ hcard
    · apply Prod.Lex.left
      rw [← hwaiting]
      exact transGen_cutExpand_add hread _

end Agenda

section Moves

variable {V K κ : Type} [Store κ K] {graph : StateGraph Id V} {key : V → K} {known : κ}
  {bound : Option Nat}

/-- There is no infinite exploration. -/
def Terminates (graph : StateGraph Id V) (key : V → K) (first : DepthSearch V κ) : Prop :=
  WellFounded fun next search : DepthSearch V κ =>
    ∃ log events, Explores graph key first log search ∧ Move graph key search events next

theorem Agenda.Terminates.depthSearch
    (h : Agenda.Terminates graph key (bound = none) (Agenda.start graph known)) :
    StateExplorer.Terminates graph key (fresh graph known bound) := by
  refine Subrelation.wf ?_ (InvImage.wf DepthSearch.agenda h)
  rintro next search ⟨log, events, explores, move⟩
  exact ⟨log, events, explores.agenda, explores.bound_eq ▸ move.agenda⟩

theorem terminates_of_finite (finitary : graph.Finitary)
    (finite : (Set.image key {v | graph.Reachable v}).Finite) (faithful : Store.Faithful known) :
    Terminates graph key (fresh graph known bound) :=
  (Agenda.terminates_of_finite finitary finite faithful).depthSearch

theorem terminates_of_acyclic (finitary : graph.Finitary) (finite : {v | graph.Reachable v}.Finite)
    (acyclic : ∀ v, graph.Reachable v → ¬ graph.OnCycle v) :
    Terminates graph key (fresh graph known bound) :=
  (Agenda.terminates_of_acyclic finitary finite acyclic).depthSearch

end Moves

/-! ## Runs that end -/

/-- With large enough allowances for the machine and for the run, the run returns `result`. -/
def Machine.Halts {τ : Type} (machines : Nat → Machine (Except Fault) τ) (t : τ)
    (result : Outcome × τ) : Prop :=
  ∃ least, ∀ fuel steps, least ≤ fuel → least ≤ steps →
    (machines fuel).run (pure false) steps t = .ok result

namespace Machine

variable {τ : Type} {machines : Nat → Machine (Except Fault) τ} {t : τ}

theorem Halts.settles {result : Outcome × τ} (h : Halts machines t result) :
    Settles (fun fuel => (machines fuel).run (pure false) fuel t) result := by
  obtain ⟨least, hleast⟩ := h
  exact ⟨least, fun fuel hfuel => hleast fuel fuel hfuel hfuel⟩

section FirstStep

variable {machine : Machine (Except Fault) τ} {t' : τ}

theorem run_of_over (h : machine.step t = .ok (none, t')) (steps : Nat) :
    machine.run (pure false) (steps + 1) t = .ok (.exhausted, t') := by
  rw [Machine.run]
  show (machine.step t >>= _) = _
  rw [h]
  rfl

theorem run_of_abort (h : machine.step t = .ok (some .abort, t')) (steps : Nat) :
    machine.run (pure false) (steps + 1) t = .ok (.aborted, t') := by
  rw [Machine.run]
  show (machine.step t >>= _) = _
  rw [h]
  rfl

theorem run_of_proceed (h : machine.step t = .ok (some .proceed, t')) (steps : Nat) :
    machine.run (pure false) (steps + 1) t = machine.run (pure false) steps t' := by
  rw [Machine.run]
  show (machine.step t >>= _) = _
  rw [h]
  rfl

end FirstStep

/-- A run halts if its first step does and the rest of it halts. -/
theorem halts_of_step {signal : Option Signal} {t' : τ}
    (hstep : Settles (fun fuel => (machines fuel).step t) (signal, t'))
    (hrest : signal = some .proceed → ∃ result, Halts machines t' result) :
    ∃ result, Halts machines t result := by
  obtain ⟨n, hn⟩ := hstep
  rcases signal with _ | (_ | _)
  · refine ⟨(.exhausted, t'), n + 1, fun fuel steps hfuel hsteps => ?_⟩
    obtain ⟨steps, rfl⟩ := Nat.exists_eq_add_of_le' (Nat.le_trans (Nat.le_add_left 1 n) hsteps)
    exact run_of_over (hn fuel (Nat.le_of_succ_le hfuel)) steps
  · obtain ⟨result, k, hk⟩ := hrest rfl
    refine ⟨result, max n k + 1, fun fuel steps hfuel hsteps => ?_⟩
    obtain ⟨steps, rfl⟩ := Nat.exists_eq_add_of_le' (Nat.le_trans (Nat.le_add_left 1 _) hsteps)
    rw [run_of_proceed (hn fuel (by omega)) steps]
    exact hk fuel steps (by omega) (by omega)
  · refine ⟨(.aborted, t'), n + 1, fun fuel steps hfuel hsteps => ?_⟩
    obtain ⟨steps, rfl⟩ := Nat.exists_eq_add_of_le' (Nat.le_trans (Nat.le_add_left 1 n) hsteps)
    exact run_of_abort (hn fuel (Nat.le_of_succ_le hfuel)) steps

end Machine

section Runs

variable {V K κ σ : Type} [Store κ K] [Render V] {graph : StateGraph Id V} {key : V → K}
  {first : DepthSearch V κ}

/-- The visitor answers every call that it can get in an exploration. -/
structure Responds (graph : StateGraph Id V) (key : V → K) (first : DepthSearch V κ)
    (visitors : Nat → Visitor (Except Fault) V (DepthSearch V κ) σ) : Prop where
  enter : ∀ {log search top rest target} (state : σ),
    Explores graph key first log search → search.stack.items = top :: rest →
    search.offer top = some target →
    Converges fun fuel =>
      (visitors fuel).enter top.vertex target (search.advance.learn (key target)) state
  revisit : ∀ {log search top rest target} (state : σ),
    Explores graph key first log search → search.stack.items = top :: rest →
    search.offer top = some target →
    Converges fun fuel => (visitors fuel).revisit top.vertex target search.advance state
  leave : ∀ {log search top rest vertex} (state : σ),
    Explores graph key first log search → search.stack.items = top :: rest →
    top.vertex = some vertex →
    Converges fun fuel => (visitors fuel).leave vertex top search.pop state

/-! The steps of a search, one equation for each move. -/

section Equations

variable {m : Type → Type} [Monad m] [LawfulMonad m] [Journal m] [Journal.Quiet m]
  {space : StateSpace m V K} {visitor : Visitor m V (DepthSearch V κ) σ} {search : DepthSearch V κ}
  {state : σ} {top : Frame V} {rest : List (Frame V)} {target : V} {k : K}

omit [LawfulMonad m] [Journal.Quiet m] in
theorem step_over (items : search.stack.items = []) :
    step space visitor { search, state } = pure (none, { search, state }) := by
  unfold step
  simp only [items]

theorem step_enter_of_key (hkey : space.key target = pure k)
    (items : search.stack.items = top :: rest) (offer : search.offer top = some target)
    (new : Store.knows search.known k = false) :
    step space visitor { search, state } =
      visitor.enter top.vertex target (search.advance.learn k) state >>= fun result =>
        match result with
        | (.abort, state) => pure (some .abort, { search := search.advance.learn k, state })
        | (.proceed, state) => do
          return (some .proceed,
            { search := ← (search.advance.learn k).push space target, state }) := by
  have hnew : ¬ Store.knows search.advance.known k = true := by
    rw [known_advance, new]
    exact Bool.false_ne_true
  unfold step
  simp only [items, offer, hkey, pure_bind, Journal.trace_eq]
  exact if_neg hnew

theorem step_enter (items : search.stack.items = top :: rest)
    (offer : search.offer top = some target) (new : Store.knows search.known (key target) = false) :
    step (graph.under key) visitor { search, state } =
      visitor.enter top.vertex target (search.advance.learn (key target)) state >>= fun result =>
        match result with
        | (.abort, state) =>
          pure (some .abort, { search := search.advance.learn (key target), state })
        | (.proceed, state) => pure (some .proceed,
            { search := (search.advance.learn (key target)).pushed graph target, state }) := by
  rw [step_enter_of_key rfl items offer new]
  simp only [push_under, pure_bind]

theorem step_revisit_of_key (hkey : space.key target = pure k)
    (items : search.stack.items = top :: rest) (offer : search.offer top = some target)
    (old : Store.knows search.known k = true) :
    step space visitor { search, state } =
      visitor.revisit top.vertex target search.advance state >>= fun result =>
        pure (some result.1, { search := search.advance, state := result.2 }) := by
  unfold step
  simp [items, offer, hkey, old]

theorem step_revisit (items : search.stack.items = top :: rest)
    (offer : search.offer top = some target) (old : Store.knows search.known (key target) = true) :
    step (graph.under key) visitor { search, state } =
      visitor.revisit top.vertex target search.advance state >>= fun result =>
        pure (some result.1, { search := search.advance, state := result.2 }) :=
  step_revisit_of_key rfl items offer old

theorem step_leave {vertex : V} (items : search.stack.items = top :: rest)
    (offer : search.offer top = none) (some_vertex : top.vertex = some vertex) :
    step space visitor { search, state } =
      visitor.leave vertex top search.pop state >>= fun result =>
        pure (some result.1, { search := search.pop, state := result.2 }) := by
  unfold step
  simp [items, offer, some_vertex]

theorem step_finish (items : search.stack.items = top :: rest)
    (offer : search.offer top = none) (no_vertex : top.vertex = none) :
    step space visitor { search, state } =
      pure (some .proceed, { search := search.pop, state }) := by
  unfold step
  simp [items, offer, no_vertex]

end Equations

/-- A search ends with a result if there is no infinite exploration and its visitor answers. -/
theorem Responds.run {visitors : Nat → Visitor (Except Fault) V (DepthSearch V κ) σ}
    (responds : Responds graph key first visitors) (terminates : Terminates graph key first)
    {log : List (Event V)} {search : DepthSearch V κ} (state : σ)
    (explores : Explores graph key first log search) :
    ∃ result, Machine.Halts (fun fuel => machine (graph.under key) (visitors fuel))
      { search, state } result := by
  induction search using terminates.induction generalizing log state with
  | h search ih =>
    -- after a step that lets the search go on, the rest of the run halts by induction
    have hrest : ∀ {events next state' signal}, Move graph key search events next →
        signal = some Signal.proceed →
        ∃ result, Machine.Halts (fun fuel => machine (graph.under key) (visitors fuel))
          { search := next, state := state' } result :=
      fun move _ => ih _ ⟨log, _, explores, move⟩ _ (explores.step move)
    cases items : search.stack.items with
    | nil =>
      have hstep : Settles (fun fuel => (machine (graph.under key) (visitors fuel)).step
          { search, state }) (none, { search, state }) := ⟨0, fun _ _ => step_over items⟩
      exact Machine.halts_of_step hstep (fun h => by cases h)
    | cons top rest =>
      cases offer : search.offer top with
      | none =>
        cases hv : top.vertex with
        | none =>
          have hstep : Settles (fun fuel => (machine (graph.under key) (visitors fuel)).step
              { search, state }) (some .proceed, { search := search.pop, state }) :=
            ⟨0, fun _ _ => step_finish items offer hv⟩
          exact Machine.halts_of_step hstep (hrest (.finish items offer hv))
        | some vertex =>
          obtain ⟨⟨signal, state'⟩, htold⟩ := responds.leave state explores items hv
          have hstep : Settles (fun fuel => (machine (graph.under key) (visitors fuel)).step
              { search, state }) (some signal, { search := search.pop, state := state' }) :=
            htold.andThen (fun fuel => step_leave items offer hv) rfl
          exact Machine.halts_of_step hstep (hrest (.leave items offer hv))
      | some target =>
        cases hknown : Store.knows search.known (key target) with
        | true =>
          obtain ⟨⟨signal, state'⟩, htold⟩ := responds.revisit state explores items offer
          have hstep : Settles (fun fuel => (machine (graph.under key) (visitors fuel)).step
              { search, state }) (some signal, { search := search.advance, state := state' }) :=
            htold.andThen (fun fuel => step_revisit items offer hknown) rfl
          exact Machine.halts_of_step hstep (hrest (.revisit items offer hknown))
        | false =>
          obtain ⟨⟨signal, state'⟩, htold⟩ := responds.enter state explores items offer
          cases signal with
          | abort =>
            have hstep : Settles (fun fuel => (machine (graph.under key) (visitors fuel)).step
                { search, state })
                (some .abort, { search := search.advance.learn (key target), state := state' }) :=
              htold.andThen (fun fuel => step_enter items offer hknown) rfl
            exact Machine.halts_of_step hstep (fun h => by cases h)
          | proceed =>
            have hstep : Settles (fun fuel => (machine (graph.under key) (visitors fuel)).step
                { search, state }) (some .proceed,
                { search := (search.advance.learn (key target)).pushed graph target,
                  state := state' }) :=
              htold.andThen (fun fuel => step_enter items offer hknown) rfl
            exact Machine.halts_of_step hstep (hrest (.enter items offer hknown))

theorem Responds.converges {visitors : Nat → Visitor (Except Fault) V (DepthSearch V κ) σ}
    (responds : Responds graph key first visitors) (terminates : Terminates graph key first)
    (state : σ) :
    Converges fun fuel =>
      (machine (graph.under key) (visitors fuel)).run (pure false) fuel
        { search := first, state } := by
  obtain ⟨result, hresult⟩ := responds.run terminates state .refl
  exact ⟨result, hresult.settles⟩

end Runs

end StateExplorer
