import StateExplorer.Check.Answer
import StateExplorer.Proofs.Graph

/-!
# Lassos

A check for accepting cycles answers with a lasso: a walk from a root whose last vertex has the
canonical form of an earlier one, with an accepting vertex between the two. The witness is the last
edge of the walk.

A lasso passes `Answer.traceDefect?` whatever the canonical forms are. If these tell all vertices
apart, it also passes `Answer.lassoDefect?`. If vertices with the same canonical form can stand in
for each other, it shows a reachable accepting vertex that recurs.

Validation accepts more than the answers of the checks: the trace may also end before the witness,
and may visit a vertex more than once. The answers that pass are those whose witness is an edge that
`ClosesLoop` allows, and each of them shows a reachable accepting cycle.
-/

namespace StateExplorer

open Relation

/-- The trace leads from a root to `entry`, goes around the loop, and ends at a vertex `target` with
the canonical form of `entry`. The witness is its last edge. -/
def IsLasso {V K : Type} (graph : StateGraph Id V) (key : V → K) (accepting : V → Bool)
    (witness : Witness V) (trace : List V) : Prop :=
  ∃ stem entry loop target, trace = stem ++ entry :: loop ++ [target] ∧ graph.Walk none trace ∧
    key entry = key target ∧ (∃ v ∈ entry :: loop ++ [target], accepting v = true) ∧
    witness = .edge (loop.getLast?.getD entry) target

section Cycles

variable {V K : Type} {graph : StateGraph Id V} {key : V → K} {accepting : V → Bool}
  {witness : Witness V} {trace : List V}

/-- A lasso shows an accepting vertex from which a path leads to its canonical form, if vertices
with the same canonical form can stand in for each other. -/
theorem IsLasso.recurs (h : IsLasso graph key accepting witness trace)
    (compatible : graph.Compatible key accepting) :
    ∃ v, accepting v = true ∧ graph.Reachable v ∧ graph.Recurs key v := by
  obtain ⟨stem, entry, loop, target, rfl, hwalk, hkey, ⟨v, hv, haccepting⟩, -⟩ := h
  rw [List.append_assoc, List.cons_append, StateGraph.walk_append] at hwalk
  obtain ⟨hstem, hfirst, hloop⟩ := hwalk
  have hreach : graph.Reachable entry :=
    StateGraph.Walk.reachable (StateGraph.walk_concat.2 ⟨hstem, hfirst⟩)
  have hreach' : graph.Reachable target := hreach.trans hloop.transGen.to_reflTransGen
  have hentry : graph.Recurs key entry := ⟨target, hloop.transGen, hkey.symm⟩
  rw [List.mem_append, List.mem_cons, List.mem_singleton] at hv
  rcases hv with (rfl | hv) | rfl
  · exact ⟨v, haccepting, hreach, hentry⟩
  · -- the loop passes through `v`, and from `target` a path leads on to the canonical form of `v`
    obtain ⟨before, after, rfl⟩ := List.append_of_mem hv
    rw [List.append_assoc, List.cons_append, List.append_cons, StateGraph.walk_append] at hloop
    obtain ⟨hto, hback⟩ := hloop
    rw [List.getLast?_concat, Option.some_or] at hback
    have hthere := hto.transGen.to_reflTransGen
    obtain ⟨w, htw, hw⟩ :=
      StateGraph.exists_path_of_key_eq compatible.uniform hreach hreach' hkey hthere
    exact ⟨v, haccepting, hreach.trans hthere, w, hback.transGen.trans_left htw, hw⟩
  · exact ⟨entry, (compatible.stable hreach hreach' hkey).trans haccepting, hreach, hentry⟩

/-- A walk that comes back to the canonical form of one of its vertices is a lasso if it has an
accepting vertex from there on. -/
theorem isLasso_of_walk {stem loop : List V} {entry source target : V}
    (hwalk : graph.Walk none (stem ++ entry :: loop ++ [target])) (hkey : key entry = key target)
    (haccepting : ∃ v ∈ entry :: loop ++ [target], accepting v = true)
    (hsource : (entry :: loop).getLast? = some source) :
    IsLasso graph key accepting (.edge source target) (stem ++ entry :: loop ++ [target]) := by
  rw [List.getLast?_cons] at hsource
  exact ⟨stem, entry, loop, target, rfl, hwalk, hkey, haccepting, by rw [Option.some.inj hsource]⟩

/-- The way to a vertex, a way from it, and an edge from there to its canonical form are a lasso. -/
theorem isLasso_of_back {stem inner : List V} {seed source target : V}
    (hseed : accepting seed = true) (hstem : graph.Walk none (stem ++ [seed]))
    (hinner : (graph.rootedAt seed).Walk none (inner ++ [source]))
    (hback : target ∈ graph.after (some source)) (hkey : key target = key seed) :
    IsLasso graph key accepting (.edge source target) (stem ++ inner ++ [source, target]) := by
  obtain ⟨first, loop, hloop⟩ : ∃ first loop, inner ++ [source] = first :: loop := by
    cases inner with
    | nil => exact ⟨source, [], rfl⟩
    | cons first inner => exact ⟨first, inner ++ [source], rfl⟩
  rw [hloop] at hinner
  obtain ⟨rfl, hinner⟩ := StateGraph.walk_rootedAt.1 hinner
  have hlast : (first :: loop).getLast? = some source := by
    rw [← hloop, List.getLast?_concat]
  have htrace : stem ++ inner ++ [source, target] = stem ++ first :: loop ++ [target] := by
    rw [← hloop]
    simp
  rw [htrace]
  refine isLasso_of_walk ?_ hkey.symm ⟨first, by simp, hseed⟩ hlast
  rw [StateGraph.walk_concat]
  refine ⟨?_, ?_⟩
  · rw [List.append_cons, StateGraph.walk_append, List.getLast?_concat, Option.some_or]
    exact ⟨hstem, hinner⟩
  · rw [List.getLast?_append, hlast, Option.some_or, Option.some_or]
    exact hback

end Cycles

/-! ## Edges that close a cycle -/

section Closing

variable {V : Type} {graph : StateGraph Id V} {accepting : V → Bool} {source target : V}
  {trace : List V}

/-- The witness is the last vertex of a trace, or an edge that continues it or is its last edge. -/
def Witness.Ends (graph : StateGraph Id V) (trace : List V) : Witness V → Prop
  | .vertex target => trace.getLast? = some target
  | .edge source target => graph.Edge source target ∧
      (trace.getLast? = some source ∨ [source, target] <:+ trace)

/-- The edge from `source` to `target` closes a cycle of the trace with an accepting vertex on it:
from an occurrence of `target` on there is an accepting vertex, and the edge continues the trace, or
it is the last one of the trace and the occurrence is not the end. -/
def ClosesLoop (accepting : V → Bool) (source target : V) (trace : List V) : Prop :=
  ∃ stem tail, trace = stem ++ target :: tail ∧ (∃ v ∈ target :: tail, accepting v = true) ∧
    (trace.getLast? = some source ∨ ([source, target] <:+ trace ∧ tail ≠ []))

theorem pair_suffix_concat {source target last : V} {before : List V} :
    [source, target] <:+ before ++ [last] ↔ target = last ∧ before.getLast? = some source := by
  rw [List.getLast?_eq_some_iff]
  constructor
  · intro h
    obtain ⟨stem, hstem⟩ := h
    rw [← List.singleton_append, ← List.append_assoc] at hstem
    obtain ⟨hbefore, hlast⟩ := List.append_inj' hstem rfl
    exact ⟨List.head_eq_of_cons_eq hlast, stem, hbefore.symm⟩
  · intro h
    obtain ⟨rfl, stem, rfl⟩ := h
    exact ⟨stem, by simp⟩

theorem closesLoop_iff_index {path : List V} : ClosesLoop accepting source target path ↔
    ∃ i, path[i]? = some target ∧
      ((path.getLast? = some source ∧ ∃ v ∈ path.drop i, accepting v = true) ∨
        ([source, target] <:+ path ∧ i + 1 < path.length ∧ ∃ v ∈ path.drop i,
          accepting v = true)) := by
  constructor
  · intro h
    obtain ⟨stem, tail, rfl, haccepting, hend⟩ := h
    have hdrop : (stem ++ target :: tail).drop stem.length = target :: tail := List.drop_left
    refine ⟨stem.length, by simp, ?_⟩
    rw [hdrop]
    refine hend.imp (⟨·, haccepting⟩) fun h => ⟨h.1, ?_, haccepting⟩
    have hlength := List.length_pos_of_ne_nil h.2
    rw [List.length_append, List.length_cons]
    omega
  · intro h
    obtain ⟨i, htarget, hend⟩ := h
    obtain ⟨hi, rfl⟩ := List.getElem?_eq_some_iff.1 htarget
    have hsplit : path.take i ++ path[i] :: path.drop (i + 1) = path := by
      rw [← List.drop_eq_getElem_cons hi, List.take_append_drop]
    rw [List.drop_eq_getElem_cons hi] at hend
    refine ⟨path.take i, path.drop (i + 1), hsplit.symm, ?_⟩
    rcases hend with ⟨hlast, haccepting⟩ | ⟨hsuffix, hlength, haccepting⟩
    · exact ⟨haccepting, Or.inl hlast⟩
    · refine ⟨haccepting, Or.inr ⟨hsuffix, ?_⟩⟩
      rw [Ne, List.drop_eq_nil_iff]
      omega

theorem ClosesLoop.ne_nil (h : ClosesLoop accepting source target trace) : trace ≠ [] := by
  obtain ⟨stem, tail, rfl, -⟩ := h
  simp

theorem ClosesLoop.ends (h : ClosesLoop accepting source target trace) :
    trace.getLast? = some source ∨ [source, target] <:+ trace := by
  obtain ⟨stem, tail, -, -, hend⟩ := h
  exact hend.imp id And.left

/-- Such an edge shows a lasso: the trace up to its end if it is the last edge, or else the trace
with one more vertex. -/
theorem ClosesLoop.exists_isLasso (h : ClosesLoop accepting source target trace)
    (hwalk : graph.Walk none trace) (hedge : graph.Edge source target) :
    ∃ whole, IsLasso graph id accepting (.edge source target) whole := by
  obtain ⟨stem, tail, rfl, ⟨v, hv, haccepting⟩, hend⟩ := h
  rcases hend with hlast | ⟨hsuffix, hne⟩
  · refine ⟨_, @isLasso_of_walk _ _ _ _ _ stem tail target source target ?_ rfl
      ⟨v, List.mem_append_left [target] hv, haccepting⟩ ?_⟩
    · rw [StateGraph.walk_concat, hlast]
      exact ⟨hwalk, hedge⟩
    · rw [List.getLast?_append, List.getLast?_cons, Option.some_or] at hlast
      rw [List.getLast?_cons, hlast]
  · rcases List.eq_nil_or_concat tail with rfl | ⟨loop, last, rfl⟩
    · exact absurd rfl hne
    rw [List.concat_eq_append, ← List.cons_append, ← List.append_assoc] at hwalk hsuffix
    obtain ⟨rfl, hlast⟩ := pair_suffix_concat.1 hsuffix
    refine ⟨_, isLasso_of_walk hwalk rfl ⟨v, by simpa using hv, haccepting⟩ ?_⟩
    rw [List.getLast?_append, List.getLast?_cons, Option.some_or] at hlast
    rw [List.getLast?_cons, hlast]

/-- If canonical forms tell all vertices apart, the witness of a lasso closes a cycle of its
trace. -/
theorem IsLasso.closesLoop {K : Type} {key : V → K} {witness : Witness V}
    (h : IsLasso graph key accepting witness trace) (injective : Function.Injective key) :
    graph.Walk none trace ∧ ∃ source target, witness = .edge source target ∧
      graph.Edge source target ∧
      ClosesLoop accepting source target trace := by
  obtain ⟨stem, entry, loop, target, rfl, hwalk, hkey, ⟨v, hv, haccepting⟩, rfl⟩ := h
  obtain rfl := injective hkey
  have hlast : (stem ++ entry :: loop).getLast? = some (loop.getLast?.getD entry) := by
    rw [List.getLast?_append, List.getLast?_cons, Option.some_or]
  have hedge := (StateGraph.walk_concat.1 hwalk).2
  rw [hlast] at hedge
  exact ⟨hwalk, _, entry, rfl, hedge, stem, loop ++ [entry], by simp, ⟨v, hv, haccepting⟩,
    Or.inr ⟨pair_suffix_concat.2 ⟨rfl, hlast⟩, by simp⟩⟩

end Closing

/-! ## Validation -/

section Defects

variable {V K : Type} [BEq V] [LawfulBEq V] {m : Type → Type} [Monad m] [LawfulMonad m]
  [MonadExceptOf Fault m] {graph : StateGraph Id V} {fuel : Nat} {key : V → K}
  {accepting : V → Bool} {source target : V} {witness : Witness V} {trace : List V}

open Classical in
theorem StateGraph.anyM_after (fuel : Nat) (finitary : graph.Finitary) (source : Option V) (v : V) :
    (graph.after source).anyM fuel (fun w => return w == v) =
      (pure (decide (v ∈ graph.after source)) : m Bool) := by
  obtain ⟨items, hitems⟩ := finitary source
  have hfind : (items.find? (· == v)).isSome = decide (v ∈ items) := by
    rw [Bool.eq_iff_iff, List.find?_isSome]
    simp
  rw [hitems]
  change (items.findM? (fun w => pure (w == v)) >>= fun found => pure found.isSome) = _
  rw [List.findM?_pure, pure_bind, hfind]
  congr

open Classical in
theorem StateGraph.hasEdge_lift (fuel : Nat) (finitary : graph.Finitary) (u v : V) :
    (graph.lift : StateGraph m V).hasEdge fuel u v = pure (decide (graph.Edge u v)) := by
  have h : (pure (graph.after (some u)) >>= fun s =>
      s.anyM fuel (fun w => return w == v) : m Bool) = pure (decide (graph.Edge u v)) := by
    rw [pure_bind, StateGraph.anyM_after fuel finitary]
    rfl
  exact h

/-- A trace has a gap unless it can be read off the graph. -/
theorem StateGraph.gap?_lift (fuel : Nat) (finitary : graph.Finitary) (u : V) (l : List V)
    (index : Nat) :
    ∃ gap, (graph.lift : StateGraph m V).gap? fuel index (u :: l) = pure gap ∧
      (gap = none ↔ graph.Walk (some u) l) := by
  induction l generalizing u index with
  | nil => exact ⟨none, rfl, by simp⟩
  | cons v l ih =>
    rw [StateGraph.gap?, StateGraph.hasEdge_lift fuel finitary, pure_bind, walk_cons]
    by_cases hedge : v ∈ graph.after (some u)
    · obtain ⟨gap, hgap, hwalk⟩ := ih v (index + 1)
      have hdec : graph.Edge u v := hedge
      exact ⟨gap, by simp [hdec, hgap], by simp [hwalk, hedge]⟩
    · have hdec : ¬ graph.Edge u v := hedge
      exact ⟨some index, by simp [hdec], by simp [hedge]⟩

open Classical in
theorem Witness.fits_lift (fuel : Nat) (finitary : graph.Finitary) (witness : Witness V)
    (before : List V) (last : V) :
    witness.fits fuel (graph.lift : StateGraph m V) before.getLast? last =
      pure (decide (witness.Ends graph (before ++ [last]))) := by
  cases witness with
  | vertex target =>
    have hbeq : (target == last) = decide (last = target) := by
      rw [Bool.eq_iff_iff, beq_iff_eq, decide_eq_true_eq, eq_comm]
    simp only [Witness.fits, Witness.Ends, List.getLast?_concat, Option.some.injEq, hbeq]
  | edge source target =>
    have hends : (Witness.edge source target).Ends graph (before ++ [last]) ↔
        graph.Edge source target ∧
          (source == last || (target == last && before.getLast? == some source)) = true := by
      rw [Witness.Ends, List.getLast?_concat, Option.some.injEq, pair_suffix_concat,
        eq_comm (a := last)]
      simp only [Bool.or_eq_true, Bool.and_eq_true, beq_iff_eq]
    rw [Witness.fits, StateGraph.hasEdge_lift fuel finitary, pure_bind]
    by_cases hedge : graph.Edge source target
    · simp only [hedge, decide_true, if_true, hends, true_and, Bool.decide_eq_true]
    · simp [hedge, hends]

/-- A trace passes if it is a path from a root with the witness at its end. -/
theorem Answer.traceDefect?_lift (fuel : Nat) (finitary : graph.Finitary) (witness : Witness V)
    (trace : List V) :
    ∃ defect, Answer.traceDefect? fuel (graph.lift : StateGraph m V) (.violated witness trace) =
        pure defect ∧
      (defect = none ↔ trace ≠ [] ∧ graph.Walk none trace ∧ witness.Ends graph trace) := by
  rcases List.eq_nil_or_concat trace with rfl | ⟨before, last, rfl⟩
  · exact ⟨some .empty, rfl, by simp⟩
  rw [List.concat_eq_append]
  obtain ⟨first, rest, htrace⟩ :=
    List.exists_cons_of_ne_nil
      (List.append_ne_nil_of_right_ne_nil before (List.cons_ne_nil last []))
  have hlast : (first :: rest).getLast? = some last := by simp [← htrace]
  have hdrop : (first :: rest).dropLast = before := by simp [← htrace]
  obtain ⟨gap, hgap, hwalk⟩ := StateGraph.gap?_lift (m := m) fuel finitary first rest 0
  have hfits := Witness.fits_lift (m := m) fuel finitary witness before last
  have hroot := StateGraph.anyM_after (m := m) fuel finitary none first
  rw [htrace] at hfits ⊢
  have hroots : (graph.lift : StateGraph m V).roots = pure (graph.after none) := rfl
  unfold Answer.traceDefect?
  simp only [List.head?_cons, hlast, hdrop, hroots, pure_bind, hroot, hgap, hfits]
  by_cases hfirst : first ∈ graph.after none
  · rw [StateGraph.walk_cons, ← hwalk]
    cases gap with
    | some index => exact ⟨some (.disconnected index), by simp [hfirst], by simp⟩
    | none =>
      by_cases hends : witness.Ends graph (first :: rest)
      · exact ⟨none, by simp [hfirst, hends], by simp [hfirst, hends]⟩
      · exact ⟨some .witnessMismatch, by simp [hfirst, hends], by simp [hends]⟩
  · exact ⟨some .notRooted, by simp [hfirst], by simp [hfirst]⟩

/-- What follows the first occurrence of a vertex includes what follows a later one. -/
theorem exists_mem_dropWhile_iff {l : List V} :
    (∃ v ∈ l.dropWhile (· != target), accepting v = true) ↔
      ∃ stem tail, l = stem ++ target :: tail ∧ ∃ v ∈ target :: tail, accepting v = true := by
  induction l with
  | nil => simp
  | cons a l ih =>
    by_cases ha : a = target
    · subst ha
      rw [List.dropWhile_cons_of_neg (by simp)]
      constructor
      · intro h
        exact ⟨[], l, rfl, h⟩
      · intro h
        obtain ⟨stem, tail, hl, v, hv, haccepting⟩ := h
        exact ⟨v, hl ▸ List.mem_append_right stem hv, haccepting⟩
    · rw [List.dropWhile_cons_of_pos (by simp [ha]), ih]
      constructor
      · intro h
        obtain ⟨stem, tail, rfl, haccepting⟩ := h
        exact ⟨a :: stem, tail, rfl, haccepting⟩
      · intro h
        obtain ⟨stem, tail, hl, haccepting⟩ := h
        cases stem with
        | nil => exact absurd (List.head_eq_of_cons_eq hl) ha
        | cons b stem => exact ⟨stem, tail, List.tail_eq_of_cons_eq hl, haccepting⟩

open Classical in
theorem lassoBody_concat (before : List V) (last : V) :
    lassoBody source target (before ++ [last]) =
      if last = target ∧ (source ≠ target ∨ before.getLast? = some source) then before
      else before ++ [last] := by
  unfold lassoBody
  rw [List.getLast?_concat, List.dropLast_concat]
  exact if_congr (by simp) rfl rfl

/-- If the edge is at the end of the trace, the cycle that is looked for is one that it closes. -/
theorem exists_mem_lassoBody_iff
    (ends : trace.getLast? = some source ∨ [source, target] <:+ trace) :
    (∃ v ∈ (lassoBody source target trace).dropWhile (· != target), accepting v = true) ↔
      ClosesLoop accepting source target trace := by
  rw [exists_mem_dropWhile_iff]
  rcases List.eq_nil_or_concat trace with rfl | ⟨before, last, rfl⟩
  · simp at ends
  rw [List.concat_eq_append] at ends ⊢
  rw [ClosesLoop, lassoBody_concat]
  rw [List.getLast?_concat, Option.some.injEq, pair_suffix_concat] at ends ⊢
  by_cases hclosed : target = last ∧ before.getLast? = some source
  · -- the edge is the last one of the trace, so its target at the end does not count
    obtain ⟨rfl, hsource⟩ := hclosed
    rw [if_pos ⟨rfl, Or.inr hsource⟩]
    constructor
    · intro h
      obtain ⟨stem, tail, rfl, v, hv, haccepting⟩ := h
      exact ⟨stem, tail ++ [target], by simp, ⟨v, List.mem_append_left [target] hv, haccepting⟩,
        Or.inr ⟨⟨rfl, hsource⟩, by simp⟩⟩
    · intro h
      obtain ⟨stem, tail, hsplit, ⟨v, hv, haccepting⟩, hend⟩ := h
      rcases List.eq_nil_or_concat tail with rfl | ⟨tail', last, rfl⟩
      · -- the occurrence at the end counts only for an edge from `target` to itself
        obtain ⟨init, rfl⟩ := List.getLast?_eq_some_iff.1 hsource
        have htarget : target = source := hend.resolve_right fun h => h.2 rfl
        exact ⟨init, [], by rw [htarget], v, hv, haccepting⟩
      · rw [List.concat_eq_append, ← List.cons_append, ← List.append_assoc] at hsplit
        obtain ⟨hbefore, hlast⟩ := List.append_inj' hsplit rfl
        refine ⟨stem, tail', hbefore, v, ?_, haccepting⟩
        have hlast : target = last := List.head_eq_of_cons_eq hlast
        simpa [← hlast, or_comm] using hv
  · have hsource : last = source := ends.resolve_right hclosed
    have hbody : ¬ (last = target ∧ (source ≠ target ∨ before.getLast? = some source)) := by
      intro h
      obtain ⟨rfl, hother | hbefore⟩ := h
      · exact hother hsource.symm
      · exact hclosed ⟨rfl, hbefore⟩
    simp only [if_neg hbody, hsource, true_or, and_true]

/-- What passes as a lasso is a path from a root and an edge of the graph that closes a cycle of
it. -/
theorem Answer.lassoDefect?_lift (fuel : Nat) (finitary : graph.Finitary) (accepting : V → Bool)
    (witness : Witness V) (trace : List V) :
    ∃ defect, Answer.lassoDefect? fuel (graph.lift : StateGraph m V) (fun v => pure (accepting v))
        (.violated witness trace) = pure defect ∧
      (defect = none ↔ graph.Walk none trace ∧ ∃ source target,
        witness = .edge source target ∧ graph.Edge source target ∧
          ClosesLoop accepting source target trace) := by
  obtain ⟨defect, hdefect, hpath⟩ := traceDefect?_lift (m := m) fuel finitary witness trace
  unfold Answer.lassoDefect?
  rw [hdefect, pure_bind]
  cases defect with
  | some defect =>
    refine ⟨some defect, rfl, by simp, ?_⟩
    intro h
    obtain ⟨hwalk, source, target, rfl, hedge, hcloses⟩ := h
    exact hpath.2 ⟨hcloses.ne_nil, hwalk, hedge, hcloses.ends⟩
  | none =>
    obtain ⟨-, hwalk, hends⟩ := hpath.1 rfl
    cases witness with
    | vertex target => exact ⟨some .notALasso, rfl, by simp⟩
    | edge source target =>
      have hlasso : (graph.Walk none trace ∧ ∃ source' target',
          Witness.edge source target = .edge source' target' ∧ graph.Edge source' target' ∧
            ClosesLoop accepting source' target' trace) ↔
              ClosesLoop accepting source target trace := by
        constructor
        · intro h
          obtain ⟨-, source', target', heq, -, hcloses⟩ := h
          cases heq
          exact hcloses
        · exact fun hcloses => ⟨hwalk, source, target, rfl, hends.1, hcloses⟩
      rw [hlasso, ← exists_mem_lassoBody_iff hends.2, ← List.any_eq_true]
      dsimp only
      generalize (lassoBody source target trace).dropWhile (· != target) = cycle
      cases cycle with
      | nil => exact ⟨some .notALasso, rfl, by simp⟩
      | cons first rest =>
        dsimp only
        rw [List.anyM_pure, pure_bind]
        cases (first :: rest).any accepting with
        | true => exact ⟨none, rfl, by simp⟩
        | false => exact ⟨some .notAccepting, rfl, by simp⟩

/-- A walk from a root passes if the witness is its last edge, or its only vertex. -/
theorem Answer.traceDefect?_of_walk (finitary : graph.Finitary) {before : List V} {last : V}
    (hwalk : graph.Walk none (before ++ [last])) :
    Answer.traceDefect? fuel (graph.lift : StateGraph m V)
      (.violated (.ofEntry before.getLast? last) (before ++ [last])) = pure none := by
  have hends : (Witness.ofEntry before.getLast? last).Ends graph (before ++ [last]) := by
    rw [StateGraph.walk_concat, Option.or_none] at hwalk
    cases hsource : before.getLast? with
    | none => exact List.getLast?_concat
    | some source =>
      rw [hsource] at hwalk
      exact ⟨hwalk.2, Or.inr (pair_suffix_concat.2 ⟨rfl, hsource⟩)⟩
  obtain ⟨defect, hdefect, hpath⟩ :=
    traceDefect?_lift (m := m) fuel finitary (.ofEntry before.getLast? last) (before ++ [last])
  obtain rfl := hpath.2 ⟨by simp, hwalk, hends⟩
  exact hdefect

/-- A lasso is a path from a root with the witness at its end. -/
theorem IsLasso.traceDefect?_eq_none (h : IsLasso graph key accepting witness trace)
    (finitary : graph.Finitary) :
    Answer.traceDefect? fuel (graph.lift : StateGraph m V) (.violated witness trace) =
      pure none := by
  obtain ⟨stem, entry, loop, target, rfl, hwalk, -, -, rfl⟩ := h
  have hsource : (stem ++ entry :: loop).getLast? = some (loop.getLast?.getD entry) := by
    rw [List.getLast?_append, List.getLast?_cons, Option.some_or]
  have hpath : Answer.traceDefect? fuel (graph.lift : StateGraph m V) _ = _ :=
    Answer.traceDefect?_of_walk finitary hwalk
  rw [hsource] at hpath
  exact hpath

/-- If canonical forms tell all vertices apart, the witness of a lasso closes an accepting cycle. -/
theorem IsLasso.lassoDefect?_eq_none (h : IsLasso graph key accepting witness trace)
    (finitary : graph.Finitary) (injective : Function.Injective key) :
    Answer.lassoDefect? fuel (graph.lift : StateGraph m V) (fun v => pure (accepting v))
      (.violated witness trace) = pure none := by
  obtain ⟨hwalk, hcloses⟩ := h.closesLoop injective
  obtain ⟨defect, hdefect, hlasso⟩ :=
    Answer.lassoDefect?_lift (m := m) fuel finitary accepting witness trace
  obtain rfl := hlasso.2 ⟨hwalk, hcloses⟩
  exact hdefect

/-- Of the answers with a witness, those pass as lassos whose trace is a path from a root and whose
witness is an edge that leads back to a position of it: the trace ends before that edge or with it,
the position is not the end of the edge itself, and there is an accepting vertex from there on. Each
of them shows an accepting vertex on a cycle that can be reached. -/
theorem Answer.passes_as_lasso_iff (fuel : Nat) (finitary : graph.Finitary) (accepting : V → Bool)
    (witness : Witness V) (path : List V) :
    ∃ defect : Option TraceDefect,
      Answer.lassoDefect? fuel (graph.lift : StateGraph m V) (fun v => pure (accepting v))
        (.violated witness path) = pure defect ∧
      (defect = none ↔
        (∃ root ∈ graph.after none, path.head? = some root) ∧ path.IsChain graph.Edge ∧
        ∃ source target, witness = .edge source target ∧ graph.Edge source target ∧
          ∃ i, path[i]? = some target ∧
            ((path.getLast? = some source ∧ ∃ v ∈ path.drop i, accepting v = true) ∨
              ([source, target] <:+ path ∧ i + 1 < path.length ∧
                ∃ v ∈ path.drop i, accepting v = true))) ∧
      (defect = none → ∃ v, accepting v = true ∧ graph.Reachable v ∧ graph.OnCycle v) := by
  obtain ⟨defect, hdefect, hlasso⟩ :=
    Answer.lassoDefect?_lift (m := m) fuel finitary accepting witness path
  refine ⟨defect, hdefect, ?_, fun hnone => ?_⟩
  · simp only [hlasso, closesLoop_iff_index, ← and_assoc]
    refine and_congr_left fun h => ?_
    obtain ⟨source, target, -, i, hi, -⟩ := h
    refine StateGraph.walk_none_iff_isChain fun hnil => ?_
    simp [hnil] at hi
  · obtain ⟨hwalk, source, target, -, hedge, hcloses⟩ := hlasso.1 hnone
    obtain ⟨whole, hwhole⟩ := hcloses.exists_isLasso hwalk hedge
    obtain ⟨v, haccepting, hreach, hrecurs⟩ := hwhole.recurs (graph.compatible_id accepting)
    exact ⟨v, haccepting, hreach, StateGraph.recurs_id.1 hrecurs⟩

/-- Three edges, where 2 is accepting. The loop at 1 leads back to the first vertex of a path that
ends with that loop. The edge from 1 to 2 leads back to no vertex of a path that ends with it. -/
theorem Answer.passes_as_lasso_iff_loop :
    let graph : StateGraph Id Nat :=
      { roots := .finite [1], neighbours := fun v => .finite (if v = 1 then [1, 2] else [1]) }
    let accepting : Nat → Bool := fun v => v == 2
    Answer.lassoDefect? 0 (graph.lift : StateGraph (Except Fault) Nat) (fun v => pure (accepting v))
        (.violated (.edge 1 1) [1, 2, 1, 1]) = pure none ∧
      (∃ v, accepting v = true ∧ graph.Reachable v ∧ graph.OnCycle v) ∧
      Answer.lassoDefect? 0 (graph.lift : StateGraph (Except Fault) Nat)
        (fun v => pure (accepting v))
        (.violated (.edge 1 2) [1, 2]) ≠ pure none := by
  intro graph accepting
  have finitary : graph.Finitary := by
    intro source
    cases source with
    | none => exact ⟨[1], rfl⟩
    | some v => exact ⟨if v = 1 then [1, 2] else [1], rfl⟩
  have hedge : ∀ u v, v ∈ (if u = 1 then [1, 2] else [1]) → graph.Edge u v := by
    intro u v h
    exact h
  have hloop : Answer.lassoDefect? 0 (graph.lift : StateGraph (Except Fault) Nat)
      (fun v => pure (accepting v)) (.violated (.edge 1 1) [1, 2, 1, 1]) = pure none ∧
      ∃ v, accepting v = true ∧ graph.Reachable v ∧ graph.OnCycle v := by
    obtain ⟨defect, hdefect, hpasses, hcycle⟩ := Answer.passes_as_lasso_iff (m := Except Fault) 0
      finitary accepting (.edge 1 1) [1, 2, 1, 1]
    have hchain : [1, 2, 1, 1].IsChain graph.Edge :=
      .cons_cons (hedge 1 2 (by decide)) (.cons_cons (hedge 2 1 (by decide))
        (.cons_cons (hedge 1 1 (by decide)) (.singleton 1)))
    obtain rfl := hpasses.2 ⟨⟨1, List.mem_singleton.2 rfl, rfl⟩, hchain, 1, 1, rfl,
      hedge 1 1 (by decide), 0, rfl, Or.inl ⟨rfl, 2, by decide, rfl⟩⟩
    exact ⟨hdefect, hcycle rfl⟩
  refine ⟨hloop.1, hloop.2, ?_⟩
  obtain ⟨defect, hdefect, hpasses, -⟩ := Answer.passes_as_lasso_iff (m := Except Fault) 0
    finitary accepting (.edge 1 2) [1, 2]
  intro hnone
  have hpass : defect = none := Except.ok.inj (hdefect.symm.trans hnone)
  obtain ⟨-, -, source, target, heq, -, i, hi, hend⟩ := hpasses.1 hpass
  cases heq
  rcases hend with ⟨hlast, -⟩ | ⟨-, hlength, -⟩
  · exact absurd hlast (by decide)
  · obtain rfl : i = 0 := by
      simp only [List.length_cons, List.length_nil] at hlength
      omega
    exact absurd hi (by decide)

end Defects

end StateExplorer
