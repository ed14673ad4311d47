import StateExplorer.Proofs.Lasso

/-!
# Answers and maps of graphs

A function that sends the roots of a graph to roots of another one, and edges to edges, sends
answers that fit the first graph to answers that fit the second. It may send several vertices to
one, and then the image of an answer passes for another reason than the answer itself: a trace that
ended before the witness may now end with it, and its cycle may be entered earlier. So what passes
is first said without regard to how it is found out (`Answer.Fits`, `Answer.FitsAsLasso`), and that
is kept by the function.

The sequences of roots and neighbours may be endless here. Then validation may never tell that an
edge is missing, but it does tell that one is there (`Confirms`).
-/

namespace StateExplorer

/-! ## Validation on any graph -/

section Validation

variable {V : Type}

/-- The answer has no counterexample, or its trace is a path from a root with the witness at its
end. -/
def Answer.Fits (graph : StateGraph Id V) : Answer V → Prop
  | .satisfied => True
  | .violated witness trace => trace ≠ [] ∧ graph.Walk none trace ∧ witness.Ends graph trace

/-- The answer has no counterexample, or its trace is a path from a root and its witness is an edge
that closes a cycle of the trace with an accepting vertex on it. -/
def Answer.FitsAsLasso (graph : StateGraph Id V) (accepting : V → Bool) : Answer V → Prop
  | .satisfied => True
  | .violated witness trace => graph.Walk none trace ∧ ∃ source target,
      witness = .edge source target ∧ graph.Edge source target ∧
        ClosesLoop accepting source target trace

variable [BEq V] [LawfulBEq V] (graph : StateGraph Id V)

theorem StateGraph.hasEdge_confirms (u v : V) :
    Confirms (fun fuel => (graph.lift : StateGraph (Except Fault) V).hasEdge fuel u v) true
      (graph.Edge u v) :=
  Sequence.anyM_confirms (graph.after (some u)) v

theorem StateGraph.gap?_confirms (u : V) (l : List V) (index : Nat) :
    Confirms (fun fuel => (graph.lift : StateGraph (Except Fault) V).gap? fuel index (u :: l)) none
      (graph.Walk (some u) l) := by
  induction l generalizing u index with
  | nil => exact .of_ok (by simp)
  | cons v l ih =>
    refine (graph.hasEdge_confirms u v).bind (ih v (index + 1)) ?_
    intro fuel b hb h
    rw [if_neg hb] at h
    cases h

theorem Witness.fits_confirms (witness : Witness V) (before : List V) (last : V) :
    Confirms (fun fuel => witness.fits fuel (graph.lift : StateGraph (Except Fault) V)
      before.getLast? last)
      true (witness.Ends graph (before ++ [last])) := by
  cases witness with
  | vertex target =>
    refine .of_ok ?_
    rw [Witness.Ends, List.getLast?_concat, beq_iff_eq, Option.some.injEq, eq_comm]
  | edge source target =>
    refine (graph.hasEdge_confirms source target).bind (.of_ok ?_) ?_
    · rw [List.getLast?_concat, Option.some.injEq, pair_suffix_concat, eq_comm (a := last)]
      simp only [Bool.or_eq_true, Bool.and_eq_true, beq_iff_eq]
    · intro fuel b hb h
      rw [if_neg hb] at h
      cases h

theorem Answer.traceDefect?_confirms (answer : Answer V) :
    Confirms (fun fuel => answer.traceDefect? fuel (graph.lift : StateGraph (Except Fault) V)) none
      (answer.Fits graph) := by
  cases answer with
  | satisfied => exact .of_ok (by simp [Answer.Fits])
  | violated witness trace =>
    rcases List.eq_nil_or_concat trace with rfl | ⟨before, last, rfl⟩
    · exact .of_ok (by simp [Answer.Fits])
    rw [List.concat_eq_append]
    obtain ⟨first, rest, htrace⟩ :=
      List.exists_cons_of_ne_nil
        (List.append_ne_nil_of_right_ne_nil before (List.cons_ne_nil last []))
    have hlast : (first :: rest).getLast? = some last := by simp [← htrace]
    have hdrop : (first :: rest).dropLast = before := by simp [← htrace]
    have hend : Confirms (fun fuel => witness.fits fuel (graph.lift : StateGraph (Except Fault) V)
        before.getLast? last >>= fun fits =>
          if fits = true then pure none else pure (some TraceDefect.witnessMismatch))
        none (witness.Ends graph (first :: rest)) :=
      htrace ▸ (witness.fits_confirms graph before last).verdict (Option.some_ne_none _)
    have hroots : (graph.lift : StateGraph (Except Fault) V).roots = pure (graph.after none) := rfl
    rw [htrace]
    unfold Answer.traceDefect?
    simp only [List.head?_cons, hlast, hdrop, hroots, pure_bind]
    refine ((Sequence.anyM_confirms (graph.after none) first).bind
      ((graph.gap?_confirms first rest 0).bind hend ?_) ?_).congr ?_
    · intro fuel gap hgap h
      obtain ⟨index, rfl⟩ := Option.ne_none_iff_exists'.1 hgap
      cases h
    · intro fuel b hb h
      rw [Bool.eq_false_iff.2 hb] at h
      cases h
    · simp [Answer.Fits, and_assoc]

theorem Answer.lassoDefect?_confirms (accepting : V → Bool) (answer : Answer V) :
    Confirms (fun fuel => answer.lassoDefect? fuel (graph.lift : StateGraph (Except Fault) V)
      fun v => pure (accepting v)) none (answer.FitsAsLasso graph accepting) := by
  have hfits := answer.traceDefect?_confirms graph
  cases answer with
  | satisfied => exact .of_ok (by simp [Answer.FitsAsLasso])
  | violated witness trace =>
    have hdefect : ∀ {f : Option TraceDefect → Except Fault (Option TraceDefect)},
        (∀ defect, f (some defect) = .ok (some defect)) → ∀ defect ≠ none, f defect ≠ .ok none := by
      intro f hf defect hsome h
      obtain ⟨found, rfl⟩ := Option.ne_none_iff_exists'.1 hsome
      cases (hf found).symm.trans h
    cases witness with
    | vertex target =>
      have hnone : Confirms (fun _ =>
          (.ok (some .notALasso) : Except Fault (Option TraceDefect))) none
          False := .of_ok (by simp)
      refine (hfits.bind hnone ?_).congr (by simp [Answer.FitsAsLasso])
      exact fun _ => hdefect fun _ => rfl
    | edge source target =>
      refine (hfits.bind (q := ∃ v ∈ (lassoBody source target trace).dropWhile (· != target),
        accepting v = true) ?_ ?_).congr ?_
      · dsimp only
        generalize (lassoBody source target trace).dropWhile (· != target) = cycle
        cases cycle with
        | nil => exact .of_ok (by simp)
        | cons first rest =>
          dsimp only
          rw [List.anyM_pure, pure_bind, ← List.any_eq_true]
          cases (first :: rest).any accepting with
          | true => exact .of_ok (by simp)
          | false => exact .of_ok (by simp)
      · exact fun _ => hdefect fun _ => rfl
      · constructor
        · intro h
          obtain ⟨⟨-, hwalk, hedge, hends⟩, hloop⟩ := h
          exact ⟨hwalk, source, target, rfl, hedge, (exists_mem_lassoBody_iff hends).1 hloop⟩
        · intro h
          obtain ⟨hwalk, source', target', heq, hedge, hcloses⟩ := h
          cases heq
          exact ⟨⟨hcloses.ne_nil, hwalk, hedge, hcloses.ends⟩,
            (exists_mem_lassoBody_iff hcloses.ends).2 hcloses⟩

end Validation

/-! ## Images -/

section Images

variable {V W : Type} {f : V → W} {p : V → Bool} {q : W → Bool}

/-- The function sends roots to roots and edges to edges. -/
structure StateGraph.Sends (graph : StateGraph Id V) (f : V → W) (other : StateGraph Id W) :
    Prop where
  root : ∀ v ∈ graph.after none, f v ∈ other.after none
  edge : ∀ u v, graph.Edge u v → other.Edge (f u) (f v)

theorem Answer.map_violated_vertex (target : V) (trace : List V) :
    (Answer.violated (.vertex target) trace).map f =
      .violated (.vertex (f target)) (trace.map f) := by
  simp [Answer.map, Answer.mapM, Witness.mapM]

theorem Answer.map_violated_edge (source target : V) (trace : List V) :
    (Answer.violated (.edge source target) trace).map f =
      .violated (.edge (f source) (f target)) (trace.map f) := by
  simp [Answer.map, Answer.mapM, Witness.mapM]

variable {graph : StateGraph Id V} {other : StateGraph Id W} (sends : graph.Sends f other)
  {source target : V} {trace : List V}

include sends

theorem StateGraph.Sends.walk {start : Option V} (h : graph.Walk start trace) :
    other.Walk (start.map f) (trace.map f) := by
  induction trace generalizing start with
  | nil => trivial
  | cons v trace ih =>
    refine ⟨?_, ih h.2⟩
    cases start with
    | none => exact sends.root v h.1
    | some u => exact sends.edge u v h.1

omit sends in
theorem getLast?_map_of_eq (h : trace.getLast? = some source) :
    (trace.map f).getLast? = some (f source) := by
  rw [List.getLast?_map, h, Option.map_some]

omit sends in
/-- The occurrence of the target that is needed stays one, whatever else becomes one. -/
theorem ClosesLoop.map (h : ClosesLoop p source target trace)
    (hpq : ∀ v, p v = true → q (f v) = true) :
    ClosesLoop q (f source) (f target) (trace.map f) := by
  obtain ⟨stem, tail, rfl, ⟨v, hv, haccepting⟩, hend⟩ := h
  refine ⟨stem.map f, tail.map f, by simp, ⟨f v, List.mem_map_of_mem hv, hpq v haccepting⟩, ?_⟩
  refine hend.imp getLast?_map_of_eq fun hsuffix => ⟨hsuffix.1.map f, ?_⟩
  rw [Ne, List.map_eq_nil_iff]
  exact hsuffix.2

theorem StateGraph.Sends.fits {answer : Answer V} (h : answer.Fits graph) :
    (answer.map f).Fits other := by
  cases answer with
  | satisfied => trivial
  | violated witness trace =>
    obtain ⟨hne, hwalk, hends⟩ := h
    have hne : trace.map f ≠ [] := fun hnil => hne (List.map_eq_nil_iff.1 hnil)
    cases witness with
    | vertex target =>
      rw [Answer.map_violated_vertex]
      exact ⟨hne, sends.walk hwalk, getLast?_map_of_eq hends⟩
    | edge source target =>
      rw [Answer.map_violated_edge]
      exact ⟨hne, sends.walk hwalk, sends.edge source target hends.1,
        hends.2.imp getLast?_map_of_eq fun hsuffix => hsuffix.map f⟩

theorem StateGraph.Sends.fitsAsLasso {answer : Answer V} (hpq : ∀ v, p v = true → q (f v) = true)
    (h : answer.FitsAsLasso graph p) : (answer.map f).FitsAsLasso other q := by
  cases answer with
  | satisfied => trivial
  | violated witness trace =>
    obtain ⟨hwalk, source, target, rfl, hedge, hcloses⟩ := h
    rw [Answer.map_violated_edge]
    exact ⟨sends.walk hwalk, f source, f target, rfl,
      sends.edge source target hedge, hcloses.map hpq⟩

end Images

/-- A function that sends roots to roots, edges to edges and accepting vertices to accepting ones
sends answers that pass validation to answers that pass. If validation accepts an answer for some
allowance of steps, then it accepts the image for every large one. -/
theorem image_of_valid_answer_is_valid {V W : Type} [BEq V] [LawfulBEq V] [BEq W] [LawfulBEq W]
    (graph : StateGraph Id V) (other : StateGraph Id W) (f : V → W) (sends : graph.Sends f other)
    (p : V → Bool) (q : W → Bool) (hpq : ∀ v, p v = true → q (f v) = true) (answer : Answer V) :
    ((∃ fuel, answer.traceDefect? fuel (graph.lift : StateGraph (Except Fault) V) = .ok none) →
      Settles (fun fuel => (answer.map f).traceDefect? fuel
        (other.lift : StateGraph (Except Fault) W)) none) ∧
    ((∃ fuel, answer.lassoDefect? fuel (graph.lift : StateGraph (Except Fault) V)
      (fun v => pure (p v)) = .ok none) →
      Settles (fun fuel => (answer.map f).lassoDefect? fuel
        (other.lift : StateGraph (Except Fault) W) fun w => pure (q w)) none) := by
  constructor
  · intro h
    obtain ⟨fuel, hpass⟩ := h
    have hfits := (answer.traceDefect?_confirms graph).sound hpass
    exact ((answer.map f).traceDefect?_confirms other).complete (sends.fits hfits)
  · intro h
    obtain ⟨fuel, hpass⟩ := h
    have hfits := (answer.lassoDefect?_confirms graph p).sound hpass
    exact ((answer.map f).lassoDefect?_confirms other q).complete (sends.fitsAsLasso hpq hfits)

/-- The numbers less than `n`, each of which leads to the next one and the last one to 0. -/
def StateGraph.ring (n : Nat) : StateGraph Id Nat where
  roots := .finite [0]
  neighbours v := .finite [(v + 1) % n]

/-- The trace through three vertices ends before the edge that leads back. If all of them become
one, the trace ends with a loop that is the last edge of the trace. -/
theorem image_of_valid_answer_is_valid_ring :
    let answer : Answer Nat := .violated (.edge 2 0) [0, 1, 2]
    (StateGraph.ring 3).Sends (fun _ => 0) (StateGraph.ring 1) ∧
    (∀ v : Nat, (v == 1) = true → (0 == 0) = true) ∧
    answer.lassoDefect? 0 ((StateGraph.ring 3).lift : StateGraph (Except Fault) Nat)
      (fun v => pure (v == 1)) = .ok none ∧
    answer.map (fun _ => 0) = .violated (.edge 0 0) [0, 0, 0] ∧
    Settles (fun fuel => (Answer.violated (.edge 0 0) [0, 0, 0]).lassoDefect? fuel
      ((StateGraph.ring 1).lift : StateGraph (Except Fault) Nat) fun w => pure (w == 0)) none := by
  intro answer
  have sends : (StateGraph.ring 3).Sends (fun _ => 0) (StateGraph.ring 1) := by
    refine ⟨fun v _ => List.mem_singleton_self 0, fun u v _ => ?_⟩
    exact List.mem_singleton_self 0
  have hpass : answer.lassoDefect? 0 ((StateGraph.ring 3).lift : StateGraph (Except Fault) Nat)
      (fun v => pure (v == 1)) = .ok none := rfl
  have himage : answer.map (fun _ => 0) = .violated (.edge 0 0) [0, 0, 0] := rfl
  obtain ⟨-, hlasso⟩ := image_of_valid_answer_is_valid (StateGraph.ring 3)
    (StateGraph.ring 1) (fun _ => 0)
    sends (· == 1) (· == 0) (fun _ _ => rfl) answer
  exact ⟨sends, fun _ _ => rfl, hpass, himage, himage ▸ hlasso ⟨0, hpass⟩⟩

end StateExplorer
