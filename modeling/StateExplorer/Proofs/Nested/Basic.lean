import StateExplorer.Check.Nested.Basic
import StateExplorer.Proofs.Lasso
import StateExplorer.Proofs.Visiting

/-!
# What the outer search of a nested search finds out

As long as the outer search goes on, its findings are `Clean`. It stops with findings that are
`Decided`: an inner search was told to stop, or there is a lasso. So the answer of the check is a
lasso, or, unless a poll stopped the check, the outer search has come to its end
(`verdict_of_outcome`), and the answer tells whether an accepting vertex recurs if that end shows it
(`Verdict.holds_iff`). If its store remembers, no accepting vertex recurs when none of those recurs
that it discovered (`vain_of_over`).
-/

namespace StateExplorer.NestedSearch

open DepthSearch Event

variable {V K : Type} {m : Type → Type} [Monad m] [MonadExceptOf Fault m] [Returning m]
  {graph : StateGraph Id V} {key : V → K} {accepting : V → Bool} {poll : m Bool}

/-- Nothing has been found out. -/
def Findings.Clean (findings : Findings V) : Prop :=
  findings.answer = .satisfied ∧ findings.cancelled = false

/-- An inner search was told to stop, or a lasso was found. -/
def Findings.Decided (graph : StateGraph Id V) (key : V → K) (accepting : V → Bool) (poll : m Bool)
    (findings : Findings V) : Prop :=
  (findings.cancelled = true ∧ Returns poll true) ∨
    (findings.cancelled = false ∧
      ∃ witness trace, findings.answer = .violated witness trace ∧
        IsLasso graph key accepting witness trace)

/-- The answer is a lasso, or no counterexample was found and, if no poll stopped the check, the
outer search ended as `exhausted` says. -/
def Verdict (graph : StateGraph Id V) (key : V → K) (accepting : V → Bool) (poll : m Bool)
    (exhausted : Prop) (answer : Answer V) : Prop :=
  (∃ witness trace, answer = .violated witness trace ∧ IsLasso graph key accepting witness trace) ∨
    (answer = .satisfied ∧ (¬ Returns poll true → exhausted))

theorem verdict_of_outcome {findings : Findings V} {outcome : Outcome} {exhausted : Prop}
    (h : outcome.Ensures (findings.Clean ∧ exhausted) (findings.Decided graph key accepting poll)
      (Returns poll true ∧ findings.Clean)) :
    Verdict graph key accepting poll exhausted findings.conclusion := by
  unfold Findings.conclusion
  match outcome with
  | .exhausted =>
    obtain ⟨⟨hanswer, hcancelled⟩, hexhausted⟩ := h
    rw [hcancelled, if_neg Bool.false_ne_true, hanswer]
    exact Or.inr ⟨rfl, fun _ => hexhausted⟩
  | .aborted =>
    rcases h with ⟨hcancelled, hpoll⟩ | ⟨hcancelled, witness, trace, hanswer, hlasso⟩
    · rw [hcancelled, if_pos rfl]
      exact Or.inr ⟨rfl, fun hno => absurd hpoll hno⟩
    · rw [hcancelled, if_neg Bool.false_ne_true, hanswer]
      exact Or.inl ⟨witness, trace, rfl, hlasso⟩
  | .cancelled =>
    obtain ⟨hpoll, hanswer, hcancelled⟩ := h
    rw [hcancelled, if_neg Bool.false_ne_true, hanswer]
    exact Or.inr ⟨rfl, fun hno => absurd hpoll hno⟩

/-- If no poll stops the check, its answer tells whether an accepting vertex recurs. -/
theorem Verdict.holds_iff {exhausted : Prop} {answer : Answer V}
    (h : Verdict graph key accepting poll exhausted answer) (hpoll : ¬ Returns poll true)
    (compatible : graph.Compatible key accepting)
    (vain : exhausted → ∀ v, accepting v = true → graph.Reachable v → ¬ graph.Recurs key v) :
    answer.holds = false ↔ ∃ v, accepting v = true ∧ graph.Reachable v ∧ graph.Recurs key v := by
  rcases h with ⟨witness, trace, rfl, hlasso⟩ | ⟨rfl, hexhausted⟩
  · exact ⟨fun _ => hlasso.recurs compatible, fun _ => rfl⟩
  · constructor
    · intro hholds
      cases hholds
    · rintro ⟨v, haccepting, hreach, hrecurs⟩
      exact absurd hrecurs (vain (hexhausted hpoll) v haccepting hreach)

variable [BEq K] [LawfulBEq K] [Hashable K] [LawfulHashable K]

/-- If no accepting vertex recurs that the outer search discovered, then none recurs that can be
reached. -/
theorem vain_of_over {log : List (Event V)} {search : DepthSearch V (Memory K)}
    (explores : Explores graph key (fresh graph (Memory.forGraph graph : Memory K) none) log search)
    (ended : search.stack.items = []) (remembers : graph.hasCycles = true ∨ graph.hasSharing = true)
    (compatible : graph.Compatible key accepting)
    (vain : ∀ v ∈ discoveries log, accepting v = true → ¬ graph.Recurs key v) {v : V}
    (haccepting : accepting v = true) (hv : graph.Reachable v) : ¬ graph.Recurs key v := by
  have hfound := explores.key_mem_of_over (Memory.faithful_forGraph remembers) Memory.knows_forGraph
    compatible.uniform ended hv
  obtain ⟨d, hd, hkey⟩ := List.mem_map.1 hfound
  have hreach := explores.reachable hd
  intro hrecurs
  exact vain d hd ((compatible.stable hreach hv hkey).trans haccepting)
    (hrecurs.of_key_eq compatible.uniform hv hreach hkey.symm)

end StateExplorer.NestedSearch
