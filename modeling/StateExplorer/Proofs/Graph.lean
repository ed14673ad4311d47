import Mathlib.Data.Set.Finite.Basic
import Mathlib.Logic.Relation
import StateExplorer.Graph.Adjacency
import StateExplorer.Proofs.Returning

/-!
# Paths of a graph that does not change

A graph whose answers never change is a `StateGraph Id`, and `StateGraph.lift` asks the same graph
in any monad. This file says what the paths of such a graph are.

The roots and the neighbours of a vertex are treated alike: `graph.after none` are the roots and
`graph.after (some u)` are the neighbours of `u`. So `Walk none l` says that `l` is a path from a
root, and `Walk (some u) l` that `l` continues a path that has come to `u`. `Reachable` and
`OnCycle` say the same of end points alone, in terms of the closures of the edge relation.
-/

namespace StateExplorer

open Relation

/-! ## Elements of a sequence -/

namespace Sequence

variable {α : Type} {s : Sequence α} {a b : α}

/-- Whether an element is still to be read. -/
def Contains (a : α) : Sequence α → Prop
  | finite items => a ∈ items
  | endless item next => ∃ i, next ≤ i ∧ item i = a

instance : Membership α (Sequence α) := ⟨fun s a => s.Contains a⟩

@[simp] theorem mem_finite {items : List α} : a ∈ finite items ↔ a ∈ items := Iff.rfl

theorem mem_endless {item : Nat → α} {next : Nat} :
    a ∈ endless item next ↔ ∃ i, next ≤ i ∧ item i = a := Iff.rfl

/-- Reading an element splits a sequence into that element and the tail. -/
theorem mem_iff_of_head? (h : s.head? = some a) : b ∈ s ↔ b = a ∨ b ∈ s.tail := by
  cases s with
  | finite items =>
    cases items with
    | nil => cases h
    | cons x items =>
      simp only [head?_finite, List.head?_cons, Option.some.injEq] at h
      subst h
      simp
  | endless item next =>
    simp only [head?_endless, Option.some.injEq] at h
    rw [tail_endless, mem_endless, mem_endless]
    constructor
    · rintro ⟨i, hi, rfl⟩
      rcases Nat.eq_or_lt_of_le hi with rfl | hlt
      · exact Or.inl h
      · exact Or.inr ⟨i, hlt, rfl⟩
    · rintro (rfl | ⟨i, hi, rfl⟩)
      · exact ⟨next, Nat.le_refl _, h⟩
      · exact ⟨i, Nat.le_of_succ_le hi, rfl⟩

theorem not_mem_of_head?_eq_none (h : s.head? = none) : b ∉ s := by
  cases s with
  | finite items =>
    have hnil : items = [] := by simpa using h
    subst hnil
    simp
  | endless item next => cases h

theorem tail_drop (n : Nat) : (s.drop n).tail = s.drop (n + 1) := by
  cases s with
  | finite items => simp [drop]
  | endless item next => rfl

theorem mem_of_mem_drop {n : Nat} (h : a ∈ s.drop n) : a ∈ s := by
  cases s with
  | finite items => exact List.mem_of_mem_drop h
  | endless item next =>
    obtain ⟨i, hi, rfl⟩ := h
    exact ⟨i, Nat.le_trans (Nat.le_add_right next n) hi, rfl⟩

/-! What is looked for in a sequence is found if it is there and there are enough steps. -/

section Find

variable {m : Type → Type} [Monad m] [MonadExceptOf Fault m] [Returning m] {p : α → Bool}
  {fuel : Nat}

/-- A search through a rule returns only what it finds. -/
theorem findM?_go_returns {item : Nat → α} {next : Nat} {found : Option α}
    (h : Returns (findM?.go (fun v => (pure (p v) : m Bool)) item fuel next) found) :
    ∃ i, next ≤ i ∧ found = some (item i) ∧ p (item i) = true := by
  induction fuel generalizing next with
  | zero => exact absurd h Returning.not_throw
  | succ fuel ih =>
    rw [findM?.go] at h
    have h := Returning.of_pure_bind h
    split at h
    · next hp => exact ⟨next, Nat.le_refl next, Returning.of_pure h, hp⟩
    · obtain ⟨i, hi, hfound, hp⟩ := ih h
      exact ⟨i, Nat.le_of_succ_le hi, hfound, hp⟩

variable [LawfulMonad m]

theorem mem_of_findM? {v : α}
    (h : Returns (s.findM? fuel fun v => (pure (p v) : m Bool)) (some v)) : v ∈ s ∧ p v = true := by
  cases s with
  | finite items =>
    have h : Returns (items.findM? fun v => (pure (p v) : m Bool)) (some v) := h
    rw [List.findM?_pure] at h
    have hfind : items.find? p = some v := (Returning.of_pure h).symm
    exact ⟨List.mem_of_find?_eq_some hfind, List.find?_some hfind⟩
  | endless item next =>
    obtain ⟨i, hi, hfound, hp⟩ := findM?_go_returns h
    cases hfound
    exact ⟨⟨i, hi, rfl⟩, hp⟩

theorem of_findM?_none (h : Returns (s.findM? fuel fun v => (pure (p v) : m Bool)) none) :
    ∀ v ∈ s, p v = false := by
  cases s with
  | finite items =>
    have h : Returns (items.findM? fun v => (pure (p v) : m Bool)) none := h
    rw [List.findM?_pure] at h
    have hfind : items.find? p = none := (Returning.of_pure h).symm
    intro v hv
    exact Bool.eq_false_iff.2 (List.find?_eq_none.1 hfind v hv)
  | endless item next =>
    obtain ⟨i, -, hfound, -⟩ := findM?_go_returns h
    cases hfound

end Find

theorem findM?_go_of_lt {item : Nat → α} (p : α → Bool) {i next fuel : Nat} (hp : p (item i) = true)
    (hi : next ≤ i) (hfuel : i - next < fuel) :
    ∃ v, findM?.go (fun v => (pure (p v) : Except Fault Bool)) item fuel next = .ok (some v) := by
  induction fuel generalizing next with
  | zero => omega
  | succ fuel ih =>
    rw [findM?.go, pure_bind]
    by_cases hnext : p (item next) = true
    · exact ⟨item next, by rw [if_pos hnext]; rfl⟩
    · have hne : next ≠ i := fun heq => hnext (heq ▸ hp)
      have hlater : next + 1 ≤ i := by omega
      obtain ⟨v, hv⟩ := ih hlater (by omega)
      exact ⟨v, by rw [if_neg hnext]; exact hv⟩

theorem anyM_confirms [BEq α] [LawfulBEq α] (s : Sequence α) (a : α) :
    Confirms (fun fuel => s.anyM fuel fun b => (return b == a : Except Fault Bool)) true
      (a ∈ s) where
  sound := by
    intro fuel h
    obtain ⟨found, hfound, hsome⟩ := Returning.of_bind (m := Except Fault) h
    obtain ⟨b, rfl⟩ := Option.isSome_iff_exists.1 (Except.ok.inj hsome)
    obtain ⟨hb, heq⟩ := mem_of_findM? hfound
    exact eq_of_beq heq ▸ hb
  complete := by
    intro ha
    cases s with
    | finite items =>
      refine ⟨0, fun fuel _ => ?_⟩
      have hfind : (items.find? (· == a)).isSome = true :=
        List.find?_isSome.2 ⟨a, ha, beq_self_eq_true a⟩
      change (items.findM? (fun b => pure (b == a)) >>= fun found => pure found.isSome) = _
      rw [List.findM?_pure, pure_bind, hfind]
      rfl
    | endless item next =>
      obtain ⟨i, hi, rfl⟩ := ha
      refine ⟨i - next + 1, fun fuel hfuel => ?_⟩
      obtain ⟨b, hb⟩ := findM?_go_of_lt (· == item i) (beq_self_eq_true (item i)) hi hfuel
      change (findM?.go _ item fuel next >>= fun found => pure found.isSome) = _
      rw [hb]
      rfl

end Sequence

/-! ## Graphs without effects -/

namespace StateGraph

variable {m : Type → Type} {V K : Type}

/-- The roots, or the neighbours of the given vertex. -/
def after (graph : StateGraph Id V) : Option V → Sequence V
  | none => graph.roots
  | some vertex => graph.neighbours vertex

/-- The same graph, asked in another monad. -/
def lift [Pure m] (graph : StateGraph Id V) : StateGraph m V where
  roots := pure (graph.after none)
  neighbours vertex := pure (graph.after (some vertex))
  hasCycles := graph.hasCycles
  hasSharing := graph.hasSharing

/-- The state space of a graph whose canonical forms are given by a function. With the identity it
is `StateGraph.space`. -/
def under [Pure m] (graph : StateGraph Id V) (key : V → K) : StateSpace m V K where
  graph := graph.lift
  key vertex := pure (key vertex)

theorem space_lift [Pure m] (graph : StateGraph Id V) :
    (graph.lift : StateGraph m V).space = graph.under id := rfl

@[simp] theorem rootedAfter_after_none (graph : StateGraph Id V) (seed : V) :
    (graph.rootedAfter seed).after none = graph.after (some seed) := rfl

@[simp] theorem rootedAfter_after_some (graph : StateGraph Id V) (seed v : V) :
    (graph.rootedAfter seed).after (some v) = graph.after (some v) := rfl

@[simp] theorem rootedAt_after_none (graph : StateGraph Id V) (seed : V) :
    (graph.rootedAt seed).after none = .finite [seed] := rfl

@[simp] theorem rootedAt_after_some (graph : StateGraph Id V) (seed v : V) :
    (graph.rootedAt seed).after (some v) = graph.after (some v) := rfl

/-- The roots and the neighbours of every vertex are lists. -/
def Finitary (graph : StateGraph Id V) : Prop :=
  ∀ source, ∃ items, graph.after source = .finite items

theorem Finitary.rootedAfter {graph : StateGraph Id V} (h : graph.Finitary) (seed : V) :
    (graph.rootedAfter seed).Finitary := by
  intro source
  cases source with
  | none => exact h (some seed)
  | some v => exact h (some v)

theorem Finitary.rootedAt {graph : StateGraph Id V} (h : graph.Finitary) (seed : V) :
    (graph.rootedAt seed).Finitary := by
  intro source
  cases source with
  | none => exact ⟨[seed], rfl⟩
  | some v => exact h (some v)

/-! ## Reachable vertices and cycles -/

/-- There is an edge from `u` to `v`. -/
def Edge (graph : StateGraph Id V) (u v : V) : Prop := v ∈ graph.after (some u)

/-- There is a path from a root to `v`. -/
def Reachable (graph : StateGraph Id V) (v : V) : Prop :=
  ∃ root ∈ graph.after none, ReflTransGen graph.Edge root v

/-- There is a path of length at least one from `v` back to `v`. -/
def OnCycle (graph : StateGraph Id V) (v : V) : Prop := TransGen graph.Edge v v

variable {graph : StateGraph Id V} {source : Option V} {u v : V} {l : List V}

theorem Reachable.trans (h : graph.Reachable u) (huv : ReflTransGen graph.Edge u v) :
    graph.Reachable v := by
  obtain ⟨root, hroot, hu⟩ := h
  exact ⟨root, hroot, hu.trans huv⟩

theorem Reachable.edge (h : graph.Reachable u) (huv : v ∈ graph.after (some u)) :
    graph.Reachable v :=
  h.trans (.single huv)

/-- What is reached from the neighbours of `seed` lies behind an edge of `seed`. -/
theorem reachable_rootedAfter {seed : V} :
    (graph.rootedAfter seed).Reachable v ↔ TransGen graph.Edge seed v := by
  rw [TransGen.head'_iff]
  rfl

/-- What is reached from `seed` as the only root is reached from `seed`. -/
theorem reachable_rootedAt {seed : V} :
    (graph.rootedAt seed).Reachable v ↔ ReflTransGen graph.Edge seed v := by
  constructor
  · rintro ⟨root, hroot, h⟩
    have hseed : root = seed := by simpa using hroot
    exact hseed ▸ h
  · intro h
    exact ⟨seed, by simp, h⟩

theorem Reachable.of_rootedAfter {seed : V} (hseed : graph.Reachable seed)
    (h : (graph.rootedAfter seed).Reachable v) : graph.Reachable v :=
  hseed.trans (reachable_rootedAfter.1 h).to_reflTransGen

theorem Reachable.of_rootedAt {seed : V} (hseed : graph.Reachable seed)
    (h : (graph.rootedAt seed).Reachable v) : graph.Reachable v :=
  hseed.trans (reachable_rootedAt.1 h)

/-! ## Walks -/

/-- The list can be read off the graph edge by edge, starting with an edge that leaves `source`, or
with a root if there is no source. -/
def Walk (graph : StateGraph Id V) : Option V → List V → Prop
  | _, [] => True
  | source, vertex :: rest => vertex ∈ graph.after source ∧ graph.Walk (some vertex) rest

@[simp] theorem walk_nil : graph.Walk source [] := trivial

@[simp] theorem walk_cons :
    graph.Walk source (v :: l) ↔ v ∈ graph.after source ∧ graph.Walk (some v) l := Iff.rfl

/-- A walk goes on where its first part ended. -/
theorem walk_append {l' : List V} :
    graph.Walk source (l ++ l') ↔ graph.Walk source l ∧ graph.Walk (l.getLast?.or source) l' := by
  induction l generalizing source with
  | nil => simp
  | cons v l ih =>
    have hlast : (v :: l).getLast?.or source = l.getLast?.or (some v) := by
      cases l with
      | nil => rfl
      | cons w l => simp [List.getLast?_eq_some_getLast]
    rw [List.cons_append, walk_cons, walk_cons, ih, hlast, and_assoc]

theorem walk_concat :
    graph.Walk source (l ++ [v]) ↔ graph.Walk source l ∧
      v ∈ graph.after (l.getLast?.or source) := by
  rw [walk_append]
  simp

/-- A walk that leaves `u` is a list in which each vertex has an edge to the next one. -/
theorem walk_some_iff_isChain : graph.Walk (some u) l ↔ (u :: l).IsChain graph.Edge := by
  induction l generalizing u with
  | nil => simp
  | cons v l ih => rw [walk_cons, ih, List.isChain_cons_cons, Edge]

theorem walk_none_iff_isChain (hne : l ≠ []) :
    graph.Walk none l ↔ (∃ root ∈ graph.after none, l.head? = some root) ∧
      l.IsChain graph.Edge := by
  obtain ⟨first, rest, rfl⟩ := List.exists_cons_of_ne_nil hne
  simp [walk_cons, walk_some_iff_isChain]

/-- Edges that leave a vertex do not depend on the roots. -/
theorem walk_some_congr {other : StateGraph Id V}
    (h : ∀ w, graph.after (some w) = other.after (some w)) :
    graph.Walk (some u) l ↔ other.Walk (some u) l := by
  induction l generalizing u with
  | nil => rfl
  | cons v l ih => rw [walk_cons, walk_cons, h u, ih]

theorem walk_rootedAfter {seed : V} :
    (graph.rootedAfter seed).Walk none l ↔ graph.Walk (some seed) l := by
  cases l with
  | nil => rfl
  | cons v l =>
    rw [walk_cons, walk_cons, rootedAfter_after_none,
      walk_some_congr (rootedAfter_after_some graph seed)]

theorem walk_rootedAt {seed : V} :
    (graph.rootedAt seed).Walk none (v :: l) ↔ v = seed ∧ graph.Walk (some seed) l := by
  rw [walk_cons, rootedAt_after_none, walk_some_congr (rootedAt_after_some graph seed)]
  constructor
  · rintro ⟨hv, hl⟩
    have hseed : v = seed := by simpa using hv
    exact ⟨hseed, hseed ▸ hl⟩
  · rintro ⟨rfl, hl⟩
    exact ⟨by simp, hl⟩

/-- A walk that leaves `u` and ends at `v` is a path of length at least one. -/
theorem Walk.transGen (h : graph.Walk (some u) (l ++ [v])) : TransGen graph.Edge u v := by
  induction l generalizing u with
  | nil => exact .single h.1
  | cons w l ih => exact .head h.1 (ih h.2)

theorem Walk.reachable (h : graph.Walk none (l ++ [v])) : graph.Reachable v := by
  cases l with
  | nil => exact ⟨v, h.1, .refl⟩
  | cons w l => exact ⟨w, h.1, h.2.transGen.to_reflTransGen⟩

/-- A path on which a vertex comes twice has a cycle. -/
theorem Walk.nodup_of_acyclic (h : graph.Walk none l)
    (acyclic : ∀ v, graph.Reachable v → ¬ graph.OnCycle v) : l.Nodup := by
  induction l using List.reverseRecOn with
  | nil => exact List.nodup_nil
  | append_singleton l v ih =>
    rw [← List.concat_eq_append, List.nodup_concat]
    refine ⟨fun hv => ?_, ih (walk_append.1 h).1⟩
    obtain ⟨stem, loop, rfl⟩ := List.append_of_mem hv
    rw [List.append_assoc, List.cons_append, walk_append] at h
    have hreach : graph.Reachable v := Walk.reachable (walk_append.2 ⟨h.1, h.2.1, trivial⟩)
    exact acyclic v hreach h.2.2.transGen

/-! ## Vertices with the same canonical form -/

/-- Reachable vertices with the same canonical form have neighbours with the same canonical
forms. -/
def Uniform (graph : StateGraph Id V) (key : V → K) : Prop :=
  ∀ ⦃u v x⦄, graph.Reachable u → graph.Reachable v → key u = key v → x ∈ graph.after (some u) →
    ∃ y ∈ graph.after (some v), key y = key x

/-- There is a path of length at least one from `v` to a vertex with its canonical form. -/
def Recurs (graph : StateGraph Id V) (key : V → K) (v : V) : Prop :=
  ∃ w, TransGen graph.Edge v w ∧ key w = key v

/-- Reachable vertices with the same canonical form agree on the predicate, and their neighbours
have the same canonical forms. -/
structure Compatible (graph : StateGraph Id V) (key : V → K) (accepting : V → Bool) : Prop where
  uniform : graph.Uniform key
  stable : ∀ ⦃u v⦄, graph.Reachable u → graph.Reachable v → key u = key v →
    accepting u = accepting v

theorem uniform_id : graph.Uniform (id : V → V) := by
  intro u v x _ _ huv hx
  have huv : u = v := huv
  exact ⟨x, huv ▸ hx, rfl⟩

theorem compatible_id (accepting : V → Bool) : graph.Compatible (id : V → V) accepting :=
  ⟨uniform_id, fun _ _ _ _ huv => congrArg accepting huv⟩

theorem recurs_id : graph.Recurs (id : V → V) v ↔ graph.OnCycle v := by
  constructor
  · rintro ⟨w, hvw, hw⟩
    have hw : w = v := hw
    exact hw ▸ hvw
  · intro h
    exact ⟨v, h, rfl⟩

section Uniform

variable {key : V → K} (uniform : graph.Uniform key)

include uniform

theorem Uniform.rootedAfter {seed : V} (hseed : graph.Reachable seed) :
    (graph.rootedAfter seed).Uniform key :=
  fun _ _ _ hu hv => uniform (hseed.of_rootedAfter hu) (hseed.of_rootedAfter hv)

theorem Uniform.rootedAt {seed : V} (hseed : graph.Reachable seed) :
    (graph.rootedAt seed).Uniform key :=
  fun _ _ _ hu hv => uniform (hseed.of_rootedAt hu) (hseed.of_rootedAt hv)

variable (hu : graph.Reachable u) (hv : graph.Reachable v) (huv : key u = key v)

include hu hv huv

/-- A path can be followed from any reachable vertex with the canonical form of its first one. -/
theorem exists_path_of_key_eq {x : V} (hx : ReflTransGen graph.Edge u x) :
    ∃ y, ReflTransGen graph.Edge v y ∧ key y = key x := by
  induction hx with
  | refl => exact ⟨v, .refl, huv.symm⟩
  | tail hpath hedge ih =>
    obtain ⟨y, hy, hkey⟩ := ih
    obtain ⟨z, hz, hkey'⟩ := uniform (hu.trans hpath) (hv.trans hy) hkey.symm hedge
    exact ⟨z, hy.tail hz, hkey'⟩

theorem Recurs.of_key_eq (h : graph.Recurs key u) : graph.Recurs key v := by
  obtain ⟨w, huw, hw⟩ := h
  obtain ⟨x, hux, hxw⟩ := TransGen.head'_iff.1 huw
  obtain ⟨y, hvy, hyx⟩ := uniform hu hv huv hux
  obtain ⟨z, hyz, hzw⟩ := exists_path_of_key_eq uniform (hu.edge hux) (hv.edge hvy) hyx.symm hxw
  exact ⟨z, TransGen.head'_iff.2 ⟨y, hvy, hyz⟩, hzw.trans (hw.trans huv)⟩

end Uniform

/-! ### An endless graph -/

/-- The numbers, each of which leads to the next one. -/
def ray : StateGraph Id Nat where
  roots := .finite [0]
  neighbours n := .finite [n + 1]

theorem finitary_ray : ray.Finitary := by
  intro source
  cases source with
  | none => exact ⟨[0], rfl⟩
  | some n => exact ⟨[n + 1], rfl⟩

theorem reachable_ray (n : Nat) : ray.Reachable n := by
  induction n with
  | zero => exact ⟨0, by simp [after, ray], .refl⟩
  | succ n ih => exact ih.edge (by simp [after, ray])

end StateGraph

/-! ## Stored graphs -/

namespace Adjacency

variable {V : Type} [BEq V] [LawfulBEq V] [Hashable V] [LawfulHashable V] (graph : Adjacency V)

omit [LawfulBEq V] [LawfulHashable V] in
theorem finitary : (graph.toStateGraph : StateGraph Id V).Finitary := by
  intro source
  cases source with
  | none => exact ⟨graph.roots.toList, rfl⟩
  | some u => exact ⟨graph.neighbours u, rfl⟩

/-- Every reachable vertex is a root or the target of one of the stored edges. -/
theorem finite_reachable : {v | (graph.toStateGraph : StateGraph Id V).Reachable v}.Finite := by
  let targets := graph.edges.toList.flatMap fun entry => entry.2.toList
  refine (List.finite_toSet (graph.roots.toList ++ targets)).subset ?_
  rintro v ⟨root, hroot, hpath⟩
  refine List.mem_append.2 ?_
  rcases ReflTransGen.cases_tail hpath with rfl | ⟨u, -, huv⟩
  · exact Or.inl hroot
  · have hmem : v ∈ (graph.edges.getD u #[]).toList := huv
    rw [Std.HashMap.getD_eq_getD_getElem?] at hmem
    cases hentry : graph.edges[u]? with
    | none =>
      rw [hentry] at hmem
      cases hmem
    | some neighbours =>
      rw [hentry] at hmem
      refine Or.inr (List.mem_flatMap.2 ⟨(u, neighbours), ?_, hmem⟩)
      exact Std.HashMap.mem_toList_iff_getElem?_eq_some.2 hentry

end Adjacency

end StateExplorer
