import Mathlib.Algebra.Group.Action.Defs
import Mathlib.Data.List.NodupEquivFin
import Mathlib.Data.Multiset.Bind
import StateExplorer.Proofs.Agenda

/-!
# Routes

A route is a list of positions: that of a root among the roots, and then that of the next vertex
among the neighbours of the last one. Two routes differ even if they go through the same vertices,
by a root that is listed twice or by parallel edges. If each reachable vertex has only one route
then a search need not remember anything: what it discovers was waiting somewhere, and whatever
waits is a root or a neighbour of a discovered vertex (`Agenda.Explores.discoveries_le`), so no
vertex is discovered twice (`StateGraph.Unshared.nodup`).

The same can be asked of canonical forms. If no two routes lead to the same form, then a search that
remembers never meets a form that it knows (`Agenda.Explores.not_mem_of_routesApart`): what it
discovered was read at a position that all frames have left behind, and a form that is met again
would be read at that position again.
-/

namespace StateExplorer

open Relation Event

/-- The element at a position. -/
def Sequence.get? {α : Type} (s : Sequence α) (i : Nat) : Option α := (s.drop i).head?

theorem Sequence.mem_iff_get? {α : Type} {s : Sequence α} {a : α} :
    a ∈ s ↔ ∃ i, s.get? i = some a := by
  cases s with
  | finite items =>
    rw [mem_finite, List.mem_iff_getElem?]
    simp [get?, drop]
  | endless item next =>
    rw [mem_endless]
    constructor
    · rintro ⟨i, hi, rfl⟩
      exact ⟨i - next, by simp [get?, drop, Nat.add_sub_cancel' hi]⟩
    · rintro ⟨i, hi⟩
      exact ⟨next + i, Nat.le_add_right next i, by simpa [get?, drop] using hi⟩

namespace StateGraph

variable {V : Type} {graph : StateGraph Id V} {source source' : Option V} {u v : V}
  {route route' : List Nat}

theorem Finitary.unread_getElem? (finitary : graph.Finitary) (source : Option V) (i : Nat) :
    (graph.after source).unread[i]? = (graph.after source).get? i := by
  obtain ⟨items, hitems⟩ := finitary source
  simp [hitems, Sequence.get?, Sequence.drop]

/-- The route leads from outside the graph to a vertex. The route without positions leads
nowhere. -/
inductive Leads (graph : StateGraph Id V) : List Nat → Option V → Prop
  | start : Leads graph [] none
  | step {route : List Nat} {source : Option V} {i : Nat} {v : V}
    (before : Leads graph route source)
      (next : (graph.after source).get? i = some v) : Leads graph (route ++ [i]) (some v)

/-- Each reachable vertex has exactly one route. -/
def Unshared (graph : StateGraph Id V) : Prop :=
  ∀ v, graph.Reachable v → ∃! route, graph.Leads route (some v)

theorem Leads.deterministic (h : graph.Leads route source) (h' : graph.Leads route source') :
    source = source' := by
  induction h generalizing source' with
  | start =>
    generalize hroute : ([] : List Nat) = route at h'
    cases h' with
    | start => rfl
    | step before next => simp at hroute
  | @step route source i v before next ih =>
    generalize hroute : route ++ [i] = whole at h'
    cases h' with
    | start => simp at hroute
    | @step route' source' i' v' before' next' =>
      obtain ⟨rfl, hi⟩ := List.append_inj' hroute rfl
      cases hi
      rw [ih before', next'] at next
      exact next.symm

theorem Leads.reachable (h : graph.Leads route (some v)) : graph.Reachable v := by
  generalize hs : some v = source at h
  induction h generalizing v with
  | start => cases hs
  | @step route source i w before next ih =>
    cases hs
    have hmem : w ∈ graph.after source := Sequence.mem_iff_get?.2 ⟨i, next⟩
    cases source with
    | none => exact ⟨w, hmem, .refl⟩
    | some u => exact (ih rfl).edge hmem

theorem Leads.edge (h : graph.Leads route (some u)) (hedge : graph.Edge u v) :
    ∃ i, graph.Leads (route ++ [i]) (some v) := by
  obtain ⟨i, hi⟩ := Sequence.mem_iff_get?.1 hedge
  exact ⟨i, h.step hi⟩

theorem Reachable.exists_route (h : graph.Reachable v) : ∃ route, graph.Leads route (some v) := by
  obtain ⟨root, hroot, hpath⟩ := h
  induction hpath with
  | refl =>
    obtain ⟨i, hi⟩ := Sequence.mem_iff_get?.1 hroot
    exact ⟨[] ++ [i], .step .start hi⟩
  | tail _ hedge ih =>
    obtain ⟨route, hroute⟩ := ih
    obtain ⟨i, hi⟩ := hroute.edge hedge
    exact ⟨_, hi⟩

/-- A path makes a route longer. -/
theorem Leads.transGen (h : graph.Leads route (some u)) (hpath : TransGen graph.Edge u v) :
    ∃ route', graph.Leads route' (some v) ∧ route.length < route'.length := by
  induction hpath with
  | single hedge =>
    obtain ⟨i, hi⟩ := h.edge hedge
    exact ⟨_, hi, by simp⟩
  | tail _ hedge ih =>
    obtain ⟨route', hroute', hlt⟩ := ih
    obtain ⟨i, hi⟩ := hroute'.edge hedge
    exact ⟨_, hi, by simp; omega⟩

namespace Unshared

theorem eq_of_leads (h : graph.Unshared) (hroute : graph.Leads route (some v))
    (hroute' : graph.Leads route' (some v)) : route = route' :=
  (h v hroute.reachable).unique hroute hroute'

/-- A cycle could be followed once more. -/
theorem acyclic (h : graph.Unshared) (hv : graph.Reachable v) : ¬ graph.OnCycle v := by
  intro hcycle
  obtain ⟨route, hroute⟩ := hv.exists_route
  obtain ⟨route', hroute', hlt⟩ := hroute.transGen hcycle
  rw [h.eq_of_leads hroute hroute'] at hlt
  exact Nat.lt_irrefl _ hlt

end Unshared

end StateGraph

open StateGraph

/-! ## What is offered to a search -/

section Offered

variable {V : Type} {graph : StateGraph Id V}

/-- The given vertices, and the place from which the roots are offered. -/
def sources (found : List V) : Multiset (Option V) := none ::ₘ (found : Multiset V).map some

/-- The roots and the neighbours of the given vertices, with repetitions. -/
def StateGraph.offered (graph : StateGraph Id V) (found : List V) : Multiset V :=
  ((sources found).map fun source => ((graph.after source).unread : Multiset V)).sum

theorem count_sources [DecidableEq V] (found : List V) (v : V) :
    (sources found).count (some v) = found.count v := by
  rw [sources, Multiset.count_cons_of_ne (by simp),
    Multiset.count_map_eq_count' some _ (Option.some_injective V), Multiset.coe_count]

theorem StateGraph.offered_concat (found : List V) (v : V) :
    graph.offered (found ++ [v]) = graph.offered found +
      ((graph.after (some v)).unread : Multiset V) := by
  simp [offered, sources, add_assoc]

/-- What has been offered has been discovered, or waits, or has been passed over. A thorough search
that remembers nothing passes nothing over. -/
theorem Agenda.Explores.exists_passed {K κ : Type} [Store κ K] {key : V → K} {thorough : Prop}
    {known : κ} {log : List (Event V)} {agenda : Agenda V κ}
    (h : Explores graph key thorough (start graph known) log agenda) (finitary : graph.Finitary) :
    ∃ passed : Multiset V,
      (discoveries log : Multiset V) + agenda.waiting + passed = graph.offered (discoveries log) ∧
      (Store.Forgetful K known → thorough → passed = 0) := by
  induction h with
  | refl => exact ⟨0, by simp [offered, sources, waiting, start, Frame.whole], fun _ _ => rfl⟩
  | @step log events agenda next before move ih =>
    obtain ⟨passed, hoffered, hnone⟩ := ih
    cases move with
    | @enter frame others target frames peek new =>
      have hframe : frame ∈ agenda.frames := by simp [frames]
      have hwaiting := waiting_enter (before.reads hframe).1 finitary frames peek
        (Store.learn agenda.known (key target)).2
      refine ⟨passed, ?_, hnone⟩
      rw [discoveries_entry, offered_concat, ← Multiset.coe_add, Multiset.coe_singleton,
        add_assoc (discoveries log : Multiset V), add_comm ({target} : Multiset V),
        hwaiting, ← hoffered]
      ac_rfl
    | @revisit frame others target frames peek old =>
      have hframe : frame ∈ agenda.frames := by simp [frames]
      have hwaiting := waiting_revisit (before.reads hframe).1 finitary frames peek agenda.known
      refine ⟨passed + {target}, ?_, fun forgetful _ => ?_⟩
      · rw [discoveries_known, ← hoffered, ← hwaiting]
        ac_rfl
      · rw [before.known_eq, forgetful] at old
        cases old
    | @close frame others frames peek =>
      have hframe : frame ∈ agenda.frames := by simp [frames]
      have hwaiting := waiting_close frames agenda.known
      refine ⟨passed + (frame.successors.unread : Multiset V), ?_, fun forgetful hthorough => ?_⟩
      · rw [discoveries_farewell, ← hoffered, ← hwaiting]
        ac_rfl
      · rw [hnone forgetful hthorough,
          (before.reads hframe).1.unread_of_ended finitary (peek hthorough)]
        rfl

/-- What has been discovered, and what waits, has been offered. -/
theorem Agenda.Explores.discoveries_le {K κ : Type} [Store κ K] {key : V → K} {thorough : Prop}
    {known : κ} {log : List (Event V)} {agenda : Agenda V κ}
    (h : Explores graph key thorough (start graph known) log agenda) (finitary : graph.Finitary) :
    (discoveries log : Multiset V) + agenda.waiting ≤ graph.offered (discoveries log) := by
  obtain ⟨passed, hoffered, -⟩ := h.exists_passed finitary
  rw [← hoffered]
  exact Multiset.le_add_right _ _

/-! ## Graphs without sharing -/

theorem count_le_one_of_positions {α : Type} [DecidableEq α] {l : List α} {a : α}
    (h : ∀ i j : Nat, l[i]? = some a → l[j]? = some a → i = j) : l.count a ≤ 1 := by
  by_contra hcount
  have hdup : List.Duplicate a l := List.duplicate_iff_two_le_count.2 (by omega)
  obtain ⟨i, j, hlt, hi, hj⟩ := List.duplicate_iff_exists_distinct_get.1 hdup
  have hij := h i j (by rw [hi]; simp) (by rw [hj]; simp)
  exact absurd (Fin.ext hij) (ne_of_lt hlt)

namespace StateGraph.Unshared

variable [DecidableEq V] {found : List V} {source : Option V} {v : V} {init : List Nat} {i : Nat}

/-- A vertex is offered only by the vertex before it on its route, and there only once. -/
theorem count_offered_le (unshared : graph.Unshared) (finitary : graph.Finitary)
    (reachable : ∀ v ∈ found, graph.Reachable v) (before : graph.Leads init source)
    (next : (graph.after source).get? i = some v) :
    (graph.offered found).count v ≤ (sources found).count source := by
  have hroute := before.step next
  have hother : ∀ s, s ≠ source → s ∈ sources found →
      ((graph.after s).unread : Multiset V).count v = 0 := by
    intro s hne hs
    rw [Multiset.count_eq_zero]
    intro hmem
    have hleads : ∃ route, graph.Leads route s := by
      cases s with
      | none => exact ⟨[], .start⟩
      | some u => exact (reachable u (by simpa [sources] using hs)).exists_route
    obtain ⟨route, hleads⟩ := hleads
    obtain ⟨j, hj⟩ := List.mem_iff_getElem?.1 hmem
    rw [finitary.unread_getElem?] at hj
    have heq := unshared.eq_of_leads (hleads.step hj) hroute
    obtain ⟨rfl, -⟩ := List.append_inj' heq rfl
    exact hne (hleads.deterministic before)
  have hsource : ((graph.after source).unread : Multiset V).count v ≤ 1 := by
    rw [Multiset.coe_count]
    apply count_le_one_of_positions
    intro j k hj hk
    rw [finitary.unread_getElem?] at hj hk
    have heq := unshared.eq_of_leads (before.step hj) (before.step hk)
    simpa using heq
  rw [offered, Multiset.count_sum, Multiset.sum_map_eq_nsmul_single source hother, smul_eq_mul]
  exact (Nat.mul_le_mul_left _ hsource).trans_eq (Nat.mul_one _)

/-- If what was found has been offered, and all of it can be reached, then nothing was found
twice. -/
theorem nodup (unshared : graph.Unshared) (finitary : graph.Finitary)
    (offered : (found : Multiset V) ≤ graph.offered found)
    (reachable : ∀ v ∈ found, graph.Reachable v) : found.Nodup := by
  -- by induction on the length of the route to `v`, which decides where `v` is offered
  have hcount : ∀ n route v, route.length = n → graph.Leads route (some v) → found.count v ≤ 1 := by
    intro n
    induction n with
    | zero =>
      intro route v hlen hroute
      rw [List.eq_nil_of_length_eq_zero hlen] at hroute
      cases hroute.deterministic .start
    | succ n ih =>
      intro route v hlen hroute
      generalize hs : some v = last at hroute
      cases hroute with
      | start => cases hs
      | @step init source i w before next =>
        cases hs
        have hfound := (Multiset.count_le_of_le v offered).trans
          (unshared.count_offered_le finitary reachable before next)
        rw [Multiset.coe_count] at hfound
        cases source with
        | none =>
          have hnone : ((found : Multiset V).map some).count none = 0 :=
            Multiset.count_eq_zero.2 (by simp)
          rw [sources, Multiset.count_cons_self, hnone] at hfound
          exact hfound
        | some u =>
          have hu := ih init u (by simpa using hlen) before
          rw [count_sources] at hfound
          exact hfound.trans hu
  rw [List.nodup_iff_count_le_one]
  intro v
  by_cases hv : v ∈ found
  · obtain ⟨route, hroute⟩ := (reachable v hv).exists_route
    exact hcount _ route v rfl hroute
  · rw [List.count_eq_zero.2 hv]
    exact Nat.zero_le 1

end StateGraph.Unshared

/-- Without sharing no vertex is discovered twice, whatever the store knows. -/
theorem Agenda.Explores.nodup_of_unshared {K κ : Type} [Store κ K] {key : V → K} {thorough : Prop}
    {known : κ} {log : List (Event V)} {agenda : Agenda V κ}
    (h : Explores graph key thorough (start graph known) log agenda) (unshared : graph.Unshared)
    (finitary : graph.Finitary) : (discoveries log).Nodup := by
  classical
  have hoffered : (discoveries log : Multiset V) ≤ graph.offered (discoveries log) :=
    (Multiset.le_add_right _ _).trans (h.discoveries_le finitary)
  exact unshared.nodup finitary hoffered fun _ => h.reachable

end Offered

/-! ## Canonical forms with one route -/

section Apart

variable {V K κ : Type} [Store κ K] {graph : StateGraph Id V} {key : V → K} {thorough : Prop}
  {known : κ} {log : List (Event V)} {agenda : Agenda V κ} {frame : Frame V} {source : Option V}
  {target v : V}

/-- No two different routes lead to vertices with the same canonical form. -/
def StateGraph.RoutesApart (graph : StateGraph Id V) (key : V → K) : Prop :=
  ∀ ⦃route route' : List Nat⦄ ⦃v v' : V⦄, graph.Leads route (some v) →
    graph.Leads route' (some v') → key v = key v' → route = route'

/-- All frames of a vertex, or of the roots, have been read beyond a position. -/
def Agenda.ReadBeyond (graph : StateGraph Id V) (agenda : Agenda V κ) (source : Option V)
    (n : Nat) :
    Prop :=
  ∀ frame ∈ agenda.frames, frame.vertex = source →
    ∃ k, n < k ∧ frame.successors = (graph.after source).drop k

namespace Agenda.Explores

theorem exists_route (h : Explores graph key thorough (start graph known) log agenda)
    (opened : Opened log source) : ∃ route, graph.Leads route source := by
  cases source with
  | none => exact ⟨[], .start⟩
  | some u => exact (h.reachable opened).exists_route

variable (faithful : Store.Faithful known)

include faithful

/-- A discovered vertex was read at some position, which all frames have left behind. -/
theorem exists_position (h : Explores graph key thorough (start graph known) log agenda)
    (hv : v ∈ discoveries log) :
    ∃ source n, Opened log source ∧ (graph.after source).get? n = some v ∧
      agenda.ReadBeyond graph source n := by
  induction h with
  | refl => cases hv
  | @step log events agenda next before move ih =>
    have hadvance : ∀ {taken : Frame V} {source : Option V} {n : Nat}, taken ∈ agenda.frames →
        agenda.ReadBeyond graph source n → taken.advance.vertex = source →
        ∃ k, n < k ∧ taken.advance.successors = (graph.after source).drop k := by
      intro taken source n htaken beyond hvertex
      obtain ⟨k, hk, hdrop⟩ := beyond taken htaken hvertex
      refine ⟨k + 1, by omega, ?_⟩
      rw [Frame.advance, hdrop, Sequence.tail_drop]
    cases move with
    | @enter taken others target frames peek new =>
      have htaken : taken ∈ agenda.frames := by simp [frames]
      have hunopened : ¬ Opened log (some target) := before.not_mem_discoveries faithful new
      rw [discoveries_entry, List.mem_append, List.mem_singleton] at hv
      rcases hv with hold | rfl
      · obtain ⟨source, n, opened, hget, beyond⟩ := ih hold
        refine ⟨source, n, opened.append, hget, fun frame hframe hvertex => ?_⟩
        rw [Multiset.mem_cons, Multiset.mem_cons] at hframe
        rcases hframe with rfl | rfl | hothers
        · rw [← hvertex] at opened
          exact absurd opened hunopened
        · exact hadvance htaken beyond hvertex
        · exact beyond frame (by simp [frames, hothers]) hvertex
      · obtain ⟨⟨n, hread⟩, opened⟩ := before.reads htaken
        refine ⟨taken.vertex, n, opened.append, ?_, fun frame hframe hvertex => ?_⟩
        · rw [Sequence.get?, ← hread]
          exact peek
        · rw [Multiset.mem_cons, Multiset.mem_cons] at hframe
          rcases hframe with rfl | rfl | hothers
          · rw [← hvertex] at opened
            exact absurd opened hunopened
          · refine ⟨n + 1, by omega, ?_⟩
            rw [Frame.advance, hread, Sequence.tail_drop]
          · have hnodup := before.nodup_vertices faithful
            rw [frames, Multiset.map_cons, Multiset.nodup_cons] at hnodup
            exact absurd (Multiset.mem_map.2 ⟨frame, hothers, hvertex⟩) hnodup.1
    | @revisit taken others target frames peek old =>
      rw [discoveries_known] at hv
      obtain ⟨source, n, opened, hget, beyond⟩ := ih hv
      refine ⟨source, n, opened.append, hget, fun frame hframe hvertex => ?_⟩
      rcases Multiset.mem_cons.1 hframe with rfl | hothers
      · exact hadvance (by simp [frames]) beyond hvertex
      · exact beyond frame (by simp [frames, hothers]) hvertex
    | close frames peek =>
      rw [discoveries_farewell] at hv
      obtain ⟨source, n, opened, hget, beyond⟩ := ih hv
      refine ⟨source, n, opened.append, hget, fun frame hframe hvertex => ?_⟩
      exact beyond frame (by simp [frames, hframe]) hvertex

/-- If no two routes lead to the same form, then whatever a search that remembers looks at is
new. -/
theorem not_mem_of_routesApart (h : Explores graph key thorough (start graph known) log agenda)
    (apart : graph.RoutesApart key) (hframe : frame ∈ agenda.frames)
    (peek : frame.peek = some target) :
    key target ∉ (discoveries log).map key := by
  intro hmem
  obtain ⟨v, hv, hkey⟩ := List.mem_map.1 hmem
  obtain ⟨source, n, opened, hget, beyond⟩ := h.exists_position faithful hv
  obtain ⟨⟨k, hread⟩, hframe_opened⟩ := h.reads hframe
  obtain ⟨route, hroute⟩ := h.exists_route hframe_opened
  obtain ⟨route', hroute'⟩ := h.exists_route opened
  -- the route to the target is that to `v`, whichever position the frame is taken to be at
  have hposition : ∀ i, frame.successors = (graph.after frame.vertex).drop i →
      route ++ [i] = route' ++ [n] := by
    intro i hi
    have hnext : (graph.after frame.vertex).get? i = some target := by
      rw [Sequence.get?, ← hi]
      exact peek
    exact apart (hroute.step hnext) (hroute'.step hget) hkey.symm
  obtain ⟨rfl, -⟩ := List.append_inj' (hposition k hread) rfl
  obtain rfl := hroute.deterministic hroute'
  obtain ⟨i, hi, hbeyond⟩ := beyond frame hframe rfl
  have hlast := List.append_cancel_left (hposition i hbeyond)
  obtain rfl : i = n := by simpa using hlast
  omega

end Agenda.Explores

end Apart

end StateExplorer
