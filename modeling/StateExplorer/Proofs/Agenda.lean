import Mathlib.Algebra.Order.BigOperators.Group.Multiset
import Mathlib.Algebra.Order.Group.Multiset
import StateExplorer.Proofs.Graph
import StateExplorer.Proofs.Store
import StateExplorer.Search.Record

/-!
# Agendas

A search keeps frames open, each of which holds the successors of a vertex that have not been looked
at. In which order the frames are taken up is what makes a search go depth first or breadth first.
What a search discovers does not depend on it. So an `Agenda` forgets about the order, and a move
may take up any of its frames: it looks at the next successor, which is entered if its canonical
form is new, or it closes the frame. If the moves are `thorough`, a frame is closed only once it has
been read to its end.

Facts that hold of every search are proved here of every exploration of an agenda that starts with
the roots:

* the store has learnt what was discovered (`Explores.known_eq`), so that one that remembers makes
  the search discover no canonical form twice (`Explores.nodup_discoveries`);
* only edges between reachable vertices are looked at (`Explores.lookedAt_mem`,
  `Explores.reachable`);
* every successor of a discovered vertex has been looked at or waits in a frame
  (`Explores.lookedAt_or_pending`), so that a thorough search that has closed all frames has
  discovered the canonical forms of all reachable vertices (`Explores.key_mem_of_ended`).
-/

namespace StateExplorer

open Relation

/-! ## What a log says -/

/-- What holds of each element of a list after those before it goes on to hold when one more is
written down. -/
theorem forall_split_concat {α : Type} {l : List α} {a : α} {P : List α → α → Prop}
    (h : ∀ before x after, l = before ++ x :: after → P before x) (last : P l a) :
    ∀ before x after, l ++ [a] = before ++ x :: after → P before x := by
  intro before x after hsplit
  rcases List.eq_nil_or_concat after with rfl | ⟨after', last', rfl⟩
  · obtain ⟨rfl, hlast⟩ := List.append_inj' hsplit rfl
    cases hlast
    exact last
  · rw [List.concat_eq_append, ← List.cons_append, ← List.append_assoc] at hsplit
    exact h before x after' (List.append_inj' hsplit rfl).1

theorem forall_split_concat_iff {α : Type} {l : List α} {a : α} {P : List α → α → Prop} :
    (∀ before x after, l ++ [a] = before ++ x :: after → P before x) ↔
      (∀ before x after, l = before ++ x :: after → P before x) ∧ P l a := by
  refine ⟨fun h => ⟨fun before x after hsplit => ?_, h l a [] rfl⟩,
    fun h => forall_split_concat h.1 h.2⟩
  exact h before x (after ++ [a]) (by rw [hsplit, List.append_assoc, List.cons_append])

namespace Event

variable {V : Type}

/-- The vertex that an event discovers. -/
def discovery? : Event V → Option V
  | entry _ target => some target
  | known _ _ => none
  | exit _ _ => none

/-- The vertices discovered in a log, in this order. -/
def discoveries (log : List (Event V)) : List V := log.filterMap discovery?

/-- The search has looked at `target` as a successor of `source`. -/
def LookedAt (log : List (Event V)) (source : Option V) (target : V) : Prop :=
  entry source target ∈ log ∨ known source target ∈ log

/-- The search has begun to look at the successors of `source`. It begins with the roots. -/
def Opened (log : List (Event V)) : Option V → Prop
  | none => True
  | some vertex => vertex ∈ discoveries log

variable {log : List (Event V)} {source source' : Option V} {target target' vertex : V}
  {frame : Frame V}

@[simp] theorem discoveries_nil : discoveries ([] : List (Event V)) = [] := rfl

theorem discoveries_append (events : List (Event V)) :
    discoveries (log ++ events) = discoveries log ++ discoveries events :=
  List.filterMap_append

@[simp] theorem discoveries_entry :
    discoveries (log ++ [entry source target]) = discoveries log ++ [target] := by
  simp [discoveries, discovery?]

@[simp] theorem discoveries_known :
    discoveries (log ++ [known source target]) = discoveries log := by
  simp [discoveries, discovery?]

@[simp] theorem discoveries_exit : discoveries (log ++ [exit vertex frame]) = discoveries log := by
  simp [discoveries, discovery?]

@[simp] theorem lookedAt_nil : ¬ LookedAt [] source target := by
  simp [LookedAt]

@[simp] theorem lookedAt_entry :
    LookedAt (log ++ [entry source target]) source' target' ↔
      LookedAt log source' target' ∨ (source' = source ∧ target' = target) := by
  simp only [LookedAt, List.mem_append, List.mem_singleton, Event.entry.injEq,
    reduceCtorEq, or_false]
  exact or_right_comm

@[simp] theorem lookedAt_known :
    LookedAt (log ++ [known source target]) source' target' ↔
      LookedAt log source' target' ∨ (source' = source ∧ target' = target) := by
  simp only [LookedAt, List.mem_append, List.mem_singleton, Event.known.injEq,
    reduceCtorEq, or_false]
  exact or_assoc.symm

@[simp] theorem lookedAt_exit :
    LookedAt (log ++ [exit vertex frame]) source target ↔ LookedAt log source target := by
  simp [LookedAt]

theorem mem_discoveries_of_entry (h : entry source target ∈ log) : target ∈ discoveries log :=
  List.mem_filterMap.2 ⟨_, h, rfl⟩

theorem Opened.append {events : List (Event V)} (h : Opened log source) :
    Opened (log ++ events) source := by
  cases source with
  | none => trivial
  | some u =>
    have hu : u ∈ discoveries log := h
    show u ∈ discoveries (log ++ events)
    rw [discoveries_append]
    exact List.mem_append_left _ hu

theorem opened_entry {u : V} :
    Opened (log ++ [entry source target]) (some u) ↔ Opened log (some u) ∨ u = target := by
  simp [Opened]

theorem opened_known : Opened (log ++ [known source target]) source' ↔ Opened log source' := by
  cases source' <;> simp [Opened]

theorem opened_exit : Opened (log ++ [exit vertex frame]) source ↔ Opened log source := by
  cases source <;> simp [Opened]

end Event

open Event

/-! ## Frames -/

namespace Frame

variable {V : Type} {graph : StateGraph Id V} {frame : Frame V} {v : V}

/-- The frame of a vertex, or of the roots, before anything has been read. -/
def whole (graph : StateGraph Id V) (vertex : Option V) : Frame V where
  vertex
  successors := graph.after vertex

/-- What the visitor is told when the frame is dropped. -/
def farewell (frame : Frame V) : List (Event V) :=
  match frame.vertex with
  | none => []
  | some vertex => [.exit vertex frame]

/-- What is left to read in a frame is the rest of the successors of its vertex. -/
def Reads (graph : StateGraph Id V) (frame : Frame V) : Prop :=
  ∃ n, frame.successors = (graph.after frame.vertex).drop n

namespace Reads

theorem whole (vertex : Option V) :
    Frame.Reads graph { vertex, successors := graph.after vertex } := by
  refine ⟨0, ?_⟩
  show graph.after vertex = (graph.after vertex).drop 0
  cases graph.after vertex <;> simp [Sequence.drop]

theorem advance (h : frame.Reads graph) : frame.advance.Reads graph := by
  obtain ⟨n, hn⟩ := h
  refine ⟨n + 1, ?_⟩
  show frame.successors.tail = _
  rw [hn, Sequence.tail_drop]
  rfl

theorem mem (h : frame.Reads graph) (hv : v ∈ frame.successors) : v ∈ graph.after frame.vertex := by
  obtain ⟨n, hn⟩ := h
  rw [hn] at hv
  exact Sequence.mem_of_mem_drop hv

theorem peek_mem (h : frame.Reads graph) (hv : frame.peek = some v) :
    v ∈ graph.after frame.vertex :=
  h.mem ((Sequence.mem_iff_of_head? hv).2 (Or.inl rfl))

end Reads

end Frame

/-- The elements of a sequence that has an end. -/
def Sequence.unread {α : Type} : Sequence α → List α
  | .finite items => items
  | .endless _ _ => []

@[simp] theorem Sequence.unread_finite {α : Type} (items : List α) :
    (Sequence.finite items).unread = items := rfl

namespace Frame.Reads

variable {V : Type} {graph : StateGraph Id V} {frame : Frame V} {v : V}

theorem finite (h : frame.Reads graph) (finitary : graph.Finitary) :
    frame.successors = .finite frame.successors.unread := by
  obtain ⟨n, hn⟩ := h
  obtain ⟨items, hitems⟩ := finitary frame.vertex
  rw [hn, hitems]
  rfl

/-- Reading on in a frame takes one element from what is left to read. -/
theorem unread_advance (h : frame.Reads graph) (finitary : graph.Finitary)
    (peek : frame.peek = some v) :
    frame.successors.unread = v :: frame.advance.successors.unread := by
  have hfinite := h.finite finitary
  unfold Frame.peek at peek
  rw [hfinite] at peek
  show _ = v :: frame.successors.tail.unread
  rw [hfinite]
  cases hitems : frame.successors.unread with
  | nil => rw [hitems] at peek; cases peek
  | cons u items =>
    rw [hitems] at peek
    cases peek
    rfl

/-- Nothing is left to read in a frame that has been read to its end. -/
theorem unread_of_ended (h : frame.Reads graph) (finitary : graph.Finitary)
    (peek : frame.peek = none) : frame.successors.unread = [] := by
  unfold Frame.peek at peek
  rw [h.finite finitary] at peek
  simpa using peek

end Frame.Reads

/-! ## Moves -/

/-- The open frames of a search, in no order, and what it knows. -/
structure Agenda (V κ : Type) where
  /-- The open frames. -/
  frames : Multiset (Frame V)
  /-- The canonical forms of all vertices discovered so far. -/
  known : κ

namespace Agenda

variable {V K κ : Type}

/-- The agenda of a search that is about to look at the roots. -/
def start (graph : StateGraph Id V) (known : κ) : Agenda V κ where
  frames := {Frame.whole graph none}
  known

/-- The vertices that wait to be looked at, with repetitions. -/
def waiting (agenda : Agenda V κ) : Multiset V :=
  (agenda.frames.map fun frame => (frame.successors.unread : Multiset V)).sum

/-- A vertex that waits to be looked at as a successor of `source`. -/
def Pending (agenda : Agenda V κ) (source : Option V) (target : V) : Prop :=
  ∃ frame ∈ agenda.frames, frame.vertex = source ∧ target ∈ frame.successors

section Pending

variable {agenda : Agenda V κ} {frame : Frame V} {others : Multiset (Frame V)} {source : Option V}
  {target v : V}

/-- When a successor is read, it is the only one that does not wait any more. -/
theorem Pending.advance (h : agenda.Pending source target)
    (frames : agenda.frames = frame ::ₘ others) (peek : frame.peek = some v) :
    (∃ frame' ∈ frame.advance ::ₘ others, frame'.vertex = source ∧ target ∈ frame'.successors) ∨
      (source = frame.vertex ∧ target = v) := by
  obtain ⟨frame', hframe, rfl, htarget⟩ := h
  rw [frames, Multiset.mem_cons] at hframe
  rcases hframe with rfl | hothers
  · rcases (Sequence.mem_iff_of_head? peek).1 htarget with rfl | htail
    · exact Or.inr ⟨rfl, rfl⟩
    · exact Or.inl ⟨frame'.advance, Multiset.mem_cons_self _ _, rfl, htail⟩
  · exact Or.inl ⟨frame', Multiset.mem_cons_of_mem hothers, rfl, htarget⟩

/-- Nothing waits in a frame that has been read to its end. -/
theorem Pending.close (h : agenda.Pending source target) (frames : agenda.frames = frame ::ₘ others)
    (peek : frame.peek = none) :
    ∃ frame' ∈ others, frame'.vertex = source ∧ target ∈ frame'.successors := by
  obtain ⟨frame', hframe, hsource, htarget⟩ := h
  rw [frames, Multiset.mem_cons] at hframe
  rcases hframe with rfl | hothers
  · exact absurd htarget (Sequence.not_mem_of_head?_eq_none peek)
  · exact ⟨frame', hothers, hsource, htarget⟩

end Pending

section Waiting

variable {graph : StateGraph Id V} {agenda : Agenda V κ} {frame : Frame V}
  {others : Multiset (Frame V)} {target : V}

/-- When a vertex is entered, its neighbours wait in its place. -/
theorem waiting_enter (reads : frame.Reads graph) (finitary : graph.Finitary)
    (frames : agenda.frames = frame ::ₘ others) (peek : frame.peek = some target) (known : κ) :
    (Agenda.mk (Frame.whole graph (some target) ::ₘ frame.advance ::ₘ others) known).waiting +
      {target} = agenda.waiting + ((graph.after (some target)).unread : Multiset V) := by
  simp only [waiting, frames, Multiset.map_cons, Multiset.sum_cons,
    reads.unread_advance finitary peek]
  rw [← Multiset.cons_coe, ← Multiset.singleton_add, Frame.whole]
  ac_rfl

theorem waiting_revisit (reads : frame.Reads graph) (finitary : graph.Finitary)
    (frames : agenda.frames = frame ::ₘ others) (peek : frame.peek = some target) (known : κ) :
    (Agenda.mk (frame.advance ::ₘ others) known).waiting + {target} = agenda.waiting := by
  simp only [waiting, frames, Multiset.map_cons, Multiset.sum_cons,
    reads.unread_advance finitary peek]
  rw [← Multiset.cons_coe, ← Multiset.singleton_add]
  ac_rfl

theorem waiting_close (frames : agenda.frames = frame ::ₘ others) (known : κ) :
    (Agenda.mk others known).waiting + (frame.successors.unread : Multiset V) = agenda.waiting := by
  simp only [waiting, frames, Multiset.map_cons, Multiset.sum_cons]
  ac_rfl

end Waiting

variable [Store κ K]

/-- What a search does to its agenda in one step, and what its visitor is told about it. -/
inductive Move (graph : StateGraph Id V) (key : V → K) (thorough : Prop) (agenda : Agenda V κ) :
    List (Event V) → Agenda V κ → Prop
  | enter {frame : Frame V} {others : Multiset (Frame V)} {target : V}
      (frames : agenda.frames = frame ::ₘ others) (peek : frame.peek = some target)
      (new : Store.knows agenda.known (key target) = false) :
      Move graph key thorough agenda [.entry frame.vertex target]
        { frames := Frame.whole graph (some target) ::ₘ frame.advance ::ₘ others
          known := (Store.learn agenda.known (key target)).2 }
  | revisit {frame : Frame V} {others : Multiset (Frame V)} {target : V}
      (frames : agenda.frames = frame ::ₘ others) (peek : frame.peek = some target)
      (old : Store.knows agenda.known (key target) = true) :
      Move graph key thorough agenda [.known frame.vertex target]
        { frames := frame.advance ::ₘ others, known := agenda.known }
  | close {frame : Frame V} {others : Multiset (Frame V)}
      (frames : agenda.frames = frame ::ₘ others) (peek : thorough → frame.peek = none) :
      Move graph key thorough agenda frame.farewell { frames := others, known := agenda.known }

/-- The agenda `first` becomes another one while the visitor is told the log. -/
inductive Explores (graph : StateGraph Id V) (key : V → K) (thorough : Prop) (first : Agenda V κ) :
    List (Event V) → Agenda V κ → Prop
  | refl : Explores graph key thorough first [] first
  | step {log events : List (Event V)} {agenda next : Agenda V κ}
      (before : Explores graph key thorough first log agenda)
      (move : Move graph key thorough agenda events next) :
      Explores graph key thorough first (log ++ events) next

end Agenda

/-! Closing a frame adds nothing to what the log says about discoveries. -/

section Farewell

variable {V : Type} {log : List (Event V)} {frame : Frame V} {source : Option V} {target : V}

@[simp] theorem discoveries_farewell : discoveries (log ++ frame.farewell) = discoveries log := by
  unfold Frame.farewell
  split <;> simp

@[simp] theorem lookedAt_farewell :
    LookedAt (log ++ frame.farewell) source target ↔ LookedAt log source target := by
  unfold Frame.farewell
  split <;> simp

theorem opened_farewell : Opened (log ++ frame.farewell) source ↔ Opened log source := by
  unfold Frame.farewell
  split
  · rw [List.append_nil]
  · exact opened_exit

end Farewell

/-! ## Facts about every exploration from the roots -/

namespace Agenda.Explores

variable {V K κ : Type} [Store κ K] {graph : StateGraph Id V} {key : V → K} {thorough : Prop}
  {known : κ} {log : List (Event V)} {agenda : Agenda V κ} {frame : Frame V} {target v : V}
  {source : Option V}

/-- The store has learnt what was discovered, in this order. -/
theorem known_eq (h : Explores graph key thorough (start graph known) log agenda) :
    agenda.known = Store.learnAll known ((discoveries log).map key) := by
  induction h with
  | refl => rfl
  | step before move ih =>
    cases move with
    | enter frames peek new => simp [ih]
    | revisit frames peek old => simp [ih]
    | close frames peek => simp [ih]

/-- Each frame reads the successors of a vertex that has been discovered, or the roots. -/
theorem reads (h : Explores graph key thorough (start graph known) log agenda)
    (hframe : frame ∈ agenda.frames) : frame.Reads graph ∧ Opened log frame.vertex := by
  induction h generalizing frame with
  | refl =>
    rw [start, Multiset.mem_singleton] at hframe
    rw [hframe]
    exact ⟨Frame.Reads.whole none, trivial⟩
  | @step log events agenda next before move ih =>
    cases move with
    | @enter taken others target frames peek new =>
      have htaken := ih (by simp [frames] : taken ∈ agenda.frames)
      simp only [Multiset.mem_cons] at hframe
      rcases hframe with rfl | rfl | hothers
      · exact ⟨Frame.Reads.whole (some target), opened_entry.2 (Or.inr rfl)⟩
      · exact ⟨htaken.1.advance, htaken.2.append⟩
      · have hold := ih (by simp [frames, hothers] : frame ∈ agenda.frames)
        exact ⟨hold.1, hold.2.append⟩
    | @revisit taken others target frames peek old =>
      have htaken := ih (by simp [frames] : taken ∈ agenda.frames)
      simp only [Multiset.mem_cons] at hframe
      rcases hframe with rfl | hothers
      · exact ⟨htaken.1.advance, htaken.2.append⟩
      · have hold := ih (by simp [frames, hothers] : frame ∈ agenda.frames)
        exact ⟨hold.1, hold.2.append⟩
    | close frames peek =>
      have hold := ih (by simp [frames, hframe] : frame ∈ agenda.frames)
      exact ⟨hold.1, hold.2.append⟩

theorem target_mem (h : Explores graph key thorough (start graph known) log agenda)
    (hframe : frame ∈ agenda.frames) (peek : frame.peek = some target) :
    target ∈ graph.after frame.vertex :=
  (h.reads hframe).1.peek_mem peek

/-- Only edges of the graph are looked at, and only those of vertices that have been discovered. -/
theorem lookedAt_mem (h : Explores graph key thorough (start graph known) log agenda)
    (looked : LookedAt log source target) : target ∈ graph.after source ∧ Opened log source := by
  induction h with
  | refl => exact absurd looked lookedAt_nil
  | @step log events agenda next before move ih =>
    cases move with
    | @enter taken others vertex frames peek new =>
      have hframe : taken ∈ agenda.frames := by simp [frames]
      rcases lookedAt_entry.1 looked with hold | ⟨rfl, rfl⟩
      · exact ⟨(ih hold).1, (ih hold).2.append⟩
      · exact ⟨before.target_mem hframe peek, (before.reads hframe).2.append⟩
    | @revisit taken others vertex frames peek old =>
      have hframe : taken ∈ agenda.frames := by simp [frames]
      rcases lookedAt_known.1 looked with hold | ⟨rfl, rfl⟩
      · exact ⟨(ih hold).1, (ih hold).2.append⟩
      · exact ⟨before.target_mem hframe peek, (before.reads hframe).2.append⟩
    | close frames peek =>
      have hold := lookedAt_farewell.1 looked
      exact ⟨(ih hold).1, (ih hold).2.append⟩

/-- Every discovered vertex can be reached from a root. -/
theorem reachable (h : Explores graph key thorough (start graph known) log agenda)
    (hv : v ∈ discoveries log) : graph.Reachable v := by
  induction h generalizing v with
  | refl => cases hv
  | @step log events agenda next before move ih =>
    cases move with
    | @enter taken others target frames peek new =>
      rw [discoveries_entry, List.mem_append, List.mem_singleton] at hv
      rcases hv with hold | rfl
      · exact ih hold
      · have hframe : taken ∈ agenda.frames := by simp [frames]
        have hmem := before.target_mem hframe peek
        have hopen := (before.reads hframe).2
        cases hs : taken.vertex with
        | none => rw [hs] at hmem; exact ⟨v, hmem, .refl⟩
        | some u =>
          rw [hs] at hmem hopen
          exact (ih hopen).edge hmem
    | revisit frames peek old => rw [discoveries_known] at hv; exact ih hv
    | close frames peek => rw [discoveries_farewell] at hv; exact ih hv

/-- What is looked at next can be reached from a root. -/
theorem target_reachable (h : Explores graph key thorough (start graph known) log agenda)
    (hframe : frame ∈ agenda.frames) (hmem : target ∈ graph.after frame.vertex) :
    graph.Reachable target := by
  have hopen := (h.reads hframe).2
  cases hs : frame.vertex with
  | none => rw [hs] at hmem; exact ⟨target, hmem, .refl⟩
  | some u =>
    rw [hs] at hmem hopen
    exact (h.reachable hopen).edge hmem

/-- Every successor of a discovered vertex has been looked at or waits in a frame, if the search is
thorough. -/
theorem lookedAt_or_pending (h : Explores graph key thorough (start graph known) log agenda)
    (hthorough : thorough) (opened : Opened log source) (hmem : target ∈ graph.after source) :
    LookedAt log source target ∨ agenda.Pending source target := by
  induction h with
  | refl =>
    cases source with
    | none => exact Or.inr ⟨_, Multiset.mem_singleton_self _, rfl, hmem⟩
    | some u => cases opened
  | @step log events agenda next before move ih =>
    cases move with
    | @enter taken others vertex frames peek new =>
      have hread : Opened log source →
          LookedAt (log ++ [.entry taken.vertex vertex]) source target ∨
          ∃ frame ∈ taken.advance ::ₘ others, frame.vertex = source ∧
            target ∈ frame.successors := by
        intro hold
        rcases ih hold with hlooked | hpending
        · exact Or.inl (lookedAt_entry.2 (Or.inl hlooked))
        · rcases hpending.advance frames peek with hadvance | hnow
          · exact Or.inr hadvance
          · exact Or.inl (lookedAt_entry.2 (Or.inr hnow))
      have hpush : (∃ frame ∈ taken.advance ::ₘ others, frame.vertex = source ∧
          target ∈ frame.successors) →
          ∃ frame ∈ Frame.whole graph (some vertex) ::ₘ taken.advance ::ₘ others,
            frame.vertex = source ∧ target ∈ frame.successors := by
        rintro ⟨frame, hframe, hrest⟩
        exact ⟨frame, Multiset.mem_cons_of_mem hframe, hrest⟩
      cases source with
      | none => exact (hread trivial).imp id hpush
      | some u =>
        rcases opened_entry.1 opened with hold | rfl
        · exact (hread hold).imp id hpush
        · exact Or.inr ⟨_, Multiset.mem_cons_self _ _, rfl, hmem⟩
    | @revisit taken others vertex frames peek old =>
      rcases ih (opened_known.1 opened) with hlooked | hpending
      · exact Or.inl (lookedAt_known.2 (Or.inl hlooked))
      · rcases hpending.advance frames peek with hadvance | hnow
        · exact Or.inr hadvance
        · exact Or.inl (lookedAt_known.2 (Or.inr hnow))
    | close frames peek =>
      rcases ih (opened_farewell.1 opened) with hlooked | hpending
      · exact Or.inl (lookedAt_farewell.2 hlooked)
      · exact Or.inr (hpending.close frames (peek hthorough))

/-! ### What is known -/

/-- What has been looked at was known at first or has been discovered by its canonical form, if the
store knows nothing else. -/
theorem knows_of_lookedAt (honest : Store.Honest known)
    (h : Explores graph key thorough (start graph known) log agenda)
    (looked : LookedAt log source target) :
    Store.knows known (key target) = true ∨ key target ∈ (discoveries log).map key := by
  induction h with
  | refl => exact absurd looked lookedAt_nil
  | @step log events agenda next before move ih =>
    cases move with
    | enter frames peek new =>
      rw [discoveries_entry, List.map_append, List.mem_append]
      rcases lookedAt_entry.1 looked with hold | ⟨-, rfl⟩
      · exact (ih hold).imp id Or.inl
      · exact Or.inr (Or.inr (List.mem_singleton_self _))
    | revisit frames peek old =>
      rw [discoveries_known]
      rcases lookedAt_known.1 looked with hold | ⟨-, rfl⟩
      · exact ih hold
      · rw [before.known_eq] at old
        exact honest _ _ old
    | close frames peek =>
      rw [discoveries_farewell]
      exact ih (lookedAt_farewell.1 looked)

/-- When all frames are closed, every successor of a discovered vertex, and every root, was known at
first or has been discovered by its canonical form. -/
theorem closed_of_ended (honest : Store.Honest known)
    (h : Explores graph key thorough (start graph known) log agenda) (hthorough : thorough)
    (ended : agenda.frames = 0) (opened : Opened log source) (hmem : target ∈ graph.after source) :
    Store.knows known (key target) = true ∨ key target ∈ (discoveries log).map key := by
  rcases h.lookedAt_or_pending hthorough opened hmem with hlooked | ⟨frame, hframe, -⟩
  · exact h.knows_of_lookedAt honest hlooked
  · rw [ended] at hframe
    exact absurd hframe (Multiset.notMem_zero frame)

/-- If vertices with the same form have neighbours with the same forms, the forms of all reachable
vertices have been discovered by a search that knew nothing at first. -/
theorem key_mem_of_ended (honest : Store.Honest known) (blank : ∀ k, Store.knows known k = false)
    (h : Explores graph key thorough (start graph known) log agenda) (hthorough : thorough)
    (uniform : graph.Uniform key) (ended : agenda.frames = 0) (hv : graph.Reachable v) :
    key v ∈ (discoveries log).map key := by
  have hclosed : ∀ {source target}, Opened log source → target ∈ graph.after source →
      key target ∈ (discoveries log).map key := by
    intro source target hopen hmem
    rcases h.closed_of_ended honest hthorough ended hopen hmem with hknown | hfound
    · rw [blank] at hknown
      cases hknown
    · exact hfound
  obtain ⟨root, hroot, hpath⟩ := hv
  induction hpath with
  | refl =>
    have hopen : Opened log none := trivial
    exact hclosed hopen hroot
  | @tail u w hpath hedge ih =>
    -- `u` itself need not be discovered, but a vertex with its canonical form is
    obtain ⟨d, hd, hkey⟩ := List.mem_map.1 ih
    obtain ⟨y, hy, hyw⟩ := uniform ⟨root, hroot, hpath⟩ (h.reachable hd) hkey.symm hedge
    rw [← hyw]
    have hopen : Opened log (some d) := hd
    exact hclosed hopen hy

/-! ### Stores that forget -/

section Forgetful

variable (forgetful : Store.Forgetful K known)

include forgetful

/-- A search that remembers nothing enters all that it looks at. -/
theorem mem_of_lookedAt (h : Explores graph key thorough (start graph known) log agenda)
    (looked : LookedAt log source target) : target ∈ discoveries log := by
  induction h with
  | refl => exact absurd looked lookedAt_nil
  | @step log events agenda next before move ih =>
    cases move with
    | enter frames peek new =>
      rw [discoveries_entry, List.mem_append]
      rcases lookedAt_entry.1 looked with hold | ⟨-, rfl⟩
      · exact Or.inl (ih hold)
      · exact Or.inr (List.mem_singleton_self _)
    | revisit frames peek old =>
      rw [before.known_eq, forgetful] at old
      cases old
    | close frames peek =>
      rw [discoveries_farewell]
      exact ih (lookedAt_farewell.1 looked)

/-- So it has discovered all reachable vertices when all frames are closed, if it is thorough. -/
theorem mem_of_ended (h : Explores graph key thorough (start graph known) log agenda)
    (hthorough : thorough) (ended : agenda.frames = 0) (hv : graph.Reachable v) :
    v ∈ discoveries log := by
  have hclosed : ∀ {source target}, Opened log source → target ∈ graph.after source →
      target ∈ discoveries log := by
    intro source target hopen hmem
    rcases h.lookedAt_or_pending hthorough hopen hmem with hlooked | ⟨frame, hframe, -⟩
    · exact h.mem_of_lookedAt forgetful hlooked
    · rw [ended] at hframe
      exact absurd hframe (Multiset.notMem_zero frame)
  obtain ⟨root, hroot, hpath⟩ := hv
  induction hpath with
  | refl =>
    have hopen : Opened log none := trivial
    exact hclosed hopen hroot
  | tail _ hedge ih =>
    have hopen : Opened log (some _) := ih
    exact hclosed hopen hedge

end Forgetful

section Faithful

variable (faithful : Store.Faithful known)

include faithful

theorem knows_iff (h : Explores graph key thorough (start graph known) log agenda) (k : K) :
    Store.knows agenda.known k = true ↔
      Store.knows known k = true ∨ k ∈ (discoveries log).map key := by
  rw [h.known_eq]
  exact faithful _ k

/-- What is new to the store has not been discovered. -/
theorem not_mem_discoveries (h : Explores graph key thorough (start graph known) log agenda)
    (new : Store.knows agenda.known (key v) = false) : v ∉ discoveries log := by
  intro hv
  have hknows := (h.knows_iff faithful (key v)).2 (Or.inr (List.mem_map_of_mem hv))
  rw [new] at hknows
  cases hknows

/-- No vertex has two open frames. -/
theorem nodup_vertices (h : Explores graph key thorough (start graph known) log agenda) :
    (agenda.frames.map Frame.vertex).Nodup := by
  induction h with
  | refl => exact Multiset.nodup_singleton none
  | @step log events agenda next before move ih =>
    cases move with
    | @enter taken others target frames peek new =>
      rw [frames, Multiset.map_cons] at ih
      rw [Multiset.map_cons, Multiset.map_cons]
      refine Multiset.nodup_cons.2 ⟨fun hmem => ?_, ih⟩
      have hold : some target ∈ agenda.frames.map Frame.vertex := by
        rw [frames, Multiset.map_cons]
        exact hmem
      obtain ⟨frame, hframe, hvertex⟩ := Multiset.mem_map.1 hold
      have hopened : Opened log frame.vertex := (before.reads hframe).2
      rw [hvertex] at hopened
      exact before.not_mem_discoveries faithful new hopened
    | revisit frames peek old =>
      rw [frames, Multiset.map_cons] at ih
      rw [Multiset.map_cons]
      exact ih
    | close frames peek =>
      rw [frames, Multiset.map_cons] at ih
      exact (Multiset.nodup_cons.1 ih).2

/-- No canonical form is discovered that was known before or discovered earlier. -/
theorem nodup_discoveries (h : Explores graph key thorough (start graph known) log agenda) :
    ((discoveries log).map key).Nodup ∧
      ∀ v ∈ discoveries log, Store.knows known (key v) = false := by
  induction h with
  | refl => exact ⟨List.nodup_nil, fun v hv => by cases hv⟩
  | @step log events agenda next before move ih =>
    cases move with
    | @enter taken others target frames peek new =>
      have hnot : ¬ (Store.knows known (key target) = true ∨
          key target ∈ (discoveries log).map key) := by
        rw [← before.knows_iff faithful, new]
        exact Bool.false_ne_true
      rw [not_or] at hnot
      rw [discoveries_entry, List.map_append, List.map_singleton]
      refine ⟨?_, ?_⟩
      · rw [List.nodup_append]
        refine ⟨ih.1, List.nodup_singleton _, ?_⟩
        intro a ha b hb hab
        rw [List.mem_singleton] at hb
        rw [hab, hb] at ha
        exact hnot.2 ha
      · intro v hv
        rw [List.mem_append, List.mem_singleton] at hv
        rcases hv with hold | rfl
        · exact ih.2 v hold
        · exact Bool.eq_false_iff.2 hnot.1
    | revisit frames peek old => rw [discoveries_known]; exact ih
    | close frames peek => rw [discoveries_farewell]; exact ih

end Faithful

end Agenda.Explores

end StateExplorer
