import Mathlib.Data.Finset.Card
import StateExplorer.Proofs.Probing.Operations

/-!
# Sets with linear probing and finite sets

A set that serves requests does so as a finite set would, whatever its hash is. The set `Represents`
the finite set: it is well-formed and has the same elements. Each request keeps this, and each
answer follows from it.
-/

namespace StateExplorer

/-- A request to a set. -/
inductive Request (K : Type) where
  | insert (key : K)
  | erase (key : K)
  | contains (key : K)
  | size
  | toList

/-- What a set answers to a request. -/
inductive Reply (K : Type) where
  | flag (value : Bool)
  | count (number : Nat)
  | elements (keys : List K)

namespace Request

variable {K : Type} [DecidableEq K]

/-- The finite set after a request. -/
def update (elements : Finset K) : Request K → Finset K
  | insert key => Insert.insert key elements
  | erase key => elements.erase key
  | _ => elements

/-- The reply is the one that the finite set gives. -/
def IsAnswered (elements : Finset K) : Request K → Reply K → Prop
  | insert key, .flag absent => absent = true ↔ key ∉ elements
  | erase key, .flag present => present = true ↔ key ∈ elements
  | contains key, .flag present => present = true ↔ key ∈ elements
  | size, .count number => number = elements.card
  | toList, .elements keys => keys.Nodup ∧ keys.toFinset = elements
  | _, _ => False

end Request

namespace ProbingSet

open Slot

variable {K : Type} [BEq K] {s : ProbingSet K} {elements : Finset K}

/-- The answer to a request, and the set after it. -/
def serve (s : ProbingSet K) : Request K → Reply K × ProbingSet K
  | .insert key => (.flag (s.insert key).1, (s.insert key).2)
  | .erase key => (.flag (s.erase key).1, (s.erase key).2)
  | .contains key => (.flag (s.contains key), s)
  | .size => (.count s.size, s)
  | .toList => (.elements s.toList, s)

/-- The set after a list of requests. -/
def serveAll (s : ProbingSet K) (requests : List (Request K)) : ProbingSet K :=
  requests.foldl (fun s request => (s.serve request).2) s

/-- The form of a table between two requests. Each search ends after fewer slots than there are. -/
structure InShape (s : ProbingSet K) : Prop where
  capacity : ∃ e, s.slots.size = 2 ^ e
  capacity_ge : 8 ≤ s.slots.size
  size_eq : s.size = s.slots.countP isOccupied
  deleted_eq : s.deleted = s.slots.countP isDeleted
  vacancy : ∃ e : Nat, s.slots[e]? = some .empty
  lands : ∀ key, ∃ n < s.slots.size, Lands s.slots key (s.hash key).toNat n (s.locate key)

/-- The set is well-formed and has the elements of the finite set. -/
structure Represents (s : ProbingSet K) (elements : Finset K) : Prop where
  wellFormed : s.WellFormed
  mem_iff : ∀ key, key ∈ s.toList ↔ key ∈ elements

omit [BEq K] in
theorem represents_empty (hash : K → UInt64) : (empty hash).Represents ∅ where
  wellFormed := wellFormed_empty hash
  mem_iff key := by simp

variable [LawfulBEq K]

theorem WellFormed.inShape (h : s.WellFormed) : s.InShape where
  capacity := h.capacity
  capacity_ge := h.minCapacity_le
  size_eq := h.size_eq.trans (length_keys s.slots)
  deleted_eq := h.deleted_eq
  vacancy := by
    obtain ⟨e, he, hread⟩ := h.vacancy
    rw [getD_of_lt he] at hread
    exact ⟨e, by rw [Array.getElem?_eq_getElem he, hread]⟩
  lands key := locateIn_lands h.capacity s.hash key h.vacancy

variable [DecidableEq K]

omit [BEq K] [LawfulBEq K] in
theorem Represents.toFinset_eq (h : s.Represents elements) : s.toList.toFinset = elements := by
  ext key
  rw [List.mem_toFinset, h.mem_iff]

omit [BEq K] [LawfulBEq K] in
theorem Represents.size_eq (h : s.Represents elements) : s.size = elements.card := by
  rw [← h.toFinset_eq, List.toFinset_card_of_nodup h.wellFormed.nodup, h.wellFormed.size_eq]

theorem Represents.serve (h : s.Represents elements) (request : Request K) :
    request.IsAnswered elements (s.serve request).1 ∧
      (s.serve request).2.Represents (request.update elements) := by
  cases request with
  | insert key =>
    obtain ⟨hflag, hwell, hmem⟩ := h.wellFormed.insert key
    refine ⟨hflag.trans (not_congr (h.mem_iff key)), hwell, fun k => ?_⟩
    rw [Request.update, Finset.mem_insert, ← h.mem_iff]
    exact hmem k
  | erase key =>
    obtain ⟨hflag, hwell, hmem⟩ := h.wellFormed.erase key
    refine ⟨hflag.trans (h.mem_iff key), hwell, fun k => ?_⟩
    rw [Request.update, Finset.mem_erase, ← h.mem_iff]
    exact hmem k
  | contains key => exact ⟨(h.wellFormed.contains_iff key).trans (h.mem_iff key), h⟩
  | size => exact ⟨h.size_eq, h⟩
  | toList => exact ⟨⟨h.wellFormed.nodup, h.toFinset_eq⟩, h⟩

theorem Represents.serveAll (h : s.Represents elements) (requests : List (Request K)) :
    (s.serveAll requests).Represents (requests.foldl Request.update elements) := by
  induction requests generalizing s elements with
  | nil => exact h
  | cons request requests ih => exact ih (h.serve request).2

/-- Whatever requests a set has served, its table is in shape, and it answers the next request as
the finite set does that has served the same requests. -/
theorem serve_refines_finset (hash : K → UInt64) (requests : List (Request K)) :
    ((empty hash).serveAll requests).InShape ∧ ∀ request : Request K,
      request.IsAnswered (requests.foldl Request.update ∅)
        (((empty hash).serveAll requests).serve request).1 := by
  have h := (represents_empty hash).serveAll requests
  exact ⟨h.wellFormed.inShape, fun request => (h.serve request).1⟩

/-- All elements share one hash here, the seventh of them makes the table grow, and a tombstone is
used again. -/
theorem serve_refines_finset_of_colliding :
    let requests := [0, 1, 2, 3, 4, 5, 6].map Request.insert ++ [Request.erase 2, Request.insert 7]
    let s := (empty fun _ : Nat => 5).serveAll requests
    s.InShape ∧ (Request.contains 2).IsAnswered {0, 1, 3, 4, 5, 6, 7} (s.serve (.contains 2)).1 ∧
      Request.size.IsAnswered {0, 1, 3, 4, 5, 6, 7} (s.serve .size).1 := by
  intro requests s
  obtain ⟨hshape, hanswer⟩ := serve_refines_finset (fun _ : Nat => 5) requests
  have hset : requests.foldl Request.update ∅ = {0, 1, 3, 4, 5, 6, 7} := by decide
  rw [hset] at hanswer
  exact ⟨hshape, hanswer _, hanswer _⟩

end ProbingSet

end StateExplorer
