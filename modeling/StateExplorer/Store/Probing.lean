import StateExplorer.Render
import StateExplorer.Store

/-!
# A set with linear probing

`ProbingSet` keeps its elements in a table of slots. The search for an element starts at the slot
that its hash names and moves on slot by slot, around the end of the table, until it meets the
element or an empty slot. A removed element leaves a tombstone behind, so that searches which ran
over it still reach what lies behind it. The tombstones go away when the table is rebuilt.

The table is rebuilt before elements and tombstones together would fill more than three quarters of
it, so a search always ends at an empty slot at the latest.
-/

namespace StateExplorer

/-- A place in the table. -/
inductive Slot (K : Type) where
  /-- Never used since the table was built. -/
  | empty
  /-- Left behind by a removed element. -/
  | deleted
  /-- Holds an element. -/
  | occupied (key : K)
  deriving DecidableEq, Repr

namespace Slot

variable {K : Type}

/-- The element in a slot. -/
def key? : Slot K → Option K
  | occupied key => some key
  | _ => none

instance [Render K] : Render (Slot K) where
  render
    | .empty => "Empty"
    | .deleted => "Deleted"
    | .occupied key => s!"Occupied({render key})"

end Slot

/-- A set of elements in a table with linear probing. -/
structure ProbingSet (K : Type) where
  /-- Names the slot at which the search for an element starts. -/
  hash : K → UInt64
  /-- The table. -/
  slots : Array (Slot K)
  /-- The number of elements. -/
  size : Nat
  /-- The number of tombstones. -/
  deleted : Nat

/-- Where the search for an element ended. -/
inductive Location where
  /-- The element is in this slot. -/
  | found (position : Nat)
  /-- The element is absent and belongs into this slot. -/
  | vacant (position : Nat)
  deriving DecidableEq, Repr

namespace ProbingSet

variable {K : Type}

/-- The size of the smallest table. -/
def minCapacity : Nat := 8

/-- The set without elements. -/
def empty (hash : K → UInt64) : ProbingSet K :=
  { hash, slots := Array.replicate minCapacity .empty, size := 0, deleted := 0 }

/-- The elements in the order of their slots. -/
def toList (s : ProbingSet K) : List K := s.slots.toList.filterMap Slot.key?

/-- The position that a number names in a table. The size of a table is a power of two, so the lower
bits of the number are a position, and counting on begins anew after the last slot. -/
def wrap (slots : Array (Slot K)) (n : Nat) : Nat := n &&& (slots.size - 1)

variable [BEq K]

/-- Probes up to `count` slots of a table from `position` on. The element belongs into the first
tombstone on the way if there was one, and else into the empty slot at the end. -/
def probe (slots : Array (Slot K)) (key : K) : Nat → Nat → Option Nat → Location
  | 0, position, tombstone => .vacant (tombstone.getD position)
  | count + 1, position, tombstone =>
    let next := wrap slots (position + 1)
    match slots.getD position .empty with
    | .empty => .vacant (tombstone.getD position)
    | .deleted => probe slots key count next (tombstone <|> some position)
    | .occupied existing =>
      if existing == key then .found position else probe slots key count next tombstone

/-- Searches a table for an element that starts at the slot its hash names. -/
def locateIn (hash : K → UInt64) (slots : Array (Slot K)) (key : K) : Location :=
  probe slots key slots.size (wrap slots (hash key).toNat) none

/-- Searches for an element. -/
def locate (s : ProbingSet K) (key : K) : Location := locateIn s.hash s.slots key

/-- Whether `key` is an element. -/
def contains (s : ProbingSet K) (key : K) : Bool :=
  match s.locate key with
  | .found _ => true
  | .vacant _ => false

/-- Puts an element into the slot where it belongs, unless it is there already. -/
def place (s : ProbingSet K) (key : K) : Bool × ProbingSet K :=
  match s.locate key with
  | .found _ => (false, s)
  | .vacant position =>
    let overTombstone := match s.slots.getD position .empty with
      | .deleted => true
      | _ => false
    (true, { s with
      slots := s.slots.setIfInBounds position (.occupied key)
      size := s.size + 1
      deleted := if overTombstone then s.deleted - 1 else s.deleted })

/-- The size of the table after the next rebuild: twice the size if more than half of the table
would be in use. -/
def rebuiltCapacity (s : ProbingSet K) : Nat :=
  max minCapacity (if (s.size + 1) * 2 > s.slots.size then s.slots.size * 2 else s.slots.size)

/-- Builds the table anew without tombstones, entering the elements in the order of their slots. -/
def rebuild (s : ProbingSet K) : ProbingSet K :=
  s.toList.foldl (fun t key => (t.place key).2)
    { s with slots := Array.replicate s.rebuiltCapacity .empty, size := 0, deleted := 0 }

/-- Whether one more slot in use would fill more than three quarters of the table. -/
def isCrowded (s : ProbingSet K) : Bool :=
  decide ((s.size + s.deleted + 1) * 4 > s.slots.size * 3)

/-- Inserts an element. The answer is whether it was absent. -/
def insert (s : ProbingSet K) (key : K) : Bool × ProbingSet K :=
  (if s.isCrowded then s.rebuild else s).place key

/-- Removes an element. The answer is whether it was present. -/
def erase (s : ProbingSet K) (key : K) : Bool × ProbingSet K :=
  match s.locate key with
  | .found position =>
    (true, { s with
      slots := s.slots.setIfInBounds position .deleted
      size := s.size - 1
      deleted := s.deleted + 1 })
  | .vacant _ => (false, s)

instance : Store (ProbingSet K) K where
  knows s key := s.contains key
  learn s key := s.insert key
  size s := s.size

/-- Writes out the table and the counters. -/
instance [Render K] : Render (ProbingSet K) where
  render s :=
    "ProbingSet \x7b slots: " ++ render s.slots.toList ++ ", len: " ++ render s.size ++
      ", deleted: " ++ render s.deleted ++ ", state: H \x7d"

end ProbingSet

end StateExplorer
