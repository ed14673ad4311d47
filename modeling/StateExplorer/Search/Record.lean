import StateExplorer.Search.Visitor

/-!
# Records of a search

A recorder keeps a record of every event of a search and can stop the search at chosen events.
-/

namespace StateExplorer

/-- What a visitor is told. -/
inductive Event (V : Type) where
  /-- A vertex was discovered. -/
  | entry (source : Option V) (target : V)
  /-- A known vertex was met. -/
  | known (source : Option V) (target : V)
  /-- A vertex was left and its frame dropped. -/
  | exit (vertex : V) (frame : Frame V)

/-- The vertex that an event is about. -/
def Event.vertex {V : Type} : Event V → V
  | entry _ target => target
  | known _ target => target
  | exit vertex _ => vertex

/-- Keeps what `describe` says of every event and of the search at that moment, and stops the search
where `stopsAt` holds. -/
def Visitor.recorder {m : Type → Type} {V C D : Type} [Monad m] (describe : Event V → C → m D)
    (stopsAt : Event V → m Bool) : Visitor m V C (Array D) where
  enter source target search records := keep (.entry source target) search records
  revisit source target search records := keep (.known source target) search records
  leave vertex frame search records := keep (.exit vertex frame) search records
where
  /-- Keeps an event. -/
  keep (event : Event V) (search : C) (records : Array D) : m (Signal × Array D) := do
    let record ← describe event search
    let signal := if ← stopsAt event then .abort else .proceed
    return (signal, records.push record)

end StateExplorer
