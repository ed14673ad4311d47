import StateExplorer.Model.Value
import StateExplorer.Store.Probing

/-!
# Stores of plain values

A store of plain values is a memory or a probing table. It can list what it keeps.
-/

namespace StateExplorer

/-- A store of plain values. -/
inductive ValueStore where
  /-- Values that are kept in no order, or only counted. -/
  | memory (kept : Memory Value)
  /-- Values in a table. The order of the table means something if `ordered` is set. -/
  | probing (table : ProbingSet Value) (ordered : Bool)

namespace ValueStore

instance : Store ValueStore Value where
  knows
    | .memory kept, key => Store.knows kept key
    | .probing table _, key => Store.knows table key
  learn
    | .memory kept, key => (Store.learn kept key).map id .memory
    | .probing table ordered, key => (Store.learn table key).map id (.probing · ordered)
  size
    | .memory kept => Store.size kept
    | .probing table _ => Store.size table

/-- What the store keeps, in the order of its table where that means something and sorted elsewhere.
There is no list if the store only counts. -/
def list? : ValueStore → Option (List Value)
  | memory kept => kept.remembered?.map fun keys => Value.sort keys.toList
  | probing table true => some table.toList
  | probing table false => some (Value.sort table.toList)

end ValueStore

end StateExplorer
