import StateExplorer.Fault
import StateExplorer.Model.Value

/-!
# Predicates and mappings on values

`Predicate` and `Mapping` describe properties and canonical forms of values as data. A predicate may
give up on a value, which makes the whole computation fail.
-/

namespace StateExplorer

/-- A property of values. -/
inductive Predicate where
  /-- Holds of all values or of none. -/
  | const (b : Bool)
  /-- Holds of one value. -/
  | eq (value : Value)
  /-- Holds of the values in a list. -/
  | oneOf (values : List Value)
  /-- Holds of the integers with the given remainder, which is never negative. -/
  | residue (modulus remainder : Int)
  /-- Holds of the integers from `least` on. -/
  | atLeast (least : Int)
  /-- Holds of the integers below `limit`. -/
  | lessThan (limit : Int)
  /-- Holds where another predicate does not. -/
  | not (p : Predicate)
  /-- Holds where all predicates of a list do. They are asked in order up to the first that
  fails. -/
  | all (ps : List Predicate)
  /-- Holds where a predicate of a list does. They are asked in order up to the first that holds. -/
  | any (ps : List Predicate)
  /-- Holds of the lists with an item at `index` of which another predicate holds. -/
  | item (index : Nat) (p : Predicate)
  /-- Gives up on one value and holds of none. -/
  | fault (value : Value)

namespace Predicate

variable {m : Type → Type} [Monad m] [MonadExceptOf Fault m]

mutual

/-- Whether a predicate holds of a value. -/
def holds : Predicate → Value → m Bool
  | const b, _ => return b
  | eq a, value => return value == a
  | oneOf values, value => return values.contains value
  | residue modulus remainder, .int n => return n % modulus == remainder
  | atLeast least, .int n => return decide (least ≤ n)
  | lessThan limit, .int n => return decide (n < limit)
  | not p, value => return !(← holds p value)
  | all ps, value => allHold ps value
  | any ps, value => anyHolds ps value
  | item index p, .arr items =>
    match items[index]? with
    | some value => holds p value
    | none => return false
  | fault a, value =>
    if value == a then throw (Fault.raised s!"predicate panics at {render value}") else return false
  | _, _ => return false

/-- Whether all predicates of a list hold of a value. -/
def allHold : List Predicate → Value → m Bool
  | [], _ => return true
  | p :: ps, value => do if ← holds p value then allHold ps value else return false

/-- Whether some predicate of a list holds of a value. -/
def anyHolds : List Predicate → Value → m Bool
  | [], _ => return false
  | p :: ps, value => do if ← holds p value then return true else anyHolds ps value

end

end Predicate

/-- A mapping of values to values. -/
inductive Mapping where
  /-- Leaves values as they are. -/
  | identity
  /-- The remainder of an integer, which is never negative. -/
  | mod (modulus : Int)
  /-- The quotient of an integer for which the remainder is not negative. -/
  | div (divisor : Int)
  /-- The smaller of an integer and a limit. -/
  | min (limit : Int)
  /-- The greater of an integer and a limit. -/
  | max (limit : Int)
  /-- The same value for all. -/
  | const (value : Value)
  /-- One where a predicate holds and zero where it does not. -/
  | indicator (p : Predicate)
  /-- An item of a list. -/
  | item (index : Nat)
  /-- The partner of a value in the first pair that starts with it. -/
  | table (pairs : List (Value × Value))
  /-- The number of characters of a text or of items of a list. -/
  | length

/-- Maps a value. Where a mapping says nothing about a value, it stays as it is. -/
def Mapping.apply {m : Type → Type} [Monad m] [MonadExceptOf Fault m] :
    Mapping → Value → m Value
  | mod modulus, .int n => return .int (n % modulus)
  | div divisor, .int n => return .int (n / divisor)
  | min limit, .int n => return .int (Min.min n limit)
  | max limit, .int n => return .int (Max.max n limit)
  | const value, _ => return value
  | indicator p, value => return .nat (if ← p.holds value then 1 else 0)
  | item index, .arr items => return items[index]?.getD (.arr items)
  | table pairs, value => return ((pairs.find? (·.1 == value)).map Prod.snd).getD value
  | length, .str s => return .nat s.length
  | length, .arr items => return .nat items.length
  | _, value => return value

end StateExplorer
